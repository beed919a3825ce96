import Mathlib.Data.Nat.ModEq

/-! One's complement sums. Numbers below a base are added, and a carry is added back in: except
that zero has two forms, this is addition modulo the base less one. -/
namespace OnesComplement

def add (base x y : Nat) : Nat := if x + y < base then x + y else x + y - base + 1

def sum (base : Nat) (words : List Nat) : Nat := words.foldl (add base) 0

section

variable {base x y : Nat} {words : List Nat}

theorem add_lt (hx : x < base) (hy : y < base) : add base x y < base := by
  unfold add
  split <;> omega

theorem add_modEq (hy : y < base) : add base x y ≡ x + y [MOD base - 1] := by
  unfold add
  split
  case isTrue => rfl
  case isFalse carry =>
    have whole : x + y = (x + y - base + 1) + (base - 1) := by omega
    nth_rewrite 2 [whole]
    exact (Nat.add_modEq_right).symm

theorem add_eq_zero (hy : y < base) : add base x y = 0 ↔ x = 0 ∧ y = 0 := by
  unfold add
  split <;> omega

/- What each word does, the words do. -/
theorem foldl_add (hx : x < base) (small : ∀ w ∈ words, w < base) :
    words.foldl (add base) x < base ∧ words.foldl (add base) x ≡ x + words.sum [MOD base - 1] ∧
      (words.foldl (add base) x = 0 ↔ x = 0 ∧ words.sum = 0) := by
  induction words generalizing x with
  | nil => exact ⟨hx, rfl, ⟨fun zero => ⟨zero, rfl⟩, And.left⟩⟩
  | cons w words ih =>
    have hw : w < base := small w List.mem_cons_self
    obtain ⟨lt, same, zero⟩ := ih (add_lt hx hw) fun v mem => small v (List.mem_cons_of_mem w mem)
    refine ⟨lt, ?_, ?_⟩
    · rw [List.sum_cons, ← Nat.add_assoc]
      exact same.trans ((add_modEq hw).add_right _)
    · rw [List.foldl_cons, zero, add_eq_zero hw, List.sum_cons, Nat.add_eq_zero_iff, and_assoc]

theorem sum_lt (some : 0 < base) (small : ∀ w ∈ words, w < base) : sum base words < base :=
    (foldl_add some small).1

theorem sum_modEq (some : 0 < base) (small : ∀ w ∈ words, w < base) :
    sum base words ≡ words.sum [MOD base - 1] := by
  have same := (foldl_add some small).2.1
  rwa [Nat.zero_add] at same

theorem sum_eq_zero (some : 0 < base) (small : ∀ w ∈ words, w < base) : sum base words = 0 ↔ words.sum = 0 :=
  (foldl_add some small).2.2.trans (and_iff_right rfl)

/-- A number below the base is known from its residue and from whether it is zero. -/
theorem eq_of_modEq (hx : x < base) (hy : y < base) (same : x ≡ y [MOD base - 1])
    (zero : x = 0 ↔ y = 0) : x = y := by
  by_cases none : x = 0
  · rw [none, zero.mp none]
  · have some : y ≠ 0 := fun none' => none (zero.mpr none')
    have less : x - 1 ≡ y - 1 [MOD base - 1] := by
      apply Nat.ModEq.add_right_cancel' 1
      rwa [Nat.sub_add_cancel (Nat.pos_of_ne_zero none), Nat.sub_add_cancel (Nat.pos_of_ne_zero some)]
    have equal := Nat.ModEq.eq_of_lt_of_lt less (by omega) (by omega)
    omega

end

end OnesComplement
