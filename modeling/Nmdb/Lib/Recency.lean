import Mathlib.Data.List.Basic
import Mathlib.Data.List.Pairwise

/-! Recency order. A history lists the uses of keys, the newest first; a list of keys
is ordered by most recent use when each key was used after all the keys behind it. -/
namespace Recency

variable {K : Type} [DecidableEq K]

/-- How many uses ago k was last used. -/
def age (uses : List K) (k : K) : Nat := uses.idxOf k

def Ordered (uses l : List K) : Prop :=
  (∀ a ∈ l, a ∈ uses) ∧ l.Pairwise fun a b => age uses a < age uses b

theorem age_cons (uses : List K) (k a : K) :
    age (k :: uses) a = if a = k then 0 else age uses a + 1 := by
  unfold age
  by_cases h : a = k
  · subst h
    simp
  · rw [if_neg h, List.idxOf_cons_ne _ (Ne.symm h)]

theorem Ordered.nil (uses : List K) : Ordered uses [] :=
  ⟨fun _ ha => absurd ha List.not_mem_nil, List.Pairwise.nil⟩

theorem Ordered.sublist {uses l m : List K} (h : Ordered uses l) (sub : m.Sublist l) :
    Ordered uses m :=
  ⟨fun a ha => h.1 a (sub.subset ha), h.2.sublist sub⟩

/-- A use of another key changes no order. -/
theorem Ordered.other {uses l : List K} {k : K} (h : Ordered uses l) (absent : k ∉ l) :
    Ordered (k :: uses) l := by
  refine ⟨fun a ha => List.mem_cons_of_mem k (h.1 a ha), h.2.imp_of_mem ?_⟩
  intro a b ha hb lt
  have hak : a ≠ k := fun e => absent (e ▸ ha)
  have hbk : b ≠ k := fun e => absent (e ▸ hb)
  rw [age_cons, age_cons, if_neg hak, if_neg hbk]
  omega

/-- A used key belongs in front of the others. -/
theorem Ordered.front {uses l : List K} {k : K} (h : Ordered uses l) (absent : k ∉ l) :
    Ordered (k :: uses) (k :: l) := by
  have rest := h.other absent
  refine ⟨?_, List.pairwise_cons.mpr ⟨fun b hb => ?_, rest.2⟩⟩
  · intro a ha
    rcases List.mem_cons.mp ha with rfl | ha
    · exact List.mem_cons_self
    · exact rest.1 a ha
  · have hbk : b ≠ k := fun e => absent (e ▸ hb)
    rw [age_cons, age_cons, if_pos rfl, if_neg hbk]
    omega

/-- A key used where it stands leaves the order right exactly when it stands first. -/
theorem Ordered.in_place {uses l : List K} {k : K} (h : Ordered uses l) (member : k ∈ l) :
    Ordered (k :: uses) l ↔ l.head? = some k := by
  cases l with
  | nil => cases member
  | cons a rest =>
    constructor
    · intro after
      by_contra hne
      have hak : a ≠ k := fun e => hne (by rw [e]; rfl)
      have hk : k ∈ rest := (List.mem_cons.mp member).resolve_left (Ne.symm hak)
      have lt := (List.pairwise_cons.mp after.2).1 k hk
      rw [age_cons, age_cons, if_neg hak, if_pos rfl] at lt
      omega
    · intro first
      obtain rfl : a = k := by simpa using first
      have apart : a ∉ rest := fun ha => Nat.lt_irrefl _ ((List.pairwise_cons.mp h.2).1 a ha)
      exact (h.sublist (List.sublist_cons_self a rest)).front apart

/-- The last key of an ordered list is the one used longest ago. -/
theorem Ordered.last_oldest {uses l : List K} {k : K} (h : Ordered uses (l ++ [k])) :
    ∀ a ∈ l, age uses a < age uses k := fun a ha =>
  (List.pairwise_append.mp h.2).2.2 a ha k (by simp)

end Recency
