import Mathlib.Data.Set.Card
import Mathlib.Order.Bounds.Basic

/-! Visiting the elements of a finite set in their order, one after the other. Each is the
least of those beyond the ones visited before; where nothing is left, all have been visited. -/
namespace KeyOrder

variable {K : Type} [LinearOrder K] {S : Set K} {l : List K} {k x : K}

/-- The least element of a set, none if the set is empty. -/
def Least (S : Set K) : Option K → Prop
  | none => S = ∅
  | some k => IsLeast S k

theorem Least.unique {o p : Option K} (left : Least S o) (right : Least S p) : o = p := by
  cases o with
  | none =>
    cases p with
    | none => rfl
    | some k => exact absurd right.1 (left ▸ Set.notMem_empty k)
  | some k =>
    cases p with
    | none => exact absurd left.1 (right ▸ Set.notMem_empty k)
    | some x => exact congrArg some (IsLeast.unique left right)

/-- From a member of the set, seeking to it and taking one step leads beyond it. -/
theorem Least.seek (member : k ∈ S) {o : Option K} (least : Least {x ∈ S | k ≤ x} o) : o = some k :=
  least.unique ⟨⟨member, le_refl k⟩, fun _ inside => inside.2⟩

/-- The elements that are greater than all visited ones. -/
def beyond (S : Set K) (l : List K) : Set K := {k ∈ S | ∀ x ∈ l, x < k}

theorem beyond_nil : beyond S [] = S := by
  ext k
  simp [beyond]

/-- What has been visited: elements of the set in increasing order, and none left out. -/
structure Visited (S : Set K) (l : List K) : Prop where
  increasing : l.Pairwise (· < ·)
  inside : ∀ k ∈ l, k ∈ S
  closed : ∀ k ∈ S, k ∈ l ∨ ∀ x ∈ l, x < k

namespace Visited

theorem nil : Visited S [] where
  increasing := .nil
  inside _ member := absurd member List.not_mem_nil
  closed _ _ := .inr fun _ member => absurd member List.not_mem_nil

theorem nodup (visited : Visited S l) : l.Nodup := visited.increasing.imp fun less => ne_of_lt less

theorem mem (visited : Visited S (l ++ [k])) : k ∈ S := visited.inside k (by simp)

/-- Beyond the last one visited lies what is beyond all of them. -/
theorem beyond_last (visited : Visited S (l ++ [k])) : beyond S (l ++ [k]) = {x ∈ S | k < x} := by
  ext x
  constructor
  · rintro ⟨member, greater⟩
    exact ⟨member, greater k (by simp)⟩
  · rintro ⟨member, greater⟩
    refine ⟨member, fun y visitedBefore => ?_⟩
    rcases List.mem_append.mp visitedBefore with before | last
    · have less := (List.pairwise_append.mp visited.increasing).2.2 y before k (by simp)
      exact less.trans greater
    · rwa [List.mem_singleton.mp last]

theorem next (visited : Visited S l) (least : IsLeast (beyond S l) k) : Visited S (l ++ [k]) where
  increasing := by
    apply List.pairwise_append.mpr
    refine ⟨visited.increasing, List.pairwise_singleton .., fun x before y last => ?_⟩
    rw [List.mem_singleton.mp last]
    exact least.1.2 x before
  inside x member := by
    rcases List.mem_append.mp member with before | last
    · exact visited.inside x before
    · rw [List.mem_singleton.mp last]
      exact least.1.1
  closed x member := by
    rcases visited.closed x member with before | greater
    · exact .inl (List.mem_append_left _ before)
    · have above : k ≤ x := least.2 ⟨member, greater⟩
      rcases eq_or_lt_of_le above with same | less
      · exact .inl (by simp [same])
      · refine .inr fun y visitedNow => ?_
        rcases List.mem_append.mp visitedNow with before | last
        · exact greater y before
        · rwa [List.mem_singleton.mp last]

/-- With nothing beyond, the visited elements are those of the set. -/
theorem complete (visited : Visited S l) (exhausted : beyond S l = ∅) (k : K) : k ∈ l ↔ k ∈ S := by
  constructor
  · exact visited.inside k
  · intro member
    rcases visited.closed k member with before | greater
    · exact before
    · have left : k ∈ beyond S l := ⟨member, greater⟩
      rw [exhausted] at left
      contradiction

theorem length_le (visited : Visited S l) (finite : S.Finite) : l.length ≤ S.ncard := by
  rw [← List.toFinset_card_of_nodup visited.nodup, ← Set.ncard_coe_finset]
  apply Set.ncard_le_ncard _ finite
  intro k member
  exact visited.inside k (List.mem_toFinset.mp member)

end Visited

end KeyOrder
