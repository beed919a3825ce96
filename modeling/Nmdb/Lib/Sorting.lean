import Mathlib.Data.List.Sort

/-! Sorting by a comparison function in the manner of C's qsort: its sign says which of two
elements comes first. What is sorted is determined by the elements up to those that compare
equal. -/
namespace Sorting

section

variable {A B : Type}

/-- What a comparison has to be for qsort to mean anything. -/
structure Consistent (cmp : A → A → Int) : Prop where
  flip : ∀ a b, cmp a b < 0 ↔ 0 < cmp b a
  trans : ∀ a b c, cmp a b ≤ 0 → cmp b c ≤ 0 → cmp a c ≤ 0

def Sorted (cmp : A → A → Int) (l : List A) : Prop := l.Pairwise fun a b => cmp a b ≤ 0

/-- A sorting function: for a consistent comparison it puts the elements in order. -/
def Sorts (qsort : (A → A → Int) → List A → List A) : Prop :=
  ∀ cmp l, Consistent cmp → (qsort cmp l).Perm l ∧ Sorted cmp (qsort cmp l)

theorem Consistent.total {cmp : A → A → Int} (consistent : Consistent cmp) (a b : A) :
    cmp a b ≤ 0 ∨ cmp b a ≤ 0 := by
  have flip := consistent.flip b a
  omega

/-- Two sorted lists with the same elements, as far as the comparison looks at them, are the
same that far. -/
theorem sorted_unique {cmp : A → A → Int} {view : A → B} {cmpView : B → B → Int}
    (factors : ∀ a b, cmp a b = cmpView (view a) (view b))
    (antisymm : ∀ x y, cmpView x y ≤ 0 → cmpView y x ≤ 0 → x = y) {l₁ l₂ : List A}
    (sorted₁ : Sorted cmp l₁) (sorted₂ : Sorted cmp l₂) (same : (l₁.map view).Perm (l₂.map view)) :
    l₁.map view = l₂.map view := by
  have viewed : ∀ {l}, Sorted cmp l → (l.map view).Pairwise fun x y => cmpView x y ≤ 0 := by
    intro l sorted
    rw [List.pairwise_map]
    refine List.Pairwise.imp (fun {a b} le => ?_) sorted
    rwa [← factors]
  exact same.eq_of_pairwise (fun x y _ _ => antisymm x y) (viewed sorted₁) (viewed sorted₂)

/-- Merge sort sorts. -/
theorem mergeSort_sorts : Sorts fun cmp (l : List A) => l.mergeSort fun a b => cmp a b ≤ 0 := by
  intro cmp l consistent
  refine ⟨List.mergeSort_perm _ _, ?_⟩
  have sorted : (l.mergeSort fun a b => cmp a b ≤ 0).Pairwise fun a b => decide (cmp a b ≤ 0) = true := by
    apply List.pairwise_mergeSort
    · intro a b c first second
      rw [decide_eq_true_eq] at first second ⊢
      exact consistent.trans a b c first second
    · intro a b
      rw [Bool.or_eq_true, decide_eq_true_eq, decide_eq_true_eq]
      exact consistent.total a b
  exact sorted.imp fun le => of_decide_eq_true le

end

end Sorting
