import Mathlib.Data.List.Nodup
import Mathlib.Logic.Function.Basic

/-! Queues whose elements carry the link to the element put after them. What is put is linked
to the top, what is got is the bottom, and both are NULL where the queue is empty. -/
namespace LinkedQueue

variable {ι : Type}

/-- The links lead from here through the elements, and then to NULL. -/
def Leads (prev : ι → Option ι) (p : Option ι) : List ι → Prop
  | [] => p = none
  | x :: xs => p = some x ∧ Leads prev (prev x) xs

structure Holds (prev : ι → Option ι) (bottom top : Option ι) (xs : List ι) : Prop where
  leads : Leads prev bottom xs
  top : top = xs.getLast?
  distinct : xs.Nodup

section

variable {prev prev' : ι → Option ι} {p bottom top : Option ι} {xs : List ι}

theorem Leads.congr (leads : Leads prev p xs) (same : ∀ x ∈ xs, prev' x = prev x) : Leads prev' p xs := by
  induction xs generalizing p with
  | nil => exact leads
  | cons x xs ih =>
    obtain ⟨here, rest⟩ := leads
    refine ⟨here, ?_⟩
    rw [same x List.mem_cons_self]
    exact ih rest fun y member => same y (List.mem_cons_of_mem x member)

/- The last element is linked to another one. -/
theorem Leads.concat {t e : ι} (leads : Leads prev p (xs ++ [t])) (same : ∀ x ∈ xs, prev' x = prev x)
    (linked : prev' t = some e) (ends : prev' e = none) : Leads prev' p (xs ++ [t] ++ [e]) := by
  induction xs generalizing p with
  | nil => exact ⟨leads.1, linked, ends⟩
  | cons x xs ih =>
    obtain ⟨here, rest⟩ := leads
    refine ⟨here, ?_⟩
    rw [same x List.mem_cons_self]
    exact ih rest fun y member => same y (List.mem_cons_of_mem x member)

namespace Holds

theorem empty (prev : ι → Option ι) : Holds prev none none [] := ⟨rfl, rfl, .nil⟩

theorem congr (holds : Holds prev bottom top xs) (same : ∀ x ∈ xs, prev' x = prev x) : Holds prev' bottom top xs :=
  ⟨holds.leads.congr same, holds.top, holds.distinct⟩

theorem none_iff (holds : Holds prev bottom top xs) : top = none ↔ xs = [] := by
  rw [holds.top, List.getLast?_eq_none_iff]

/-- The first element is put. -/
theorem put_first (holds : Holds prev bottom none xs) {e : ι} (ends : prev e = none) :
    Holds prev (some e) (some e) (xs ++ [e]) := by
  rw [holds.none_iff.mp rfl]
  exact ⟨⟨rfl, ends⟩, rfl, List.nodup_singleton e⟩

/-- An element is put behind others. -/
theorem put [DecidableEq ι] {t e : ι} (holds : Holds prev bottom (some t) xs) (fresh : e ∉ xs)
    (ends : prev e = none) : t ∈ xs ∧ Holds (Function.update prev t (some e)) bottom (some e) (xs ++ [e]) := by
  obtain ⟨front, rfl⟩ := List.getLast?_eq_some_iff.mp holds.top.symm
  have member : t ∈ front ++ [t] := List.mem_append_right front List.mem_cons_self
  have apart : e ≠ t := fun same => fresh (same ▸ member)
  refine ⟨member, holds.leads.concat (fun x inside => ?_) (Function.update_self ..) ?_, ?_, ?_⟩
  · have before : x ≠ t := by
      rintro rfl
      exact (List.nodup_append.mp holds.distinct).2.2 x inside x List.mem_cons_self rfl
    exact Function.update_of_ne before ..
  · rw [Function.update_of_ne apart]
    exact ends
  · exact List.getLast?_concat.symm
  · apply List.nodup_append.mpr
    exact ⟨holds.distinct, List.nodup_singleton e, fun x inside y here same =>
      fresh (List.mem_singleton.mp here ▸ same ▸ inside)⟩

/-- The bottom is got, if there is one. -/
theorem get_none (holds : Holds prev none top xs) : xs = [] := by
  cases xs with
  | nil => rfl
  | cons x xs => exact absurd holds.leads.1 nofun

theorem get {e : ι} (holds : Holds prev (some e) top xs) :
    ∃ rest, xs = e :: rest ∧ Holds prev (prev e) (if prev e = none then none else top) rest := by
  cases xs with
  | nil => exact absurd holds.leads nofun
  | cons x rest =>
    obtain ⟨here, leads⟩ := holds.leads
    cases here
    refine ⟨rest, rfl, leads, ?_, (List.nodup_cons.mp holds.distinct).2⟩
    cases rest with
    | nil => exact if_pos leads
    | cons y rest =>
      rw [if_neg (by rw [leads.1]; nofun), holds.top, List.getLast?_cons_cons]

end Holds

end

end LinkedQueue
