import Mathlib.Data.List.Basic

/-! Buffers by name. A heap knows which buffers are live: a new one has a name that was never used
before, and only a live one can be released. What is owned is a list of names, and the rules say
what allocating and releasing do to it. -/
namespace Ownership

structure Heap where
  live : List Nat
  next : Nat
  fresh : ∀ p ∈ live, p < next
  distinct : live.Nodup

namespace Heap

def empty : Heap where
  live := []
  next := 0
  fresh := nofun
  distinct := .nil

def alloc (h : Heap) : Heap where
  live := h.next :: h.live
  next := h.next + 1
  fresh := List.forall_mem_cons.mpr ⟨Nat.lt_succ_self _, fun p mem => Nat.lt_succ_of_lt (h.fresh p mem)⟩
  distinct := List.nodup_cons.mpr ⟨fun mem => Nat.lt_irrefl _ (h.fresh _ mem), h.distinct⟩

def release (h : Heap) (p : Nat) : Option Heap :=
  if p ∈ h.live then
    some { h with
      live := h.live.erase p
      fresh := fun q mem => h.fresh q (List.mem_of_mem_erase mem)
      distinct := h.distinct.erase p }
  else none

/-- All that is live, each buffer once. -/
def Owns (h : Heap) (ps : List Nat) : Prop := h.live.Perm ps

end Heap

section

variable {h h' : Heap} {p : Nat} {ps qs : List Nat}

theorem Heap.Owns.perm (owns : h.Owns ps) (same : ps.Perm qs) : h.Owns qs := List.Perm.trans owns same

theorem owns_empty : Heap.empty.Owns [] := .nil

theorem owns_alloc (owns : h.Owns ps) : h.alloc.Owns (h.next :: ps) := List.Perm.cons h.next owns

theorem owns_release (owns : h.Owns (p :: ps)) : ∃ h', h.release p = some h' ∧ h'.Owns ps := by
  have live : p ∈ h.live := List.Perm.mem_iff owns |>.mpr List.mem_cons_self
  refine ⟨_, if_pos live, ?_⟩
  have left := List.Perm.erase p owns
  rwa [List.erase_cons_head] at left

/-- What is owned is known up to its order. -/
theorem owns_unique (owns : h.Owns ps) (owns' : h.Owns qs) : ps.Perm qs := (List.Perm.symm owns).trans owns'

end

section

variable {ι : Type} [DecidableEq ι] {l : List ι} {i : ι} {f g : ι → List Nat}

/-- What all own is what one of them owns, and what the others do. -/
theorem parts_perm (inside : i ∈ l) (f : ι → List Nat) : (l.flatMap f).Perm (f i ++ (l.erase i).flatMap f) := by
  have front := List.Perm.flatMap_right f (List.perm_cons_erase inside)
  rwa [List.flatMap_cons] at front

theorem parts_others (distinct : l.Nodup) (same : ∀ j, j ≠ i → f j = g j) :
    (l.erase i).flatMap f = (l.erase i).flatMap g := by
  refine List.flatMap_congr fun j member => same j ?_
  exact (distinct.mem_erase_iff.mp member).1

end

end Ownership
