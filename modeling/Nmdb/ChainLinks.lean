import Nmdb.Cache
import Mathlib.Data.List.Nodup

/-! The pointer surgery of a chain in terms of its ring of links: promoting an entry is
unlinking it and linking it in front, and no contents change on the way. -/
namespace Nmdb

open DoublyLinked

/- What an entry holds, apart from its place in the list. -/
def content (e : CacheEntry) : Ptr × Int × Ptr × Int := (e.key, e.ksize, e.val, e.vsize)

namespace CacheChain

def links (c : CacheChain) : Links Slot :=
  ⟨c.first, c.last, fun i => (c.entries i).next, fun i => (c.entries i).prev⟩

/- The chains differ in links only. -/
def SameContent (c d : CacheChain) : Prop :=
  d.len = c.len ∧ ∀ i, content (d.entries i) = content (c.entries i)

theorem modify_field {α : Type} (c : CacheChain) (i : Slot) (f : CacheEntry → CacheEntry)
    (g : CacheEntry → α) :
    (fun j => g ((c.modify i f).entries j)) =
      Function.update (fun j => g (c.entries j)) i (g (f (c.entries i))) := by
  funext j
  by_cases h : j = i
  · subst h
    simp only [modify, Function.update_self]
  · simp only [modify, Function.update_of_ne h]

theorem modify_content {c : CacheChain} {i : Slot} {f : CacheEntry → CacheEntry}
    (same : content (f (c.entries i)) = content (c.entries i)) : SameContent c (c.modify i f) := by
  refine ⟨rfl, fun j => ?_⟩
  have h := congrFun (modify_field c i f content) j
  rw [same, Function.update_eq_self i fun j => content (c.entries j)] at h
  exact h

theorem links_setNext (c : CacheChain) (i : Slot) (p : Option Slot) :
    (c.setNext i p).links = c.links.setFwd (some i) p := by
  have next := modify_field c i (fun e => { e with next := p }) CacheEntry.next
  have prev := modify_field c i (fun e => { e with next := p }) CacheEntry.prev
  rw [Function.update_eq_self i fun j => (c.entries j).prev] at prev
  simp only [links, setNext, next, prev]
  rfl

theorem links_setPrev (c : CacheChain) (i : Slot) (p : Option Slot) :
    (c.setPrev i p).links = c.links.setBwd (some i) p := by
  have next := modify_field c i (fun e => { e with prev := p }) CacheEntry.next
  have prev := modify_field c i (fun e => { e with prev := p }) CacheEntry.prev
  rw [Function.update_eq_self i fun j => (c.entries j).next] at next
  simp only [links, setPrev, next, prev]
  rfl

theorem links_setFirst (c : CacheChain) (p : Option Slot) :
    ({ c with first := p } : CacheChain).links = c.links.setFwd none p := rfl

theorem links_setLast (c : CacheChain) (p : Option Slot) :
    ({ c with last := p } : CacheChain).links = c.links.setBwd none p := rfl

theorem setNext_first (c : CacheChain) (i : Slot) (p : Option Slot) :
    (c.setNext i p).first = c.first := rfl

theorem setPrev_first (c : CacheChain) (i : Slot) (p : Option Slot) :
    (c.setPrev i p).first = c.first := rfl

/- A change of an entry that keeps its links. -/
theorem links_modify {c : CacheChain} {i : Slot} {f : CacheEntry → CacheEntry}
    (next : (f (c.entries i)).next = (c.entries i).next)
    (prev : (f (c.entries i)).prev = (c.entries i).prev) : (c.modify i f).links = c.links := by
  have nexts := modify_field c i f CacheEntry.next
  have prevs := modify_field c i f CacheEntry.prev
  rw [next, Function.update_eq_self i fun j => (c.entries j).next] at nexts
  rw [prev, Function.update_eq_self i fun j => (c.entries j).prev] at prevs
  simp only [links, nexts, prevs]
  rfl

theorem links_elsewhere (c : CacheChain) {i : Slot} (f : CacheEntry → CacheEntry) {z : Option Slot}
    (other : z ≠ some i) :
    (c.modify i f).links.fwd z = c.links.fwd z ∧ (c.modify i f).links.bwd z = c.links.bwd z := by
  cases z with
  | none => exact ⟨rfl, rfl⟩
  | some j =>
    have apart : j ≠ i := fun h => other (by rw [h])
    have next := congrFun (modify_field c i f CacheEntry.next) j
    have prev := congrFun (modify_field c i f CacheEntry.prev) j
    rw [Function.update_of_ne apart] at next prev
    exact ⟨next, prev⟩

theorem links_next (c : CacheChain) (i : Slot) : (c.entries i).next = c.links.fwd (some i) := rfl
theorem links_prev (c : CacheChain) (i : Slot) : (c.entries i).prev = c.links.bwd (some i) := rfl

namespace SameContent

theorem refl (c : CacheChain) : SameContent c c := ⟨rfl, fun _ => rfl⟩

theorem trans {b c d : CacheChain} (h : SameContent b c) (h' : SameContent c d) :
    SameContent b d := ⟨h'.1.trans h.1, fun i => (h'.2 i).trans (h.2 i)⟩

theorem setNext {c d : CacheChain} (h : SameContent c d) (i : Slot) (p : Option Slot) :
    SameContent c (d.setNext i p) := by
  have step : SameContent d (d.setNext i p) := modify_content rfl
  exact ⟨h.1, fun j => (step.2 j).trans (h.2 j)⟩

theorem setPrev {c d : CacheChain} (h : SameContent c d) (i : Slot) (p : Option Slot) :
    SameContent c (d.setPrev i p) := by
  have step : SameContent d (d.setPrev i p) := modify_content rfl
  exact ⟨h.1, fun j => (step.2 j).trans (h.2 j)⟩

theorem setFirst {c d : CacheChain} (h : SameContent c d) (p : Option Slot) :
    SameContent c { d with first := p } := h

theorem setLast {c d : CacheChain} (h : SameContent c d) (p : Option Slot) :
    SameContent c { d with last := p } := h

end SameContent

end CacheChain

open CacheChain

theorem bypass_links {c : CacheChain} {e p : Slot} (prev : c.links.bwd (some e) = some p)
    (apart : p ≠ e) :
    ∃ d, bypass c e = .ok d ∧ SameContent c d ∧ d.links.bwd none = c.links.bwd none ∧
      (∀ z, d.links.fwd z = if z = some p then c.links.fwd (some e) else c.links.fwd z) ∧
      ∀ j, d.links.bwd (some j) =
        if c.links.fwd (some e) = some j then some p else c.links.bwd (some j) := by
  have apart' : some e ≠ some p := by simpa using Ne.symm apart
  cases next : c.links.fwd (some e) with
  | none =>
    refine ⟨c.setNext p none, ?_, (SameContent.refl c).setNext p _, rfl, fun z => ?_, fun j => ?_⟩
    · simp only [bypass, links_next, links_prev, links_setNext, prev, next, deref, ok_bind,
        Links.fwd_setFwd, if_neg apart', pure_ok]
    · rw [links_setNext, Links.fwd_setFwd]
    · rw [links_setNext, Links.bwd_setFwd, if_neg (by simp)]
  | some n =>
    refine ⟨(c.setNext p (some n)).setPrev n (some p), ?_,
      ((SameContent.refl c).setNext p _).setPrev n _, rfl, fun z => ?_, fun j => ?_⟩
    · simp only [bypass, links_next, links_prev, links_setNext, prev, next, deref, ok_bind,
        Links.fwd_setFwd, Links.bwd_setFwd, if_neg apart', pure_ok]
    · rw [links_setPrev, links_setNext, Links.fwd_setBwd, Links.fwd_setFwd]
    · rw [links_setPrev, links_setNext, Links.bwd_setBwd, Links.bwd_setFwd]
      simp only [eq_comm]

/-- Moving an entry first is linking it in front. -/
theorem moveFirst_links {c : CacheChain} {e f : Slot} (first : c.links.fwd none = some f)
    (apart : f ≠ e) :
    ∃ d, moveFirst c e = .ok d ∧ SameContent c d ∧ d.links = c.links.pushFront e := by
  refine ⟨{ ((c.setPrev e none).setNext e (some f)).setPrev f (some e) with first := some e }, ?_, ?_, ?_⟩
  · have kept : c.first = some f := first
    simp only [moveFirst, setNext_first, setPrev_first, kept, deref, ok_bind, pure_ok]
  · exact ((((SameContent.refl c).setPrev e _).setNext e _).setPrev f _).setFirst _
  · rw [links_setFirst, links_setPrev, links_setNext, links_setPrev]
    refine Links.ext_walk (fun z => ?_) (fun z => ?_)
    · simp only [Links.pushFront, Links.fwd_setFwd, Links.fwd_setBwd, Links.fwd_join, first]
    · simp only [Links.pushFront, Links.bwd_setFwd, Links.bwd_setBwd, Links.bwd_join, first]
      by_cases he : z = some e
      · have : z ≠ some f := fun hf => apart (Option.some.inj (hf.symm.trans he))
        simp only [he, if_true, if_neg (he ▸ this)]
      · simp only [if_neg he]

theorem deref_getLast {L : Links Slot} {xs ys : List Slot} {e : Slot}
    (h : Linked L (xs ++ e :: ys)) (notFront : xs ≠ []) :
    ∃ p, L.bwd (some e) = some p ∧ p ≠ e := by
  have absent := (List.nodup_cons.mp (List.nodup_middle.mp h.nodup)).1
  refine ⟨xs.getLast notFront, ?_, fun he => ?_⟩
  · rw [h.prev_eq, List.getLast?_eq_some_getLast notFront]
  · exact absent (List.mem_append_left _ (he ▸ List.getLast_mem notFront))

theorem cutLast_same (c : CacheChain) (e : Slot) : SameContent c (cutLast c e) := by
  unfold cutLast
  split
  · exact (SameContent.refl c).setLast _
  · exact SameContent.refl c

theorem cutLast_fwd (c : CacheChain) (e : Slot) (z : Option Slot) :
    (cutLast c e).links.fwd z = c.links.fwd z := by
  unfold cutLast
  split
  · rw [links_setLast, Links.fwd_setBwd]
  · rfl

theorem cutLast_bwd (c : CacheChain) (e j : Slot) :
    (cutLast c e).links.bwd (some j) = c.links.bwd (some j) := by
  unfold cutLast
  split
  · rw [links_setLast, Links.bwd_setBwd, if_neg (by simp)]
  · rfl

theorem cutLast_last (c : CacheChain) (e : Slot) :
    (cutLast c e).links.bwd none =
      if c.links.bwd none = some e then c.links.bwd (some e) else c.links.bwd none :=
  apply_ite (fun d : CacheChain => d.links.bwd none) _ _ _

/-- A promoted entry is taken out and put in front. -/
theorem promote_linked {c : CacheChain} {xs ys : List Slot} {e : Slot}
    (h : Linked c.links (xs ++ e :: ys)) :
    ∃ d, promote c e = .ok d ∧ Linked d.links (e :: (xs ++ ys)) ∧ SameContent c d := by
  by_cases top : c.first = some e
  · have front : xs = [] := (Linked.first_iff h).mp top
    refine ⟨c, by rw [promote, if_pos top], ?_, SameContent.refl c⟩
    rw [front] at h ⊢
    exact h
  · have notFront : xs ≠ [] := fun front => top ((Linked.first_iff h).mpr front)
    have absent := (List.nodup_cons.mp (List.nodup_middle.mp h.nodup)).1
    obtain ⟨p, prev, apart⟩ := deref_getLast h notFront
    -- with e last, last moves back first: it is the header's own link to e
    have prev' := (cutLast_bwd c e e).trans prev
    obtain ⟨d, bypassed, sameD, lastD, fwdD, bwdD⟩ := bypass_links prev' apart
    have unlinked : d.links = c.links.unlink e := by
      refine Linked.unlink_eq h (fun z => ?_) (fun j => ?_) ?_
      · rw [fwdD, cutLast_fwd, cutLast_fwd, prev]
      · rw [bwdD, cutLast_fwd, cutLast_bwd, prev]
      · rw [lastD, cutLast_last]
    have linkedD : Linked d.links (xs ++ ys) := unlinked ▸ h.unlink
    obtain ⟨f, first⟩ : ∃ f, d.links.fwd none = some f := by
      rw [linkedD.first_eq, List.head?_append, List.head?_eq_some_head notFront]
      exact ⟨_, rfl⟩
    have firstApart : f ≠ e := by
      rintro rfl
      exact absent (List.mem_of_head? (linkedD.first_eq ▸ first))
    obtain ⟨d', moved, sameD', linksD'⟩ := moveFirst_links first firstApart
    refine ⟨d', ?_, linksD' ▸ linkedD.pushFront absent, ?_⟩
    · rw [promote, if_neg top, bypassed, ok_bind, moved]
    · exact (cutLast_same c e).trans (sameD.trans sameD')

theorem unlinkEntry_links {c : CacheChain} {xs ys : List Slot} {e : Slot}
    (h : Linked c.links (xs ++ e :: ys)) :
    ∃ d, unlinkEntry c e = .ok d ∧ d.links = c.links.unlink e ∧ SameContent c d := by
  -- both branches mend the neighbours, the last step mends the end
  have finish : ∀ d : CacheChain, SameContent c d → d.links.bwd none = c.links.bwd none →
      (∀ z, d.links.fwd z = if z = c.links.bwd (some e) then c.links.fwd (some e) else c.links.fwd z) →
      (∀ j, d.links.bwd (some j) =
        if c.links.fwd (some e) = some j then c.links.bwd (some e) else c.links.bwd (some j)) →
      (cutLast d e).links = c.links.unlink e ∧ SameContent c (cutLast d e) := by
    intro d same last fwd bwd
    refine ⟨Linked.unlink_eq h (fun z => ?_) (fun j => ?_) ?_, same.trans (cutLast_same d e)⟩
    · rw [cutLast_fwd, fwd]
    · rw [cutLast_bwd, bwd]
    · rw [cutLast_last, last, bwd, ite_self]
  by_cases top : c.first = some e
  · have front : xs = [] := (Linked.first_iff h).mp top
    have prev : c.links.bwd (some e) = none := by
      rw [h.prev_eq, front]
      rfl
    have same : SameContent c { c with first := (c.entries e).next } := (SameContent.refl c).setFirst _
    cases next : c.links.fwd (some e) with
    | none =>
      refine ⟨cutLast { c with first := (c.entries e).next } e, ?_, finish _ same rfl (fun z => ?_)
        fun j => ?_⟩
      · simp only [unlinkEntry, if_pos top, links_next, next, ok_bind, pure_ok]
      · rw [links_setFirst, Links.fwd_setFwd, prev]
        rfl
      · rw [links_setFirst, Links.bwd_setFwd, next, if_neg (by simp)]
    | some n =>
      refine ⟨cutLast (({ c with first := some n } : CacheChain).setPrev n none) e, ?_,
        finish _ (((SameContent.refl c).setFirst _).setPrev n _) rfl (fun z => ?_) fun j => ?_⟩
      · simp only [unlinkEntry, if_pos top, links_next, next, ok_bind, pure_ok]
      · rw [links_setPrev, Links.fwd_setBwd, links_setFirst, Links.fwd_setFwd, prev, next]
      · rw [links_setPrev, Links.bwd_setBwd, links_setFirst, Links.bwd_setFwd, prev, next]
        simp only [eq_comm]
  · have notFront : xs ≠ [] := fun front => top ((Linked.first_iff h).mpr front)
    obtain ⟨p, prev, apart⟩ := deref_getLast h notFront
    obtain ⟨d, bypassed, same, last, fwd, bwd⟩ := bypass_links prev apart
    refine ⟨cutLast d e, ?_, finish d same last ?_ ?_⟩
    · simp only [unlinkEntry, if_neg top, bypassed, ok_bind, pure_ok]
    · rw [prev]
      exact fwd
    · rw [prev]
      exact bwd

/- The moves of an entry in its list change links only. -/
theorem moveFirst_same {c d : CacheChain} {e : Slot} (done : moveFirst c e = .ok d) : SameContent c d := by
  obtain ⟨f, _, same⟩ := bind_eq_ok.mp done
  cases same
  exact ((((SameContent.refl c).setPrev e _).setNext e _).setPrev f _).setFirst _

theorem bypass_same {c d : CacheChain} {e : Slot} (done : bypass c e = .ok d) : SameContent c d := by
  obtain ⟨p, _, rest⟩ := bind_eq_ok.mp done
  simp only at rest
  split at rest
  · cases rest
    exact ((SameContent.refl c).setNext p _).setPrev _ _
  · cases rest
    exact (SameContent.refl c).setNext p _

theorem promote_same {c d : CacheChain} {e : Slot} (done : promote c e = .ok d) : SameContent c d := by
  unfold promote at done
  split at done
  · cases done
    exact SameContent.refl c
  · obtain ⟨c', bypassed, moved⟩ := bind_eq_ok.mp done
    exact (cutLast_same c e).trans ((bypass_same bypassed).trans (moveFirst_same moved))

theorem unlinkEntry_same {c d : CacheChain} {e : Slot} (done : unlinkEntry c e = .ok d) : SameContent c d := by
  unfold unlinkEntry at done
  simp only at done
  split at done
  · split at done
    · cases done
      exact (((SameContent.refl c).setFirst _).setPrev _ _).trans (cutLast_same _ e)
    · cases done
      exact ((SameContent.refl c).setFirst _).trans (cutLast_same _ e)
  · obtain ⟨c', bypassed, same⟩ := bind_eq_ok.mp done
    cases same
    exact (bypass_same bypassed).trans (cutLast_same c' e)

end Nmdb
