import Nmdb.Bucket
import Nmdb.ChainLinks
import Nmdb.Lib.Runs
import Mathlib.Data.Fintype.Card

/-! The linked chain of the code represents the recency list of a bucket, and every
operation of a chain has the outcome of the bucket operation, for all outcomes of
malloc(). -/
namespace Nmdb

open DoublyLinked CacheChain

def holding (p : Bytes × Bytes) : Ptr × Int × Ptr × Int :=
  (.block p.1, p.1.length, .block p.2, p.2.length)

def Stores (c : CacheChain) (i : Slot) (p : Bytes × Bytes) : Prop :=
  content (c.entries i) = holding p

/- Slots in list order, with the pairs they hold. -/
structure Represents (c : CacheChain) (is : List Slot) (l : List (Bytes × Bytes)) : Prop where
  linked : Linked c.links is
  used : ∀ i, (c.entries i).ksize ≠ -1 ↔ i ∈ is
  stores : List.Forall₂ (Stores c) is l
  keys : (Assoc.keys l).Nodup

def Models (c : CacheChain) (b : Bucket) : Prop :=
  (∃ is, Represents c is b.pairs) ∧ c.len = b.len ∧ b.pairs.length ≤ b.len ∧ b.len ≤ CHAINLEN

/- Where the search ends: at the entry of the key, or past the last entry. -/
def Located (c : CacheChain) (key : Bytes) (is : List Slot) (l : List (Bytes × Bytes)) :
    Option Slot → Prop
  | none => Assoc.get key l = none
  | some e => ∃ v xs ys lx ly, is = xs ++ e :: ys ∧ l = lx ++ (key, v) :: ly ∧
      List.Forall₂ (Stores c) xs lx ∧ List.Forall₂ (Stores c) ys ly ∧ Stores c e (key, v) ∧
      Assoc.get key l = some v

theorem findFrom_located {c : CacheChain} {key : Bytes} {is : List Slot} {l : List (Bytes × Bytes)}
    (stores : List.Forall₂ (Stores c) is l) {n : Nat} (enough : is.length ≤ n)
    (linked : ∀ xs a ys, is = xs ++ a :: ys → (c.entries a).next = ys.head?) :
    ∃ r, findFrom c key n is.head? = .ok r ∧ Located c key is l r := by
  induction stores generalizing n with
  | nil => exact ⟨none, by cases n <;> rfl, rfl⟩
  | @cons i p is l here rest ih =>
    obtain ⟨n, rfl⟩ : ∃ k, n = k + 1 := ⟨n - 1, by simp at enough; omega⟩
    have next : (c.entries i).next = is.head? := linked [] i is rfl
    have tail := ih (n := n) (by simpa using enough) fun xs a ys h => linked (i :: xs) a ys (by simp [h])
    obtain ⟨r, found, located⟩ := tail
    have skip : key ≠ p.1 → Located c key (i :: is) (p :: l) r := by
      intro hne
      cases r with
      | none =>
        simp only [Located, Assoc.get_cons, if_neg hne]
        exact located
      | some e =>
        obtain ⟨v, xs, ys, lx, ly, hi, hl, before, after, at_, look⟩ := located
        refine ⟨v, i :: xs, ys, p :: lx, ly, by simp [hi], by simp [hl], .cons here before, after,
          at_, ?_⟩
        rw [Assoc.get_cons, if_neg hne, look]
    have size : (c.entries i).ksize = p.1.length := congrArg (fun x => x.2.1) here
    have block : (c.entries i).key = .block p.1 := congrArg (fun x => x.1) here
    rw [List.head?_cons, findFrom]
    by_cases len : key.length = p.1.length
    · rw [if_neg (by rw [size, len]; simp), block, memEq_block len]
      by_cases same : key = p.1
      · refine ⟨some i, by simp [same], p.2, [], is, [], l, rfl, by simp [same], .nil, rest, ?_, ?_⟩
        · rw [same]
          exact here
        · rw [Assoc.get_cons, if_pos same]
      · exact ⟨r, by simpa [same, next] using found, skip same⟩
    · have hne : key ≠ p.1 := fun h => len (by rw [h])
      rw [if_pos (by rw [size]; omega), next]
      exact ⟨r, found, skip hne⟩

theorem findInChain_located {c : CacheChain} {is : List Slot} {l : List (Bytes × Bytes)}
    (h : Represents c is l) (key : Bytes) :
    ∃ r, findInChain c key = .ok r ∧ Located c key is l r := by
  have short : is.length ≤ CHAINLEN := by
    simpa using List.Nodup.length_le_card h.linked.nodup
  unfold findInChain
  rw [show c.first = is.head? from h.linked.first_eq]
  exact findFrom_located h.stores short fun xs a ys split => Linked.next_eq (L := c.links) (split ▸ h.linked)

/- What a search finds is in use. -/
theorem findFrom_used {c : CacheChain} {key : Bytes} {n : Nat} {start : Option Slot} {e : Slot}
    (found : findFrom c key n start = .ok (some e)) : (c.entries e).ksize ≠ -1 := by
  induction n generalizing start with
  | zero => cases start <;> cases found
  | succ n ih =>
    cases start with
    | none => cases found
    | some i =>
      rw [findFrom] at found
      split at found
      case isTrue => exact ih found
      case isFalse size =>
        obtain ⟨same, _, found⟩ := bind_eq_ok.mp found
        cases same with
        | true =>
          cases found
          omega
        | false => exact ih found

theorem forall₂_of_mem {α β : Type} {R S : α → β → Prop} {is : List α} {l : List β}
    (h : List.Forall₂ R is l) (imp : ∀ i ∈ is, ∀ p, R i p → S i p) : List.Forall₂ S is l := by
  induction h with
  | nil => exact .nil
  | @cons i p is l here _ ih =>
    exact .cons (imp i (by simp) p here) (ih fun j hj => imp j (by simp [hj]))

theorem CacheChain.SameContent.stores {c d : CacheChain} (h : SameContent c d) {i : Slot} {p : Bytes × Bytes} :
    Stores d i p ↔ Stores c i p := by
  unfold Stores
  rw [h.2 i]

theorem CacheChain.SameContent.ksize {c d : CacheChain} (h : SameContent c d) (i : Slot) :
    (d.entries i).ksize = (c.entries i).ksize := congrArg (fun x => x.2.1) (h.2 i)

/- Contents away from one slot are unchanged. -/
def SameElsewhere (e : Slot) (c d : CacheChain) : Prop :=
  d.len = c.len ∧ ∀ i, i ≠ e → content (d.entries i) = content (c.entries i)

theorem modify_elsewhere (c : CacheChain) (e : Slot) (f : CacheEntry → CacheEntry) :
    SameElsewhere e c (c.modify e f) := by
  refine ⟨rfl, fun i hi => ?_⟩
  have h := congrFun (modify_field c e f content) i
  rw [Function.update_of_ne hi] at h
  exact h

theorem modify_here (c : CacheChain) (e : Slot) (f : CacheEntry → CacheEntry) :
    (c.modify e f).entries e = f (c.entries e) := by
  simp only [CacheChain.modify, Function.update_self]

theorem SameElsewhere.trans {e : Slot} {b c d : CacheChain} (first : SameElsewhere e b c) (second : SameElsewhere e c d) :
    SameElsewhere e b d :=
  ⟨second.1.trans first.1, fun i apart => (second.2 i apart).trans (first.2 i apart)⟩

theorem SameElsewhere.trans_same {e : Slot} {b c d : CacheChain} (h : SameElsewhere e b c)
    (h' : SameContent c d) : SameElsewhere e b d :=
  ⟨h'.1.trans h.1, fun i hi => (h'.2 i).trans (h.2 i hi)⟩

theorem SameElsewhere.stores {e : Slot} {c d : CacheChain} (h : SameElsewhere e c d)
    {is : List Slot} {l : List (Bytes × Bytes)} (absent : e ∉ is)
    (held : List.Forall₂ (Stores c) is l) : List.Forall₂ (Stores d) is l :=
  forall₂_of_mem held fun i hi _ hp => (h.2 i fun he => absent (he ▸ hi)).trans hp

theorem Stores.ksize {c : CacheChain} {i : Slot} {p : Bytes × Bytes} (h : Stores c i p) :
    (c.entries i).ksize = p.1.length := congrArg (fun x => x.2.1) h

theorem Stores.key {c : CacheChain} {i : Slot} {p : Bytes × Bytes} (h : Stores c i p) :
    (c.entries i).key = .block p.1 := congrArg (fun x => x.1) h

theorem Stores.vsize {c : CacheChain} {i : Slot} {p : Bytes × Bytes} (h : Stores c i p) :
    (c.entries i).vsize = p.2.length := congrArg (fun x => x.2.2.2) h

theorem Stores.val {c : CacheChain} {i : Slot} {p : Bytes × Bytes} (h : Stores c i p) :
    (c.entries i).val = .block p.2 := congrArg (fun x => x.2.2.1) h

theorem Stores.used {c : CacheChain} {i : Slot} {p : Bytes × Bytes} (h : Stores c i p) :
    (c.entries i).ksize ≠ -1 := by
  rw [h.ksize]
  omega

namespace Represents

variable {c d : CacheChain} {is xs ys : List Slot} {l lx ly : List (Bytes × Bytes)} {e : Slot}
  {key v w : Bytes}

theorem absent (h : Represents c (xs ++ e :: ys) l) : e ∉ xs ++ ys :=
  (List.nodup_cons.mp (List.nodup_middle.mp h.linked.nodup)).1

theorem length_eq (h : Represents c is l) : is.length = l.length := h.stores.length_eq

/- The entry of a key gets another value where it stands. -/
theorem revalue (h : Represents c (xs ++ e :: ys) (lx ++ (key, v) :: ly))
    (before : List.Forall₂ (Stores c) xs lx) (after : List.Forall₂ (Stores c) ys ly)
    (here : Stores c e (key, v)) :
    Represents (c.setVal e (.block w) w.length) (xs ++ e :: ys) (lx ++ (key, w) :: ly) := by
  have other : SameElsewhere e c (c.setVal e (.block w) w.length) := modify_elsewhere c e _
  have fresh := h.absent
  have stored : Stores (c.setVal e (.block w) w.length) e (key, w) := by
    change content _ = _
    rw [setVal, modify_here, content, here.key, here.ksize]
    rfl
  have links : (c.setVal e (.block w) w.length).links = c.links := links_modify rfl rfl
  refine ⟨links ▸ h.linked, fun i => ?_, ?_, ?_⟩
  · by_cases hi : i = e
    · subst hi
      simp [stored.used]
    · rw [← h.used i, show ((c.setVal e (.block w) w.length).entries i).ksize = (c.entries i).ksize
        from congrArg (fun x => x.2.1) (other.2 i hi)]
  · exact List.rel_append (other.stores (fun hm => fresh (List.mem_append_left _ hm)) before)
      (.cons stored (other.stores (fun hm => fresh (List.mem_append_right _ hm)) after))
  · simpa only [Assoc.keys_append, Assoc.keys_cons] using h.keys

theorem split {p : Bytes × Bytes} (h : Represents c (xs ++ e :: ys) (lx ++ p :: ly))
    (same : xs.length = lx.length) :
    List.Forall₂ (Stores c) xs lx ∧ List.Forall₂ (Stores c) ys ly ∧ Stores c e p := by
  have before := List.forall₂_take xs.length h.stores
  have after := List.forall₂_drop xs.length h.stores
  rw [List.take_left, same, List.take_left] at before
  rw [List.drop_left, same, List.drop_left] at after
  cases after with
  | cons here after => exact ⟨before, after, here⟩

theorem anyLen (h : Represents c is l) (n : Nat) : Represents { c with len := n } is l :=
  ⟨h.linked, h.used, h.stores, h.keys⟩

/- Moving the entry of a key to the front. -/
theorem promoted (h : Represents c (xs ++ e :: ys) (lx ++ (key, v) :: ly))
    (before : List.Forall₂ (Stores c) xs lx) (after : List.Forall₂ (Stores c) ys ly)
    (here : Stores c e (key, v)) :
    ∃ d, promote c e = .ok d ∧ d.len = c.len ∧
      Represents d (e :: (xs ++ ys)) ((key, v) :: (lx ++ ly)) := by
  obtain ⟨d, done, linked, same⟩ := promote_linked h.linked
  refine ⟨d, done, same.1, linked, fun i => ?_, ?_, ?_⟩
  · rw [same.ksize, h.used i]
    simp [or_left_comm]
  · have held : List.Forall₂ (Stores c) (e :: (xs ++ ys)) ((key, v) :: (lx ++ ly)) :=
      .cons here (List.rel_append before after)
    exact held.imp fun _ _ hp => same.stores.mpr hp
  · have keys := h.keys
    rw [Assoc.keys_append, Assoc.keys_cons] at keys
    simpa only [Assoc.keys_cons, Assoc.keys_append] using List.nodup_middle.mp keys

end Represents

/- The chain operation and the bucket operation end alike. -/
def Outcome {α : Type} (x : Except Fault (α × CacheChain)) (y : Except Fault (α × Bucket)) : Prop :=
  Runs.Agree (fun r s => r.1 = s.1 ∧ Models r.2 s.2) x y

theorem Outcome.ok {α : Type} {r : α} {c : CacheChain} {b : Bucket} (h : Models c b) :
    Outcome (.ok (r, c)) (.ok (r, b)) := ⟨rfl, h⟩

theorem casInChain_refines {c : CacheChain} {b : Bucket} (h : Models c b) (m : CacheMallocs)
    (key oldval newval : Bytes) :
    Outcome (casInChain m key oldval newval c) (b.cas m key oldval newval) := by
  obtain ⟨⟨is, rep⟩, len, short, bound⟩ := h
  obtain ⟨r, found, located⟩ := findInChain_located rep key
  unfold casInChain Bucket.cas
  rw [found, ok_bind]
  cases r with
  | none =>
    rw [show Assoc.get key b.pairs = none from located]
    exact Outcome.ok ⟨⟨is, rep⟩, len, short, bound⟩
  | some e =>
    obtain ⟨v, xs, ys, lx, ly, rfl, split, before, after, here, look⟩ := located
    rw [look]
    have nodup := rep.keys
    rw [split] at rep nodup
    have unchanged : Models c b := ⟨⟨_, split ▸ rep⟩, len, short, bound⟩
    have replaced : Models (c.setVal e (.block newval) newval.length)
        { b with pairs := Assoc.replace key newval b.pairs } := by
      refine ⟨⟨xs ++ e :: ys, ?_⟩, len, ?_, bound⟩
      · rw [split, Assoc.replace_split nodup]
        exact rep.revalue before after here
      · simpa only [Assoc.replace, List.length_map] using short
    simp only [here.vsize, here.val]
    by_cases size : v.length = oldval.length
    · rw [if_neg (by omega), memEq_block size.symm, ok_bind]
      by_cases same : v = oldval
      · subst same
        by_cases inPlace : v.length = newval.length
        · simp only [inPlace, memcpy_whole inPlace]
          simpa using Outcome.ok replaced
        · cases m.val
          · simpa [inPlace] using Outcome.ok unchanged
          · simpa [inPlace] using Outcome.ok replaced
      · simpa [same, Ne.symm same] using Outcome.ok unchanged
    · have same : v ≠ oldval := fun he => size (by rw [he])
      rw [if_pos (by omega), if_pos same]
      exact Outcome.ok unchanged

theorem incrInChain_refines {c : CacheChain} {b : Bucket} (h : Models c b) (m : CacheMallocs)
    (key : Bytes) (increment : Int) :
    Outcome (incrInChain m key increment c) (b.incr m key increment) := by
  obtain ⟨⟨is, rep⟩, len, short, bound⟩ := h
  obtain ⟨r, found, located⟩ := findInChain_located rep key
  unfold incrInChain Bucket.incr
  rw [found, ok_bind]
  cases r with
  | none =>
    rw [show Assoc.get key b.pairs = none from located]
    exact Outcome.ok ⟨⟨is, rep⟩, len, short, bound⟩
  | some e =>
    obtain ⟨v, xs, ys, lx, ly, rfl, split, before, after, here, look⟩ := located
    rw [look]
    have nodup := rep.keys
    rw [split] at rep nodup
    have unchanged : Models c b := ⟨⟨_, split ▸ rep⟩, len, short, bound⟩
    have replaced : ∀ w : Bytes, Models (c.setVal e (.block w) w.length)
        { b with pairs := Assoc.replace key w b.pairs } := by
      refine fun w => ⟨⟨xs ++ e :: ys, ?_⟩, len, ?_, bound⟩
      · rw [split, Assoc.replace_split nodup]
        exact rep.revalue before after here
      · simpa only [Assoc.replace, List.length_map] using short
    simp only [here.vsize, here.val]
    rcases List.eq_nil_or_concat v with rfl | ⟨init, last, rfl⟩
    · exact rfl
    · rw [List.concat_eq_append] at *
      have nonempty : init ++ [last] ≠ [] := by simp
      simp only [byteAt_last nonempty, List.getLast?_concat, List.getLast_append_singleton, ok_bind,
        read_block, Int.toNat_natCast, reduceCtorEq, if_false]
      by_cases nul : last = 0
      · subst nul
        simp only [ne_eq, not_true_eq_false, if_false]
        have fits := wrap64_range (strtoll (init ++ [0]) + increment)
        generalize wrap64 (strtoll (init ++ [0]) + increment) = n at fits
        by_cases short : (init ++ [(0 : UInt8)]).length < 24
        · have small : ((init ++ [(0 : UInt8)]).length : Int) < 24 := by omega
          have few : ¬ 24 ≤ (init ++ [(0 : UInt8)]).length := by omega
          rw [if_pos small]
          cases ok : m.val with
          | false =>
            simp only [malloc_false, few, decide_false, Bool.or_self, Bool.false_eq_true, if_false]
            exact Outcome.ok unchanged
          | true =>
            have text : snprintf (List.replicate 24 indeterminate) 24 n = Bucket.incrText (init ++ [0]) n := by
              rw [snprintf_fits fits (Nat.le_refl 24), Bucket.incrText,
                List.drop_of_length_le (Nat.le_of_lt short), List.drop_of_length_le (by simp)]
            have size : (Bucket.incrText (init ++ [0]) n).length = 24 := by
              rw [← text, snprintf_length fits (Nat.le_refl 24) (by simp), List.length_replicate]
            have done := replaced (Bucket.incrText (init ++ [0]) n)
            rw [size] at done
            have fresh : (Ptr.block (List.replicate 24 indeterminate)).read 24 =
                .ok (List.replicate 24 indeterminate) := rfl
            simp only [malloc_true, free_block, ok_bind, fresh, text, Bool.or_true, if_true, pure_ok]
            exact Outcome.ok done
        · have large : ¬ ((init ++ [(0 : UInt8)]).length : Int) < 24 := by omega
          have room : 24 ≤ (init ++ [(0 : UInt8)]).length := by omega
          rw [if_neg large]
          have text : snprintf (init ++ [0]) (init ++ [(0 : UInt8)]).length n =
            Bucket.incrText (init ++ [0]) n :=
            snprintf_fits fits room
          have size : (Bucket.incrText (init ++ [0]) n).length = (init ++ [(0 : UInt8)]).length := by
            rw [← text, snprintf_length fits room (Nat.le_refl _)]
          have done := replaced (Bucket.incrText (init ++ [0]) n)
          rw [size] at done
          rw [text]
          simpa only [room, decide_true, Bool.true_or, if_true, pure_ok] using Outcome.ok done
      · simp only [ne_eq, nul, not_false_eq_true, if_true]
        exact Outcome.ok unchanged

theorem freeEntry_elsewhere (c : CacheChain) (e : Slot) : SameElsewhere e c (freeEntry c e) :=
  modify_elsewhere c e _

theorem freeEntry_ksize (c : CacheChain) (e : Slot) : ((freeEntry c e).entries e).ksize = -1 := by
  rw [freeEntry, modify_here]

namespace Represents

variable {c d : CacheChain} {xs ys : List Slot} {lx ly : List (Bytes × Bytes)} {e : Slot}
  {p : Bytes × Bytes}

/- The entry of a pair is unlinked and its slot marked unused. -/
theorem removed (h : Represents c (xs ++ e :: ys) (lx ++ p :: ly))
    (before : List.Forall₂ (Stores c) xs lx) (after : List.Forall₂ (Stores c) ys ly)
    (unlinked : d.links = c.links.unlink e) (same : SameContent c d) :
    Represents (freeEntry d e) (xs ++ ys) (lx ++ ly) := by
  have other : SameElsewhere e c (freeEntry d e) :=
    ⟨(freeEntry_elsewhere d e).1.trans same.1, fun i hi =>
      ((freeEntry_elsewhere d e).2 i hi).trans (same.2 i)⟩
  refine ⟨?_, fun i => ?_, ?_, ?_⟩
  · rw [freeEntry, links_modify rfl rfl, unlinked]
    exact h.linked.unlink
  · by_cases hi : i = e
    · subst hi
      simp [freeEntry_ksize, h.absent]
    · rw [show ((freeEntry d e).entries i).ksize = (c.entries i).ksize from
        congrArg (fun x => x.2.1) (other.2 i hi), h.used i]
      simp [hi]
  · exact other.stores h.absent (List.rel_append before after)
  · have keys := h.keys
    rw [Assoc.keys_append, Assoc.keys_cons] at keys
    rw [Assoc.keys_append]
    exact (List.nodup_cons.mp (List.nodup_middle.mp keys)).2

end Represents

theorem delInChain_refines {c : CacheChain} {b : Bucket} (h : Models c b) (key : Bytes) :
    Outcome (delInChain key c) (b.del key) := by
  obtain ⟨⟨is, rep⟩, len, short, bound⟩ := h
  obtain ⟨r, found, located⟩ := findInChain_located rep key
  unfold delInChain Bucket.del
  rw [found, ok_bind]
  cases r with
  | none =>
    rw [show Assoc.get key b.pairs = none from located]
    exact Outcome.ok ⟨⟨is, rep⟩, len, short, bound⟩
  | some e =>
    obtain ⟨v, xs, ys, lx, ly, rfl, split, before, after, here, look⟩ := located
    rw [look]
    have nodup := rep.keys
    rw [split] at rep nodup short
    obtain ⟨d, done, unlinked, same⟩ := unlinkEntry_links rep.linked
    have atD : Stores d e (key, v) := same.stores.mpr here
    have pos : 1 ≤ d.len := by
      have := same.1
      simp only [List.length_append, List.length_cons] at short
      omega
    simp only [done, ok_bind, atD.key, atD.val, free_block, sizeSub, if_pos pos, pure_ok]
    refine Outcome.ok ⟨⟨xs ++ ys, ?_⟩, ?_, ?_, ?_⟩
    · rw [split, Assoc.eraseKey_split nodup]
      exact (rep.removed before after unlinked same).anyLen _
    · change d.len - 1 = b.len - 1
      rw [same.1, len]
    · change (Assoc.eraseKey key b.pairs).length ≤ b.len - 1
      rw [split, Assoc.eraseKey_split nodup]
      simp only [List.length_append, List.length_cons] at short ⊢
      omega
    · exact Nat.le_trans (Nat.sub_le _ _) bound

theorem refill_block (ok : Bool) (old src : Bytes) :
    refill ok (.block old) old.length src =
      .ok (if src.length = old.length || ok then .block src else .null) := by
  unfold refill
  by_cases same : src.length = old.length
  · simp [same, memcpy_whole same.symm]
  · cases ok with
    | false => simp [same]
    | true => simp [same]

theorem allocEntry_free {c : CacheChain} {is : List Slot} {l : List (Bytes × Bytes)}
    (h : Represents c is l) (room : l.length < CHAINLEN) :
    ∃ new, allocEntry c = some new ∧ new ∉ is := by
  have free : ∃ i : Slot, i ∉ is := by
    by_contra none
    have cover := List.Subperm.length_le (List.subperm_of_subset (List.nodup_finRange CHAINLEN)
      fun i _ => Classical.not_not.mp (not_exists.mp none i))
    rw [List.length_finRange, h.length_eq] at cover
    omega
  obtain ⟨i, hi⟩ := free
  have unused : (c.entries i).ksize = -1 := by
    by_contra used
    exact hi ((h.used i).mp used)
  have some : (allocEntry c).isSome :=
    List.find?_isSome.mpr ⟨i, List.mem_finRange i, by simpa using unused⟩
  obtain ⟨new, found⟩ := Option.isSome_iff_exists.mp some
  refine ⟨new, found, fun hm => ?_⟩
  exact (h.used new).mpr hm (by simpa using List.find?_some found)

/- An entry of its own slot, linked in front. -/
theorem Represents.fronted {c d : CacheChain} {e : Slot} {xs : List Slot} {lx : List (Bytes × Bytes)}
    {key val : Bytes} (linked : Linked d.links (e :: xs)) (other : SameElsewhere e c d)
    (used : ∀ i, i ≠ e → ((c.entries i).ksize ≠ -1 ↔ i ∈ xs)) (stores : List.Forall₂ (Stores c) xs lx)
    (here : Stores d e (key, val)) (nodup : (Assoc.keys lx).Nodup) (new : key ∉ Assoc.keys lx) :
    Represents d (e :: xs) ((key, val) :: lx) := by
  have absent := (List.nodup_cons.mp linked.nodup).1
  refine ⟨linked, fun i => ?_, .cons here (other.stores absent stores), List.nodup_cons.mpr ⟨new, nodup⟩⟩
  by_cases hi : i = e
  · subst hi
    simp [here.used]
  · rw [show (d.entries i).ksize = (c.entries i).ksize from congrArg (fun x => x.2.1) (other.2 i hi),
      used i hi]
    simp [hi]

theorem setInChain_found {c : CacheChain} {b : Bucket} (h : Models c b) (m : CacheMallocs)
    {key : Bytes} (val : Bytes) {e : Slot} (found : findInChain c key = .ok (some e))
    {is : List Slot} (rep : Represents c is b.pairs) (located : Located c key is b.pairs (some e)) :
    Outcome (setInChain m key val c) (b.set m key val) := by
  obtain ⟨_, len, short, bound⟩ := h
  obtain ⟨v, xs, ys, lx, ly, rfl, split, before, after, here, look⟩ := located
  have unchanged : Models c b := ⟨⟨_, rep⟩, len, short, bound⟩
  unfold setInChain Bucket.set
  rw [found, ok_bind, look]
  have nodup := rep.keys
  rw [split] at rep nodup
  have other : SameElsewhere e c (c.setVal e (.block val) val.length) := modify_elsewhere c e _
  have revalued : Represents (c.setVal e (.block val) val.length) (xs ++ e :: ys) (lx ++ (key, val) :: ly) :=
    rep.revalue before after here
  obtain ⟨before', after', here'⟩ := revalued.split before.length_eq
  obtain ⟨d, promoted, lenD, repD⟩ := revalued.promoted before' after' here'
  have done : Models d { b with pairs := (key, val) :: Assoc.eraseKey key b.pairs } := by
    have erased := Assoc.eraseKey_split nodup
    refine ⟨⟨e :: (xs ++ ys), ?_⟩, lenD.trans len, ?_, bound⟩
    · rw [split, erased]
      exact repD
    · rw [split] at short ⊢
      rw [erased]
      simp only [List.length_append, List.length_cons] at short ⊢
      omega
  simp only [here.vsize, here.val]
  by_cases size : val.length = v.length
  · simp only [size, memcpy_whole size.symm, ok_bind, if_true, decide_true, Bool.true_or]
    rw [← size, promoted]
    exact Outcome.ok done
  · have differ : ¬ (val.length : Int) = v.length := by omega
    cases ok : m.val with
    | false =>
      simp only [differ, size, if_false, malloc_false, decide_false, Bool.or_self, Bool.false_eq_true]
      exact Outcome.ok unchanged
    | true =>
      simp only [differ, size, if_false, malloc_true, decide_false, Bool.or_true, if_true, free_block,
        ok_bind, memcpy_fresh, promoted]
      exact Outcome.ok done

/- The last entry taken out, its neighbour there or not. -/
theorem cutEnd {c : CacheChain} {xs : List Slot} {e : Slot} (h : Linked c.links (xs ++ [e])) :
    (xs = [] ∧ (c.entries e).prev = none) ∨
    ∃ p, (c.entries e).prev = some p ∧
      (({ c with last := some p } : CacheChain).setNext p none).links = c.links.unlink e := by
  cases xs using List.reverseRecOn with
  | nil => exact .inl ⟨rfl, Linked.prev_eq h⟩
  | append_singleton init p =>
    have prev : (c.entries e).prev = some p := (Linked.prev_eq h).trans (List.getLast?_concat ..)
    have next : c.links.fwd (some e) = none := Linked.next_eq h
    refine .inr ⟨p, prev, ?_⟩
    rw [links_setNext, links_setLast]
    refine Links.ext_walk (fun z => ?_) fun z => ?_
    · rw [Links.unlink, Links.fwd_join, next, Links.fwd_setFwd, Links.fwd_setBwd, ← links_prev, prev]
    · rw [Links.unlink, Links.bwd_join, next, Links.bwd_setFwd, Links.bwd_setBwd, ← links_prev, prev]

theorem removeLast_refines {c : CacheChain} {xs : List Slot} {e : Slot} {lx : List (Bytes × Bytes)}
    {p : Bytes × Bytes} {n : Nat} (rep : Represents c (xs ++ [e]) (lx ++ [p])) (len : c.len = n)
    (short : lx.length < n) (bound : n ≤ CHAINLEN) {k v : Ptr} (freeK : free k = .ok ())
    (freeV : free v = .ok ()) :
    Outcome (removeLast c e k v) (if lx = [] then .error .nullDeref else .ok (-1, ⟨n, lx⟩)) := by
  obtain ⟨before, after, here⟩ := rep.split (by simpa using rep.length_eq)
  unfold removeLast
  rcases cutEnd rep.linked with ⟨rfl, prev⟩ | ⟨q, prev, unlinked⟩
  · have front : lx = [] := List.forall₂_nil_left_iff.mp before
    rw [prev, if_pos front]
    exact rfl
  · have behind : lx ≠ [] := by
      rintro rfl
      have front : xs = [] := List.forall₂_nil_right_iff.mp before
      subst front
      exact absurd (prev.symm.trans (rep.linked.prev_head)) (by simp)
    rw [if_neg behind]
    simp only [prev, deref, ok_bind, freeK, freeV, pure_ok]
    have same : SameContent c (({ c with last := some q } : CacheChain).setNext q none) :=
      ((SameContent.refl c).setLast _).setNext q _
    have removed := rep.removed before after unlinked same
    rw [List.append_nil, List.append_nil] at removed
    exact Outcome.ok ⟨⟨xs, removed⟩, len, Nat.le_of_lt short, bound⟩

theorem insertInFullChain_refines {c : CacheChain} {b : Bucket} (h : Models c b) (m : CacheMallocs)
    {key : Bytes} (val : Bytes) (absent : Assoc.get key b.pairs = none) :
    Outcome (insertInFullChain m c key val) (b.insertFull m key val) := by
  obtain ⟨⟨is, rep⟩, len, short, bound⟩ := h
  unfold insertInFullChain Bucket.insertFull
  cases is using List.reverseRecOn with
  | nil =>
    have last : c.last = none := (Linked.last_eq rep.linked)
    have none : b.pairs = [] := List.forall₂_nil_left_iff.mp rep.stores
    rw [last, none]
    exact rfl
  | append_singleton xs e =>
    have last : c.last = some e := (Linked.last_eq rep.linked).trans (List.getLast?_concat ..)
    obtain ⟨lx, old, pairs⟩ : ∃ lx old, b.pairs = lx ++ [old] := by
      have nonempty : b.pairs ≠ [] := by
        intro nil
        have := rep.length_eq
        simp [nil] at this
      exact ⟨b.pairs.dropLast, b.pairs.getLast nonempty, (List.dropLast_append_getLast nonempty).symm⟩
    rw [pairs] at rep short absent
    have nodup := rep.keys
    rw [Assoc.keys_append] at nodup
    obtain ⟨before, _, here⟩ := rep.split (by simpa using rep.length_eq)
    have room : lx.length < b.len := by
      rw [List.length_append, List.length_singleton] at short
      exact short
    have single : (lx ++ [old]).length = 1 ↔ lx = [] := by simp
    simp only [last, deref, ok_bind, here.key, here.ksize, here.val, here.vsize, refill_block, pairs,
      List.getLast?_concat, List.dropLast_concat, single, Bucket.recycles]
    cases keyOk : (decide (key.length = old.1.length) || m.key) with
    | false =>
      simp only [Bool.false_and, Bool.false_eq_true, if_false]
      exact removeLast_refines rep len room bound rfl rfl
    | true =>
      cases valOk : (decide (val.length = old.2.length) || m.val) with
      | false =>
        simp only [Bool.true_and, Bool.false_eq_true, if_false, if_true]
        exact removeLast_refines rep len room bound rfl rfl
      | true =>
        simp only [Bool.true_and, ↓reduceIte]
        let c1 := c.modify e fun e =>
          { e with key := .block key, ksize := key.length, val := .block val, vsize := val.length }
        have links1 : c1.links = c.links := links_modify rfl rfl
        have other1 : SameElsewhere e c c1 := modify_elsewhere c e _
        have here1 : Stores c1 e (key, val) := by
          change content _ = _
          rw [modify_here]
          rfl
        have linked1 : Linked c1.links (xs ++ [e]) := links1 ▸ rep.linked
        change Outcome (deref (c1.entries e).prev >>= fun l =>
          moveFirst (({ c1 with last := (c1.entries e).prev } : CacheChain).setNext l none) e >>=
            fun c => pure (0, c)) _
        rcases cutEnd linked1 with ⟨rfl, prev⟩ | ⟨q, prev, unlinked⟩
        · have front : lx = [] := List.forall₂_nil_left_iff.mp before
          rw [if_pos front, prev]
          exact rfl
        · have notFront : xs ≠ [] := by
            rintro rfl
            exact absurd (prev.symm.trans (linked1.prev_head)) (by simp)
          have behind : lx ≠ [] := by
            rintro rfl
            exact notFront (List.forall₂_nil_right_iff.mp before)
          rw [if_neg behind, prev, deref, ok_bind]
          have linked2 := linked1.unlink
          rw [← unlinked, List.append_nil] at linked2
          obtain ⟨f, first⟩ := Option.isSome_iff_exists.mp (List.isSome_head?.mpr notFront)
          have apart : f ≠ e := fun he => rep.absent (by simpa [he] using List.mem_of_head? first)
          obtain ⟨d, moved, same, linksD⟩ := moveFirst_links (linked2.first_eq.trans first) apart
          rw [moved, ok_bind, pure_ok]
          have same1 : SameContent c1 d := (((SameContent.refl c1).setLast _).setNext q _).trans same
          have absentE : e ∉ xs := by simpa using rep.absent
          refine Outcome.ok ⟨⟨e :: xs, ?_⟩, ?_, by simpa using short, bound⟩
          · refine Represents.fronted (linksD ▸ linked2.pushFront absentE) (other1.trans_same same1)
              (fun i hi => ?_) before (same1.stores.mpr here1) (List.nodup_append.mp nodup).1 ?_
            · rw [rep.used i]
              simp [hi]
            · have := (Assoc.get_eq_none _ _).mp absent
              rw [Assoc.keys_append] at this
              exact fun hm => this (List.mem_append_left _ hm)
          · exact (other1.trans_same same1).1.trans len

/- What setInChain does after newEntry, in a chain with room. -/
theorem link_newEntry {c c' : CacheChain} {b : Bucket} (h : Models c b) {key val : Bytes} {new : Slot}
    (room : b.len < CHAINLEN) (absent : Assoc.get key b.pairs = none)
    (unused : (c.entries new).ksize = -1) (links : ∀ z, z ≠ some new →
      c'.links.fwd z = c.links.fwd z ∧ c'.links.bwd z = c.links.bwd z)
    (prev : c'.links.bwd (some new) = none) (next : c'.links.fwd (some new) = none)
    (other : SameElsewhere new c c') (here : Stores c' new (key, val)) :
    Outcome
      (if c'.len = 0 then .ok (0, { c' with first := some new, last := some new, len := 1 })
      else if c'.len < CHAINLEN then do
        let c := c'.setNext new c'.first
        let f ← deref c.first
        let c := c.setPrev f (some new)
        return (0, { c with first := some new, len := c.len + 1 })
      else .ok ((0 : Int), c'))
      (if 0 < b.len ∧ b.pairs = [] then .error .nullDeref
      else .ok (0, ⟨b.len + 1, (key, val) :: b.pairs⟩)) := by
  obtain ⟨⟨is, rep⟩, len, short, bound⟩ := h
  have len' : c'.len = b.len := other.1.trans len
  have fresh : new ∉ is := fun hm => (rep.used new).mpr hm unused
  have nodup := rep.keys
  have unknown := (Assoc.get_eq_none _ _).mp absent
  have linked' : Linked c'.links is :=
    rep.linked.frame fresh (fun z hz => (links z hz).1) fun z hz => (links z hz).2
  -- in front of the list the new entry is linked as pushFront does it
  have finish : ∀ d : CacheChain, d.links = c'.links.pushFront new → SameContent c' { d with len := c'.len } →
      d.len = b.len + 1 → Outcome (.ok ((0 : Int), d)) (.ok (0, ⟨b.len + 1, (key, val) :: b.pairs⟩)) := by
    intro d linksD same lenD
    refine Outcome.ok ⟨⟨new :: is, ?_⟩, lenD, Nat.succ_le_succ short, room⟩
    have fronted : Represents { d with len := c'.len } (new :: is) ((key, val) :: b.pairs) := by
      refine Represents.fronted (c := c) (linksD ▸ linked'.pushFront fresh) (other.trans_same same)
        (fun i _ => rep.used i) rep.stores (same.stores.mpr here) nodup unknown
    exact fronted.anyLen d.len
  rw [len']
  by_cases zero : b.len = 0
  · have nil : b.pairs = [] := List.length_eq_zero_iff.mp (Nat.le_zero.mp (zero ▸ short))
    have is_nil : is = [] := List.forall₂_nil_right_iff.mp (nil ▸ rep.stores)
    obtain ⟨first, last⟩ := Linked.nil_iff.mp (is_nil ▸ linked')
    rw [if_pos zero, if_neg (by omega)]
    refine finish _ (Links.ext_walk (fun z => ?_) fun z => ?_) ⟨rfl, fun _ => rfl⟩ ?_
    · rw [Links.pushFront, Links.fwd_join, Links.fwd_join, first]
      cases z with
      | none => rfl
      | some i =>
        by_cases hi : i = new
        · subst hi
          rw [if_neg (by simp), if_pos rfl]
          exact next
        · simp only [Option.some.injEq, hi, reduceCtorEq, if_false]
          rfl
    · rw [Links.pushFront, Links.bwd_join, Links.bwd_join, first]
      cases z with
      | none => rfl
      | some i =>
        by_cases hi : i = new
        · subst hi
          rw [if_pos rfl]
          exact prev
        · simp only [Option.some.injEq, hi, reduceCtorEq, if_false]
          rfl
    · rw [zero]
  · rw [if_neg zero, if_pos room, show c'.first = is.head? from linked'.first_eq]
    change Outcome (deref c'.first >>= fun f => pure (0,
      { (c'.setNext new is.head?).setPrev f (some new) with first := some new, len := c'.len + 1 })) _
    rw [show c'.first = is.head? from linked'.first_eq]
    cases is with
    | nil =>
      have nil : b.pairs = [] := List.forall₂_nil_left_iff.mp rep.stores
      rw [if_pos ⟨Nat.pos_of_ne_zero zero, nil⟩]
      exact rfl
    | cons f rest =>
      have nonempty : b.pairs ≠ [] := by
        intro nil
        rw [nil] at rep
        cases rep.stores
      have apart : f ≠ new := fun he => fresh (by simp [he])
      rw [if_neg fun hn => nonempty hn.2]
      refine finish _ (Links.ext_walk (fun z => ?_) fun z => ?_) ?_ ?_
      · change Links.fwd (CacheChain.links
          { (c'.setNext new (some f)).setPrev f (some new) with first := some new }) z = _
        rw [links_setFirst, links_setPrev, links_setNext, Links.pushFront, Links.fwd_join, Links.fwd_join,
          Links.fwd_setFwd, Links.fwd_setBwd, Links.fwd_setFwd, linked'.first_eq]
        rfl
      · change Links.bwd (CacheChain.links
          { (c'.setNext new (some f)).setPrev f (some new) with first := some new }) z = _
        rw [links_setFirst, links_setPrev, links_setNext, Links.pushFront, Links.bwd_join, Links.bwd_join,
          Links.bwd_setFwd, Links.bwd_setBwd, Links.bwd_setFwd, linked'.first_eq, List.head?_cons]
        by_cases hz : z = some new
        · subst hz
          simp [Ne.symm apart, prev]
        · simp only [hz, if_false]
      · exact ((SameContent.refl c').setNext new _).setPrev f _
      · change c'.len + 1 = b.len + 1
        rw [len']

theorem setInChain_refines {c : CacheChain} {b : Bucket} (h : Models c b) (m : CacheMallocs)
    (key val : Bytes) : Outcome (setInChain m key val c) (b.set m key val) := by
  have whole := h
  obtain ⟨⟨is, rep⟩, len, short, bound⟩ := h
  obtain ⟨r, found, located⟩ := findInChain_located rep key
  cases r with
  | some e => exact setInChain_found whole m val found rep located
  | none =>
    have absent : Assoc.get key b.pairs = none := located
    unfold setInChain Bucket.set
    rw [found, ok_bind, absent, len]
    by_cases full : b.len = CHAINLEN
    · rw [if_pos full, if_pos full]
      exact insertInFullChain_refines whole m val absent
    · have room : b.len < CHAINLEN := Nat.lt_of_le_of_ne bound full
      obtain ⟨new, alloc, fresh⟩ := allocEntry_free rep (Nat.lt_of_le_of_lt short room)
      have unused : (c.entries new).ksize = -1 := by
        by_contra used
        exact fresh ((rep.used new).mp used)
      rw [if_neg full, if_neg full, newEntry, alloc, Bucket.insertNew]
      cases keyOk : m.key with
      | false => exact rfl
      | true =>
        let c1 := c.modify new fun e => { e with key := .block key, ksize := key.length }
        have other1 : SameElsewhere new c c1 := modify_elsewhere c new _
        cases valOk : m.val with
        | false =>
          simp only [malloc_true, memcpy_fresh, ok_bind, malloc_false, free_block, pure_ok, Bool.not_true,
            Bool.not_false, Bool.false_eq_true, if_false, if_true]
          have other : SameElsewhere new c (freeEntry c1 new) :=
            ⟨rfl, fun i hi => ((freeEntry_elsewhere c1 new).2 i hi).trans (other1.2 i hi)⟩
          refine Outcome.ok ⟨⟨is, ?_, fun i => ?_, other.stores fresh rep.stores, rep.keys⟩, len, short, bound⟩
          · rw [freeEntry, links_modify rfl rfl, links_modify rfl rfl]
            exact rep.linked
          · by_cases hi : i = new
            · subst hi
              simp [freeEntry_ksize, fresh]
            · rw [show ((freeEntry c1 new).entries i).ksize = (c.entries i).ksize from
                congrArg (fun x => x.2.1) (other.2 i hi), rep.used i]
        | true =>
          let c' := c1.modify new fun e =>
            { e with val := .block val, vsize := val.length, prev := none, next := none }
          have other : SameElsewhere new c c' :=
            ⟨rfl, fun i hi => ((modify_elsewhere c1 new _).2 i hi).trans (other1.2 i hi)⟩
          have entry : c'.entries new = ⟨.block key, .block val, key.length, val.length, none, none⟩ := by
            change (c1.modify new _).entries new = _
            rw [modify_here, modify_here]
          simp only [malloc_true, memcpy_fresh, ok_bind, pure_ok, Bool.not_true, Bool.false_eq_true,
            if_false]
          refine link_newEntry whole room absent unused (fun z hz => ?_) ?_ ?_ other ?_
          · have after := links_elsewhere c1 (fun e =>
              { e with val := .block val, vsize := val.length, prev := none, next := none }) hz
            have before := links_elsewhere c (fun e =>
              { e with key := .block key, ksize := key.length }) hz
            exact ⟨after.1.trans before.1, after.2.trans before.2⟩
          · exact congrArg CacheEntry.prev entry
          · exact congrArg CacheEntry.next entry
          · change content _ = _
            rw [entry]
            rfl

end Nmdb
