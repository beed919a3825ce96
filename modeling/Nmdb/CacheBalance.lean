import Nmdb.BufferBalance
import Nmdb.CacheSizes
import Nmdb.LiveCache
import Mathlib.Algebra.BigOperators.Ring.List

/-! Whether the blocks of the cache are freed, each once. Every entry in use owns two blocks;
whatever malloc() does, nothing else is live but the cache itself, and cache_free leaves
nothing behind. -/
namespace Nmdb.Live

open Ownership Runs CacheChain

namespace Blocks

variable (p : Blocks) (i : Slot) (k v : Pointer)

def ofSlot : List Nat := (p.key i).toList ++ (p.val i).toList

def all : List Nat := (List.finRange CHAINLEN).flatMap p.ofSlot

def others : List Nat := ((List.finRange CHAINLEN).erase i).flatMap p.ofSlot

@[simp] theorem set_key : (p.set i k v).key i = k := Function.update_self ..

@[simp] theorem set_val : (p.set i k v).val i = v := Function.update_self ..

theorem set_elsewhere {j : Slot} (other : j ≠ i) : (p.set i k v).key j = p.key j ∧ (p.set i k v).val j = p.val j :=
  ⟨Function.update_of_ne other .., Function.update_of_ne other ..⟩

@[simp] theorem set_others : (p.set i k v).others i = p.others i := by
  refine parts_others (List.nodup_finRange CHAINLEN) fun j other => ?_
  obtain ⟨key, val⟩ := p.set_elsewhere i k v other
  rw [ofSlot, ofSlot, key, val]

theorem set_set (k' v' : Pointer) : (p.set i k v).set i k' v' = p.set i k' v' := by
  simp only [set, Function.update_idem]

theorem all_perm : p.all.Perm ((p.key i).toList ++ ((p.val i).toList ++ p.others i)) := by
  have parts := parts_perm (List.mem_finRange i) p.ofSlot
  rwa [ofSlot, List.append_assoc] at parts

end Blocks

/-- NULL, or a block that was allocated. -/
inductive Points : Ptr → Pointer → Prop
  | null : Points .null none
  | block (b : Bytes) (a : Nat) : Points (.block b) (some a)

theorem Points.freed {q : Ptr} {a : Pointer} (points : Points q a) : Nmdb.free q = .ok () := by
  cases points with
  | null => rfl
  | block b a => rfl

/-- An entry in use has both its blocks, one that is not has none. -/
structure Holds (e : CacheEntry) (k v : Pointer) : Prop where
  key : Points e.key k
  val : Points e.val v
  keyUsed : k.isSome ↔ e.ksize ≠ -1
  valUsed : v.isSome ↔ e.ksize ≠ -1

theorem Holds.content {e e' : CacheEntry} {k v : Pointer} (holds : Holds e k v) (same : content e' = content e) :
    Holds e' k v := by
  have key : e'.key = e.key := congrArg (fun x => x.1) same
  have ksize : e'.ksize = e.ksize := congrArg (fun x => x.2.1) same
  have val : e'.val = e.val := congrArg (fun x => x.2.2.1) same
  exact ⟨key ▸ holds.key, val ▸ holds.val, ksize ▸ holds.keyUsed, ksize ▸ holds.valUsed⟩

/-- The blocks of a chain are what is live, but for what is left to others. -/
structure Held (c : CacheChain) (p : Blocks) (left : List Nat) (h : Heap) : Prop where
  slots : ∀ i, Holds (c.entries i) (p.key i) (p.val i)
  owns : h.Owns (p.all ++ left)

/-- An operation of a chain with its blocks, beside that without them. -/
def Keeps {α : Type} (left : List Nat) : Except Fault (α × CacheChain) → Except Fault (OnChain α) → Prop :=
  Agree fun x y => y.1 = x ∧ Held x.2 y.2.1 left y.2.2

section

variable {c d : CacheChain} {e : Slot} {p : Blocks} {left : List Nat} {h h' : Heap} {k v : Pointer}

theorem Held.parts (held : Held c p left h) (e : Slot) :
    h.Owns ((p.key e).toList ++ ((p.val e).toList ++ (p.others e ++ left))) := by
  have parts := (p.all_perm e).append_right left
  rw [List.append_assoc, List.append_assoc] at parts
  exact held.owns.perm parts

theorem Held.set (others : ∀ i, i ≠ e → Holds (d.entries i) (p.key i) (p.val i)) (here : Holds (d.entries e) k v)
    (owns : h.Owns (k.toList ++ (v.toList ++ (p.others e ++ left)))) : Held d (p.set e k v) left h := by
  constructor
  · intro i
    by_cases same : i = e
    · subst same
      rwa [p.set_key, p.set_val]
    · obtain ⟨key, val⟩ := p.set_elsewhere e k v same
      rw [key, val]
      exact others i same
  · refine owns.perm ?_
    have parts := ((p.set e k v).all_perm e).append_right left
    rw [p.set_key, p.set_val, p.set_others, List.append_assoc, List.append_assoc] at parts
    exact parts.symm

theorem Held.same (held : Held c p left h) (same : SameContent c d) : Held d p left h :=
  ⟨fun i => (held.slots i).content (same.2 i), held.owns⟩

/-- A chain whose entry e may differ. -/
theorem Held.elsewhere (held : Held c p left h) (other : SameElsewhere e c d) :
    ∀ i, i ≠ e → Holds (d.entries i) (p.key i) (p.val i) :=
  fun i apart => (held.slots i).content (other.2 i apart)

theorem Held.inPlace (held : Held c p left h) (other : SameElsewhere e c d)
    (here : Holds (d.entries e) (p.key e) (p.val e)) : Held d p left h := by
  refine ⟨fun i => ?_, held.owns⟩
  by_cases same : i = e
  · exact same ▸ here
  · exact held.elsewhere other i same

end

section

variable {c d : CacheChain} {e : Slot} {p : Blocks} {left ps : List Nat} {h : Heap} {m : CacheMallocs}
  {key val : Bytes}

theorem free_agrees {α β : Type} {Q : α → β → Prop} {q : Ptr} {a : Pointer} {x : Unit → Except Fault α}
    {y : Heap → Except Fault β} (points : Points q a) (owns : h.Owns (a.toList ++ ps))
    (rest : ∀ h', h'.Owns ps → Agree Q (x ()) (y h')) :
    Agree Q (Nmdb.free q >>= x) (free a h >>= y) := by
  obtain ⟨h', freed, left⟩ := free_owns owns
  rw [points.freed, freed]
  exact rest h' left

theorem memcpy_points {q q' : Ptr} {a : Pointer} {src : Bytes} (points : Points q a) (copied : memcpy q src = .ok q') :
    Points q' a := by
  cases points with
  | null => contradiction
  | block b a =>
    unfold memcpy at copied
    simp only at copied
    split at copied
    · cases copied
      exact .block _ a
    · contradiction

theorem refill_agrees {q : Ptr} {a : Pointer} (ok : Bool) (size : Int) (src : Bytes) (points : Points q a)
    (owns : h.Owns (a.toList ++ ps)) :
    Agree (fun q' y => y.1.1 = q' ∧ Points q' y.1.2 ∧ y.2.Owns (y.1.2.toList ++ ps))
      (Nmdb.refill ok q size src) (refill ok q size src a h) := by
  unfold Nmdb.refill refill
  refine Agree.ite ?_ (free_agrees points owns fun h' owns => ?_)
  · cases copied : memcpy q src with
    | error e => rfl
    | ok q' => exact ⟨rfl, memcpy_points points copied, owns⟩
  · cases ok with
    | false => exact ⟨rfl, .null, owns⟩
    | true =>
      simp only [malloc_true, memcpy_fresh, malloc, if_true, pure_ok]
      exact ⟨rfl, .block src _, owns_alloc owns⟩

theorem newEntry_keeps (held : Held c p left h) :
    Keeps left (Nmdb.newEntry m c key val) (newEntry m c key val p h) := by
  unfold Nmdb.newEntry newEntry
  cases found : allocEntry c with
  | none => exact ⟨rfl, held⟩
  | some new =>
    have unused : (c.entries new).ksize = -1 := by simpa using List.find?_some found
    have here := held.slots new
    have noKey : p.key new = none := by
      rw [← Option.not_isSome_iff_eq_none, here.keyUsed]
      exact fun used => used unused
    have noVal : p.val new = none := by
      rw [← Option.not_isSome_iff_eq_none, here.valUsed]
      exact fun used => used unused
    have owns := held.parts new
    rw [noKey, noVal] at owns
    cases keyOk : m.key with
    | false => rfl
    | true =>
      simp only [malloc_true, memcpy_fresh, malloc, if_true, ok_bind]
      cases valOk : m.val with
      | false =>
        obtain ⟨h', freed, owns⟩ := free_owns (p := some h.next) (owns_alloc owns)
        simp only [malloc_false, free_block, ok_bind, pure_ok, Bool.false_eq_true, if_false, freed]
        refine ⟨rfl, .set (held.elsewhere ?_) ?_ owns⟩
        · exact SameElsewhere.trans (modify_elsewhere c new _) (freeEntry_elsewhere _ new)
        · rw [freeEntry, modify_here]
          exact ⟨.null, .null, by simp, by simp⟩
      | true =>
        simp only [malloc_true, memcpy_fresh, if_true, ok_bind, pure_ok]
        refine ⟨rfl, .set (held.elsewhere ?_) ?_ ?_⟩
        · exact SameElsewhere.trans (modify_elsewhere c new _) (modify_elsewhere _ new _)
        · rw [modify_here, modify_here]
          exact ⟨.block key _, .block val _, by simp, by simp⟩
        · exact (owns_alloc (owns_alloc owns)).perm (List.Perm.swap ..)

theorem removeLast_keeps {kp vp : Ptr} (others : ∀ i, i ≠ e → Holds (c.entries i) (p.key i) (p.val i))
    (key : Points kp (p.key e)) (val : Points vp (p.val e))
    (owns : h.Owns ((p.key e).toList ++ ((p.val e).toList ++ (p.others e ++ left)))) :
    Keeps left (Nmdb.removeLast c e kp vp) (removeLast c e p h) := by
  unfold Nmdb.removeLast removeLast
  refine Agree.given fun l _ => free_agrees key owns fun h' owns => free_agrees val owns fun h' owns => ?_
  have cut : SameContent c (({ c with last := (c.entries e).prev } : CacheChain).setNext l none) :=
    ((SameContent.refl c).setLast _).setNext l _
  refine ⟨rfl, .set (fun i apart => ?_) ?_ owns⟩
  · exact (others i apart).content (((freeEntry_elsewhere _ e).2 i apart).trans (cut.2 i))
  · rw [freeEntry, modify_here]
    exact ⟨.null, .null, by simp, by simp⟩

theorem insertInFullChain_keeps (held : Held c p left h) :
    Keeps left (Nmdb.insertInFullChain m c key val) (insertInFullChain m c key val p h) := by
  unfold Nmdb.insertInFullChain insertInFullChain
  refine Agree.given fun e _ => ?_
  have slot := held.slots e
  have others : ∀ {k v : Pointer} i, i ≠ e → Holds (c.entries i) ((p.set e k v).key i) ((p.set e k v).val i) := by
    intro k v i apart
    obtain ⟨key, val⟩ := p.set_elsewhere e k v apart
    rw [key, val]
    exact held.slots i
  refine Agree.bind (refill_agrees m.key _ key slot.key (held.parts e)) ?_
  rintro k ⟨⟨k', kp⟩, h₁⟩ ⟨rfl, pointsK, owns⟩
  cases pointsK with
  | null =>
    exact removeLast_keeps others (by rw [p.set_key]; exact .null) (by rw [p.set_val]; exact slot.val)
      (by rw [p.set_key, p.set_val, p.set_others]; exact owns)
  | block b a =>
    have keyFirst : h₁.Owns (a :: ((p.val e).toList ++ (p.others e ++ left))) := owns
    have keyLast := keyFirst.perm List.perm_middle.symm
    simp only [Blocks.set_val, Blocks.set_set]
    refine Agree.bind (refill_agrees m.val _ val slot.val keyLast) ?_
    rintro v ⟨⟨v', vp⟩, h₂⟩ ⟨rfl, pointsV, owns⟩
    cases pointsV with
    | null =>
      exact removeLast_keeps others (by rw [p.set_key]; exact .block b a) (by rw [p.set_val]; exact .null)
        (by rw [p.set_key, p.set_val, p.set_others]; exact owns)
    | block w a' =>
      refine Agree.given fun l _ => Agree.given fun d moved => ?_
      have moves : SameContent (c.modify e fun e =>
          { e with key := .block b, ksize := key.length, val := .block w, vsize := val.length }) d :=
        (((SameContent.refl _).setLast _).setNext l _).trans (moveFirst_same moved)
      refine ⟨rfl, .set (held.elsewhere ((modify_elsewhere c e _).trans_same moves)) ?_ ?_⟩
      · refine Holds.content ?_ (moves.2 e)
        rw [modify_here]
        exact ⟨.block b a, .block w a', by simp, by simp⟩
      · have valFirst : h₂.Owns (a' :: a :: (p.others e ++ left)) := owns
        exact valFirst.perm (List.Perm.swap ..)

/-- The value of an entry in use is put into a new block. -/
theorem Held.revalue (held : Held c p left h) (used : (c.entries e).ksize ≠ -1) (w : Bytes) (vsize : Int) :
    ∃ h', free (p.val e) h.alloc = .ok h' ∧
      Held (c.setVal e (.block w) vsize) (p.set e (p.key e) (some h.next)) left h' := by
  have slot := held.slots e
  have owns : h.alloc.Owns ((p.val e).toList ++ ((p.key e).toList ++ (h.next :: (p.others e ++ left)))) := by
    refine (owns_alloc (held.parts e)).perm (List.perm_iff_count.mpr fun a => ?_)
    simp only [List.count_cons, List.count_append]
    omega
  obtain ⟨h', freed, owns⟩ := free_owns owns
  refine ⟨h', freed, .set (held.elsewhere (modify_elsewhere c e _)) ?_ owns⟩
  rw [CacheChain.setVal, modify_here]
  exact ⟨slot.key, .block w _, slot.keyUsed, by simpa using used⟩

/-- The value is written over. -/
theorem Held.overwrite (held : Held c p left h) {q : Ptr} (points : Points q (p.val e)) (vsize : Int) :
    Held (c.setVal e q vsize) p left h := by
  have slot := held.slots e
  refine held.inPlace (modify_elsewhere c e _) ?_
  rw [CacheChain.setVal, modify_here]
  exact ⟨slot.key, points, slot.keyUsed, slot.valUsed⟩

theorem setInChain_keeps (held : Held c p left h) :
    Keeps left (Nmdb.setInChain m key val c) (setInChain m key val c p h) := by
  unfold Nmdb.setInChain setInChain
  refine Agree.given fun found look => ?_
  cases found with
  | none =>
    refine Agree.ite (insertInFullChain_keeps held) (Agree.bind (newEntry_keeps held) ?_)
    rintro ⟨new, c⟩ ⟨⟨new', c'⟩, p', h'⟩ ⟨same, held⟩
    cases same
    cases new with
    | none => exact ⟨rfl, held⟩
    | some new =>
      refine Agree.ite ⟨rfl, held.slots, held.owns⟩ (Agree.ite (Agree.given fun f _ => ?_) ⟨rfl, held⟩)
      have linked : SameContent c ((c.setNext new c.first).setPrev f (some new)) :=
        ((SameContent.refl c).setNext new _).setPrev f _
      exact ⟨rfl, (held.same linked).slots, held.owns⟩
  | some e =>
    have used := findFrom_used look
    have slot := held.slots e
    refine Agree.ite (Agree.given fun v copied => Agree.given fun d promoted => ?_) ?_
    · exact ⟨rfl, (held.overwrite (memcpy_points slot.val copied) _).same (promote_same promoted)⟩
    · cases ok : m.val with
      | false => exact ⟨rfl, held⟩
      | true =>
        obtain ⟨h', freed, held'⟩ := held.revalue used val val.length
        simp only [malloc_true, malloc, if_true, slot.val.freed, freed, memcpy_fresh, ok_bind]
        exact Agree.given fun d promoted => ⟨rfl, held'.same (promote_same promoted)⟩

theorem delInChain_keeps (held : Held c p left h) : Keeps left (Nmdb.delInChain key c) (delInChain key c p h) := by
  unfold Nmdb.delInChain delInChain
  refine Agree.given fun found look => ?_
  cases found with
  | none => exact ⟨rfl, held⟩
  | some e =>
    refine Agree.given fun d unlinked => ?_
    have held := held.same (unlinkEntry_same unlinked)
    have slot := held.slots e
    refine free_agrees slot.key (held.parts e) fun h₁ owns => free_agrees slot.val owns fun h₂ owns => ?_
    have gone : Held (freeEntry d e) (p.set e none none) left h₂ := by
      refine .set (held.elsewhere (freeEntry_elsewhere d e)) ?_ owns
      rw [freeEntry, modify_here]
      exact ⟨.null, .null, by simp, by simp⟩
    exact ⟨rfl, gone.slots, gone.owns⟩

theorem casInChain_keeps {oldval newval : Bytes} (held : Held c p left h) :
    Keeps left (Nmdb.casInChain m key oldval newval c) (casInChain m key oldval newval c p h) := by
  unfold Nmdb.casInChain casInChain
  refine Agree.given fun found look => ?_
  cases found with
  | none => exact ⟨rfl, held⟩
  | some e =>
    have used := findFrom_used look
    have slot := held.slots e
    refine Agree.ite ⟨rfl, held⟩ (Agree.given fun same _ => Agree.ite ⟨rfl, held⟩ (Agree.ite ?_ ?_))
    · exact Agree.given fun v copied => ⟨rfl, held.overwrite (memcpy_points slot.val copied) _⟩
    · cases ok : m.val with
      | false => exact ⟨rfl, held⟩
      | true =>
        obtain ⟨h', freed, held'⟩ := held.revalue used newval newval.length
        simp only [malloc_true, malloc, if_true, slot.val.freed, freed, memcpy_fresh, ok_bind]
        exact ⟨rfl, held'⟩

theorem incrInChain_keeps {increment : Int} (held : Held c p left h) :
    Keeps left (Nmdb.incrInChain m key increment c) (incrInChain m key increment c p h) := by
  unfold Nmdb.incrInChain incrInChain
  refine Agree.given fun found look => ?_
  cases found with
  | none => exact ⟨rfl, held⟩
  | some e =>
    have used := findFrom_used look
    have slot := held.slots e
    refine Agree.ite ⟨rfl, held⟩ (Agree.given fun last _ => Agree.ite ⟨rfl, held⟩
      (Agree.given fun text read => Agree.ite ?_ ?_))
    · cases ok : m.val with
      | false => exact ⟨rfl, held⟩
      | true =>
        obtain ⟨h', freed, held'⟩ := held.revalue used
          (snprintf (List.replicate 24 indeterminate) 24 (wrap64 (strtoll text + increment))) 24
        have fresh : (Ptr.block (List.replicate 24 indeterminate)).read 24 =
            .ok (List.replicate 24 indeterminate) := rfl
        simp only [malloc_true, malloc, if_true, slot.val.freed, freed, fresh, ok_bind]
        exact ⟨rfl, held'⟩
    · obtain ⟨a, place⟩ := Option.isSome_iff_exists.mp (slot.valUsed.mpr used)
      refine ⟨rfl, held.overwrite ?_ _⟩
      rw [place]
      exact .block _ a

end

/-- What the chains own, the table and struct cache. -/
def Stored.buffers (s : Stored) : List Nat :=
  (List.range s.cache.hashlen).flatMap (fun i => (s.blocks i).all) ++ [s.table, s.self]

/-- All that is live is what the cache owns, each block once. -/
structure Stored.Kept (s : Stored) : Prop where
  slots : ∀ i j, Holds ((s.cache.table i).entries j) ((s.blocks i).key j) ((s.blocks i).val j)
  owns : s.heap.Owns s.buffers

section

variable {s : Stored}

theorem Stored.onChain_agrees {α : Type} {f : CacheChain → Except Fault (α × CacheChain)}
    {g : CacheChain → Blocks → Heap → Except Fault (OnChain α)}
    (keeps : ∀ {c p left h}, Held c p left h → Keeps left (f c) (g c p h)) (kept : s.Kept) (key : Bytes) :
    Agree (fun x y => y.1 = x.1 ∧ y.2.cache = x.2 ∧ y.2.Kept) (Nmdb.onChain s.cache key f) (s.onChain key g) := by
  unfold Nmdb.onChain Stored.onChain
  refine Agree.given fun i found => ?_
  have inside : i ∈ List.range s.cache.hashlen := by
    unfold bucketIndex at found
    split at found
    · contradiction
    · cases found
      exact List.mem_range.mpr (Nat.mod_lt _ (Nat.pos_of_ne_zero ‹_›))
  let left := ((List.range s.cache.hashlen).erase i).flatMap (fun j => (s.blocks j).all) ++ [s.table, s.self]
  have held : Held (s.cache.table i) (s.blocks i) left s.heap := by
    refine ⟨kept.slots i, kept.owns.perm ?_⟩
    have parts := (parts_perm inside fun j => (s.blocks j).all).append_right [s.table, s.self]
    rwa [List.append_assoc] at parts
  refine Agree.bind (keeps held) ?_
  rintro ⟨rv, c⟩ ⟨⟨rv', c'⟩, p, h⟩ ⟨same, held'⟩
  cases same
  refine ⟨rfl, rfl, fun j k => ?_, held'.owns.perm ?_⟩
  · by_cases here : j = i
    · subst here
      simp only [Function.update_self]
      exact held'.slots k
    · simp only [Function.update_of_ne here]
      exact kept.slots j k
  · have parts := (parts_perm inside fun j => (Function.update s.blocks i p j).all).append_right [s.table, s.self]
    rw [Function.update_self, List.append_assoc] at parts
    rw [parts_others List.nodup_range fun j apart => by rw [Function.update_of_ne apart]] at parts
    exact parts.symm

theorem Stored.exec_agrees (kept : s.Kept) (m : CacheMallocs) (op : CacheOp) :
    Agree (fun x y => y.1 = x.1 ∧ y.2.cache = x.2 ∧ y.2.Kept) (op.exec m s.cache) (s.exec m op) := by
  cases op with
  | get key => exact Agree.given fun _ _ => ⟨rfl, rfl, kept⟩
  | set key val =>
    refine Agree.bind (onChain_agrees setInChain_keeps kept key) ?_
    rintro ⟨rv, cd⟩ ⟨rv', t⟩ ⟨rfl, rfl, kept⟩
    exact ⟨rfl, rfl, kept⟩
  | del key =>
    refine Agree.bind (onChain_agrees delInChain_keeps kept key) ?_
    rintro ⟨rv, cd⟩ ⟨rv', t⟩ ⟨rfl, rfl, kept⟩
    exact ⟨rfl, rfl, kept⟩
  | cas key oldval newval =>
    refine Agree.bind (onChain_agrees casInChain_keeps kept key) ?_
    rintro ⟨rv, cd⟩ ⟨rv', t⟩ ⟨rfl, rfl, kept⟩
    exact ⟨rfl, rfl, kept⟩
  | incr key increment =>
    refine Agree.bind (onChain_agrees incrInChain_keeps kept key) ?_
    rintro ⟨rv, cd⟩ ⟨rv', t⟩ ⟨rfl, rfl, kept⟩
    exact ⟨rfl, rfl, kept⟩

theorem slots_length {c : CacheChain} {p : Blocks} (slots : ∀ i, Holds (c.entries i) (p.key i) (p.val i))
    (is : List Slot) : (is.flatMap p.ofSlot).length = 2 * is.countP fun i => (c.entries i).ksize ≠ -1 := by
  induction is with
  | nil => rfl
  | cons i is ih =>
    have slot := slots i
    rw [List.flatMap_cons, List.length_append, ih, List.countP_cons, Blocks.ofSlot, List.length_append,
      Option.length_toList, Option.length_toList]
    simp only [slot.keyUsed, slot.valUsed, decide_eq_true_eq]
    split <;> omega

/-- Two blocks for each entry in use, and two for the rest. -/
theorem Stored.Kept.count (kept : s.Kept) : s.heap.live.length = 2 * s.cache.held + 2 := by
  have chains : ∀ i, (s.blocks i).all.length =
      2 * (List.finRange CHAINLEN).countP fun j => ((s.cache.table i).entries j).ksize ≠ -1 :=
    fun i => slots_length (kept.slots i) _
  rw [List.Perm.length_eq kept.owns, buffers, List.length_append, List.length_flatMap]
  simp only [chains, List.sum_map_mul_left]
  rfl

theorem freeFrom_owns {c : CacheChain} {p : Blocks} {is : List Slot} {start : Option Slot} {n : Nat} {left : List Nat}
    {h : Heap} (follows : DoublyLinked.Follows (fun i => (c.entries i).next) start is) (enough : is.length ≤ n)
    (owns : h.Owns (is.flatMap p.ofSlot ++ left)) : ∃ h', freeFrom c p n start h = .ok h' ∧ h'.Owns left := by
  induction is generalizing start n h with
  | nil =>
    obtain rfl : start = none := follows
    exact ⟨h, by cases n <;> rfl, owns⟩
  | cons e is ih =>
    obtain ⟨rfl, follows⟩ := follows
    cases n with
    | zero => contradiction
    | succ n =>
      rw [List.flatMap_cons, Blocks.ofSlot, List.append_assoc, List.append_assoc] at owns
      obtain ⟨h₁, freedKey, owns⟩ := free_owns owns
      obtain ⟨h₂, freedVal, owns⟩ := free_owns owns
      obtain ⟨h', rest, owns⟩ := ih follows (Nat.le_of_succ_le_succ enough) owns
      exact ⟨h', by rw [freeFrom, freedKey, ok_bind, freedVal, ok_bind, rest], owns⟩

/-- The entries on the list of a chain are those in use. -/
theorem listed_perm {c : CacheChain} {p : Blocks} {is : List Slot} {l : List (Bytes × Bytes)}
    (slots : ∀ i, Holds (c.entries i) (p.key i) (p.val i)) (rep : Represents c is l) :
    p.all.Perm (is.flatMap p.ofSlot) := by
  have apart : (is ++ (List.finRange CHAINLEN).filter (· ∉ is)).Nodup := by
    refine List.Nodup.append rep.linked.nodup ((List.nodup_finRange CHAINLEN).filter _) ?_
    intro i member rest
    simpa [member] using (List.mem_filter.mp rest).2
  have split : (List.finRange CHAINLEN).Perm (is ++ (List.finRange CHAINLEN).filter (· ∉ is)) := by
    refine (List.perm_ext_iff_of_nodup (List.nodup_finRange CHAINLEN) apart).mpr fun i => ?_
    by_cases member : i ∈ is <;> simp [member]
  have rest : ((List.finRange CHAINLEN).filter (· ∉ is)).flatMap p.ofSlot = [] := by
    refine List.flatMap_eq_nil_iff.mpr fun i unlisted => ?_
    have unused : ¬ (c.entries i).ksize ≠ -1 := by
      rw [rep.used i]
      simpa using (List.mem_filter.mp unlisted).2
    have noKey := Option.not_isSome_iff_eq_none.mp fun used => unused ((slots i).keyUsed.mp used)
    have noVal := Option.not_isSome_iff_eq_none.mp fun used => unused ((slots i).valUsed.mp used)
    rw [Blocks.ofSlot, noKey, noVal]
    rfl
  have parts := List.Perm.flatMap_right p.ofSlot split
  rwa [List.flatMap_append, rest, List.append_nil] at parts

theorem freeChains_owns (slots : ∀ i j, Holds ((s.cache.table i).entries j) ((s.blocks i).key j) ((s.blocks i).val j))
    (represented : s.cache.Represented) {i n : Nat} {left : List Nat} {h : Heap}
    (owns : h.Owns ((List.range' i n).flatMap (fun i => (s.blocks i).all) ++ left)) :
    ∃ h', freeChains s i n h = .ok h' ∧ h'.Owns left := by
  obtain ⟨t, models⟩ := represented
  induction n generalizing i h with
  | zero => exact ⟨h, rfl, owns⟩
  | succ n ih =>
    obtain ⟨⟨is, rep⟩, _, _, _⟩ := models.chains i
    rw [List.range'_succ, List.flatMap_cons, List.append_assoc] at owns
    have short : is.length ≤ CHAINLEN := by
      simpa using List.Nodup.length_le_card rep.linked.nodup
    have listed := (listed_perm (slots i) rep).append_right
      ((List.range' (i + 1) n).flatMap (fun i => (s.blocks i).all) ++ left)
    have follows : DoublyLinked.Follows (fun j => ((s.cache.table i).entries j).next) (s.cache.table i).first is :=
      rep.linked.follows_next
    obtain ⟨h₁, freed, owns⟩ := freeFrom_owns follows short (owns.perm listed)
    obtain ⟨h', rest, owns⟩ := ih owns
    exact ⟨h', by rw [freeChains, freed, ok_bind, rest], owns⟩

/-- cache_free() frees all of it. -/
theorem cacheFree_owns (kept : s.Kept) (represented : s.cache.Represented) :
    ∃ h, cacheFree s = .ok h ∧ h.live = [] := by
  have owns := kept.owns
  rw [Stored.buffers, List.range_eq_range'] at owns
  obtain ⟨h₁, chains, owns⟩ := freeChains_owns kept.slots represented owns
  obtain ⟨h₂, table, owns⟩ := free_owns (p := some s.table) owns
  obtain ⟨h, self, owns⟩ := free_owns (p := some s.self) owns
  refine ⟨h, ?_, List.perm_nil.mp owns⟩
  rw [cacheFree, chains, ok_bind, table, ok_bind, self]

end

/-- The run with blocks and that without them. -/
structure StoredRun.Shows (s : CacheRun) (t : StoredRun) : Prop where
  cache : t.cache.cache = s.cache
  results : t.results = s.results
  kept : t.cache.Kept
  represented : s.cache.Represented

theorem StoredRun.Shows.step {s : CacheRun} {t : StoredRun} (shown : StoredRun.Shows s t)
    (x : CacheOp × CacheMallocs) : Agree StoredRun.Shows (cacheStep s x) (Stored.step t x) := by
  have agree := Stored.exec_agrees shown.kept x.2 x.1
  rw [shown.cache] at agree
  unfold cacheStep Stored.step
  rcases agree.outcomes with ⟨e, fault, fault'⟩ | ⟨⟨r, cd⟩, ⟨r', u⟩, ran, ran', rfl, rfl, kept⟩
  · rw [fault, fault']
    rfl
  · rw [ran, ran']
    exact ⟨rfl, by rw [shown.results], kept, shown.represented.exec ran⟩

theorem cacheCreate_kept (numobjs flags : Nat) :
    ∃ s h, cacheCreate true true numobjs flags Heap.empty = .ok (some s, h) ∧
      Nmdb.cacheCreate true true numobjs flags = some s.cache ∧ s.Kept := by
  have unused : ∀ j, Holds (emptyChain.entries j) (Blocks.empty.key j) (Blocks.empty.val j) := fun j =>
    ⟨.null, .null, by simp [Blocks.empty, emptyChain], by simp [Blocks.empty, emptyChain]⟩
  refine ⟨_, _, rfl, rfl, fun _ j => unused j, ?_⟩
  have owns := owns_alloc (owns_alloc owns_empty)
  have none : ∀ n, (List.range n).flatMap (fun _ => Blocks.empty.all) = [] := fun n =>
    List.flatMap_eq_nil_iff.mpr fun _ _ => rfl
  rw [Stored.buffers, none]
  exact owns

/-- Whatever malloc() does, the cache with its blocks does what it does without, free() gets
each block once, and what is live are two blocks for each entry in use and two for the
cache itself. At the end cache_free leaves nothing. -/
theorem cache_leaks_nothing (cdOk tableOk : Bool) (numobjs flags : Nat) (ops : List (CacheOp × CacheMallocs)) :
    ∃ made h, cacheCreate cdOk tableOk numobjs flags Heap.empty = .ok (made, h) ∧
      made.map Stored.cache = Nmdb.cacheCreate cdOk tableOk numobjs flags ∧ (made = none → h.live = []) ∧
      ∀ s ∈ made, Agree (fun t u => u.cache.cache = t.cache ∧ u.results = t.results ∧
          u.cache.heap.live.length = 2 * t.cache.held + 2 ∧ ∃ h, cacheFree u.cache = .ok h ∧ h.live = [])
        (Runs.run cacheStep ⟨s.cache, []⟩ ops) (Runs.run Stored.step ⟨s, []⟩ ops) := by
  cases cdOk with
  | false => exact ⟨none, Heap.empty, rfl, rfl, fun _ => rfl, fun s member => absurd member (Option.not_mem_none s)⟩
  | true =>
    cases tableOk with
    | false => exact ⟨none, _, rfl, rfl, fun _ => rfl, fun s member => absurd member (Option.not_mem_none s)⟩
    | true =>
      obtain ⟨s, h, made, created, kept⟩ := cacheCreate_kept numobjs flags
      refine ⟨some s, h, made, created.symm, fun no => absurd no (Option.some_ne_none s), ?_⟩
      rintro _ ⟨⟩
      have initial : StoredRun.Shows ⟨s.cache, []⟩ ⟨s, []⟩ :=
        ⟨rfl, rfl, kept, ⟨_, (cacheCreate_models created).2⟩⟩
      have labels : ∀ x ∈ ops, True := fun _ _ => trivial
      have run := Agree.run (fun s t x shown _ => shown.step x) initial labels
      refine run.mono fun t u shown => ⟨shown.cache, shown.results, ?_, ?_⟩
      · rw [← shown.cache]
        exact shown.kept.count
      · exact cacheFree_owns shown.kept (shown.cache ▸ shown.represented)

end Nmdb.Live
