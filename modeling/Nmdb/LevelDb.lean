import Nmdb.ReadOnly
import Nmdb.Lib.Assoc
import Nmdb.Lib.KeyOrder
import Mathlib.Data.List.Lex

/-! The LevelDB backend. Every lookup of a key makes an iterator of its own, so the backend
has no cursor: what it tells depends on the map and the key it is given. -/
namespace Nmdb

open KeyOrder WriteBehind

instance byteOrder : LinearOrder UInt8 where
  le_refl := UInt8.le_refl
  le_trans _ _ _ := UInt8.le_trans
  le_antisymm _ _ := UInt8.le_antisymm
  le_total := UInt8.le_total
  lt_iff_le_not_ge _ _ := by
    simp only [UInt8.lt_iff_toNat_lt, UInt8.le_iff_toNat_le]
    omega
  toDecidableLE := inferInstance

/-- The calls of the library: an update tells whether no error was reported, an iterator the
key it stands at. -/
structure LevelDb (σ ι : Type) where
  put : σ → Bytes → Bytes → Bool × σ
  get : σ → Bytes → Bool × Option Bytes
  delete : σ → Bytes → Bool × σ
  createIterator : σ → ι
  iterSeekToFirst : ι → ι
  iterSeek : ι → Bytes → ι
  iterNext : ι → ι
  iterValid : ι → Bool
  iterKey : ι → Option Bytes

variable {σ ι ν : Type}

section

variable (db : LevelDb σ ι)

def xleveldbSet (d : σ) (key val : Bytes) : Bool × σ := db.put d key val

def xleveldbGet (d : σ) (key : Bytes) (vsize : Nat) : Option Bytes :=
  match db.get d key with
  | (false, _) => none
  | (true, none) => none
  | (true, some v) => if vsize < v.length then none else some v

def xleveldbDel (d : σ) (key : Bytes) : Bool × σ := db.delete d key

/-- The key of an iterator, if it is there and fits the buffer. -/
def copyKey (it : ι) (ksize : Nat) : Option Bytes :=
  match db.iterKey it with
  | none => none
  | some k => if ksize < k.length then none else some k

def xleveldbFirstkey (d : σ) (ksize : Nat) : Option Bytes × σ :=
  let it := db.iterSeekToFirst (db.createIterator d)
  if !db.iterValid it then (none, d)
  else (copyKey db it ksize, d)

def xleveldbNextkey (d : σ) (key : Bytes) (nksize : Nat) : Option Bytes × σ :=
  let it := db.iterSeek (db.createIterator d) key
  if !db.iterValid it then (none, d)
  else
    let it := db.iterNext it
    if !db.iterValid it then (none, d)
    else (copyKey db it nksize, d)

def xleveldbOpen : DbConn σ where
  set := xleveldbSet db
  get := xleveldbGet db
  del := xleveldbDel db
  firstkey := some (xleveldbFirstkey db)
  nextkey := some (xleveldbNextkey db)

end

/-- The keys of a map. -/
def KV.keys (m : KV) : Set Bytes := {k | (m k).isSome}

/-- An ordered map without errors. An iterator walks over the map it was made for: shows
tells this map and the key the iterator stands at. -/
structure LevelDb.OrderedMap (db : LevelDb σ ι) (view : σ → KV) (shows : ι → KV × Option Bytes) : Prop where
  finite : ∀ d, (KV.keys (view d)).Finite
  put : ∀ d k v, (db.put d k v).1 = true ∧ view (db.put d k v).2 = Function.update (view d) k (some v)
  get : ∀ d k, db.get d k = (true, view d k)
  delete : ∀ d k, (db.delete d k).1 = true ∧ view (db.delete d k).2 = Function.update (view d) k none
  created : ∀ d, (shows (db.createIterator d)).1 = view d
  seekToFirst : ∀ it, (shows (db.iterSeekToFirst it)).1 = (shows it).1 ∧
    Least (KV.keys (shows it).1) (shows (db.iterSeekToFirst it)).2
  seek : ∀ it k, (shows (db.iterSeek it k)).1 = (shows it).1 ∧
    Least {x ∈ KV.keys (shows it).1 | k ≤ x} (shows (db.iterSeek it k)).2
  next : ∀ it k, (shows it).2 = some k → (shows (db.iterNext it)).1 = (shows it).1 ∧
    Least {x ∈ KV.keys (shows it).1 | k < x} (shows (db.iterNext it)).2
  valid : ∀ it, db.iterValid it = (shows it).2.isSome
  key : ∀ it k, (shows it).2 = some k → db.iterKey it = some k

namespace LevelDb.OrderedMap

variable {db : LevelDb σ ι} {view : σ → KV} {shows : ι → KV × Option Bytes} (map : db.OrderedMap view shows)

include map

/- What is copied from an iterator: its key, where no key is too long. -/
theorem copyKey_eq {it : ι} {ksize : Nat} {k : Bytes} (here : (shows it).2 = some k) (fits : k.length ≤ ksize) :
    copyKey db it ksize = some k := by
  unfold copyKey
  rw [map.key it k here]
  exact if_neg (Nat.not_lt.mpr fits)

theorem firstkey_eq {d : σ} {ksize : Nat} (short : ∀ k ∈ KV.keys (view d), k.length ≤ ksize) :
    ∃ o, Least (KV.keys (view d)) o ∧ xleveldbFirstkey db d ksize = (o, d) := by
  have least := (map.seekToFirst (db.createIterator d)).2
  rw [map.created] at least
  refine ⟨_, least, ?_⟩
  simp only [xleveldbFirstkey, map.valid]
  cases here : (shows (db.iterSeekToFirst (db.createIterator d))).2 with
  | none => rfl
  | some k =>
    rw [here] at least
    rw [map.copyKey_eq here (short k least.1)]
    rfl

/-- A step beyond a key of the map. -/
theorem nextkey_eq {d : σ} {key : Bytes} {nksize : Nat} (member : key ∈ KV.keys (view d))
    (short : ∀ k ∈ KV.keys (view d), k.length ≤ nksize) :
    ∃ o, Least {x ∈ KV.keys (view d) | key < x} o ∧ xleveldbNextkey db d key nksize = (o, d) := by
  obtain ⟨same, sought⟩ := map.seek (db.createIterator d) key
  rw [map.created] at same sought
  have stands := sought.seek member
  obtain ⟨_, least⟩ := map.next _ key stands
  rw [same] at least
  refine ⟨_, least, ?_⟩
  simp only [xleveldbNextkey, map.valid, stands, Option.isSome_some, Bool.not_true, Bool.false_eq_true,
    if_false]
  cases here : (shows (db.iterNext (db.iterSeek (db.createIterator d) key))).2 with
  | none => rfl
  | some k =>
    rw [here] at least
    rw [map.copyKey_eq here (short k least.1.1)]
    rfl

end LevelDb.OrderedMap

/-- Look-ups, SETs and DELs: what this backend does to the map as an entry asks. -/
def QueueEntry.Plain (e : QueueEntry ν) : Prop := e.operation ≠ .cas ∧ e.operation ≠ .incr

theorem act_reads {e : QueueEntry ν} (reads : e.operation.writes = false) (o : Option Bytes) : e.act o = o := by
  unfold QueueEntry.act
  cases op : e.operation with
  | set | del | cas | incr =>
    rw [op] at reads
    contradiction
  | _ => rfl

theorem apply_reads {m : KV} {e : QueueEntry ν} (reads : e.operation.writes = false) :
    apply QueueEntry.mapKey QueueEntry.act m e = m := by
  rw [apply, act_reads reads, Function.update_eq_self]

/-- The reply to a FIRSTKEY or NEXTKEY that finds a key, or none. -/
def keyReply (o : Option Bytes) : Reply := o.elim (.mini .notin) (.long .ok)

namespace LevelDb.OrderedMap

variable {db : LevelDb σ ι} {view : σ → KV} {shows : ι → KV × Option Bytes} {d d' : σ} {e : QueueEntry Nat}
  {r : Option Reply}

theorem cursorsOnly (db : LevelDb σ ι) (view : σ → KV) : CursorsOnly (xleveldbOpen db) view where
  firstkey firstkey known d n := by
    cases known
    simp only [xleveldbFirstkey]
    split <;> rfl
  nextkey nextkey known d k n := by
    cases known
    simp only [xleveldbNextkey]
    split
    · rfl
    · split <;> rfl

/-- Executing an entry does to the map what the entry is for. -/
theorem executed (map : db.OrderedMap view shows) (plain : e.Plain)
    (done : processOp (xleveldbOpen db) true d e = .ok (d', r)) :
    view d' = apply QueueEntry.mapKey QueueEntry.act (view d) e := by
  cases op : e.operation with
  | set =>
    obtain rfl := processOp_after (.inr (.inl op)) done
    simp only [DbConn.after, DbConn.writes, apply, QueueEntry.act, op]
    exact (map.put d e.mapKey (e.val.getD [])).2
  | del =>
    obtain rfl := processOp_after (.inr (.inr (.inl op))) done
    simp only [DbConn.after, apply, QueueEntry.act, op]
    exact (map.delete d e.mapKey).2
  | cas => exact absurd op plain.1
  | incr => exact absurd op plain.2
  | _ =>
    have reads : e.operation.writes = false := by rw [op]; rfl
    rw [apply_reads reads]
    exact processOp_reads (cursorsOnly db view) reads done

theorem firstkey_executed (map : db.OrderedMap view shows) (op : e.operation = .firstkey)
    (short : ∀ k ∈ KV.keys (view d), k.length ≤ dbBufSize) :
    ∃ o, Least (KV.keys (view d)) o ∧
      processOp (xleveldbOpen db) true d e = .ok (d, some (keyReply o)) := by
  obtain ⟨o, least, found⟩ := map.firstkey_eq short
  refine ⟨o, least, ?_⟩
  simp only [processOp, op, xleveldbOpen, found, Bool.not_true, Bool.false_eq_true, if_false]
  cases o <;> rfl

theorem nextkey_executed (map : db.OrderedMap view shows) (op : e.operation = .nextkey)
    (member : e.mapKey ∈ KV.keys (view d)) (short : ∀ k ∈ KV.keys (view d), k.length ≤ dbBufSize) :
    ∃ o, Least {k ∈ KV.keys (view d) | e.mapKey < k} o ∧
      processOp (xleveldbOpen db) true d e = .ok (d, some (keyReply o)) := by
  obtain ⟨o, least, found⟩ := map.nextkey_eq member short
  refine ⟨o, least, ?_⟩
  have found : xleveldbNextkey db d (e.key.getD []) dbBufSize = (o, d) := found
  simp only [processOp, op, xleveldbOpen, found, Bool.not_true, Bool.false_eq_true, if_false]
  cases o <;> rfl

end LevelDb.OrderedMap

/-- A list of pairs as a LevelDB. An iterator is the list it was made for and the key it
stands at. -/
def pairsDb : LevelDb (List (Bytes × Bytes)) (List (Bytes × Bytes) × Option Bytes) where
  put d k v := (true, (k, v) :: Assoc.eraseKey k d)
  get d k := (true, Assoc.get k d)
  delete d k := (true, Assoc.eraseKey k d)
  createIterator d := (d, none)
  iterSeekToFirst it := (it.1, (Assoc.keys it.1).min?)
  iterSeek it k := (it.1, ((Assoc.keys it.1).filter (k ≤ ·)).min?)
  iterNext it := (it.1, it.2.bind fun k => ((Assoc.keys it.1).filter (k < ·)).min?)
  iterValid it := it.2.isSome
  iterKey it := it.2

theorem least_min (l : List Bytes) : Least {k | k ∈ l} l.min? := by
  cases least : l.min? with
  | none =>
    rw [List.min?_eq_none_iff.mp least]
    ext k
    simp
  | some k =>
    obtain ⟨member, below⟩ := List.min?_eq_some_iff.mp least
    exact ⟨member, fun x inside => below x inside⟩

theorem least_filter (l : List Bytes) (p : Bytes → Prop) [DecidablePred p] :
    Least {k ∈ {k | k ∈ l} | p k} (l.filter p).min? := by
  have same : {k ∈ {k | k ∈ l} | p k} = {k | k ∈ l.filter p} := by
    ext k
    simp
  rw [same]
  exact least_min _

def pairsView (d : List (Bytes × Bytes)) : KV := fun k => Assoc.get k d

theorem pairsView_keys (d : List (Bytes × Bytes)) : KV.keys (pairsView d) = {k | k ∈ Assoc.keys d} := by
  ext k
  exact Assoc.get_isSome_iff k d

theorem pairsDb_ordered : pairsDb.OrderedMap pairsView fun it => (pairsView it.1, it.2) where
  finite d := by
    rw [pairsView_keys]
    exact List.finite_toSet _
  put d k v := by
    refine ⟨rfl, funext fun x => ?_⟩
    simp only [pairsDb, pairsView, Assoc.get_cons, Assoc.get_eraseKey, Function.update_apply]
    split <;> rfl
  get _ _ := rfl
  delete d k := by
    refine ⟨rfl, funext fun x => ?_⟩
    simp only [pairsDb, pairsView, Assoc.get_eraseKey, Function.update_apply]
  created _ := rfl
  seekToFirst it := by
    refine ⟨rfl, ?_⟩
    rw [pairsView_keys]
    exact least_min _
  seek it k := by
    refine ⟨rfl, ?_⟩
    rw [pairsView_keys]
    exact least_filter _ (k ≤ ·)
  next it k here := by
    obtain ⟨d, stands⟩ := it
    obtain rfl : stands = some k := here
    refine ⟨rfl, ?_⟩
    rw [pairsView_keys]
    exact least_filter _ (k < ·)
  valid _ := rfl
  key _ _ here := here

end Nmdb
