import Nmdb.LiveBuffers
import Nmdb.Store

/-! The blocks of the cache, from cache_create to cache_free. The functions are those of the
cache once more, with what they allocate and free; a block is where its key or value is. -/
namespace Nmdb.Live

open Ownership

/-- Where the key and the value of each entry of a chain are. -/
structure Blocks where
  key : Slot → Pointer
  val : Slot → Pointer

namespace Blocks

def empty : Blocks := ⟨fun _ => none, fun _ => none⟩

def set (p : Blocks) (i : Slot) (k v : Pointer) : Blocks :=
  ⟨Function.update p.key i k, Function.update p.val i v⟩

end Blocks

abbrev OnChain (α : Type) := (α × CacheChain) × Blocks × Heap

def newEntry (m : CacheMallocs) (c : CacheChain) (key val : Bytes) (p : Blocks) (h : Heap) :
    Except Fault (OnChain (Option Slot)) :=
  match allocEntry c with
  | none => .ok ((none, c), p, h)
  | some new =>
    match malloc m.key h with
    -- free(new): the entry lies inside the chain
    | (none, _) => .error .badFree
    | (some k, h) =>
      let c := c.modify new fun e => { e with key := .block key, ksize := key.length }
      match malloc m.val h with
      | (none, h) => do
        let h ← free (some k) h
        return ((none, freeEntry c new), p.set new none none, h)
      | (some v, h) =>
        .ok ((some new, c.modify new fun e =>
          { e with val := .block val, vsize := val.length, prev := none, next := none }),
          p.set new (some k) (some v), h)

/-- The block q of a recycled entry, at p. -/
def refill (ok : Bool) (q : Ptr) (size : Int) (src : Bytes) (p : Pointer) (h : Heap) :
    Except Fault ((Ptr × Pointer) × Heap) :=
  if (src.length : Int) = size then do
    let q ← memcpy q src
    return ((q, p), h)
  else do
    let h ← free p h
    match malloc ok h with
    | (none, h) => return ((.null, none), h)
    | (some p, h) => return ((.block src, some p), h)

/-- The error exit of insertInFullChain. -/
def removeLast (c : CacheChain) (e : Slot) (p : Blocks) (h : Heap) : Except Fault (OnChain Int) := do
  let c := { c with last := (c.entries e).prev }
  let l ← deref c.last
  let c := c.setNext l none
  let h ← free (p.key e) h
  let h ← free (p.val e) h
  return ((-1, freeEntry c e), p.set e none none, h)

def insertInFullChain (m : CacheMallocs) (c : CacheChain) (key val : Bytes) (p : Blocks) (h : Heap) :
    Except Fault (OnChain Int) := do
  let e ← deref c.last
  let ((k, kp), h) ← refill m.key (c.entries e).key (c.entries e).ksize key (p.key e) h
  let p := p.set e kp (p.val e)
  match k with
  | .null => removeLast c e p h
  | k =>
    let ((v, vp), h) ← refill m.val (c.entries e).val (c.entries e).vsize val (p.val e) h
    let p := p.set e kp vp
    match v with
    | .null => removeLast c e p h
    | v =>
      let c := c.modify e fun e => { e with key := k, ksize := key.length, val := v, vsize := val.length }
      let c := { c with last := (c.entries e).prev }
      let l ← deref c.last
      let c ← moveFirst (c.setNext l none) e
      return ((0, c), p, h)

def setInChain (m : CacheMallocs) (key val : Bytes) (c : CacheChain) (p : Blocks) (h : Heap) :
    Except Fault (OnChain Int) := do
  match ← findInChain c key with
  | none =>
    if c.len = CHAINLEN then insertInFullChain m c key val p h
    else
      match ← newEntry m c key val p h with
      | ((none, c), p, h) => return ((-1, c), p, h)
      | ((some new, c), p, h) =>
        if c.len = 0 then
          return ((0, { c with first := some new, last := some new, len := 1 }), p, h)
        else if c.len < CHAINLEN then
          let c := c.setNext new c.first
          let f ← deref c.first
          let c := c.setPrev f (some new)
          return ((0, { c with first := some new, len := c.len + 1 }), p, h)
        else return ((0, c), p, h)
  | some e =>
    if (val.length : Int) = (c.entries e).vsize then
      let v ← memcpy (c.entries e).val val
      let c ← promote (c.setVal e v val.length) e
      return ((0, c), p, h)
    else
      match malloc m.val h with
      | (none, h) => return ((-1, c), p, h)
      | (some v, h) =>
        let h ← free (p.val e) h
        let c ← promote (c.setVal e (.block val) val.length) e
        return ((0, c), p.set e (p.key e) (some v), h)

def delInChain (key : Bytes) (c : CacheChain) (p : Blocks) (h : Heap) : Except Fault (OnChain Int) := do
  match ← findInChain c key with
  | none => return ((0, c), p, h)
  | some e =>
    let c ← unlinkEntry c e
    let h ← free (p.key e) h
    let h ← free (p.val e) h
    return ((1, { freeEntry c e with len := sizeSub c.len 1 }), p.set e none none, h)

def casInChain (m : CacheMallocs) (key oldval newval : Bytes) (c : CacheChain) (p : Blocks) (h : Heap) :
    Except Fault (OnChain Int) := do
  match ← findInChain c key with
  | none => return ((-2, c), p, h)
  | some e =>
    if (c.entries e).vsize ≠ oldval.length then return ((-1, c), p, h)
    else if !(← memEq oldval (c.entries e).val) then return ((-1, c), p, h)
    else if oldval.length = newval.length then
      let v ← memcpy (c.entries e).val newval
      return ((0, c.setVal e v newval.length), p, h)
    else
      match malloc m.val h with
      | (none, h) => return ((-3, c), p, h)
      | (some buf, h) =>
        let h ← free (p.val e) h
        return ((0, c.setVal e (.block newval) newval.length), p.set e (p.key e) (some buf), h)

def incrInChain (m : CacheMallocs) (key : Bytes) (increment : Int) (c : CacheChain) (p : Blocks) (h : Heap) :
    Except Fault (OnChain (Int × Int)) := do
  match ← findInChain c key with
  | none => return (((-1, 0), c), p, h)
  | some e =>
    let val := (c.entries e).val
    let vsize := (c.entries e).vsize
    if val = .null then return (((-2, 0), c), p, h)
    else if (← val.byteAt (vsize - 1)) ≠ 0 then return (((-2, 0), c), p, h)
    else
      let text ← val.read vsize.toNat
      let intval := wrap64 (strtoll text + increment)
      if vsize < 24 then
        match malloc m.val h with
        | (none, h) => return (((-3, 0), c), p, h)
        | (some nv, h) =>
          let h ← free (p.val e) h
          let text := snprintf (List.replicate 24 indeterminate) 24 intval
          return (((0, intval), c.setVal e (.block text) 24), p.set e (p.key e) (some nv), h)
      else
        return (((0, intval), c.setVal e (.block (snprintf text vsize.toNat intval)) vsize), p, h)

/-- A cache in memory: the addresses of struct cache and of its table, and the blocks of each
chain of the table. -/
structure Stored where
  cache : Cache
  self : Nat
  table : Nat
  blocks : Nat → Blocks
  heap : Heap

def cacheCreate (cdOk tableOk : Bool) (numobjs flags : Nat) (h : Heap) : Except Fault (Option Stored × Heap) :=
  match malloc cdOk h with
  | (none, h) => .ok (none, h)
  | (some cd, h) =>
    match malloc tableOk h with
    | (none, h) => do
      let h ← free (some cd) h
      return (none, h)
    | (some table, h) =>
      .ok (some ⟨⟨numobjs, flags, numobjs / CHAINLEN, fun _ => emptyChain⟩, cd, table, fun _ => .empty, h⟩, h)

/-- The inner loop of cache_free, from an entry on. -/
def freeFrom (c : CacheChain) (p : Blocks) : Nat → Option Slot → Heap → Except Fault Heap
  | _, none, h => .ok h
  | 0, some _, _ => .error .diverges
  | n + 1, some e, h => do
    let h ← free (p.key e) h
    let h ← free (p.val e) h
    freeFrom c p n (c.entries e).next h

/-- The outer loop of cache_free, over n chains from number i on. -/
def freeChains (s : Stored) (i : Nat) : Nat → Heap → Except Fault Heap
  | 0, h => .ok h
  | n + 1, h => do
    let h ← freeFrom (s.cache.table i) (s.blocks i) CHAINLEN (s.cache.table i).first h
    freeChains s (i + 1) n h

def cacheFree (s : Stored) : Except Fault Heap := do
  let h ← freeChains s 0 s.cache.hashlen s.heap
  let h ← free (some s.table) h
  free (some s.self) h

def Stored.onChain {α : Type} (s : Stored) (key : Bytes)
    (f : CacheChain → Blocks → Heap → Except Fault (OnChain α)) : Except Fault (α × Stored) := do
  let i ← bucketIndex s.cache key
  let ((rv, c), p, h) ← f (s.cache.table i) (s.blocks i) s.heap
  return (rv, { s with
    cache := { s.cache with table := Function.update s.cache.table i c }
    blocks := Function.update s.blocks i p
    heap := h })

def Stored.exec (m : CacheMallocs) (s : Stored) : CacheOp → Except Fault (CacheResult × Stored)
  | .get key => do
    let (found, val, vsize) ← cacheGet s.cache key
    return (.got found val vsize, s)
  | .set key val => do
    let (rv, s) ← s.onChain key (setInChain m key val)
    return (.rv rv, s)
  | .del key => do
    let (rv, s) ← s.onChain key (delInChain key)
    return (.rv rv, s)
  | .cas key oldval newval => do
    let (rv, s) ← s.onChain key (casInChain m key oldval newval)
    return (.rv rv, s)
  | .incr key increment => do
    let ((rv, newval), s) ← s.onChain key (incrInChain m key increment)
    return (.incremented rv newval, s)

structure StoredRun where
  cache : Stored
  results : List CacheResult

def Stored.step (s : StoredRun) (x : CacheOp × CacheMallocs) : Except Fault StoredRun := do
  let (r, cd) ← s.cache.exec x.2 x.1
  return ⟨cd, s.results ++ [r]⟩

end Nmdb.Live
