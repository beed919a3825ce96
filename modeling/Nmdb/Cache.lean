import Nmdb.Memory
import Nmdb.Libc
import Nmdb.Hash
import Nmdb.Lib.DoublyLinked

/-! The generic cache layer: a hash table whose buckets are short recency lists. The
entries of a bucket live inside it; a pointer to an entry is the number of its slot,
and a size of -1 marks an unused one. Each call of malloc() may fail. -/
namespace Nmdb

def CHAINLEN : Nat := 4

abbrev Slot := Fin CHAINLEN

structure CacheEntry where
  key : Ptr
  val : Ptr
  ksize : Int
  vsize : Int
  prev : Option Slot
  next : Option Slot

structure CacheChain where
  len : Nat
  entries : Slot → CacheEntry
  first : Option Slot
  last : Option Slot

structure Cache where
  numobjs : Nat
  flags : Nat
  hashlen : Nat
  table : Nat → CacheChain

/-- Outcomes of the calls of malloc() one operation can make: at most one for a copy
of the key and one for a buffer of the value. -/
structure CacheMallocs where
  key : Bool
  val : Bool
  deriving DecidableEq, Repr

namespace CacheChain

def modify (c : CacheChain) (i : Slot) (f : CacheEntry → CacheEntry) : CacheChain :=
  { c with entries := Function.update c.entries i (f (c.entries i)) }

def setNext (c : CacheChain) (i : Slot) (p : Option Slot) : CacheChain :=
  c.modify i fun e => { e with next := p }

def setPrev (c : CacheChain) (i : Slot) (p : Option Slot) : CacheChain :=
  c.modify i fun e => { e with prev := p }

def setVal (c : CacheChain) (i : Slot) (v : Ptr) (vsize : Int) : CacheChain :=
  c.modify i fun e => { e with val := v, vsize := vsize }

end CacheChain

def deref : Option Slot → Except Fault Slot
  | some i => .ok i
  | none => .error .nullDeref

def emptyChain : CacheChain where
  len := 0
  entries := fun _ => ⟨.null, .null, -1, -1, none, none⟩
  first := none
  last := none

def cacheCreate (cdOk tableOk : Bool) (numobjs flags : Nat) : Option Cache :=
  if cdOk && tableOk then
    some ⟨numobjs, flags, numobjs / CHAINLEN, fun _ => emptyChain⟩
  else none

def allocEntry (c : CacheChain) : Option Slot :=
  (List.finRange CHAINLEN).find? fun i => (c.entries i).ksize = -1

def freeEntry (c : CacheChain) (i : Slot) : CacheChain :=
  c.modify i fun e => { e with key := .null, ksize := -1, val := .null, vsize := -1 }

/-- The search from an entry on. The chain has at most CHAINLEN entries unless it loops. -/
def findFrom (c : CacheChain) (key : Bytes) : Nat → Option Slot → Except Fault (Option Slot)
  | _, none => .ok none
  | 0, some _ => .error .diverges
  | n + 1, some e =>
    if (key.length : Int) ≠ (c.entries e).ksize then findFrom c key n (c.entries e).next
    else do
      if ← memEq key (c.entries e).key then return some e
      else findFrom c key n (c.entries e).next

def findInChain (c : CacheChain) (key : Bytes) : Except Fault (Option Slot) :=
  findFrom c key CHAINLEN c.first

def newEntry (m : CacheMallocs) (c : CacheChain) (key val : Bytes) :
    Except Fault (Option Slot × CacheChain) :=
  match allocEntry c with
  | none => .ok (none, c)
  | some new =>
    match malloc m.key key.length with
    -- free(new): the entry lies inside the chain, it was never allocated
    | .null => .error .badFree
    | k => do
      let k ← memcpy k key
      let c := c.modify new fun e => { e with key := k, ksize := key.length }
      match malloc m.val val.length with
      | .null =>
        free k
        return (none, freeEntry c new)
      | v =>
        let v ← memcpy v val
        return (some new, c.modify new fun e =>
          { e with val := v, vsize := val.length, prev := none, next := none })

/-- The block of a recycled entry: kept if the size is right, else a new one, NULL if there is none. -/
def refill (ok : Bool) (p : Ptr) (size : Int) (src : Bytes) : Except Fault Ptr :=
  if (src.length : Int) = size then memcpy p src
  else do
    free p
    match malloc ok src.length with
    | .null => return .null
    | q => memcpy q src

/-- The error exit of insertInFullChain: the last entry is removed, just in case. -/
def removeLast (c : CacheChain) (e : Slot) (k v : Ptr) : Except Fault (Int × CacheChain) := do
  let c := { c with last := (c.entries e).prev }
  let l ← deref c.last
  let c := c.setNext l none
  free k
  free v
  return (-1, freeEntry c e)

/-- e->prev->next = e->next; if (e->next != NULL) e->next->prev = e->prev -/
def bypass (c : CacheChain) (e : Slot) : Except Fault CacheChain := do
  let p ← deref (c.entries e).prev
  let c := c.setNext p (c.entries e).next
  match (c.entries e).next with
  | some n => return c.setPrev n (c.entries e).prev
  | none => return c

/-- e->prev = NULL; e->next = c->first; c->first->prev = e; c->first = e -/
def moveFirst (c : CacheChain) (e : Slot) : Except Fault CacheChain := do
  let c := (c.setPrev e none).setNext e c.first
  let f ← deref c.first
  let c := c.setPrev f (some e)
  return { c with first := some e }

def insertInFullChain (m : CacheMallocs) (c : CacheChain) (key val : Bytes) :
    Except Fault (Int × CacheChain) := do
  let e ← deref c.last
  match ← refill m.key (c.entries e).key (c.entries e).ksize key with
  | .null => removeLast c e .null (c.entries e).val
  | k =>
    match ← refill m.val (c.entries e).val (c.entries e).vsize val with
    | .null => removeLast c e k .null
    | v =>
      let c := c.modify e fun e => { e with key := k, ksize := key.length, val := v, vsize := val.length }
      -- move the entry from the last to the first position
      let c := { c with last := (c.entries e).prev }
      let l ← deref c.last
      let c ← moveFirst (c.setNext l none) e
      return (0, c)

/-- if (c->last == e) c->last = e->prev -/
def cutLast (c : CacheChain) (e : Slot) : CacheChain :=
  if c.last = some e then { c with last := (c.entries e).prev } else c

/-- Promote an entry to the top of the list if necessary. -/
def promote (c : CacheChain) (e : Slot) : Except Fault CacheChain :=
  if c.first = some e then .ok c
  else do
    let c ← bypass (cutLast c e) e
    moveFirst c e

/-- How cacheDel takes an entry out of the list. -/
def unlinkEntry (c : CacheChain) (e : Slot) : Except Fault CacheChain := do
  let c ← if c.first = some e then
      let c := { c with first := (c.entries e).next }
      match (c.entries e).next with
      | some n => Except.ok (c.setPrev n none)
      | none => .ok c
    else bypass c e
  return cutLast c e

/-- What cacheSet does in the chain of the key. -/
def setInChain (m : CacheMallocs) (key val : Bytes) (c : CacheChain) :
    Except Fault (Int × CacheChain) := do
  match ← findInChain c key with
  | none =>
    if c.len = CHAINLEN then insertInFullChain m c key val
    else
      match ← newEntry m c key val with
      | (none, c) => return (-1, c)
      | (some new, c) =>
        if c.len = 0 then
          return (0, { c with first := some new, last := some new, len := 1 })
        else if c.len < CHAINLEN then
          let c := c.setNext new c.first
          let f ← deref c.first
          let c := c.setPrev f (some new)
          return (0, { c with first := some new, len := c.len + 1 })
        else return (0, c)
  | some e =>
    if (val.length : Int) = (c.entries e).vsize then
      let v ← memcpy (c.entries e).val val
      let c ← promote (c.setVal e v val.length) e
      return (0, c)
    else
      match malloc m.val val.length with
      | .null => return (-1, c)
      | v =>
        free (c.entries e).val
        let v ← memcpy v val
        let c ← promote (c.setVal e v val.length) e
        return (0, c)

/-- What cacheDel does in the chain of the key. -/
def delInChain (key : Bytes) (c : CacheChain) : Except Fault (Int × CacheChain) := do
  match ← findInChain c key with
  | none => return (0, c)
  | some e =>
    let c ← unlinkEntry c e
    free (c.entries e).key
    free (c.entries e).val
    return (1, { freeEntry c e with len := sizeSub c.len 1 })

/-- What cacheCas does in the chain of the key. -/
def casInChain (m : CacheMallocs) (key oldval newval : Bytes) (c : CacheChain) :
    Except Fault (Int × CacheChain) := do
  match ← findInChain c key with
  | none => return (-2, c)
  | some e =>
    if (c.entries e).vsize ≠ oldval.length then return (-1, c)
    else if !(← memEq oldval (c.entries e).val) then return (-1, c)
    else if oldval.length = newval.length then
      let v ← memcpy (c.entries e).val newval
      return (0, c.setVal e v newval.length)
    else
      match malloc m.val newval.length with
      | .null => return (-3, c)
      | buf =>
        let buf ← memcpy buf newval
        free (c.entries e).val
        return (0, c.setVal e buf newval.length)

/-- What cacheIncr does in the chain of the key; the second result is *newval. -/
def incrInChain (m : CacheMallocs) (key : Bytes) (increment : Int) (c : CacheChain) :
    Except Fault ((Int × Int) × CacheChain) := do
  match ← findInChain c key with
  | none => return ((-1, 0), c)
  | some e =>
    let val := (c.entries e).val
    let vsize := (c.entries e).vsize
    if val = .null then return ((-2, 0), c)
    else if (← val.byteAt (vsize - 1)) ≠ 0 then return ((-2, 0), c)
    else
      let text ← val.read vsize.toNat
      let intval := wrap64 (strtoll text + increment)
      if vsize < 24 then
        match malloc m.val 24 with
        | .null => return ((-3, 0), c)
        | nv =>
          free val
          let buf ← nv.read 24
          return ((0, intval), c.setVal e (.block (snprintf buf 24 intval)) 24)
      else
        return ((0, intval), c.setVal e (.block (snprintf text vsize.toNat intval)) vsize)

/-- The bucket of a key: hash(key, ksize) % hashlen. -/
def bucketIndex (cd : Cache) (key : Bytes) : Except Fault Nat :=
  if cd.hashlen = 0 then .error .divByZero else .ok (hash key % cd.hashlen)

def onChain {α : Type} (cd : Cache) (key : Bytes)
    (f : CacheChain → Except Fault (α × CacheChain)) : Except Fault (α × Cache) := do
  let h ← bucketIndex cd key
  let (rv, c) ← f (cd.table h)
  return (rv, { cd with table := Function.update cd.table h c })

def findInCache (cd : Cache) (key : Bytes) : Except Fault (Option CacheEntry) := do
  let h ← bucketIndex cd key
  let e ← findInChain (cd.table h) key
  return e.map (cd.table h).entries

/-- The result, *val and *vsize. -/
def cacheGet (cd : Cache) (key : Bytes) : Except Fault (Bool × Ptr × Int) := do
  match ← findInCache cd key with
  | none => return (false, .null, 0)
  | some e => return (true, e.val, e.vsize)

def cacheSet (m : CacheMallocs) (cd : Cache) (key val : Bytes) : Except Fault (Int × Cache) :=
  onChain cd key (setInChain m key val)

def cacheDel (cd : Cache) (key : Bytes) : Except Fault (Int × Cache) :=
  onChain cd key (delInChain key)

def cacheCas (m : CacheMallocs) (cd : Cache) (key oldval newval : Bytes) :
    Except Fault (Int × Cache) :=
  onChain cd key (casInChain m key oldval newval)

def cacheIncr (m : CacheMallocs) (cd : Cache) (key : Bytes) (increment : Int) :
    Except Fault ((Int × Int) × Cache) :=
  onChain cd key (incrInChain m key increment)

end Nmdb
