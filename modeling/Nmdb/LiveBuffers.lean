import Nmdb.DbLoop
import Nmdb.Lib.Ownership

/-! The buffers of a request, from make_queue_long_entry until db_loop is done with its entry. The
functions are those of the server once more, with what they allocate and free. -/
namespace Nmdb.Live

open Ownership

variable {δ ν : Type}

abbrev Pointer := Option Nat

def malloc (ok : Bool) (h : Heap) : Pointer × Heap := if ok then (some h.next, h.alloc) else (none, h)

def free (p : Pointer) (h : Heap) : Except Fault Heap :=
  match p with
  | none => .ok h
  | some p =>
    match h.release p with
    | some h => .ok h
    | none => .error .badFree

/-- The pointer to the copy of the request, which a new entry has not set, and its clisa. -/
inductive ReqPointer where
  | unset
  | null
  | copy (self : Nat) (clisa : Pointer)
  deriving DecidableEq, Repr

/-- A queue entry by its address and pointers. -/
structure Entry where
  self : Nat
  req : ReqPointer
  key : Pointer
  val : Pointer
  newval : Pointer
  deriving DecidableEq, Repr

def queueEntryCreate (ok : Bool) (h : Heap) : Option Entry × Heap :=
  match malloc ok h with
  | (none, h) => (none, h)
  | (some e, h) => (some ⟨e, .unset, none, none, none⟩, h)

/-- if (e->req) { free(e->req->clisa); free(e->req) } -/
def freeReq (req : ReqPointer) (h : Heap) : Except Fault Heap :=
  match req with
  | .unset => .error .uninitialised
  | .null => .ok h
  | .copy self clisa => do
    let h ← free clisa h
    free (some self) h

def queueEntryFree (e : Entry) (h : Heap) : Except Fault Heap := do
  let h ← freeReq e.req h
  let h ← free e.key h
  let h ← free e.val h
  let h ← free e.newval h
  free (some e.self) h

/-- A copy of a datum, if there is one: whether it succeeded, and where the copy is. -/
def copyOf (ok : Bool) (datum : Option Bytes) (h : Heap) : Bool × Pointer × Heap :=
  match datum with
  | none => (true, none, h)
  | some _ => (ok, malloc ok h)

/-- The label error of make_queue_long_entry. -/
def copyFailed (e : Entry) (kcopy vcopy nvcopy : Pointer) (h : Heap) :
    Except Fault (Option (Entry × QueueEntry ν) × Heap) := do
  let h ← queueEntryFree e h
  let h ← free kcopy h
  let h ← free vcopy h
  let h ← free nvcopy h
  return (none, h)

def makeQueueLongEntry (m : Mallocs) (req : ReqInfo ν) (operation : Req)
    (key val newval : Option Bytes) (h : Heap) :
    Except Fault (Option (Entry × QueueEntry ν) × Heap) :=
  match queueEntryCreate m.entry h with
  | (none, h) => .ok (none, h)
  | (some e, h) =>
    match copyOf m.kcopy key h with
    | (false, kcopy, h) => copyFailed e kcopy none none h
    | (true, kcopy, h) =>
      match copyOf m.vcopy val h with
      | (false, vcopy, h) => copyFailed e kcopy vcopy none h
      | (true, vcopy, h) =>
        match copyOf m.nvcopy newval h with
        | (false, nvcopy, h) => copyFailed e kcopy vcopy nvcopy h
        | (true, nvcopy, h) =>
          let e := { e with key := kcopy, val := vcopy, newval := nvcopy }
          match malloc m.req h with
          | (none, h) => do
            let h ← queueEntryFree { e with req := .null } h
            return (none, h)
          | (some r, h) =>
            match malloc m.clisa h with
            | (none, h) => do
              let h ← queueEntryFree { e with req := .copy r none } h
              return (none, h)
            | (some clisa, h) =>
              .ok (some ({ e with req := .copy r (some clisa) }, ⟨operation, req, key, val, newval⟩), h)

/-- REQ_INCR on the value in dbval -/
def processIncr (db : DbConn δ) (d : δ) (e : QueueEntry ν) (v : Bytes) (dbval : Pointer) (h : Heap) :
    Except Fault ((δ × Option Reply) × Heap) :=
  let block := v ++ List.replicate (dbBufSize - v.length) indeterminate
  match v.getLast? with
  | none => .error .outOfBounds
  | some c =>
    if c ≠ 0 then do
      let h ← free dbval h
      return ((d, some (.mini .nomatch)), h)
    else
      let intval := wrap64 (strtoll block + entryIncrement e)
      let dbvsize := if v.length < 24 then 24 else v.length
      let text := (snprintf block dbvsize intval).take dbvsize
      let (rv, d) := db.set d (e.key.getD []) text
      if !rv then .ok ((d, some (.err .db)), h)
      else do
        let h ← free dbval h
        return ((d, some (.long .ok (bytes64 (htonll (ofInt64 intval))))), h)

def processOp (db : DbConn δ) (ok : Bool) (d : δ) (e : QueueEntry ν) (h : Heap) :
    Except Fault ((δ × Option Reply) × Heap) :=
  let key := e.key.getD []
  match e.operation with
  | .set =>
    let (rv, d) := db.set d key (e.val.getD [])
    if !e.req.sync then .ok ((d, none), h)
    else if !rv then .ok ((d, some (.err .db)), h)
    else .ok ((d, some (.mini .ok)), h)
  | .get =>
    match malloc ok h with
    | (none, h) => .ok ((d, some (.err .mem)), h)
    | (val, h) =>
      match db.get d key dbBufSize with
      | none => do
        let h ← free val h
        return ((d, some (.mini .notin)), h)
      | some v => do
        let h ← free val h
        return ((d, some (.long .ok v)), h)
  | .del =>
    let (rv, d) := db.del d key
    if !e.req.sync then .ok ((d, none), h)
    else if !rv then .ok ((d, some (.mini .notin)), h)
    else .ok ((d, some (.mini .ok)), h)
  | .cas =>
    match malloc ok h with
    | (none, h) => .ok ((d, some (.err .mem)), h)
    | (dbval, h) =>
      match db.get d key dbBufSize with
      | none => do
        let h ← free dbval h
        return ((d, some (.mini .notin)), h)
      | some v =>
        if e.val = some v then
          let (rv, d) := db.set d key (e.newval.getD [])
          -- returns without free(dbval)
          if !rv then .ok ((d, some (.err .db)), h)
          else do
            let h ← free dbval h
            return ((d, some (.mini .ok)), h)
        else do
          let h ← free dbval h
          return ((d, some (.mini .nomatch)), h)
  | .incr =>
    match malloc ok h with
    | (none, h) => .ok ((d, some (.err .mem)), h)
    | (dbval, h) =>
      match db.get d key dbBufSize with
      | none => do
        let h ← free dbval h
        return ((d, some (.mini .notin)), h)
      | some v => processIncr db d e v dbval h
  | .firstkey =>
    match db.firstkey with
    | none => .ok ((d, some (.err .db)), h)
    | some firstkey =>
      match malloc ok h with
      | (none, h) => .ok ((d, some (.err .mem)), h)
      | (key, h) =>
        match firstkey d dbBufSize with
        | (none, d) => do
          let h ← free key h
          return ((d, some (.mini .notin)), h)
        | (some k, d) => do
          let h ← free key h
          return ((d, some (.long .ok k)), h)
  | .nextkey =>
    match db.nextkey with
    | none => .ok ((d, some (.err .db)), h)
    | some nextkey =>
      match malloc ok h with
      | (none, h) => .ok ((d, some (.err .mem)), h)
      | (newkey, h) =>
        match nextkey d key dbBufSize with
        | (none, d) => do
          let h ← free newkey h
          return ((d, some (.mini .notin)), h)
        | (some k, d) => do
          let h ← free newkey h
          return ((d, some (.long .ok k)), h)
  | .stats => .ok ((d, none), h)

/-- What db_loop does with an entry it has taken from the queue. -/
def dbLoop (db : DbConn δ) (ok : Bool) (d : δ) (e : Entry × QueueEntry ν) (h : Heap) :
    Except Fault ((δ × Option Reply) × Heap) := do
  let (done, h) ← processOp db ok d e.2 h
  let h ← queueEntryFree e.1 h
  return (done, h)

end Nmdb.Live
