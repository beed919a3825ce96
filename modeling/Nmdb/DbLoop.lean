import Nmdb.Parse

/-! The database thread: the backend as the code sees it, and process_op. -/
namespace Nmdb

/-- The operations of a backend in state δ. A get or a key lookup that returns 0 is none,
and the last argument is the size of the buffer it fills. -/
structure DbConn (δ : Type) where
  set : δ → Bytes → Bytes → Bool × δ
  get : δ → Bytes → Nat → Option Bytes
  del : δ → Bytes → Bool × δ
  firstkey : Option (δ → Nat → Option Bytes × δ)
  nextkey : Option (δ → Bytes → Nat → Option Bytes × δ)

variable {δ ν : Type}

def dbBufSize : Nat := 64 * 1024

/-- The int64_t in the value of a queued INCR. -/
def entryIncrement (e : QueueEntry ν) : Int := toInt64 (load64 (Mem.ofBytes (e.val.getD [])) 0)

/-- REQ_INCR on the value the database holds; dbval is a block of dbBufSize bytes. -/
def processIncr (db : DbConn δ) (d : δ) (e : QueueEntry ν) (v : Bytes) :
    Except Fault (δ × Option Reply) :=
  let dbval := v ++ List.replicate (dbBufSize - v.length) indeterminate
  match v.getLast? with
  | none => .error .outOfBounds
  | some c =>
    if c ≠ 0 then .ok (d, some (.mini .nomatch))
    else
      let intval := wrap64 (strtoll dbval + entryIncrement e)
      let dbvsize := if v.length < 24 then 24 else v.length
      let text := (snprintf dbval dbvsize intval).take dbvsize
      let (rv, d) := db.set d (e.key.getD []) text
      if !rv then .ok (d, some (.err .db))
      else .ok (d, some (.long .ok (bytes64 (htonll (ofInt64 intval)))))

/-- The new state of the backend and the reply, if any; ok is the outcome of malloc(). -/
def processOp (db : DbConn δ) (ok : Bool) (d : δ) (e : QueueEntry ν) :
    Except Fault (δ × Option Reply) :=
  let key := e.key.getD []
  match e.operation with
  | .set =>
    let (rv, d) := db.set d key (e.val.getD [])
    if !e.req.sync then .ok (d, none)
    else if !rv then .ok (d, some (.err .db))
    else .ok (d, some (.mini .ok))
  | .get =>
    if !ok then .ok (d, some (.err .mem))
    else
      match db.get d key dbBufSize with
      | none => .ok (d, some (.mini .notin))
      | some v => .ok (d, some (.long .ok v))
  | .del =>
    let (rv, d) := db.del d key
    if !e.req.sync then .ok (d, none)
    else if !rv then .ok (d, some (.mini .notin))
    else .ok (d, some (.mini .ok))
  | .cas =>
    if !ok then .ok (d, some (.err .mem))
    else
      match db.get d key dbBufSize with
      | none => .ok (d, some (.mini .notin))
      | some dbval =>
        if e.val = some dbval then
          let (rv, d) := db.set d key (e.newval.getD [])
          if !rv then .ok (d, some (.err .db))
          else .ok (d, some (.mini .ok))
        else .ok (d, some (.mini .nomatch))
  | .incr =>
    if !ok then .ok (d, some (.err .mem))
    else
      match db.get d key dbBufSize with
      | none => .ok (d, some (.mini .notin))
      | some v => processIncr db d e v
  | .firstkey =>
    match db.firstkey with
    | none => .ok (d, some (.err .db))
    | some firstkey =>
      if !ok then .ok (d, some (.err .mem))
      else
        match firstkey d dbBufSize with
        | (none, d) => .ok (d, some (.mini .notin))
        | (some k, d) => .ok (d, some (.long .ok k))
  | .nextkey =>
    match db.nextkey with
    | none => .ok (d, some (.err .db))
    | some nextkey =>
      if !ok then .ok (d, some (.err .mem))
      else
        match nextkey d key dbBufSize with
        | (none, d) => .ok (d, some (.mini .notin))
        | (some k, d) => .ok (d, some (.long .ok k))
  -- an unknown operation is logged
  | .stats => .ok (d, none)

/-- The server with its database thread. Requests are told apart by their number in the
order of parsing; hand is the entry taken from the queue and not yet executed. -/
structure System (δ : Type) where
  server : Server Nat
  db : δ
  hand : Option (QueueEntry Nat)
  parsed : Nat

inductive Event where
  | message (buf : Mem) (len : Nat)
  | dequeue
  | execute

/-- One step of either thread, with memory to spare. -/
def System.step (db : DbConn δ) (s : System δ) : Event → Except Fault (System δ)
  | .message buf len => do
    let (_, server) ← parseMessage Mallocs.plenty s.server ⟨s.parsed, 0, 0, 0⟩ buf len
    return { s with server := server, parsed := s.parsed + 1 }
  | .dequeue =>
    match s.hand, s.server.queue with
    | none, e :: rest => .ok { s with hand := some e, server := { s.server with queue := rest } }
    | _, _ => .ok s
  | .execute =>
    match s.hand with
    | none => .ok s
    | some e => do
      let (d, r) ← processOp db true s.db e
      let server := match r with
        | none => s.server
        | some r => s.server.reply e.req r
      return { s with server := server, db := d, hand := none }

/-- Entries put into the queue and not yet executed, the oldest first. -/
def System.pending (s : System δ) : List (QueueEntry Nat) := s.hand.toList ++ s.server.queue

def System.start (cache : Cache) (settings : Settings) (d : δ) : System δ :=
  ⟨⟨cache, [], {}, settings, []⟩, d, none, 0⟩

end Nmdb
