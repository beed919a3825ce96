import Nmdb.Store

/-! What the main thread shares between requests: the cache, the operation queue, the
statistics, and the replies given so far. The network part of a request is a parameter:
the code only hands it back to the reply functions. -/
namespace Nmdb

def PROTO_VER : Nat := 1

def FLAGS_CACHE_ONLY : Nat := 1
def FLAGS_SYNC : Nat := 2

/-- The requests, REQ_GET to REQ_NEXTKEY. -/
inductive Req where
  | get
  | set
  | del
  | cas
  | incr
  | stats
  | firstkey
  | nextkey
  deriving DecidableEq, Repr

def Req.code : Req → Nat
  | .get => 0x101
  | .set => 0x102
  | .del => 0x103
  | .cas => 0x104
  | .incr => 0x105
  | .stats => 0x106
  | .firstkey => 0x107
  | .nextkey => 0x108

/-- The replies, REP_CACHE_HIT to REP_NOMATCH; an error has a code of its own. -/
inductive Rep where
  | cacheHit
  | cacheMiss
  | ok
  | notin
  | nomatch
  deriving DecidableEq, Repr

inductive Err where
  | ver
  | send
  | broken
  | unkreq
  | mem
  | db
  | ro
  deriving DecidableEq, Repr

def REP_ERR : Nat := 0x800

def Rep.code : Rep → Nat
  | .cacheHit => 0x801
  | .cacheMiss => 0x802
  | .ok => 0x803
  | .notin => 0x804
  | .nomatch => 0x805

def Err.code : Err → Nat
  | .ver => 0x101
  | .send => 0x102
  | .broken => 0x103
  | .unkreq => 0x104
  | .mem => 0x105
  | .db => 0x106
  | .ro => 0x107

inductive Reply where
  | mini (reply : Rep)
  | err (error : Err)
  | long (reply : Rep) (val : Bytes)
  deriving DecidableEq, Repr

def Reply.isErr : Reply → Bool
  | .mini _ => false
  | .err _ => true
  | .long _ _ => false

structure ReqInfo (ν : Type) where
  net : ν
  id : Nat
  cmd : Nat
  flags : Nat
  deriving DecidableEq, Repr

def ReqInfo.cacheOnly {ν : Type} (req : ReqInfo ν) : Bool := req.flags &&& FLAGS_CACHE_ONLY ≠ 0

def ReqInfo.sync {ν : Type} (req : ReqInfo ν) : Bool := req.flags &&& FLAGS_SYNC ≠ 0

structure QueueEntry (ν : Type) where
  operation : Req
  req : ReqInfo ν
  key : Option Bytes
  val : Option Bytes
  newval : Option Bytes
  deriving DecidableEq, Repr

structure Stats where
  cacheGet : UInt64 := 0
  cacheSet : UInt64 := 0
  cacheDel : UInt64 := 0
  cacheCas : UInt64 := 0
  cacheIncr : UInt64 := 0
  dbGet : UInt64 := 0
  dbSet : UInt64 := 0
  dbDel : UInt64 := 0
  dbCas : UInt64 := 0
  dbIncr : UInt64 := 0
  cacheHits : UInt64 := 0
  cacheMisses : UInt64 := 0
  dbHits : UInt64 := 0
  dbMisses : UInt64 := 0
  msgTipc : UInt64 := 0
  msgTcp : UInt64 := 0
  msgUdp : UInt64 := 0
  msgSctp : UInt64 := 0
  netVersionMismatch : UInt64 := 0
  netBrokenReq : UInt64 := 0
  netUnkReq : UInt64 := 0
  dbFirstkey : UInt64 := 0
  dbNextkey : UInt64 := 0

/-- The fields in the order of the reply to a stats request. -/
def Stats.fields (s : Stats) : List UInt64 :=
  [s.cacheGet, s.cacheSet, s.cacheDel, s.cacheCas, s.cacheIncr,
    s.dbGet, s.dbSet, s.dbDel, s.dbCas, s.dbIncr,
    s.cacheHits, s.cacheMisses, s.dbHits, s.dbMisses,
    s.msgTipc, s.msgTcp, s.msgUdp, s.msgSctp,
    s.netVersionMismatch, s.netBrokenReq, s.netUnkReq, s.dbFirstkey, s.dbNextkey]

structure Settings where
  readOnly : Bool

structure Server (ν : Type) where
  cache : Cache
  queue : List (QueueEntry ν)
  stats : Stats
  settings : Settings
  replies : List (ReqInfo ν × Reply)

/-- Outcomes of malloc() while one message is parsed: in the cache, then for the queue
entry, its three copies, and the copies of the request and of the client's address. -/
structure Mallocs where
  cache : CacheMallocs
  entry : Bool
  kcopy : Bool
  vcopy : Bool
  nvcopy : Bool
  req : Bool
  clisa : Bool
  deriving DecidableEq, Repr

def Mallocs.plenty : Mallocs := ⟨Bucket.plenty, true, true, true, true, true, true⟩

namespace Server

variable {ν : Type}

def reply (s : Server ν) (req : ReqInfo ν) (r : Reply) : Server ν :=
  { s with replies := s.replies ++ [(req, r)] }

def count (s : Server ν) (f : Stats → Stats) : Server ν := { s with stats := f s.stats }

/-- reply_long: without a value it is a short reply. -/
def replyLong (s : Server ν) (req : ReqInfo ν) (r : Rep) (val : Ptr) (vsize : Int) :
    Except Fault (Server ν) :=
  match val with
  | .null => .ok (s.reply req (.mini r))
  | p => do
    let b ← p.read vsize.toNat
    return s.reply req (.long r b)

end Server

variable {ν : Type}

/-- A failed copy frees the entry while its pointer to the request is not set yet. -/
def makeQueueLongEntry (m : Mallocs) (req : ReqInfo ν) (operation : Req)
    (key val newval : Option Bytes) : Except Fault (Option (QueueEntry ν)) :=
  if !m.entry then .ok none
  else if (key.isSome && !m.kcopy) || (val.isSome && !m.vcopy) || (newval.isSome && !m.nvcopy) then
    .error .uninitialised
  else if !m.req || !m.clisa then .ok none
  else .ok (some ⟨operation, req, key, val, newval⟩)

def putInQueueLong (m : Mallocs) (s : Server ν) (req : ReqInfo ν) (operation : Req)
    (key val newval : Option Bytes) : Except Fault (Bool × Server ν) := do
  match ← makeQueueLongEntry m req operation key val newval with
  | none => return (false, s)
  | some e => return (true, { s with queue := s.queue ++ [e] })

def putInQueue (m : Mallocs) (s : Server ν) (req : ReqInfo ν) (operation : Req)
    (key val : Option Bytes) : Except Fault (Bool × Server ν) :=
  putInQueueLong m s req operation key val none

/-- The allocations whose failure turns a queue entry down. A copy that fails faults. -/
def Mallocs.EntryHad (m : Mallocs) : Prop := m.entry = true ∧ m.req = true ∧ m.clisa = true

/-- What queueing a request can do, apart from faulting. -/
theorem putInQueueLong_cases {m : Mallocs} {s s' : Server ν} {req : ReqInfo ν} {operation : Req}
    {key val newval : Option Bytes} {rv : Bool}
    (done : putInQueueLong m s req operation key val newval = .ok (rv, s')) :
    (rv = false ∧ ¬ m.EntryHad ∧ s' = s) ∨
    (rv = true ∧ m.EntryHad ∧
      s' = { s with queue := s.queue ++ [⟨operation, req, key, val, newval⟩] }) := by
  obtain ⟨e, made, queued⟩ := bind_eq_ok.mp done
  unfold makeQueueLongEntry at made
  split at made
  case isTrue refused =>
    cases made
    cases queued
    refine .inl ⟨rfl, fun had => ?_, rfl⟩
    rw [had.1] at refused
    exact absurd refused (by decide)
  case isFalse had =>
    split at made
    · contradiction
    · split at made
      case isTrue refused =>
        cases made
        cases queued
        refine .inl ⟨rfl, fun had => ?_, rfl⟩
        rw [had.2.1, had.2.2] at refused
        exact absurd refused (by decide)
      case isFalse rest =>
        cases made
        cases queued
        simp only [Bool.not_eq_true', Bool.not_eq_false, Bool.or_eq_true, not_or] at had rest
        exact .inr ⟨rfl, ⟨had, rest.1, rest.2⟩, rfl⟩

end Nmdb
