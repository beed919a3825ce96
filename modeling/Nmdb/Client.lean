import Nmdb.ChosenReplies
import Nmdb.Schedules

/-! Calls of the library against the running server, from the caller's arguments to what the
caller gets back. The documented result of a call is a matter of the map the server stands
for, whoever else is using it and whenever the database thread gets its turns. -/
namespace Nmdb.Library

/-- A call of nmdb_get, nmdb_set, nmdb_del, nmdb_cas or nmdb_incr, or of a variant of one. -/
inductive Call where
  | get (key : Bytes) (vsize : Nat)
  | set (key val : Bytes)
  | del (key : Bytes)
  | cas (key oldval newval : Bytes)
  | incr (key : Bytes) (increment : Int)

/-- What a call returns, with what it stores for the caller. -/
inductive Result where
  | value (rv : Int) (val : Option Bytes)
  | status (rv : Int)
  | number (rv : Int) (newval : Option Int)
  deriving DecidableEq, Repr

namespace Call

def op : Call → Operation
  | .get key _ => .get key
  | .set key val => .set key val
  | .del key => .del key
  | .cas key oldval newval => .cas key oldval newval
  | .incr key increment => .incr key increment

def request : Call → Request
  | .get key _ => .get key
  | .set key val => .set key val
  | .del key => .del key
  | .cas key oldval newval => .cas key oldval newval
  | .incr key increment => .incr key increment

def run (t : Transport) (io : Io) (flags : Nat) : Call → Except Fault Result
  | .get key vsize => (fun x => .value x.1 x.2) <$> doGet (some t) io key vsize flags
  | .set key val => .status <$> doSet (some t) io key val flags
  | .del key => .status <$> doDel (some t) io key flags
  | .cas key oldval newval => .status <$> doCas (some t) io key oldval newval flags
  | .incr key increment => (fun x => .number x.1 x.2) <$> doIncr (some t) io key increment flags

/-- What libnmdb(3) says of a call, by the value of its key. -/
def documented (sync : Bool) : Call → Option Bytes → Result
  | .get _ _, none => .value (-1) none
  | .get _ vsize, some v => if v.length ≤ vsize then .value v.length (some v) else .value (-2) none
  | .set _ _, _ => .status 1
  | .del _, o => .status (if sync && o.isNone then 0 else 1)
  | .cas _ _ _, none => .status 0
  | .cas _ oldval _, some v => .status (if v = oldval then 2 else 1)
  | .incr _ _, none => .number 0 none
  | .incr _ increment, some v =>
    if v.getLast? = some 0 then .number 2 (some (strtoll v + increment)) else .number 1 none

/-- The result on a server that refuses writes. -/
def refused : Call → Result
  | .get _ _ => .value (-2) none
  | .set _ _ => .status (-1)
  | .del _ => .status (-1)
  | .cas _ _ _ => .status (-1)
  | .incr _ _ => .number (-1) none

/-- The request information the server has for a call. -/
def info (n flags : Nat) (c : Call) : ReqInfo Nat := ⟨n, htonl ID_CODE, c.op.code.code, c.op.admitted flags⟩

theorem request_op (c : Call) : c.op.request = some c.request := by
  cases c <;> rfl

/-- The call of a server in a state where the map is m. -/
def result (readOnly : Bool) (flags : Nat) (c : Call) (m : KV) : Result :=
  if readOnly && c.request.writes then c.refused
  else c.documented (c.info 0 flags).sync (m c.request.key)

end Call

section

variable {c : Call} {flags : Nat} {t : Transport} {io : Io}

theorem message_decoded {op : Operation} {r : Request} {buf : Mem} (asked : op.request = some r)
    (legal : op.Legal) (short : op.payload.length < 2 ^ 32)
    (held : slice buf 0 (op.message flags).length = op.message flags) :
    decoded buf (op.message flags).length = some r ∧ ∀ n,
      headerInfo (⟨n, 0, 0, 0⟩ : ReqInfo Nat) buf = ⟨n, htonl ID_CODE, op.code.code, op.admitted flags⟩ := by
  obtain ⟨ver, id, cmd, bits, rest⟩ := header_read held (code_lt op.code) (admitted_lt op flags)
  constructor
  · rw [decoded, if_pos ⟨ver, by rw [message_length]; omega⟩, cmd, Req.ofCode_code, Option.bind_some,
      message_length, Nat.add_sub_cancel_left, rest, declared_payload asked legal short]
  · intro n
    rw [headerInfo, id, cmd, bits]

/-- The replies that give an answer. -/
def replyOf : Nmdb.Answer → Reply → Prop
  | .value v, r => r = .long .cacheHit v ∨ r = .long .ok v
  | .done, r => r = .mini .ok
  | .absent, r => r = .mini .notin
  | .differs, r => r = .mini .nomatch
  | .refused, r => r = .err .ro

theorem answer_reply {r : Reply} {a : Nmdb.Answer} (same : r.answer = some a) : replyOf a r := by
  unfold Reply.answer at same
  split at same
  all_goals first | contradiction | cases same
  · rfl
  · rfl
  · rfl
  · exact .inl rfl
  · exact .inr rfl
  · rfl

theorem short_mini (rep : Rep) : ShortReply (.mini rep) := by
  intro rep' v same
  contradiction

theorem short_err (e : Err) : ShortReply (.err e) := by
  intro rep v same
  contradiction

theorem short_long {rep : Rep} {v : Bytes} (size : v.length ≤ maxSize) : ShortReply (.long rep v) := by
  intro rep' v' same
  cases same
  exact size

section

variable {n : Nat} {r : Reply} {m : KV}

theorem run_refused (malloc : io.malloc = true) (sent : io.sent = true)
    (fits : t.idOffset + (c.op.message flags).length ≤ SBSIZE)
    (delivered : Delivered t (t.packet (c.info n flags) (.err .ro)) io.socket) (writes : c.request.writes = true) :
    c.run t io flags = .ok c.refused := by
  have short := short_err .ro
  have asks : c.op ≠ .stats := by cases c <;> simp [Call.op]
  cases c with
  | get key vsize => contradiction
  | set key val =>
    have back := doSet_reply malloc sent rfl short delivered fits (.error asks .ro)
    rw [Call.run, back]
    rfl
  | del key =>
    have back := doDel_reply malloc sent rfl short delivered fits (.error asks .ro)
    rw [Call.run, back]
    rfl
  | cas key oldval newval =>
    have back := doCas_reply malloc sent rfl short delivered fits (.error asks .ro)
    rw [Call.run, back]
    rfl
  | incr key increment =>
    have back := doIncr_reply malloc sent rfl short delivered fits (.error asks .ro)
    rw [Call.run, back]
    rfl

theorem get_answered {key : Bytes} {vsize : Nat} (malloc : io.malloc = true) (sent : io.sent = true)
    (fits : t.idOffset + ((Operation.get key).message flags).length ≤ SBSIZE)
    (delivered : Delivered t (t.packet (Call.info n flags (.get key vsize)) r) io.socket) {o : Option Bytes}
    (size : ∀ v, o = some v → v.length ≤ maxSize) {sync : Bool}
    (same : replyOf (Request.perform sync (.get key) o).2 r) :
    Call.run t io flags (.get key vsize) = .ok (Call.documented sync (.get key vsize) o) := by
  have back := fun short chosen => doGet_reply malloc sent rfl short delivered fits chosen vsize
  rw [Call.run]
  cases o with
  | none =>
    obtain rfl : r = .mini .notin := same
    rw [back (short_mini _) (.getNotin key)]
    rfl
  | some v =>
    have short : ∀ rep : Rep, ShortReply (.long rep v) := fun rep => short_long (size v rfl)
    have value : Call.documented sync (.get key vsize) (some v) =
        .value (valueResult vsize (.long .ok v)).1 (valueResult vsize (.long .ok v)).2 := by
      rw [Call.documented, valueResult]
      split <;> rfl
    rw [value]
    rcases (show r = .long .cacheHit v ∨ r = .long .ok v from same) with rfl | rfl
    · rw [back (short _) (.cacheHit key v)]
      rfl
    · rw [back (short _) (.getOk key v)]
      rfl

theorem set_answered {key val : Bytes} (malloc : io.malloc = true) (sent : io.sent = true)
    (fits : t.idOffset + ((Operation.set key val).message flags).length ≤ SBSIZE)
    (delivered : Delivered t (t.packet (Call.info n flags (.set key val)) r) io.socket) {o : Option Bytes}
    {sync : Bool} (same : replyOf (Request.perform sync (.set key val) o).2 r) :
    Call.run t io flags (.set key val) = .ok (Call.documented sync (.set key val) o) := by
  obtain rfl : r = .mini .ok := same
  rw [Call.run, doSet_reply malloc sent rfl (short_mini _) delivered fits (.setOk key val)]
  rfl

theorem del_answered {key : Bytes} (malloc : io.malloc = true) (sent : io.sent = true)
    (fits : t.idOffset + ((Operation.del key).message flags).length ≤ SBSIZE)
    (delivered : Delivered t (t.packet (Call.info n flags (.del key)) r) io.socket) {o : Option Bytes}
    {sync : Bool} (same : replyOf (Request.perform sync (.del key) o).2 r) :
    Call.run t io flags (.del key) = .ok (Call.documented sync (.del key) o) := by
  have back := fun short chosen => doDel_reply malloc sent rfl short delivered fits chosen
  rw [Call.run, Call.documented]
  simp only [Request.perform] at same
  split at same
  case isTrue gone =>
    obtain rfl : r = .mini .notin := same
    rw [back (short_mini _) (.delNotin key), if_pos gone]
    rfl
  case isFalse held =>
    obtain rfl : r = .mini .ok := same
    rw [back (short_mini _) (.delOk key), if_neg held]
    rfl

theorem cas_answered {key oldval newval : Bytes} (malloc : io.malloc = true) (sent : io.sent = true)
    (fits : t.idOffset + ((Operation.cas key oldval newval).message flags).length ≤ SBSIZE)
    (delivered : Delivered t (t.packet (Call.info n flags (.cas key oldval newval)) r) io.socket)
    {o : Option Bytes} {sync : Bool} (same : replyOf (Request.perform sync (.cas key oldval newval) o).2 r) :
    Call.run t io flags (.cas key oldval newval) = .ok (Call.documented sync (.cas key oldval newval) o) := by
  have back := fun short chosen => doCas_reply malloc sent rfl short delivered fits chosen
  rw [Call.run]
  cases o with
  | none =>
    obtain rfl : r = .mini .notin := same
    rw [back (short_mini _) (.casNotin key oldval newval)]
    rfl
  | some v =>
    rw [Call.documented]
    simp only [Request.perform] at same
    split at same
    case isTrue held =>
      obtain rfl : r = .mini .ok := same
      rw [back (short_mini _) (.casOk key oldval newval), if_pos held]
      rfl
    case isFalse other =>
      obtain rfl : r = .mini .nomatch := same
      rw [back (short_mini _) (.casNomatch key oldval newval), if_neg other]
      rfl

theorem incr_answered {key : Bytes} {increment : Int} (malloc : io.malloc = true) (sent : io.sent = true)
    (fits : t.idOffset + ((Operation.incr key increment).message flags).length ≤ SBSIZE)
    (delivered : Delivered t (t.packet (Call.info n flags (.incr key increment)) r) io.socket)
    {o : Option Bytes} {sync : Bool}
    (sum : ∀ v, o = some v → v.getLast? = some 0 → InInt64 (strtoll v + increment))
    (computed : ∀ v, r ≠ .long .cacheHit v) (same : replyOf (Request.perform sync (.incr key increment) o).2 r) :
    Call.run t io flags (.incr key increment) = .ok (Call.documented sync (.incr key increment) o) := by
  have back := fun short chosen => doIncr_reply malloc sent rfl short delivered fits chosen
  rw [Call.run]
  cases o with
  | none =>
    obtain rfl : r = .mini .notin := same
    rw [back (short_mini _) (.incrNotin key increment)]
    rfl
  | some v =>
    rw [Call.documented]
    simp only [Request.perform] at same
    split at same
    case isTrue number =>
      have inRange := sum v rfl number
      have short : (bytes64 (htonll (ofInt64 (strtoll v + increment)))).length ≤ maxSize := by
        rw [bytes64_length]
        decide
      rcases (show r = .long .cacheHit _ ∨ r = .long .ok _ from same) with rfl | rfl
      · exact absurd rfl (computed _)
      · rw [back (short_long short) (.incrOk key increment inRange), incrResult_number inRange, if_pos number]
        rfl
    case isFalse text =>
      obtain rfl : r = .mini .nomatch := same
      rw [back (short_mini _) (.incrNomatch key increment), if_neg text]
      rfl

/-- A call gets the documented result from a reply with the map's answer. -/
theorem run_returns (malloc : io.malloc = true) (sent : io.sent = true)
    (fits : t.idOffset + (c.op.message flags).length ≤ SBSIZE)
    (delivered : Delivered t (t.packet (c.info n flags) r) io.socket)
    (size : ∀ v, m c.request.key = some v → v.length ≤ maxSize) (defined : IncrDefined m c.request)
    (computed : c.op.code = .incr → ∀ v, r ≠ .long .cacheHit v)
    (same : r.answer = some (c.request.perform (c.info n flags).sync (m c.request.key)).2) :
    c.run t io flags = .ok (c.documented (c.info n flags).sync (m c.request.key)) := by
  cases c with
  | get key vsize => exact get_answered malloc sent fits delivered size (answer_reply same)
  | set key val => exact set_answered malloc sent fits delivered (answer_reply same)
  | del key => exact del_answered malloc sent fits delivered (answer_reply same)
  | cas key oldval newval => exact cas_answered malloc sent fits delivered (answer_reply same)
  | incr key increment =>
    exact incr_answered malloc sent fits delivered (fun v held => (defined v held).2) (computed rfl)
      (answer_reply same)

end

end

/- Which answer of the map belongs to a request. -/

theorem atomicStep_own {readOnly : Bool} {m : KV} {req req' : ReqInfo Nat} {r : Request} {a : Nmdb.Answer}
    (given : (req', a) ∈ (atomicStep readOnly m req r).2) : req' = req := by
  unfold atomicStep at given
  split at given
  · contradiction
  · split at given
    · exact congrArg Prod.fst (List.mem_singleton.mp given)
    · exact congrArg Prod.fst (List.mem_singleton.mp given)

theorem answers_requested {readOnly : Bool} {m : KV} {xs : List (ReqInfo Nat × Request)} {req : ReqInfo Nat}
    {a : Nmdb.Answer} (given : (req, a) ∈ (atomicRun readOnly m xs).2) : ∃ r, (req, r) ∈ xs := by
  induction xs generalizing m with
  | nil => contradiction
  | cons x xs ih =>
    obtain ⟨req', r⟩ := x
    rcases List.mem_append.mp given with here | later
    · obtain rfl := atomicStep_own here
      exact ⟨r, List.mem_cons_self⟩
    · obtain ⟨r', member⟩ := ih later
      exact ⟨r', List.mem_cons_of_mem _ member⟩

theorem requests_net {n : Nat} {evs : List Event} {req : ReqInfo Nat} {r : Request}
    (member : (req, r) ∈ requests n evs) : n ≤ req.net ∧ req.net < n + (messages evs).length := by
  induction evs generalizing n with
  | nil => contradiction
  | cons ev rest ih =>
    cases ev with
    | message buf len =>
      simp only [messages, List.length_cons]
      rcases List.mem_append.mp member with here | later
      · obtain ⟨r', _, same⟩ := Option.map_eq_some_iff.mp (Option.mem_toList.mp here)
        obtain ⟨rfl, rfl⟩ := Prod.mk.inj same
        have net : (headerInfo (⟨n, 0, 0, 0⟩ : ReqInfo Nat) buf).net = n := rfl
        omega
      · have bounds := ih later
        omega
    | dequeue => exact ih member
    | execute => exact ih member

/-- The answer under a request's number is the one given at its place. -/
theorem answer_at_place {readOnly : Bool} {m : KV} {before after : List Event} {buf : Mem} {len : Nat}
    {r : Request} (found : decoded buf len = some r) {req : ReqInfo Nat} {a : Nmdb.Answer}
    (given : (req, a) ∈ (atomicRun readOnly m (requests 0 (before ++ .message buf len :: after))).2)
    (number : req.net = (messages before).length) :
    (req, a) ∈ (atomicStep readOnly (atomicRun readOnly m (requests 0 before)).1
      (headerInfo ⟨(messages before).length, 0, 0, 0⟩ buf) r).2 := by
  rw [requests_append, requests_message found, atomicRun_append] at given
  rcases List.mem_append.mp given with earlier | rest
  · obtain ⟨_, member⟩ := answers_requested earlier
    have bounds := requests_net member
    omega
  · rw [Nat.zero_add] at rest
    rcases List.mem_append.mp rest with here | later
    · exact here
    · obtain ⟨_, member⟩ := answers_requested later
      have bounds := requests_net member
      omega

/- What a run of the server keeps to. -/

section

variable {δ : Type} {db : DbConn δ} {s t : System δ} {evs : List Event}

/-- Of the requests that concern the database only a GET is answered from the cache. -/
def HitsAreGets (s : System δ) : Prop :=
  ∀ req v, (req, .long .cacheHit v) ∈ s.server.replies → req.cacheOnly = false → req.cmd = Req.get.code

theorem HitsAreGets.message {buf : Mem} {len : Nat} (hits : HitsAreGets s) (listed : s.server.cache.Listed)
    (inMode : (Event.message buf len).InMode) (taken : s.step db (.message buf len) = .ok t) :
    HitsAreGets t := by
  obtain ⟨r, found, _, outcome, _⟩ := System.step_message taken inMode listed
  intro req v member toDb
  obtain ⟨e, reply, served, _, replies⟩ := outcome.served
  rw [replies] at member
  rcases List.mem_append.mp member with before | here
  · exact hits req v before toDb
  · obtain ⟨x, given, same⟩ := Option.map_eq_some_iff.mp (Option.mem_toList.mp here)
    obtain ⟨rfl, rfl⟩ := Prod.mk.inj same
    cases served with
    | getHit => exact decoded_operation found (headerInfo ⟨s.parsed, 0, 0, 0⟩ buf)
    | cacheDel only => exact absurd (only.symm.trans toDb) (by decide)
    | set | del =>
      split at given
      · cases given
      · cases given
    | _ => cases given

theorem processOp_computes {ν : Type} {ok : Bool} {d d' : δ} {e : QueueEntry ν} {r : Option Reply}
    (done : processOp db ok d e = .ok (d', r)) (v : Bytes) : r ≠ some (.long .cacheHit v) := by
  intro hit
  cases processOp_way done with
  | @firstkey _ k | @nextkey _ k =>
    cases k with
    | none => cases hit
    | some k => cases hit
  | _ => cases hit

theorem HitsAreGets.execute (hits : HitsAreGets s) (taken : s.step db .execute = .ok t) : HitsAreGets t := by
  rcases System.step_execute taken with ⟨_, rfl⟩ | ⟨e, d, r, _, done, rfl⟩
  · exact hits
  · intro req v member toDb
    rcases List.mem_append.mp member with before | now
    · exact hits req v before toDb
    · obtain ⟨reply, responds, same⟩ := Option.map_eq_some_iff.mp (Option.mem_toList.mp now)
      obtain ⟨rfl, rfl⟩ := Prod.mk.inj same
      exact absurd responds (processOp_computes done v)

theorem served_own {ν : Type} {readOnly : Bool} {req : ReqInfo ν} {before after : KV} {r : Request}
    {e : Option (QueueEntry ν)} {reply : Option Reply} (served : Served readOnly req before after r e reply)
    {x : QueueEntry ν} (queued : e = some x) : x.req = req := by
  cases served with
  | readOnly | getHit | cacheMiss | cacheDel | casOther | incrOther => contradiction
  | _ =>
    cases queued
    rfl

/-- Replies, given or owed, belong to requests that were parsed. -/
structure Traced (seen : List (ReqInfo Nat × Request)) (s : System δ) : Prop where
  listed : s.server.cache.Listed
  hits : HitsAreGets s
  replies : ∀ req r, (req, r) ∈ s.server.replies → ∃ x, (req, x) ∈ seen
  pending : ∀ e ∈ s.pending, ∃ x, (e.req, x) ∈ seen

variable {seen : List (ReqInfo Nat × Request)}

theorem Traced.message {buf : Mem} {len : Nat} (traced : Traced seen s)
    (inMode : (Event.message buf len).InMode) (taken : s.step db (.message buf len) = .ok t) :
    Traced (seen ++ requests s.parsed [.message buf len]) t := by
  obtain ⟨r, found, _, outcome, _, hand, _⟩ := System.step_message taken inMode traced.listed
  obtain ⟨e, reply, served, queue, replies⟩ := outcome.served
  have here : (headerInfo ⟨s.parsed, 0, 0, 0⟩ buf, r) ∈ seen ++ requests s.parsed [.message buf len] := by
    rw [requests_message found]
    exact List.mem_append_right seen List.mem_cons_self
  constructor
  case listed => exact outcome.listed
  case hits => exact traced.hits.message traced.listed inMode taken
  case replies =>
    intro req x member
    rw [replies] at member
    rcases List.mem_append.mp member with before | now
    · obtain ⟨r', asked⟩ := traced.replies req x before
      exact ⟨r', List.mem_append_left _ asked⟩
    · obtain ⟨_, _, same⟩ := Option.map_eq_some_iff.mp (Option.mem_toList.mp now)
      obtain ⟨rfl, _⟩ := Prod.mk.inj same
      exact ⟨r, here⟩
  case pending =>
    intro x waiting
    have pending : t.pending = s.pending ++ e.toList := by
      simp only [System.pending, hand, queue, List.append_assoc]
    rw [pending] at waiting
    rcases List.mem_append.mp waiting with old | new
    · obtain ⟨r', asked⟩ := traced.pending x old
      exact ⟨r', List.mem_append_left _ asked⟩
    · have own : x.req = headerInfo ⟨s.parsed, 0, 0, 0⟩ buf := served_own served (Option.mem_toList.mp new)
      exact ⟨r, own ▸ here⟩

theorem Traced.dequeue (traced : Traced seen s) (taken : s.step db .dequeue = .ok t) : Traced seen t := by
  obtain ⟨pending, _, cache, _, replies, _⟩ := System.step_dequeue taken
  constructor
  case listed => exact cache ▸ traced.listed
  case hits =>
    intro req v member
    exact traced.hits req v (replies ▸ member)
  case replies =>
    intro req r member
    exact traced.replies req r (replies ▸ member)
  case pending =>
    rw [pending]
    exact traced.pending

theorem Traced.execute (traced : Traced seen s) (taken : s.step db .execute = .ok t) : Traced seen t := by
  have hits := traced.hits.execute taken
  rcases System.step_execute taken with ⟨_, rfl⟩ | ⟨e, d, r, busy, _, rfl⟩
  · exact traced
  · have pending : s.pending = e :: s.server.queue := by
      rw [System.pending, busy]
      rfl
    have asked := traced.pending
    rw [pending] at asked
    constructor
    case listed => exact traced.listed
    case hits => exact hits
    case replies =>
      intro req x member
      rcases List.mem_append.mp member with before | now
      · exact traced.replies req x before
      · obtain ⟨_, _, same⟩ := Option.map_eq_some_iff.mp (Option.mem_toList.mp now)
        obtain ⟨rfl, _⟩ := Prod.mk.inj same
        exact asked e List.mem_cons_self
    case pending => exact fun x waiting => asked x (List.mem_cons_of_mem e waiting)

theorem Traced.run (evs : List Event) {s : System δ} {seen : List (ReqInfo Nat × Request)}
    (traced : Traced seen s) (inMode : ∀ ev ∈ evs, ev.InMode)
    (ran : Runs.run (System.step db) s evs = .ok t) : Traced (seen ++ requests s.parsed evs) t := by
  induction evs generalizing s seen with
  | nil =>
    cases ran
    rw [requests, List.append_nil]
    exact traced
  | cons ev rest ih =>
    obtain ⟨u, taken, later⟩ := Runs.run_cons_inv ran
    have mode := inMode ev List.mem_cons_self
    have modes : ∀ ev' ∈ rest, ev'.InMode := fun ev' hev => inMode ev' (List.mem_cons_of_mem ev hev)
    cases ev with
    | message buf len =>
      have one : Runs.run (System.step db) s [.message buf len] = .ok u := (Runs.run_cons_ok taken).trans rfl
      have parsed : u.parsed = s.parsed + 1 := run_parsed one
      have after := ih (traced.message mode taken) modes later
      have parts := requests_append s.parsed [.message buf len] rest
      rw [parsed, List.append_assoc] at after
      exact parts ▸ after
    | dequeue =>
      obtain ⟨_, _, _, _, _, parsed⟩ := System.step_dequeue taken
      have after := ih (traced.dequeue taken) modes later
      rw [parsed] at after
      exact after
    | execute =>
      have one : Runs.run (System.step db) s [.execute] = .ok u := (Runs.run_cons_ok taken).trans rfl
      have parsed : u.parsed = s.parsed := run_parsed one
      have after := ih (traced.execute taken) modes later
      rw [parsed] at after
      exact after

end

section

variable {c : Call} {flags : Nat} {t : Transport} {fresh : Mem}

/-- A call's packet where the server looks for the message. -/
theorem call_arrived {packet : Bytes} {buf : Mem} (legal : c.op.Legal)
    (fits : t.idOffset + (c.op.message flags).length ≤ SBSIZE) (wire : c.op.wire t flags fresh = .ok (some packet))
    (arrived : slice buf 0 packet.length = packet) :
    decoded (buf.from t.idOffset) (packet.length - t.idOffset) = some c.request ∧
      ∀ n, headerInfo (⟨n, 0, 0, 0⟩ : ReqInfo Nat) (buf.from t.idOffset) = c.info n flags := by
  have short : c.op.payload.length < 2 ^ 32 := by
    have long := message_length c.op flags
    simp only [SBSIZE] at fits
    omega
  rw [wire_eq c.op t flags fresh fits] at wire
  obtain rfl := Option.some.inj (Except.ok.inj wire)
  have body : slice (buf.from t.idOffset) 0 (c.op.message flags).length = c.op.message flags := by
    rw [List.length_append, t.lengthPrefix_length, Wire.slice_append] at arrived
    obtain ⟨_, rest⟩ := List.append_inj arrived (by rw [slice_length, t.lengthPrefix_length])
    rw [slice_from, ← Nat.zero_add t.idOffset]
    exact rest
  rw [List.length_append, t.lengthPrefix_length, Nat.add_sub_cancel_left]
  exact message_decoded (Call.request_op c) legal short body

theorem call_inMode {buf : Mem} {len : Nat} (legal : c.op.Legal) (found : decoded buf len = some c.request)
    (info : ∀ n, headerInfo (⟨n, 0, 0, 0⟩ : ReqInfo Nat) buf = c.info n flags)
    (toDb : (c.info 0 flags).cacheOnly = false) : (Event.message buf len).InMode := by
  refine ⟨c.request, found, legal.1 c.request (Call.request_op c), ?_⟩
  rw [info 0]
  cases c with
  | get key vsize => trivial
  | del key => trivial
  | _ => exact toDb

/-- The call of a server whose map is m gets the documented result from the map's answer. -/
theorem run_result {n : Nat} {r : Reply} {m : KV} {readOnly : Bool} {a : Nmdb.Answer} {io : Io}
    (malloc : io.malloc = true) (sent : io.sent = true)
    (fits : t.idOffset + (c.op.message flags).length ≤ SBSIZE)
    (delivered : Delivered t (t.packet (c.info n flags) r) io.socket)
    (toDb : (c.info n flags).cacheOnly = false) (size : ∀ v, m c.request.key = some v → v.length ≤ maxSize)
    (defined : IncrDefined m c.request) (computed : c.op.code = .incr → ∀ v, r ≠ .long .cacheHit v)
    (given : (c.info n flags, a) ∈ (atomicStep readOnly m (c.info n flags) c.request).2)
    (same : r.answer = some a) : c.run t io flags = .ok (c.result readOnly flags m) := by
  unfold atomicStep at given
  rw [toDb, if_neg Bool.false_ne_true] at given
  unfold Call.result
  split at given
  case isTrue refuses =>
    obtain rfl := (Prod.mk.inj (List.mem_singleton.mp given)).2
    obtain rfl : r = .err .ro := answer_reply same
    rw [if_pos refuses]
    exact run_refused malloc sent fits delivered ((Bool.and_eq_true ..).mp refuses).2
  case isFalse may =>
    obtain rfl := (Prod.mk.inj (List.mem_singleton.mp given)).2
    rw [if_neg may]
    exact run_returns (n := n) malloc sent fits delivered size defined computed same

/-- The request under the number of a message is the one in it. -/
theorem request_at_place {before after : List Event} {buf : Mem} {len : Nat} {r r' : Request}
    (found : decoded buf len = some r) {req : ReqInfo Nat}
    (member : (req, r') ∈ requests 0 (before ++ .message buf len :: after))
    (number : req.net = (messages before).length) :
    req = headerInfo ⟨(messages before).length, 0, 0, 0⟩ buf := by
  rw [requests_append, requests_message found, Nat.zero_add] at member
  rcases List.mem_append.mp member with earlier | rest
  · have bounds := requests_net earlier
    omega
  · rcases List.mem_cons.mp rest with here | later
    · exact (Prod.mk.inj here).1
    · have bounds := requests_net later
      omega

end

section

variable {δ : Type} {db : DbConn δ} {view : δ → KV} {s₀ s : System δ} {m : KV} {before after : List Event} {buf : Mem}
  {len : Nat} {r : Request}

/-- The map that a message finds in a run holds no value that is too large for a reply, and
defines the increment the message asks for. -/
theorem message_finds (backend : MapBackend db view) (accepts : ∀ d k v, (db.set d k v).1 = true)
    (initial : s₀.Linear view m []) (parsed : s₀.parsed = 0) (found : decoded buf len = some r)
    (earlier : ∀ ev ∈ before, ev.InMode)
    (defined : NumbersDefined s₀.server.settings.readOnly m (requests 0 (before ++ .message buf len :: after)))
    (ran : Runs.run (System.step db) s₀ (before ++ .message buf len :: after) = .ok s) :
    (∀ k v, (atomicRun s₀.server.settings.readOnly m (requests 0 before)).1 k = some v → v.length ≤ maxSize) ∧
      IncrDefined (atomicRun s₀.server.settings.readOnly m (requests 0 before)).1 r := by
  obtain ⟨u, reached, _⟩ := Runs.run_append_inv ran
  rw [requests_append, requests_message found] at defined
  obtain ⟨first, here, _⟩ := numbersDefined_append.mp defined
  rw [← parsed] at first
  have halfway := (initial.run backend accepts before earlier first).2 u reached
  rw [parsed] at halfway
  refine ⟨fun k v held => ?_, here⟩
  have small := drained_fits halfway.fits halfway.room k
  rw [halfway.map] at small
  exact Nat.not_lt.mp fun large => small ⟨v, held, large⟩

/-- The reply under the number of a call's message makes the call return what is documented
for the map it found. -/
theorem reply_returns {c : Call} {t : Transport} {flags : Nat} {readOnly : Bool}
    (fits : t.idOffset + (c.op.message flags).length ≤ SBSIZE) (toDb : (c.info 0 flags).cacheOnly = false)
    (found : decoded buf len = some c.request)
    (info : ∀ n, headerInfo (⟨n, 0, 0, 0⟩ : ReqInfo Nat) buf = c.info n flags)
    (traced : Traced (requests 0 (before ++ .message buf len :: after)) s)
    (replied : Replied (atomicRun readOnly m (requests 0 (before ++ .message buf len :: after))).2 s.server.replies)
    (size : ∀ k v, (atomicRun readOnly m (requests 0 before)).1 k = some v → v.length ≤ maxSize)
    (defined : IncrDefined (atomicRun readOnly m (requests 0 before)).1 c.request) {req : ReqInfo Nat} {x : Reply}
    (member : (req, x) ∈ s.server.replies) (number : req.net = (messages before).length) {io : Io}
    (malloc : io.malloc = true) (sent : io.sent = true) (delivered : Delivered t (t.packet req x) io.socket) :
    c.run t io flags = .ok (c.result readOnly flags (atomicRun readOnly m (requests 0 before)).1) := by
  obtain ⟨_, asked⟩ := traced.replies req x member
  obtain rfl : req = c.info (messages before).length flags :=
    (request_at_place found asked number).trans (info _)
  obtain ⟨a, given, same⟩ := replied _ x member toDb
  have at_place := answer_at_place found given rfl
  rw [info] at at_place
  have computed : c.op.code = .incr → ∀ v, x ≠ .long .cacheHit v := by
    rintro incr v rfl
    have get : c.op.code.code = Req.get.code := traced.hits _ v member toDb
    rw [incr] at get
    contradiction
  exact run_result malloc sent fits delivered toDb (fun v held => size _ v held) defined computed at_place same

theorem start_traced {cdOk tableOk : Bool} {numobjs flags : Nat} {cd : Cache}
    (created : cacheCreate cdOk tableOk numobjs flags = some cd) (settings : Settings) (d : δ) :
    Traced [] (System.start cd settings d) := by
  have behind : (System.start cd settings d).Behind fun _ _ => none := System.start_behind created settings d
  exact ⟨behind.listed, fun _ _ none => by contradiction, fun _ _ none => by contradiction,
    fun _ none => by contradiction⟩

end

theorem fits_buffer {t : Transport} {n : Nat} (fits : t.idOffset + n ≤ longest t) : t.idOffset + n ≤ SBSIZE := by
  cases t <;> simp only [longest, maxPacket, SBSIZE] at fits ⊢ <;> omega

/-- A call sent to a server in the middle of any run: once nothing is pending a reply has
been given, and whichever is given and delivered, now or later, the call returns what is
documented for the map that took the requests before it, each at once. -/
theorem calls_see_one_map {δ : Type} {db : DbConn δ} {view : δ → KV} (backend : MapBackend db view)
    (accepts : ∀ d k v, (db.set d k v).1 = true) {cdOk tableOk : Bool} {numobjs cflags : Nat} {cd : Cache}
    (created : cacheCreate cdOk tableOk numobjs cflags = some cd) (settings : Settings) {d : δ}
    (bounded : ∀ k v, view d k = some v → v.length ≤ 65536) {c : Call} {t : Transport} {flags : Nat}
    (legal : c.op.Legal) (fits : t.idOffset + (c.op.message flags).length ≤ longest t)
    (toDb : (c.info 0 flags).cacheOnly = false) {packet : Bytes} {fresh : Mem}
    (wire : c.op.wire t flags fresh = .ok (some packet)) {buf : Mem}
    (arrived : slice buf 0 packet.length = packet) {before after : List Event}
    (earlier : ∀ ev ∈ before, ev.InMode) (later : ∀ ev ∈ after, ev.InMode)
    (defined : NumbersDefined settings.readOnly (view d)
      (requests 0 (before ++ .message (buf.from t.idOffset) (packet.length - t.idOffset) :: after)))
    {s : System δ} (ran : Runs.run (System.step db) (System.start cd settings d)
      (before ++ .message (buf.from t.idOffset) (packet.length - t.idOffset) :: after) = .ok s) :
    (s.pending = [] → ∃ req r, (req, r) ∈ s.server.replies ∧ req.net = (messages before).length) ∧
    ∀ req r, (req, r) ∈ s.server.replies → req.net = (messages before).length →
      ∀ io : Io, io.malloc = true → io.sent = true → Delivered t (t.packet req r) io.socket →
      c.run t io flags =
        .ok (c.result settings.readOnly flags (atomicRun settings.readOnly (view d) (requests 0 before)).1) := by
  have room := fits_buffer fits
  obtain ⟨found, info⟩ := call_arrived legal room wire arrived
  have inMode : ∀ ev ∈ before ++ .message (buf.from t.idOffset) (packet.length - t.idOffset) :: after,
      ev.InMode := by
    intro ev member
    rcases List.mem_append.mp member with front | rest
    · exact earlier ev front
    · rcases List.mem_cons.mp rest with rfl | back
      · exact call_inMode legal found info toDb
      · exact later ev back
  have initial := System.start_linear created settings bounded
  have final := (initial.run backend accepts _ inMode defined).2 s ran
  have traced := (start_traced created settings d).run _ inMode ran
  obtain ⟨size, incr⟩ := message_finds backend accepts initial rfl found earlier defined ran
  constructor
  · intro settled
    have one : s.OneReply := run_oneReply (fun n => rfl) ran
    apply settled_replied one settled
    have parsed := run_parsed ran
    rw [messages_append, List.length_append] at parsed
    simp only [messages, List.length_cons] at parsed
    omega
  · intro req r member number io malloc sent delivered
    exact reply_returns room toDb found info traced final.replied size incr member number malloc sent delivered

theorem ofBytes_held (p : Bytes) : slice (Mem.ofBytes p) 0 p.length = p := by
  have whole := Wire.slice_ofBytes [] p []
  rw [List.nil_append, List.append_nil] at whole
  exact whole

/-- A get over TCP behind the SET of 5 and the INCR by 2, which are executed first. -/
theorem calls_see_one_map_get : ∃ packet s, (Operation.get [65]).wire .tcp 0 (fun _ => 0) = .ok (some packet) ∧
    Runs.run (System.step mapDb) (System.start emptyCache ⟨false⟩ fun _ => none)
      (setAndIncrement ++ [.message ((Mem.ofBytes packet).from 4) (packet.length - 4), .dequeue, .execute]) = .ok s ∧
    ∀ req r, (req, r) ∈ s.server.replies → req.net = 2 →
      ∀ io : Io, io.malloc = true → io.sent = true → Delivered .tcp (Transport.tcp.packet req r) io.socket →
      (Call.get [65] 64).run .tcp io 0 = .ok (.value 24 (some (List.replicate 22 32 ++ [55, 0]))) := by
  have empty : ∀ k v, id (fun _ => none : KV) k = some v → v.length ≤ 65536 := by
    intro k v held
    contradiction
  have initial : (System.start emptyCache ⟨false⟩ fun _ => none).Linear id (fun _ => none) [] :=
    System.start_linear emptyCache_created ⟨false⟩ empty
  have legal : (Call.get [65] 64).op.Legal := by
    constructor
    · rintro r ⟨⟩
      decide
    · intro key increment same
      contradiction
  have later : ∀ ev ∈ [Event.dequeue, .execute], ev.InMode := by
    intro ev member
    simp only [List.mem_cons, List.not_mem_nil, or_false] at member
    rcases member with rfl | rfl
    · trivial
    · trivial
  have wire := wire_eq (Call.get [65] 64).op .tcp 0 (fun _ => 0) (by decide)
  obtain ⟨packet, sent⟩ : ∃ p, p = Transport.tcp.lengthPrefix ((Call.get [65] 64).op.message 0).length ++
    (Call.get [65] 64).op.message 0 := ⟨_, rfl⟩
  rw [← sent] at wire
  obtain ⟨found, info⟩ := call_arrived legal (by decide) wire (ofBytes_held packet)
  have inMode : ∀ ev ∈ setAndIncrement ++ .message ((Mem.ofBytes packet).from Transport.tcp.idOffset)
      (packet.length - Transport.tcp.idOffset) :: [.dequeue, .execute], ev.InMode := by
    intro ev member
    rcases List.mem_append.mp member with front | rest
    · exact setAndIncrement_inMode ev front
    · rcases List.mem_cons.mp rest with rfl | back
      · exact call_inMode legal found info rfl
      · exact later ev back
  have defined : NumbersDefined false (fun _ => none) (requests 0 (setAndIncrement ++
      .message ((Mem.ofBytes packet).from Transport.tcp.idOffset) (packet.length - Transport.tcp.idOffset) ::
        [.dequeue, .execute])) := by
    rw [requests_append, requests_message found]
    exact numbersDefined_append.mpr ⟨setAndIncrement_defined, trivial, trivial⟩
  obtain ⟨s, ran⟩ := (initial.run mapDb_backend (fun _ _ _ => rfl) _ inMode defined).1 (by decide)
  obtain ⟨_, answers⟩ := calls_see_one_map mapDb_backend (fun _ _ _ => rfl) emptyCache_created ⟨false⟩ empty
    legal (by decide) rfl wire (ofBytes_held packet) setAndIncrement_inMode later defined ran
  refine ⟨packet, s, wire, ran, fun req r member number io malloc allSent delivered => ?_⟩
  rw [answers req r member number io malloc allSent delivered, setAndIncrement_requests]
  decide

end Nmdb.Library
