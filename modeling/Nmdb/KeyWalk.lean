import Nmdb.LevelWrites
import Nmdb.LibraryRequests
import Nmdb.Lib.Fairness

/-! A walk through the keys. The client sends one FIRSTKEY, then a NEXTKEY with each key it is
given, while the database thread works off what was queued before and others look things up. -/
namespace Nmdb

open KeyOrder WriteBehind

variable {δ σ ι : Type}

/-- The messages of the client, with their lengths. -/
structure Walker where
  firstkey : Mem × Nat
  nextkey : Bytes → Mem × Nat

/-- The request that is due after some keys. -/
def dueRoute (returned : List Bytes) : Route :=
  match returned.getLast? with
  | none => .firstkey
  | some k => .request (.nextkey k)

/-- The server reads the messages as the requests they are. -/
structure Walker.Speaks (walker : Walker) (readOnly : Bool) : Prop where
  firstkey : route readOnly walker.firstkey.1 walker.firstkey.2 = .firstkey
  nextkey : ∀ k : Bytes, k.length ≤ maxSize →
    route readOnly (walker.nextkey k).1 (walker.nextkey k).2 = .request (.nextkey k)

/- A well formed message of the right sizes is routed to its request. -/
theorem route_decoded {readOnly : Bool} {buf : Mem} {len : Nat} {r : Request}
    (found : decoded buf len = some r) (size : r.size ≤ maxSize) (reads : r.writes = false) :
    route readOnly buf len = .request r := by
  unfold decoded at found
  split at found
  case isTrue header =>
    obtain ⟨c, code, dec⟩ := Option.bind_eq_some_iff.mp found
    by_cases fits : SizesFit c (buf.from 8) (len - 8)
    · rw [(declared_slice c (buf.from 8) (len - 8)).1 fits] at dec
      have psize : sizeSub len 8 = len - 8 := if_pos header.2
      have passed := sizes_accepted fits dec size
      rw [← psize] at passed
      simp only [route, header.1, ne_eq, not_true_eq_false, if_false, code, dec, if_neg passed, reads,
        Bool.and_false, Bool.false_eq_true]
    · rw [(declared_slice c (buf.from 8) (len - 8)).2 fits] at dec
      contradiction
  case isFalse => contradiction

open Library in
/-- A client that calls nmdb_firstkey() and nmdb_nextkey(). -/
def Walker.libnmdb : Walker where
  firstkey := (Mem.ofBytes (Operation.firstkey.message 0), (Operation.firstkey.message 0).length)
  nextkey k := (Mem.ofBytes ((Operation.nextkey k).message 0), ((Operation.nextkey k).message 0).length)

open Library in
theorem Walker.libnmdb_speaks (readOnly : Bool) : Walker.libnmdb.Speaks readOnly := by
  have held : ∀ b : Bytes, slice (Mem.ofBytes b) 0 b.length = b := by
    intro b
    have whole := Wire.slice_ofBytes [] b []
    rwa [List.append_nil, List.nil_append] at whole
  constructor
  · obtain ⟨ver, _, cmd, _⟩ := header_read (held (Operation.firstkey.message 0)) (code_lt _) (admitted_lt _ 0)
    have code : Req.ofCode (command (Mem.ofBytes (Operation.firstkey.message 0))) = some .firstkey := by
      rw [cmd]
      exact Req.ofCode_code .firstkey
    simp only [route, Walker.libnmdb, ver, ne_eq, not_true_eq_false, if_false, code, operands, if_true]
  · intro k short
    have asked : (Operation.nextkey k).request = some (.nextkey k) := rfl
    have size : (Operation.nextkey k).payload.length < 2 ^ 32 := by
      simp only [Operation.payload, List.length_append, bytes32_length]
      simp only [maxSize] at short
      omega
    have legal : (Operation.nextkey k).Legal :=
      ⟨fun r here => Option.some.inj here ▸ Nat.zero_le _, fun _ _ other => by contradiction⟩
    obtain ⟨ver, _, cmd, _, rest⟩ := header_read (held ((Operation.nextkey k).message 0))
      (code_lt _) (admitted_lt _ 0)
    have found : decoded (Mem.ofBytes ((Operation.nextkey k).message 0))
        ((Operation.nextkey k).message 0).length = some (.nextkey k) := by
      have code : Req.ofCode (command (Mem.ofBytes ((Operation.nextkey k).message 0))) = some .nextkey := by
        rw [cmd]
        exact Req.ofCode_code .nextkey
      rw [decoded, if_pos ⟨ver, by rw [message_length]; omega⟩, code, Option.bind_some, message_length,
        Nat.add_sub_cancel_left, rest]
      exact declared_payload asked legal size
    exact route_decoded found (Nat.zero_le _) rfl

inductive Walk.Phase where
  | ready
  | waiting (n : Nat)
  | ended
  | failed (r : Reply)

/-- The server and the client, who knows the number of the request it waits for. -/
structure Walk (δ : Type) where
  system : System δ
  returned : List Bytes
  phase : Walk.Phase

namespace Walk

/-- Whose turn it is: another client, the database thread, or the client that walks. -/
inductive Turn where
  | other (buf : Mem) (len : Nat)
  | dequeue
  | execute
  | client

def request (walker : Walker) (w : Walk δ) : Mem × Nat :=
  match w.returned.getLast? with
  | none => walker.firstkey
  | some k => walker.nextkey k

/-- REP_OK brings a key, REP_NOTIN ends the walk, and no other reply is expected. -/
def receive (w : Walk δ) : Reply → Walk δ
  | .long .ok k => { w with returned := w.returned ++ [k], phase := .ready }
  | .mini .notin => { w with phase := .ended }
  | r => { w with phase := .failed r }

def step (db : DbConn δ) (walker : Walker) (w : Walk δ) : Turn → Except Fault (Walk δ)
  | .other buf len => do
    let system ← w.system.step db (.message buf len)
    return { w with system := system }
  | .dequeue => do
    let system ← w.system.step db .dequeue
    return { w with system := system }
  | .execute => do
    let system ← w.system.step db .execute
    return { w with system := system }
  | .client =>
    match w.phase with
    | .ready => do
      let (buf, len) := w.request walker
      let system ← w.system.step db (.message buf len)
      return { w with system := system, phase := .waiting w.system.parsed }
    | .waiting n =>
      match w.system.answers n with
      | [] => .ok w
      | (_, r) :: _ => .ok (w.receive r)
    | .ended => .ok w
    | .failed _ => .ok w

def start (s : System δ) : Walk δ := ⟨s, [], .ready⟩

/-- The others ask for no change of the database, and for nothing that the server does not
survive. -/
def Harmless (w : Walk δ) : Turn → Prop
  | .other buf len => (Event.message buf len).write w.system.server.settings.readOnly = none ∧
      MessageDefined Mallocs.plenty w.system.server ⟨w.system.parsed, 0, 0, 0⟩ buf len
  | .dequeue => True
  | .execute => True
  | .client => True

end Walk

/-- The entry of the request that is due. -/
inductive Due (returned : List Bytes) (e : QueueEntry Nat) : Prop
  | first (op : e.operation = .firstkey) (none : returned = [])
  | next (op : e.operation = .nextkey) (last : returned.getLast? = some e.mapKey)

theorem Due.reads {returned : List Bytes} {e : QueueEntry Nat} (due : Due returned e) :
    e.operation.writes = false := by
  cases due with
  | first op => rw [op]; rfl
  | next op => rw [op]; rfl

theorem Due.owes {returned : List Bytes} {e : QueueEntry Nat} (due : Due returned e) : e.owesReply = true := by
  unfold QueueEntry.owesReply
  cases due with
  | first op => rw [op]
  | next op => rw [op]

theorem dueRoute_reads {returned : List Bytes} {readOnly : Bool} {buf : Mem} {len : Nat}
    (asks : route readOnly buf len = dueRoute returned) : (Event.message buf len).write readOnly = none := by
  unfold dueRoute at asks
  split at asks
  · exact write_none (by rw [asks]; rfl)
  · rw [write_request (ReqInfo.mk () 0 0 0) asks]
    rfl

namespace System

section

variable {db : LevelDb σ ι} {view : σ → KV} {shows : ι → KV × Option Bytes} {m : KV} {s t : System σ}

/-- Such a message puts its entry behind all others. -/
theorem step_asks {db : DbConn δ} {s t : System δ} {returned : List Bytes} {buf : Mem} {len : Nat}
    (asks : route s.server.settings.readOnly buf len = dueRoute returned)
    (taken : s.step db (.message buf len) = .ok t) :
    ∃ e, t.pending = s.pending ++ [e] ∧ e.req.net = s.parsed ∧ Due returned e := by
  obtain ⟨⟨understood, server⟩, parsed, same⟩ := bind_eq_ok.mp taken
  cases same
  rw [parseMessage_route, asks] at parsed
  obtain ⟨s₁, followed, same⟩ := bind_eq_ok.mp parsed
  cases same
  have net := replyInfo_net ⟨s.parsed, 0, 0, 0⟩ buf
  generalize replyInfo ⟨s.parsed, 0, 0, 0⟩ buf = req at followed net
  unfold dueRoute at followed
  cases last : returned.getLast? with
  | none =>
    rw [last] at followed
    obtain ⟨e, reply, queued, leaves⟩ := parseFirstkey_way followed
    obtain ⟨rfl, _⟩ := queued.plenty
    refine ⟨⟨.firstkey, req, none, none, none⟩, ?_, net, .first rfl (List.getLast?_eq_none_iff.mp last)⟩
    simp only [pending, leaves.queue, Option.toList_some, List.append_assoc]
  | some k =>
    rw [last] at followed
    obtain ⟨cd, e, reply, way, leaves⟩ := serveNextkey_way followed
    cases way with
    | nextkey queued =>
      obtain ⟨rfl, _⟩ := queued.plenty
      refine ⟨(Request.nextkey k).entry req, ?_, net, .next rfl last⟩
      simp only [pending, leaves.queue, Option.toList_some, List.append_assoc]

/- Replies are never taken back. -/
theorem step_replies {db : DbConn δ} {s t : System δ} {ev : Event} (taken : s.step db ev = .ok t) :
    ∃ rs, t.server.replies = s.server.replies ++ rs := by
  cases ev with
  | message buf len =>
    obtain ⟨⟨understood, server⟩, parsed, same⟩ := bind_eq_ok.mp taken
    cases same
    cases parseMessage_answered parsed with
    | now replies => exact ⟨_, replies⟩
    | later replies => exact ⟨[], replies.trans (List.append_nil _).symm⟩
  | dequeue =>
    obtain ⟨_, _, _, _, replies, _⟩ := step_dequeue taken
    exact ⟨[], replies.trans (List.append_nil _).symm⟩
  | execute =>
    rcases step_execute taken with ⟨_, rfl⟩ | ⟨_, _, _, _, _, rfl⟩
    · exact ⟨[], (List.append_nil _).symm⟩
    · exact ⟨_, rfl⟩

/-- A request that has its reply gets no other. -/
theorem OneReply.kept {db : DbConn δ} {s t : System δ} {ev : Event} {n : Nat} {x : ReqInfo Nat × Reply}
    (one : t.OneReply) (taken : s.step db ev = .ok t) (given : s.answers n = [x]) : t.answers n = [x] := by
  obtain ⟨rs, replies⟩ := step_replies taken
  have count := one n
  rw [answers_append replies, given, List.length_append, List.length_singleton] at count
  have none : rs.filter (fun x => x.1.net = n) = [] := by
    apply List.length_eq_zero_iff.mp
    split at count <;> omega
  rw [answers_append replies, given, none, List.append_nil]

/- A request whose entry waits has no reply yet. -/
theorem OneReply.silent {s : System δ} {n : Nat} (one : s.OneReply) {e : QueueEntry Nat}
    (waits : e ∈ s.pending) (own : e.req.net = n) (owes : e.owesReply = true) : s.answers n = [] := by
  have count := one n
  have owed : 0 < (s.owed n).length := List.length_pos_of_mem (List.mem_filter.mpr ⟨waits, by simp [owes, own]⟩)
  apply List.length_eq_zero_iff.mp
  split at count <;> omega

/-- Only a message can bring the server down. -/
theorem Leads.total (db : LevelDb σ ι) (leads : s.Leads view m) (ev : Event)
    (defined : ∀ buf len, ev = .message buf len →
      MessageDefined Mallocs.plenty s.server ⟨s.parsed, 0, 0, 0⟩ buf len) :
    ∃ t, s.step (xleveldbOpen db) ev = .ok t := by
  rw [← turn_plenty]
  obtain ⟨n, lists, models⟩ := leads.listed
  apply (turn_succeeds ⟨_, models⟩).mpr
  cases ev with
  | message buf len => exact defined buf len rfl
  | dequeue => trivial
  | execute =>
    intro e busy incr
    have waits : e ∈ s.pending := List.mem_append_left _ (Option.mem_toList.mpr busy)
    exact absurd incr (leads.plain e waits).2

end

end System

/-- Where the database holds the map, the entry is answered with the next key. -/
theorem Due.executed {db : LevelDb σ ι} {view : σ → KV} {shows : ι → KV × Option Bytes}
    (map : db.OrderedMap view shows) {d : σ} {returned : List Bytes} {e : QueueEntry Nat}
    (due : Due returned e) (short : (view d).ShortKeys) (visited : Visited (view d).keys returned) :
    ∃ o, Least (beyond (view d).keys returned) o ∧
      processOp (xleveldbOpen db) true d e = .ok (d, some (keyReply o)) := by
  cases due with
  | first op none =>
    subst none
    rw [beyond_nil]
    exact map.firstkey_executed op short
  | next op last =>
    obtain ⟨before, rfl⟩ := List.getLast?_eq_some_iff.mp last
    rw [visited.beyond_last]
    exact map.nextkey_executed op visited.mem short

namespace Walk

/-- The map that the walk is about, and what has been seen of it. -/
structure Going (view : σ → KV) (m : KV) (readOnly : Bool) (w : Walk σ) : Prop where
  leads : w.system.Leads view m
  visited : Visited m.keys w.returned
  settings : w.system.server.settings.readOnly = readOnly

/-- The request waits in its place, and only look-ups wait behind it. -/
structure Waits (n place : ℕ) (w : Walk σ) : Prop where
  phase : w.phase = .waiting n
  entry : ∃ before e after, w.system.pending = before ++ e :: after ∧ before.length = place ∧
    e.req.net = n ∧ Due w.returned e ∧ ∀ x ∈ after, x.operation.writes = false

/-- How far the walk is from its end: the keys left, and for the next one the phase of its
request and the turns of the database thread. -/
def rank (left phase turns : ℕ) : ℕ ×ₗ ℕ ×ₗ ℕ := toLex (left, toLex (phase, turns))

theorem rank_left {left left' phase phase' turns turns' : ℕ} (less : left < left') :
    rank left phase turns < rank left' phase' turns' :=
  Prod.Lex.toLex_lt_toLex.mpr (.inl less)

theorem rank_phase {left phase phase' turns turns' : ℕ} (less : phase < phase') :
    rank left phase turns < rank left phase' turns' :=
  Prod.Lex.toLex_lt_toLex.mpr (.inr ⟨rfl, Prod.Lex.toLex_lt_toLex.mpr (.inl less)⟩)

theorem rank_turns {left phase turns turns' : ℕ} (less : turns < turns') :
    rank left phase turns < rank left phase turns' :=
  Prod.Lex.toLex_lt_toLex.mpr (.inr ⟨rfl, Prod.Lex.toLex_lt_toLex.mpr (.inr ⟨rfl, less⟩)⟩)

noncomputable def left (m : KV) (w : Walk σ) : ℕ := m.keys.ncard - w.returned.length

/-- The stages of a request, each with the turn that leads on. -/
inductive Stage (view : σ → KV) (m : KV) (readOnly : Bool) : ℕ ×ₗ ℕ ×ₗ ℕ → Turn → Walk σ → Prop
  | ready {w : Walk σ} (going : w.Going view m readOnly) (phase : w.phase = .ready) :
      Stage view m readOnly (rank (left m w) 2 0) .client w
  | queued {w : Walk σ} {n place : ℕ} (going : w.Going view m readOnly) (waits : w.Waits n place)
      (idle : w.system.hand = none) : Stage view m readOnly (rank (left m w) 1 (2 * place + 2)) .dequeue w
  | busy {w : Walk σ} {n place : ℕ} {e : QueueEntry Nat} (going : w.Going view m readOnly)
      (waits : w.Waits n place) (busy : w.system.hand = some e) :
      Stage view m readOnly (rank (left m w) 1 (2 * place + 1)) .execute w
  | answered {w : Walk σ} {n : ℕ} {req : ReqInfo Nat} {o : Option Bytes} (going : w.Going view m readOnly)
      (phase : w.phase = .waiting n) (given : w.system.answers n = [(req, keyReply o)])
      (least : Least (beyond m.keys w.returned) o) : Stage view m readOnly (rank (left m w) 0 0) .client w

/-- The walk has come to its end, and there are no more keys. -/
structure Complete (m : KV) (w : Walk σ) : Prop where
  phase : w.phase = .ended
  visited : Visited m.keys w.returned
  exhausted : beyond m.keys w.returned = ∅

section

variable {db : LevelDb σ ι} {view : σ → KV} {shows : ι → KV × Option Bytes} {m : KV} {readOnly : Bool}
  {w : Walk σ} {t : System σ} {n place : ℕ}

/-- The server moves on without a change. -/
theorem Going.moved (map : db.OrderedMap view shows) (going : w.Going view m readOnly) {ev : Event}
    (quiet : ev.write readOnly = none) (taken : w.system.step (xleveldbOpen db) ev = .ok t) (phase : Phase) :
    (Walk.mk t w.returned phase).Going view m readOnly := by
  have leads := going.leads.step map (fun r asked => by
    rw [going.settings, quiet] at asked
    contradiction) taken
  rw [going.settings, quiet] at leads
  refine ⟨leads, going.visited, ?_⟩
  rw [← going.settings]
  exact congrArg Settings.readOnly (System.step_settings going.leads.listed taken)

theorem Waits.message {buf : Mem} {len : Nat} (going : w.Going view m readOnly) (waits : w.Waits n place)
    (quiet : (Event.message buf len).write readOnly = none)
    (taken : w.system.step (xleveldbOpen db) (.message buf len) = .ok t) :
    (Walk.mk t w.returned w.phase).Waits n place ∧ t.hand = w.system.hand := by
  obtain ⟨_, _, _, hand, es, pending, queues⟩ := System.step_queues going.leads.listed taken
  rw [going.settings] at queues
  obtain ⟨before, e, after, split, here, own, due, reads⟩ := waits.entry
  refine ⟨⟨waits.phase, before, e, after ++ es, ?_, here, own, due, fun x behind => ?_⟩, hand⟩
  · rw [pending, split, List.append_assoc, List.cons_append]
  · rcases List.mem_append.mp behind with old | new
    · exact reads x old
    · exact queues.reads quiet x new

theorem Waits.dequeue (waits : w.Waits n place)
    (taken : w.system.step (xleveldbOpen db) .dequeue = .ok t) :
    (Walk.mk t w.returned w.phase).Waits n place := by
  obtain ⟨pending, _⟩ := System.step_dequeue taken
  refine ⟨waits.phase, ?_⟩
  rw [pending]
  exact waits.entry

/-- The database thread takes an entry if it has none. -/
theorem Waits.taken (waits : w.Waits n place) (idle : w.system.hand = none)
    (taken : w.system.step (xleveldbOpen db) .dequeue = .ok t) : ∃ e, t.hand = some e := by
  obtain ⟨before, e, after, split, _⟩ := waits.entry
  rw [System.pending, idle, Option.toList_none, List.nil_append] at split
  simp only [System.step, idle] at taken
  cases queue : w.system.server.queue with
  | nil =>
    rw [queue] at split
    cases before <;> contradiction
  | cons x rest =>
    simp only [queue] at taken
    cases taken
    exact ⟨x, rfl⟩

/-- The entry of the request is executed and gives the reply, or it moves up. -/
theorem Waits.execute (map : db.OrderedMap view shows) (short : m.ShortKeys)
    (going : w.Going view m readOnly) (waits : w.Waits n place) {e : QueueEntry Nat}
    (busy : w.system.hand = some e) (taken : w.system.step (xleveldbOpen db) .execute = .ok t) :
    (∃ req o, t.answers n = [(req, keyReply o)] ∧ Least (beyond m.keys w.returned) o) ∨
      t.hand = none ∧ ∃ next, place = next + 1 ∧ (Walk.mk t w.returned w.phase).Waits n next := by
  rcases System.step_execute taken with ⟨idle, _⟩ | ⟨x, d, r, held, done, rfl⟩
  · rw [busy] at idle
    contradiction
  · obtain ⟨before, own, after, split, here, net, due, reads⟩ := waits.entry
    have queue : x :: w.system.server.queue = before ++ own :: after := by
      rw [← split, System.pending, held]
      rfl
    cases before with
    | nil =>
      obtain ⟨rfl, rfl⟩ := List.cons.inj queue
      left
      have leads := going.leads
      have drains := leads.drains
      rw [split, List.nil_append, drained_cons, apply_reads due.reads] at drains
      have holds : view w.system.db = m := (System.drained_reads reads).symm.trans drains
      obtain ⟨o, least, executed⟩ := due.executed map (d := w.system.db) (by rwa [holds])
        (by rw [holds]; exact going.visited)
      rw [holds] at least
      obtain ⟨rfl, rfl⟩ := Prod.mk.inj (Except.ok.inj (done.symm.trans executed))
      refine ⟨x.req, o, ?_, least⟩
      have silent := leads.one.silent (e := x) (by rw [split]; simp) net due.owes
      rw [System.answers_append (s := w.system) rfl, silent]
      simp [net]
    | cons b before =>
      obtain ⟨rfl, rest⟩ := List.cons.inj queue
      right
      refine ⟨rfl, before.length, here.symm, waits.phase, before, own, after, ?_, rfl, net, due, reads⟩
      exact rest

/-- A client without a reply has nothing to do. -/
theorem Waits.client {walker : Walker} (going : w.Going view m readOnly) (waits : w.Waits n place) :
    step (xleveldbOpen db) walker w .client = .ok w := by
  obtain ⟨before, e, after, split, _, own, due, _⟩ := waits.entry
  have silent := going.leads.one.silent (e := e) (by rw [split]; simp) own due.owes
  simp only [step, waits.phase, silent]

/-- Where a request waits, it is in the one stage or the other. -/
theorem Waits.stage (going : w.Going view m readOnly) (waits : w.Waits n place) :
    ∃ turns h, Stage view m readOnly (rank (left m w) 1 turns) h w := by
  cases hand : w.system.hand with
  | none => exact ⟨_, _, .queued going waits hand⟩
  | some e => exact ⟨_, _, .busy going waits hand⟩

theorem Stage.going {r : ℕ ×ₗ ℕ ×ₗ ℕ} {h : Turn} (stage : Stage view m readOnly r h w) :
    w.Going view m readOnly := by
  cases stage with
  | ready going | queued going | busy going | answered going => exact going

/-- What a turn comes to: the walk is in an earlier stage, or it is not the turn that leads on. -/
def Advances (view : σ → KV) (m : KV) (readOnly : Bool) (r : ℕ ×ₗ ℕ ×ₗ ℕ) (h turn : Turn) (w : Walk σ) : Prop :=
  (∃ r' h', r' < r ∧ Stage view m readOnly r' h' w) ∨ turn ≠ h ∧ Stage view m readOnly r h w

variable {r : ℕ ×ₗ ℕ ×ₗ ℕ} {h : Turn}

/-- Where the client has its turn next, it keeps it whatever the server does. -/
theorem Stage.stays {ev : Event} (map : db.OrderedMap view shows)
    (stage : Stage view m readOnly r .client w) (quiet : ev.write readOnly = none)
    (taken : w.system.step (xleveldbOpen db) ev = .ok t) :
    Stage view m readOnly r .client ⟨t, w.returned, w.phase⟩ := by
  have moved := stage.going.moved map quiet taken w.phase
  cases stage with
  | ready going phase => exact .ready moved phase
  | answered going phase given least =>
    exact .answered moved phase (moved.leads.one.kept taken given) least

theorem Stage.message {buf : Mem} {len : Nat} (map : db.OrderedMap view shows)
    (stage : Stage view m readOnly r h w) (quiet : (Event.message buf len).write readOnly = none)
    (taken : w.system.step (xleveldbOpen db) (.message buf len) = .ok t) :
    Advances view m readOnly r h (.other buf len) ⟨t, w.returned, w.phase⟩ := by
  right
  cases stage with
  | ready going phase => exact ⟨by simp, Stage.stays map (.ready going phase) quiet taken⟩
  | queued going waits idle =>
    obtain ⟨later, hand⟩ := waits.message going quiet taken
    exact ⟨by simp, .queued (going.moved map quiet taken w.phase) later (hand.trans idle)⟩
  | busy going waits busy =>
    obtain ⟨later, hand⟩ := waits.message going quiet taken
    exact ⟨by simp, .busy (going.moved map quiet taken w.phase) later (hand.trans busy)⟩
  | answered going phase given least =>
    exact ⟨by simp, Stage.stays map (.answered going phase given least) quiet taken⟩

theorem Stage.dequeue (map : db.OrderedMap view shows) (stage : Stage view m readOnly r h w)
    (taken : w.system.step (xleveldbOpen db) .dequeue = .ok t) :
    Advances view m readOnly r h .dequeue ⟨t, w.returned, w.phase⟩ := by
  cases stage with
  | ready going phase => exact .inr ⟨by simp, Stage.stays map (.ready going phase) rfl taken⟩
  | queued going waits idle =>
    obtain ⟨e, busy⟩ := waits.taken idle taken
    left
    exact ⟨_, _, rank_turns (Nat.lt_succ_self _), .busy (going.moved map rfl taken w.phase)
      (waits.dequeue taken) busy⟩
  | busy going waits busy =>
    simp only [System.step, busy] at taken
    cases taken
    exact .inr ⟨by simp, .busy going waits busy⟩
  | answered going phase given least =>
    exact .inr ⟨by simp, Stage.stays map (.answered going phase given least) rfl taken⟩

theorem Stage.execute (map : db.OrderedMap view shows) (short : m.ShortKeys)
    (stage : Stage view m readOnly r h w)
    (taken : w.system.step (xleveldbOpen db) .execute = .ok t) :
    Advances view m readOnly r h .execute ⟨t, w.returned, w.phase⟩ := by
  cases stage with
  | ready going phase => exact .inr ⟨by simp, Stage.stays map (.ready going phase) rfl taken⟩
  | queued going waits idle =>
    simp only [System.step, idle] at taken
    cases taken
    exact .inr ⟨by simp, .queued going waits idle⟩
  | busy going waits busy =>
    have moved := going.moved map rfl taken w.phase
    left
    rcases waits.execute map short going busy taken with ⟨req, o, given, least⟩ | ⟨idle, next, rfl, later⟩
    · exact ⟨_, _, rank_phase (Nat.zero_lt_one), .answered moved waits.phase given least⟩
    · exact ⟨_, _, rank_turns (by omega), .queued moved later idle⟩
  | answered going phase given least =>
    exact .inr ⟨by simp, Stage.stays map (.answered going phase given least) rfl taken⟩

/-- The client sends the request that is due. -/
theorem Going.asks {walker : Walker} (speaks : walker.Speaks readOnly) (short : m.ShortKeys)
    (going : w.Going view m readOnly) :
    route readOnly (w.request walker).1 (w.request walker).2 = dueRoute w.returned := by
  unfold request dueRoute
  cases last : w.returned.getLast? with
  | none => exact speaks.firstkey
  | some k =>
    apply speaks.nextkey
    exact short k (going.visited.inside k (List.mem_of_getLast? last))

theorem asks_defined {s : System σ} {returned : List Bytes} {buf : Mem} {len : Nat}
    (asks : route s.server.settings.readOnly buf len = dueRoute returned) :
    MessageDefined Mallocs.plenty s.server ⟨s.parsed, 0, 0, 0⟩ buf len := by
  apply messageDefined_iff.mpr
  intro r way
  rw [asks, dueRoute] at way
  split at way
  · contradiction
  · cases way
    exact fun _ => ⟨fun _ => rfl, fun _ => rfl, fun _ => rfl⟩

theorem Stage.client {walker : Walker} (map : db.OrderedMap view shows) (finite : m.keys.Finite)
    (short : m.ShortKeys) (speaks : walker.Speaks readOnly) (stage : Stage view m readOnly r h w) :
    ∃ w', step (xleveldbOpen db) walker w .client = .ok w' ∧
      (w'.Complete m ∨ Advances view m readOnly r h .client w') := by
  cases stage with
  | ready going phase =>
    have asks := going.asks speaks short
    have defined := asks_defined (s := w.system) (by rw [going.settings]; exact asks)
    obtain ⟨t, taken⟩ := going.leads.total db
      (.message (w.request walker).1 (w.request walker).2) fun buf len same => by
        cases same
        exact defined
    have moved := going.moved map (dueRoute_reads asks) taken (.waiting w.system.parsed)
    rw [← going.settings] at asks
    obtain ⟨e, pending, own, due⟩ := System.step_asks asks taken
    have waits : (Walk.mk t w.returned (.waiting w.system.parsed)).Waits w.system.parsed
        w.system.pending.length :=
      ⟨rfl, w.system.pending, e, [], pending, rfl, own, due, List.forall_mem_nil _⟩
    obtain ⟨turns, h, stage⟩ := waits.stage moved
    refine ⟨_, ?_, .inr (.inl ⟨_, _, rank_phase (Nat.lt_succ_self 1), stage⟩)⟩
    simp only [step, phase, taken, ok_bind, pure_ok]
  | queued going waits idle => exact ⟨w, waits.client going, .inr (.inr ⟨by simp, .queued going waits idle⟩)⟩
  | busy going waits busy => exact ⟨w, waits.client going, .inr (.inr ⟨by simp, .busy going waits busy⟩)⟩
  | @answered _ n req o going phase given least =>
    refine ⟨w.receive (keyReply o), by simp only [step, phase, given], ?_⟩
    cases o with
    | none => exact .inl ⟨rfl, going.visited, least⟩
    | some k =>
      have visited := going.visited.next least
      have more := visited.length_le finite
      rw [List.length_append, List.length_singleton] at more
      refine .inr (.inl ⟨_, _, rank_left ?_, .ready ⟨going.leads, visited, going.settings⟩ rfl⟩)
      change m.keys.ncard - (w.returned ++ [k]).length < m.keys.ncard - w.returned.length
      rw [List.length_append, List.length_singleton]
      omega

/-- Every turn comes to an end, and the walk to its own or to where it was. -/
theorem Stage.progress {walker : Walker} (map : db.OrderedMap view shows) (finite : m.keys.Finite)
    (short : m.ShortKeys) (speaks : walker.Speaks readOnly) (stage : Stage view m readOnly r h w)
    {turn : Turn} (harmless : w.Harmless turn) :
    ∃ w', step (xleveldbOpen db) walker w turn = .ok w' ∧
      (w'.Complete m ∨ Advances view m readOnly r h turn w') := by
  have going := stage.going
  cases turn with
  | other buf len =>
    obtain ⟨quiet, defined⟩ := harmless
    rw [going.settings] at quiet
    obtain ⟨t, taken⟩ := going.leads.total db (.message buf len) fun buf len same => by
      cases same
      exact defined
    exact ⟨_, by simp only [step, taken, ok_bind, pure_ok], .inr (stage.message map quiet taken)⟩
  | dequeue =>
    obtain ⟨t, taken⟩ := going.leads.total db .dequeue fun _ _ same => by contradiction
    exact ⟨_, by simp only [step, taken, ok_bind, pure_ok], .inr (stage.dequeue map taken)⟩
  | execute =>
    obtain ⟨t, taken⟩ := going.leads.total db .execute fun _ _ same => by contradiction
    exact ⟨_, by simp only [step, taken, ok_bind, pure_ok], .inr (stage.execute map short taken)⟩
  | client => exact stage.client map finite short speaks

/-- Under a fair schedule the walk ends and has returned the keys of the map, each once. -/
theorem completes {walker : Walker} (map : db.OrderedMap view shows) (finite : m.keys.Finite)
    (short : m.ShortKeys) (speaks : walker.Speaks readOnly) {schedule : ℕ → Turn}
    (fair : ∀ turn ∈ [Turn.dequeue, .execute, .client], Runs.Fair schedule turn)
    (harmless : ∀ n, Runs.Along (step (xleveldbOpen db) walker) Harmless w (Runs.first schedule n))
    (stage : Stage view m readOnly r h w) :
    ∃ n w', Runs.run (step (xleveldbOpen db) walker) w (Runs.first schedule n) = .ok w' ∧ w'.Complete m := by
  apply Runs.eventually (Stage view m readOnly) _ _ harmless stage
  · intro r h w turn stage harmless
    exact stage.progress map finite short speaks harmless
  · intro r h w stage
    apply fair
    cases stage <;> simp

end

/-- A walk through the keys of a server with a LevelDB backend, after any SETs and DELs in
database mode, of which any part may still wait in the queue, with no other writers: it
ends, and it returns each key of the map that these make of the initial one, once. -/
theorem key_walk_complete {db : LevelDb σ ι} {view : σ → KV} {shows : ι → KV × Option Bytes}
    (map : db.OrderedMap view shows) {cdOk tableOk : Bool} {numobjs flags : Nat} {cd : Cache}
    (created : cacheCreate cdOk tableOk numobjs flags = some cd) (settings : Settings) {d : σ}
    (short : (view d).ShortKeys) {evs : List Event} {s : System σ}
    (simple : ∀ ev ∈ evs, ∀ r, ev.write settings.readOnly = some r → r.Simple)
    (ran : Runs.run (System.step (xleveldbOpen db)) (System.start cd settings d) evs = .ok s)
    {walker : Walker} (speaks : walker.Speaks settings.readOnly) {schedule : ℕ → Turn}
    (fair : ∀ turn ∈ [Turn.dequeue, .execute, .client], Runs.Fair schedule turn)
    (harmless : ∀ n, Runs.Along (step (xleveldbOpen db) walker) Harmless (start s) (Runs.first schedule n)) :
    ∃ n w, Runs.run (step (xleveldbOpen db) walker) (start s) (Runs.first schedule n) = .ok w ∧
      w.phase = .ended ∧ w.returned.Nodup ∧
      ∀ k, k ∈ w.returned ↔
        k ∈ KV.keys ((evs.filterMap (Event.write settings.readOnly)).foldl Request.onMap (view d)) := by
  obtain ⟨kept, leads⟩ := (System.Leads.start created settings d).run map simple ran
  have going : (start s).Going view _ settings.readOnly :=
    ⟨leads, .nil, congrArg Settings.readOnly kept⟩
  obtain ⟨n, w, walked, complete⟩ := completes map (writes_finite (map.finite d) _)
    (writes_short short evs) speaks fair harmless (.ready going rfl)
  exact ⟨n, w, walked, complete.phase, complete.visited.nodup, complete.visited.complete complete.exhausted⟩

/-- DEL of key 42. -/
def delMessage : Mem := Mem.ofBytes [0x10, 0, 0, 0, 0x01, 0x03, 0, 0, 0, 0, 0, 1, 66]

def roundRobin (i : ℕ) : Turn :=
  if i % 3 = 0 then .client else if i % 3 = 1 then .dequeue else .execute

theorem roundRobin_fair : ∀ turn ∈ [Turn.dequeue, .execute, .client], Runs.Fair roundRobin turn := by
  intro turn member i
  simp only [List.mem_cons, List.not_mem_nil, or_false] at member
  rcases member with rfl | rfl | rfl
  · exact ⟨3 * i + 1, by omega, by simp [roundRobin, Nat.add_mod]⟩
  · exact ⟨3 * i + 2, by omega, by simp [roundRobin, Nat.add_mod]⟩
  · exact ⟨3 * i, by omega, by simp [roundRobin]⟩

/- Keys 42 and 43 are there; SET of 41 and DEL of 42 still wait when the walk begins. -/
theorem key_walk_complete_queued :
    ∃ s, Runs.run (System.step (xleveldbOpen pairsDb))
        (System.start emptyCache ⟨false⟩ [([66], [1]), ([67], [2])])
        [.message setMessage 18, .message delMessage 13] = .ok s ∧ s.pending.isEmpty = false ∧
      ∃ n w, Runs.run (step (xleveldbOpen pairsDb) Walker.libnmdb) (start s) (Runs.first roundRobin n) = .ok w ∧
        w.phase = .ended ∧ w.returned.Nodup ∧ ∀ k, k ∈ w.returned ↔ k = [65] ∨ k = [67] := by
  have seen : System.observed (Runs.run (System.step (xleveldbOpen pairsDb))
      (System.start emptyCache ⟨false⟩ [([66], [1]), ([67], [2])])
      [.message setMessage 18, .message delMessage 13]) [65] =
        some (false, [.mini .ok, .mini .ok], some [7]) := by decide +kernel
  obtain ⟨s, ran, waits, _⟩ := System.observed_some seen
  have set : (Event.message setMessage 18).write false = some (.set [65] [7]) := by decide +kernel
  have del : (Event.message delMessage 13).write false = some (.del [66]) := by decide +kernel
  have short : (pairsView [([66], [1]), ([67], [2])]).ShortKeys := by
    intro k member
    rw [pairsView_keys] at member
    rcases List.mem_cons.mp member with rfl | member
    · decide
    · rw [List.mem_singleton.mp member]
      decide
  have simple : ∀ ev ∈ [Event.message setMessage 18, .message delMessage 13],
      ∀ r, ev.write false = some r → r.Simple := by
    intro ev member r asked
    rcases List.mem_cons.mp member with rfl | member
    · obtain rfl := Option.some.inj (set.symm.trans asked)
      trivial
    · rw [List.mem_singleton.mp member] at asked
      obtain rfl := Option.some.inj (del.symm.trans asked)
      trivial
  have harmless : ∀ n, Runs.Along (step (xleveldbOpen pairsDb) Walker.libnmdb) Harmless (start s)
      (Runs.first roundRobin n) := by
    intro n
    apply Runs.Along.of_labels
    intro turn member w
    obtain ⟨i, rfl⟩ := Runs.mem_first member
    unfold roundRobin
    split
    · trivial
    · split <;> trivial
  obtain ⟨n, w, walked, ended, nodup, keys⟩ := key_walk_complete pairsDb_ordered
    emptyCache_created ⟨false⟩ short simple ran
    (Walker.libnmdb_speaks false) roundRobin_fair harmless
  refine ⟨s, ran, waits, n, w, walked, ended, nodup, fun k => ?_⟩
  rw [keys, List.filterMap_cons_some set, List.filterMap_cons_some del]
  change (Function.update (Function.update (pairsView _) [65] (some [7])) [66] none k).isSome = true ↔ _
  by_cases one : k = [65]
  · subst one
    decide
  · by_cases two : k = [66]
    · subst two
      decide
    · rw [Function.update_of_ne two, Function.update_of_ne one, pairsView, Assoc.get_isSome_iff]
      simp [Assoc.keys, one, two]

end Walk

end Nmdb
