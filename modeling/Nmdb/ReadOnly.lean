import Nmdb.OneReply

/-! Read-only mode. Once the setting is on, messages leave the cache alone and queue
look-ups only, so what waits in front of the database still leads to the same map. -/
namespace Nmdb

variable {δ ν : Type}

def enableReadOnlySighandler (s : Server ν) : Server ν :=
  if s.settings.readOnly then s else { s with settings := { s.settings with readOnly := true } }

/-- The requests that change the map. -/
def Req.writes : Req → Bool
  | .set | .del | .cas | .incr => true
  | .get | .stats | .firstkey | .nextkey => false

/-- The server may have answered and queued look-ups, and done nothing else. -/
structure OnlyReads (s s' : Server ν) : Prop where
  cache : s'.cache = s.cache
  settings : s'.settings = s.settings
  queue : ∃ added, s'.queue = s.queue ++ added ∧ ∀ e ∈ added, e.operation.writes = false

section

variable {m : Mallocs} {s s' : Server ν} {req : ReqInfo ν}

theorem onlyReads_kept (cache : s'.cache = s.cache) (settings : s'.settings = s.settings)
    (queue : s'.queue = s.queue) : OnlyReads s s' :=
  ⟨cache, settings, [], queue.trans (List.append_nil _).symm, List.forall_mem_nil _⟩

theorem onlyReads_left {e : Option (QueueEntry ν)} {reply : Option Reply}
    (leaves : Leaves s s' req s.cache e reply) (reads : ∀ x ∈ e, x.operation.writes = false) : OnlyReads s s' :=
  ⟨leaves.cache, leaves.settings, _, leaves.queue, fun x queued => reads x (Option.mem_toList.mp queued)⟩

theorem entry_writes (req : ReqInfo ν) (r : Request) : (r.entry req).operation.writes = r.writes := by
  cases r <;> rfl

theorem parseFirstkey_onlyReads (done : parseFirstkey m s req = .ok s') : OnlyReads s s' := by
  obtain ⟨e, reply, queued, leaves⟩ := parseFirstkey_way done
  exact onlyReads_left leaves fun x here => congrArg (fun x => x.operation.writes) (queued.own x here)

/-- Each mutating request is turned down before anything is changed. -/
theorem serve_onlyReads {r : Request} (readOnly : s.settings.readOnly = true)
    (done : serve m s req r = .ok s') : OnlyReads s s' := by
  rcases serve_way done with ⟨_, _, rfl⟩ | ⟨may, cd, e, reply, way, leaves⟩
  · exact onlyReads_kept rfl rfl rfl
  · have reads : r.writes = false := may.resolve_left (by rw [readOnly]; decide)
    rcases way.cache with ⟨_, rfl⟩ | ⟨writes, _⟩
    · refine onlyReads_left leaves fun x queued => ?_
      rw [way.own x queued, entry_writes, reads]
    · rw [reads] at writes
      contradiction

theorem parseMessage_onlyReads {buf : Mem} {len : Nat} {understood : Bool}
    (readOnly : s.settings.readOnly = true)
    (done : parseMessage m s req buf len = .ok (understood, s')) : OnlyReads s s' := by
  rw [parseMessage_route] at done
  obtain ⟨s₁, followed, done⟩ := bind_eq_ok.mp done
  cases done
  cases way : route s.settings.readOnly buf len with
  | firstkey =>
    rw [way] at followed
    exact parseFirstkey_onlyReads followed
  | request r =>
    rw [way] at followed
    exact serve_onlyReads readOnly followed
  | _ =>
    rw [way] at followed
    cases followed
    exact onlyReads_kept rfl rfl rfl

/- What answers a look-up does not ask for the settings. -/

theorem putInQueueLong_mode (st : Settings) (operation : Req) (key val newval : Option Bytes) :
    putInQueueLong m { s with settings := st } req operation key val newval =
      putInQueueLong m s req operation key val newval >>= fun x =>
        .ok (x.1, { x.2 with settings := st }) := by
  unfold putInQueueLong
  cases makeQueueLongEntry m req operation key val newval with
  | error fault => rfl
  | ok e => cases e <;> rfl

theorem queued_mode (st : Settings) {operation : Req} {key val newval : Option Bytes} :
    (putInQueueLong m { s with settings := st } req operation key val newval >>= fun x =>
      if (!x.1) = true then pure (x.2.reply req (.err .mem)) else pure x.2) =
      (putInQueueLong m s req operation key val newval >>= fun x =>
        if (!x.1) = true then pure (x.2.reply req (.err .mem)) else pure x.2) >>= fun s' =>
          .ok { s' with settings := st } := by
  rw [putInQueueLong_mode]
  cases putInQueueLong m s req operation key val newval with
  | error fault => rfl
  | ok x =>
    obtain ⟨rv, s₁⟩ := x
    cases rv <;> rfl

theorem replyLong_mode (st : Settings) (r : Rep) (v : Ptr) (vsize : Int) :
    Server.replyLong { s with settings := st } req r v vsize =
      s.replyLong req r v vsize >>= fun s' => .ok { s' with settings := st } := by
  cases v with
  | null => rfl
  | dangling => rfl
  | block b =>
    simp only [Server.replyLong]
    cases (Ptr.block b).read vsize.toNat with
    | error fault => rfl
    | ok val => rfl

theorem serveGet_mode (st : Settings) (key : Bytes) :
    serveGet m { s with settings := st } req key =
      serveGet m s req key >>= fun s' => .ok { s' with settings := st } := by
  unfold serveGet
  have same : ∀ f g : Stats → Stats, Server.fillCacheFlag { s with settings := st } req f g =
      { s.fillCacheFlag req f g with settings := st } := fun _ _ => rfl
  simp only [same]
  generalize s.fillCacheFlag req _ _ = flagged
  cases cacheGet flagged.cache key with
  | error fault => rfl
  | ok got =>
    obtain ⟨hit, v, vsize⟩ := got
    simp only [ok_bind]
    split
    · rfl
    · split
      · exact queued_mode st
      · exact replyLong_mode (s := flagged.count fun st => { st with cacheHits := st.cacheHits + 1 }) st _ _ _

theorem serveNextkey_mode (st : Settings) (key : Bytes) :
    serveNextkey m { s with settings := st } req key =
      serveNextkey m s req key >>= fun s' => .ok { s' with settings := st } :=
  queued_mode (s := s.count fun st => { st with dbNextkey := st.dbNextkey + 1 }) st

theorem parseFirstkey_mode (st : Settings) :
    parseFirstkey m { s with settings := st } req =
      parseFirstkey m s req >>= fun s' => .ok { s' with settings := st } :=
  queued_mode (s := s.count fun st => { st with dbFirstkey := st.dbFirstkey + 1 }) st

theorem operands_writes {c : Req} {payload : Mem} {r : Request} (ops : operands c payload = some r) :
    r.writes = c.writes := by
  cases c <;> cases ops <;> rfl

/-- The setting decides the way of the mutating requests only. -/
theorem route_reads {buf : Mem} (reads : ∀ c : Req, c.writes = true → command buf ≠ c.code)
    (readOnly : Bool) (len : Nat) :
    route readOnly buf len = route false buf len ∧
      ∀ r, route readOnly buf len = .request r → r.writes = false := by
  have harmless : ∀ c r, Req.ofCode (command buf) = some c → operands c (buf.from 8) = some r →
      r.writes = false := by
    intro c r code ops
    rw [operands_writes ops, ← Bool.not_eq_true]
    exact fun writes => reads c writes (Req.ofCode_some code)
  constructor
  · unfold route
    split
    · rfl
    · split
      · rfl
      case h_2 c code =>
        split
        · rfl
        case h_2 r ops => rw [harmless c r code ops, Bool.and_false, Bool.and_false]
  · intro r way
    obtain ⟨_, _, c, cmd, ops, _⟩ := route_request way
    refine harmless c r ?_ ops
    rw [cmd, Req.ofCode_code]

theorem Route.follow_mode (st : Settings) {way : Route} (reads : ∀ r, way = .request r → r.writes = false) :
    way.follow m { s with settings := st } req =
      way.follow m s req >>= fun s' => .ok { s' with settings := st } := by
  cases way with
  | firstkey => exact parseFirstkey_mode st
  | request r =>
    have harmless := reads r rfl
    cases r with
    | get key => exact serveGet_mode st key
    | nextkey key => exact serveNextkey_mode st key
    | _ => contradiction
  | _ => rfl

/-- A message that does not ask for a change is handled as if the mode were another. -/
theorem parseMessage_mode {buf : Mem} (reads : ∀ c : Req, c.writes = true → command buf ≠ c.code)
    (st : Settings) (len : Nat) :
    parseMessage m { s with settings := st } req buf len =
      parseMessage m s req buf len >>= fun x => .ok (x.1, { x.2 with settings := st }) := by
  rw [parseMessage_route, parseMessage_route, (route_reads reads st.readOnly len).1,
    (route_reads reads s.settings.readOnly len).1, Route.follow_mode st (route_reads reads false len).2]
  cases (route false buf len).follow m s (replyInfo req buf) with
  | error fault => rfl
  | ok s' => rfl

end

/-- The cursor functions of a backend leave the map alone. -/
structure CursorsOnly (db : DbConn δ) (view : δ → KV) : Prop where
  firstkey : ∀ firstkey, db.firstkey = some firstkey → ∀ d n, view (firstkey d n).2 = view d
  nextkey : ∀ nextkey, db.nextkey = some nextkey → ∀ d k n, view (nextkey d k n).2 = view d

/-- The database after a list of entries has been executed; mallocs are the outcomes of
malloc() on the way. -/
def applied (db : DbConn δ) (d : δ) (mallocs : Nat → Bool) : List (QueueEntry Nat) → Except Fault δ
  | [] => .ok d
  | e :: es => do
    let (d, _) ← processOp db (mallocs 0) d e
    applied db d (fun n => mallocs (n + 1)) es

section

variable {db : DbConn δ} {view : δ → KV} {d d' : δ} {e : QueueEntry Nat}

theorem processOp_reads (cursors : CursorsOnly db view) {ok : Bool} {r : Option Reply}
    (reads : e.operation.writes = false) (done : processOp db ok d e = .ok (d', r)) :
    view d' = view d := by
  cases processOp_way done with
  | setQuiet op | setRefused op | setDone op | delQuiet op | delNotin op | delDone op =>
    rw [op] at reads
    contradiction
  | casRefused op | casDone op | incrRefused op | incrDone op =>
    rw [op] at reads
    contradiction
  | firstkey _ known _ moved =>
    have kept := cursors.firstkey _ known d dbBufSize
    rwa [moved] at kept
  | nextkey _ known _ moved =>
    have kept := cursors.nextkey _ known d e.mapKey dbBufSize
    rwa [moved] at kept
  | _ => rfl

theorem applied_append (mallocs : Nat → Bool) (es fs : List (QueueEntry Nat)) :
    applied db d mallocs (es ++ fs) =
      applied db d mallocs es >>= fun d => applied db d (fun n => mallocs (n + es.length)) fs := by
  induction es generalizing d mallocs with
  | nil => rfl
  | cons e es ih =>
    simp only [List.cons_append, applied]
    cases processOp db (mallocs 0) d e with
    | error fault => rfl
    | ok x =>
      simp only [ok_bind, ih, List.length_cons, Nat.add_assoc]

/-- Look-ups come to their end and leave the map. -/
theorem applied_reads (cursors : CursorsOnly db view) (mallocs : Nat → Bool) {es : List (QueueEntry Nat)}
    (reads : ∀ e ∈ es, e.operation.writes = false) :
    ∃ d', applied db d mallocs es = .ok d' ∧ view d' = view d := by
  induction es generalizing d mallocs with
  | nil => exact ⟨d, rfl, rfl⟩
  | cons e es ih =>
    have here := reads e List.mem_cons_self
    have other : e.operation ≠ .incr := by
      intro incr
      rw [incr] at here
      contradiction
    obtain ⟨⟨d₁, r⟩, done⟩ : Succeeds (processOp db (mallocs 0) d e) :=
      processOp_total fun incr => absurd incr other
    obtain ⟨d₂, rest, kept⟩ := ih (fun n => mallocs (n + 1)) fun x hx => reads x (List.mem_cons_of_mem e hx)
    refine ⟨d₂, ?_, kept.trans (processOp_reads cursors here done)⟩
    simp only [applied, done, ok_bind]
    exact rest

end

/-- The server, and the outcomes of malloc() that its database thread is still to meet. -/
structure Replica (δ : Type) where
  system : System δ
  mallocs : Nat → Bool

namespace Replica

inductive Event where
  | message (m : Mallocs) (buf : Mem) (len : Nat)
  | signal
  | dequeue
  | execute

def step (db : DbConn δ) (r : Replica δ) : Event → Except Fault (Replica δ)
  | .message m buf len => do
    let system ← r.system.turn db (.message m buf len)
    return { r with system := system }
  | .signal =>
    .ok { r with system := { r.system with server := enableReadOnlySighandler r.system.server } }
  | .dequeue => do
    let system ← r.system.turn db .dequeue
    return { r with system := system }
  | .execute =>
    match r.system.hand with
    | none => .ok r
    | some _ => do
      let system ← r.system.turn db (.execute (r.mallocs 0))
      return ⟨system, fun n => r.mallocs (n + 1)⟩

def ReadOnly (r : Replica δ) : Prop := r.system.server.settings.readOnly = true

/-- The map that applying the waiting entries to the database leaves. -/
def map (db : DbConn δ) (view : δ → KV) (r : Replica δ) : Except Fault KV := do
  let d ← applied db r.system.db r.mallocs r.system.pending
  return view d

def mode (r : Replica δ) (settings : Settings) : Replica δ :=
  { r with system := { r.system with server := { r.system.server with settings := settings } } }

/-- The steps that are no message asking for a change, and no signal. -/
def Event.LooksUp : Event → Prop
  | .message _ buf _ => ∀ c : Req, c.writes = true → command buf ≠ c.code
  | .signal => False
  | .dequeue => True
  | .execute => True

/-- What stays of the state in which the mode was entered. -/
structure Since (db : DbConn δ) (view : δ → KV) (r t : Replica δ) : Prop where
  readOnly : t.ReadOnly
  cache : t.system.server.cache = r.system.server.cache
  queue : ∃ executed added, r.system.pending ++ added = executed ++ t.system.pending ∧
    ∀ e ∈ added, e.operation.writes = false
  map : t.map db view = r.map db view

section

variable {db : DbConn δ} {view : δ → KV} {r t u : Replica δ}

theorem Since.start (readOnly : r.ReadOnly) : Since db view r r :=
  ⟨readOnly, rfl, ⟨[], [], List.append_nil _, List.forall_mem_nil _⟩, rfl⟩

theorem Since.message (cursors : CursorsOnly db view) {m : Mallocs} {buf : Mem} {len : Nat}
    (since : Since db view r t) (taken : t.step db (.message m buf len) = .ok u) : Since db view r u := by
  obtain ⟨system, turned, same⟩ := bind_eq_ok.mp taken
  cases same
  obtain ⟨⟨understood, server⟩, parsed, same⟩ := bind_eq_ok.mp turned
  cases same
  have reads := parseMessage_onlyReads since.readOnly parsed
  obtain ⟨queued, queue, lookUps⟩ := reads.queue
  have pending : System.pending ⟨server, t.system.db, t.system.hand, t.system.parsed + 1⟩ =
      t.system.pending ++ queued := by
    simp only [System.pending, queue, List.append_assoc]
  refine ⟨?_, reads.cache.trans since.cache, ?_, ?_⟩
  · exact (congrArg Settings.readOnly reads.settings).trans since.readOnly
  · obtain ⟨executed, added, split, own⟩ := since.queue
    refine ⟨executed, added ++ queued, ?_, fun e mem => ?_⟩
    · rw [pending, ← List.append_assoc, split, List.append_assoc]
    · exact (List.mem_append.mp mem).elim (own e) (lookUps e)
  · rw [← since.map]
    simp only [Replica.map, pending, applied_append]
    cases applied db t.system.db t.mallocs t.system.pending with
    | error fault => rfl
    | ok d =>
      obtain ⟨d', ran, kept⟩ := applied_reads (d := d) cursors
        (fun n => t.mallocs (n + t.system.pending.length)) lookUps
      simp only [ok_bind, ran, pure_ok, kept]

theorem Since.signal (since : Since db view r t) (taken : t.step db .signal = .ok u) :
    Since db view r u := by
  have already : enableReadOnlySighandler t.system.server = t.system.server := if_pos since.readOnly
  simp only [step, already] at taken
  cases taken
  exact since

theorem Since.dequeue (since : Since db view r t) (taken : t.step db .dequeue = .ok u) :
    Since db view r u := by
  obtain ⟨system, turned, same⟩ := bind_eq_ok.mp taken
  cases same
  obtain ⟨pending, sameDb, cache, settings, _, _⟩ :=
    System.step_dequeue (show t.system.step db .dequeue = .ok system from turned)
  refine ⟨?_, cache.trans since.cache, ?_, ?_⟩
  · exact (congrArg Settings.readOnly settings).trans since.readOnly
  · rw [pending]
    exact since.queue
  · rw [← since.map, Replica.map, Replica.map, pending, sameDb]

/- What is executed was the first to be applied. -/
theorem Since.execute (since : Since db view r t) (taken : t.step db .execute = .ok u) :
    Since db view r u := by
  simp only [step] at taken
  split at taken
  · cases taken
    exact since
  case h_2 e busy =>
    obtain ⟨system, turned, same⟩ := bind_eq_ok.mp taken
    cases same
    simp only [System.turn, busy] at turned
    obtain ⟨⟨d, reply⟩, done, turned⟩ := bind_eq_ok.mp turned
    have pending : t.system.pending = e :: system.pending := by
      rw [System.pending, busy]
      cases reply <;> cases turned <;> rfl
    have server : system.server.cache = t.system.server.cache ∧
        system.server.settings = t.system.server.settings ∧ system.db = d := by
      cases reply <;> cases turned <;> exact ⟨rfl, rfl, rfl⟩
    obtain ⟨cache, settings, sameDb⟩ := server
    refine ⟨?_, cache.trans since.cache, ?_, ?_⟩
    · exact (congrArg Settings.readOnly settings).trans since.readOnly
    · obtain ⟨executed, added, split, own⟩ := since.queue
      refine ⟨executed ++ [e], added, ?_, own⟩
      rw [split, pending, List.append_assoc, List.singleton_append]
    · rw [← since.map, Replica.map, Replica.map, pending]
      simp only [applied, done, ok_bind, sameDb]

theorem Since.step (cursors : CursorsOnly db view) {event : Event} (since : Since db view r t)
    (taken : t.step db event = .ok u) : Since db view r u := by
  cases event with
  | message m buf len => exact since.message cursors taken
  | signal => exact since.signal taken
  | dequeue => exact since.dequeue taken
  | execute => exact since.execute taken

/-- Look-ups and the database thread work the same in either mode. -/
theorem step_mode {event : Event} (looksUp : event.LooksUp) (settings : Settings) :
    (t.mode settings).step db event = t.step db event >>= fun u => .ok (u.mode settings) := by
  cases event with
  | message m buf len =>
    simp only [Replica.step, System.turn, mode, parseMessage_mode looksUp settings len]
    cases parseMessage m t.system.server ⟨t.system.parsed, 0, 0, 0⟩ buf len with
    | error fault => rfl
    | ok x => rfl
  | signal => exact looksUp.elim
  | dequeue =>
    obtain ⟨⟨⟨cache, queue, stats, before, replies⟩, d, hand, parsed⟩, mallocs⟩ := t
    cases hand with
    | none => cases queue <;> rfl
    | some e => rfl
  | execute =>
    obtain ⟨⟨server, d, hand, parsed⟩, mallocs⟩ := t
    cases hand with
    | none => rfl
    | some e =>
      simp only [Replica.step, System.turn, mode]
      cases processOp db (mallocs 0) d e with
      | error fault => rfl
      | ok x =>
        obtain ⟨d, reply⟩ := x
        cases reply <;> rfl

/-- Read-only mode is read-only. In whatever state the mode is on, no run from there changes
the cache, queues a change, or leads the database to another map; and look-ups are answered
as without the mode. -/
theorem read_only_preserves (cursors : CursorsOnly db view) (readOnly : r.ReadOnly)
    {events : List Event} (ran : Runs.run (Replica.step db) r events = .ok t) :
    Since db view r t ∧ ∀ event : Event, event.LooksUp → ∀ settings,
      (t.mode settings).step db event = t.step db event >>= fun u => .ok (u.mode settings) := by
  have since : Since db view r t :=
    Runs.run_invariant (P := fun _ _ => True) (fun _ _ _ before _ taken => before.step cursors taken)
      (Since.start readOnly) (Runs.Along.always (fun _ _ => trivial) r events) ran
  exact ⟨since, fun _ looksUp settings => step_mode looksUp settings⟩

/-- A SET was queued before the mode was entered. -/
def waitingSet : Replica KV :=
  ⟨⟨⟨emptyCache, [⟨.set, ⟨0, 0, 0x102, 0⟩, some [66], some [5], none⟩], {}, ⟨true⟩, []⟩, fun _ => none,
    none, 1⟩, fun _ => true⟩

/- Another SET arrives, and is refused while the first one is executed. -/
theorem read_only_preserves_set :
    ∃ t, Runs.run (Replica.step mapDb) waitingSet
        [.dequeue, .message Mallocs.plenty setMessage 18, .execute, .signal] = .ok t ∧
      t.system.server.replies = [(⟨1, 0, 0x102, 0⟩, .err .ro)] ∧ Since mapDb id waitingSet t := by
  have cursors : CursorsOnly mapDb id := ⟨nofun, nofun⟩
  have readOnly : waitingSet.ReadOnly := rfl
  have way : route true setMessage 18 = .readOnly := by decide +kernel
  have info : replyInfo (⟨1, 0, 0, 0⟩ : ReqInfo Nat) setMessage = ⟨1, 0, 0x102, 0⟩ := by decide +kernel
  have ran : ∃ t, Runs.run (Replica.step mapDb) waitingSet
      [.dequeue, .message Mallocs.plenty setMessage 18, .execute, .signal] = .ok t ∧
      t.system.server.replies = [(⟨1, 0, 0x102, 0⟩, .err .ro)] := by
    simp only [Runs.run, Replica.step, System.turn, System.step, waitingSet, ok_bind, pure_ok,
      parseMessage_route, way, info, Route.follow]
    exact ⟨_, rfl, rfl⟩
  obtain ⟨t, ran, replies⟩ := ran
  exact ⟨t, ran, replies, (read_only_preserves cursors readOnly ran).1⟩

end

end Replica

end Nmdb
