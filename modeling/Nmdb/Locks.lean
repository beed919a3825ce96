import Nmdb.Schedules
import Nmdb.Lib.Monitor

/-! The two threads with op_queue's mutex and its condition variable, one access to the queue
at a time. What they do is what the server does whose steps are whole messages and entries;
and what is in the queue gets executed. -/
namespace Nmdb

open Handoff (Action Owner)

variable {δ : Type}

/-- The threads of a server, with the program counters of put_in_queue_long and db_loop. -/
abbrev Locked (δ : Type) := Handoff.Threads (Server Nat × Nat) δ (QueueEntry Nat) (ReqInfo Nat × Reply)

def Locked.start (cd : Cache) (settings : Settings) (d : δ) : Locked δ :=
  Handoff.Threads.start ((System.start cd settings d).server.bare, 0) d

def Locked.step (db : DbConn δ) : Locked δ → Action (Mem × Nat) → Except Fault (Locked δ) :=
  Handoff.Threads.step (threads db)

/-- The messages the main thread has read in a run. -/
def Locked.heard (db : DbConn δ) (t : Locked δ) (xs : List (Action (Mem × Nat))) : List (Mem × Nat) :=
  Handoff.Threads.heard (threads db) t xs

/-- The server with whole steps that the threads stand for. An entry on its way to the queue
is there already, and a reply the main thread still has to send is given. -/
structure StandsFor (t : Locked δ) (s : System δ) : Prop where
  main : t.producer = (s.server.bare, s.parsed)
  db : t.consumer = s.db
  hand : s.hand = t.work.inHand
  queue : s.server.queue = t.queue ++ t.main.inFlight
  replies : s.server.replies.Perm (t.out ++ t.main.unsaid)

def labelEvent : Handoff.Label (Mem × Nat) → Event
  | .produce (buf, len) => .message buf len
  | .take => .dequeue
  | .work => .execute

theorem labelEvent_turns (ls : List (Handoff.Label (Mem × Nat))) : (ls.map labelEvent).map Event.turn = ls := by
  induction ls with
  | nil => rfl
  | cons l ls ih =>
    rw [List.map_cons, List.map_cons, ih]
    cases l <;> rfl

theorem labelEvent_messages (ls : List (Handoff.Label (Mem × Nat))) :
    messages (ls.map labelEvent) = Handoff.inputs ls := by
  rw [← inputs_turns, labelEvent_turns]

section

variable {db : DbConn δ} {cd : Cache} {settings : Settings} {d : δ} {xs : List (Action (Mem × Nat))} {t : Locked δ}

theorem Locked.stands_for (ran : Runs.run (Locked.step db) (Locked.start cd settings d) xs = .ok t) :
    ∃ evs s, messages evs = (Locked.start cd settings d).heard db xs ∧
      Runs.run (System.step db) (System.start cd settings d) evs = .ok s ∧ StandsFor t s := by
  have initial := Handoff.Threads.start_simulates (I := QueueEntry Nat) (O := ReqInfo Nat × Reply)
    ((System.start cd settings d).server.bare, 0) d
  obtain ⟨ls, h, inputs, ranH, sim⟩ := initial.run ran
  have same : (⟨((System.start cd settings d).server.bare, 0), d, [], none, []⟩ :
      Handoff.State (Server Nat × Nat) δ (QueueEntry Nat) (ReqInfo Nat × Reply)) =
      (System.start cd settings d).threads := rfl
  rw [same, ← labelEvent_turns ls, run_threads] at ranH
  cases ranS : Runs.run (System.step db) (System.start cd settings d) (ls.map labelEvent) with
  | error e =>
    rw [ranS] at ranH
    contradiction
  | ok s =>
    rw [ranS] at ranH
    obtain rfl : s.threads = h := Except.ok.inj ranH
    refine ⟨_, s, (labelEvent_messages ls).trans inputs, ranS, ?_⟩
    exact ⟨sim.producer.symm, sim.consumer.symm, sim.hand, sim.waiting, sim.out⟩

theorem Locked.guarded (ran : Runs.run (Locked.step db) (Locked.start cd settings d) xs = .ok t) : t.Guarded :=
  (Handoff.Threads.start_guarded _ _).run ran

end

/-- In every interleaving of the threads' accesses they are never inside together, and they
stand for a server that took the same messages in whole steps. -/
theorem locking_refines (db : DbConn δ) (cd : Cache) (settings : Settings) (d : δ)
    {xs : List (Action (Mem × Nat))} {t : Locked δ}
    (ran : Runs.run (Locked.step db) (Locked.start cd settings d) xs = .ok t) :
    ¬ (t.main.holds = true ∧ t.work.holds = true) ∧
    ∃ evs s, messages evs = (Locked.start cd settings d).heard db xs ∧
      Runs.run (System.step db) (System.start cd settings d) evs = .ok s ∧ StandsFor t s :=
  ⟨(Locked.guarded ran).exclusive, Locked.stands_for ran⟩

section

variable {db : DbConn δ} {view : δ → KV}

theorem never_refuses (accepts : ∀ d k v, (db.set d k v).1 = true) (d : δ) (e : QueueEntry Nat) : ¬ db.Refuses d e := by
  rintro ⟨v, _, no⟩
  exact absurd ((accepts d e.mapKey v).symm.trans no) (by decide)

/-- Waiting operations that meet no surprise can all be executed. -/
theorem consumeAll_total (backend : MapBackend db view) (accepts : ∀ d k v, (db.set d k v).1 = true)
    {answers : List (ReqInfo Nat × Answer)} {es : List (QueueEntry Nat)} {d : δ} (mapped : ∀ e ∈ es, e.Mapped)
    (fits : ∀ k, ¬ Oversized (view d k)) (room : ∀ e ∈ es, e.KeepsRoom)
    (promised : WriteBehind.Meets QueueEntry.mapKey QueueEntry.act (Promised answers) (view d) es) :
    ∃ d' rs, Handoff.consumeAll (threads db) d es = .ok (d', rs) ∧ view d' = drained (view d) es := by
  induction es generalizing d with
  | nil => exact ⟨d, [], rfl, rfl⟩
  | cons e es ih =>
    have mine := mapped e List.mem_cons_self
    have nonempty : e.operation = .incr → db.get d e.mapKey dbBufSize ≠ some [] := by
      intro incr
      rw [backend.get_eq (fits _)]
      exact promised.1.1 incr
    obtain ⟨r, done⟩ := processOp_ok d mine nonempty
    have view_after := backend.after_eq mine (never_refuses accepts d e) (fits _)
    obtain ⟨d', rs, rest, drains⟩ := ih (d := db.after d e) (fun x hx => mapped x (List.mem_cons_of_mem _ hx))
      (fun k => by rw [view_after]; exact apply_fits fits (room e List.mem_cons_self) k)
      (fun x hx => room x (List.mem_cons_of_mem _ hx)) (by rw [view_after]; exact promised.2)
    have first : (threads db).consume d e = .ok (db.after d e, r.toList.map fun r => (e.req, r)) := by
      simp only [threads, done, ok_bind, pure_ok]
    refine ⟨d', _, Handoff.consumeAll_cons first rest, ?_⟩
    rw [drains, view_after, drained_cons]

/-- The queue is worked off: the database holds what the messages make of it, and every
message has its reply. -/
structure WorkedOff (view : δ → KV) (readOnly : Bool) (m : KV) (msgs : List (Mem × Nat)) (t : Locked δ) : Prop where
  empty : t.queue = []
  database : view t.consumer = (atomicRun readOnly m (requests 0 (delivered msgs))).1
  replied : ∀ n < msgs.length, ∃ req r, (req, r) ∈ t.out ∧ req.net = n
  answers : ∀ req r, (req, r) ∈ t.out → req.cacheOnly = false →
    ∃ a, (req, a) ∈ (atomicRun readOnly m (requests 0 (delivered msgs))).2 ∧ r.answer = some a

section

variable {cdOk tableOk : Bool} {numobjs flags : Nat} {cd : Cache} {settings : Settings} {d : δ}
  {xs : List (Action (Mem × Nat))} {t : Locked δ}

/-- A server whose threads are where t is, and what is left in its queue. -/
theorem Locked.linear (backend : MapBackend db view) (accepts : ∀ d k v, (db.set d k v).1 = true)
    (created : cacheCreate cdOk tableOk numobjs flags = some cd)
    (bounded : ∀ k v, view d k = some v → v.length ≤ 65536)
    (ran : Runs.run (Locked.step db) (Locked.start cd settings d) xs = .ok t)
    (inMode : ∀ x ∈ (Locked.start cd settings d).heard db xs, (Event.message x.1 x.2).InMode)
    (defined : NumbersDefined settings.readOnly (view d)
      (requests 0 (delivered ((Locked.start cd settings d).heard db xs)))) :
    ∃ s, StandsFor t s ∧ s.OneReply ∧ s.parsed = ((Locked.start cd settings d).heard db xs).length ∧
      s.Linear view (atomicRun settings.readOnly (view d)
          (requests 0 (delivered ((Locked.start cd settings d).heard db xs)))).1
        (atomicRun settings.readOnly (view d)
          (requests 0 (delivered ((Locked.start cd settings d).heard db xs)))).2 := by
  obtain ⟨evs, s, same, ranS, stands⟩ := Locked.stands_for ran
  rw [← same] at inMode defined ⊢
  rw [← requests_delivered] at defined ⊢
  have initial := System.start_linear created settings bounded
  have linear := (initial.run backend accepts evs (inMode_messages.mpr inMode) defined).2 s ranS
  have parsed := run_parsed ranS
  refine ⟨s, stands, run_oneReply (fun n => rfl) ranS, ?_, linear⟩
  rw [parsed]
  exact Nat.zero_add _

/-- Threads at rest have worked off the queue. -/
theorem Locked.workedOff (backend : MapBackend db view) (accepts : ∀ d k v, (db.set d k v).1 = true)
    (created : cacheCreate cdOk tableOk numobjs flags = some cd)
    (bounded : ∀ k v, view d k = some v → v.length ≤ 65536)
    (ran : Runs.run (Locked.step db) (Locked.start cd settings d) xs = .ok t)
    (inMode : ∀ x ∈ (Locked.start cd settings d).heard db xs, (Event.message x.1 x.2).InMode)
    (defined : NumbersDefined settings.readOnly (view d)
      (requests 0 (delivered ((Locked.start cd settings d).heard db xs))))
    (idle : t.main = .ready ∨ t.main = .stopped) (served : t.Served) :
    WorkedOff view settings.readOnly (view d) ((Locked.start cd settings d).heard db xs) t := by
  obtain ⟨s, stands, one, parsed, linear⟩ :=
    Locked.linear backend accepts created bounded ran inMode defined
  have queue := stands.queue
  have replies := stands.replies
  obtain ⟨noItems, noReplies⟩ := Handoff.ProducerPc.idle_nothing idle
  have settled : s.pending = [] := by
    rw [System.pending, stands.hand, served.1, queue, served.2, noItems]
    rfl
  have said : s.server.replies.Perm t.out := by
    rw [noReplies, List.append_nil] at replies
    exact replies
  constructor
  case empty => exact served.2
  case database =>
    rw [stands.db, ← linear.map, settled]
    rfl
  case replied =>
    intro n number
    rw [← parsed] at number
    obtain ⟨req, r, member, same⟩ := settled_replied one settled number
    exact ⟨req, r, said.mem_iff.mp member, same⟩
  case answers => exact fun req r member => linear.replied req r (said.mem_iff.mpr member)

/-- What is before the consumer can be executed. -/
theorem Locked.serves (backend : MapBackend db view) (accepts : ∀ d k v, (db.set d k v).1 = true)
    (created : cacheCreate cdOk tableOk numobjs flags = some cd)
    (bounded : ∀ k v, view d k = some v → v.length ≤ 65536)
    (ran : Runs.run (Locked.step db) (Locked.start cd settings d) xs = .ok t)
    (inMode : ∀ x ∈ (Locked.start cd settings d).heard db xs, (Event.message x.1 x.2).InMode)
    (defined : NumbersDefined settings.readOnly (view d)
      (requests 0 (delivered ((Locked.start cd settings d).heard db xs))))
    (idle : t.main = .ready ∨ t.main = .stopped) (free : ¬ t.Stuck) :
    ∃ d' os, t.Serves (threads db) d' os := by
  obtain ⟨s, stands, _, _, linear⟩ := Locked.linear backend accepts created bounded ran inMode defined
  obtain ⟨d', more, all, _⟩ := consumeAll_total backend accepts linear.behind.mapped linear.fits linear.room
    linear.promised
  have pending : s.pending = t.work.inHand.toList ++ t.queue := by
    rw [System.pending, stands.hand, stands.queue, (Handoff.ProducerPc.idle_nothing idle).1, List.append_nil]
  rw [pending, ← stands.db] at all
  exact ⟨d', _, Locked.guarded ran, idle, free, more, all, rfl⟩

end

end

/-- The database thread finds the queue empty and waits; a SET comes and is put. -/
def setArrives : List (Action (Mem × Nat)) :=
  [.work, .work,
    .message (Mem.ofBytes [0x10, 0, 0, 0, 0x01, 0x02, 0, 2, 0, 0, 0, 1, 0, 0, 0, 2, 65, 53, 0], 19),
    .main, .main, .main, .main, .main]

theorem locking_refines_set : ∃ t evs s,
    Runs.run (Locked.step mapDb) (Locked.start emptyCache ⟨false⟩ fun _ => none) setArrives = .ok t ∧
    Runs.run (System.step mapDb) (System.start emptyCache ⟨false⟩ fun _ => none) evs = .ok s ∧
    (messages evs).length = 1 ∧ StandsFor t s := by
  obtain ⟨t, ran⟩ : ∃ t, Runs.run (Locked.step mapDb) (Locked.start emptyCache ⟨false⟩ fun _ => none) setArrives =
    .ok t := ⟨_, rfl⟩
  obtain ⟨_, evs, s, same, ranS, stands⟩ := locking_refines mapDb emptyCache ⟨false⟩ (fun _ => none) ran
  exact ⟨t, evs, s, ran, ranS, by rw [same]; rfl, stands⟩

/-- From wherever a run has come to between two messages, if no message comes any more, the
database thread works off the queue, however its turns, wake-ups and time-outs are mixed:
every entry is executed and every request replied to. -/
theorem queue_worked_off {db : DbConn δ} {view : δ → KV} (backend : MapBackend db view)
    (accepts : ∀ d k v, (db.set d k v).1 = true) {cdOk tableOk : Bool} {numobjs flags : Nat} {cd : Cache}
    (created : cacheCreate cdOk tableOk numobjs flags = some cd) {settings : Settings} {d : δ}
    (bounded : ∀ k v, view d k = some v → v.length ≤ 65536) {xs : List (Action (Mem × Nat))} {t : Locked δ}
    (ran : Runs.run (Locked.step db) (Locked.start cd settings d) xs = .ok t)
    (inMode : ∀ x ∈ (Locked.start cd settings d).heard db xs, (Event.message x.1 x.2).InMode)
    (defined : NumbersDefined settings.readOnly (view d)
      (requests 0 (delivered ((Locked.start cd settings d).heard db xs))))
    (ready : t.main = .ready) (free : ¬ t.Stuck) {schedule : ℕ → Action (Mem × Nat)}
    (quiet : ∀ i, Handoff.Threads.Quiet (schedule i)) (turns : Runs.Fair schedule .work)
    (timeouts : Runs.Fair schedule (.wake true)) :
    ∃ n u, Runs.run (Locked.step db) t (Runs.first schedule n) = .ok u ∧
      WorkedOff view settings.readOnly (view d) ((Locked.start cd settings d).heard db xs) u := by
  obtain ⟨d', os, serves⟩ :=
    Locked.serves backend accepts created bounded ran inMode defined (.inl ready) free
  have guarded := Locked.guarded ran
  have running : t.flag = false := by
    cases flag : t.flag with
    | false => rfl
    | true =>
      have stopped := guarded.flag.mp flag
      rw [ready] at stopped
      contradiction
  have there : t.work ≠ .returned := fun returned =>
    absurd (running.symm.trans (guarded.told returned)) (by decide)
  obtain ⟨n, u, later, served, kept⟩ := serves.drained running there quiet turns timeouts
  have whole : Runs.run (Locked.step db) (Locked.start cd settings d) (xs ++ Runs.first schedule n) = .ok u := by
    rw [Runs.run_append, ran]
    exact later
  have same : (Locked.start cd settings d).heard db (xs ++ Runs.first schedule n) =
      (Locked.start cd settings d).heard db xs := by
    have silent : Handoff.Threads.heard (threads db) t (Runs.first schedule n) = [] := by
      apply Handoff.Threads.heard_quiet
      intro x member
      obtain ⟨i, rfl⟩ := Runs.mem_first member
      exact quiet i
    rw [Locked.heard, Handoff.Threads.heard_append ran, silent, List.append_nil]
    rfl
  have done := Locked.workedOff backend accepts created bounded whole (same ▸ inMode) (same ▸ defined) kept.idle
    served
  exact ⟨n, u, later, same ▸ done⟩

/-- The database thread goes on and its wait times out, in turn. -/
def inTurn (i : ℕ) : Action (Mem × Nat) := if i % 2 = 0 then .work else .wake true

theorem inTurn_fair : Runs.Fair inTurn .work ∧ Runs.Fair inTurn (.wake true) := by
  constructor
  · intro i
    refine ⟨2 * i, by omega, ?_⟩
    rw [inTurn, if_pos (by omega)]
  · intro i
    refine ⟨2 * i + 1, by omega, ?_⟩
    rw [inTurn, if_neg (by omega)]

theorem setArrives_inMode : ∀ x ∈ (Locked.start emptyCache ⟨false⟩ fun _ => none).heard mapDb setArrives,
    (Event.message x.1 x.2).InMode := by
  intro x member
  obtain rfl := List.mem_singleton.mp member
  exact ⟨.set [65] [53, 0], by decide, by decide, show ReqInfo.cacheOnly _ = false by decide⟩

theorem setArrives_requests :
    requests 0 (delivered ((Locked.start emptyCache ⟨false⟩ fun _ => none).heard mapDb setArrives)) =
      [(⟨0, 0, 0x102, 2⟩, .set [65] [53, 0])] := by
  have heard : (Locked.start emptyCache ⟨false⟩ fun _ => none).heard mapDb setArrives =
      [(Mem.ofBytes [0x10, 0, 0, 0, 0x01, 0x02, 0, 2, 0, 0, 0, 1, 0, 0, 0, 2, 65, 53, 0], 19)] := rfl
  rw [heard]
  decide

theorem setArrives_defined : NumbersDefined false (fun _ => none)
    (requests 0 (delivered ((Locked.start emptyCache ⟨false⟩ fun _ => none).heard mapDb setArrives))) :=
  ⟨trivial, trivial⟩

theorem queue_worked_off_set : ∃ t n u,
    Runs.run (Locked.step mapDb) (Locked.start emptyCache ⟨false⟩ fun _ => none) setArrives = .ok t ∧
    Runs.run (Locked.step mapDb) t (Runs.first inTurn n) = .ok u ∧ u.queue = [] ∧
    u.consumer [65] = some [53, 0] := by
  obtain ⟨t, ran, ready, waiting⟩ : ∃ t,
      Runs.run (Locked.step mapDb) (Locked.start emptyCache ⟨false⟩ fun _ => none) setArrives = .ok t ∧
      t.main = .ready ∧ t.work = .waiting := ⟨_, rfl, rfl, rfl⟩
  have free : ¬ t.Stuck := by
    rintro ⟨_, locking⟩
    rw [waiting] at locking
    contradiction
  have quiet : ∀ i, Handoff.Threads.Quiet (inTurn i) := by
    intro i
    unfold inTurn
    split <;> trivial
  obtain ⟨n, u, later, done⟩ := queue_worked_off mapDb_backend (fun _ _ _ => rfl) emptyCache_created
    (fun k v held => by contradiction) ran setArrives_inMode setArrives_defined ready free quiet inTurn_fair.1
    inTurn_fair.2
  have database := done.database
  rw [setArrives_requests] at database
  exact ⟨t, n, u, ran, later, done.empty, congrFun database [65]⟩

/-- Once the main thread has stopped, the database thread returns with the queue worked off,
unless it has looked at the queue and something was put behind its look. -/
theorem shutdown_ends {db : DbConn δ} {view : δ → KV} (backend : MapBackend db view)
    (accepts : ∀ d k v, (db.set d k v).1 = true) {cdOk tableOk : Bool} {numobjs flags : Nat} {cd : Cache}
    (created : cacheCreate cdOk tableOk numobjs flags = some cd) {settings : Settings} {d : δ}
    (bounded : ∀ k v, view d k = some v → v.length ≤ 65536) {xs : List (Action (Mem × Nat))} {t : Locked δ}
    (ran : Runs.run (Locked.step db) (Locked.start cd settings d) xs = .ok t)
    (inMode : ∀ x ∈ (Locked.start cd settings d).heard db xs, (Event.message x.1 x.2).InMode)
    (defined : NumbersDefined settings.readOnly (view d)
      (requests 0 (delivered ((Locked.start cd settings d).heard db xs))))
    (stopped : t.main = .stopped) (free : ¬ t.Stuck) (looked : Handoff.Threads.missed t.work → t.queue = [])
    {schedule : ℕ → Action (Mem × Nat)} (closing : ∀ i, Handoff.Threads.Closing (schedule i))
    (turns : Runs.Fair schedule .work) (timeouts : Runs.Fair schedule (.wake true)) :
    ∃ n u, Runs.run (Locked.step db) t (Runs.first schedule n) = .ok u ∧ u.work = .returned ∧
      WorkedOff view settings.readOnly (view d) ((Locked.start cd settings d).heard db xs) u := by
  obtain ⟨d', os, serves⟩ :=
    Locked.serves backend accepts created bounded ran inMode defined (.inr stopped) free
  have told := (Locked.guarded ran).flag.mpr stopped
  obtain ⟨n, u, later, returned, empty, kept⟩ := serves.ended told looked closing turns timeouts
  have whole : Runs.run (Locked.step db) (Locked.start cd settings d) (xs ++ Runs.first schedule n) = .ok u := by
    rw [Runs.run_append, ran]
    exact later
  have same : (Locked.start cd settings d).heard db (xs ++ Runs.first schedule n) =
      (Locked.start cd settings d).heard db xs := by
    rw [Locked.heard, Handoff.Threads.heard_append ran, Handoff.Threads.heard_stopped stopped, List.append_nil]
    rfl
  have done := Locked.workedOff backend accepts created bounded whole (same ▸ inMode) (same ▸ defined) kept.idle
    ⟨by rw [returned]; rfl, empty⟩
  exact ⟨n, u, later, returned, same ▸ done⟩

theorem shutdown_ends_set : ∃ t n u,
    Runs.run (Locked.step mapDb) (Locked.start emptyCache ⟨false⟩ fun _ => none) (setArrives ++ [.stop]) = .ok t ∧
    Runs.run (Locked.step mapDb) t (Runs.first inTurn n) = .ok u ∧ u.work = .returned ∧
    u.consumer [65] = some [53, 0] := by
  obtain ⟨t, ran, stopped, waiting⟩ : ∃ t, Runs.run (Locked.step mapDb)
        (Locked.start emptyCache ⟨false⟩ fun _ => none) (setArrives ++ [.stop]) = .ok t ∧
      t.main = .stopped ∧ t.work = .waiting := ⟨_, rfl, rfl, rfl⟩
  have free : ¬ t.Stuck := by
    rintro ⟨_, locking⟩
    rw [waiting] at locking
    contradiction
  have looked : Handoff.Threads.missed t.work → t.queue = [] := by
    rw [waiting]
    exact fun miss => miss.elim
  have closing : ∀ i, Handoff.Threads.Closing (inTurn i) := by
    intro i
    unfold inTurn
    split
    · trivial
    · rfl
  obtain ⟨n, u, later, returned, done⟩ := shutdown_ends mapDb_backend (fun _ _ _ => rfl) emptyCache_created
    (fun k v held => by contradiction) ran setArrives_inMode setArrives_defined stopped free looked closing
    inTurn_fair.1 inTurn_fair.2
  have heard : (Locked.start emptyCache ⟨false⟩ fun _ => none).heard mapDb (setArrives ++ [.stop]) =
      (Locked.start emptyCache ⟨false⟩ fun _ => none).heard mapDb setArrives := rfl
  have database := done.database
  rw [heard, setArrives_requests] at database
  exact ⟨t, n, u, ran, later, returned, congrFun database [65]⟩

/-- A wait that fails with the mutex still held ends all work: whatever comes, nothing is put
into the queue and nothing is executed any more. -/
theorem failed_wait_blocks {db : DbConn δ} {cd : Cache} {settings : Settings} {d : δ}
    {xs ys : List (Action (Mem × Nat))} {t u v : Locked δ}
    (ran : Runs.run (Locked.step db) (Locked.start cd settings d) xs = .ok t) (waits : t.work = .testing false)
    (empty : t.queue = []) (failed : Locked.step db t (.fail true) = .ok u)
    (later : Runs.run (Locked.step db) u ys = .ok v) :
    v.work = .locking ∧ v.queue = [] ∧ v.consumer = t.consumer := by
  have guarded := Locked.guarded ran
  have owned := guarded.work (by rw [waits]; rfl)
  have blocks : u = { t with work := .locking } := by
    have nothing : t.queue.isEmpty = true := by rw [empty]; rfl
    simp only [Locked.step, Handoff.Threads.step, waits, nothing, if_true] at failed
    exact (Except.ok.inj failed).symm
  have stuck : u.Stuck := by
    rw [blocks]
    exact ⟨owned, rfl⟩
  obtain ⟨still, queue, consumer⟩ := stuck.run (guarded.step failed) later
  refine ⟨still.2, ?_, ?_⟩
  · rw [queue, blocks]
    exact empty
  · rw [consumer, blocks]

theorem failed_wait_blocks_set : ∃ t u v,
    Runs.run (Locked.step mapDb) (Locked.start emptyCache ⟨false⟩ fun _ => none) [.work] = .ok t ∧
    Locked.step mapDb t (.fail true) = .ok u ∧
    Runs.run (Locked.step mapDb) u (setArrives ++ [.work, .wake true]) = .ok v ∧
    v.work = .locking ∧ v.queue = [] := by
  obtain ⟨t, u, v, ran, waits, empty, failed, later⟩ : ∃ t u v,
      Runs.run (Locked.step mapDb) (Locked.start emptyCache ⟨false⟩ fun _ => none) [.work] = .ok t ∧
      t.work = .testing false ∧ t.queue = [] ∧ Locked.step mapDb t (.fail true) = .ok u ∧
      Runs.run (Locked.step mapDb) u (setArrives ++ [.work, .wake true]) = .ok v :=
    ⟨_, _, _, rfl, rfl, rfl, rfl, rfl⟩
  obtain ⟨locking, queue, _⟩ := failed_wait_blocks ran waits empty failed later
  exact ⟨t, u, v, ran, failed, later, locking, queue⟩

end Nmdb
