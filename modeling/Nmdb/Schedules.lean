import Nmdb.Alike
import Nmdb.OneReply
import Nmdb.Linearizability
import Nmdb.Lib.Handoff

/-! The two threads share only the operation queue. So it makes no difference to the cache,
to the database or to the replies when the database thread gets its turns. -/
namespace Nmdb

variable {δ ν : Type}

namespace Server

/-- The same server with entries queued and replies given before its own. -/
def behind (q : List (QueueEntry ν)) (rs : List (ReqInfo ν × Reply)) (s : Server ν) : Server ν :=
  { s with queue := q ++ s.queue, replies := rs ++ s.replies }

/-- The server as parsing finds it, whatever was queued and replied so far. -/
def bare (s : Server ν) : Server ν := { s with queue := [], replies := [] }

theorem map_ok {α β : Type} (f : α → β) (a : α) : f <$> (.ok a : Except Fault α) = .ok (f a) := rfl

theorem bare_behind (s : Server ν) : s.bare.behind s.queue s.replies = s := by
  simp [bare, behind]

theorem behind_alike (q : List (QueueEntry ν)) (rs : List (ReqInfo ν × Reply)) (s : Server ν) :
    Alike Eq id q rs s (s.behind q rs) where
  cache := rfl
  settings := rfl
  stats := rfl
  queue := congrArg (q ++ ·) (List.map_id _).symm
  replies := congrArg (rs ++ ·) (List.map_id _).symm

theorem Alike.behind {q : List (QueueEntry ν)} {rs : List (ReqInfo ν × Reply)} {s t : Server ν}
    (alike : Alike Eq id q rs s t) : t = s.behind q rs := by
  obtain ⟨cache, queue, stats, settings, replies⟩ := t
  obtain ⟨rfl, rfl, same, queued, replied⟩ := alike
  obtain rfl := same
  rw [Server.behind, Server.mk.injEq]
  exact ⟨rfl, queued.trans (congrArg (q ++ ·) (List.map_id _)), rfl, rfl,
    replied.trans (congrArg (rs ++ ·) (List.map_id _))⟩

end Server

open Server

/-- Parsing does not look at the queue or at the replies; it only adds to them. -/
theorem parseMessage_behind (m : Mallocs) (q : List (QueueEntry ν)) (rs : List (ReqInfo ν × Reply))
    (s : Server ν) (req : ReqInfo ν) (buf : Mem) (len : Nat) :
    parseMessage m (s.behind q rs) req buf len =
      Prod.map id (behind q rs) <$> parseMessage m s req buf len := by
  have counts : CountAlike Eq := fun f _ _ same => congrArg f same
  have agree : Runs.Agree (fun x y => y.1 = x.1 ∧ Alike Eq id q rs x.2 y.2) (parseMessage m s req buf len)
      (parseMessage m (s.behind q rs) req buf len) :=
    parseMessage_alike counts (behind_alike q rs s) _ buf len fun _ => rfl
  rcases agree.outcomes with ⟨e, fault, fault'⟩ | ⟨x, y, one, other, same, alike⟩
  · rw [fault, fault']
    rfl
  · rw [one, other, map_ok, ← Prod.mk.eta (p := y), same, alike.behind]
    rfl

/-- The main thread makes queue entries, and numbers the requests; the database thread works
them off. Both give replies. -/
def threads (db : DbConn δ) :
    Handoff.Machine (Server Nat × Nat) δ (Mem × Nat) (QueueEntry Nat) (ReqInfo Nat × Reply) Fault where
  produce := fun (s, n) (buf, len) => do
    let (_, t) ← parseMessage Mallocs.plenty s ⟨n, 0, 0, 0⟩ buf len
    return ((t.bare, n + 1), t.queue, t.replies)
  consume := fun d e => do
    let (d, r) ← processOp db true d e
    return (d, r.toList.map fun r => (e.req, r))

def System.threads (s : System δ) :
    Handoff.State (Server Nat × Nat) δ (QueueEntry Nat) (ReqInfo Nat × Reply) :=
  ⟨(s.server.bare, s.parsed), s.db, s.server.queue, s.hand, s.server.replies⟩

def Event.turn : Event → Handoff.Label (Mem × Nat)
  | .message buf len => .produce (buf, len)
  | .dequeue => .take
  | .execute => .work

/-- The messages of a run, whatever the database thread does between them. -/
def messages : List Event → List (Mem × Nat)
  | [] => []
  | .message buf len :: rest => (buf, len) :: messages rest
  | .dequeue :: rest => messages rest
  | .execute :: rest => messages rest

/-- The events of the main thread alone. -/
def delivered (msgs : List (Mem × Nat)) : List Event := msgs.map fun x => .message x.1 x.2

theorem requests_delivered (n : Nat) (evs : List Event) :
    requests n evs = requests n (delivered (messages evs)) := by
  induction evs generalizing n with
  | nil => rfl
  | cons ev rest ih =>
    cases ev with
    | message buf len => exact congrArg (_ ++ ·) (ih (n + 1))
    | dequeue => exact ih n
    | execute => exact ih n

theorem messages_append (xs ys : List Event) : messages (xs ++ ys) = messages xs ++ messages ys := by
  induction xs with
  | nil => rfl
  | cons ev xs ih =>
    cases ev with
    | message buf len => exact congrArg ((buf, len) :: ·) ih
    | dequeue => exact ih
    | execute => exact ih

theorem requests_append (n : Nat) (xs ys : List Event) :
    requests n (xs ++ ys) = requests n xs ++ requests (n + (messages xs).length) ys := by
  induction xs generalizing n with
  | nil => rfl
  | cons ev xs ih =>
    cases ev with
    | message buf len =>
      rw [List.cons_append, requests, ih, requests, List.append_assoc]
      simp only [messages, List.length_cons]
      rw [Nat.add_assoc, Nat.add_comm 1]
    | dequeue => exact ih n
    | execute => exact ih n

/-- The requests of fewer messages are the first ones. -/
theorem requests_prefix (n : Nat) {as bs : List Event} (front : messages as <+: messages bs) :
    requests n as <+: requests n bs := by
  obtain ⟨more, whole⟩ := front
  have parts : delivered (messages bs) = delivered (messages as) ++ delivered more := by
    rw [← whole]
    exact List.map_append
  rw [requests_delivered n as, requests_delivered n bs, parts, requests_append]
  exact List.prefix_append ..

theorem atomicRun_append (readOnly : Bool) (m : KV) (xs ys : List (ReqInfo Nat × Request)) :
    atomicRun readOnly m (xs ++ ys) = ((atomicRun readOnly (atomicRun readOnly m xs).1 ys).1,
      (atomicRun readOnly m xs).2 ++ (atomicRun readOnly (atomicRun readOnly m xs).1 ys).2) := by
  induction xs generalizing m with
  | nil => rfl
  | cons x xs ih =>
    obtain ⟨req, r⟩ := x
    simp only [List.cons_append, atomicRun, ih, List.append_assoc]

theorem numbersDefined_append {readOnly : Bool} {m : KV} {xs ys : List (ReqInfo Nat × Request)} :
    NumbersDefined readOnly m (xs ++ ys) ↔
      NumbersDefined readOnly m xs ∧ NumbersDefined readOnly (atomicRun readOnly m xs).1 ys := by
  induction xs generalizing m with
  | nil => exact (and_iff_right trivial).symm
  | cons x xs ih =>
    obtain ⟨req, r⟩ := x
    simp only [List.cons_append, NumbersDefined, atomicRun, ih, and_assoc]

section

variable {db : DbConn δ}

theorem inputs_turns (evs : List Event) : Handoff.inputs (evs.map Event.turn) = messages evs := by
  induction evs with
  | nil => rfl
  | cons ev rest ih =>
    cases ev with
    | message buf len => exact congrArg ((buf, len) :: ·) ih
    | dequeue => exact ih
    | execute => exact ih

theorem pending_threads (s : System δ) : s.threads.pending = s.pending := rfl

theorem step_message_threads (s : System δ) (buf : Mem) (len : Nat) :
    Handoff.step (threads db) s.threads (.produce (buf, len)) =
      System.threads <$> s.step db (.message buf len) := by
  have framed := parseMessage_behind Mallocs.plenty s.server.queue s.server.replies s.server.bare
    ⟨s.parsed, 0, 0, 0⟩ buf len
  rw [bare_behind] at framed
  have front : s.threads.producer = (s.server.bare, s.parsed) := rfl
  cases done : parseMessage Mallocs.plenty s.server.bare ⟨s.parsed, 0, 0, 0⟩ buf len with
  | error e =>
    rw [done] at framed
    have faults : s.step db (.message buf len) = .error e := by
      simp only [System.step, framed]
      rfl
    have made : (threads db).produce s.threads.producer (buf, len) = .error e := by
      rw [front]
      simp only [threads, done]
      rfl
    rw [faults]
    exact Handoff.step_produce_fault made
  | ok x =>
    obtain ⟨understood, t⟩ := x
    rw [done, map_ok] at framed
    have moved : s.step db (.message buf len) = .ok { s with
        server := behind s.server.queue s.server.replies t, parsed := s.parsed + 1 } := by
      simp only [System.step, framed, ok_bind, pure_ok, Prod.map_snd]
    have made : (threads db).produce s.threads.producer (buf, len) =
        .ok ((t.bare, s.parsed + 1), t.queue, t.replies) := by
      rw [front]
      simp only [threads, done, ok_bind, pure_ok]
    rw [moved, map_ok]
    exact Handoff.step_produce made

/-- A step of the system is a turn of its threads. -/
theorem step_threads (s : System δ) (ev : Event) :
    Handoff.step (threads db) s.threads ev.turn = System.threads <$> s.step db ev := by
  cases ev with
  | message buf len => exact step_message_threads s buf len
  | dequeue =>
    obtain ⟨⟨cache, queue, stats, settings, replies⟩, d, hand, parsed⟩ := s
    cases hand with
    | some e => rfl
    | none =>
      cases queue with
      | nil => rfl
      | cons e rest => rfl
  | execute =>
    obtain ⟨⟨cache, queue, stats, settings, replies⟩, d, hand, parsed⟩ := s
    cases hand with
    | none => rfl
    | some e =>
      simp only [Handoff.step, Event.turn, threads, System.step, System.threads]
      rcases processOp db true d e with fault | ⟨d', _ | r⟩
      · rfl
      · simp only [ok_bind, pure_ok, Option.toList_none, List.map_nil, List.append_nil]
        rfl
      · rfl

theorem run_threads (s : System δ) (evs : List Event) :
    Runs.run (Handoff.step (threads db)) s.threads (evs.map Event.turn) =
      System.threads <$> Runs.run (System.step db) s evs :=
  Runs.run_map step_threads s evs

end

section

variable {db : DbConn δ} {s t u : System δ} {as bs : List Event}

theorem turns_run (ran : Runs.run (System.step db) s as = .ok t) :
    Runs.run (Handoff.step (threads db)) s.threads (as.map Event.turn) = .ok t.threads := by
  rw [run_threads, ran]
  rfl

theorem same_inputs (same : messages as = messages bs) :
    Handoff.inputs (as.map Event.turn) = Handoff.inputs (bs.map Event.turn) := by
  rw [inputs_turns, inputs_turns, same]

/-- What the main thread leaves behind, apart from the queue. -/
theorem main_alike (same : messages as = messages bs) (ranT : Runs.run (System.step db) s as = .ok t)
    (ranU : Runs.run (System.step db) s bs = .ok u) : t.server.bare = u.server.bare ∧ t.parsed = u.parsed := by
  obtain ⟨_, _, _, _, _, madeT, _⟩ := Handoff.run_apart (turns_run ranT)
  obtain ⟨_, _, _, _, _, madeU, _⟩ := Handoff.run_apart (turns_run ranU)
  rw [same_inputs same, madeU] at madeT
  have producer : u.threads.producer = t.threads.producer := congrArg Prod.fst (Except.ok.inj madeT)
  exact ⟨(congrArg Prod.fst producer).symm, (congrArg Prod.snd producer).symm⟩

theorem settled_alike (same : messages as = messages bs) (ranT : Runs.run (System.step db) s as = .ok t)
    (ranU : Runs.run (System.step db) s bs = .ok u) (settledT : t.pending = []) (settledU : u.pending = []) :
    t.db = u.db ∧ t.server.replies.Perm u.server.replies := by
  obtain ⟨_, consumer, out⟩ := Handoff.settled_same (same_inputs same) (turns_run ranT)
    (turns_run ranU) settledT settledU
  exact ⟨consumer, out⟩

theorem runs_alike (same : messages as = messages bs) (ran : Runs.run (System.step db) s as = .ok t)
    (settled : t.pending = []) : ∃ u, Runs.run (System.step db) s bs = .ok u := by
  obtain ⟨items, _, done, _, _, made, all, eaten, _⟩ := Handoff.run_apart (turns_run ran)
  rw [pending_threads t, settled, List.append_nil] at all
  rw [← all] at eaten
  rw [same_inputs same] at made
  obtain ⟨v, ranV⟩ := Handoff.run_ok made eaten
  rw [run_threads] at ranV
  cases ranU : Runs.run (System.step db) s bs with
  | error e =>
    rw [ranU] at ranV
    contradiction
  | ok u => exact ⟨u, rfl⟩

/-- The replies given since there were n. -/
def System.given (s : System δ) (n : Nat) : List (ReqInfo Nat × Reply) := s.server.replies.drop n

/-- Replies are only added. -/
theorem run_given (ran : Runs.run (System.step db) s as = .ok t) :
    t.server.replies = s.server.replies ++ t.given s.server.replies.length := by
  obtain ⟨_, _, _, _, new, _, _, _, out, _⟩ := Handoff.run_apart (turns_run ran)
  have replies : t.server.replies = s.server.replies ++ new := out
  rw [System.given, replies, List.drop_left]

end

section

variable {db : DbConn δ} {s t : System δ} {evs : List Event}

theorem run_parsed (ran : Runs.run (System.step db) s evs = .ok t) :
    t.parsed = s.parsed + (messages evs).length := by
  induction evs generalizing s with
  | nil =>
    cases ran
    rfl
  | cons ev rest ih =>
    obtain ⟨u, taken, ran⟩ := Runs.run_cons_inv ran
    have later := ih ran
    cases ev with
    | message buf len =>
      obtain ⟨_, _, same⟩ := bind_eq_ok.mp taken
      cases same
      rw [later]
      simp only [messages, List.length_cons]
      omega
    | dequeue =>
      obtain ⟨_, _, _, _, _, parsed⟩ := System.step_dequeue taken
      rw [later, parsed]
      rfl
    | execute =>
      rcases System.step_execute taken with ⟨_, rfl⟩ | ⟨_, _, _, _, _, rfl⟩
      · exact later
      · exact later

theorem run_oneReply (one : s.OneReply) (ran : Runs.run (System.step db) s evs = .ok t) : t.OneReply := by
  induction evs generalizing s with
  | nil =>
    cases ran
    exact one
  | cons ev rest ih =>
    obtain ⟨u, taken, ran⟩ := Runs.run_cons_inv ran
    rw [← System.turn_plenty] at taken
    exact ih (one.turn taken) ran

/-- Once nothing is pending every request has been replied to. -/
theorem settled_replied (one : s.OneReply) (settled : s.pending = []) {n : Nat} (number : n < s.parsed) :
    ∃ req r, (req, r) ∈ s.server.replies ∧ req.net = n := by
  have count := one n
  have owed : s.owed n = [] := by
    rw [System.owed, settled]
    rfl
  rw [owed, if_pos number, List.length_nil, Nat.add_zero] at count
  obtain ⟨x, only⟩ := List.length_eq_one_iff.mp count
  have member : x ∈ s.answers n := by
    rw [only]
    exact List.mem_singleton_self x
  obtain ⟨given, same⟩ := List.mem_filter.mp member
  exact ⟨x.1, x.2, given, of_decide_eq_true same⟩

end

theorem mem_messages {evs : List Event} {x : Mem × Nat} : x ∈ messages evs ↔ Event.message x.1 x.2 ∈ evs := by
  induction evs with
  | nil => simp [messages]
  | cons ev rest ih =>
    cases ev with
    | message buf len =>
      simp only [messages, List.mem_cons, Event.message.injEq, ih]
      exact or_congr_left Prod.ext_iff
    | dequeue => simp [messages, ih]
    | execute => simp [messages, ih]

/-- Messages decide whether a run is one of database mode. -/
theorem inMode_messages {evs : List Event} :
    (∀ ev ∈ evs, ev.InMode) ↔ ∀ x ∈ messages evs, (Event.message x.1 x.2).InMode := by
  constructor
  · intro inMode x member
    exact inMode _ (mem_messages.mp member)
  · intro inMode ev member
    cases ev with
    | message buf len => exact inMode (buf, len) (mem_messages.mpr member)
    | dequeue => trivial
    | execute => trivial

theorem System.start_linear {view : δ → KV} {cdOk tableOk : Bool} {numobjs flags : Nat} {cd : Cache}
    (created : cacheCreate cdOk tableOk numobjs flags = some cd) (settings : Settings) {d : δ}
    (bounded : ∀ k v, view d k = some v → v.length ≤ 65536) :
    (System.start cd settings d).Linear view (view d) [] := by
  refine ⟨System.start_behind created settings d, rfl, ?_, ?_, trivial, ?_⟩
  · rintro k ⟨v, held, large⟩
    exact absurd (bounded k v held) (Nat.not_le_of_lt large)
  · intro e waiting
    exact (List.not_mem_nil waiting).elim
  · intro req reply member
    exact (List.not_mem_nil member).elim

section

variable {db : DbConn δ} {s t : System δ} {evs : List Event}

/-- The database thread holds nothing, and at most n entries wait for it. -/
def System.IdleBut (s : System δ) (n : Nat) : Prop :=
  s.server.cache.Listed ∧ s.hand = none ∧ s.server.queue.length ≤ n

theorem System.IdleBut.message {n : Nat} {buf : Mem} {len : Nat} (idle : s.IdleBut n)
    (inMode : (Event.message buf len).InMode)
    (ran : Runs.run (System.step db) s (.message buf len :: evs) = .ok t) :
    ∃ u, u.IdleBut (n + 1) ∧ Runs.run (System.step db) u evs = .ok t := by
  obtain ⟨listed, hand, queue⟩ := idle
  obtain ⟨u, taken, ran⟩ := Runs.run_cons_inv ran
  obtain ⟨r, _, _, outcome, _, handU, _⟩ := System.step_message taken inMode listed
  obtain ⟨e, _, _, queueU, _⟩ := outcome.served
  have longer : u.server.queue.length ≤ s.server.queue.length + 1 := by
    rw [queueU, List.length_append]
    cases e <;> simp
  exact ⟨u, ⟨outcome.listed, handU.trans hand, by omega⟩, ran⟩

theorem System.IdleBut.turn {n : Nat} (idle : s.IdleBut n)
    (ran : Runs.run (System.step db) s (.dequeue :: .execute :: evs) = .ok t) :
    ∃ u, u.IdleBut (n - 1) ∧ Runs.run (System.step db) u evs = .ok t := by
  obtain ⟨listed, hand, queue⟩ := idle
  obtain ⟨u, taken, ran⟩ := Runs.run_cons_inv ran
  obtain ⟨v, executed, ran⟩ := Runs.run_cons_inv ran
  rw [System.step, hand] at taken
  cases waiting : s.server.queue with
  | nil =>
    rw [waiting] at taken
    cases taken
    rw [System.step, hand] at executed
    cases executed
    exact ⟨s, ⟨listed, hand, by simp [waiting]⟩, ran⟩
  | cons e rest =>
    rw [waiting] at taken queue
    cases taken
    rcases System.step_execute executed with ⟨busy, _⟩ | ⟨_, _, _, _, _, rfl⟩
    · contradiction
    · refine ⟨_, ?_, ran⟩
      exact ⟨listed, rfl, Nat.le_sub_of_add_le queue⟩

theorem System.IdleBut.settled (idle : s.IdleBut 0) : s.pending = [] := by
  obtain ⟨_, hand, queue⟩ := idle
  rw [System.pending, hand, List.length_eq_zero_iff.mp (Nat.le_zero.mp queue)]
  rfl

theorem System.start_idle {cdOk tableOk : Bool} {numobjs flags : Nat} {cd : Cache}
    (created : cacheCreate cdOk tableOk numobjs flags = some cd) (settings : Settings) (d : δ) :
    (System.start cd settings d).IdleBut 0 :=
  ⟨(cacheCreate_listed created).1, rfl, Nat.le_refl 0⟩

end

theorem setAndIncrement_inMode : ∀ ev ∈ setAndIncrement, ev.InMode := by
  intro ev member
  simp only [setAndIncrement, List.mem_cons, List.not_mem_nil, or_false] at member
  rcases member with rfl | rfl | rfl | rfl | rfl | rfl
  · exact ⟨.set [65] [53, 0], by decide, by decide, show ReqInfo.cacheOnly _ = false by decide⟩
  · exact ⟨.incr [65] 2, by decide, by decide, show ReqInfo.cacheOnly _ = false by decide⟩
  · trivial
  · trivial
  · trivial
  · trivial

theorem setAndIncrement_defined : NumbersDefined false (fun _ => none) (requests 0 setAndIncrement) := by
  rw [setAndIncrement_requests]
  refine ⟨trivial, fun v held => ?_, trivial⟩
  obtain rfl : [53, 0] = v := Option.some.inj held
  exact ⟨by decide, fun _ => by unfold InInt64; decide⟩

/-- The synchronous SET and the INCR, each executed before the next message. -/
def setThenIncrement : List Event :=
  [.message (Mem.ofBytes [0x10, 0, 0, 0, 0x01, 0x02, 0, 2, 0, 0, 0, 1, 0, 0, 0, 2, 65, 53, 0]) 19,
    .dequeue, .execute,
    .message (Mem.ofBytes [0x10, 0, 0, 1, 0x01, 0x05, 0, 0, 0, 0, 0, 1, 65, 0, 0, 0, 0, 0, 0, 0, 2]) 21,
    .dequeue, .execute]

theorem setThenIncrement_messages : messages setAndIncrement = messages setThenIncrement := by
  simp only [setAndIncrement, setThenIncrement, messages]

theorem setThenIncrement_inMode : ∀ ev ∈ setThenIncrement, ev.InMode := by
  apply inMode_messages.mpr
  rw [← setThenIncrement_messages]
  exact inMode_messages.mp setAndIncrement_inMode

theorem setAndIncrement_settled : ∃ t,
    Runs.run (System.step mapDb) (System.start emptyCache ⟨false⟩ fun _ => none) setAndIncrement = .ok t ∧
    t.pending = [] := by
  have initial : (System.start emptyCache ⟨false⟩ fun _ => none).Linear id (fun _ => none) [] :=
    System.start_linear emptyCache_created ⟨false⟩ fun k v held => by contradiction
  obtain ⟨t, ran⟩ := (initial.run mapDb_backend (fun _ _ _ => rfl) _ setAndIncrement_inMode
    setAndIncrement_defined).1 (by decide)
  have inMode := setAndIncrement_inMode
  simp only [setAndIncrement, List.forall_mem_cons] at inMode
  obtain ⟨_, idle, later⟩ := (System.start_idle emptyCache_created ⟨false⟩ _).message inMode.1 ran
  obtain ⟨_, idle, later⟩ := idle.message inMode.2.1 later
  obtain ⟨_, idle, later⟩ := idle.turn later
  obtain ⟨_, idle, later⟩ := idle.turn later
  cases later
  exact ⟨t, ran, idle.settled⟩

theorem setThenIncrement_settled : ∃ t,
    Runs.run (System.step mapDb) (System.start emptyCache ⟨false⟩ fun _ => none) setThenIncrement = .ok t ∧
    t.pending = [] := by
  have initial : (System.start emptyCache ⟨false⟩ fun _ => none).Linear id (fun _ => none) [] :=
    System.start_linear emptyCache_created ⟨false⟩ fun k v held => by contradiction
  obtain ⟨t, ran⟩ := (initial.run mapDb_backend (fun _ _ _ => rfl) _ setThenIncrement_inMode
    setAndIncrement_defined).1 (by decide)
  have inMode := setThenIncrement_inMode
  simp only [setThenIncrement, List.forall_mem_cons] at inMode
  obtain ⟨_, idle, later⟩ := (System.start_idle emptyCache_created ⟨false⟩ _).message inMode.1 ran
  obtain ⟨_, idle, later⟩ := idle.turn later
  obtain ⟨_, idle, later⟩ := idle.message inMode.2.2.2.1 later
  obtain ⟨_, idle, later⟩ := idle.turn later
  cases later
  exact ⟨t, ran, idle.settled⟩

/-- Two runs on the same messages end with the same cache and counters, whenever the database
thread got its turns; and once all entries are executed, with the same database and the
same replies, in some order. Neither faults where the other does not. -/
theorem schedule_independent (db : DbConn δ) (s : System δ) {as bs : List Event}
    (same : messages as = messages bs) :
    (∀ t u, Runs.run (System.step db) s as = .ok t → Runs.run (System.step db) s bs = .ok u →
      t.server.cache = u.server.cache ∧ t.server.stats = u.server.stats ∧ t.parsed = u.parsed ∧
      (t.pending = [] → u.pending = [] → t.db = u.db ∧ t.server.replies.Perm u.server.replies)) ∧
    ∀ t, Runs.run (System.step db) s as = .ok t → t.pending = [] →
      ∃ u, Runs.run (System.step db) s bs = .ok u := by
  constructor
  · intro t u ranT ranU
    obtain ⟨bare, parsed⟩ := main_alike same ranT ranU
    have cache : t.server.bare.cache = u.server.bare.cache := congrArg Server.cache bare
    have stats : t.server.bare.stats = u.server.bare.stats := congrArg Server.stats bare
    exact ⟨cache, stats, parsed, settled_alike same ranT ranU⟩
  · intro t ran settled
    exact runs_alike same ran settled

theorem schedule_independent_increment : ∃ t u,
    Runs.run (System.step mapDb) (System.start emptyCache ⟨false⟩ fun _ => none) setAndIncrement = .ok t ∧
    Runs.run (System.step mapDb) (System.start emptyCache ⟨false⟩ fun _ => none) setThenIncrement = .ok u ∧
    t.server.cache = u.server.cache ∧ t.db = u.db ∧ t.server.replies.Perm u.server.replies := by
  obtain ⟨t, ranT, settledT⟩ := setAndIncrement_settled
  obtain ⟨u, ranU, settledU⟩ := setThenIncrement_settled
  obtain ⟨alike, _⟩ := schedule_independent mapDb (System.start emptyCache ⟨false⟩ fun _ => none)
    setThenIncrement_messages
  obtain ⟨cache, _, _, settled⟩ := alike t u ranT ranU
  exact ⟨t, u, ranT, ranU, cache, settled settledT settledU⟩

end Nmdb
