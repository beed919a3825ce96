import Nmdb.Lib.Handoff
import Nmdb.Lib.Fairness

/-! The handoff of a producer to a consumer with a mutex and a condition variable, one
access to shared state at a time. The consumer waits for an item or for a time-out, and
returns when it finds the queue empty and then finds itself told to stop. -/
namespace Handoff

/-- Where the producer is. Behind a message it has items to hand over and outputs to give. -/
inductive ProducerPc (I O : Type) where
  | ready
  | locking (i : I) (items : List I) (os : List O)
  | putting (i : I) (items : List I) (os : List O)
  | unlocking (items : List I) (os : List O)
  | signalling (items : List I) (os : List O)
  | saying (os : List O)
  | stopped

inductive ConsumerPc (I : Type) where
  | locking
  | testing (timedOut : Bool)
  | waiting
  | getting
  | unlocking (e : Option I)
  | testingEntry (e : Option I)
  | testingFlag
  | processing (i : I)
  | returned

namespace ProducerPc

variable {I O : Type}

def handing : List I → List O → ProducerPc I O
  | [], os => .saying os
  | i :: items, os => .locking i items os

def holds : ProducerPc I O → Bool
  | .putting _ _ _ => true
  | .unlocking _ _ => true
  | _ => false

/-- The items not yet put. -/
def inFlight : ProducerPc I O → List I
  | .locking i items _ => i :: items
  | .putting i items _ => i :: items
  | .unlocking items _ => items
  | .signalling items _ => items
  | _ => []

/-- The outputs not yet given. -/
def unsaid : ProducerPc I O → List O
  | .locking _ _ os => os
  | .putting _ _ os => os
  | .unlocking _ os => os
  | .signalling _ os => os
  | .saying os => os
  | _ => []

@[simp] theorem handing_inFlight (items : List I) (os : List O) : (handing items os).inFlight = items := by
  cases items <;> rfl

@[simp] theorem handing_unsaid (items : List I) (os : List O) : (handing items os).unsaid = os := by
  cases items <;> rfl

@[simp] theorem handing_holds (items : List I) (os : List O) : (handing items os).holds = false := by
  cases items <;> rfl

theorem idle_nothing {pc : ProducerPc I O} (idle : pc = .ready ∨ pc = .stopped) :
    pc.inFlight = [] ∧ pc.unsaid = [] := by
  rcases idle with rfl | rfl
  · exact ⟨rfl, rfl⟩
  · exact ⟨rfl, rfl⟩

end ProducerPc

namespace ConsumerPc

variable {I : Type}

def holds : ConsumerPc I → Bool
  | .testing _ => true
  | .getting => true
  | .unlocking _ => true
  | _ => false

def inHand : ConsumerPc I → Option I
  | .unlocking e => e
  | .testingEntry e => e
  | .processing i => some i
  | _ => none

end ConsumerPc

inductive Owner where
  | producer
  | consumer
  deriving DecidableEq

structure Threads (P C I O : Type) where
  producer : P
  consumer : C
  queue : List I
  lock : Option Owner
  flag : Bool
  main : ProducerPc I O
  work : ConsumerPc I
  out : List O

/-- What happens next: a message comes, one of the threads goes on, the wait ends by a signal
or by its time-out, it fails with the mutex still held or released, the producer stops. -/
inductive Action (A : Type) where
  | message (a : A)
  | main
  | stop
  | work
  | wake (timedOut : Bool)
  | fail (keeps : Bool)

namespace Threads

variable {P C A I O E : Type} (m : Machine P C A I O E)

def start (p : P) (c : C) : Threads P C I O := ⟨p, c, [], none, false, .ready, .locking, []⟩

/-- The producer goes on. A thread that needs the lock another one has stays where it is. -/
def stepMain (s : Threads P C I O) : Threads P C I O :=
  match s.main with
  | .ready => s
  | .locking i items os =>
    if s.lock = none then { s with lock := some .producer, main := .putting i items os } else s
  | .putting i items os => { s with queue := s.queue ++ [i], main := .unlocking items os }
  | .unlocking items os => { s with lock := none, main := .signalling items os }
  | .signalling items os => { s with main := .handing items os }
  | .saying os => { s with main := .ready, out := s.out ++ os }
  | .stopped => s

def stepWork (s : Threads P C I O) : Except E (Threads P C I O) :=
  match s.work with
  | .locking => .ok (if s.lock = none then { s with lock := some .consumer, work := .testing false } else s)
  | .testing timedOut =>
    .ok (if s.queue.isEmpty && !timedOut then { s with lock := none, work := .waiting }
      else { s with work := .getting })
  | .waiting => .ok s
  | .getting => .ok { s with work := .unlocking s.queue.head?, queue := s.queue.tail }
  | .unlocking e => .ok { s with lock := none, work := .testingEntry e }
  | .testingEntry none => .ok { s with work := .testingFlag }
  | .testingEntry (some i) => .ok { s with work := .processing i }
  | .testingFlag => .ok (if s.flag then { s with work := .returned } else { s with work := .locking })
  | .processing i =>
    match m.consume s.consumer i with
    | .ok (c, os) => .ok { s with consumer := c, work := .locking, out := s.out ++ os }
    | .error e => .error e
  | .returned => .ok s

def step (s : Threads P C I O) : Action A → Except E (Threads P C I O)
  | .message a =>
    match s.main with
    | .ready =>
      match m.produce s.producer a with
      | .ok (p, items, os) => .ok { s with producer := p, main := .handing items os }
      | .error e => .error e
    | _ => .ok s
  | .main => .ok s.stepMain
  | .stop =>
    match s.main with
    | .ready => .ok { s with main := .stopped, flag := true }
    | _ => .ok s
  | .work => s.stepWork m
  | .wake timedOut =>
    match s.work with
    | .waiting =>
      .ok (if s.lock = none then { s with lock := some .consumer, work := .testing timedOut } else s)
    | _ => .ok s
  | .fail keeps =>
    match s.work with
    | .testing false =>
      .ok (if s.queue.isEmpty then { s with work := .locking, lock := if keeps then s.lock else none } else s)
    | _ => .ok s

/-- The message a turn brings; one that comes while the producer is busy is not read yet. -/
def hears (s : Threads P C I O) : Action A → List A
  | .message a =>
    match s.main with
    | .ready => [a]
    | _ => []
  | _ => []

/-- The messages read in a run. -/
def heard (s : Threads P C I O) : List (Action A) → List A
  | [] => []
  | x :: rest => s.hears x ++
    match s.step m x with
    | .ok t => heard t rest
    | .error _ => []

/-- The handoff a state of the threads stands for. What the producer has in flight counts as
handed over; what it has not yet said counts as said. -/
structure Simulates (s : Threads P C I O) (h : State P C I O) : Prop where
  producer : h.producer = s.producer
  consumer : h.consumer = s.consumer
  waiting : h.waiting = s.queue ++ s.main.inFlight
  hand : h.hand = s.work.inHand
  out : h.out.Perm (s.out ++ s.main.unsaid)

variable {m} {s t : Threads P C I O} {h : State P C I O}

theorem heard_append {xs : List (Action A)} (ran : Runs.run (step m) s xs = .ok t) (ys : List (Action A)) :
    heard m s (xs ++ ys) = heard m s xs ++ heard m t ys := by
  induction xs generalizing s with
  | nil =>
    cases ran
    rfl
  | cons x xs ih =>
    obtain ⟨u, moved, ran⟩ := Runs.run_cons_inv ran
    simp only [List.cons_append, heard, moved, ih ran, List.append_assoc]

theorem start_simulates (p : P) (c : C) : Simulates (start p c : Threads P C I O) ⟨p, c, [], none, []⟩ :=
  ⟨rfl, rfl, rfl, rfl, .nil⟩

/- A step of the threads that is none of the handoff. -/
theorem Simulates.still (sim : Simulates s h) (producer : t.producer = s.producer)
    (consumer : t.consumer = s.consumer) (waiting : t.queue ++ t.main.inFlight = s.queue ++ s.main.inFlight)
    (hand : t.work.inHand = s.work.inHand) (out : t.out ++ t.main.unsaid = s.out ++ s.main.unsaid) :
    Simulates t h := by
  constructor
  case producer => exact sim.producer.trans producer.symm
  case consumer => exact sim.consumer.trans consumer.symm
  case waiting => exact sim.waiting.trans waiting.symm
  case hand => exact sim.hand.trans hand.symm
  case out => exact out ▸ sim.out

/- The producer between two messages is for itself. -/
theorem Simulates.main (sim : Simulates s h) : Simulates s.stepMain h := by
  unfold stepMain
  split
  case h_1 | h_7 => exact sim
  case h_2 i items os here =>
    split
    · exact sim.still rfl rfl (by rw [here]; rfl) rfl (by rw [here]; rfl)
    · exact sim
  case h_3 i items os here =>
    refine sim.still rfl rfl ?_ rfl (by rw [here]; rfl)
    simp only [here, ProducerPc.inFlight, List.append_assoc, List.singleton_append]
  case h_4 items os here => exact sim.still rfl rfl (by rw [here]; rfl) rfl (by rw [here]; rfl)
  case h_5 items os here =>
    refine sim.still rfl rfl ?_ rfl ?_
    · rw [here, ProducerPc.handing_inFlight]
      rfl
    · rw [here, ProducerPc.handing_unsaid]
      rfl
  case h_6 os here =>
    refine sim.still rfl rfl (by rw [here]; rfl) rfl ?_
    simp only [here, ProducerPc.unsaid, List.append_nil]

theorem Simulates.get (sim : Simulates s h) (here : s.work = .getting) :
    ∃ ls h', inputs ls = ([] : List A) ∧ Runs.run (Handoff.step m) h ls = .ok h' ∧
      Simulates { s with work := .unlocking s.queue.head?, queue := s.queue.tail } h' := by
  have hand := sim.hand
  have waiting := sim.waiting
  rw [here] at hand
  cases queue : s.queue with
  | nil => exact ⟨[], h, rfl, rfl, sim.still rfl rfl (by rw [queue]; rfl) (by rw [here]; rfl) rfl⟩
  | cons i rest =>
    rw [queue] at waiting
    have takes : Handoff.step m h (.take : Label A) =
        .ok { h with hand := some i, waiting := rest ++ s.main.inFlight } := by
      simp only [Handoff.step, hand, ConsumerPc.inHand, waiting, List.cons_append]
    exact ⟨[.take], _, rfl, (Runs.run_cons_ok takes).trans rfl, sim.producer, sim.consumer, rfl, rfl, sim.out⟩

theorem Simulates.process (sim : Simulates s h) {i : I} (here : s.work = .processing i) {c : C} {os : List O}
    (consumed : m.consume s.consumer i = .ok (c, os)) :
    ∃ ls h', inputs ls = ([] : List A) ∧ Runs.run (Handoff.step m) h ls = .ok h' ∧
      Simulates { s with consumer := c, work := .locking, out := s.out ++ os } h' := by
  have hand := sim.hand
  rw [here] at hand
  have works : Handoff.step m h (.work : Label A) =
      .ok { h with consumer := c, hand := none, out := h.out ++ os } := by
    simp only [Handoff.step, hand, ConsumerPc.inHand, sim.consumer, consumed]
  refine ⟨[.work], _, rfl, (Runs.run_cons_ok works).trans rfl, sim.producer, rfl, sim.waiting, rfl, ?_⟩
  have given : (h.out ++ os).Perm (s.out ++ s.main.unsaid ++ os) := sim.out.append_right os
  apply given.trans
  simp only [List.append_assoc]
  exact List.perm_append_comm.append_left s.out

/-- The consumer takes an item where it finds one, and works where it processes it. -/
theorem Simulates.work (sim : Simulates s h) (moved : s.stepWork m = .ok t) :
    ∃ ls h', inputs ls = ([] : List A) ∧ Runs.run (Handoff.step m) h ls = .ok h' ∧ Simulates t h' := by
  unfold stepWork at moved
  split at moved
  case h_4 here =>
    cases moved
    exact sim.get here
  case h_9 i here =>
    split at moved
    case h_1 c os consumed =>
      cases moved
      exact sim.process here consumed
    case h_2 => contradiction
  all_goals
    rename_i here
    cases moved
    refine ⟨[], h, rfl, rfl, ?_⟩
  case h_1 | h_2 | h_8 =>
    split
    all_goals first | exact sim | exact sim.still rfl rfl rfl (by rw [here]; rfl) rfl
  case h_3 | h_10 => exact sim
  all_goals exact sim.still rfl rfl rfl (by rw [here]; rfl) rfl

/-- A turn of the threads is a step of the handoff, or none. -/
theorem Simulates.turn (sim : Simulates s h) {x : Action A} (moved : s.step m x = .ok t) :
    ∃ ls h', inputs ls = s.hears x ∧ Runs.run (Handoff.step m) h ls = .ok h' ∧ Simulates t h' := by
  cases x with
  | message a =>
    simp only [step] at moved
    split at moved
    case h_1 here =>
      split at moved
      case h_2 => contradiction
      case h_1 p items os made =>
        have waiting := sim.waiting
        have out := sim.out
        rw [← sim.producer] at made
        cases moved
        rw [here] at waiting out
        simp only [ProducerPc.inFlight, ProducerPc.unsaid, List.append_nil] at waiting out
        refine ⟨[.produce a], _, ?_, (Runs.run_cons_ok (Handoff.step_produce made)).trans rfl, ?_⟩
        · simp only [hears, here, inputs]
        · constructor
          case producer => rfl
          case consumer => exact sim.consumer
          case waiting => simp only [ProducerPc.handing_inFlight, waiting]
          case hand => exact sim.hand
          case out =>
            simp only [ProducerPc.handing_unsaid]
            exact out.append_right os
    case h_2 =>
      cases moved
      refine ⟨[], h, ?_, rfl, sim⟩
      simp only [hears, inputs]
  | main =>
    cases moved
    exact ⟨[], h, rfl, rfl, sim.main⟩
  | stop =>
    simp only [step] at moved
    split at moved
    case h_1 here =>
      cases moved
      exact ⟨[], h, rfl, rfl, sim.still rfl rfl (by rw [here]; rfl) rfl (by rw [here]; rfl)⟩
    case h_2 =>
      cases moved
      exact ⟨[], h, rfl, rfl, sim⟩
  | work => exact sim.work moved
  | wake timedOut | fail keeps =>
    simp only [step] at moved
    split at moved
    case h_1 here =>
      cases moved
      refine ⟨[], h, rfl, rfl, ?_⟩
      split
      · exact sim.still rfl rfl rfl (by rw [here]; rfl) rfl
      · exact sim
    case h_2 =>
      cases moved
      exact ⟨[], h, rfl, rfl, sim⟩

/-- Every run of the threads is one of the handoff on the same messages. -/
theorem Simulates.run (sim : Simulates s h) {xs : List (Action A)} (ran : Runs.run (step m) s xs = .ok t) :
    ∃ ls h', inputs ls = heard m s xs ∧ Runs.run (Handoff.step m) h ls = .ok h' ∧ Simulates t h' := by
  induction xs generalizing s h with
  | nil =>
    cases ran
    exact ⟨[], h, rfl, rfl, sim⟩
  | cons x xs ih =>
    obtain ⟨u, moved, ran⟩ := Runs.run_cons_inv ran
    obtain ⟨ls, h', first, ran', sim'⟩ := sim.turn moved
    obtain ⟨ls', h'', later, ran'', sim''⟩ := ih sim' ran
    refine ⟨ls ++ ls', h'', ?_, ?_, sim''⟩
    · rw [inputs_append, first, later]
      simp only [heard, moved]
    · rw [Runs.run_append, ran']
      exact ran''

/- The mutex. -/

/-- A thread is inside when it has the mutex. A wait that failed with the mutex held leaves it
to a consumer that locks it again. The flag is set once the producer has stopped. -/
structure Guarded (s : Threads P C I O) : Prop where
  main : s.lock = some .producer ↔ s.main.holds = true
  work : s.work.holds = true → s.lock = some .consumer
  held : s.lock = some .consumer → s.work.holds = true ∨ s.work = .locking
  flag : s.flag = true ↔ s.main = .stopped
  told : s.work = .returned → s.flag = true

theorem start_guarded (p : P) (c : C) : (start p c : Threads P C I O).Guarded := by
  constructor
  case flag => exact ⟨fun set => by contradiction, fun same => by contradiction⟩
  all_goals simp [start, ProducerPc.holds, ConsumerPc.holds]

theorem handing_ne_stopped (items : List I) (os : List O) : ProducerPc.handing items os ≠ .stopped := by
  cases items <;> exact fun same => by contradiction

theorem Guarded.stepMain (guarded : s.Guarded) : s.stepMain.Guarded := by
  obtain ⟨main, work, held, flag, told⟩ := guarded
  unfold Threads.stepMain
  split
  case h_1 | h_7 => exact ⟨main, work, held, flag, told⟩
  case h_2 i items os here =>
    split
    case isTrue free => constructor <;> simp_all [ProducerPc.holds]
    case isFalse => exact ⟨main, work, held, flag, told⟩
  case h_5 items os here =>
    have outside : s.main.holds = false := by
      rw [here]
      rfl
    have goesOn : s.main ≠ .stopped := by
      rw [here]
      exact fun same => by contradiction
    constructor
    case main =>
      rw [ProducerPc.handing_holds, ← outside]
      exact main
    case work => exact work
    case held => exact held
    case flag => simpa [goesOn, handing_ne_stopped] using flag
    case told => exact told
  all_goals constructor <;> simp_all [ProducerPc.holds]

theorem Guarded.stepWork (guarded : s.Guarded) (moved : s.stepWork m = .ok t) : t.Guarded := by
  obtain ⟨main, work, held, flag, told⟩ := guarded
  unfold Threads.stepWork at moved
  split at moved
  case h_9 i here =>
    split at moved
    case h_1 c os consumed =>
      cases moved
      constructor <;> simp_all [ConsumerPc.holds]
    case h_2 => contradiction
  all_goals cases moved
  case h_3 | h_10 => exact ⟨main, work, held, flag, told⟩
  case h_1 | h_2 | h_8 =>
    split
    all_goals constructor <;> simp_all [ConsumerPc.holds]
  all_goals constructor <;> simp_all [ConsumerPc.holds]

theorem Guarded.step (guarded : s.Guarded) {x : Action A} (moved : s.step m x = .ok t) : t.Guarded := by
  cases x with
  | main =>
    cases moved
    exact guarded.stepMain
  | work => exact guarded.stepWork moved
  | message a =>
    simp only [Threads.step] at moved
    split at moved
    case h_2 =>
      cases moved
      exact guarded
    case h_1 here =>
      split at moved
      case h_2 => contradiction
      case h_1 p items os made =>
        cases moved
        obtain ⟨main, work, held, flag, told⟩ := guarded
        rw [here] at main flag
        constructor
        case main =>
          rw [ProducerPc.handing_holds]
          exact main
        case work => exact work
        case held => exact held
        case flag => simpa [handing_ne_stopped] using flag
        case told => exact told
  | stop =>
    simp only [Threads.step] at moved
    obtain ⟨main, work, held, flag, told⟩ := guarded
    split at moved
    case h_2 =>
      cases moved
      exact ⟨main, work, held, flag, told⟩
    case h_1 here =>
      cases moved
      rw [here] at main
      exact ⟨main, work, held, by simp, fun _ => rfl⟩
  | wake timedOut | fail keeps =>
    simp only [Threads.step] at moved
    obtain ⟨main, work, held, flag, told⟩ := guarded
    split at moved
    case h_2 =>
      cases moved
      exact ⟨main, work, held, flag, told⟩
    case h_1 here =>
      cases moved
      split
      case isFalse => exact ⟨main, work, held, flag, told⟩
      case isTrue => constructor <;> simp_all [ConsumerPc.holds]

theorem Guarded.run (guarded : s.Guarded) {xs : List (Action A)} (ran : Runs.run (Threads.step m) s xs = .ok t) :
    t.Guarded :=
  Runs.run_invariant (P := fun _ _ => True) (fun _ _ _ guarded _ moved => guarded.step moved) guarded
    (Runs.Along.always (fun _ _ => trivial) s xs) ran

/-- The two threads are never inside together. -/
theorem Guarded.exclusive (guarded : s.Guarded) : ¬ (s.main.holds = true ∧ s.work.holds = true) := by
  rintro ⟨main, work⟩
  have owned := (guarded.main.mpr main).symm.trans (guarded.work work)
  contradiction

/-- The consumer is about to lock a mutex that it has. -/
def Stuck (s : Threads P C I O) : Prop := s.lock = some .consumer ∧ s.work = .locking

/-- Then neither thread gets at the queue any more. -/
theorem Stuck.step (stuck : s.Stuck) (guarded : s.Guarded) {x : Action A} (moved : s.step m x = .ok t) :
    t.Stuck ∧ t.queue = s.queue ∧ t.consumer = s.consumer := by
  obtain ⟨owned, here⟩ := stuck
  have outside : s.main.holds = false := by
    cases holds : s.main.holds with
    | false => rfl
    | true => exact absurd ((guarded.main.mpr holds).symm.trans owned) (by decide)
  cases x with
  | main =>
    cases moved
    unfold Threads.stepMain
    split
    case h_3 i items os at_put | h_4 items os at_put =>
      rw [at_put] at outside
      contradiction
    case h_2 =>
      rw [if_neg (by rw [owned]; decide)]
      exact ⟨⟨owned, here⟩, rfl, rfl⟩
    all_goals exact ⟨⟨owned, here⟩, rfl, rfl⟩
  | work =>
    simp only [Threads.step, Threads.stepWork, here, owned, reduceCtorEq, if_false] at moved
    cases moved
    exact ⟨⟨owned, here⟩, rfl, rfl⟩
  | message a =>
    simp only [Threads.step] at moved
    split at moved
    · split at moved
      · cases moved
        exact ⟨⟨owned, here⟩, rfl, rfl⟩
      · contradiction
    · cases moved
      exact ⟨⟨owned, here⟩, rfl, rfl⟩
  | stop =>
    simp only [Threads.step] at moved
    split at moved
    all_goals
      cases moved
      exact ⟨⟨owned, here⟩, rfl, rfl⟩
  | wake timedOut | fail keeps =>
    simp only [Threads.step, here] at moved
    cases moved
    exact ⟨⟨owned, here⟩, rfl, rfl⟩

theorem Stuck.run (stuck : s.Stuck) (guarded : s.Guarded) {xs : List (Action A)}
    (ran : Runs.run (Threads.step m) s xs = .ok t) : t.Stuck ∧ t.queue = s.queue ∧ t.consumer = s.consumer := by
  induction xs generalizing s with
  | nil =>
    cases ran
    exact ⟨stuck, rfl, rfl⟩
  | cons x xs ih =>
    obtain ⟨u, moved, ran⟩ := Runs.run_cons_inv ran
    obtain ⟨stuck', queue, consumer⟩ := stuck.step guarded moved
    obtain ⟨stuck'', queue', consumer'⟩ := ih stuck' (guarded.step moved) ran
    exact ⟨stuck'', queue'.trans queue, consumer'.trans consumer⟩

/- What is in the queue gets processed. -/

/-- The threads with a certain state of the consumer, and certain outputs, before them. -/
structure Serves (m : Machine P C A I O E) (c : C) (os : List O) (s : Threads P C I O) : Prop where
  guarded : s.Guarded
  idle : s.main = .ready ∨ s.main = .stopped
  free : ¬ s.Stuck
  rest : ∃ more, consumeAll m s.consumer (s.work.inHand.toList ++ s.queue) = .ok (c, more) ∧ s.out ++ more = os

/-- Nothing is in hand or in the queue. -/
def Served (s : Threads P C I O) : Prop := s.work.inHand = none ∧ s.queue = []

variable {c : C} {os : List O}

theorem Serves.main (serves : s.Serves m c os) : s.stepMain = s := by
  unfold stepMain
  rcases serves.idle with here | here <;> rw [here]

theorem Serves.unlocked (serves : s.Serves m c os) (outside : s.work.holds = false) : s.lock = none := by
  have guarded := serves.guarded
  cases owner : s.lock with
  | none => rfl
  | some o =>
    cases o with
    | producer =>
      have holds := guarded.main.mp owner
      rcases serves.idle with here | here <;> rw [here] at holds <;> contradiction
    | consumer =>
      rcases guarded.held owner with inside | here
      · exact absurd (outside.symm.trans inside) (by decide)
      · exact absurd ⟨owner, here⟩ serves.free

/-- The steps of a consumer that need not wait for the mutex. -/
inductive Goes (m : Machine P C A I O E) (s : Threads P C I O) : Threads P C I O → Prop
  | lock (here : s.work = .locking) : Goes m s { s with lock := some .consumer, work := .testing false }
  | sleep (here : s.work = .testing false) (empty : s.queue = []) :
      Goes m s { s with lock := none, work := .waiting }
  | look {timedOut : Bool} (here : s.work = .testing timedOut) (full : s.queue = [] → timedOut = true) :
      Goes m s { s with work := .getting }
  | wait (here : s.work = .waiting) : Goes m s s
  | find {i : I} {rest : List I} (here : s.work = .getting) (full : s.queue = i :: rest) :
      Goes m s { s with work := .unlocking (some i), queue := rest }
  | miss (here : s.work = .getting) (empty : s.queue = []) :
      Goes m s { s with work := .unlocking none, queue := [] }
  | unlock {e : Option I} (here : s.work = .unlocking e) :
      Goes m s { s with lock := none, work := .testingEntry e }
  | testFlag (here : s.work = .testingEntry none) : Goes m s { s with work := .testingFlag }
  | begin {i : I} (here : s.work = .testingEntry (some i)) : Goes m s { s with work := .processing i }
  | again (here : s.work = .testingFlag) (running : s.flag = false) : Goes m s { s with work := .locking }
  | stop (here : s.work = .testingFlag) (told : s.flag = true) : Goes m s { s with work := .returned }
  | process {i : I} {c : C} {os : List O} (here : s.work = .processing i)
      (consumed : m.consume s.consumer i = .ok (c, os)) :
      Goes m s { s with consumer := c, work := .locking, out := s.out ++ os }
  | rest (here : s.work = .returned) : Goes m s s

theorem consumeAll_inv {i : I} {rest : List I} {d e : C} {more : List O}
    (all : consumeAll m d (i :: rest) = .ok (e, more)) :
    ∃ d' first later, m.consume d i = .ok (d', first) ∧ consumeAll m d' rest = .ok (e, later) ∧
      more = first ++ later := by
  simp only [consumeAll] at all
  split at all
  case h_1 => contradiction
  case h_2 d' first consumed =>
    split at all
    case h_1 => contradiction
    case h_2 e' later others =>
      cases all
      exact ⟨d', first, later, consumed, others, rfl⟩

/- The consumer goes on, as what it has before it does not fault. -/
theorem Serves.goes (serves : s.Serves m c os) : ∃ t, s.stepWork m = .ok t ∧ Goes m s t := by
  unfold stepWork
  cases here : s.work with
  | locking =>
    rw [if_pos (serves.unlocked (by rw [here]; rfl))]
    exact ⟨_, rfl, .lock here⟩
  | testing timedOut =>
    by_cases sleeps : (s.queue.isEmpty && !timedOut) = true
    · simp only [if_pos sleeps]
      obtain ⟨empty, awake⟩ : s.queue = [] ∧ timedOut = false := by simpa using sleeps
      subst awake
      exact ⟨_, rfl, .sleep here empty⟩
    · simp only [if_neg sleeps]
      exact ⟨_, rfl, .look here (by simpa using sleeps)⟩
  | waiting => exact ⟨_, rfl, .wait here⟩
  | getting =>
    cases queue : s.queue with
    | nil => exact ⟨_, rfl, .miss here queue⟩
    | cons i rest => exact ⟨_, rfl, .find here queue⟩
  | unlocking e => exact ⟨_, rfl, .unlock here⟩
  | testingEntry e =>
    cases e with
    | none => exact ⟨_, rfl, .testFlag here⟩
    | some i => exact ⟨_, rfl, .begin here⟩
  | testingFlag =>
    by_cases told : s.flag = true
    · simp only [if_pos told]
      exact ⟨_, rfl, .stop here told⟩
    · simp only [if_neg told]
      exact ⟨_, rfl, .again here (Bool.not_eq_true _ ▸ told)⟩
  | processing i =>
    obtain ⟨more, rest, _⟩ := serves.rest
    rw [here] at rest
    obtain ⟨d, first, later, consumed, _⟩ := consumeAll_inv rest
    simp only [consumed]
    exact ⟨_, rfl, .process here consumed⟩
  | returned => exact ⟨_, rfl, .rest here⟩

/-- A step leaves the consumer with the same before it. -/
theorem Serves.kept (serves : s.Serves m c os) (moved : s.stepWork m = .ok t) (goes : Goes m s t) :
    t.Serves m c os := by
  have guarded := serves.guarded.stepWork moved
  have idle := serves.idle
  -- behind processing and testing the flag the mutex is free
  have unlocked := serves.unlocked
  obtain ⟨more, rest, all⟩ := serves.rest
  cases goes with
  | wait | rest => exact serves
  | process here consumed =>
    rw [here] at rest unlocked
    obtain ⟨d, first, later, consumed', others, rfl⟩ := consumeAll_inv rest
    cases consumed.symm.trans consumed'
    refine ⟨guarded, idle, fun stuck => ?_, later, others, ?_⟩
    · exact absurd ((unlocked rfl).symm.trans stuck.1) (by decide)
    · rw [← all, List.append_assoc]
  | again here running =>
    rw [here] at rest unlocked
    refine ⟨guarded, idle, fun stuck => ?_, more, rest, all⟩
    exact absurd ((unlocked rfl).symm.trans stuck.1) (by decide)
  | find here full | miss here full =>
    rw [here, full] at rest
    exact ⟨guarded, idle, fun stuck => (nomatch stuck.2), more, rest, all⟩
  | lock here | sleep here | look here | unlock here | testFlag here | begin here | stop here =>
    rw [here] at rest
    exact ⟨guarded, idle, fun stuck => (nomatch stuck.2), more, rest, all⟩

/- A wait that ends. -/
theorem Serves.woken (serves : s.Serves m c os) (here : s.work = .waiting) (timedOut : Bool) :
    s.step m (.wake timedOut : Action A) = .ok { s with lock := some .consumer, work := .testing timedOut } ∧
      { s with lock := some .consumer, work := .testing timedOut }.Serves m c os := by
  have free := serves.unlocked (by rw [here]; rfl)
  have moved : s.step m (.wake timedOut : Action A) =
      .ok { s with lock := some .consumer, work := .testing timedOut } := by
    simp only [step, here, free, if_true]
  obtain ⟨more, rest, all⟩ := serves.rest
  rw [here] at rest
  exact ⟨moved, serves.guarded.step moved, serves.idle, fun stuck => (nomatch stuck.2), more, rest, all⟩

/-- How far the consumer is from processing the next item, and what is behind that. -/
def backlog (s : Threads P C I O) : Nat :=
  10 * s.queue.length +
    match s.work with
    | .unlocking _ => 9
    | .testingEntry _ => 8
    | .processing _ => 7
    | .testingFlag => 7
    | .waiting => 6
    | .locking => 5
    | .testing _ => 4
    | .getting => 3
    | .returned => 0

theorem Goes.backlog_lt (goes : Goes m s t) (some_left : ¬ s.Served) (awake : s.work ≠ .waiting)
    (running : s.flag = false) (there : s.work ≠ .returned) : t.Served ∨ t.backlog < s.backlog := by
  cases goes with
  | wait here => exact absurd here awake
  | rest here => exact absurd here there
  | stop here told => exact absurd (running.symm.trans told) (by decide)
  | find here full =>
    right
    simp only [backlog, here, full, List.length_cons]
    omega
  | sleep here empty | miss here empty =>
    exact absurd ⟨by rw [here]; rfl, empty⟩ some_left
  | lock here | look here | unlock here | testFlag here | begin here | again here | process here =>
    right
    simp only [backlog, here]
    omega

theorem Goes.same (goes : Goes m s t) : t.main = s.main ∧ t.flag = s.flag := by
  cases goes <;> exact ⟨rfl, rfl⟩

/-- The turn that brings the consumer on. -/
def helps (s : Threads P C I O) : Action A :=
  match s.work with
  | .waiting => .wake true
  | _ => .work

theorem helps_waiting (here : s.work = .waiting) : (s.helps : Action A) = .wake true := by
  rw [helps, here]

theorem helps_awake (awake : s.work ≠ .waiting) : (s.helps : Action A) = .work := by
  unfold helps
  split
  case h_1 here => exact absurd here awake
  case h_2 => rfl

theorem step_asleep (here : s.work = .waiting) : s.stepWork m = .ok s := by
  rw [stepWork, here]

theorem step_wake (awake : s.work ≠ .waiting) (timedOut : Bool) : s.step m (.wake timedOut : Action A) = .ok s := by
  simp only [step]

/-- No message comes, nobody stops, and no wait fails. -/
def Quiet : Action A → Prop
  | .message _ => False
  | .stop => False
  | .fail _ => False
  | _ => True

structure Draining (m : Machine P C A I O E) (c : C) (os : List O) (r : Nat) (h : Action A) (s : Threads P C I O) :
    Prop where
  serves : s.Serves m c os
  running : s.flag = false
  there : s.work ≠ .returned
  left : ¬ s.Served
  rank : s.backlog = r
  next : s.helps = h

theorem Draining.turn {r : Nat} {h a : Action A} (draining : Draining m c os r h s) (quiet : Quiet a) :
    ∃ t, s.step m a = .ok t ∧ ((t.Served ∧ t.Serves m c os) ∨
      (∃ r' h', r' < r ∧ Draining m c os r' h' t) ∨ a ≠ h ∧ Draining m c os r h t) := by
  obtain ⟨serves, running, there, left, rank, next⟩ := draining
  cases a with
  | message a => exact quiet.elim
  | stop => exact quiet.elim
  | fail keeps => exact quiet.elim
  | main =>
    refine ⟨s, congrArg Except.ok serves.main, .inr (.inr ⟨?_, serves, running, there, left, rank, next⟩)⟩
    rw [← next]
    unfold helps
    split <;> exact fun same => by contradiction
  | work =>
    by_cases here : s.work = .waiting
    · refine ⟨s, step_asleep here, .inr (.inr ⟨?_, serves, running, there, left, rank, next⟩)⟩
      rw [← next, helps_waiting here]
      exact fun same => by contradiction
    · obtain ⟨t, moved, goes⟩ := serves.goes
      have kept := serves.kept moved goes
      refine ⟨t, moved, ?_⟩
      by_cases served : t.Served
      · exact .inl ⟨served, kept⟩
      · right
        left
        rcases goes.backlog_lt left here running there with done | less
        · exact absurd done served
        · refine ⟨_, _, rank ▸ less, kept, goes.same.2.trans running, ?_, served, rfl, rfl⟩
          intro returned
          cases goes with
          | stop _ told => exact absurd (running.symm.trans told) (by decide)
          | wait | rest => exact there returned
          | _ => contradiction
  | wake timedOut =>
    by_cases here : s.work = .waiting
    · obtain ⟨moved, kept⟩ := serves.woken here timedOut
      refine ⟨_, moved, .inr (.inl ⟨_, _, ?_, kept, running, ?_, ?_, rfl, rfl⟩)⟩
      · rw [← rank]
        simp only [backlog, here]
        omega
      · exact fun returned => by contradiction
      · rintro ⟨_, empty⟩
        exact left ⟨by rw [here]; rfl, empty⟩
    · refine ⟨s, step_wake here timedOut, .inr (.inr ⟨?_, serves, running, there, left, rank, next⟩)⟩
      rw [← next, helps_awake here]
      exact fun same => by contradiction

theorem heard_quiet {xs : List (Action A)} (quiet : ∀ x ∈ xs, Quiet x) : heard m s xs = [] := by
  induction xs generalizing s with
  | nil => rfl
  | cons x xs ih =>
    have none : s.hears x = [] := by
      have mine := quiet x List.mem_cons_self
      cases x with
      | message a => exact mine.elim
      | _ => rfl
    rw [heard, none, List.nil_append]
    split
    · exact ih fun y member => quiet y (List.mem_cons_of_mem x member)
    · rfl

/-- Once no message comes any more, the consumer processes all there is, however its turns
and time-outs are mixed, if only they come up again and again. -/
theorem Serves.drained (serves : s.Serves m c os) (running : s.flag = false) (there : s.work ≠ .returned)
    {schedule : ℕ → Action A} (quiet : ∀ i, Quiet (schedule i)) (turns : Runs.Fair schedule .work)
    (timeouts : Runs.Fair schedule (.wake true)) :
    ∃ n t, Runs.run (step m) s (Runs.first schedule n) = .ok t ∧ t.Served ∧ t.Serves m c os := by
  by_cases served : s.Served
  · exact ⟨0, s, rfl, served, serves⟩
  · have progress : ∀ r h (s : Threads P C I O) (a : Action A), Draining m c os r h s → Quiet a →
        ∃ t, s.step m a = .ok t ∧ ((t.Served ∧ t.Serves m c os) ∨
          (∃ r' h', r' < r ∧ Draining m c os r' h' t) ∨ a ≠ h ∧ Draining m c os r h t) :=
      fun r h s a draining quiet => draining.turn quiet
    have fair : ∀ r (h : Action A) (s : Threads P C I O), Draining m c os r h s → Runs.Fair schedule h := by
      intro r h s draining
      rw [← draining.next]
      unfold helps
      split
      · exact timeouts
      · exact turns
    have cond : ∀ n, Runs.Along (step m) (fun _ a => Quiet a) s (Runs.first schedule n) := by
      intro n
      apply Runs.Along.of_labels
      intro a member _
      obtain ⟨i, rfl⟩ := Runs.mem_first member
      exact quiet i
    exact Runs.eventually (Draining m c os) progress fair cond ⟨serves, running, there, served, rfl, rfl⟩

/-- Behind its look at an empty queue the consumer goes for the flag. -/
def missed : ConsumerPc I → Prop
  | .unlocking none => True
  | .testingEntry none => True
  | .testingFlag => True
  | .returned => True
  | _ => False

/-- How far the consumer is from returning, the flag being set. -/
def distance (s : Threads P C I O) : Nat :=
  11 * s.queue.length +
    match s.work with
    | .unlocking (some _) => 10
    | .testingEntry (some _) => 9
    | .processing _ => 8
    | .locking => 7
    | .testing false => 6
    | .waiting => 5
    | .testing true => 4
    | .getting => 3
    | .unlocking none => 2
    | .testingEntry none => 1
    | .testingFlag => 0
    | .returned => 0

theorem Goes.distance_lt (goes : Goes m s t) (told : s.flag = true) (awake : s.work ≠ .waiting)
    (there : s.work ≠ .returned) : t.work = .returned ∨ t.distance < s.distance := by
  cases goes with
  | wait here => exact absurd here awake
  | rest here => exact absurd here there
  | again here running => exact absurd (running.symm.trans told) (by decide)
  | stop here => exact .inl rfl
  | find here full =>
    right
    simp only [distance, here, full, List.length_cons]
    omega
  | miss here empty =>
    right
    simp only [distance, here, empty]
    omega
  | @look timedOut here full =>
    right
    cases timedOut <;> simp only [distance, here] <;> omega
  | @unlock e here =>
    right
    cases e <;> simp only [distance, here] <;> omega
  | lock here | sleep here | testFlag here | begin here | process here =>
    right
    simp only [distance, here]
    omega

theorem Goes.missed_empty (goes : Goes m s t) (looked : missed s.work → s.queue = []) :
    missed t.work → t.queue = [] := by
  intro miss
  cases goes with
  | wait here | rest here => exact looked miss
  | miss here empty => rfl
  | @unlock e here =>
    apply looked
    rw [here]
    cases e with
    | none => trivial
    | some i => exact miss.elim
  | testFlag here | again here | stop here =>
    apply looked
    rw [here]
    trivial
  | _ => exact miss.elim

/-- The waits that remain end by their time-out. -/
def Closing : Action A → Prop
  | .wake timedOut => timedOut = true
  | .fail _ => False
  | _ => True

structure Ending (m : Machine P C A I O E) (c : C) (os : List O) (r : Nat) (h : Action A) (s : Threads P C I O) :
    Prop where
  serves : s.Serves m c os
  told : s.flag = true
  looked : missed s.work → s.queue = []
  there : s.work ≠ .returned
  rank : s.distance = r
  next : s.helps = h

theorem Ending.turn {r : Nat} {h a : Action A} (ending : Ending m c os r h s) (closing : Closing a) :
    ∃ t, s.step m a = .ok t ∧ ((t.work = .returned ∧ t.queue = [] ∧ t.Serves m c os) ∨
      (∃ r' h', r' < r ∧ Ending m c os r' h' t) ∨ a ≠ h ∧ Ending m c os r h t) := by
  have ⟨serves, told, looked, there, rank, next⟩ := ending
  have stopped := serves.guarded.flag.mp told
  have help : h = .work ∨ h = .wake true := by
    rw [← next]
    unfold helps
    split
    · exact .inr rfl
    · exact .inl rfl
  -- a turn that changes nothing, and that does not help
  have still : a ≠ .work → a ≠ .wake true → s.step m a = .ok s →
      ∃ t, s.step m a = .ok t ∧ ((t.work = .returned ∧ t.queue = [] ∧ t.Serves m c os) ∨
        (∃ r' h', r' < r ∧ Ending m c os r' h' t) ∨ a ≠ h ∧ Ending m c os r h t) := by
    intro notWork notWake same
    refine ⟨s, same, .inr (.inr ⟨?_, ending⟩)⟩
    rcases help with rfl | rfl
    · exact notWork
    · exact notWake
  cases a with
  | fail keeps => exact closing.elim
  | message a => exact still (fun same => by contradiction) (fun same => by contradiction) (by simp only [step, stopped])
  | stop => exact still (fun same => by contradiction) (fun same => by contradiction) (by simp only [step, stopped])
  | main =>
    exact still (fun same => by contradiction) (fun same => by contradiction) (congrArg Except.ok serves.main)
  | work =>
    by_cases here : s.work = .waiting
    · refine ⟨s, step_asleep here, .inr (.inr ⟨?_, ending⟩)⟩
      rw [← next, helps_waiting here]
      exact fun same => by contradiction
    · obtain ⟨t, moved, goes⟩ := serves.goes
      have kept := serves.kept moved goes
      have empty := goes.missed_empty looked
      refine ⟨t, moved, ?_⟩
      by_cases returned : t.work = .returned
      · refine .inl ⟨returned, empty ?_, kept⟩
        rw [returned]
        trivial
      · right
        left
        rcases goes.distance_lt told here there with done | less
        · exact absurd done returned
        · exact ⟨_, _, rank ▸ less, kept, goes.same.2.trans told, empty, returned, rfl, rfl⟩
  | wake timedOut =>
    obtain rfl : timedOut = true := closing
    by_cases here : s.work = .waiting
    · obtain ⟨moved, kept⟩ := serves.woken here true
      refine ⟨_, moved, .inr (.inl ⟨_, _, ?_, kept, told, fun miss => miss.elim, ?_, rfl, rfl⟩)⟩
      · rw [← rank]
        simp only [distance, here]
        omega
      · exact fun returned => by contradiction
    · refine ⟨s, step_wake here true, .inr (.inr ⟨?_, ending⟩)⟩
      rw [← next, helps_awake here]
      exact fun same => by contradiction

theorem stepWork_main (moved : s.stepWork m = .ok t) : t.main = s.main := by
  unfold stepWork at moved
  split at moved
  case h_9 =>
    split at moved
    · cases moved
      rfl
    · contradiction
  case h_1 | h_2 | h_8 =>
    cases moved
    split <;> rfl
  all_goals
    cases moved
    rfl

theorem step_stopped (stopped : s.main = .stopped) {x : Action A} (moved : s.step m x = .ok t) :
    t.main = .stopped := by
  cases x with
  | main =>
    cases moved
    rw [stepMain, stopped]
    exact stopped
  | work => exact (stepWork_main moved).trans stopped
  | message a | stop =>
    simp only [step, stopped] at moved
    cases moved
    exact stopped
  | wake timedOut | fail keeps =>
    simp only [step] at moved
    split at moved
    · cases moved
      split <;> exact stopped
    · cases moved
      exact stopped

/-- A producer that has stopped reads no message. -/
theorem heard_stopped {xs : List (Action A)} (stopped : s.main = .stopped) : heard m s xs = [] := by
  induction xs generalizing s with
  | nil => rfl
  | cons x xs ih =>
    have none : s.hears x = [] := by
      cases x with
      | message a => rw [hears, stopped]
      | _ => rfl
    rw [heard, none, List.nil_append]
    cases moved : s.step m x with
    | error e => rfl
    | ok t => exact ih (step_stopped stopped moved)

/-- Once the producer has stopped, the consumer processes all there is and returns, whatever
messages still come, unless it was on its way to the flag with the queue not empty. -/
theorem Serves.ended (serves : s.Serves m c os) (told : s.flag = true) (looked : missed s.work → s.queue = [])
    {schedule : ℕ → Action A} (closing : ∀ i, Closing (schedule i)) (turns : Runs.Fair schedule .work)
    (timeouts : Runs.Fair schedule (.wake true)) :
    ∃ n t, Runs.run (step m) s (Runs.first schedule n) = .ok t ∧ t.work = .returned ∧ t.queue = [] ∧
      t.Serves m c os := by
  by_cases there : s.work = .returned
  · exact ⟨0, s, rfl, there, looked (there ▸ trivial), serves⟩
  · have progress : ∀ r h (s : Threads P C I O) (a : Action A), Ending m c os r h s → Closing a →
        ∃ t, s.step m a = .ok t ∧ ((t.work = .returned ∧ t.queue = [] ∧ t.Serves m c os) ∨
          (∃ r' h', r' < r ∧ Ending m c os r' h' t) ∨ a ≠ h ∧ Ending m c os r h t) :=
      fun r h s a ending closing => ending.turn closing
    have fair : ∀ r (h : Action A) (s : Threads P C I O), Ending m c os r h s → Runs.Fair schedule h := by
      intro r h s ending
      rw [← ending.next]
      unfold helps
      split
      · exact timeouts
      · exact turns
    have cond : ∀ n, Runs.Along (step m) (fun _ a => Closing a) s (Runs.first schedule n) := by
      intro n
      apply Runs.Along.of_labels
      intro a member _
      obtain ⟨i, rfl⟩ := Runs.mem_first member
      exact closing i
    exact Runs.eventually (Ending m c os) progress fair cond ⟨serves, told, looked, there, rfl, rfl⟩

end Threads

end Handoff
