import Nmdb.Lib.Runs
import Nmdb.Memory
import Mathlib.Data.List.Infix

/-! The end of the server. The main thread leaves its loop and sets loop_should_stop; the
database thread stops when it has found the queue empty and then finds the flag set. The
two observations are apart: what is put between them is never executed. -/
namespace Nmdb

variable {α : Type}

/-- Where the main thread is: in net_loop, behind it, or past the write of the flag. -/
inductive MainPc where
  | serving
  | left
  | stopping
  deriving DecidableEq, Repr

/-- Where the database thread is in its loop. It holds the lock from testing to unlocking,
except while it waits. -/
inductive DbPc (α : Type) where
  | locking
  | testing (timedOut : Bool)
  | waiting
  | getting
  | unlocking (e : Option α)
  | testingEntry (e : Option α)
  | testingFlag
  | processing (e : α)
  | returned
  deriving DecidableEq, Repr

namespace DbPc

def holdsLock : DbPc α → Bool
  | .testing _ => true
  | .getting => true
  | .unlocking _ => true
  | _ => false

/-- The entry taken from the queue and not yet given to process_op. -/
def inHand : DbPc α → List α
  | .unlocking e => e.toList
  | .testingEntry e => e.toList
  | .processing e => [e]
  | _ => []

/-- Behind a queue_get that found no entry, up to the test of the flag. -/
def foundNone : DbPc α → Bool
  | .unlocking none => true
  | .testingEntry none => true
  | .testingFlag => true
  | _ => false

end DbPc

/-- The queue and the flag, the two threads, and the entries put and processed so far. -/
structure Shutdown (α : Type) where
  queue : List α
  loopShouldStop : Bool
  main : MainPc
  db : DbPc α
  puts : List α
  processed : List α
  deriving DecidableEq, Repr

/-- The next thing one of the threads does. A wait ends by a signal or by its time-out. -/
inductive Turn (α : Type) where
  | put (e : α)
  | leave
  | stop
  | lock
  | test
  | wake (timedOut : Bool)
  | get
  | unlock
  | testEntry
  | testFlag
  | process
  deriving DecidableEq, Repr

namespace Shutdown

def start : Shutdown α := ⟨[], false, .serving, .locking, [], []⟩

/-- A turn of a thread that is elsewhere, or that has to wait for the lock, does nothing. -/
def next (s : Shutdown α) : Turn α → Shutdown α
  | .put e =>
    if s.main = .serving ∧ s.db.holdsLock = false then
      { s with queue := s.queue ++ [e], puts := s.puts ++ [e] }
    else s
  | .leave => if s.main = .serving then { s with main := .left } else s
  | .stop => if s.main = .left then { s with main := .stopping, loopShouldStop := true } else s
  | .lock =>
    match s.db with
    | .locking => { s with db := .testing false }
    | _ => s
  | .test =>
    match s.db with
    | .testing timedOut =>
      if s.queue.isEmpty && !timedOut then { s with db := .waiting } else { s with db := .getting }
    | _ => s
  | .wake timedOut =>
    match s.db with
    | .waiting => { s with db := .testing timedOut }
    | _ => s
  | .get =>
    match s.db with
    | .getting => { s with db := .unlocking s.queue.head?, queue := s.queue.tail }
    | _ => s
  | .unlock =>
    match s.db with
    | .unlocking e => { s with db := .testingEntry e }
    | _ => s
  | .testEntry =>
    match s.db with
    | .testingEntry none => { s with db := .testingFlag }
    | .testingEntry (some e) => { s with db := .processing e }
    | _ => s
  | .testFlag =>
    match s.db with
    | .testingFlag => if s.loopShouldStop then { s with db := .returned } else { s with db := .locking }
    | _ => s
  | .process =>
    match s.db with
    | .processing e => { s with db := .locking, processed := s.processed ++ [e] }
    | _ => s

def step (s : Shutdown α) (turn : Turn α) : Except Fault (Shutdown α) := .ok (s.next turn)

/-- The main thread puts an entry: it still serves, and the lock is free. -/
def Puts (s : Shutdown α) : Turn α → Prop
  | .put _ => s.main = .serving ∧ s.db.holdsLock = false
  | _ => False

/-- Entries are processed in the order of the puts, none twice. -/
def InOrder (s : Shutdown α) : Prop := s.processed <+: s.puts

/-- After the database thread has returned nothing is left to discard. -/
def NoneLost (s : Shutdown α) : Prop := s.db = .returned → s.processed = s.puts ∧ s.queue = []

/-- An entry is put while the database thread is behind a queue_get that found none, and
when the thread comes to look at the flag it finds it set. -/
def PutTooLate (turns : List (Turn α)) : Prop :=
  ∃ before e mid after s t, turns = before ++ .put e :: (mid ++ .testFlag :: after) ∧
    Runs.run step start before = .ok s ∧ s.Puts (.put e) ∧
    Runs.Along step (fun s _ => s.db.foundNone = true) s (.put e :: mid) ∧
    Runs.run step s (.put e :: mid) = .ok t ∧ t.db = .testingFlag ∧ t.loopShouldStop = true

/-- When the database thread finds the flag set, the queue is empty. -/
def StopsOnEmptyQueue (s : Shutdown α) (turn : Turn α) : Prop :=
  turn = .testFlag → s.db = .testingFlag → s.loopShouldStop = true → s.queue = []

/-- Every entry put was processed, or is in hand, or waits. -/
def Accounted (s : Shutdown α) : Prop := s.puts = s.processed ++ s.db.inHand ++ s.queue

/-- Once the flag is set no entry is put any more. -/
def FlagLast (s : Shutdown α) : Prop := s.loopShouldStop = true → s.main = .stopping

structure Safe (s : Shutdown α) : Prop where
  accounted : s.Accounted
  flagLast : s.FlagLast
  finished : s.db = .returned → s.loopShouldStop = true ∧ s.queue = []

theorem head_tail (l : List α) : l.head?.toList ++ l.tail = l := by
  cases l <;> rfl

/- The database thread goes on with the same entry in hand. -/
theorem Accounted.moved {s : Shutdown α} (accounted : s.Accounted) {db : DbPc α}
    (same : db.inHand = s.db.inHand) : Accounted { s with db := db } := by
  simp only [Accounted, same]
  exact accounted

theorem Accounted.next {s : Shutdown α} (accounted : s.Accounted) (turn : Turn α) :
    (s.next turn).Accounted := by
  cases turn with
  | put e =>
    simp only [Shutdown.next]
    split
    · simp only [Accounted] at accounted ⊢
      simp only [accounted, List.append_assoc]
    · exact accounted
  | leave =>
    simp only [Shutdown.next]
    split <;> exact accounted
  | stop =>
    simp only [Shutdown.next]
    split <;> exact accounted
  | get =>
    simp only [Shutdown.next]
    split
    case h_1 here =>
      simp only [Accounted, here, DbPc.inHand, List.append_nil] at accounted
      simp only [Accounted, DbPc.inHand, List.append_assoc, head_tail]
      exact accounted
    case h_2 => exact accounted
  | process =>
    simp only [Shutdown.next]
    split
    case h_1 here =>
      simp only [Accounted, here, DbPc.inHand] at accounted
      simp only [Accounted, DbPc.inHand, List.append_nil]
      exact accounted
    case h_2 => exact accounted
  | _ =>
    simp only [Shutdown.next]
    repeat' split
    all_goals first
      | exact accounted
      | exact accounted.moved (by simp only [*, DbPc.inHand, Option.toList_none, Option.toList_some])

theorem Accounted.inOrder {s : Shutdown α} (accounted : s.Accounted) : s.InOrder := by
  rw [InOrder, accounted, List.append_assoc]
  exact List.prefix_append _ _

/- Only the main thread moves its own counter, and sets the flag as it goes. -/
theorem FlagLast.next {s : Shutdown α} (flagLast : s.FlagLast) (turn : Turn α) :
    (s.next turn).FlagLast := by
  unfold FlagLast at flagLast ⊢
  cases turn with
  | leave =>
    simp only [Shutdown.next]
    split
    case isTrue serving =>
      intro flag
      exact absurd (serving.symm.trans (flagLast flag)) (by decide)
    case isFalse => exact flagLast
  | stop =>
    simp only [Shutdown.next]
    split
    · exact fun _ => rfl
    · exact flagLast
  | _ =>
    simp only [Shutdown.next]
    repeat' split
    all_goals exact flagLast

theorem Safe.next {s : Shutdown α} (safe : s.Safe) {turn : Turn α} (empty : StopsOnEmptyQueue s turn) :
    (s.next turn).Safe := by
  refine ⟨safe.accounted.next turn, safe.flagLast.next turn, ?_⟩
  have finished := safe.finished
  cases turn with
  | put e =>
    simp only [Shutdown.next]
    split
    case isTrue here =>
      intro returned
      exact absurd (here.1.symm.trans (safe.flagLast (finished returned).1)) (by decide)
    case isFalse => exact finished
  | leave =>
    simp only [Shutdown.next]
    split <;> exact finished
  | stop =>
    simp only [Shutdown.next]
    split
    · exact fun returned => ⟨rfl, (finished returned).2⟩
    · exact finished
  | testFlag =>
    simp only [Shutdown.next]
    split
    case h_1 here =>
      split
      case isTrue flag => exact fun _ => ⟨flag, empty rfl here flag⟩
      case isFalse => exact fun returned => by contradiction
    case h_2 => exact finished
  | _ =>
    simp only [Shutdown.next]
    repeat' split
    all_goals first | exact finished | exact fun returned => by contradiction

theorem Safe.noneLost {s : Shutdown α} (safe : s.Safe) : s.NoneLost := by
  intro returned
  have empty := (safe.finished returned).2
  have free : s.db.inHand = [] := by
    rw [returned]
    rfl
  have accounted := safe.accounted
  rw [Accounted, free, empty, List.append_nil, List.append_nil] at accounted
  exact ⟨accounted.symm, empty⟩

theorem noneLost_iff {s : Shutdown α} (safe : s.Safe) (turn : Turn α) :
    (∀ t, s.step turn = .ok t → t.InOrder ∧ t.NoneLost) ↔ StopsOnEmptyQueue s turn := by
  constructor
  · rintro none_lost rfl here flag
    have returned : (s.next .testFlag) = { s with db := .returned } := by
      simp only [Shutdown.next, here, flag, if_true]
    have kept := (none_lost _ rfl).2
    rw [returned] at kept
    exact (kept rfl).2
  · rintro empty t taken
    obtain rfl := Except.ok.inj taken
    have after := safe.next empty
    exact ⟨after.accounted.inOrder, after.noneLost⟩

theorem start_safe : (start : Shutdown α).Safe :=
  ⟨rfl, fun flag => by contradiction, fun returned => by contradiction⟩

/- Behind an empty queue_get the queue only grows. -/
theorem foundNone_keeps {s : Shutdown α} (found : s.db.foundNone = true) (full : s.queue ≠ []) (turn : Turn α) :
    (s.next turn).queue ≠ [] := by
  cases turn with
  | put e =>
    simp only [Shutdown.next]
    split
    · exact List.append_ne_nil_of_right_ne_nil _ (List.cons_ne_nil e [])
    · exact full
  | get =>
    simp only [Shutdown.next]
    split
    case h_1 here =>
      rw [here] at found
      contradiction
    case h_2 => exact full
  | _ =>
    simp only [Shutdown.next]
    repeat' split
    all_goals exact full

/- What is in the queue behind an empty queue_get was put there. -/
theorem foundNone_put {s : Shutdown α} {turn : Turn α} (found : (s.next turn).db.foundNone = true)
    (full : (s.next turn).queue ≠ []) : s.db.foundNone = true ∧ (s.queue ≠ [] ∨ s.Puts turn) := by
  cases turn with
  | put e =>
    simp only [Shutdown.next] at found full
    split at found
    case isTrue here => exact ⟨found, .inr here⟩
    case isFalse idle =>
      rw [if_neg idle] at full
      exact ⟨found, .inl full⟩
  | get =>
    simp only [Shutdown.next] at found full
    split at found
    case h_1 here =>
      simp only [here] at full
      cases entries : s.queue with
      | nil =>
        rw [entries] at full
        contradiction
      | cons e rest =>
        rw [entries] at found
        contradiction
    case h_2 other =>
      refine ⟨found, .inl ?_⟩
      split at full
      case h_1 here => exact absurd here other
      case h_2 => exact full
  | unlock =>
    simp only [Shutdown.next] at found full
    split at found
    case h_1 e here =>
      simp only [here] at full ⊢
      cases e with
      | none => exact ⟨rfl, .inl full⟩
      | some e => contradiction
    case h_2 other =>
      refine ⟨found, .inl ?_⟩
      split at full <;> exact full
  | testEntry =>
    simp only [Shutdown.next] at found full
    split at found
    case h_1 here =>
      simp only [here] at full ⊢
      exact ⟨rfl, .inl full⟩
    case h_2 => contradiction
    case h_3 =>
      refine ⟨found, .inl ?_⟩
      split at full <;> exact full
  | leave | stop | lock | test | wake | testFlag | process =>
    simp only [Shutdown.next] at found full
    refine ⟨?_, .inl ?_⟩
    · repeat' split at found
      all_goals first | exact found | contradiction
    · repeat' split at full
      all_goals exact full

/- From the last entry put there. -/
theorem foundNone_run {turns : List (Turn α)} {t : Shutdown α} (ran : Runs.run step start turns = .ok t)
    (found : t.db.foundNone = true) (full : t.queue ≠ []) :
    ∃ before e mid s, turns = before ++ .put e :: mid ∧ Runs.run step start before = .ok s ∧ s.Puts (.put e) ∧
      Runs.Along step (fun s _ => s.db.foundNone = true) s (.put e :: mid) ∧
      Runs.run step s (.put e :: mid) = .ok t := by
  induction turns using List.reverseRecOn generalizing t with
  | nil =>
    cases ran
    contradiction
  | append_singleton turns turn ih =>
    obtain ⟨s, reached, last⟩ := Runs.run_append_inv ran
    obtain rfl := Except.ok.inj last
    obtain ⟨there, either⟩ := foundNone_put found full
    by_cases held : s.queue = []
    · have puts := either.resolve_left (not_not_intro held)
      cases turn with
      | put e => exact ⟨turns, e, [], s, rfl, reached, puts, ⟨there, fun _ _ => trivial⟩, rfl⟩
      | _ => exact puts.elim
    · obtain ⟨before, e, mid, u, rfl, start, puts, along, later⟩ := ih reached there held
      refine ⟨before, e, mid ++ [turn], u, by rw [List.append_assoc]; rfl, start, puts, ?_, ?_⟩
      · rw [← List.cons_append, Runs.along_append]
        refine ⟨along, fun v ran => ?_⟩
        cases later.symm.trans ran
        exact ⟨there, fun _ _ => trivial⟩
      · rw [← List.cons_append, Runs.run_append, later]
        rfl

theorem stops_iff (turns : List (Turn α)) :
    Runs.Along step StopsOnEmptyQueue (start : Shutdown α) turns ↔ ¬ PutTooLate turns := by
  rw [Runs.along_iff_cuts]
  constructor
  · rintro stops ⟨before, e, mid, after, s, t, rfl, reached, puts, along, later, here, flag⟩
    have ran : Runs.run step start (before ++ .put e :: mid) = .ok t := by
      rw [Runs.run_append, reached]
      exact later
    obtain ⟨u, put, tail⟩ := Runs.run_cons_inv later
    obtain rfl := Except.ok.inj put
    have waits : (s.next (.put e)).queue ≠ [] := by
      simp only [Shutdown.next]
      rw [if_pos (show s.main = .serving ∧ s.db.holdsLock = false from puts)]
      exact List.append_ne_nil_of_right_ne_nil _ (List.cons_ne_nil e [])
    have keeps : ∀ (u : Shutdown α) turn v, u.queue ≠ [] → u.db.foundNone = true → u.step turn = .ok v →
        v.queue ≠ [] := by
      intro u turn v full found taken
      obtain rfl := Except.ok.inj taken
      exact foundNone_keeps found full turn
    have full : t.queue ≠ [] := Runs.run_invariant keeps waits (along.2 _ rfl) tail
    exact full (stops (before ++ .put e :: mid) .testFlag after t (by simp) ran rfl here flag)
  · rintro inTime before turn after t rfl ran rfl here flag
    by_contra full
    have found : t.db.foundNone = true := by
      rw [here]
      rfl
    obtain ⟨before, e, mid, s, rfl, reached, puts, along, later⟩ := foundNone_run ran found full
    exact inTime ⟨before, e, mid, after, s, t, by simp, reached, puts, along, later, here, flag⟩

/-- In every interleaving the entries processed are a prefix of those put; and none is lost
exactly when none is put between a queue_get that finds nothing and a look at the flag
that finds it set. -/
theorem none_lost_iff (turns : List (Turn α)) :
    (∀ s, Runs.run step (start : Shutdown α) turns = .ok s → s.InOrder) ∧
    (Runs.Along step (fun s turn => ∀ t, s.step turn = .ok t → t.InOrder ∧ t.NoneLost)
        (start : Shutdown α) turns ↔ ¬ PutTooLate turns) := by
  refine ⟨fun s ran => ?_, ?_⟩
  · have accounted : s.Accounted := Runs.run_invariant
      (fun s turn t (accounted : s.Accounted) _ taken => Except.ok.inj taken ▸ accounted.next turn)
      start_safe.accounted (Runs.Along.always (fun _ _ => trivial) start turns) ran
    exact accounted.inOrder
  · rw [← stops_iff]
    refine Runs.along_iff (fun (s : Shutdown α) turn (safe : s.Safe) => noneLost_iff safe turn) ?_
      start_safe turns
    intro s turn t safe empty taken
    obtain rfl := Except.ok.inj taken
    exact safe.next empty

/-- The wait times out, the queue is empty; then an entry is put and the flag is set. -/
def latePut : List (Turn Nat) :=
  [.lock, .test, .wake true, .test, .get, .unlock, .testEntry, .put 7, .leave, .stop, .testFlag]

theorem entry_lost_at_shutdown : ∃ s, Runs.run step start latePut = .ok s ∧ s.db = .returned ∧
    s.puts = [7] ∧ s.processed = [] ∧ ¬ s.NoneLost :=
  ⟨_, rfl, rfl, rfl, rfl, fun kept => absurd (kept rfl).1 (by decide)⟩

end Shutdown

end Nmdb
