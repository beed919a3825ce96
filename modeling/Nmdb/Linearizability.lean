import Nmdb.Coherence

/-! What the server is for: one map that takes the requests in the order of parsing, each
at once. The cache and the queued operations together behave as that map, and every reply
is the one it gives, whether it comes from the cache or later from the database. -/
namespace Nmdb

open WriteBehind

variable {δ ν : Type}

inductive Answer where
  | value (v : Bytes)
  | done
  | absent
  | differs
  | refused
  deriving DecidableEq, Repr

/-- A value may come from the cache or from the database. -/
def Reply.answer : Reply → Option Answer
  | .mini .ok => some .done
  | .mini .notin => some .absent
  | .mini .nomatch => some .differs
  | .long .cacheHit v => some (.value v)
  | .long .ok v => some (.value v)
  | .err .ro => some .refused
  | _ => none

/-- A request on the binding of its key. An asynchronous DEL does not tell whether there was
one; a number is incremented in its text, and answered in network byte order. -/
def Request.perform (sync : Bool) : Request → Option Bytes → Option Bytes × Answer
  | .get _, none => (none, .absent)
  | .get _, some v => (some v, .value v)
  | .set _ val, _ => (some val, .done)
  | .del _, o => (none, if sync && o.isNone then .absent else .done)
  | .cas _ _ _, none => (none, .absent)
  | .cas _ oldval newval, some v => if v = oldval then (some newval, .done) else (some v, .differs)
  | .incr _ _, none => (none, .absent)
  | .incr _ increment, some v =>
    if v.getLast? = some 0 then
      (some (Bucket.incrText v (strtoll v + increment)),
        .value (bytes64 (htonll (ofInt64 (strtoll v + increment)))))
    else (some v, .differs)
  | .nextkey _, o => (o, .absent)

/-- The map after a request and the answers it gives: none to a cache-only request. -/
def atomicStep (readOnly : Bool) (m : KV) (req : ReqInfo Nat) (r : Request) :
    KV × List (ReqInfo Nat × Answer) :=
  if req.cacheOnly then (m, [])
  else if readOnly && r.writes then (m, [(req, .refused)])
  else (Function.update m r.key (r.perform req.sync (m r.key)).1, [(req, (r.perform req.sync (m r.key)).2)])

def atomicRun (readOnly : Bool) : KV → List (ReqInfo Nat × Request) → KV × List (ReqInfo Nat × Answer)
  | m, [] => (m, [])
  | m, (req, r) :: rest =>
    let (m, here) := atomicStep readOnly m req r
    let (m, later) := atomicRun readOnly m rest
    (m, here ++ later)

/-- The requests in the order of parsing, each with its number in it. -/
def requests : Nat → List Event → List (ReqInfo Nat × Request)
  | _, [] => []
  | n, .message buf len :: rest =>
    ((decoded buf len).map fun r => (headerInfo ⟨n, 0, 0, 0⟩ buf, r)).toList ++ requests (n + 1) rest
  | n, .dequeue :: rest => requests n rest
  | n, .execute :: rest => requests n rest

/-- An increment meets no empty value and does not overflow. -/
def IncrDefined (m : KV) : Request → Prop
  | .incr key increment => ∀ v, m key = some v →
      v ≠ [] ∧ (v.getLast? = some 0 → InInt64 (strtoll v + increment))
  | _ => True

def NumbersDefined (readOnly : Bool) : KV → List (ReqInfo Nat × Request) → Prop
  | _, [] => True
  | m, (req, r) :: rest => IncrDefined m r ∧ NumbersDefined readOnly (atomicStep readOnly m req r).1 rest

section

variable {req : ReqInfo Nat} {r : Request} {m : KV}

/-- The entry of a request does to a binding what the request does. -/
theorem entry_act (mode : r.DatabaseMode req) (fits : ¬ Oversized (m r.key)) (defined : IncrDefined m r) :
    (Request.entry req r).act (m r.key) = (r.perform req.sync (m r.key)).1 := by
  have short : ∀ v, m r.key = some v → v.length ≤ dbBufSize := fun v held =>
    Nat.not_lt.mp fun large => fits ⟨v, held, large⟩
  cases r with
  | get key => cases held : m key <;> simp [Request.key, held, Request.entry, QueueEntry.act, Request.perform]
  | set key val => rfl
  | del key => rfl
  | cas key oldval newval =>
    cases held : m key with
    | none => simp only [Request.key, held, Request.entry, QueueEntry.act, Request.perform]
    | some v =>
      have small := short v held
      simp only [Request.key, held, Request.entry, QueueEntry.act, Request.perform, small, true_and,
        Option.some.injEq, Option.getD_some, eq_comm]
      split <;> rfl
  | incr key increment =>
    cases held : m key with
    | none => simp only [Request.key, held, Request.entry, QueueEntry.act, Request.perform]
    | some v =>
      have small := short v held
      have operation : (Request.entry req (.incr key increment)).operation = .incr := rfl
      simp only [Request.key, held, QueueEntry.act, operation, Request.perform, small, true_and,
        entryIncrement_entry, wrap64_add_wrap64]
      split
      case isTrue number => rw [wrap64_eq ((defined v held).2 number)]
      case isFalse => rfl
  | nextkey key => exact mode.elim

theorem entry_respond (mode : r.DatabaseMode req) (defined : IncrDefined m r) {reply : Reply}
    (responds : (Request.entry req r).respond (m r.key) = some reply) :
    reply.answer = some (r.perform req.sync (m r.key)).2 := by
  cases r with
  | get key =>
    cases held : m key <;> simp only [Request.key, held, Request.entry, QueueEntry.respond,
      Option.some.injEq] at responds ⊢ <;> subst responds <;> rfl
  | set key val =>
    cases sync : req.sync with
    | true =>
      simp only [Request.entry, QueueEntry.respond, sync, if_true, Option.some.injEq] at responds
      subst responds
      rfl
    | false =>
      simp only [Request.entry, QueueEntry.respond, sync, Bool.false_eq_true, if_false] at responds
      contradiction
  | del key =>
    cases sync : req.sync with
    | true =>
      simp only [Request.entry, QueueEntry.respond, sync, if_true, Option.some.injEq] at responds
      subst responds
      cases held : m key <;> simp [Request.key, Request.perform, held, Reply.answer]
    | false =>
      simp only [Request.entry, QueueEntry.respond, sync, Bool.false_eq_true, if_false] at responds
      contradiction
  | cas key oldval newval =>
    cases held : m key with
    | none =>
      simp only [Request.key, held, Request.entry, QueueEntry.respond, Option.some.injEq] at responds ⊢
      subst responds
      rfl
    | some v =>
      simp only [Request.key, held, Request.entry, QueueEntry.respond, Option.some.injEq,
        Request.perform] at responds ⊢
      subst responds
      by_cases same : v = oldval
      · rw [if_pos same, if_pos same.symm]
        rfl
      · rw [if_neg same, if_neg (Ne.symm same)]
        rfl
  | incr key increment =>
    have operation : (Request.entry req (.incr key increment)).operation = .incr := rfl
    cases held : m key with
    | none =>
      simp only [Request.key, held, QueueEntry.respond, operation, Option.some.injEq] at responds ⊢
      subst responds
      rfl
    | some v =>
      simp only [Request.key, held, QueueEntry.respond, operation, Option.some.injEq, Request.perform,
        entryIncrement_entry, wrap64_add_wrap64] at responds ⊢
      subst responds
      split
      case isTrue number =>
        rw [wrap64_eq ((defined v held).2 number)]
        rfl
      case isFalse => rfl
  | nextkey key => exact mode.elim

/-- The reply to an entry is an answer the map has given to its request. -/
def Promised (answers : List (ReqInfo Nat × Answer)) (e : QueueEntry Nat) (o : Option Bytes) : Prop :=
  (e.operation = .incr → o ≠ some []) ∧
    ∀ reply, e.respond o = some reply → ∃ a, (e.req, a) ∈ answers ∧ reply.answer = some a

/-- An entry turns no value that the database thread can read into a larger one. -/
def QueueEntry.KeepsRoom (e : QueueEntry ν) : Prop := ∀ o, ¬ Oversized o → ¬ Oversized (e.act o)

def Replied (answers : List (ReqInfo Nat × Answer)) (replies : List (ReqInfo Nat × Reply)) : Prop :=
  ∀ req reply, (req, reply) ∈ replies → req.cacheOnly = false →
    ∃ a, (req, a) ∈ answers ∧ reply.answer = some a

/-- The map after a request is the map with its entry applied, if one is queued, and the
reply given now or later is its answer. -/
structure Carried (m : KV) (after : KV × List (ReqInfo Nat × Answer)) (req : ReqInfo Nat)
    (e : Option (QueueEntry Nat)) (reply : Option Reply) : Prop where
  map : drained m e.toList = after.1
  promised : ∀ x ∈ e, Promised after.2 x (m x.mapKey)
  room : ∀ x ∈ e, x.KeepsRoom
  replied : Replied after.2 (reply.map fun x => (req, x)).toList

theorem entry_room (size : r.size ≤ maxSize) (mode : r.DatabaseMode req) :
    (Request.entry req r).KeepsRoom := by
  rintro o fits ⟨v, result, large⟩
  cases r with
  | get key => exact fits ⟨v, result, large⟩
  | nextkey key => exact mode.elim
  | del key => contradiction
  | set key val =>
    obtain rfl : val = v := Option.some.inj result
    simp only [Request.size, maxSize, dbBufSize] at size large
    omega
  | cas key oldval newval =>
    cases o with
    | none => contradiction
    | some w =>
      have act : (Request.entry req (.cas key oldval newval)).act (some w) =
          if w.length ≤ dbBufSize ∧ some oldval = some w then some newval else some w := rfl
      rw [act] at result
      split at result
      · obtain rfl := Option.some.inj result
        simp only [Request.size, maxSize, dbBufSize] at size large
        omega
      · exact fits ⟨v, result, large⟩
  | incr key increment =>
    have operation : (Request.entry req (.incr key increment)).operation = .incr := rfl
    cases o with
    | none => contradiction
    | some w =>
      simp only [QueueEntry.act, operation] at result
      split at result
      case isTrue number =>
        obtain rfl := Option.some.inj result
        rw [incrText_length (wrap64_range _)] at large
        simp only [dbBufSize] at number large
        omega
      case isFalse => exact fits ⟨v, result, large⟩

theorem replied_none (answers : List (ReqInfo Nat × Answer)) :
    Replied answers ((none : Option Reply).map fun x => (req, x)).toList := by
  intro _ _ member
  contradiction

theorem replied_some {answers : List (ReqInfo Nat × Answer)} {reply : Reply} {a : Answer}
    (given : (req, a) ∈ answers) (same : reply.answer = some a) :
    Replied answers ((some reply).map fun x => (req, x)).toList := by
  intro req' reply' member _
  obtain ⟨rfl, rfl⟩ := Prod.mk.inj (List.mem_singleton.mp member)
  exact ⟨a, given, same⟩

theorem replied_cacheOnly {answers : List (ReqInfo Nat × Answer)} {reply : Reply}
    (only : req.cacheOnly = true) : Replied answers ((some reply).map fun x => (req, x)).toList := by
  intro req' reply' member toDb
  obtain ⟨rfl, rfl⟩ := Prod.mk.inj (List.mem_singleton.mp member)
  exact absurd (only.symm.trans toDb) (by decide)

/- A request of the database that may write, or need not. -/
theorem atomicStep_db (readOnly : Bool) (m : KV) (toDb : req.cacheOnly = false)
    (may : (readOnly && r.writes) = false) : atomicStep readOnly m req r =
      (Function.update m r.key (r.perform req.sync (m r.key)).1,
        [(req, (r.perform req.sync (m r.key)).2)]) := by
  simp only [atomicStep, toDb, may, Bool.false_eq_true, if_false]

theorem carried_queued {readOnly : Bool} (toDb : req.cacheOnly = false)
    (may : (readOnly && r.writes) = false) (mode : r.DatabaseMode req) (size : r.size ≤ maxSize)
    (fits : ¬ Oversized (m r.key)) (defined : IncrDefined m r) {reply : Option Reply}
    (replied : Replied (atomicStep readOnly m req r).2 (reply.map fun x => (req, x)).toList) :
    Carried m (atomicStep readOnly m req r) req (some (Request.entry req r)) reply := by
  have at_key : (Request.entry req r).mapKey = r.key := by cases r <;> rfl
  have step := atomicStep_db readOnly m toDb may
  refine ⟨?_, fun x queued => ?_, fun x queued => ?_, replied⟩
  · rw [step, Option.toList_some, drained_cons, apply, at_key, entry_act mode fits defined]
    rfl
  · obtain rfl := Option.some.inj queued
    rw [at_key, step]
    refine ⟨fun incr empty => ?_, fun reply responds => ?_⟩
    · cases r with
      | incr key increment => exact (defined [] empty).1 rfl
      | _ => contradiction
    · refine ⟨_, ?_, entry_respond mode defined responds⟩
      cases r <;> exact List.mem_singleton.mpr rfl
  · obtain rfl := Option.some.inj queued
    exact entry_room size mode

theorem carried_answered {readOnly : Bool} {reply : Reply} (kept : (atomicStep readOnly m req r).1 = m)
    (replied : Replied (atomicStep readOnly m req r).2 ((some reply).map fun x => (req, x)).toList) :
    Carried m (atomicStep readOnly m req r) req none (some reply) :=
  ⟨kept.symm, fun _ queued => by contradiction, fun _ queued => by contradiction, replied⟩

/- A reply given at once from a cached binding, which the request keeps. -/
theorem carried_shown {readOnly : Bool} {reply : Reply} {v : Bytes} {a : Answer}
    (may : (readOnly && r.writes) = false) (held : m r.key = some v)
    (performs : r.perform req.sync (some v) = (some v, a)) (same : reply.answer = some a) :
    Carried m (atomicStep readOnly m req r) req none (some reply) := by
  cases only : req.cacheOnly with
  | true => exact carried_answered (by simp only [atomicStep, only, if_true]) (replied_cacheOnly only)
  | false =>
    have step := atomicStep_db readOnly m only may
    rw [held, performs, ← held, Function.update_eq_self] at step
    rw [step]
    exact ⟨rfl, fun _ queued => by contradiction, fun _ queued => by contradiction,
      replied_some (List.mem_singleton.mpr rfl) same⟩

theorem replied_async {readOnly : Bool} (toDb : req.cacheOnly = false)
    (may : (readOnly && r.writes) = false) (quiet : req.sync = false → (r.perform false (m r.key)).2 = .done) :
    Replied (atomicStep readOnly m req r).2
      (((if req.sync then none else some (.mini .ok) : Option Reply)).map fun x => (req, x)).toList := by
  cases sync : req.sync with
  | true => exact replied_none _
  | false =>
    rw [atomicStep_db readOnly m toDb may, sync]
    exact replied_some (List.mem_singleton.mpr rfl) (congrArg some (quiet sync).symm)

theorem Served.carried {readOnly : Bool} {before after : KV} {e : Option (QueueEntry Nat)}
    {reply : Option Reply} (served : Served readOnly req before after r e reply)
    (shown : ∀ k v, before k = some v → m k = some v) (mode : r.DatabaseMode req)
    (size : r.size ≤ maxSize) (fits : ¬ Oversized (m r.key)) (defined : IncrDefined m r) :
    Carried m (atomicStep readOnly m req r) req e reply := by
  cases served with
  | readOnly isReadOnly writes _ =>
    cases only : req.cacheOnly with
    | true => exact carried_answered (by simp only [atomicStep, only, if_true]) (replied_cacheOnly only)
    | false =>
      have step : atomicStep readOnly m req r = (m, [(req, .refused)]) := by
        simp only [atomicStep, only, Bool.false_eq_true, if_false, isReadOnly, writes, Bool.and_self, if_true]
      rw [step]
      exact ⟨rfl, fun _ queued => by contradiction, fun _ queued => by contradiction,
        replied_some (List.mem_singleton.mpr rfl) rfl⟩
  | getHit held _ => exact carried_shown (Bool.and_false _) (shown _ _ held) rfl rfl
  | getMiss toDb _ _ => exact carried_queued toDb (Bool.and_false _) mode size fits defined (replied_none _)
  | cacheMiss only _ =>
    exact carried_answered (by simp only [atomicStep, only, if_true]) (replied_cacheOnly only)
  | cacheDel only _ =>
    exact carried_answered (by simp only [atomicStep, only, if_true]) (replied_cacheOnly only)
  | set mayWrite toDb _ _ =>
    have may : (readOnly && true) = false := by rw [mayWrite, Bool.false_and]
    exact carried_queued toDb may mode size fits defined (replied_async toDb may fun _ => rfl)
  | del mayWrite toDb _ =>
    have may : (readOnly && true) = false := by rw [mayWrite, Bool.false_and]
    exact carried_queued toDb may mode size fits defined (replied_async toDb may fun _ => rfl)
  | casHit mayWrite toDb _ _ =>
    exact carried_queued toDb (by rw [mayWrite, Bool.false_and]) mode size fits defined (replied_none _)
  | casMiss mayWrite toDb _ _ =>
    exact carried_queued toDb (by rw [mayWrite, Bool.false_and]) mode size fits defined (replied_none _)
  | casOther mayWrite _ held other _ =>
    exact carried_shown (by rw [mayWrite, Bool.false_and]) (shown _ _ held) (if_neg other) rfl
  | incrHit mayWrite toDb _ _ _ =>
    exact carried_queued toDb (by rw [mayWrite, Bool.false_and]) mode size fits defined (replied_none _)
  | incrMiss mayWrite toDb _ _ =>
    exact carried_queued toDb (by rw [mayWrite, Bool.false_and]) mode size fits defined (replied_none _)
  | incrOther mayWrite _ held other _ =>
    exact carried_shown (by rw [mayWrite, Bool.false_and]) (shown _ _ held) (if_neg other) rfl

end

section

variable {db : DbConn δ} {view : δ → KV} {s t : System δ}

/-- Sets being accepted, the database thread answers with what the map holds. -/
theorem processOp_responds (backend : MapBackend db view) (accepts : ∀ d k v, (db.set d k v).1 = true)
    {d d' : δ} {e : QueueEntry ν} {r : Option Reply} (mapped : e.Mapped)
    (fits : ¬ Oversized (view d e.mapKey)) (done : processOp db true d e = .ok (d', r)) :
    r = e.respond (view d e.mapKey) := by
  have got := backend.get_eq fits
  have deleted := (backend.del d e.mapKey).1
  rw [← got]
  rw [← got] at deleted
  unfold QueueEntry.respond
  cases processOp_way done with
  | setQuiet op async => simp only [op, async, Bool.false_eq_true, if_false]
  | setDone op sync => simp only [op, sync, if_true]
  | setRefused _ _ refused | casRefused _ _ _ _ refused | incrRefused _ _ _ _ _ refused =>
    rw [accepts] at refused
    contradiction
  | delQuiet op async => simp only [op, async, Bool.false_eq_true, if_false]
  | delNotin op sync missing => simp only [op, sync, ← deleted, missing, if_true, Bool.false_eq_true, if_false]
  | delDone op sync there => simp only [op, sync, ← deleted, there, if_true]
  | noMemory missing => contradiction
  | notin op _ missing => rcases op with op | op | op <;> simp only [op, missing]
  | getOk op _ found => simp only [op, found]
  | casNomatch op _ found other => simp only [op, found, if_neg other]
  | casDone op _ found same => simp only [op, found, if_pos same]
  | incrNomatch op _ found _ text => simp only [op, found, if_neg text]
  | incrDone op _ found number sum => simp only [op, found, if_pos number, sum]
  | noCursor op => rcases op with ⟨op, _⟩ | ⟨op, _⟩ <;> simp [QueueEntry.Mapped, op] at mapped
  | firstkey op | nextkey op => simp [QueueEntry.Mapped, op] at mapped
  | stats op => simp [QueueEntry.Mapped, op] at mapped

/-- The cache and the waiting operations stand for the map m; answers are those it gave. -/
structure System.Linear (view : δ → KV) (m : KV) (answers : List (ReqInfo Nat × Answer))
    (s : System δ) : Prop where
  behind : s.Behind view
  map : drained (view s.db) s.pending = m
  fits : ∀ k, ¬ Oversized (view s.db k)
  room : ∀ e ∈ s.pending, e.KeepsRoom
  promised : Meets QueueEntry.mapKey QueueEntry.act (Promised answers) (view s.db) s.pending
  replied : Replied answers s.server.replies

theorem apply_fits {m : KV} {e : QueueEntry ν} (fits : ∀ k, ¬ Oversized (m k)) (room : e.KeepsRoom)
    (k : Bytes) :
    ¬ Oversized (apply QueueEntry.mapKey QueueEntry.act m e k) := by
  by_cases here : k = e.mapKey
  · rw [here, apply_at]
    exact room _ (fits _)
  · rw [apply_other _ here]
    exact fits k

theorem drained_fits {m : KV} {es : List (QueueEntry ν)} (fits : ∀ k, ¬ Oversized (m k))
    (room : ∀ e ∈ es, e.KeepsRoom) (k : Bytes) : ¬ Oversized (drained m es k) := by
  induction es generalizing m with
  | nil => exact fits k
  | cons e es ih =>
    exact ih (fun k => apply_fits fits (room e List.mem_cons_self) k)
      fun x hx => room x (List.mem_cons_of_mem e hx)

theorem Replied.append {answers later : List (ReqInfo Nat × Answer)} {replies new : List (ReqInfo Nat × Reply)}
    (old : Replied answers replies) (fresh : Replied later new) :
    Replied (answers ++ later) (replies ++ new) := by
  intro req reply member toDb
  rcases List.mem_append.mp member with before | now
  · obtain ⟨a, given, same⟩ := old req reply before toDb
    exact ⟨a, List.mem_append_left later given, same⟩
  · obtain ⟨a, given, same⟩ := fresh req reply now toDb
    exact ⟨a, List.mem_append_right answers given, same⟩

theorem Promised.mono {answers more : List (ReqInfo Nat × Answer)} (subset : answers ⊆ more)
    {e : QueueEntry Nat} {o : Option Bytes} (promised : Promised answers e o) : Promised more e o :=
  ⟨promised.1, fun reply responds =>
    let ⟨a, given, same⟩ := promised.2 reply responds
    ⟨a, subset given, same⟩⟩

theorem System.Linear.message {buf : Mem} {len : Nat} {m : KV} {answers : List (ReqInfo Nat × Answer)}
    (linear : s.Linear view m answers) (inMode : (Event.message buf len).InMode) {r : Request}
    (found : decoded buf len = some r) (defined : IncrDefined m r)
    (taken : s.step db (.message buf len) = .ok t) :
    t.Linear view (atomicStep s.server.settings.readOnly m (headerInfo ⟨s.parsed, 0, 0, 0⟩ buf) r).1
      (answers ++ (atomicStep s.server.settings.readOnly m (headerInfo ⟨s.parsed, 0, 0, 0⟩ buf) r).2) := by
  obtain ⟨r', found', size, outcome, sameDb, sameHand, _⟩ :=
    System.step_message taken inMode linear.behind.listed
  obtain rfl := Option.some.inj (found'.symm.trans found)
  obtain ⟨_, found'', _, mode⟩ := inMode
  obtain rfl := Option.some.inj (found''.symm.trans found)
  obtain ⟨e, reply, served, queue, replies⟩ := outcome.served
  have pending : t.pending = s.pending ++ e.toList := by
    simp only [System.pending, sameHand, queue, List.append_assoc]
  have coherent : ∀ k v, s.server.cache.lookup k = some v → m k = some v := by
    rw [← linear.map]
    exact linear.behind.coherent
  have fits : ∀ k, ¬ Oversized (m k) := by
    rw [← linear.map]
    exact drained_fits linear.fits linear.room
  have carried := served.carried coherent mode size (fits _) defined
  refine ⟨linear.behind.message ⟨_, found, size, mode⟩ taken, ?_, ?_, ?_, ?_, ?_⟩
  · rw [pending, sameDb, drained, drain_append, show drain _ _ (view s.db) s.pending = m from linear.map]
    exact carried.map
  · rw [sameDb]
    exact linear.fits
  · intro x waiting
    rw [pending] at waiting
    rcases List.mem_append.mp waiting with old | new
    · exact linear.room x old
    · exact carried.room x (Option.mem_toList.mp new)
  · rw [pending, sameDb]
    have old : ∀ later, Meets QueueEntry.mapKey QueueEntry.act (Promised (answers ++ later)) (view s.db)
        s.pending := fun later =>
      linear.promised.mono fun _ _ => Promised.mono (List.subset_append_left answers later)
    cases e with
    | none =>
      rw [Option.toList_none, List.append_nil]
      exact old _
    | some x =>
      refine (old _).concat ?_
      rw [show drain _ _ (view s.db) s.pending = m from linear.map]
      exact (carried.promised x rfl).mono (List.subset_append_right answers _)
  · rw [replies]
    exact linear.replied.append carried.replied

theorem System.Linear.dequeue {m : KV} {answers : List (ReqInfo Nat × Answer)}
    (linear : s.Linear view m answers) (taken : s.step db .dequeue = .ok t) : t.Linear view m answers := by
  obtain ⟨pending, sameDb, _, _, sameReplies, _⟩ := System.step_dequeue taken
  refine ⟨linear.behind.dequeue taken, ?_, ?_, ?_, ?_, ?_⟩
  · rw [pending, sameDb]
    exact linear.map
  · rw [sameDb]
    exact linear.fits
  · rw [pending]
    exact linear.room
  · rw [pending, sameDb]
    exact linear.promised
  · rw [sameReplies]
    exact linear.replied

theorem System.Linear.execute (backend : MapBackend db view) (accepts : ∀ d k v, (db.set d k v).1 = true)
    {m : KV} {answers : List (ReqInfo Nat × Answer)} (linear : s.Linear view m answers)
    (taken : s.step db .execute = .ok t) : t.Linear view m answers := by
  have accepted : ∀ d (e : QueueEntry Nat), ¬ db.Refuses d e := by
    rintro d e ⟨v, _, no⟩
    exact absurd ((accepts d e.mapKey v).symm.trans no) (by decide)
  have harmless : RefusalHarmless db view s .execute := fun e _ refused => (accepted _ e refused).elim
  have behind := linear.behind.execute backend harmless taken
  rcases System.step_execute taken with ⟨_, rfl⟩ | ⟨e, d, r, busy, done, rfl⟩
  · exact linear
  · have pending : s.pending = e :: s.server.queue := by
      rw [System.pending, busy]
      rfl
    have mapped := linear.behind.mapped
    have map := linear.map
    have room := linear.room
    have promised := linear.promised
    rw [pending] at mapped map room promised
    obtain rfl := processOp_after (mapped e List.mem_cons_self) done
    have view_after := backend.after_eq (mapped e List.mem_cons_self) (accepted s.db e) (linear.fits _)
    obtain rfl := processOp_responds backend accepts (mapped e List.mem_cons_self) (linear.fits _) done
    refine ⟨behind, ?_, fun k => ?_, fun x waiting => room x (List.mem_cons_of_mem e waiting), ?_, ?_⟩
    · change drained (view (db.after s.db e)) s.server.queue = m
      rw [view_after]
      exact map
    · change ¬ Oversized (view (db.after s.db e) k)
      rw [view_after]
      exact apply_fits linear.fits (room e List.mem_cons_self) k
    · change Meets _ _ _ (view (db.after s.db e)) s.server.queue
      rw [view_after]
      exact promised.2
    · intro req reply member toDb
      rcases List.mem_append.mp member with before | now
      · exact linear.replied req reply before toDb
      · obtain ⟨reply', responds, same⟩ := Option.map_eq_some_iff.mp (Option.mem_toList.mp now)
        obtain ⟨rfl, rfl⟩ := Prod.mk.inj same
        exact promised.1.2 reply' responds

theorem requests_message {n : Nat} {buf : Mem} {len : Nat} {r : Request} (found : decoded buf len = some r)
    (rest : List Event) : requests n (.message buf len :: rest) =
      (headerInfo ⟨n, 0, 0, 0⟩ buf, r) :: requests (n + 1) rest := by
  rw [requests, found]
  rfl

/- With a bucket to work on, no step of database mode faults. -/
theorem System.Linear.step_total (backend : MapBackend db view) {m : KV}
    {answers : List (ReqInfo Nat × Answer)} (linear : s.Linear view m answers)
    (buckets : 0 < s.server.cache.hashlen) {ev : Event} {rest : List Event} (inMode : ev.InMode)
    (defined : NumbersDefined s.server.settings.readOnly m (requests s.parsed (ev :: rest))) :
    ∃ t, s.step db ev = .ok t := by
  cases ev with
  | message buf len =>
    obtain ⟨r, found, size, mode⟩ := inMode
    rw [requests_message found] at defined
    have coherent : ∀ k v, s.server.cache.lookup k = some v → m k = some v := by
      rw [← linear.map]
      exact linear.behind.coherent
    have nonempty : IncrNonEmpty s.server.cache r.cacheOp := by
      cases r with
      | incr key increment => exact fun empty => (defined.1 [] (coherent key [] empty)).1 rfl
      | _ => trivial
    obtain ⟨server, done⟩ := serve_total (headerInfo ⟨s.parsed, 0, 0, 0⟩ buf) linear.behind.listed buckets
      nonempty
    refine ⟨{ s with server := server, parsed := s.parsed + 1 }, ?_⟩
    simp only [System.step, parseMessage_decoded found size, done, ok_bind, pure_ok]
  | dequeue =>
    simp only [System.step]
    split <;> exact ⟨_, rfl⟩
  | execute =>
    cases busy : s.hand with
    | none => exact ⟨s, by simp only [System.step, busy]⟩
    | some e =>
      have pending : s.pending = e :: s.server.queue := by
        rw [System.pending, busy]
        rfl
      have mapped := linear.behind.mapped
      have promised := linear.promised
      rw [pending] at mapped promised
      have nonempty : e.operation = .incr → db.get s.db e.mapKey dbBufSize ≠ some [] := by
        intro incr
        rw [backend.get_eq (linear.fits _)]
        exact promised.1.1 incr
      obtain ⟨r, done⟩ := processOp_ok s.db (mapped e List.mem_cons_self) nonempty
      obtain ⟨t, taken, _⟩ := System.step_executed busy done
      exact ⟨t, taken⟩

/-- A run keeps to the map: it ends, and where it ends the system stands for the map that
took the same requests. -/
theorem System.Linear.run (backend : MapBackend db view) (accepts : ∀ d k v, (db.set d k v).1 = true)
    (evs : List Event) {s : System δ} {m : KV} {answers : List (ReqInfo Nat × Answer)}
    (linear : s.Linear view m answers) (inMode : ∀ ev ∈ evs, ev.InMode)
    (defined : NumbersDefined s.server.settings.readOnly m (requests s.parsed evs)) :
    (0 < s.server.cache.hashlen → ∃ t, Runs.run (System.step db) s evs = .ok t) ∧
    ∀ t, Runs.run (System.step db) s evs = .ok t →
      t.Linear view (atomicRun s.server.settings.readOnly m (requests s.parsed evs)).1
        (answers ++ (atomicRun s.server.settings.readOnly m (requests s.parsed evs)).2) := by
  induction evs generalizing s m answers with
  | nil =>
    refine ⟨fun _ => ⟨s, rfl⟩, fun t ran => ?_⟩
    cases ran
    rw [show (atomicRun s.server.settings.readOnly m (requests s.parsed [])).2 = [] from rfl,
      List.append_nil]
    exact linear
  | cons ev rest ih =>
    have mode := inMode ev List.mem_cons_self
    have modes : ∀ ev' ∈ rest, ev'.InMode := fun ev' hev => inMode ev' (List.mem_cons_of_mem ev hev)
    have total := fun buckets => linear.step_total backend buckets mode defined
    have tail : ∀ u, s.step db ev = .ok u → u.server.cache.hashlen = s.server.cache.hashlen ∧
        (0 < u.server.cache.hashlen → ∃ t, Runs.run (System.step db) u rest = .ok t) ∧
        ∀ t, Runs.run (System.step db) u rest = .ok t →
          t.Linear view (atomicRun s.server.settings.readOnly m (requests s.parsed (ev :: rest))).1
            (answers ++ (atomicRun s.server.settings.readOnly m (requests s.parsed (ev :: rest))).2) := by
      intro u taken
      cases ev with
      | message buf len =>
        obtain ⟨r, found, size, outcome, _, _, parsed⟩ := System.step_message taken mode linear.behind.listed
        rw [requests_message found] at defined ⊢
        have next := linear.message mode found defined.1 taken
        have after := ih next modes (by rw [outcome.settings, parsed]; exact defined.2)
        rw [outcome.settings, parsed, List.append_assoc] at after
        exact ⟨outcome.hashlen, after⟩
      | dequeue =>
        obtain ⟨_, _, cache, settings, _, parsed⟩ := System.step_dequeue taken
        have after := ih (linear.dequeue taken) modes (by rw [settings, parsed]; exact defined)
        rw [settings, parsed] at after
        exact ⟨by rw [cache], after⟩
      | execute =>
        have next := linear.execute backend accepts taken
        rcases System.step_execute taken with ⟨_, rfl⟩ | ⟨e, d, r, _, _, rfl⟩
        · exact ⟨rfl, ih next modes defined⟩
        · exact ⟨rfl, ih next modes defined⟩
    refine ⟨fun buckets => ?_, fun t ran => ?_⟩
    · obtain ⟨u, taken⟩ := total buckets
      obtain ⟨same, ends, _⟩ := tail u taken
      rw [Runs.run_cons_ok taken]
      exact ends (same ▸ buckets)
    · obtain ⟨u, taken, ran⟩ := Runs.run_cons_inv ran
      exact (tail u taken).2.2 t ran

end

/-- In every run of database mode the cache shows what the queued operations make of the
database, that is the one map of all requests parsed so far, and every reply is its answer.
Only a table without buckets stops a run. -/
theorem database_mode_linearizable {db : DbConn δ} {view : δ → KV} (backend : MapBackend db view)
    (accepts : ∀ d k v, (db.set d k v).1 = true) {cdOk tableOk : Bool} {numobjs flags : Nat} {cd : Cache}
    (created : cacheCreate cdOk tableOk numobjs flags = some cd) (settings : Settings) {d : δ}
    (bounded : ∀ k v, view d k = some v → v.length ≤ 65536) {evs : List Event}
    (inMode : ∀ ev ∈ evs, ev.InMode)
    (defined : NumbersDefined settings.readOnly (view d) (requests 0 evs)) :
    (0 < cd.hashlen → ∃ s, Runs.run (System.step db) (System.start cd settings d) evs = .ok s) ∧
    ∀ s, Runs.run (System.step db) (System.start cd settings d) evs = .ok s →
      (∀ k v, s.server.cache.lookup k = some v → drained (view s.db) s.pending k = some v) ∧
      drained (view s.db) s.pending = (atomicRun settings.readOnly (view d) (requests 0 evs)).1 ∧
      ∀ req reply, (req, reply) ∈ s.server.replies → req.cacheOnly = false →
        ∃ a, (req, a) ∈ (atomicRun settings.readOnly (view d) (requests 0 evs)).2 ∧
          reply.answer = some a := by
  have initial : (System.start cd settings d).Linear view (view d) [] := by
    refine ⟨System.start_behind created settings d, rfl, ?_, ?_, trivial, ?_⟩
    · rintro k ⟨v, held, large⟩
      exact absurd (bounded k v held) (Nat.not_le_of_lt large)
    · intro e waiting
      exact (List.not_mem_nil waiting).elim
    · intro req reply member
      exact (List.not_mem_nil member).elim
  obtain ⟨ends, linear⟩ := initial.run backend accepts evs inMode defined
  refine ⟨ends, fun s ran => ?_⟩
  have final := linear s ran
  exact ⟨final.behind.coherent, final.map, final.replied⟩

/-- A synchronous SET of the text 5, then an INCR by 2, both still to be executed. -/
def setAndIncrement : List Event :=
  [.message (Mem.ofBytes [0x10, 0, 0, 0, 0x01, 0x02, 0, 2, 0, 0, 0, 1, 0, 0, 0, 2, 65, 53, 0]) 19,
    .message (Mem.ofBytes [0x10, 0, 0, 1, 0x01, 0x05, 0, 0, 0, 0, 0, 1, 65, 0, 0, 0, 0, 0, 0, 0, 2]) 21,
    .dequeue, .execute, .dequeue, .execute]

theorem setAndIncrement_requests : requests 0 setAndIncrement =
    [(⟨0, 0, 0x102, 2⟩, .set [65] [53, 0]), (⟨1, 0x1000000, 0x105, 0⟩, .incr [65] 2)] := by
  decide

theorem database_mode_linearizable_incr :
    ∃ s, Runs.run (System.step mapDb) (System.start emptyCache ⟨false⟩ fun _ => none) setAndIncrement = .ok s ∧
      ∀ req reply, (req, reply) ∈ s.server.replies → req.cacheOnly = false →
        ∃ a, (req, a) ∈ (atomicRun false (fun _ => none) (requests 0 setAndIncrement)).2 ∧
          reply.answer = some a := by
  have inMode : ∀ ev ∈ setAndIncrement, ev.InMode := by
    intro ev member
    simp only [setAndIncrement, List.mem_cons, List.not_mem_nil, or_false] at member
    rcases member with rfl | rfl | rfl | rfl | rfl | rfl
    · exact ⟨.set [65] [53, 0], by decide, by decide, show ReqInfo.cacheOnly _ = false by decide⟩
    · exact ⟨.incr [65] 2, by decide, by decide, show ReqInfo.cacheOnly _ = false by decide⟩
    · trivial
    · trivial
    · trivial
    · trivial
  have defined : NumbersDefined false (fun _ => none) (requests 0 setAndIncrement) := by
    rw [setAndIncrement_requests]
    refine ⟨trivial, fun v held => ?_, trivial⟩
    obtain rfl : [53, 0] = v := Option.some.inj held
    exact ⟨by decide, fun _ => by unfold InInt64; decide⟩
  obtain ⟨ends, linear⟩ := database_mode_linearizable mapDb_backend (fun _ _ _ => rfl)
    emptyCache_created ⟨false⟩ (d := fun _ => none)
    (fun k v held => by contradiction) inMode defined
  obtain ⟨s, ran⟩ := ends (by decide)
  exact ⟨s, ran, (linear s ran).2.2⟩

end Nmdb
