import Nmdb.Backend
import Nmdb.Served
import Nmdb.Atomicity

/-! The cache against the database. The main thread changes the cache when it queues an
operation, so the cache shows what the map will be once the queue is empty; a set() that
the backend refuses after that leaves the cache ahead. -/
namespace Nmdb

open WriteBehind

variable {δ ν : Type}

theorem entryIncrement_entry (req : ReqInfo ν) (key : Bytes) (increment : Int) :
    entryIncrement (Request.entry req (.incr key increment)) = wrap64 increment := by
  have word : ofInt64 increment < 2 ^ 64 := by
    unfold ofInt64
    omega
  exact congrArg toInt64 (load64_bytes64 word)

theorem incrText_length {v : Bytes} {n : Int} (fits : InInt64 n) :
    (Bucket.incrText v n).length = max 24 v.length := by
  simp only [Bucket.incrText, List.length_append, padded_length fits, List.length_singleton,
    List.length_drop]
  omega

namespace Served

variable {readOnly : Bool} {req : ReqInfo ν} {before after m : KV} {r : Request}
  {e : Option (QueueEntry ν)} {reply : Option Reply} {os : List (QueueEntry ν)}

/- Cached values that the database thread can read. -/
def Short (cache : KV) : Prop := ∀ k v, cache k = some v → v.length ≤ dbBufSize

theorem short_update {key val : Bytes} (short : Short before) (size : val.length ≤ dbBufSize) :
    Short (Function.update before key (some val)) := by
  intro k v held
  by_cases here : k = key
  · rw [here, Function.update_self, Option.some.injEq] at held
    exact held ▸ size
  · rw [Function.update_of_ne here] at held
    exact short k v held

theorem update_none {key k v : Bytes} (held : Function.update before key none k = some v) :
    k ≠ key ∧ before k = some v := by
  have other : k ≠ key := by
    rintro rfl
    rw [Function.update_self] at held
    contradiction
  rw [Function.update_of_ne other] at held
  exact ⟨other, held⟩

theorem short (served : Served readOnly req before after r e reply) (size : r.size ≤ maxSize)
    (before_short : Short before) : Short after := by
  cases served with
  | @set key val _ _ here others =>
    intro k v held
    by_cases at_key : k = key
    · rw [at_key, here, Option.some.injEq] at held
      simp only [Request.size, maxSize, dbBufSize] at size ⊢
      rw [← held]
      omega
    · exact before_short k v (others k v at_key held)
  | casHit _ _ _ changed =>
    rw [changed]
    refine short_update before_short ?_
    simp only [Request.size, maxSize, dbBufSize] at size ⊢
    omega
  | incrHit _ _ held _ changed =>
    rw [changed]
    refine short_update before_short ?_
    have small := before_short _ _ held
    rw [incrText_length (wrap64_range _)]
    simp only [dbBufSize] at small ⊢
    omega
  | del _ _ gone =>
    rw [gone]
    exact fun k v held => before_short k v (update_none held).2
  | cacheDel _ gone =>
    rw [gone]
    exact fun k v held => before_short k v (update_none held).2
  | readOnly _ _ kept => exact kept ▸ before_short
  | getHit _ kept => exact kept ▸ before_short
  | getMiss _ _ kept => exact kept ▸ before_short
  | cacheMiss _ kept => exact kept ▸ before_short
  | casMiss _ _ _ kept => exact kept ▸ before_short
  | casOther _ _ _ _ kept => exact kept ▸ before_short
  | incrMiss _ _ _ kept => exact kept ▸ before_short
  | incrOther _ _ _ _ kept => exact kept ▸ before_short

theorem mapped (served : Served readOnly req before after r e reply) : ∀ x ∈ e, x.Mapped := by
  intro x queued
  cases served with
  | getMiss => obtain rfl := Option.some.inj queued; exact .inl rfl
  | set => obtain rfl := Option.some.inj queued; exact .inr (.inl rfl)
  | del => obtain rfl := Option.some.inj queued; exact .inr (.inr (.inl rfl))
  | casHit => obtain rfl := Option.some.inj queued; exact .inr (.inr (.inr (.inl rfl)))
  | casMiss => obtain rfl := Option.some.inj queued; exact .inr (.inr (.inr (.inl rfl)))
  | incrHit => obtain rfl := Option.some.inj queued; exact .inr (.inr (.inr (.inr rfl)))
  | incrMiss => obtain rfl := Option.some.inj queued; exact .inr (.inr (.inr (.inr rfl)))
  | _ => contradiction

/-- Whatever a request does to the cache, the entry it queues does to the map. -/
theorem coherent (served : Served readOnly req before after r e reply) (short : Short before)
    (coherent : Coherent QueueEntry.mapKey QueueEntry.act before m os) :
    Coherent QueueEntry.mapKey QueueEntry.act after m (os ++ e.toList) := by
  have quiet : after = before → Coherent QueueEntry.mapKey QueueEntry.act after m (os ++ []) := by
    rintro rfl
    rwa [List.append_nil]
  cases served with
  | readOnly _ _ kept => exact quiet kept
  | getHit _ kept => exact quiet kept
  | cacheMiss _ kept => exact quiet kept
  | casOther _ _ _ _ kept => exact quiet kept
  | incrOther _ _ _ _ kept => exact quiet kept
  | cacheDel _ gone =>
    rw [gone, Option.toList_none, List.append_nil]
    exact coherent.forget fun k v held => (update_none held).2
  | getMiss _ absent kept =>
    subst kept
    refine coherent.push (fun _ _ _ held => held) fun v held => ?_
    exact absurd (absent.symm.trans held) (by simp)
  | set _ _ here others =>
    exact coherent.push others fun v held => here.symm.trans held
  | del _ _ gone =>
    rw [gone]
    exact coherent.push_update rfl rfl
  | casMiss _ _ absent kept =>
    subst kept
    refine coherent.push (fun _ _ _ held => held) fun v held => ?_
    exact absurd (absent.symm.trans held) (by simp)
  | casHit _ _ held changed =>
    have value := coherent _ _ held
    have fits := short _ _ held
    rw [changed]
    refine coherent.push_update rfl ?_
    rw [value]
    simp only [QueueEntry.act, Request.entry, fits, true_and, if_true, Option.getD_some]
  | incrMiss _ _ absent kept =>
    subst kept
    refine coherent.push (fun _ _ _ held => held) fun v held => ?_
    exact absurd (absent.symm.trans held) (by simp)
  | @incrHit key old increment _ _ held number changed =>
    have value := coherent _ _ held
    have fits := short _ _ held
    have operation : (Request.entry req (.incr key increment)).operation = .incr := rfl
    rw [changed]
    refine coherent.push_update rfl ?_
    rw [value]
    simp only [QueueEntry.act, operation, fits, number, and_self, if_true, entryIncrement_entry,
      wrap64_add_wrap64]

end Served

/-- The messages a run of database mode may contain; the database thread moves freely. -/
def Event.InMode : Event → Prop
  | .message buf len => ∃ r, decoded buf len = some r ∧ r.size ≤ maxSize ∧
      r.DatabaseMode (headerInfo (ReqInfo.mk 0 0 0 0) buf)
  | .dequeue => True
  | .execute => True

/-- The cache shows what the database will hold once the waiting operations are executed. -/
def System.Coherent (view : δ → KV) (s : System δ) : Prop :=
  ∀ k v, s.server.cache.lookup k = some v → drained (view s.db) s.pending k = some v

structure System.Behind (view : δ → KV) (s : System δ) : Prop where
  listed : s.server.cache.Listed
  short : Served.Short s.server.cache.lookup
  mapped : ∀ e ∈ s.pending, e.Mapped
  coherent : s.Coherent view

/-- No set() is refused whose key the cache holds, unless the operations waiting behind it
leave the key the same without it. -/
def RefusalHarmless (db : DbConn δ) (view : δ → KV) (s : System δ) : Event → Prop
  | .execute => ∀ e, s.hand = some e → db.Refuses s.db e → s.server.cache.lookup e.mapKey = none ∨
      drained (view s.db) s.server.queue e.mapKey = drained (view s.db) (e :: s.server.queue) e.mapKey
  | _ => True

def StaysCoherent (db : DbConn δ) (view : δ → KV) (s : System δ) (ev : Event) : Prop :=
  ∀ t, s.step db ev = .ok t → t.Coherent view

section

variable {db : DbConn δ} {view : δ → KV} {s t : System δ}

theorem System.step_message {buf : Mem} {len : Nat} (taken : s.step db (.message buf len) = .ok t)
    (inMode : (Event.message buf len).InMode) (listed : s.server.cache.Listed) :
    ∃ r, decoded buf len = some r ∧ r.size ≤ maxSize ∧
      ServeOutcome s.server t.server (headerInfo ⟨s.parsed, 0, 0, 0⟩ buf) r ∧
      t.db = s.db ∧ t.hand = s.hand ∧ t.parsed = s.parsed + 1 := by
  obtain ⟨r, found, size, mode⟩ := inMode
  obtain ⟨⟨_, server⟩, parsed, same⟩ := bind_eq_ok.mp taken
  rw [parseMessage_decoded found size] at parsed
  obtain ⟨server', done, same'⟩ := bind_eq_ok.mp parsed
  cases same'
  cases same
  exact ⟨r, found, size, serve_served listed mode done, rfl, rfl, rfl⟩

theorem System.step_dequeue (taken : s.step db .dequeue = .ok t) :
    t.pending = s.pending ∧ t.db = s.db ∧ t.server.cache = s.server.cache ∧
      t.server.settings = s.server.settings ∧ t.server.replies = s.server.replies ∧ t.parsed = s.parsed := by
  simp only [System.step] at taken
  split at taken
  case h_1 idle waiting =>
    cases taken
    refine ⟨?_, rfl, rfl, rfl, rfl, rfl⟩
    rw [System.pending, System.pending, idle, waiting]
    rfl
  case h_2 =>
    cases taken
    exact ⟨rfl, rfl, rfl, rfl, rfl, rfl⟩

theorem System.step_execute (taken : s.step db .execute = .ok t) :
    s.hand = none ∧ t = s ∨
    ∃ e d r, s.hand = some e ∧ processOp db true s.db e = .ok (d, r) ∧
      t = { s with db := d, hand := none, server := { s.server with
        replies := s.server.replies ++ (r.map fun x => (e.req, x)).toList } } := by
  simp only [System.step] at taken
  split at taken
  case h_1 idle =>
    cases taken
    exact .inl ⟨idle, rfl⟩
  case h_2 e busy =>
    obtain ⟨⟨d, r⟩, done, same⟩ := bind_eq_ok.mp taken
    refine .inr ⟨e, d, r, busy, done, ?_⟩
    cases same
    cases r with
    | none => simp only [Option.map_none, Option.toList_none, List.append_nil]
    | some reply => rfl

theorem System.step_executed {e : QueueEntry Nat} {d : δ} {r : Option Reply} (busy : s.hand = some e)
    (done : processOp db true s.db e = .ok (d, r)) :
    ∃ t, s.step db .execute = .ok t ∧ t.db = d ∧ t.server.cache = s.server.cache ∧
      t.pending = s.server.queue := by
  simp only [System.step, busy, done, ok_bind, pure_ok]
  cases r with
  | none => exact ⟨_, rfl, rfl, rfl, rfl⟩
  | some reply => exact ⟨_, rfl, rfl, rfl, rfl⟩

theorem System.Behind.message {buf : Mem} {len : Nat} (behind : s.Behind view)
    (inMode : (Event.message buf len).InMode) (taken : s.step db (.message buf len) = .ok t) :
    t.Behind view := by
  obtain ⟨r, _, size, outcome, sameDb, sameHand, _⟩ := System.step_message taken inMode behind.listed
  obtain ⟨e, reply, served, queue, _⟩ := outcome.served
  have pending : t.pending = s.pending ++ e.toList := by
    simp only [System.pending, sameHand, queue, List.append_assoc]
  refine ⟨outcome.listed, served.short size behind.short, fun x waiting => ?_, ?_⟩
  · rw [pending] at waiting
    rcases List.mem_append.mp waiting with old | new
    · exact behind.mapped x old
    · exact served.mapped x (Option.mem_toList.mp new)
  · unfold System.Coherent
    rw [pending, sameDb]
    exact served.coherent behind.short behind.coherent

theorem System.Behind.dequeue (behind : s.Behind view) (taken : s.step db .dequeue = .ok t) :
    t.Behind view := by
  obtain ⟨pending, sameDb, sameCache, _⟩ := System.step_dequeue taken
  refine ⟨sameCache ▸ behind.listed, sameCache ▸ behind.short, pending ▸ behind.mapped, ?_⟩
  unfold System.Coherent
  rw [pending, sameDb, sameCache]
  exact behind.coherent

/- Executing an entry keeps what the cache shows, if the entry is not refused. -/
theorem drained_after (backend : MapBackend db view) {d : δ} {e : QueueEntry ν} (mapped : e.Mapped)
    (accepted : ¬ db.Refuses d e) {es : List (QueueEntry ν)} {k v : Bytes} (small : v.length ≤ dbBufSize)
    (shown : drained (view d) (e :: es) k = some v) : drained (view (db.after d e)) es k = some v := by
  have gone : ¬ Oversized (drained (view d) (e :: es) k) := by
    rintro ⟨w, same, large⟩
    obtain rfl := Option.some.inj (shown.symm.trans same)
    exact absurd large (Nat.not_lt.mpr small)
  by_cases here : k = e.mapKey
  · subst here
    rcases backend.after_at mapped accepted with same | ⟨_, stays⟩
    · rw [← shown, drained_cons]
      exact drain_congr (same.trans (apply_at (view d) e).symm) es
    · rw [drained_cons] at gone
      rw [← shown, drained_cons]
      refine drain_forgets act_oversized ?_ gone _
      rw [apply_at]
      exact stays
  · rw [← shown, drained_cons]
    refine drain_congr ?_ es
    rw [backend.after_other here, apply_other _ here]

theorem System.Behind.execute (backend : MapBackend db view) (behind : s.Behind view)
    (harmless : RefusalHarmless db view s .execute) (taken : s.step db .execute = .ok t) :
    t.Behind view := by
  rcases System.step_execute taken with ⟨_, rfl⟩ | ⟨e, d, r, busy, done, rfl⟩
  · exact behind
  · have pending : s.pending = e :: s.server.queue := by
      rw [System.pending, busy]
      rfl
    have coherent := behind.coherent
    have mapped := behind.mapped
    unfold System.Coherent at coherent
    rw [pending] at coherent mapped
    obtain rfl := processOp_after (mapped e List.mem_cons_self) done
    refine ⟨behind.listed, behind.short, fun x waiting => mapped x (List.mem_cons_of_mem e waiting),
      fun k v held => ?_⟩
    change drained (view (db.after s.db e)) s.server.queue k = some v
    have shown := coherent k v held
    by_cases refused : db.Refuses s.db e
    · rw [backend.after_refused refused]
      by_cases here : k = e.mapKey
      · rcases harmless e busy refused with absent | same
        · rw [here] at held
          exact absurd (absent.symm.trans held) (by simp)
        · rw [here] at shown ⊢
          exact same.trans shown
      · rw [← shown, drained_cons]
        exact drain_congr (apply_other _ here).symm _
    · exact drained_after backend (mapped e List.mem_cons_self) refused (behind.short k v held) shown

theorem System.Behind.step (backend : MapBackend db view) (behind : s.Behind view) {ev : Event}
    (inMode : ev.InMode) (harmless : RefusalHarmless db view s ev) (taken : s.step db ev = .ok t) :
    t.Behind view := by
  cases ev with
  | message buf len => exact behind.message inMode taken
  | dequeue => exact behind.dequeue taken
  | execute => exact behind.execute backend harmless taken

/- Only an increment of an empty value faults. -/
theorem processOp_ok (d : δ) {e : QueueEntry ν} (mapped : e.Mapped)
    (nonempty : e.operation = .incr → db.get d e.mapKey dbBufSize ≠ some []) :
    ∃ r, processOp db true d e = .ok (db.after d e, r) := by
  obtain ⟨⟨d', r⟩, done⟩ : ∃ x, processOp db true d e = .ok x := processOp_total fun incr _ => nonempty incr
  obtain rfl := processOp_after mapped done
  exact ⟨r, done⟩

theorem refused_nonempty {d : δ} {e : QueueEntry ν} (refused : db.Refuses d e) (op : e.operation = .incr) :
    db.get d e.mapKey dbBufSize ≠ some [] := by
  intro empty
  obtain ⟨v, written, _⟩ := refused
  simp only [DbConn.writes, op, empty, List.getLast?_nil] at written
  contradiction

/-- One step keeps the cache on what the database will hold exactly if no refusal in it does harm. -/
theorem staysCoherent_iff (backend : MapBackend db view) (behind : s.Behind view) {ev : Event}
    (inMode : ev.InMode) : StaysCoherent db view s ev ↔ RefusalHarmless db view s ev := by
  constructor
  · intro stays
    cases ev with
    | message buf len => trivial
    | dequeue => trivial
    | execute =>
      intro e busy refused
      cases held : s.server.cache.lookup e.mapKey with
      | none => exact .inl rfl
      | some v =>
        have pending : s.pending = e :: s.server.queue := by
          rw [System.pending, busy]
          rfl
        have mapped : e.Mapped := behind.mapped e (by rw [pending]; exact List.mem_cons_self)
        obtain ⟨r, done⟩ := processOp_ok s.db mapped (refused_nonempty refused)
        have shown := behind.coherent _ v held
        rw [pending] at shown
        obtain ⟨t, taken, sameDb, sameCache, waiting⟩ := System.step_executed busy done
        have after := stays t taken e.mapKey v (sameCache ▸ held)
        rw [sameDb, waiting, backend.after_refused refused] at after
        exact .inr (after.trans shown.symm)
  · intro harmless t taken
    exact (behind.step backend inMode harmless taken).coherent

end

theorem System.start_behind {view : δ → KV} {cdOk tableOk : Bool} {numobjs flags : Nat} {cd : Cache}
    (created : cacheCreate cdOk tableOk numobjs flags = some cd) (settings : Settings) (d : δ) :
    (System.start cd settings d).Behind view := by
  obtain ⟨listed, empty⟩ := cacheCreate_listed created
  have absent : ∀ k v, cd.lookup k ≠ some v := fun k v held => by
    rw [empty k] at held
    contradiction
  exact ⟨listed, fun k v held => (absent k v held).elim, fun e waiting => (List.not_mem_nil waiting).elim,
    fun k v held => (absent k v held).elim⟩

/-- Whatever set() calls the backend refuses: the cache shows, in every state of a run, what
the database will hold exactly when every refusal is harmless; then, whenever nothing
waits, every cached value is the one in the database. -/
theorem cache_behind_database_iff {db : DbConn δ} {view : δ → KV} (backend : MapBackend db view)
    {cdOk tableOk : Bool} {numobjs flags : Nat} {cd : Cache}
    (created : cacheCreate cdOk tableOk numobjs flags = some cd) (settings : Settings) (d : δ)
    (evs : List Event) (inMode : ∀ ev ∈ evs, ev.InMode) :
    (Runs.Along (System.step db) (StaysCoherent db view) (System.start cd settings d) evs ↔
      Runs.Along (System.step db) (RefusalHarmless db view) (System.start cd settings d) evs) ∧
    (Runs.Along (System.step db) (RefusalHarmless db view) (System.start cd settings d) evs →
      ∀ s, Runs.run (System.step db) (System.start cd settings d) evs = .ok s → s.pending = [] →
        ∀ k v, s.server.cache.lookup k = some v → view s.db k = some v) := by
  have initial : (System.start cd settings d).Behind view := System.start_behind created settings d
  have exact_steps := Runs.along_iff
    (fun s ev (behind : s.Behind view) => and_congr_right fun mode : ev.InMode =>
      staysCoherent_iff backend behind mode)
    (fun s ev t behind harmless taken => behind.step backend harmless.1 harmless.2 taken) initial evs
  refine ⟨⟨fun stays => ?_, fun harmless => ?_⟩, fun harmless s ran idle k v held => ?_⟩
  · exact (exact_steps.mp (stays.labels inMode)).mono fun _ _ h => h.2
  · exact (exact_steps.mpr (harmless.labels inMode)).mono fun _ _ h => h.2
  · have behind : s.Behind view := Runs.run_invariant
      (fun s ev t behind cond taken => System.Behind.step backend behind cond.1 cond.2 taken) initial
      (harmless.labels inMode) ran
    have shown := behind.coherent k v held
    rw [idle] at shown
    exact shown

/-- A backend that refuses every set() and so stays empty. -/
def refusing : DbConn Unit := ⟨fun _ _ _ => (false, ()), fun _ _ _ => none, fun _ _ => (false, ()), none, none⟩

theorem refusing_backend : MapBackend refusing fun _ _ => none where
  absent _ _ _ _ := rfl
  present _ _ _ _ held _ := by contradiction
  set _ _ _ := .inr ⟨rfl, rfl⟩
  del _ _ := ⟨rfl, (Function.update_eq_self _ _).symm⟩

/-- A backend that is a map. -/
def mapDb : DbConn KV where
  set m k v := (true, Function.update m k (some v))
  get m k n := (m k).filter fun v => v.length ≤ n
  del m k := ((m k).isSome, Function.update m k none)
  firstkey := none
  nextkey := none

theorem mapDb_backend : MapBackend mapDb id where
  absent m k n absent := by
    change (m k).filter _ = none
    rw [show m k = none from absent]
    rfl
  present m k v n held fits := by
    change (m k).filter _ = some v
    rw [show m k = some v from held]
    simp only [Option.filter_some, fits, decide_true, if_true]
  set _ _ _ := .inl ⟨rfl, rfl⟩
  del _ _ := ⟨rfl, rfl⟩

/- What can be seen of the system at the end of a run: whether anything waits, the
replies, and what the cache holds for a key. -/
def System.observed (x : Except Fault (System δ)) (key : Bytes) : Option (Bool × List Reply × Option Bytes) :=
  match x with
  | .ok s => some (s.pending.isEmpty, s.server.replies.map Prod.snd, s.server.cache.lookup key)
  | .error _ => none

theorem System.observed_some {x : Except Fault (System δ)} {key : Bytes}
    {seen : Bool × List Reply × Option Bytes} (looked : System.observed x key = some seen) :
    ∃ s, x = .ok s ∧ s.pending.isEmpty = seen.1 ∧ s.server.replies.map Prod.snd = seen.2.1 ∧
      s.server.cache.lookup key = seen.2.2 := by
  cases x with
  | error e => contradiction
  | ok s =>
    cases looked
    exact ⟨s, rfl, rfl, rfl, rfl⟩

/-- SET of key 41 with value 07, answered after the write. -/
def syncSetMessage : Mem :=
  Mem.ofBytes [0x10, 0, 0, 0, 0x01, 0x02, 0, 2, 0, 0, 0, 1, 0, 0, 0, 1, 65, 7]

def setAndWrite : List Event := [.message syncSetMessage 18, .dequeue, .execute]

/-- DEL of that key comes before the database thread has a turn. -/
def setDelAndWrite : List Event :=
  [.message syncSetMessage 18, .message (Mem.ofBytes [0x10, 0, 0, 1, 0x01, 0x03, 0, 2, 0, 0, 0, 1, 65]) 13,
    .dequeue, .execute, .dequeue, .execute]

theorem setDelAndWrite_inMode : ∀ ev ∈ setDelAndWrite, ev.InMode := by
  simp only [setDelAndWrite, List.forall_mem_cons]
  exact ⟨⟨.set [65] [7], by decide, by decide, show ReqInfo.cacheOnly _ = false by decide⟩,
    ⟨.del [65], by decide, by decide, trivial⟩,
    trivial, trivial, trivial, trivial, List.forall_mem_nil _⟩

/- The set() is refused, and nothing shows it any more. -/
theorem cache_behind_database_iff_refused :
    ∃ s, Runs.run (System.step refusing) (System.start emptyCache ⟨false⟩ ()) setDelAndWrite = .ok s ∧
      s.server.replies.map Prod.snd = [.err .db, .mini .notin] ∧ ∀ k, s.server.cache.lookup k = none := by
  have seen : System.observed (Runs.run
    (System.step refusing) (System.start emptyCache ⟨false⟩ ()) setDelAndWrite) [65] =
      some (true, [.err .db, .mini .notin], none) := by decide +kernel
  obtain ⟨s, ran, idle, replies, _⟩ := System.observed_some seen
  have along : Runs.Along (System.step refusing) (RefusalHarmless refusing fun _ _ => none)
      (System.start emptyCache ⟨false⟩ ()) setDelAndWrite := by
    have gone : Runs.Along (System.step refusing)
        (fun s _ => ∀ e ∈ s.hand.toList, s.server.cache.lookup e.mapKey = none)
        (System.start emptyCache ⟨false⟩ ()) setDelAndWrite := by decide +kernel
    refine gone.mono fun s ev absent => ?_
    cases ev with
    | execute => exact fun e held _ => .inl (absent e (by rw [held]; exact List.mem_singleton_self e))
    | _ => trivial
  have kept := (cache_behind_database_iff refusing_backend emptyCache_created ⟨false⟩ () setDelAndWrite
    setDelAndWrite_inMode).2 along s ran (List.isEmpty_iff.mp idle)
  exact ⟨s, ran, replies, fun k => Option.eq_none_iff_forall_ne_some.mpr fun v held => by cases kept k v held⟩

/-- The client is told that the write failed; the cache keeps the value. -/
theorem refused_set_stays_in_cache : MapBackend refusing (fun _ _ => none) ∧
    ∃ s, Runs.run (System.step refusing) (System.start emptyCache ⟨false⟩ ()) setAndWrite = .ok s ∧
      s.pending = [] ∧ s.server.replies.map Prod.snd = [.err .db] ∧
      s.server.cache.lookup [65] = some [7] ∧ refusing.get s.db [65] dbBufSize = none := by
  have seen : System.observed (Runs.run
    (System.step refusing) (System.start emptyCache ⟨false⟩ ()) setAndWrite) [65] =
      some (true, [.err .db], some [7]) := by decide
  obtain ⟨s, ran, idle, replies, held⟩ := System.observed_some seen
  exact ⟨refusing_backend, s, ran, List.isEmpty_iff.mp idle, replies, held, rfl⟩

end Nmdb
