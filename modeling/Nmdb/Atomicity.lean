import Nmdb.ParseBounds

/-! Requests answered with an error. The cache is changed before the queue entry is made,
and a recycling that fails has already dropped a pair: there an error is not the end
of it, everywhere else it leaves the bindings and the queue as they were. -/
namespace Nmdb

variable {ν : Type}

/-- The request was answered, and with an error. -/
def FailsRequest (s s' : Server ν) : Prop := ∃ req e, s'.replies = s.replies ++ [(req, .err e)]

def Atomic (s s' : Server ν) : Prop :=
  FailsRequest s s' → (∀ key, s'.cache.lookup key = s.cache.lookup key) ∧ s'.queue = s.queue

/-- No queue entry is needed, or none of its allocations turns it down. -/
def EntrySpared (m : Mallocs) (req : ReqInfo ν) : Prop := req.cacheOnly = true ∨ m.EntryHad

section

variable {m : Mallocs} {s s' : Server ν} {req : ReqInfo ν} {cd cd' : Cache} {e : Option (QueueEntry ν)}
  {reply : Option Reply} {key val oldval newval : Bytes}

theorem leaves_fails (leaves : Leaves s s' req cd e reply) :
    FailsRequest s s' ↔ ∃ err, reply = some (.err err) := by
  simp only [FailsRequest, leaves.replies]
  constructor
  · rintro ⟨req', err, same⟩
    have here := List.append_cancel_left same
    cases reply with
    | none => contradiction
    | some r =>
      cases here
      exact ⟨err, rfl⟩
  · rintro ⟨err, rfl⟩
    exact ⟨req, err, rfl⟩

/- What is queued fails exactly when the entry cannot be had, and then it is not queued. -/
theorem queued_fails {async : Bool} {x : QueueEntry ν} (queued : Queued m async x e reply) :
    ((∃ err, reply = some (.err err)) ↔ ¬ m.EntryHad) ∧ ((∃ err, reply = some (.err err)) → e = none) := by
  cases queued with
  | refused missing => exact ⟨⟨fun _ => missing, fun _ => ⟨_, rfl⟩⟩, fun _ => rfl⟩
  | answered had => simp [had]
  | silent had => simp [had]

theorem ServeWay.quiet {r : Request} (way : ServeWay m cd req r cd' e reply)
    (leaves : Leaves s s' req cd' e reply)
    (fails : FailsRequest s s') : s'.queue = s.queue := by
  obtain rfl : e = none := by
    have err := (leaves_fails leaves).mp fails
    cases way with
    | getQueued _ _ queued => exact (queued_fails queued).2 err
    | setQueued _ _ queued => exact (queued_fails queued).2 err
    | delQueued _ _ queued => exact (queued_fails queued).2 err
    | casQueued _ _ _ queued => exact (queued_fails queued).2 err
    | incrQueued _ _ _ queued => exact (queued_fails queued).2 err
    | nextkey queued => exact (queued_fails queued).2 err
    | _ => rfl
  exact leaves.queue.trans (List.append_nil _)

theorem unchanged_atomic (cache : s'.cache = s.cache) (queue : FailsRequest s s' → s'.queue = s.queue) :
    Atomic s s' :=
  fun fails => ⟨fun _ => by rw [cache], queue fails⟩

theorem look_atomic {r : Request} (reads : r.writes = false) (way : ServeWay m s.cache req r cd e reply)
    (leaves : Leaves s s' req cd e reply) : Atomic s s' := by
  rcases way.cache with ⟨_, rfl⟩ | ⟨writes, _⟩
  · exact unchanged_atomic leaves.cache (way.quiet leaves)
  · rw [reads] at writes
    contradiction

theorem parseFirstkey_atomic (done : parseFirstkey m s req = .ok s') : Atomic s s' := by
  obtain ⟨e, reply, queued, leaves⟩ := parseFirstkey_way done
  refine unchanged_atomic leaves.cache fun fails => ?_
  obtain rfl := (queued_fails queued).2 ((leaves_fails leaves).mp fails)
  exact leaves.queue.trans (List.append_nil _)

/- When a write fails: by what the cache operation returns, and where it needs an entry. -/

theorem set_fails (way : ServeWay m cd req (.set key val) cd' e reply) :
    ∃ rv, cacheSet m.cache cd key val = .ok (rv, cd') ∧
      ((∃ err, reply = some (.err err)) ↔ rv ≠ 0 ∨ ¬ EntrySpared m req) := by
  cases way with
  | setRefused ran refused => exact ⟨_, ran, fun _ => .inl refused, fun _ => ⟨_, rfl⟩⟩
  | setOnly ran only =>
    refine ⟨0, ran, ?_⟩
    simp [EntrySpared, only]
  | setQueued ran toDb queued =>
    refine ⟨0, ran, (queued_fails queued).1.trans ?_⟩
    simp [EntrySpared, toDb]

theorem del_fails (way : ServeWay m cd req (.del key) cd' e reply) :
    ∃ hit, cacheDel cd key = .ok (hit, cd') ∧
      ((∃ err, reply = some (.err err)) ↔ ¬ EntrySpared m req) := by
  cases way with
  | delHit ran _ only =>
    refine ⟨_, ran, ?_⟩
    simp [EntrySpared, only]
  | delMiss ran only =>
    refine ⟨0, ran, ?_⟩
    simp [EntrySpared, only]
  | delQueued ran toDb queued =>
    refine ⟨_, ran, (queued_fails queued).1.trans ?_⟩
    simp [EntrySpared, toDb]

theorem cas_fails (way : ServeWay m cd req (.cas key oldval newval) cd' e reply) :
    ∃ rv, cacheCas m.cache cd key oldval newval = .ok (rv, cd') ∧
      ((∃ err, reply = some (.err err)) ↔ rv = -3 ∨ (rv ≠ -1 ∧ ¬ EntrySpared m req)) := by
  cases way with
  | casNomatch ran => exact ⟨-1, ran, by simp⟩
  | casRefused ran => exact ⟨-3, ran, fun _ => .inl rfl, fun _ => ⟨_, rfl⟩⟩
  | casHit ran only =>
    refine ⟨0, ran, ?_⟩
    simp [EntrySpared, only]
  | casMiss ran passed _ only =>
    refine ⟨_, ran, ?_⟩
    simp [EntrySpared, only, passed.2]
  | casQueued ran passed toDb queued =>
    refine ⟨_, ran, (queued_fails queued).1.trans ?_⟩
    simp [EntrySpared, toDb, passed]

theorem incr_fails {increment : Int} (way : ServeWay m cd req (.incr key increment) cd' e reply) :
    ∃ cres n, cacheIncr m.cache cd key increment = .ok ((cres, n), cd') ∧
      ((∃ err, reply = some (.err err)) ↔ cres = -3 ∨ (cres ≠ -2 ∧ ¬ EntrySpared m req)) := by
  cases way with
  | incrRefused ran => exact ⟨-3, _, ran, fun _ => .inl rfl, fun _ => ⟨_, rfl⟩⟩
  | incrNomatch ran => exact ⟨-2, _, ran, by simp⟩
  | incrQueued ran passed toDb queued =>
    refine ⟨_, _, ran, (queued_fails queued).1.trans ?_⟩
    simp [EntrySpared, toDb, passed]
  | incrMiss ran only =>
    refine ⟨-1, _, ran, ?_⟩
    simp [EntrySpared, only]
  | incrHit ran passed _ only =>
    refine ⟨_, _, ran, ?_⟩
    simp [EntrySpared, only, passed.1]

end

def Request.key : Request → Bytes
  | .get key => key
  | .set key _ => key
  | .del key => key
  | .cas key _ _ => key
  | .incr key _ => key
  | .nextkey key => key

namespace Bucket

/- When a request that fails leaves the bindings of its bucket: where the cache is changed
the queue entry is spared, or the change is none; and no recycling fails. -/
def AtomicOnError (b : Bucket) (m : CacheMallocs) (spared : Prop) : Request → Prop
  | .get _ => True
  | .set key val =>
    match b.get key with
    | some old => spared ∨ old = val ∨ ¬ (val.length = old.length ∨ m.val = true)
    | none =>
      if b.len = CHAINLEN then
        spared ∧ ∀ last, b.pairs.getLast? = some last → recycles m key val last = true
      else spared ∨ m.val = false
  | .del key => spared ∨ b.get key = none
  | .cas key oldval newval =>
    spared ∨ b.get key ≠ some oldval ∨ oldval = newval ∨
      ¬ (oldval.length = newval.length ∨ m.val = true)
  | .incr key increment =>
    spared ∨ ∀ v, b.get key = some v → v.getLast? = some 0 →
      incrText v (wrap64 (strtoll v + increment)) = v ∨ ¬ (24 ≤ v.length ∨ m.val = true)
  | .nextkey _ => True

section

variable {b b' : Bucket} {m : CacheMallocs} {key val oldval newval : Bytes} {rv : Int} {spared : Prop}

/- The bindings after the operations. -/
theorem get_set (k : Bytes) (l : List (Bytes × Bytes)) (n : Nat) :
    get k ⟨n, (key, val) :: Assoc.eraseKey key l⟩ = if k = key then some val else Assoc.get k l := by
  rw [get, Assoc.get_cons, Assoc.get_eraseKey]
  split <;> rfl

theorem same_of_set {n : Nat} {l : List (Bytes × Bytes)}
    (kept : ∀ k, get k ⟨n, (key, val) :: l⟩ = b.get k) : b.get key = some val := by
  rw [← kept key, get, Assoc.get_cons, if_pos rfl]

theorem set_atomic_iff (distinct : (Assoc.keys b.pairs).Nodup)
    (done : b.set m key val = .ok (rv, b')) :
    ((rv ≠ 0 ∨ ¬ spared → ∀ k, b'.get k = b.get k) ↔ b.AtomicOnError m spared (.set key val)) := by
  cases found : b.get key with
  | some old =>
    simp only [AtomicOnError, found]
    unfold set at done
    rw [show Assoc.get key b.pairs = some old from found] at done
    simp only at done
    by_cases fits : (decide (val.length = old.length) || m.val) = true
    · rw [if_pos fits] at done
      cases done
      have holds : val.length = old.length ∨ m.val = true := by simpa using fits
      constructor
      · intro keeps
        by_cases h : spared
        · exact .inl h
        · exact .inr (.inl (Option.some.inj (found.symm.trans (same_of_set (keeps (.inr h))))))
      · rintro (h | rfl | h) fails k
        · rcases fails with zero | loose
          · exact absurd rfl zero
          · exact absurd h loose
        · rw [get_set]
          by_cases hk : k = key
          · rw [if_pos hk, hk, found]
          · rw [if_neg hk, get]
        · exact absurd holds h
    · rw [if_neg fits] at done
      cases done
      have fails : ¬ (val.length = old.length ∨ m.val = true) := by simpa using fits
      exact ⟨fun _ => .inr (.inr fails), fun _ _ _ => rfl⟩
  | none =>
    simp only [AtomicOnError, found]
    unfold set at done
    rw [show Assoc.get key b.pairs = none from found] at done
    simp only at done
    by_cases full : b.len = CHAINLEN
    · rw [if_pos full, insertFull] at done
      simp only [if_pos full]
      cases last : b.pairs.getLast? with
      | none =>
        rw [last] at done
        contradiction
      | some p =>
        rw [last] at done
        simp only at done
        split at done
        · contradiction
        · split at done
          case isTrue fits =>
            cases done
            constructor
            · intro keeps
              refine ⟨?_, fun last' h => Option.some.inj h ▸ fits⟩
              by_contra loose
              exact absurd (found.symm.trans (same_of_set (keeps (.inr loose)))) (by simp)
            · rintro ⟨h, _⟩ (zero | loose)
              · exact absurd rfl zero
              · exact absurd h loose
          case isFalse fails =>
            cases done
            constructor
            · intro keeps
              obtain ⟨gone, there⟩ := Assoc.get_dropLast distinct last
              exact absurd ((keeps (.inl (by decide)) p.1).symm.trans gone) there
            · rintro ⟨_, fits⟩
              exact absurd (fits p rfl) fails
    · rw [if_neg full, insertNew] at done
      simp only [if_neg full]
      split at done
      · contradiction
      · split at done
        case isTrue fails =>
          cases done
          exact ⟨fun _ => .inr (by simpa using fails), fun _ _ _ => rfl⟩
        case isFalse fits =>
          split at done
          · contradiction
          · cases done
            constructor
            · intro keeps
              refine .inl ?_
              by_contra loose
              exact absurd (found.symm.trans (same_of_set (keeps (.inr loose)))) (by simp)
            · rintro (h | fails) (zero | loose)
              · exact absurd rfl zero
              · exact absurd h loose
              · exact absurd (by simp [fails]) fits
              · exact absurd (by simp [fails]) fits

theorem del_atomic_iff (done : b.del key = .ok (rv, b')) :
    ((¬ spared → ∀ k, b'.get k = b.get k) ↔ b.AtomicOnError m spared (.del key)) := by
  simp only [AtomicOnError]
  rcases del_cases done with ⟨v, _, found, rfl⟩ | ⟨_, absent, rfl⟩
  · constructor
    · intro keeps
      by_contra loose
      obtain ⟨loose, _⟩ := not_or.mp loose
      have gone : get key ⟨b.len - 1, Assoc.eraseKey key b.pairs⟩ = none := by
        rw [get, Assoc.get_eraseKey, if_pos rfl]
      exact absurd (gone.symm.trans ((keeps loose key).trans found)) (by simp)
    · rintro (h | absent) loose
      · exact absurd h loose
      · exact absurd (absent.symm.trans found) (by simp)
  · exact ⟨fun _ => .inr absent, fun _ _ _ => rfl⟩

/- Replacing a present value keeps the bindings if it is the same one. -/
theorem same_of_replace {v w : Bytes} (found : b.get key = some v) :
    (∀ k, get k ⟨b.len, Assoc.replace key w b.pairs⟩ = b.get k) ↔ w = v := by
  have after : ∀ k, get k ⟨b.len, Assoc.replace key w b.pairs⟩ = if k = key then some w else b.get k := by
    intro k
    rw [get, Assoc.get_replace, show Assoc.get key b.pairs = some v from found]
    rfl
  constructor
  · intro kept
    have here := kept key
    rw [after, if_pos rfl, found] at here
    exact Option.some.inj here
  · rintro rfl k
    rw [after]
    by_cases hk : k = key
    · rw [if_pos hk, hk, found]
    · rw [if_neg hk]

theorem cas_atomic_iff (done : b.cas m key oldval newval = .ok (rv, b')) :
    ((rv = -3 ∨ (rv ≠ -1 ∧ ¬ spared) → ∀ k, b'.get k = b.get k) ↔
      b.AtomicOnError m spared (.cas key oldval newval)) := by
  simp only [AtomicOnError]
  unfold cas at done
  cases found : b.get key with
  | none =>
    rw [show Assoc.get key b.pairs = none from found] at done
    cases done
    exact ⟨fun _ => .inr (.inl (by simp)), fun _ _ _ => rfl⟩
  | some v =>
    rw [show Assoc.get key b.pairs = some v from found] at done
    simp only at done
    by_cases same : v = oldval
    · subst same
      rw [if_neg (not_not_intro rfl)] at done
      by_cases fits : (decide (v.length = newval.length) || m.val) = true
      · rw [if_pos fits] at done
        cases done
        have holds : v.length = newval.length ∨ m.val = true := by simpa using fits
        rw [same_of_replace found]
        constructor
        · intro keeps
          by_cases h : spared
          · exact .inl h
          · exact .inr (.inr (.inl (keeps (.inr ⟨by decide, h⟩)).symm))
        · rintro (h | h | h | h) fails
          · rcases fails with zero | ⟨_, loose⟩
            · exact absurd zero (by decide)
            · exact absurd h loose
          · exact absurd rfl h
          · exact h.symm
          · exact absurd holds h
      · rw [if_neg fits] at done
        cases done
        have fails : ¬ (v.length = newval.length ∨ m.val = true) := by simpa using fits
        exact ⟨fun _ => .inr (.inr (.inr fails)), fun _ _ _ => rfl⟩
    · rw [if_pos same] at done
      cases done
      exact ⟨fun _ => .inr (.inl (by simpa using same)), fun _ _ _ => rfl⟩

theorem incr_atomic_iff {increment n : Int} (done : b.incr m key increment = .ok ((rv, n), b')) :
    ((rv = -3 ∨ (rv ≠ -2 ∧ ¬ spared) → ∀ k, b'.get k = b.get k) ↔
      b.AtomicOnError m spared (.incr key increment)) := by
  simp only [AtomicOnError]
  unfold incr at done
  cases found : b.get key with
  | none =>
    rw [show Assoc.get key b.pairs = none from found] at done
    cases done
    exact ⟨fun _ => .inr fun v h => by simp at h, fun _ _ _ => rfl⟩
  | some v =>
    rw [show Assoc.get key b.pairs = some v from found] at done
    simp only at done
    cases last : v.getLast? with
    | none =>
      rw [last] at done
      contradiction
    | some c =>
      rw [last] at done
      simp only at done
      by_cases nul : c = 0
      · subst nul
        rw [if_neg (not_not_intro rfl)] at done
        by_cases fits : (decide (24 ≤ v.length) || m.val) = true
        · rw [if_pos fits] at done
          cases done
          have holds : 24 ≤ v.length ∨ m.val = true := by simpa using fits
          rw [same_of_replace found]
          constructor
          · intro keeps
            by_cases h : spared
            · exact .inl h
            · refine .inr fun w hw _ => .inl ?_
              rw [← Option.some.inj hw]
              exact keeps (.inr ⟨by decide, h⟩)
          · rintro (h | h) fails
            · rcases fails with zero | ⟨_, loose⟩
              · exact absurd zero (by decide)
              · exact absurd h loose
            · exact (h v rfl last).resolve_right (not_not_intro holds)
        · rw [if_neg fits] at done
          cases done
          have fails : ¬ (24 ≤ v.length ∨ m.val = true) := by simpa using fits
          refine ⟨fun _ => .inr fun w hw _ => .inr ?_, fun _ _ _ => rfl⟩
          rw [← Option.some.inj hw]
          exact fails
      · rw [if_pos nul] at done
        cases done
        refine ⟨fun _ => .inr fun w hw term => ?_, fun _ _ _ => rfl⟩
        rw [← Option.some.inj hw, last] at term
        exact absurd (Option.some.inj term) nul

end

end Bucket

theorem atomic_iff {s s' : Server ν} {store : Store} {key : Bytes} {b : Bucket} {fails : Prop}
    (models : CacheModels s.cache store) (models' : CacheModels s'.cache (store.put key b))
    (failing : FailsRequest s s' ↔ fails) (queue : FailsRequest s s' → s'.queue = s.queue) :
    Atomic s s' ↔ (fails → ∀ k, b.get k = (store.bucket key).get k) := by
  rw [← failing, ← models.same_lookups models']
  exact ⟨fun atomic h => (atomic h).1, fun kept h => ⟨kept h, queue h⟩⟩

/-- A request that is served leaves no trace when it fails exactly if its bucket is not
changed before, or changed for nothing. -/
theorem serve_atomic_iff {m : Mallocs} {s s' : Server ν} {req : ReqInfo ν} {r : Request}
    (represented : s.cache.Represented) (done : serve m s req r = .ok s')
    (writes : s.settings.readOnly = false) :
    Atomic s s' ↔ (s.cache.bucketOf r.key).AtomicOnError m.cache (EntrySpared m req) r := by
  obtain ⟨store, models⟩ := represented
  rw [models.bucketOf]
  obtain ⟨readOnly, _⟩ | ⟨_, cd, e, reply, way, leaves⟩ := serve_way done
  · rw [writes] at readOnly
    contradiction
  · obtain rfl := leaves.cache
    have failing := leaves_fails leaves
    have quiet := way.quiet leaves
    cases r with
    | get key => exact ⟨fun _ => trivial, fun _ => look_atomic rfl way leaves⟩
    | set key val =>
      obtain ⟨rv, ran, fails⟩ := set_fails way
      obtain ⟨b, set, models'⟩ := cacheSet_inv models ran
      rw [atomic_iff models models' (failing.trans fails) quiet]
      exact Bucket.set_atomic_iff (models.distinct key) set
    | del key =>
      obtain ⟨hit, ran, fails⟩ := del_fails way
      obtain ⟨b, del, models'⟩ := cacheDel_inv models ran
      rw [atomic_iff models models' (failing.trans fails) quiet]
      exact Bucket.del_atomic_iff del
    | cas key oldval newval =>
      obtain ⟨rv, ran, fails⟩ := cas_fails way
      obtain ⟨b, cas, models'⟩ := cacheCas_inv models ran
      rw [atomic_iff models models' (failing.trans fails) quiet]
      exact Bucket.cas_atomic_iff cas
    | incr key increment =>
      obtain ⟨cres, n, ran, fails⟩ := incr_fails way
      obtain ⟨b, incr, models'⟩ := cacheIncr_inv models ran
      rw [atomic_iff models models' (failing.trans fails) quiet]
      exact Bucket.incr_atomic_iff incr
    | nextkey key => exact ⟨fun _ => trivial, fun _ => look_atomic rfl way leaves⟩

/-- SET of a one byte key and a one byte value, not cache-only. -/
def setMessage : Mem :=
  Mem.ofBytes [0x10, 0, 0, 0, 0x01, 0x02, 0, 0, 0, 0, 0, 1, 0, 0, 0, 1, 65, 7]

def emptyCache : Cache := ⟨4, 0, 1, fun _ => emptyChain⟩

theorem emptyCache_created : cacheCreate true true 4 0 = some emptyCache := rfl

theorem emptyCache_represented : emptyCache.Represented := ⟨_, (cacheCreate_models emptyCache_created).2⟩

/- What a request leaves that its client or a later one can see. -/
def observed (x : Except Fault (Bool × Server Nat)) (key : Bytes) :
    Option (List (ReqInfo Nat × Reply) × Option Bytes) :=
  match x with
  | .ok (_, s) => some (s.replies, s.cache.lookup key)
  | .error _ => none

theorem observed_some {x : Except Fault (Bool × Server Nat)} {key : Bytes}
    {seen : List (ReqInfo Nat × Reply) × Option Bytes} (looked : observed x key = some seen) :
    ∃ b s, x = .ok (b, s) ∧ s.replies = seen.1 ∧ s.cache.lookup key = seen.2 := by
  cases x with
  | error e => contradiction
  | ok y =>
    cases looked
    exact ⟨y.1, y.2, rfl, rfl, rfl⟩

end Nmdb
