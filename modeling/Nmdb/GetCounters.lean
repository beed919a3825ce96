import Nmdb.OneReply
import Mathlib.Data.UInt

/-! The counters of gets. The main thread counts every get, and its outcome when the cache
decides it; a get that goes to the database has its outcome counted nowhere. -/
namespace Nmdb

variable {δ ν : Type}

/-- stats_init leaves the hits and misses of the database as they are. -/
def statsInit (s : Stats) : Stats :=
  { s with
    cacheGet := 0, cacheSet := 0, cacheDel := 0, cacheCas := 0, cacheIncr := 0,
    dbGet := 0, dbSet := 0, dbDel := 0, dbCas := 0, dbIncr := 0,
    cacheMisses := 0, cacheHits := 0,
    msgTipc := 0, msgTcp := 0, msgUdp := 0, msgSctp := 0,
    netVersionMismatch := 0, netBrokenReq := 0, netUnkReq := 0,
    dbFirstkey := 0, dbNextkey := 0 }

namespace Stats

def gets (s : Stats) : UInt64 := s.cacheGet + s.dbGet

def outcomes (s : Stats) : UInt64 := s.cacheHits + s.cacheMisses + s.dbHits + s.dbMisses

def Balanced (s : Stats) : Prop := s.gets = s.outcomes

instance (s : Stats) : Decidable s.Balanced := inferInstanceAs (Decidable (_ = _))

/-- The gets whose outcome is not counted. -/
def uncounted (s : Stats) : UInt64 := s.gets - s.outcomes

theorem balanced_iff (s : Stats) : s.Balanced ↔ s.uncounted = 0 := sub_eq_zero.symm

/-- What a get does to the counters, by whether it stays in the cache and finds the key there. -/
def counted (s : Stats) (cacheOnly hit : Bool) : Stats :=
  let s := if cacheOnly then { s with cacheGet := s.cacheGet + 1 } else { s with dbGet := s.dbGet + 1 }
  if hit then { s with cacheHits := s.cacheHits + 1 }
  else if cacheOnly then { s with cacheMisses := s.cacheMisses + 1 }
  else s

theorem uncounted_counted (s : Stats) (cacheOnly hit : Bool) :
    (s.counted cacheOnly hit).uncounted = s.uncounted + if !cacheOnly && !hit then 1 else 0 := by
  cases cacheOnly <;> cases hit <;> simp only [counted, uncounted, gets, outcomes] <;> simp <;> grind

end Stats

/-- Where the computation comes to an end, the counters of gets differ by so much. -/
def Counts (before : Stats) (n : UInt64) (x : Except Fault (Server ν)) : Prop :=
  ∀ s', x = .ok s' → s'.stats.uncounted = before.uncounted + n

section

variable {m : Mallocs} {s s' : Server ν} {req : ReqInfo ν} {st : Stats} {n : UInt64} {key : Bytes}

namespace Counts

theorem done (same : s.stats.uncounted = st.uncounted + n) : Counts st n (.ok s) := by
  intro s' here
  cases here
  exact same

theorem bind {α : Type} {x : Except Fault α} {f : α → Except Fault (Server ν)}
    (rest : ∀ a, x = .ok a → Counts st n (f a)) : Counts st n (x >>= f) := by
  intro s' ran
  obtain ⟨a, first, ran⟩ := bind_eq_ok.mp ran
  exact rest a first s' ran

theorem ite {c : Prop} [Decidable c] {x y : Except Fault (Server ν)} (yes : Counts st n x)
    (no : Counts st n y) : Counts st n (if c then x else y) := by
  split
  · exact yes
  · exact no

/- The end of a request that is queued. -/
theorem queued_end {operation : Req} {key val newval : Option Bytes} (async : Bool)
    (same : s.stats.uncounted = st.uncounted + n) :
    Counts st n (putInQueueLong m s req operation key val newval >>= fun x =>
      if (!x.1) = true then pure (x.2.reply req (.err .mem))
      else if async = true then pure (x.2.reply req (.mini .ok)) else pure x.2) := by
  apply bind
  rintro ⟨rv, s₁⟩ put
  have kept : s₁.stats = s.stats := by
    rcases putInQueueLong_cases put with ⟨_, _, rfl⟩ | ⟨_, _, rfl⟩ <;> rfl
  have same : s₁.stats.uncounted = st.uncounted + n := by rw [kept, same]
  apply ite
  · exact done same
  · apply ite
    · exact done same
    · exact done same

theorem replyLong {r : Rep} {v : Ptr} {vsize : Int} (same : s.stats.uncounted = st.uncounted + n) :
    Counts st n (s.replyLong req r v vsize) := by
  unfold Server.replyLong
  split
  · exact done same
  · apply bind
    intro b _
    exact done same

end Counts

/-- A get is counted, and its outcome too unless it goes to the database. -/
theorem serveGet_counts {hit : Bool} {v : Ptr} {vsize : Int}
    (ran : cacheGet s.cache key = .ok (hit, v, vsize)) :
    Counts s.stats (if !req.cacheOnly && !hit then 1 else 0) (serveGet m s req key) := by
  have counted : ∀ st, st = s.stats.counted req.cacheOnly hit →
      st.uncounted = s.stats.uncounted + if !req.cacheOnly && !hit then 1 else 0 := by
    rintro st rfl
    exact s.stats.uncounted_counted req.cacheOnly hit
  unfold serveGet
  apply Counts.bind
  intro got ran'
  obtain rfl : (hit, v, vsize) = got := Except.ok.inj (ran.symm.trans ran')
  simp only [Server.fillCacheFlag]
  cases only : req.cacheOnly with
  | true =>
    rw [only] at counted
    cases hit with
    | false => exact .done (counted _ rfl)
    | true => exact .replyLong (counted _ rfl)
  | false =>
    rw [only] at counted
    cases hit with
    | false => exact .queued_end false (counted _ rfl)
    | true => exact .replyLong (counted _ rfl)

/-- Other requests are counted under other names. -/
theorem flagged_uncounted (s : Server ν) (req : ReqInfo ν) {f g : Stats → Stats}
    (left : ∀ st, (f st).uncounted = st.uncounted) (right : ∀ st, (g st).uncounted = st.uncounted) :
    (s.fillCacheFlag req f g).stats.uncounted = s.stats.uncounted + 0 := by
  rw [add_zero]
  change ((if req.cacheOnly then f else g) s.stats).uncounted = _
  split
  · exact left s.stats
  · exact right s.stats

theorem serveSet_counts (val : Bytes) : Counts s.stats 0 (serveSet m s req key val) := by
  unfold serveSet
  apply Counts.bind
  rintro ⟨rv, cache⟩ _
  have same := flagged_uncounted s req (f := fun st => { st with cacheSet := st.cacheSet + 1 })
    (g := fun st => { st with dbSet := st.dbSet + 1 }) (fun _ => rfl) fun _ => rfl
  apply Counts.ite
  · exact .done same
  · apply Counts.ite
    · exact .queued_end _ same
    · exact .done same

theorem serveDel_counts : Counts s.stats 0 (serveDel m s req key) := by
  unfold serveDel
  apply Counts.bind
  rintro ⟨hit, cache⟩ _
  have same := flagged_uncounted s req (f := fun st => { st with cacheDel := st.cacheDel + 1 })
    (g := fun st => { st with dbDel := st.dbDel + 1 }) (fun _ => rfl) fun _ => rfl
  apply Counts.ite
  · exact .done same
  · apply Counts.ite
    · exact .done same
    · exact .queued_end _ same

theorem serveCas_counts (oldval newval : Bytes) : Counts s.stats 0 (serveCas m s req key oldval newval) := by
  unfold serveCas
  apply Counts.bind
  rintro ⟨rv, cache⟩ _
  have same := flagged_uncounted s req (f := fun st => { st with cacheCas := st.cacheCas + 1 })
    (g := fun st => { st with dbCas := st.dbCas + 1 }) (fun _ => rfl) fun _ => rfl
  apply Counts.ite
  · exact .done same
  · apply Counts.ite
    · exact .done same
    · apply Counts.ite
      · exact .ite (.done same) (.done same)
      · exact .queued_end false same

theorem serveIncr_counts (increment : Int) : Counts s.stats 0 (serveIncr m s req key increment) := by
  unfold serveIncr
  apply Counts.bind
  rintro ⟨⟨cres, newval⟩, cache⟩ _
  have same := flagged_uncounted s req (f := fun st => { st with cacheIncr := st.cacheIncr + 1 })
    (g := fun st => { st with dbIncr := st.dbIncr + 1 }) (fun _ => rfl) fun _ => rfl
  apply Counts.ite
  · exact .done same
  · apply Counts.ite
    · exact .done same
    · apply Counts.ite
      · exact .queued_end false same
      · exact .ite (.done same) (.done same)

theorem serveNextkey_counts : Counts s.stats 0 (serveNextkey m s req key) :=
  .queued_end false (add_zero _).symm

theorem parseFirstkey_counts : Counts s.stats 0 (parseFirstkey m s req) :=
  .queued_end false (add_zero _).symm

/- What cache_get tells of a key is whether there is an entry for it. -/
theorem cacheGet_hit {cd : Cache} (represented : cd.Represented) {hit : Bool} {v : Ptr} {vsize : Int}
    (ran : cacheGet cd key = .ok (hit, v, vsize)) : hit = (cd.lookup key).isSome := by
  obtain ⟨store, models⟩ := represented
  rw [models.lookup, ← models.bucketOf]
  rcases cacheGet_inv ⟨store, models⟩ ran with ⟨absent, rfl⟩ | ⟨w, held, rfl, _⟩
  · rw [absent]
    rfl
  · rw [held]
    rfl

/-- A GET of database mode whose key the cache lacks. -/
def Request.misses (cache : Cache) (req : ReqInfo ν) : Request → Bool
  | .get key => !req.cacheOnly && !(cache.lookup key).isSome
  | _ => false

def Route.misses (cache : Cache) (req : ReqInfo ν) : Route → Bool
  | .request r => r.misses cache req
  | _ => false

theorem serve_counts (represented : s.cache.Represented) (r : Request) :
    Counts s.stats (if r.misses s.cache req then 1 else 0) (serve m s req r) := by
  have refused : Counts s.stats 0 (.ok (s.reply req (.err .ro))) := .done (add_zero _).symm
  cases r with
  | get key =>
    intro s' served
    obtain ⟨⟨hit, v, vsize⟩, ran, _⟩ := bind_eq_ok.mp served
    have ran : cacheGet s.cache key = .ok (hit, v, vsize) := ran
    have counts := serveGet_counts ran s' served
    rwa [cacheGet_hit represented ran] at counts
  | nextkey key => exact serveNextkey_counts
  | set key val => exact .ite refused (serveSet_counts val)
  | del key => exact .ite refused serveDel_counts
  | cas key oldval newval => exact .ite refused (serveCas_counts oldval newval)
  | incr key increment => exact .ite refused (serveIncr_counts increment)

theorem Route.follow_counts (represented : s.cache.Represented) (route : Route) :
    Counts s.stats (if route.misses s.cache req then 1 else 0) (route.follow m s req) := by
  cases route with
  | firstkey => exact parseFirstkey_counts
  | request r => exact serve_counts represented r
  | _ => exact .done (add_zero _).symm

end

namespace System

/-- Whether a step is a GET of database mode whose key the cache lacks. -/
def missesGet (s : System δ) : Event → Bool
  | .message buf len =>
    (route s.server.settings.readOnly buf len).misses s.server.cache (replyInfo ⟨s.parsed, 0, 0, 0⟩ buf)
  | .dequeue => false
  | .execute => false

/-- The number of such steps in a run. -/
def missedGets (db : DbConn δ) : System δ → List Event → Nat
  | _, [] => 0
  | s, ev :: rest =>
    (if s.missesGet ev then 1 else 0) + match s.step db ev with
      | .ok t => missedGets db t rest
      | .error _ => 0

section

variable {db : DbConn δ} {s t : System δ}

/-- A step counts every get and every outcome, but for the get that misses the cache. -/
theorem step_counts (represented : s.server.cache.Represented) {ev : Event} (taken : s.step db ev = .ok t) :
    t.server.stats.uncounted = s.server.stats.uncounted + if s.missesGet ev then 1 else 0 := by
  cases ev with
  | message buf len =>
    obtain ⟨⟨understood, server⟩, parsed, same⟩ := bind_eq_ok.mp taken
    cases same
    rw [parseMessage_route] at parsed
    obtain ⟨s₁, followed, same⟩ := bind_eq_ok.mp parsed
    cases same
    exact Route.follow_counts represented _ server followed
  | dequeue =>
    simp only [step] at taken
    split at taken <;> cases taken <;> exact (add_zero _).symm
  | execute =>
    rcases step_execute taken with ⟨_, rfl⟩ | ⟨e, d, r, _, _, rfl⟩
    · exact (add_zero _).symm
    · exact (add_zero _).symm

theorem step_represented (represented : s.server.cache.Represented) {ev : Event}
    (taken : s.step db ev = .ok t) : t.server.cache.Represented := by
  rw [← turn_plenty] at taken
  exact turn_represented represented taken

/-- What a run leaves uncounted is the number of those gets, in the width of a counter. -/
theorem run_counts (represented : s.server.cache.Represented) {evs : List Event}
    (ran : Runs.run (step db) s evs = .ok t) :
    t.server.stats.uncounted = s.server.stats.uncounted + UInt64.ofNat (s.missedGets db evs) := by
  induction evs generalizing s with
  | nil =>
    cases ran
    exact (add_zero _).symm
  | cons ev rest ih =>
    obtain ⟨u, taken, tail⟩ := Runs.run_cons_inv ran
    have here := step_counts represented taken
    have later := ih (step_represented represented taken) tail
    have split : s.missedGets db (ev :: rest) = (if s.missesGet ev then 1 else 0) + u.missedGets db rest := by
      simp only [missedGets, taken]
    rw [later, here, split, UInt64.ofNat_add, add_assoc]
    cases s.missesGet ev <;> rfl

theorem start_stats (cache : Cache) (settings : Settings) (d : δ) :
    (start cache settings d).server.stats = statsInit {} := rfl

/-- In a run from stats_init the gets are balanced by hits and misses exactly when a multiple
of 2^64 of them, and so in practice none, went to the database. -/
theorem gets_balanced_iff (db : DbConn δ) {cache : Cache} (represented : cache.Represented)
    (settings : Settings) (d : δ) {evs : List Event}
    (ran : Runs.run (step db) (start cache settings d) evs = .ok t) :
    t.server.stats.Balanced ↔ 2 ^ 64 ∣ (start cache settings d).missedGets db evs := by
  have left := run_counts represented ran
  have none : (start cache settings d).server.stats.uncounted = 0 := by
    rw [start_stats]
    decide
  rw [none, zero_add] at left
  rw [Stats.balanced_iff, left, ← UInt64.toNat_inj, UInt64.toNat_ofNat', Nat.dvd_iff_mod_eq_zero]
  rfl

end

/-- GET of key 41. -/
def getOfDatabase : Mem := Mem.ofBytes [0x10, 0, 0, 0, 0x01, 0x01, 0, 0, 0, 0, 0, 1, 65]

/- What can be seen of the counters at the end of a run: whether anything waits, the
replies, the gets and their outcomes. -/
def counters (x : Except Fault (System δ)) : Option (Bool × List Reply × UInt64 × UInt64) :=
  x.toOption.map fun s =>
    (s.pending.isEmpty, s.server.replies.map Prod.snd, s.server.stats.gets, s.server.stats.outcomes)

theorem counters_some {x : Except Fault (System δ)} {seen : Bool × List Reply × UInt64 × UInt64}
    (looked : counters x = some seen) :
    ∃ s, x = .ok s ∧ s.pending.isEmpty = seen.1 ∧ s.server.replies.map Prod.snd = seen.2.1 ∧
      s.server.stats.gets = seen.2.2.1 ∧ s.server.stats.outcomes = seen.2.2.2 := by
  cases x with
  | error e => contradiction
  | ok s =>
    cases looked
    exact ⟨s, rfl, rfl, rfl, rfl, rfl⟩

/- A get that finds its key in the cache is counted with its outcome. -/
theorem gets_balanced_iff_hit :
    ∃ s, Runs.run (step mapDb) (start emptyCache ⟨false⟩ fun _ => none)
        (setAndWrite ++ [.message getOfDatabase 13]) = .ok s ∧ s.server.stats.Balanced ∧
      2 ^ 64 ∣ (start emptyCache ⟨false⟩ fun _ => none).missedGets mapDb
        (setAndWrite ++ [.message getOfDatabase 13]) := by
  have seen : counters (Runs.run (step mapDb)
    (start emptyCache ⟨false⟩ fun _ => none) (setAndWrite ++ [.message getOfDatabase 13])) =
      some (true, [.mini .ok, .long .cacheHit [7]], 1, 1) := by decide +kernel
  obtain ⟨s, ran, _, _, gets, outcomes⟩ := counters_some seen
  have balanced : s.server.stats.Balanced := gets.trans outcomes.symm
  exact ⟨s, ran, balanced, (gets_balanced_iff mapDb emptyCache_represented ⟨false⟩ _ ran).mp balanced⟩

/-- A get that the database answers, with a value here, leaves one get and no outcome when
all is done. -/
theorem get_from_database_uncounted :
    ∃ s, Runs.run (step mapDb) (start emptyCache ⟨false⟩ fun _ => some [7])
        [.message getOfDatabase 13, .dequeue, .execute] = .ok s ∧
      s.pending = [] ∧ s.server.replies.map Prod.snd = [.long .ok [7]] ∧
      s.server.stats.gets = 1 ∧ s.server.stats.outcomes = 0 ∧ ¬ s.server.stats.Balanced := by
  have seen : counters (Runs.run (step mapDb)
    (start emptyCache ⟨false⟩ fun _ => some [7]) [.message getOfDatabase 13, .dequeue, .execute]) =
      some (true, [.long .ok [7]], 1, 0) := by decide
  obtain ⟨s, ran, idle, replies, one, none⟩ := counters_some seen
  refine ⟨s, ran, List.isEmpty_iff.mp idle, replies, one, none, ?_⟩
  rw [Stats.Balanced, one, none]
  decide

end System

end Nmdb
