import Nmdb.Coherence
import Nmdb.Defined
import Nmdb.Lib.Runs

/-! The two increments, of a value in the cache and of one in the database. They write the same
text, and the number in it can be read back, so increments add up. -/
namespace Nmdb

variable {δ : Type}

/-- cache_get finds the value. -/
def Cached (cd : Cache) (key v : Bytes) : Prop := cacheGet cd key = .ok (true, .block v, v.length)

/-- The value after an increment of the number in it. -/
def incremented (v : Bytes) (increment : Int) : Bytes := Bucket.incrText v (strtoll v + increment)

section

variable {cd : Cache} {key v : Bytes} {increment : Int}

theorem cached_iff (represented : cd.Represented) :
    Cached cd key v ↔ cd.hashlen ≠ 0 ∧ cd.lookup key = some v := by
  have bucket : cd.lookup key = (cd.bucketOf key).get key := rfl
  constructor
  · intro cached
    refine ⟨(cacheGet_succeeds represented key).mp ⟨_, cached⟩, ?_⟩
    rcases cacheGet_inv represented cached with ⟨_, miss⟩ | ⟨w, held, _, block, _⟩
    · contradiction
    · cases block
      exact bucket.trans held
  · rintro ⟨buckets, held⟩
    obtain ⟨⟨hit, p, vsize⟩, ran⟩ := (cacheGet_succeeds represented key).mpr buckets
    rcases cacheGet_inv represented ran with ⟨absent, _⟩ | ⟨w, here, rfl, rfl, rfl⟩
    · rw [bucket, absent] at held
      contradiction
    · rw [bucket, here] at held
      cases held
      exact ran

theorem incremented_length (fits : InInt64 (strtoll v + increment)) :
    (incremented v increment).length = max v.length 24 := by
  rw [incremented, incrText_length fits, Nat.max_comm]

theorem strtoll_incremented (fits : InInt64 (strtoll v + increment)) :
    strtoll (incremented v increment) = strtoll v + increment := by
  rw [incremented, Bucket.incrText, List.append_assoc, List.singleton_append, strtoll_padded fits]

/- The terminator is the one written where the text ends the value, the old one elsewhere. -/
theorem incremented_terminated (number : v.getLast? = some 0) :
    (incremented v increment).getLast? = some 0 := by
  rw [incremented, Bucket.incrText]
  by_cases short : v.length ≤ 24
  · rw [List.drop_eq_nil_of_le short, List.append_nil, List.getLast?_concat]
  · rw [List.getLast?_append, List.getLast?_drop, if_neg short, number, Option.some_or]

/- The increment of a value in its bucket, whatever malloc() does. -/
theorem bucket_incr_held {m : CacheMallocs} {b : Bucket} {c : UInt8} (held : b.get key = some v)
    (last : v.getLast? = some c) :
    b.incr m key increment =
      if c ≠ 0 then .ok ((-2, 0), b)
      else if 24 ≤ v.length || m.val then
        .ok ((0, wrap64 (strtoll v + increment)),
          { b with pairs := Assoc.replace key (Bucket.incrText v (wrap64 (strtoll v + increment))) b.pairs })
      else .ok ((-3, 0), b) := by
  have found : Assoc.get key b.pairs = some v := held
  unfold Bucket.incr
  simp only [found, last]

/- The same with memory to spare. -/
theorem bucket_incr {b : Bucket} {c : UInt8} (held : b.get key = some v) (last : v.getLast? = some c)
    (fits : InInt64 (strtoll v + increment)) :
    b.incr Bucket.plenty key increment =
      if c ≠ 0 then .ok ((-2, 0), b)
      else .ok ((0, strtoll v + increment),
        { b with pairs := Assoc.replace key (incremented v increment) b.pairs }) := by
  rw [bucket_incr_held held last, wrap64_eq fits]
  simp only [Bucket.plenty, Bool.or_true, if_true]
  rfl

/- The lookups after one value has been replaced. -/
theorem lookup_replaced {cd' : Cache} {store : Store} {val : Bytes} {n : Nat} (models : CacheModels cd store)
    (models' : CacheModels cd' (store.put key ⟨n, Assoc.replace key val (store.bucket key).pairs⟩))
    (value : (store.bucket key).get key = some v) :
    cd'.lookup = Function.update cd.lookup key (some val) := by
  have found : Assoc.get key (store.bucket key).pairs = some v := value
  funext k
  rw [models.lookup_put models']
  by_cases same : k = key
  · subst same
    rw [if_pos rfl, Function.update_self, Bucket.get, Assoc.get_replace, if_pos rfl, found]
    rfl
  · rw [Function.update_of_ne same]
    by_cases here : hash k % store.hashlen = hash key % store.hashlen
    · rw [if_pos here, Bucket.get, Assoc.get_replace, if_neg same, models.lookup,
        show store.bucket k = store.bucket key from congrArg store.buckets here]
      rfl
    · rw [if_neg here]

/-- cache_incr on a value that cache_get finds: it refuses, or stores the new text. -/
theorem cacheIncr_cached (represented : cd.Represented) (cached : Cached cd key v) (nonempty : v ≠ [])
    (fits : InInt64 (strtoll v + increment)) :
    ∃ cd', cd'.Represented ∧
      (v.getLast? ≠ some 0 → cacheIncr Bucket.plenty cd key increment = .ok ((-2, 0), cd') ∧
        cd'.lookup = cd.lookup ∧ Cached cd' key v) ∧
      (v.getLast? = some 0 →
        cacheIncr Bucket.plenty cd key increment = .ok ((0, strtoll v + increment), cd') ∧
        cd'.lookup = Function.update cd.lookup key (some (incremented v increment)) ∧
        Cached cd' key (incremented v increment)) := by
  obtain ⟨buckets, held⟩ := (cached_iff represented).mp cached
  have value : (cd.bucketOf key).get key = some v := held
  obtain ⟨⟨⟨rv, n⟩, cd'⟩, ran⟩ := (cacheIncr_succeeds (m := Bucket.plenty) represented).mpr
    ⟨buckets, fun empty => nonempty (Option.some.inj (value.symm.trans empty))⟩
  obtain ⟨store, models⟩ := represented
  obtain ⟨b, incr, models'⟩ := cacheIncr_inv models ran
  have represented' : cd'.Represented := ⟨_, models'⟩
  have buckets' : cd'.hashlen ≠ 0 := by
    rw [models'.hashlen]
    exact fun none => buckets (models.hashlen.trans none)
  rw [models.bucketOf] at value
  obtain ⟨c, last⟩ : ∃ c, v.getLast? = some c := Option.ne_none_iff_exists'.mp fun none =>
    nonempty (List.getLast?_eq_none_iff.mp none)
  rw [bucket_incr value last fits] at incr
  refine ⟨cd', represented', fun other => ?_, fun number => ?_⟩
  · have unterminated : c ≠ 0 := by
      rintro rfl
      exact other last
    rw [if_pos unterminated] at incr
    cases incr
    have same : cd'.lookup = cd.lookup := funext ((models.same_lookups models').mpr fun _ => rfl)
    exact ⟨ran, same, (cached_iff represented').mpr ⟨buckets', (congrFun same key).trans held⟩⟩
  · rw [last] at number
    cases number
    rw [if_neg (not_not_intro rfl)] at incr
    cases incr
    have changed := lookup_replaced models models' value
    refine ⟨ran, changed, (cached_iff represented').mpr ⟨buckets', ?_⟩⟩
    rw [changed, Function.update_self]

end

/-- The queue entry of an increment. -/
abbrev incrEntry (req : ReqInfo Nat) (key : Bytes) (increment : Int) : QueueEntry Nat :=
  Request.entry req (.incr key increment)

section

variable {db : DbConn δ} {view : δ → KV} {d : δ} {cd : Cache} {key v : Bytes} {increment : Int}

/-- process_op on a value that get() finds. -/
theorem processOp_incr_found {c : UInt8} (req : ReqInfo Nat) (copy : db.get d key dbBufSize = some v)
    (last : v.getLast? = some c) (int64 : InInt64 increment) :
    processOp db true d (incrEntry req key increment) =
      if v.getLast? = some 0 then
        let n := wrap64 (strtoll v + increment)
        let (rv, d) := db.set d key (Bucket.incrText v n)
        .ok (d, some (if !rv then .err .db else .long .ok (bytes64 (htonll (ofInt64 n)))))
      else .ok (d, some (.mini .nomatch)) := by
  have number : entryIncrement (incrEntry req key increment) = increment := by
    rw [entryIncrement_entry, wrap64_eq int64]
  have found : db.get d ((incrEntry req key increment).key.getD []) dbBufSize = some v := copy
  have branch : processOp db true d (incrEntry req key increment) =
      processIncr db d (incrEntry req key increment) v := by
    simp only [processOp, incrEntry, Request.entry, Bool.not_true, Bool.false_eq_true, if_false] at found ⊢
    rw [found]
  rw [branch, processIncr_eq last, number]
  rfl

/-- The same with sets being accepted. -/
theorem processOp_incr (accepts : ∀ d k v, (db.set d k v).1 = true) (req : ReqInfo Nat)
    (copy : db.get d key dbBufSize = some v) (nonempty : v ≠ []) (int64 : InInt64 increment)
    (fits : InInt64 (strtoll v + increment)) :
    processOp db true d (incrEntry req key increment) =
      if v.getLast? = some 0 then
        .ok ((db.set d key (incremented v increment)).2,
          some (.long .ok (bytes64 (htonll (ofInt64 (strtoll v + increment))))))
      else .ok (d, some (.mini .nomatch)) := by
  obtain ⟨c, last⟩ : ∃ c, v.getLast? = some c := Option.ne_none_iff_exists'.mp fun none =>
    nonempty (List.getLast?_eq_none_iff.mp none)
  have accepted := accepts d key (incremented v increment)
  rw [incremented] at accepted
  simp only [processOp_incr_found req copy last int64, wrap64_eq fits, accepted, Bool.not_true,
    Bool.false_eq_true, if_false, incremented]

/-- The two increments of a value do the same: they refuse it, or both store one text and
report the number in it. -/
def SameOutcome (db : DbConn δ) (view : δ → KV) (cd : Cache) (d : δ) (req : ReqInfo Nat) (key v : Bytes)
    (increment : Int) : Prop :=
  (v.getLast? ≠ some 0 ∧
    (∃ cd', cacheIncr Bucket.plenty cd key increment = .ok ((-2, 0), cd') ∧ cd'.lookup = cd.lookup) ∧
    processOp db true d (incrEntry req key increment) = .ok (d, some (.mini .nomatch))) ∨
  (v.getLast? = some 0 ∧ ∃ text cd' d',
    cacheIncr Bucket.plenty cd key increment = .ok ((0, strtoll v + increment), cd') ∧
    cd'.lookup = Function.update cd.lookup key (some text) ∧
    processOp db true d (incrEntry req key increment) =
      .ok (d', some (.long .ok (bytes64 (htonll (ofInt64 (strtoll v + increment)))))) ∧
    view d' = Function.update (view d) key (some text) ∧
    text.length = max v.length 24 ∧ text.getLast? = some 0 ∧ strtoll text = strtoll v + increment)

theorem MapBackend.set_accepting (backend : MapBackend db view) (accepts : ∀ d k v, (db.set d k v).1 = true)
    (d : δ) (key val : Bytes) : view (db.set d key val).2 = Function.update (view d) key (some val) := by
  rcases backend.set d key val with ⟨_, changed⟩ | ⟨refused, _⟩
  · exact changed
  · rw [accepts d key val] at refused
    contradiction

theorem increments_same (backend : MapBackend db view) (accepts : ∀ d k v, (db.set d k v).1 = true)
    (represented : cd.Represented) (req : ReqInfo Nat) (cached : Cached cd key v)
    (copy : db.get d key dbBufSize = some v) (nonempty : v ≠ []) (int64 : InInt64 increment)
    (fits : InInt64 (strtoll v + increment)) : SameOutcome db view cd d req key v increment := by
  obtain ⟨cd', _, refuses, stores⟩ := cacheIncr_cached represented cached nonempty fits
  have inDb := processOp_incr accepts req copy nonempty int64 fits
  by_cases number : v.getLast? = some 0
  · obtain ⟨inCache, changed, _⟩ := stores number
    rw [if_pos number] at inDb
    exact .inr ⟨number, incremented v increment, cd', _, inCache, changed, inDb,
      backend.set_accepting accepts d key _, incremented_length fits, incremented_terminated number,
      strtoll_incremented fits⟩
  · obtain ⟨inCache, kept, _⟩ := refuses number
    rw [if_neg number] at inDb
    exact .inl ⟨number, ⟨cd', inCache, kept⟩, inDb⟩

def cacheIncrStep (key : Bytes) (cd : Cache) (increment : Int) : Except Fault Cache := do
  let (_, cd) ← cacheIncr Bucket.plenty cd key increment
  return cd

def dbIncrStep (db : DbConn δ) (req : ReqInfo Nat) (key : Bytes) (d : δ) (increment : Int) :
    Except Fault δ := do
  let (d, _) ← processOp db true d (incrEntry req key increment)
  return d

/-- Increments add up, in the cache and in the database, and leave the same text. -/
theorem increments_compose (backend : MapBackend db view) (accepts : ∀ d k v, (db.set d k v).1 = true)
    (bounded : ∀ d k n v, db.get d k n = some v → v.length ≤ n) (represented : cd.Represented)
    (req : ReqInfo Nat) (cached : Cached cd key v) (copy : db.get d key dbBufSize = some v)
    (number : v.getLast? = some 0) {increments : List Int} (int64 : ∀ i ∈ increments, InInt64 i)
    (fit : ∀ k, InInt64 (strtoll v + (increments.take k).sum)) :
    ∃ cd' d' text, Runs.run (cacheIncrStep key) cd increments = .ok cd' ∧
      Runs.run (dbIncrStep db req key) d increments = .ok d' ∧
      Cached cd' key text ∧ db.get d' key dbBufSize = some text ∧ text.getLast? = some 0 ∧
      strtoll text = strtoll v + increments.sum := by
  induction increments generalizing cd d v with
  | nil => exact ⟨cd, d, v, rfl, rfl, cached, copy, number, by rw [List.sum_nil, Int.add_zero]⟩
  | cons i rest ih =>
    have nonempty : v ≠ [] := by
      rintro rfl
      contradiction
    have fits : InInt64 (strtoll v + i) := by
      have first := fit 1
      rwa [List.take_succ_cons, List.take_zero, List.sum_singleton] at first
    obtain ⟨cd₁, represented₁, _, stores⟩ := cacheIncr_cached represented cached nonempty fits
    obtain ⟨inCache, _, cached₁⟩ := stores number
    have inDb := processOp_incr accepts req copy nonempty (int64 i List.mem_cons_self) fits
    rw [if_pos number] at inDb
    have room : (incremented v i).length ≤ dbBufSize := by
      have small := bounded _ _ _ _ copy
      rw [incremented_length fits]
      simp only [dbBufSize] at small ⊢
      omega
    have held := congrFun (backend.set_accepting accepts d key (incremented v i)) key
    rw [Function.update_self] at held
    have fit₁ : ∀ k, InInt64 (strtoll (incremented v i) + (rest.take k).sum) := by
      intro k
      have next := fit (k + 1)
      rw [List.take_succ_cons, List.sum_cons] at next
      rwa [strtoll_incremented fits, Int.add_assoc]
    obtain ⟨cd', d', text, ranCache, ranDb, cached', copy', number', sum⟩ :=
      ih represented₁ cached₁ (backend.present _ _ _ _ held room) (incremented_terminated number)
        (fun j hj => int64 j (List.mem_cons_of_mem i hj)) fit₁
    refine ⟨cd', d', text, ?_, ?_, cached', copy', number', ?_⟩
    · rw [Runs.run_cons_ok (t := cd₁) (by simp only [cacheIncrStep, inCache, ok_bind, pure_ok])]
      exact ranCache
    · rw [Runs.run_cons_ok (t := (db.set d key (incremented v i)).2)
        (by simp only [dbIncrStep, inDb, ok_bind, pure_ok])]
      exact ranDb
    · rw [sum, strtoll_incremented fits, List.sum_cons, Int.add_assoc]

/-- One increment does the same in both places, and a run of them adds them up. -/
theorem increments_agree (backend : MapBackend db view) (accepts : ∀ d k v, (db.set d k v).1 = true)
    (bounded : ∀ d k n v, db.get d k n = some v → v.length ≤ n) (represented : cd.Represented)
    (req : ReqInfo Nat) (cached : Cached cd key v) (copy : db.get d key dbBufSize = some v)
    (nonempty : v ≠ []) :
    (∀ increment, InInt64 increment → InInt64 (strtoll v + increment) →
      SameOutcome db view cd d req key v increment) ∧
    (v.getLast? = some 0 → ∀ increments : List Int, (∀ i ∈ increments, InInt64 i) →
      (∀ k, InInt64 (strtoll v + (increments.take k).sum)) →
      ∃ cd' d' text, Runs.run (cacheIncrStep key) cd increments = .ok cd' ∧
        Runs.run (dbIncrStep db req key) d increments = .ok d' ∧
        Cached cd' key text ∧ db.get d' key dbBufSize = some text ∧ text.getLast? = some 0 ∧
        strtoll text = strtoll v + increments.sum) := by
  constructor
  · intro increment int64 fits
    exact increments_same backend accepts represented req cached copy nonempty int64 fits
  · intro number increments int64 fit
    exact increments_compose backend accepts bounded represented req cached copy number int64 fit

end

/- The text 5 under the key A, in the cache and in a database that is a map. -/
theorem increments_agree_five :
    ∃ cd cd' d' text, Cached cd [65] [53, 0] ∧
      Runs.run (cacheIncrStep [65]) cd [2, -9] = .ok cd' ∧
      Runs.run (dbIncrStep mapDb ⟨0, 0, 0, 0⟩ [65]) (fun _ => some [53, 0]) [2, -9] = .ok d' ∧
      Cached cd' [65] text ∧ mapDb.get d' [65] dbBufSize = some text ∧ strtoll text = -2 := by
  have made : (cacheSet Bucket.plenty emptyCache [65] [53, 0]).toOption.map
      (fun x => (x.2.hashlen, x.2.lookup [65])) = some (1, some [53, 0]) := by decide
  cases ran : cacheSet Bucket.plenty emptyCache [65] [53, 0] with
  | error e =>
    rw [ran] at made
    contradiction
  | ok x =>
    obtain ⟨rv, cd⟩ := x
    rw [ran] at made
    obtain ⟨buckets, held⟩ := Prod.mk.inj (Option.some.inj made)
    obtain ⟨store, models⟩ := emptyCache_represented
    obtain ⟨b, _, models'⟩ := cacheSet_inv models ran
    have represented : cd.Represented := ⟨_, models'⟩
    have cached : Cached cd [65] [53, 0] := (cached_iff represented).mpr ⟨by rw [buckets]; decide, held⟩
    have bounded : ∀ (d : KV) k n v, mapDb.get d k n = some v → v.length ≤ n := by
      intro d k n v found
      exact of_decide_eq_true (Option.filter_eq_some_iff.mp found).2
    have both := (increments_agree mapDb_backend (fun _ _ _ => rfl) bounded represented ⟨0, 0, 0, 0⟩ cached
      (d := fun _ => some [53, 0]) rfl (List.cons_ne_nil _ _)).2 rfl [2, -9]
    have five : strtoll [53, 0] = 5 := by decide
    have fits : ∀ k, InInt64 (strtoll [53, 0] + (List.take k [2, -9]).sum) := by
      rintro (_ | _ | k) <;>
        simp only [five, InInt64, List.take_zero, List.take_succ_cons, List.take_nil, List.sum_cons,
          List.sum_nil] <;>
        omega
    have int64 : ∀ i ∈ [2, -9], InInt64 i := by
      simp only [List.mem_cons, List.not_mem_nil, or_false, InInt64]
      rintro i (rfl | rfl) <;> omega
    obtain ⟨cd', d', text, inCache, inDb, cached', copy', _, sum⟩ := both int64 fits
    refine ⟨cd, cd', d', text, cached, inCache, inDb, cached', copy', ?_⟩
    rw [sum, five]
    rfl

end Nmdb
