import Nmdb.Increments

/-! An increment adds two int64 numbers after looking at the last byte of the value. It stores
and reports the exact sum, or refuses, where there is a last byte and the sum is an int64. -/
namespace Nmdb

variable {δ : Type}

/-- There is a last byte to look at, and a sum that is made is in range. -/
def IncrementFits (v : Bytes) (increment : Int) : Prop :=
  v ≠ [] ∧ (v.getLast? = some 0 → InInt64 (strtoll v + increment))

/-- The number a client reads from a reply. -/
def Reply.reported : Reply → Option Int
  | .long .ok b => some (toInt64 (ntohll (load64 (Mem.ofBytes b) 0)))
  | _ => none

/-- Wherever the cache holds the value and whatever malloc() does, cache_incr stores and
reports the exact sum, or refuses and changes no value. -/
def SafeInCache (v : Bytes) (increment : Int) : Prop :=
  ∀ (m : CacheMallocs) (cd : Cache) (key : Bytes), cd.Represented → Cached cd key v →
    ∃ rv n cd', cacheIncr m cd key increment = .ok ((rv, n), cd') ∧
      ((rv = 0 ∧ n = strtoll v + increment ∧
          ∃ text, cd'.lookup = Function.update cd.lookup key (some text) ∧ strtoll text = n) ∨
        (rv ≠ 0 ∧ cd'.lookup = cd.lookup))

/-- The same of process_op, for every backend that finds the value. -/
def SafeInDb (v : Bytes) (increment : Int) : Prop :=
  ∀ (δ : Type) (db : DbConn δ) (view : δ → KV) (d : δ) (req : ReqInfo Nat) (key : Bytes) (ok : Bool),
    MapBackend db view → db.get d key dbBufSize = some v →
      ∃ d' r, processOp db ok d (incrEntry req key increment) = .ok (d', some r) ∧
        ((r.reported = some (strtoll v + increment) ∧
            ∃ text, view d' = Function.update (view d) key (some text) ∧ strtoll text = strtoll v + increment) ∨
          ((r = .mini .nomatch ∨ r = .err .db ∨ r = .err .mem) ∧ view d' = view d))

theorem reported_number (i : Int) :
    (Reply.long .ok (bytes64 (htonll (ofInt64 i)))).reported = some (wrap64 i) := by
  have word := ofInt64_lt i
  rw [Reply.reported, htonll, load64_bytes64 (ntohll_lt _), ntohll_ntohll word]
  rfl

section

variable {cd : Cache} {key v : Bytes} {increment : Int} {m : CacheMallocs}

theorem cacheIncr_safe (fits : IncrementFits v increment) (represented : cd.Represented)
    (cached : Cached cd key v) :
    ∃ rv n cd', cacheIncr m cd key increment = .ok ((rv, n), cd') ∧
      ((rv = 0 ∧ n = strtoll v + increment ∧
          ∃ text, cd'.lookup = Function.update cd.lookup key (some text) ∧ strtoll text = n) ∨
        (rv ≠ 0 ∧ cd'.lookup = cd.lookup)) := by
  obtain ⟨nonempty, inRange⟩ := fits
  obtain ⟨buckets, held⟩ := (cached_iff represented).mp cached
  have value : (cd.bucketOf key).get key = some v := held
  have defined : (cd.bucketOf key).Defined m (.incr key increment) := fun empty =>
    nonempty (Option.some.inj (value.symm.trans empty))
  obtain ⟨⟨⟨rv, n⟩, cd'⟩, ran⟩ := (cacheIncr_succeeds represented).mpr ⟨buckets, defined⟩
  refine ⟨rv, n, cd', ran, ?_⟩
  obtain ⟨store, models⟩ := represented
  obtain ⟨b, incr, models'⟩ := cacheIncr_inv models ran
  rw [models.bucketOf] at value
  obtain ⟨c, last⟩ : ∃ c, v.getLast? = some c := Option.ne_none_iff_exists'.mp fun none =>
    nonempty (List.getLast?_eq_none_iff.mp none)
  rw [bucket_incr_held value last] at incr
  have unchanged : b = store.bucket key → cd'.lookup = cd.lookup := by
    rintro rfl
    exact funext ((models.same_lookups models').mpr fun _ => rfl)
  split at incr
  · cases incr
    exact .inr ⟨by decide, unchanged rfl⟩
  case isFalse number =>
    have sum : InInt64 (strtoll v + increment) := inRange (by rw [last, not_not.mp number])
    split at incr
    · cases incr
      refine .inl ⟨rfl, wrap64_eq sum, _, lookup_replaced models models' value, ?_⟩
      rw [wrap64_eq sum]
      exact strtoll_incremented sum
    · cases incr
      exact .inr ⟨by decide, unchanged rfl⟩

/- Any value can be in the cache. -/
theorem cached_exists (v : Bytes) : ∃ cd, cd.Represented ∧ Cached cd [65] v := by
  obtain ⟨listed, _⟩ := cacheCreate_listed emptyCache_created
  have nonempty : IncrNonEmpty emptyCache (.set [65] v) := trivial
  obtain ⟨r, cd, ran⟩ := listed.total (by decide) nonempty
  obtain ⟨⟨n, t, models⟩, hashlen, _, held, _⟩ := listed.exec ran
  refine ⟨cd, ⟨_, models⟩, (cached_iff ⟨_, models⟩).mpr ⟨?_, held⟩⟩
  rw [hashlen]
  decide

theorem safeInCache_iff : SafeInCache v increment ↔ IncrementFits v increment := by
  constructor
  · intro safe
    obtain ⟨cd, represented, cached⟩ := cached_exists v
    obtain ⟨rv, n, cd', ran, outcome⟩ := safe Bucket.plenty cd [65] represented cached
    obtain ⟨_, held⟩ := (cached_iff represented).mp cached
    have value : (cd.bucketOf [65]).get [65] = some v := held
    obtain ⟨_, defined⟩ := (cacheIncr_succeeds represented).mp ⟨_, ran⟩
    have nonempty : v ≠ [] := by
      rintro rfl
      exact defined value
    refine ⟨nonempty, fun number => ?_⟩
    obtain ⟨store, models⟩ := represented
    obtain ⟨b, incr, _⟩ := cacheIncr_inv models ran
    rw [models.bucketOf] at value
    rw [bucket_incr_held value number, if_neg (not_not_intro rfl)] at incr
    simp only [Bucket.plenty, Bool.or_true, if_true] at incr
    cases incr
    rcases outcome with ⟨_, exact_, _⟩ | ⟨refused, _⟩
    · rw [← exact_]
      exact wrap64_range _
    · exact (refused rfl).elim
  · intro fits m cd key represented cached
    exact cacheIncr_safe fits represented cached

end

section

variable {db : DbConn δ} {view : δ → KV} {d : δ} {key v : Bytes} {increment : Int}

theorem processOp_incr_safe (backend : MapBackend db view) (req : ReqInfo Nat) (ok : Bool)
    (copy : db.get d key dbBufSize = some v) (int64 : InInt64 increment) (fits : IncrementFits v increment) :
    ∃ d' r, processOp db ok d (incrEntry req key increment) = .ok (d', some r) ∧
      ((r.reported = some (strtoll v + increment) ∧
          ∃ text, view d' = Function.update (view d) key (some text) ∧ strtoll text = strtoll v + increment) ∨
        ((r = .mini .nomatch ∨ r = .err .db ∨ r = .err .mem) ∧ view d' = view d)) := by
  obtain ⟨nonempty, inRange⟩ := fits
  cases ok with
  | false => exact ⟨d, .err .mem, rfl, .inr ⟨.inr (.inr rfl), rfl⟩⟩
  | true =>
    obtain ⟨c, last⟩ : ∃ c, v.getLast? = some c := Option.ne_none_iff_exists'.mp fun none =>
      nonempty (List.getLast?_eq_none_iff.mp none)
    rw [processOp_incr_found req copy last int64]
    split
    case isTrue number =>
      have sum := inRange number
      simp only [wrap64_eq sum]
      rcases backend.set d key (Bucket.incrText v (strtoll v + increment))
        with ⟨accepted, changed⟩ | ⟨refused, kept⟩
      · simp only [accepted, Bool.not_true, Bool.false_eq_true, if_false]
        refine ⟨_, _, rfl, .inl ⟨?_, _, changed, strtoll_incremented sum⟩⟩
        rw [reported_number, wrap64_eq sum]
      · simp only [refused, Bool.not_false, if_true]
        exact ⟨_, _, rfl, .inr ⟨.inr (.inl rfl), kept⟩⟩
    case isFalse => exact ⟨d, .mini .nomatch, rfl, .inr ⟨.inl rfl, rfl⟩⟩

theorem safeInDb_iff (admitted : v.length ≤ 64 * 1024) (int64 : InInt64 increment) :
    SafeInDb v increment ↔ IncrementFits v increment := by
  constructor
  · intro safe
    have copy : mapDb.get (fun _ => some v) [65] dbBufSize = some v :=
      mapDb_backend.present _ _ _ _ rfl admitted
    obtain ⟨d', r, ran, outcome⟩ := safe KV mapDb id (fun _ => some v) ⟨0, 0, 0, 0⟩ [65] true mapDb_backend copy
    cases last : v.getLast? with
    | none =>
      obtain rfl := List.getLast?_eq_none_iff.mp last
      contradiction
    | some c =>
      refine ⟨fun empty => ?_, fun number => ?_⟩
      · rw [empty] at last
        contradiction
      · rw [processOp_incr_found _ copy last int64, if_pos number] at ran
        cases ran
        rcases outcome with ⟨reported, _⟩ | ⟨refused | refused | refused, _⟩
        · simp only [Bool.not_true, Bool.false_eq_true, if_false, reported_number] at reported
          rw [← Option.some.inj reported]
          exact wrap64_range _
        all_goals contradiction
  · intro fits δ db view d req key ok backend copy
    exact processOp_incr_safe backend req ok copy int64 fits

end

/-- For every value that can be stored and every increment that can be sent, the increment is
safe in the cache, and in the database, where the value has a last byte and the sum is in range. -/
theorem increments_safe_iff {v : Bytes} {increment : Int} (admitted : v.length ≤ 64 * 1024)
    (int64 : InInt64 increment) :
    (SafeInCache v increment ↔ IncrementFits v increment) ∧
      (SafeInDb v increment ↔ IncrementFits v increment) :=
  ⟨safeInCache_iff, safeInDb_iff admitted int64⟩

/- The text 5 can be incremented. -/
theorem increments_safe_iff_five : SafeInCache [53, 0] 2 ∧ SafeInDb [53, 0] 2 := by
  have five : strtoll [53, 0] = 5 := by decide
  have int64 : InInt64 2 := by
    unfold InInt64
    omega
  have fits : IncrementFits [53, 0] 2 := by
    refine ⟨List.cons_ne_nil _ _, fun _ => ?_⟩
    rw [five]
    unfold InInt64
    omega
  have safe := increments_safe_iff (v := [53, 0]) (by decide) int64
  exact ⟨safe.1.mpr fits, safe.2.mpr fits⟩

/-- The empty value has no last byte, and the largest int64 no successor. -/
theorem increments_unsafe :
    (¬ SafeInCache [] 1 ∧ ¬ SafeInDb [] 1) ∧
      ¬ SafeInCache (decimal (2 ^ 63 - 1) ++ [0]) 1 ∧ ¬ SafeInDb (decimal (2 ^ 63 - 1) ++ [0]) 1 := by
  have int64 : InInt64 1 := by
    unfold InInt64
    omega
  have empty : ¬ IncrementFits [] 1 := fun fits => fits.1 rfl
  have largest : ¬ IncrementFits (decimal (2 ^ 63 - 1) ++ [0]) 1 := by
    rintro ⟨_, fits⟩
    have number : strtoll (decimal (2 ^ 63 - 1) ++ [0]) = 2 ^ 63 - 1 := by decide +kernel
    obtain ⟨_, small⟩ := fits List.getLast?_concat
    rw [number] at small
    omega
  have text : (decimal (2 ^ 63 - 1) ++ [0]).length ≤ 64 * 1024 := by decide +kernel
  exact ⟨⟨fun safe => empty (safeInCache_iff.mp safe),
    fun safe => empty ((safeInDb_iff (Nat.zero_le _) int64).mp safe)⟩,
    fun safe => largest (safeInCache_iff.mp safe), fun safe => largest ((safeInDb_iff text int64).mp safe)⟩

end Nmdb
