import Nmdb.CacheRuns

/-! The size of the cache, from the command line to the buckets. It is a multiple of 1024, so that
there are buckets unless it is 0; then the first lookup divides by zero. -/
namespace Nmdb

/-- The int a long is cut down to. -/
def toInt32 (i : Int) : Int := (i + 2 ^ 31) % 2 ^ 32 - 2 ^ 31

def atoi (s : Bytes) : Int := toInt32 (strtoll s)

/-- settings.numobjs after the arguments of the -c options. -/
def loadNumobjs (options : List Bytes) : Int :=
  let numobjs := options.foldl (fun _ optarg => toInt32 (atoi optarg * 1024)) (-1)
  if numobjs = -1 then 128 * 1024 else numobjs

def toSize (i : Int) : Nat := (i % 2 ^ 64).toNat

/-- sizeof(struct cache_chain) -/
def chainSize : Nat := 8 + CHAINLEN * 48 + 2 * 8

namespace Cache

/-- The buckets there is memory for: the size of the table is a size_t. -/
def allocated (cd : Cache) : Nat := chainSize * cd.hashlen % 2 ^ 64 / chainSize

def held (cd : Cache) : Nat :=
  ((List.range cd.hashlen).map fun h =>
    (List.finRange CHAINLEN).countP fun i => ((cd.table h).entries i).ksize ≠ -1).sum

end Cache

/-- The bucket of an operation is one of those allocated, and the cache is not larger than asked for. -/
structure Bounded (numobjs : Nat) (s : CacheRun) (x : CacheOp × CacheMallocs) : Prop where
  index : ∃ h, bucketIndex s.cache x.1.key = .ok h ∧ h < s.cache.allocated
  held : s.cache.held ≤ numobjs

theorem loadNumobjs_range (options : List Bytes) :
    -2 ^ 31 ≤ loadNumobjs options ∧ loadNumobjs options < 2 ^ 31 ∧ loadNumobjs options % 1024 = 0 := by
  rcases options.eq_nil_or_concat with rfl | ⟨before, last, rfl⟩
  · decide
  · simp only [loadNumobjs, List.concat_eq_append, List.foldl_append, List.foldl_cons, List.foldl_nil, toInt32]
    generalize atoi last = n
    split <;> omega

theorem hash_lt (key : Bytes) : hash key < 2 ^ 32 := (murmurhash2 key).toNat_lt

theorem held_le (cd : Cache) : cd.held ≤ CHAINLEN * cd.hashlen := by
  unfold Cache.held
  generalize cd.hashlen = n
  induction n with
  | zero => exact Nat.le_refl 0
  | succ n ih =>
    have last := List.countP_le_length (p := fun i => decide (((cd.table n).entries i).ksize ≠ -1))
      (l := List.finRange CHAINLEN)
    rw [List.length_finRange] at last
    rw [List.range_succ, List.map_append, List.sum_append, List.map_singleton, List.sum_singleton]
    rw [Nat.mul_succ]
    exact Nat.add_le_add ih last

/- The size of the table of a negative number of objects. -/
theorem table_bytes {m : Nat} (some : 0 < m) (few : m ≤ 2 ^ 21) :
    chainSize * (2 ^ 62 - 256 * m) % 2 ^ 64 = 2 ^ 64 - 55296 * m := by
  have wraps : chainSize * (2 ^ 62 - 256 * m) = (2 ^ 64 - 55296 * m) + 2 ^ 64 * 53 := by
    change 216 * (2 ^ 62 - 256 * m) = _
    omega
  rw [wraps, Nat.add_mul_mod_self_left, Nat.mod_eq_of_lt (by omega)]

theorem allocated_hashlen {cd : Cache} {n : Int} (low : -2 ^ 31 ≤ n) (high : n < 2 ^ 31)
    (thousands : n % 1024 = 0)
    (some : n ≠ 0) (size : cd.hashlen = toSize n / CHAINLEN) :
    0 < cd.hashlen ∧ (cd.allocated = cd.hashlen ∨ 2 ^ 32 ≤ cd.allocated) := by
  unfold Cache.allocated
  simp only [toSize, CHAINLEN] at size
  rcases Int.lt_or_gt_of_ne some with negative | positive
  · obtain ⟨m, rfl⟩ : ∃ m : Nat, n = -(1024 * (m : Int)) := ⟨(-n / 1024).toNat, by omega⟩
    have buckets : cd.hashlen = 2 ^ 62 - 256 * m := by omega
    rw [buckets, table_bytes (by omega) (by omega)]
    refine ⟨by omega, .inr ?_⟩
    change 2 ^ 32 ≤ (2 ^ 64 - 55296 * m) / 216
    omega
  · have small : cd.hashlen < 2 ^ 29 := by omega
    have bytes : chainSize * cd.hashlen < 2 ^ 64 := by
      change 216 * cd.hashlen < 2 ^ 64
      omega
    refine ⟨by omega, .inl ?_⟩
    rw [Nat.mod_eq_of_lt bytes, Nat.mul_div_cancel_left _ (by decide)]

theorem index_allocated {cd : Cache} {n : Int} (low : -2 ^ 31 ≤ n) (high : n < 2 ^ 31)
    (thousands : n % 1024 = 0)
    (some : n ≠ 0) (size : cd.hashlen = toSize n / CHAINLEN) (key : Bytes) :
    ∃ h, bucketIndex cd key = .ok h ∧ h < cd.allocated := by
  obtain ⟨buckets, allocated⟩ := allocated_hashlen low high thousands some size
  refine ⟨hash key % cd.hashlen, if_neg (Nat.ne_of_gt buckets), ?_⟩
  rcases allocated with same | large
  · rw [same]
    exact Nat.mod_lt _ buckets
  · exact Nat.lt_of_lt_of_le (Nat.lt_of_le_of_lt (Nat.mod_le ..) (hash_lt key)) large

theorem cacheStep_hashlen {s t : CacheRun} {x : CacheOp × CacheMallocs} (taken : cacheStep s x = .ok t) :
    t.cache.hashlen = s.cache.hashlen := by
  obtain ⟨⟨r, cd⟩, ran, same⟩ := bind_eq_ok.mp taken
  cases same
  rw [CacheOp.exec_eq] at ran
  obtain ⟨h, _, ran⟩ := bind_eq_ok.mp ran
  obtain ⟨⟨rv, c⟩, _, same⟩ := bind_eq_ok.mp ran
  cases same
  rfl

/-- A cache of any size that the command line gives stays within it, over all runs, unless the size
is 0. -/
theorem cache_bounded_iff {cdOk tableOk : Bool} {options : List Bytes} {cd : Cache}
    (created : cacheCreate cdOk tableOk (toSize (loadNumobjs options)) 0 = some cd) :
    (∀ ops, Runs.Along cacheStep (Bounded (toSize (loadNumobjs options))) ⟨cd, []⟩ ops) ↔
      loadNumobjs options ≠ 0 := by
  have size := (cacheCreate_models created).1
  obtain ⟨low, high, thousands⟩ := loadNumobjs_range options
  constructor
  · intro bounded none
    obtain ⟨h, index, _⟩ := (bounded [(.get [], Bucket.plenty)]).1.index
    rw [none] at size
    rw [bucketIndex, if_pos (show cd.hashlen = 0 from size)] at index
    contradiction
  · intro some ops
    let Inv : CacheRun → Prop := fun s => s.cache.hashlen = toSize (loadNumobjs options) / CHAINLEN
    have bounded : ∀ s x, Inv s → (Bounded (toSize (loadNumobjs options)) s x ↔ True) := by
      intro s x inv
      have bound := held_le s.cache
      rw [show s.cache.hashlen = _ from inv] at bound
      exact iff_true_intro ⟨index_allocated low high thousands some inv x.1.key,
        Nat.le_trans bound (Nat.mul_div_le ..)⟩
    exact (Runs.along_iff bounded (fun s x t inv _ taken => (cacheStep_hashlen taken).trans inv) size ops).mpr
      (Runs.Along.always (fun _ _ => trivial) _ _)

/-- Without a -c option -/
theorem cache_bounded_iff_default :
    (∀ ops, Runs.Along cacheStep (Bounded 131072) ⟨⟨131072, 0, 32768, fun _ => emptyChain⟩, []⟩ ops) ↔
      loadNumobjs [] ≠ 0 :=
  cache_bounded_iff (show cacheCreate true true (toSize (loadNumobjs [])) 0 = some _ from rfl)

/-- -c 0 -/
theorem no_buckets :
    cacheCreate true true (toSize (loadNumobjs [[48]])) 0 = some ⟨0, 0, 0, fun _ => emptyChain⟩ ∧
      ¬ ∀ ops, Runs.Along cacheStep (Bounded (toSize (loadNumobjs [[48]])))
        ⟨⟨0, 0, 0, fun _ => emptyChain⟩, []⟩ ops := by
  refine ⟨rfl, fun bounded => ?_⟩
  obtain ⟨h, index, _⟩ := (bounded [(.get [], Bucket.plenty)]).1.index
  contradiction

end Nmdb
