import Nmdb.Store

/-! Runs of cache operations with memory to spare: every bucket stays a well formed
chain, and the cache answers as a table of recency lists does. -/
namespace Nmdb

open DoublyLinked

structure CacheRun where
  cache : Cache
  results : List CacheResult

def cacheStep (s : CacheRun) (x : CacheOp × CacheMallocs) : Except Fault CacheRun := do
  let (r, cd) ← x.1.exec x.2 s.cache
  return ⟨cd, s.results ++ [r]⟩

/-- A step with memory to spare. -/
def spareStep (s : CacheRun) (op : CacheOp) : Except Fault CacheRun :=
  cacheStep s (op, Bucket.plenty)

/-- The entries is, in list order, are those of bucket number h. -/
structure WellFormed (hashlen h : Nat) (c : CacheChain) (is : List Slot) : Prop where
  forward : Follows (fun i => (c.entries i).next) c.first is
  backward : Follows (fun i => (c.entries i).prev) c.last is.reverse
  length : is.length = c.len
  bound : c.len ≤ CHAINLEN
  distinct : is.Nodup
  used : ∀ i, i ∈ is ↔ (c.entries i).ksize ≠ -1
  holds : ∀ i ∈ is, ∃ key val, Stores c i (key, val)
  keys : (Assoc.keys c.pairs).Nodup
  hashed : ∀ key ∈ Assoc.keys c.pairs, hash key % hashlen = h

theorem stores_of_mem {c : CacheChain} {is : List Slot} {l : List (Bytes × Bytes)}
    (stores : List.Forall₂ (Stores c) is l) {i : Slot} (member : i ∈ is) : ∃ p, Stores c i p := by
  induction stores with
  | nil => cases member
  | cons here _ ih =>
    rcases List.mem_cons.mp member with rfl | behind
    · exact ⟨_, here⟩
    · exact ih behind

theorem CacheModels.wellFormed {cd : Cache} {s : Store} (models : CacheModels cd s) {h : Nat}
    (exact_len : (s.buckets h).len = (s.buckets h).pairs.length) :
    ∃ is, WellFormed cd.hashlen h (cd.table h) is := by
  have pairs := (models.chains h).pairs
  obtain ⟨⟨is, rep⟩, len, _, bound⟩ := models.chains h
  refine ⟨is, rep.linked.follows_next, rep.linked.follows_prev, ?_, len ▸ bound, rep.linked.nodup,
    fun i => (rep.used i).symm, fun i hi => ?_, ?_, ?_⟩
  · rw [rep.length_eq, len, exact_len]
  · obtain ⟨p, held⟩ := stores_of_mem rep.stores hi
    exact ⟨p.1, p.2, held⟩
  · rw [pairs]
    exact rep.keys
  · rw [pairs, models.hashlen]
    exact models.placed h

/-- A well formed chain with room has a slot to give. -/
theorem WellFormed.allocates {hashlen h : Nat} {c : CacheChain} {is : List Slot}
    (wf : WellFormed hashlen h c is) (room : c.len < CHAINLEN) : (allocEntry c).isSome := by
  by_contra none
  have cover := List.Subperm.length_le (List.subperm_of_subset (List.nodup_finRange CHAINLEN)
    fun i hi => (wf.used i).mpr fun free => none (List.find?_isSome.mpr ⟨i, hi, by simpa using free⟩))
  rw [List.length_finRange, wf.length] at cover
  omega

abbrev Lists := Nat → RecencyList

def Lists.empty : Lists := fun _ => RecencyList.empty

def Lists.step (hashlen : Nat) (t : Lists) (op : CacheOp) : CacheResult × Lists :=
  let h := hash op.key % hashlen
  ((op.inList (t h)).1, Function.update t h (op.inList (t h)).2)

def Lists.run (hashlen : Nat) : Lists → List CacheOp → List CacheResult × Lists
  | t, [] => ([], t)
  | t, op :: rest =>
    let (r, t) := t.step hashlen op
    let (rs, t) := Lists.run hashlen t rest
    (r :: rs, t)

def Lists.store (hashlen : Nat) (t : Lists) : Store := ⟨hashlen, fun h => Bucket.ofList (t h)⟩

def IncrNonEmpty (cd : Cache) : CacheOp → Prop
  | .incr key _ => cd.lookup key ≠ some []
  | _ => True

theorem exec_lists {cd : Cache} {n : Nat} {t : Lists} (models : CacheModels cd (t.store n))
    (buckets : 0 < n) {op : CacheOp} (nonempty : IncrNonEmpty cd op) :
    ∃ cd', op.exec Bucket.plenty cd = .ok ((t.step n op).1, cd') ∧
      CacheModels cd' ((t.step n op).2.store n) := by
  have filled : ∀ key increment, op = .incr key increment →
      (t (hash op.key % n)).get key ≠ some [] := by
    rintro key increment rfl
    exact fun empty => nonempty ((models.lookup key).trans empty)
  have done : op.inBucket Bucket.plenty ((t.store n).bucket op.key) = _ := CacheOp.inBucket_ofList filled
  obtain ⟨cd', ran, after⟩ := CacheOp.exec_ok models (Nat.pos_iff_ne_zero.mp buckets) done
  refine ⟨cd', ran, ?_⟩
  have updated : Lists.store n (t.step n op).2 =
      (t.store n).put op.key (Bucket.ofList (op.inList (t (hash op.key % n))).2) := by
    refine congrArg (Store.mk n) (funext fun h => ?_)
    by_cases here : h = hash op.key % n
    · subst here
      simp only [Lists.step, Lists.store, Function.update_self]
    · simp only [Lists.step, Lists.store, Function.update_of_ne here]
  rw [updated]
  exact after

theorem CacheModels.lookup_lists {cd : Cache} {n : Nat} {t : Lists} (models : CacheModels cd (t.store n))
    (key : Bytes) : cd.lookup key = (t (hash key % n)).get key := models.lookup key

/-- The cache of a run and the lists of the same operations. -/
theorem run_lists {n : Nat} (buckets : 0 < n) (ops : List CacheOp) {s : CacheRun} {t : Lists}
    (models : CacheModels s.cache (t.store n))
    (nonempty : Runs.Along spareStep (fun s op => IncrNonEmpty s.cache op) s ops) :
    ∃ s', Runs.run spareStep s ops = .ok s' ∧
      s'.results = s.results ++ (t.run n ops).1 ∧ CacheModels s'.cache ((t.run n ops).2.store n) := by
  induction ops generalizing s t with
  | nil => exact ⟨s, rfl, (List.append_nil _).symm, models⟩
  | cons op rest ih =>
    obtain ⟨cd, ran, models'⟩ := exec_lists models buckets nonempty.1
    have taken : spareStep s op = .ok ⟨cd, s.results ++ [(t.step n op).1]⟩ := by
      simp only [spareStep, cacheStep, ran, ok_bind, pure_ok]
    obtain ⟨s', done, results, final⟩ := ih models' (nonempty.2 _ taken)
    refine ⟨s', ?_, ?_, final⟩
    · rw [Runs.run_cons_ok taken]
      exact done
    · rw [results, List.append_assoc]
      rfl

/-- From a new cache every run of operations ends, with the results of the recency lists,
in chains that are well formed and hold the pairs of the lists. -/
theorem cache_refines_recency_lists {numobjs flags : Nat} {cd : Cache}
    (created : cacheCreate true true numobjs flags = some cd) (buckets : 0 < cd.hashlen)
    (ops : List CacheOp)
    (nonempty : Runs.Along spareStep (fun s op => IncrNonEmpty s.cache op) ⟨cd, []⟩ ops) :
    ∃ s, Runs.run spareStep ⟨cd, []⟩ ops = .ok s ∧
      s.results = (Lists.empty.run cd.hashlen ops).1 ∧
      ∀ h < cd.hashlen, (∃ is, WellFormed cd.hashlen h (s.cache.table h) is) ∧
        ((s.cache.table h).len < CHAINLEN → (allocEntry (s.cache.table h)).isSome) ∧
        (s.cache.table h).pairs = ((Lists.empty.run cd.hashlen ops).2 h).pairs := by
  have initial : CacheModels cd (Lists.empty.store cd.hashlen) := (cacheCreate_models created).2
  obtain ⟨s, ran, results, models⟩ := run_lists (s := ⟨cd, []⟩) buckets ops initial nonempty
  refine ⟨s, ran, results, fun h _ => ?_⟩
  obtain ⟨is, wf⟩ := models.wellFormed (h := h) rfl
  have same : s.cache.hashlen = cd.hashlen := models.hashlen
  exact ⟨⟨is, same ▸ wf⟩, wf.allocates, (models.chains h).pairs⟩

theorem cache_refines_recency_lists_incr :
    ∃ s, Runs.run spareStep ⟨⟨4, 0, 1, fun _ => emptyChain⟩, []⟩ [.set [1] [49, 0], .incr [1] 5] = .ok s ∧
      s.results = (Lists.empty.run 1 [.set [1] [49, 0], .incr [1] 5]).1 := by
  have nonempty : Runs.Along spareStep (fun s op => IncrNonEmpty s.cache op)
      ⟨⟨4, 0, 1, fun _ => emptyChain⟩, []⟩ [.set [1] [49, 0], .incr [1] 5] := by
    refine ⟨trivial, fun t taken => ⟨?_, fun _ _ => trivial⟩⟩
    obtain rfl := Except.ok.inj taken
    change Cache.lookup _ [1] ≠ some []
    decide
  obtain ⟨s, ran, results, _⟩ := cache_refines_recency_lists
    (show cacheCreate true true 4 0 = some _ from rfl) (by decide) [.set [1] [49, 0], .incr [1] 5] nonempty
  exact ⟨s, ran, results⟩

end Nmdb
