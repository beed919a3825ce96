import Nmdb.CacheRuns

/-! Runs of cache operations in which malloc() may fail. Two failures break a bucket: the
entry a key cannot be had for is passed to free(), and a recycling that fails shortens
the list but not its counter. All others leave the bucket as it was. -/
namespace Nmdb

open DoublyLinked

def CacheResult.failed : CacheResult → Prop
  | .got _ _ _ => False
  | .rv code => code < 0
  | .incremented code _ => code < 0

/- The allocations of a set that must not fail: the key of a new entry, and both
blocks of a recycled one where the sizes differ. -/
def Bucket.Spared (b : Bucket) (m : CacheMallocs) : CacheOp → Prop
  | .set key val => key ∈ Assoc.keys b.pairs ∨
      (b.len = CHAINLEN ∧ ∀ last, b.pairs.getLast? = some last → recycles m key val last = true) ∨
      (b.len ≠ CHAINLEN ∧ m.key = true)
  | _ => True

def Spared (cd : Cache) (x : CacheOp × CacheMallocs) : Prop :=
  cd.hashlen = 0 ∨ (cd.bucketOf x.1.key).Spared x.2 x.1

namespace Bucket

def Tight (b : Bucket) : Prop := b.len = b.pairs.length

section

variable {b : Bucket} {m : CacheMallocs} {key val : Bytes}

theorem Tight.getLast (tight : b.Tight) (full : b.len = CHAINLEN) :
    ∃ init last, b.pairs = init ++ [last] ∧ init.length = 3 := by
  rcases List.eq_nil_or_concat b.pairs with nil | ⟨init, last, pairs⟩
  · rw [tight, nil] at full
    exact absurd full (by decide)
  · refine ⟨init, last, by rw [pairs, List.concat_eq_append], ?_⟩
    have length : b.pairs.length = 4 := tight.symm.trans full
    rw [pairs, List.length_concat] at length
    omega

theorem insertFull_tight (m : CacheMallocs) (key val : Bytes) (tight : b.Tight) (full : b.len = CHAINLEN) :
    ∃ init last, b.pairs = init ++ [last] ∧ b.insertFull m key val =
      .ok (if recycles m key val last then (0, ⟨4, (key, val) :: init⟩) else (-1, ⟨4, init⟩)) ∧
      init.length = 3 := by
  obtain ⟨init, last, pairs, length⟩ := tight.getLast full
  refine ⟨init, last, pairs, ?_, length⟩
  have several : ¬ (init ++ [last]).length = 1 := by
    rw [List.length_append, length]
    simp
  have four : b.len = 4 := full
  simp only [insertFull, pairs, List.getLast?_concat, if_neg several, List.dropLast_concat, four]
  split <;> rfl

theorem set_spared (tight : b.Tight) (distinct : (Assoc.keys b.pairs).Nodup)
    (spared : b.Spared m (.set key val)) :
    ∃ rv b', b.set m key val = .ok (rv, b') ∧ b'.Tight ∧ (rv < 0 → b' = b) := by
  unfold set
  cases found : Assoc.get key b.pairs with
  | some old =>
    obtain ⟨xs, ys, split, erased, _⟩ := Assoc.split_of_get distinct found
    have length : b.len = (Assoc.eraseKey key b.pairs).length + 1 := by
      rw [tight, erased, split]
      simp only [List.length_append, List.length_cons]
      omega
    by_cases fits : (decide (val.length = old.length) || m.val) = true
    · exact ⟨0, _, if_pos fits, length, by simp⟩
    · exact ⟨-1, b, if_neg fits, tight, fun _ => rfl⟩
  | none =>
    have absent := (Assoc.get_eq_none _ _).mp found
    rcases spared.resolve_left absent with ⟨full, fits⟩ | ⟨room, keyOk⟩
    · obtain ⟨init, last, pairs, done, length⟩ := insertFull_tight m key val tight full
      have recycled := fits last (by rw [pairs, List.getLast?_concat])
      rw [recycled, if_pos rfl] at done
      refine ⟨0, ⟨4, (key, val) :: init⟩, ?_, ?_, by simp⟩
      · simpa only [if_pos full] using done
      · change 4 = init.length + 1
        rw [length]
    · have linked : ¬ (0 < b.len ∧ b.pairs = []) := by
        rintro ⟨positive, nil⟩
        rw [tight, nil] at positive
        exact absurd positive (by simp)
      cases valOk : m.val with
      | false => exact ⟨-1, b, by simp [if_neg room, insertNew, keyOk, valOk], tight, fun _ => rfl⟩
      | true =>
        refine ⟨0, ⟨b.len + 1, (key, val) :: b.pairs⟩, ?_, congrArg (· + 1) tight, by simp⟩
        simp only [if_neg room, insertNew, keyOk, valOk, if_neg linked, Bool.not_true,
          Bool.false_eq_true, if_false]

end

/- An operation that is spared keeps the counter exact, and changes nothing when it fails. -/
theorem inBucket_spared {b : Bucket} {m : CacheMallocs} {op : CacheOp} (tight : b.Tight)
    (distinct : (Assoc.keys b.pairs).Nodup) (spared : b.Spared m op) :
    (∃ r b', op.inBucket m b = .ok (r, b') ∧ b'.Tight ∧ (r.failed → b' = b)) ∨
      op.inBucket m b = .error .outOfBounds := by
  cases op with
  | get key =>
    refine .inl ?_
    simp only [CacheOp.inBucket]
    cases b.get key with
    | none => exact ⟨_, b, rfl, tight, fun _ => rfl⟩
    | some v => exact ⟨_, b, rfl, tight, fun _ => rfl⟩
  | set key val =>
    obtain ⟨rv, b', done, tight', same⟩ := set_spared tight distinct spared
    exact .inl ⟨.rv rv, b', by simp only [CacheOp.inBucket, done, ok_bind, pure_ok], tight', same⟩
  | del key =>
    refine .inl ?_
    cases done : b.del key with
    | error e =>
      unfold del at done
      split at done <;> contradiction
    | ok x =>
      refine ⟨.rv x.1, x.2, by simp only [CacheOp.inBucket, done, ok_bind, pure_ok], ?_⟩
      rcases del_cases done with ⟨v, rv, found, after⟩ | ⟨rv, _, after⟩
      · obtain ⟨xs, ys, split, erased, _⟩ := Assoc.split_of_get distinct found
        refine ⟨?_, fun h => ?_⟩
        · rw [after]
          change b.len - 1 = (Assoc.eraseKey key b.pairs).length
          rw [tight, erased, split]
          simp only [List.length_append, List.length_cons]
          omega
        · rw [CacheResult.failed, rv] at h
          exact absurd h (by decide)
      · exact ⟨after ▸ tight, fun _ => after⟩
  | cas key oldval newval =>
    refine .inl ?_
    cases done : b.cas m key oldval newval with
    | error e =>
      unfold cas at done
      split at done
      · contradiction
      · split at done
        · contradiction
        · split at done <;> contradiction
    | ok x =>
      refine ⟨.rv x.1, x.2, by simp only [CacheOp.inBucket, done, ok_bind, pure_ok], ?_⟩
      rcases cas_cases done with ⟨_, _, after⟩ | ⟨_, _, _, _, after⟩ | ⟨rv, _, after⟩ | ⟨_, _, after⟩
      · exact ⟨after ▸ tight, fun _ => after⟩
      · exact ⟨after ▸ tight, fun _ => after⟩
      · refine ⟨?_, fun h => ?_⟩
        · rw [after]
          change b.len = (Assoc.replace key newval b.pairs).length
          rw [tight, Assoc.replace, List.length_map]
        · rw [CacheResult.failed, rv] at h
          exact absurd h (by decide)
      · exact ⟨after ▸ tight, fun _ => after⟩
  | incr key increment =>
    cases done : b.incr m key increment with
    | error e =>
      refine .inr ?_
      have outside : e = .outOfBounds := by
        unfold incr at done
        split at done
        · contradiction
        · split at done
          · cases done
            rfl
          · split at done
            · contradiction
            · simp only at done
              split at done <;> contradiction
      simp only [CacheOp.inBucket, done, error_bind, outside]
    | ok x =>
      refine .inl ⟨.incremented x.1.1 x.1.2, x.2, by simp only [CacheOp.inBucket, done, ok_bind, pure_ok], ?_⟩
      rcases incr_cases done
        with ⟨_, _, after⟩ | ⟨_, _, _, _, after⟩ | ⟨v, rv, _, _, _, after⟩ | ⟨_, _, _, after⟩
      · exact ⟨after ▸ tight, fun _ => after⟩
      · exact ⟨after ▸ tight, fun _ => after⟩
      · refine ⟨?_, fun h => ?_⟩
        · rw [after]
          change b.len = (Assoc.replace key _ b.pairs).length
          rw [tight, Assoc.replace, List.length_map]
        · rw [CacheResult.failed, rv] at h
          exact absurd h (by decide)
      · exact ⟨after ▸ tight, fun _ => after⟩

end Bucket

/-- Every counter of the table is exact. -/
def TightModels (cd : Cache) : Prop := ∃ s, CacheModels cd s ∧ ∀ h, (s.buckets h).Tight

theorem Store.put_tight {s : Store} (tight : ∀ h, (s.buckets h).Tight) {key : Bytes} {b : Bucket}
    (here : b.Tight) (h : Nat) : ((s.put key b).buckets h).Tight := by
  by_cases same : h = hash key % s.hashlen
  · subst same
    simpa only [Store.put, Function.update_self] using here
  · simpa only [Store.put, Function.update_of_ne same] using tight h

theorem CacheModels.spared_iff {cd : Cache} {s : Store} (models : CacheModels cd s)
    (some : s.hashlen ≠ 0) (x : CacheOp × CacheMallocs) :
    Spared cd x ↔ (s.bucket x.1.key).Spared x.2 x.1 := by
  rw [Spared, models.hashlen, models.bucketOf]
  exact ⟨fun h => h.resolve_left some, .inr⟩

theorem Spared.preserves {cd cd' : Cache} {x : CacheOp × CacheMallocs} {r : CacheResult}
    (inv : TightModels cd) (spared : Spared cd x) (ran : x.1.exec x.2 cd = .ok (r, cd')) :
    TightModels cd' := by
  obtain ⟨s, models, tight⟩ := inv
  obtain ⟨some, b, done, models'⟩ := CacheOp.exec_inv models ran
  rcases Bucket.inBucket_spared (tight _) (models.distinct _) ((models.spared_iff some x).mp spared) with
    ⟨r', b', done', tight', _⟩ | fault
  · obtain ⟨_, rfl⟩ := Prod.mk.inj (Except.ok.inj (done.symm.trans done'))
    exact ⟨_, models', Store.put_tight tight tight'⟩
  · exact absurd (done.symm.trans fault) (by simp)

end Nmdb
