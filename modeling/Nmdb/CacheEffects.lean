import Nmdb.CacheRuns

/-! The cache as a partial map. With memory to spare, what an operation does to the
lookups depends on the lookup of its key alone, apart from the pair a SET drops. -/
namespace Nmdb

/-- The chains are recency lists. -/
def Cache.Listed (cd : Cache) : Prop := ∃ n t, CacheModels cd (Lists.store n t)

namespace CacheOp

/-- The result of an operation and the lookups after it. -/
def Effect (before after : Bytes → Option Bytes) (r : CacheResult) : CacheOp → Prop
  | .get key => after = before ∧
      r = match before key with
        | none => .got false .null 0
        | some v => .got true (.block v) v.length
  | .set key val => r = .rv 0 ∧ after key = some val ∧
      ∀ k v, k ≠ key → after k = some v → before k = some v
  | .del key => r = .rv (if (before key).isSome then 1 else 0) ∧ after = Function.update before key none
  | .cas key oldval newval =>
    match before key with
    | none => r = .rv (-2) ∧ after = before
    | some v =>
      if v = oldval then r = .rv 0 ∧ after = Function.update before key (some newval)
      else r = .rv (-1) ∧ after = before
  | .incr key increment =>
    match before key with
    | none => r = .incremented (-1) 0 ∧ after = before
    | some v =>
      if v.getLast? = some 0 then
        r = .incremented 0 (wrap64 (strtoll v + increment)) ∧
          after = Function.update before key (some (Bucket.incrText v (wrap64 (strtoll v + increment))))
      else r = .incremented (-2) 0 ∧ after = before

end CacheOp

namespace RecencyList

theorem get_set (key val : Bytes) (l : RecencyList) : (l.set key val).get key = some val := by
  rw [get, set, Assoc.get_cons, if_pos rfl]

/- A SET keeps no pair it did not find. -/
theorem get_set_other {key val k v : Bytes} {l : RecencyList} (other : k ≠ key)
    (held : (l.set key val).get k = some v) : l.get k = some v := by
  rw [get, set, Assoc.get_cons, if_neg other] at held
  unfold behind at held
  split at held
  · rw [Assoc.get_eraseKey, if_neg other] at held
    exact held
  · split at held
    · exact held
    · exact Assoc.get_of_dropLast held

theorem get_del (key : Bytes) (l : RecencyList) (k : Bytes) :
    (l.del key).get k = if k = key then none else l.get k := Assoc.get_eraseKey key k l.pairs

theorem get_replace {key v : Bytes} {l : RecencyList} (found : l.get key = some v) (val k : Bytes) :
    (l.replace key val).get k = if k = key then some val else l.get k := by
  have present : Assoc.get key l.pairs = some v := found
  rw [get, replace, Assoc.get_replace, present]
  rfl

end RecencyList

namespace Lists

def lookup (n : Nat) (t : Lists) (k : Bytes) : Option Bytes := (t (hash k % n)).get k

variable {n : Nat} {t : Lists}

theorem lookup_step (op : CacheOp) (k : Bytes) :
    (t.step n op).2.lookup n k =
      if hash k % n = hash op.key % n then (op.inList (t (hash op.key % n))).2.get k else t.lookup n k := by
  unfold lookup step
  by_cases here : hash k % n = hash op.key % n
  · simp only [here, if_true, Function.update_self]
  · simp only [if_neg here, Function.update_of_ne here]

/- An operation that sets one binding of its list sets it in the table. -/
theorem lookup_update {op : CacheOp} {val : Option Bytes}
    (changed : ∀ k, (op.inList (t (hash op.key % n))).2.get k =
      if k = op.key then val else (t (hash op.key % n)).get k) :
    (t.step n op).2.lookup n = Function.update (t.lookup n) op.key val := by
  funext k
  rw [lookup_step]
  by_cases same : k = op.key
  · subst same
    rw [if_pos rfl, changed, if_pos rfl, Function.update_self]
  · rw [Function.update_of_ne same]
    by_cases here : hash k % n = hash op.key % n
    · rw [if_pos here, changed, if_neg same, lookup, here]
    · rw [if_neg here]

theorem lookup_kept {op : CacheOp} (kept : (op.inList (t (hash op.key % n))).2 = t (hash op.key % n)) :
    (t.step n op).2.lookup n = t.lookup n := by
  funext k
  rw [lookup_step, kept]
  split
  case isTrue here => rw [lookup, here]
  case isFalse => rfl

theorem step_effect (op : CacheOp) :
    op.Effect (t.lookup n) ((t.step n op).2.lookup n) (t.step n op).1 := by
  cases op with
  | get key =>
    have listed : t.lookup n key = (t (hash key % n)).get key := rfl
    cases found : (t (hash key % n)).get key with
    | none =>
      refine ⟨lookup_kept ?_, ?_⟩ <;> simp only [step, CacheOp.key, CacheOp.inList, found, listed]
    | some v =>
      refine ⟨lookup_kept ?_, ?_⟩ <;> simp only [step, CacheOp.key, CacheOp.inList, found, listed]
  | set key val =>
    refine ⟨rfl, ?_, fun k v other held => ?_⟩
    · rw [lookup_step, if_pos (by rfl)]
      exact RecencyList.get_set key val _
    · rw [lookup_step] at held
      by_cases here : hash k % n = hash key % n
      · rw [if_pos (by exact here)] at held
        have before := RecencyList.get_set_other other held
        rw [lookup, here]
        exact before
      · rw [if_neg (by exact here)] at held
        exact held
  | del key => exact ⟨rfl, lookup_update fun k => RecencyList.get_del key _ k⟩
  | cas key oldval newval =>
    have listed : t.lookup n key = (t (hash key % n)).get key := rfl
    simp only [CacheOp.Effect, listed]
    cases found : (t (hash key % n)).get key with
    | none =>
      refine ⟨?_, lookup_kept ?_⟩ <;>
        simp only [step, CacheOp.key, CacheOp.inList, RecencyList.cas, found]
    | some v =>
      simp only
      by_cases same : v = oldval
      · rw [if_pos same]
        refine ⟨?_, lookup_update fun k => ?_⟩
        · simp only [step, CacheOp.key, CacheOp.inList, RecencyList.cas, found, if_pos same]
        · simp only [CacheOp.key, CacheOp.inList, RecencyList.cas, found, if_pos same]
          exact RecencyList.get_replace found newval k
      · rw [if_neg same]
        refine ⟨?_, lookup_kept ?_⟩ <;>
          simp only [step, CacheOp.key, CacheOp.inList, RecencyList.cas, found, if_neg same]
  | incr key increment =>
    have listed : t.lookup n key = (t (hash key % n)).get key := rfl
    simp only [CacheOp.Effect, listed]
    cases found : (t (hash key % n)).get key with
    | none =>
      refine ⟨?_, lookup_kept ?_⟩ <;>
        simp only [step, CacheOp.key, CacheOp.inList, RecencyList.incr, found]
    | some v =>
      simp only
      by_cases number : v.getLast? = some 0
      · rw [if_pos number]
        refine ⟨?_, lookup_update fun k => ?_⟩
        · simp only [step, CacheOp.key, CacheOp.inList, RecencyList.incr, found, if_pos number]
        · simp only [CacheOp.key, CacheOp.inList, RecencyList.incr, found, if_pos number]
          exact RecencyList.get_replace found _ k
      · rw [if_neg number]
        refine ⟨?_, lookup_kept ?_⟩ <;>
          simp only [step, CacheOp.key, CacheOp.inList, RecencyList.incr, found, if_neg number]

end Lists

section

variable {cd cd' : Cache} {op : CacheOp} {r : CacheResult}

/- An increment that goes through did not read before an empty value. -/
theorem incrNonEmpty_of_ok {n : Nat} {t : Lists} (models : CacheModels cd (t.store n))
    (ran : op.exec Bucket.plenty cd = .ok (r, cd')) : IncrNonEmpty cd op := by
  cases op with
  | incr key increment =>
    intro empty
    obtain ⟨_, b, done, _⟩ := CacheOp.exec_inv models ran
    have none_left : Assoc.get key ((t.store n).bucket key).pairs = some [] :=
      (models.lookup key).symm.trans empty
    simp only [CacheOp.key, CacheOp.inBucket, Bucket.incr, none_left, List.getLast?_nil,
      error_bind] at done
    contradiction
  | _ => trivial

theorem Cache.Listed.exec (listed : cd.Listed) (ran : op.exec Bucket.plenty cd = .ok (r, cd')) :
    cd'.Listed ∧ cd'.hashlen = cd.hashlen ∧ op.Effect cd.lookup cd'.lookup r := by
  obtain ⟨n, t, models⟩ := listed
  have buckets : 0 < n := Nat.pos_of_ne_zero (CacheOp.exec_inv models ran).1
  obtain ⟨cd₁, ran₁, models₁⟩ := exec_lists models buckets (incrNonEmpty_of_ok models ran)
  obtain ⟨rfl, rfl⟩ := Prod.mk.inj (Except.ok.inj (ran₁.symm.trans ran))
  have before : cd.lookup = t.lookup n := funext models.lookup_lists
  have after : cd₁.lookup = (t.step n op).2.lookup n := funext models₁.lookup_lists
  refine ⟨⟨n, _, models₁⟩, models₁.hashlen.trans models.hashlen.symm, ?_⟩
  rw [before, after]
  exact Lists.step_effect op

theorem Cache.Listed.total (listed : cd.Listed) (buckets : 0 < cd.hashlen)
    (nonempty : IncrNonEmpty cd op) : ∃ r cd', op.exec Bucket.plenty cd = .ok (r, cd') := by
  obtain ⟨n, t, models⟩ := listed
  have same : cd.hashlen = n := models.hashlen
  obtain ⟨cd', ran, _⟩ := exec_lists models (same ▸ buckets) nonempty
  exact ⟨_, cd', ran⟩

theorem cacheCreate_listed {cdOk tableOk : Bool} {numobjs flags : Nat}
    (created : cacheCreate cdOk tableOk numobjs flags = some cd) :
    cd.Listed ∧ ∀ k, cd.lookup k = none := by
  have models : CacheModels cd (Lists.empty.store cd.hashlen) := (cacheCreate_models created).2
  exact ⟨⟨cd.hashlen, Lists.empty, models⟩, fun k => models.lookup_lists k⟩

end

end Nmdb
