import Nmdb.CacheRuns
import Nmdb.Lib.Recency

/-! Which key a full bucket gives up. Every lookup that matches is meant to promote its
entry, so that the last one is the one used longest ago; only cacheSet promotes, so the
order is that of the uses as long as the others find their key in front. -/
namespace Nmdb

open Recency

/-- A cache and the keys used so far, the newest first. -/
structure History where
  cache : Cache
  uses : List Bytes

/-- A lookup that matches and an insertion use the key. -/
def used (cd : Cache) : CacheOp → Bool
  | .get key => (cd.lookup key).isSome
  | .set _ _ => true
  | .del _ => false
  | .cas key _ _ => (cd.lookup key).isSome
  | .incr key _ => (cd.lookup key).isSome

def historyStep (s : History) (op : CacheOp) : Except Fault History := do
  let (_, cd) ← op.exec Bucket.plenty s.cache
  return ⟨cd, if used s.cache op then op.key :: s.uses else s.uses⟩

/- After the step all buckets are in order of use, and a full bucket that got a new key
gave up the one used longest ago. -/
def LeastRecentlyUsed (s : History) (op : CacheOp) : Prop :=
  ∀ t, historyStep s op = .ok t →
    (∀ h < s.cache.hashlen, Ordered t.uses (Assoc.keys (t.cache.table h).pairs)) ∧
    ∀ key val, op = .set key val → s.cache.lookup key = none →
      (s.cache.chain key).len = CHAINLEN →
      ∃ evicted ∈ Assoc.keys (s.cache.chain key).pairs, t.cache.lookup evicted = none ∧
        ∀ k ∈ Assoc.keys (s.cache.chain key).pairs, k ≠ evicted →
          t.cache.lookup k = s.cache.lookup k ∧ age s.uses k < age s.uses evicted

def FirstOrAbsent (cd : Cache) (key : Bytes) : Prop :=
  cd.lookup key = none ∨ (Assoc.keys (cd.chain key).pairs).head? = some key

/- A lookup that does not promote finds nothing to promote. An incr of an empty value,
which has no behaviour, is let pass. -/
def NothingToPromote (s : History) (op : CacheOp) : Prop :=
  s.cache.hashlen = 0 ∨
  match op with
  | .get key => FirstOrAbsent s.cache key
  | .set _ _ => True
  | .del _ => True
  | .cas key _ _ => FirstOrAbsent s.cache key
  | .incr key _ => s.cache.lookup key = some [] ∨ FirstOrAbsent s.cache key

namespace RecencyList

/- The uses after an operation on the list, and whether it finds its key in front. -/
def usesAfter (uses : List Bytes) (l : RecencyList) : CacheOp → List Bytes
  | .get key => if (l.get key).isSome then key :: uses else uses
  | .set key _ => key :: uses
  | .del _ => uses
  | .cas key _ _ => if (l.get key).isSome then key :: uses else uses
  | .incr key _ => if (l.get key).isSome then key :: uses else uses

def InFront (l : RecencyList) : CacheOp → Prop
  | .get key => l.get key = none ∨ (Assoc.keys l.pairs).head? = some key
  | .set _ _ => True
  | .del _ => True
  | .cas key _ _ => l.get key = none ∨ (Assoc.keys l.pairs).head? = some key
  | .incr key _ => l.get key = none ∨ (Assoc.keys l.pairs).head? = some key

theorem lookup_ordered {uses : List Bytes} {l l' : RecencyList} {key : Bytes}
    (ordered : Ordered uses (Assoc.keys l.pairs)) (keys : Assoc.keys l'.pairs = Assoc.keys l.pairs) :
    Ordered (if (l.get key).isSome then key :: uses else uses) (Assoc.keys l'.pairs) ↔
      l.get key = none ∨ (Assoc.keys l.pairs).head? = some key := by
  rw [keys]
  cases found : l.get key with
  | none => exact ⟨fun _ => .inl rfl, fun _ => ordered⟩
  | some v =>
    have inPlace := ordered.in_place (Assoc.mem_keys_of_get found)
    constructor
    · exact fun after => .inr (inPlace.mp after)
    · exact fun front => inPlace.mpr (front.resolve_left (by simp))

theorem inList_ordered {uses : List Bytes} {l : RecencyList}
    (ordered : Ordered uses (Assoc.keys l.pairs)) (op : CacheOp) :
    Ordered (usesAfter uses l op) (Assoc.keys (op.inList l).2.pairs) ↔ InFront l op := by
  cases op with
  | get key =>
    refine lookup_ordered ordered ?_
    simp only [CacheOp.inList]
    split <;> rfl
  | set key val =>
    have rest := ordered.sublist ((behind_sublist key l.pairs).map Prod.fst)
    exact ⟨fun _ => trivial, fun _ => rest.front (behind_absent key l.pairs)⟩
  | del key => exact ⟨fun _ => trivial, fun _ => ordered.sublist (List.filter_sublist.map Prod.fst)⟩
  | cas key oldval newval =>
    refine lookup_ordered ordered ?_
    simp only [CacheOp.inList, cas]
    split
    · rfl
    · split
      · exact Assoc.keys_replace _ _ _
      · rfl
  | incr key increment =>
    refine lookup_ordered ordered ?_
    simp only [CacheOp.inList, incr]
    split
    · rfl
    · split
      · exact Assoc.keys_replace _ _ _
      · rfl

theorem inList_other {uses : List Bytes} {l l' : RecencyList} {op : CacheOp}
    (ordered : Ordered uses (Assoc.keys l'.pairs)) (absent : op.key ∉ Assoc.keys l'.pairs) :
    Ordered (usesAfter uses l op) (Assoc.keys l'.pairs) := by
  have after := ordered.other absent
  cases op with
  | get key =>
    simp only [usesAfter]
    split
    · exact after
    · exact ordered
  | set key val => exact after
  | del key => exact ordered
  | cas key oldval newval =>
    simp only [usesAfter]
    split
    · exact after
    · exact ordered
  | incr key increment =>
    simp only [usesAfter]
    split
    · exact after
    · exact ordered

end RecencyList

/-- The buckets are recency lists in order of use. -/
def InOrder (s : History) : Prop :=
  s.cache.hashlen = 0 ∨ ∃ t : Lists, CacheModels s.cache (t.store s.cache.hashlen) ∧
    ∀ h < s.cache.hashlen, Ordered s.uses (Assoc.keys (t h).pairs)

theorem historyStep_ok {s : History} {t : Lists} {op : CacheOp}
    (models : CacheModels s.cache (t.store s.cache.hashlen)) (buckets : 0 < s.cache.hashlen)
    (nonempty : IncrNonEmpty s.cache op) :
    ∃ cd, historyStep s op =
        .ok ⟨cd, (t (hash op.key % s.cache.hashlen)).usesAfter s.uses op⟩ ∧
      CacheModels cd ((t.step s.cache.hashlen op).2.store s.cache.hashlen) := by
  obtain ⟨cd, ran, after⟩ := exec_lists models buckets nonempty
  refine ⟨cd, ?_, after⟩
  have uses : (if used s.cache op then op.key :: s.uses else s.uses) =
      (t (hash op.key % s.cache.hashlen)).usesAfter s.uses op := by
    have look := models.lookup_lists op.key
    cases op with
    | get key => rw [used, show s.cache.lookup key = _ from look]; rfl
    | set key val => rfl
    | del key => rfl
    | cas key oldval newval => rw [used, show s.cache.lookup key = _ from look]; rfl
    | incr key increment => rw [used, show s.cache.lookup key = _ from look]; rfl
  simp only [historyStep, ran, ok_bind, pure_ok, uses]

theorem historyStep_empty {s : History} {t : Lists} {key : Bytes} {increment : Int}
    (models : CacheModels s.cache (t.store s.cache.hashlen)) (buckets : 0 < s.cache.hashlen)
    (empty : s.cache.lookup key = some []) :
    historyStep s (.incr key increment) = .error .outOfBounds := by
  have found : Assoc.get key ((t.store s.cache.hashlen).bucket key).pairs = some [] :=
    (models.lookup key).symm.trans empty
  have fault : (CacheOp.incr key increment).inBucket Bucket.plenty ((t.store s.cache.hashlen).bucket key) =
      .error .outOfBounds := by
    simp only [CacheOp.inBucket, Bucket.incr, found, List.getLast?_nil, error_bind]
  have ran : (CacheOp.incr key increment).exec Bucket.plenty s.cache = .error .outOfBounds :=
    CacheOp.exec_error models (Nat.pos_iff_ne_zero.mp buckets) fault
  simp only [historyStep, ran, error_bind]

theorem step_ordered {s : History} {t : Lists} {op : CacheOp} (buckets : 0 < s.cache.hashlen)
    (models : CacheModels s.cache (t.store s.cache.hashlen))
    (ordered : ∀ h < s.cache.hashlen, Ordered s.uses (Assoc.keys (t h).pairs)) :
    (∀ h < s.cache.hashlen, Ordered ((t (hash op.key % s.cache.hashlen)).usesAfter s.uses op)
      (Assoc.keys ((t.step s.cache.hashlen op).2 h).pairs)) ↔
    (t (hash op.key % s.cache.hashlen)).InFront op := by
  have small := Nat.mod_lt (hash op.key) buckets
  have here := RecencyList.inList_ordered (ordered _ small) op
  constructor
  · intro after
    have there := after _ small
    simp only [Lists.step, Function.update_self] at there
    exact here.mp there
  · intro front h hh
    by_cases same : h = hash op.key % s.cache.hashlen
    · subst same
      simp only [Lists.step, Function.update_self]
      exact here.mpr front
    · simp only [Lists.step, Function.update_of_ne same]
      exact RecencyList.inList_other (ordered h hh) fun member => same (models.placed h _ member).symm

/-- What a set of a new key takes from a full list. -/
theorem RecencyList.set_evicts {uses : List Bytes} {l : RecencyList} {key : Bytes} (val : Bytes)
    (ordered : Ordered uses (Assoc.keys l.pairs)) (full : l.pairs.length = CHAINLEN)
    (new : l.get key = none) :
    ∃ evicted ∈ Assoc.keys l.pairs, (l.set key val).get evicted = none ∧
      ∀ k ∈ Assoc.keys l.pairs, k ≠ evicted →
        (l.set key val).get k = l.get k ∧ age uses k < age uses evicted := by
  have absent := (Assoc.get_eq_none _ _).mp new
  obtain ⟨init, last, pairs⟩ : ∃ init last, l.pairs = init ++ [last] := by
    rcases List.eq_nil_or_concat l.pairs with nil | ⟨init, last, pairs⟩
    · rw [nil] at full
      exact absurd full (by decide)
    · exact ⟨init, last, by rw [pairs, List.concat_eq_append]⟩
  have behind : (l.set key val).pairs = (key, val) :: init := by
    have large : ¬ l.pairs.length < CHAINLEN := by omega
    change (key, val) :: RecencyList.behind key l.pairs = _
    unfold RecencyList.behind
    rw [if_neg absent, if_neg large, pairs, List.dropLast_concat]
  have keys : Assoc.keys l.pairs = Assoc.keys init ++ [last.1] := by rw [pairs, Assoc.keys_append]; rfl
  have distinct := l.distinct
  rw [keys] at distinct ordered absent ⊢
  have other : ∀ k ∈ Assoc.keys init ++ [last.1], k ≠ key := fun k hk same => absent (same ▸ hk)
  have alone : last.1 ∉ Assoc.keys init := fun member =>
    (List.nodup_append.mp distinct).2.2 _ member _ (List.mem_singleton.mpr rfl) rfl
  refine ⟨last.1, by simp, ?_, fun k hk apart => ⟨?_, ?_⟩⟩
  · rw [RecencyList.get, behind, Assoc.get_cons, if_neg (other _ (by simp))]
    exact (Assoc.get_eq_none _ _).mpr alone
  · rw [RecencyList.get, behind, Assoc.get_cons, if_neg (other k hk), RecencyList.get, pairs,
      Assoc.get_concat apart]
  · have member : k ∈ Assoc.keys init := by simpa [apart] using hk
    exact ordered.last_oldest k member

theorem nothingToPromote_iff {s : History} {t : Lists} {op : CacheOp}
    (models : CacheModels s.cache (t.store s.cache.hashlen)) (buckets : 0 < s.cache.hashlen)
    (nonempty : IncrNonEmpty s.cache op) :
    NothingToPromote s op ↔ (t (hash op.key % s.cache.hashlen)).InFront op := by
  have nonzero : s.cache.hashlen ≠ 0 := Nat.pos_iff_ne_zero.mp buckets
  have first : ∀ key, FirstOrAbsent s.cache key ↔
      (t (hash key % s.cache.hashlen)).get key = none ∨
        (Assoc.keys (t (hash key % s.cache.hashlen)).pairs).head? = some key := by
    intro key
    rw [FirstOrAbsent, models.lookup_lists, Cache.chain, (models.chains _).pairs]
    exact Iff.rfl
  unfold NothingToPromote
  rw [or_iff_right nonzero]
  cases op with
  | get key => exact first key
  | set key val => exact Iff.rfl
  | del key => exact Iff.rfl
  | cas key oldval newval => exact first key
  | incr key increment => exact (or_iff_right nonempty).trans (first key)

theorem leastRecentlyUsed_iff {s : History} (inOrder : InOrder s) (op : CacheOp) :
    LeastRecentlyUsed s op ↔ NothingToPromote s op := by
  by_cases none : s.cache.hashlen = 0
  · refine ⟨fun _ => .inl none, fun _ t taken => ?_⟩
    rw [historyStep, CacheOp.exec_none none, error_bind] at taken
    contradiction
  · have buckets := Nat.pos_of_ne_zero none
    obtain ⟨t, models, ordered⟩ := inOrder.resolve_left none
    by_cases nonempty : IncrNonEmpty s.cache op
    · rw [nothingToPromote_iff models buckets nonempty, ← step_ordered buckets models ordered]
      obtain ⟨cd, taken, models'⟩ := historyStep_ok models buckets nonempty
      constructor
      · intro lru h small
        have after := (lru _ taken).1 h small
        rw [(models'.chains h).pairs] at after
        exact after
      · intro after u took
        obtain rfl := Except.ok.inj (taken.symm.trans took)
        refine ⟨fun h small => ?_, ?_⟩
        · rw [(models'.chains h).pairs]
          exact after h small
        · rintro key val rfl new full
          have length : (t (hash key % s.cache.hashlen)).pairs.length = CHAINLEN :=
            (models.chains (hash key % s.cache.hashlen)).2.1.symm.trans full
          have pairs : (s.cache.chain key).pairs = (t (hash key % s.cache.hashlen)).pairs :=
            (models.chains (hash key % s.cache.hashlen)).pairs
          rw [models.lookup_lists] at new
          obtain ⟨evicted, member, gone, rest⟩ :=
            RecencyList.set_evicts val (ordered _ (Nat.mod_lt _ buckets)) length new
          have here : ∀ k ∈ Assoc.keys (t (hash key % s.cache.hashlen)).pairs,
              hash k % s.cache.hashlen = hash key % s.cache.hashlen := models.placed _
          -- a key of this bucket is looked up in it, before and after
          have before : ∀ k ∈ Assoc.keys (t (hash key % s.cache.hashlen)).pairs,
              s.cache.lookup k = (t (hash key % s.cache.hashlen)).get k := fun k hk => by
            rw [models.lookup_lists, here k hk]
          have now : ∀ k ∈ Assoc.keys (t (hash key % s.cache.hashlen)).pairs,
              cd.lookup k = ((t (hash key % s.cache.hashlen)).set key val).get k := fun k hk => by
            rw [models'.lookup_lists, here k hk]
            simp only [Lists.step, CacheOp.key, CacheOp.inList, Function.update_self]
          rw [pairs]
          exact ⟨evicted, member, (now _ member).trans gone, fun k hk apart =>
            ⟨(now k hk).trans ((rest k hk apart).1.trans (before k hk).symm), (rest k hk apart).2⟩⟩
    · cases op with
      | incr key increment =>
        have empty : s.cache.lookup key = some [] := Classical.not_not.mp nonempty
        refine ⟨fun _ => .inr (.inl empty), fun _ t taken => ?_⟩
        rw [historyStep_empty models buckets empty] at taken
        contradiction
      | get key => exact (nonempty trivial).elim
      | set key val => exact (nonempty trivial).elim
      | del key => exact (nonempty trivial).elim
      | cas key oldval newval => exact (nonempty trivial).elim

theorem inOrder_step {s u : History} (inOrder : InOrder s) {op : CacheOp}
    (quiet : NothingToPromote s op) (taken : historyStep s op = .ok u) : InOrder u := by
  have some : s.cache.hashlen ≠ 0 := fun none => by
    rw [historyStep, CacheOp.exec_none none, error_bind] at taken
    contradiction
  have buckets := Nat.pos_of_ne_zero some
  obtain ⟨t, models, ordered⟩ := inOrder.resolve_left some
  by_cases nonempty : IncrNonEmpty s.cache op
  · obtain ⟨cd, took, models'⟩ := historyStep_ok models buckets nonempty
    obtain rfl := Except.ok.inj (took.symm.trans taken)
    have front := (nothingToPromote_iff models buckets nonempty).mp quiet
    have same : cd.hashlen = s.cache.hashlen := models'.hashlen
    refine .inr ⟨(t.step s.cache.hashlen op).2, ?_, fun h small => ?_⟩
    · change CacheModels cd (Lists.store cd.hashlen _)
      rw [same]
      exact models'
    · exact (step_ordered buckets models ordered).mpr front h (same ▸ small)
  · cases op with
    | incr key increment =>
      rw [historyStep_empty models buckets (Classical.not_not.mp nonempty)] at taken
      contradiction
    | get key => exact (nonempty trivial).elim
    | set key val => exact (nonempty trivial).elim
    | del key => exact (nonempty trivial).elim
    | cas key oldval newval => exact (nonempty trivial).elim

/-- Throughout a run the buckets are in order of use and evict the key used longest ago
exactly when no lookup of the run has an entry to promote. -/
theorem eviction_lru_iff {numobjs flags : Nat} {cd : Cache}
    (created : cacheCreate true true numobjs flags = some cd) (ops : List CacheOp) :
    Runs.Along historyStep LeastRecentlyUsed ⟨cd, []⟩ ops ↔
      Runs.Along historyStep NothingToPromote ⟨cd, []⟩ ops := by
  have initial : InOrder ⟨cd, []⟩ :=
    .inr ⟨Lists.empty, (cacheCreate_models created).2, fun h _ => Ordered.nil []⟩
  exact Runs.along_iff (fun s op inOrder => leastRecentlyUsed_iff inOrder op)
    (fun s op u inOrder quiet taken => inOrder_step inOrder quiet taken) initial ops

/-- Four keys are set, and the first of them again. -/
def refreshed : List CacheOp := [.set [1] [7], .set [2] [7], .set [3] [7], .set [4] [7], .set [1] [8]]

/- It is read, and the fifth key takes the place of the second one. -/
theorem eviction_lru_iff_fifth :
    Runs.Along historyStep LeastRecentlyUsed ⟨⟨4, 0, 1, fun _ => emptyChain⟩, []⟩
      (refreshed ++ [.get [1], .set [5] [7]]) ∧
    ∃ u, Runs.run historyStep ⟨⟨4, 0, 1, fun _ => emptyChain⟩, []⟩ (refreshed ++ [.get [1], .set [5] [7]]) = .ok u ∧
      u.cache.lookup [1] = some [8] ∧ u.cache.lookup [2] = none := by
  refine ⟨(eviction_lru_iff (show cacheCreate true true 4 0 = some _ from rfl) _).mpr ?_, _, rfl, by decide, by decide⟩
  rw [Runs.along_append]
  constructor
  · exact ⟨.inr trivial, fun _ _ => ⟨.inr trivial, fun _ _ => ⟨.inr trivial, fun _ _ => ⟨.inr trivial,
      fun _ _ => ⟨.inr trivial, fun _ _ => trivial⟩⟩⟩⟩⟩
  · rintro _ ⟨⟩
    exact ⟨.inr (.inr (by decide)), fun _ _ => ⟨.inr trivial, fun _ _ => trivial⟩⟩

/-- The key just read is the one that goes. -/
theorem get_does_not_promote :
    ¬ Runs.Along historyStep LeastRecentlyUsed ⟨⟨4, 0, 1, fun _ => emptyChain⟩, []⟩
      [.set [1] [7], .set [2] [7], .set [3] [7], .set [4] [7], .get [1], .set [5] [7]] := by
  intro along
  have atSet := ((((((along.2 _ rfl).2 _ rfl).2 _ rfl).2 _ rfl).2 _ rfl).1 _ rfl).2 [5] [7] rfl
  obtain ⟨evicted, _, gone, others⟩ := atSet (by decide) (by decide)
  by_cases read : evicted = [1]
  · subst read
    exact absurd (others [2] (by decide) (by decide)).2 (by decide)
  · exact absurd (others [1] (by decide) (Ne.symm read)).1 (by decide)

end Nmdb
