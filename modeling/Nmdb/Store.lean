import Nmdb.CacheChains
import Nmdb.RecencyList

/-! The operations of the cache on the whole table. Each works on the bucket of its key
only, so a table of chains does what a table of buckets does, operation by operation. -/
namespace Nmdb

open DoublyLinked

inductive CacheOp where
  | get (key : Bytes)
  | set (key val : Bytes)
  | del (key : Bytes)
  | cas (key oldval newval : Bytes)
  | incr (key : Bytes) (increment : Int)
  deriving DecidableEq, Repr

inductive CacheResult where
  | got (found : Bool) (val : Ptr) (vsize : Int)
  | rv (rv : Int)
  | incremented (rv newval : Int)
  deriving DecidableEq, Repr

def Ptr.bytes : Ptr → Bytes
  | .block b => b
  | .null => []
  | .dangling => []

/- The pairs of a chain, as met from the first entry on. -/
def CacheChain.pairs (c : CacheChain) : List (Bytes × Bytes) :=
  (DoublyLinked.walk (fun i => (c.entries i).next) CHAINLEN c.first).map fun i =>
    ((c.entries i).key.bytes, (c.entries i).val.bytes)

def Cache.chain (cd : Cache) (key : Bytes) : CacheChain := cd.table (hash key % cd.hashlen)

def Cache.lookup (cd : Cache) (key : Bytes) : Option Bytes := Assoc.get key (cd.chain key).pairs

namespace CacheOp

def key : CacheOp → Bytes
  | .get key => key
  | .set key _ => key
  | .del key => key
  | .cas key _ _ => key
  | .incr key _ => key

def exec (m : CacheMallocs) (cd : Cache) : CacheOp → Except Fault (CacheResult × Cache)
  | .get key => do
    let (found, val, vsize) ← cacheGet cd key
    return (.got found val vsize, cd)
  | .set key val => do
    let (rv, cd) ← cacheSet m cd key val
    return (.rv rv, cd)
  | .del key => do
    let (rv, cd) ← cacheDel cd key
    return (.rv rv, cd)
  | .cas key oldval newval => do
    let (rv, cd) ← cacheCas m cd key oldval newval
    return (.rv rv, cd)
  | .incr key increment => do
    let ((rv, newval), cd) ← cacheIncr m cd key increment
    return (.incremented rv newval, cd)

def inChain (m : CacheMallocs) (c : CacheChain) : CacheOp → Except Fault (CacheResult × CacheChain)
  | .get key => do
    match ← findInChain c key with
    | none => return (.got false .null 0, c)
    | some e => return (.got true (c.entries e).val (c.entries e).vsize, c)
  | .set key val => do
    let (rv, c) ← setInChain m key val c
    return (.rv rv, c)
  | .del key => do
    let (rv, c) ← delInChain key c
    return (.rv rv, c)
  | .cas key oldval newval => do
    let (rv, c) ← casInChain m key oldval newval c
    return (.rv rv, c)
  | .incr key increment => do
    let ((rv, newval), c) ← incrInChain m key increment c
    return (.incremented rv newval, c)

def inBucket (m : CacheMallocs) (b : Bucket) : CacheOp → Except Fault (CacheResult × Bucket)
  | .get key =>
    match b.get key with
    | none => .ok (.got false .null 0, b)
    | some v => .ok (.got true (.block v) v.length, b)
  | .set key val => do
    let (rv, b) ← b.set m key val
    return (.rv rv, b)
  | .del key => do
    let (rv, b) ← b.del key
    return (.rv rv, b)
  | .cas key oldval newval => do
    let (rv, b) ← b.cas m key oldval newval
    return (.rv rv, b)
  | .incr key increment => do
    let ((rv, newval), b) ← b.incr m key increment
    return (.incremented rv newval, b)

def inList (l : RecencyList) : CacheOp → CacheResult × RecencyList
  | .get key =>
    match l.get key with
    | none => (.got false .null 0, l)
    | some v => (.got true (.block v) v.length, l)
  | .set key val => (.rv 0, l.set key val)
  | .del key => (.rv (if (l.get key).isSome then 1 else 0), l.del key)
  | .cas key oldval newval => (.rv (l.cas key oldval newval).1, (l.cas key oldval newval).2)
  | .incr key increment =>
    (.incremented (l.incr key increment).1.1 (l.incr key increment).1.2, (l.incr key increment).2)

theorem onChain_bind {α β : Type} (cd : Cache) (key : Bytes) (g : α → β)
    (f : CacheChain → Except Fault (α × CacheChain)) :
    (onChain cd key f >>= fun x => (Except.ok (g x.1, x.2) : Except Fault (β × Cache))) =
      onChain cd key fun c => f c >>= fun x => Except.ok (g x.1, x.2) := by
  unfold onChain
  cases bucketIndex cd key with
  | error e => rfl
  | ok h =>
    simp only [ok_bind]
    cases f (cd.table h) <;> rfl

theorem exec_eq (m : CacheMallocs) (cd : Cache) (op : CacheOp) :
    op.exec m cd = onChain cd op.key fun c => op.inChain m c := by
  cases op with
  | get key =>
    simp only [exec, inChain, cacheGet, findInCache, onChain, CacheOp.key]
    cases bucketIndex cd key with
    | error e => simp only [error_bind]
    | ok h =>
      simp only [ok_bind]
      cases findInChain (cd.table h) key with
      | error e => simp only [error_bind]
      | ok r =>
        cases r <;> simp
  | set key val => exact onChain_bind cd key CacheResult.rv _
  | del key => exact onChain_bind cd key CacheResult.rv _
  | cas key oldval newval => exact onChain_bind cd key CacheResult.rv _
  | incr key increment => exact onChain_bind cd key (fun r : Int × Int => CacheResult.incremented r.1 r.2) _

end CacheOp

theorem Outcome.map {α β : Type} {x : Except Fault (α × CacheChain)} {y : Except Fault (α × Bucket)}
    (h : Outcome x y) (g : α → β) :
    Outcome (x >>= fun r => .ok (g r.1, r.2)) (y >>= fun r => .ok (g r.1, r.2)) := by
  cases x with
  | error e =>
    cases y with
    | error f => exact h
    | ok s => exact h.elim
  | ok r =>
    cases y with
    | error f => exact h.elim
    | ok s => exact ⟨congrArg g h.1, h.2⟩

theorem CacheOp.inChain_refines {c : CacheChain} {b : Bucket} (h : Models c b) (m : CacheMallocs)
    (op : CacheOp) : Outcome (op.inChain m c) (op.inBucket m b) := by
  cases op with
  | get key =>
    obtain ⟨⟨is, rep⟩, _⟩ := id h
    obtain ⟨r, found, located⟩ := findInChain_located rep key
    simp only [inChain, inBucket, Bucket.get, found, ok_bind]
    cases r with
    | none =>
      rw [show Assoc.get key b.pairs = none from located]
      exact Outcome.ok h
    | some e =>
      obtain ⟨v, xs, ys, lx, ly, _, _, _, _, here, look⟩ := located
      rw [look]
      simp only [here.val, here.vsize]
      exact Outcome.ok h
  | set key val => exact (setInChain_refines h m key val).map CacheResult.rv
  | del key => exact (delInChain_refines h key).map CacheResult.rv
  | cas key oldval newval => exact (casInChain_refines h m key oldval newval).map CacheResult.rv
  | incr key increment =>
    exact (incrInChain_refines h m key increment).map fun r => CacheResult.incremented r.1 r.2

theorem stored_pairs {c : CacheChain} {is : List Slot} {l : List (Bytes × Bytes)}
    (stores : List.Forall₂ (Stores c) is l) :
    is.map (fun i => ((c.entries i).key.bytes, (c.entries i).val.bytes)) = l := by
  induction stores with
  | nil => rfl
  | @cons i p is l here _ ih =>
    rw [List.map_cons, here.key, here.val, ih]
    rfl

theorem Models.pairs {c : CacheChain} {b : Bucket} (h : Models c b) : c.pairs = b.pairs := by
  obtain ⟨⟨is, rep⟩, _⟩ := h
  have short : is.length ≤ CHAINLEN := by
    simpa using List.Nodup.length_le_card rep.linked.nodup
  have walked : DoublyLinked.walk (fun i => (c.entries i).next) CHAINLEN c.first = is :=
    rep.linked.walk_next short
  rw [CacheChain.pairs, walked]
  exact stored_pairs rep.stores

theorem CacheOp.inBucket_ofList {op : CacheOp} {l : RecencyList}
    (nonempty : ∀ key increment, op = .incr key increment → l.get key ≠ some []) :
    op.inBucket Bucket.plenty (Bucket.ofList l) =
      .ok ((op.inList l).1, Bucket.ofList (op.inList l).2) := by
  cases op with
  | get key =>
    simp only [inBucket, inList]
    rw [show (Bucket.ofList l).get key = l.get key from rfl]
    cases l.get key with
    | none => rfl
    | some v => rfl
  | set key val => simp only [inBucket, inList, Bucket.set_ofList, ok_bind, pure_ok]
  | del key => simp only [inBucket, inList, Bucket.del_ofList, ok_bind, pure_ok]
  | cas key oldval newval => simp only [inBucket, inList, Bucket.cas_ofList, ok_bind, pure_ok]
  | incr key increment =>
    simp only [inBucket, inList, Bucket.incr_ofList (nonempty key increment rfl), ok_bind, pure_ok]

/- Whatever malloc() does, an operation brings no other key into its bucket. -/
theorem CacheOp.inBucket_keys {op : CacheOp} {m : CacheMallocs} {b b' : Bucket} {r : CacheResult}
    (done : op.inBucket m b = .ok (r, b')) :
    ∀ k ∈ Assoc.keys b'.pairs, k = op.key ∨ k ∈ Assoc.keys b.pairs := by
  have erased : ∀ key, ∀ k ∈ Assoc.keys (Assoc.eraseKey key b.pairs), k ∈ Assoc.keys b.pairs :=
    fun key k hk => (List.filter_sublist.map Prod.fst).subset hk
  have dropped : ∀ k ∈ Assoc.keys b.pairs.dropLast, k ∈ Assoc.keys b.pairs :=
    fun k hk => ((List.dropLast_sublist _).map Prod.fst).subset hk
  cases op with
  | get key =>
    simp only [inBucket] at done
    split at done <;> cases done <;> exact fun k hk => .inr hk
  | set key val =>
    obtain ⟨⟨rv, b₁⟩, ran, same⟩ := bind_eq_ok.mp done
    cases same
    rcases Bucket.set_cases ran
      with ⟨_, _, _, rfl⟩ | ⟨_, _, _, rfl⟩ | ⟨_, _, _, rfl⟩ | ⟨_, rfl⟩ | ⟨_, _, _, rfl⟩
    · exact fun k hk => (List.mem_cons.mp hk).imp id (erased key k)
    · exact fun k hk => (List.mem_cons.mp hk).imp id (dropped k)
    · exact fun k hk => List.mem_cons.mp hk
    · exact fun k hk => .inr hk
    · exact fun k hk => .inr (dropped k hk)
  | del key =>
    obtain ⟨⟨rv, b₁⟩, ran, same⟩ := bind_eq_ok.mp done
    cases same
    rcases Bucket.del_cases ran with ⟨_, _, _, rfl⟩ | ⟨_, _, rfl⟩
    · exact fun k hk => .inr (erased key k hk)
    · exact fun k hk => .inr hk
  | cas key oldval newval =>
    obtain ⟨⟨rv, b₁⟩, ran, same⟩ := bind_eq_ok.mp done
    cases same
    rcases Bucket.cas_cases ran with ⟨_, _, rfl⟩ | ⟨_, _, _, _, rfl⟩ | ⟨_, _, rfl⟩ | ⟨_, _, rfl⟩
    · exact fun k hk => .inr hk
    · exact fun k hk => .inr hk
    · exact fun k hk => .inr (Assoc.keys_replace key newval b.pairs ▸ hk)
    · exact fun k hk => .inr hk
  | incr key increment =>
    obtain ⟨⟨⟨rv, n⟩, b₁⟩, ran, same⟩ := bind_eq_ok.mp done
    cases same
    rcases Bucket.incr_cases ran with ⟨_, _, rfl⟩ | ⟨_, _, _, _, rfl⟩ | ⟨v, _, _, _, _, rfl⟩ | ⟨_, _, _, rfl⟩
    · exact fun k hk => .inr hk
    · exact fun k hk => .inr hk
    · exact fun k hk => .inr (Assoc.keys_replace key (Bucket.incrText v n) b.pairs ▸ hk)
    · exact fun k hk => .inr hk

structure Store where
  hashlen : Nat
  buckets : Nat → Bucket

/- The table of chains and the table of buckets; every key is in the bucket of its hash. -/
structure CacheModels (cd : Cache) (s : Store) : Prop where
  hashlen : cd.hashlen = s.hashlen
  chains : ∀ h, Models (cd.table h) (s.buckets h)
  placed : ∀ h, ∀ k ∈ Assoc.keys (s.buckets h).pairs, hash k % s.hashlen = h

def CacheOp.inStore (m : CacheMallocs) (s : Store) (op : CacheOp) : Except Fault (CacheResult × Store) :=
  if s.hashlen = 0 then .error .divByZero
  else do
    let (r, b) ← op.inBucket m (s.buckets (hash op.key % s.hashlen))
    return (r, { s with buckets := Function.update s.buckets (hash op.key % s.hashlen) b })

theorem CacheOp.exec_refines {cd : Cache} {s : Store} (h : CacheModels cd s) (m : CacheMallocs)
    (op : CacheOp) :
    Runs.Agree (fun x y => x.1 = y.1 ∧ CacheModels x.2 y.2) (op.exec m cd) (op.inStore m s) := by
  rw [op.exec_eq, onChain, bucketIndex, inStore, h.hashlen]
  by_cases none : s.hashlen = 0
  · rw [if_pos none, if_pos none]
    exact rfl
  · rw [if_neg none, if_neg none, ok_bind]
    have step := op.inChain_refines (h.chains (hash op.key % s.hashlen)) m
    cases chain : op.inChain m (cd.table (hash op.key % s.hashlen)) with
    | error e =>
      cases bucket : op.inBucket m (s.buckets (hash op.key % s.hashlen)) with
      | error f =>
        rw [chain, bucket] at step
        exact step
      | ok y =>
        rw [chain, bucket] at step
        exact step.elim
    | ok x =>
      cases bucket : op.inBucket m (s.buckets (hash op.key % s.hashlen)) with
      | error f =>
        rw [chain, bucket] at step
        exact step.elim
      | ok y =>
        rw [chain, bucket] at step
        refine ⟨step.1, rfl, fun i => ?_, fun i k hk => ?_⟩
        · by_cases here : i = hash op.key % s.hashlen
          · subst here
            simpa only [Function.update_self] using step.2
          · simpa only [Function.update_of_ne here] using h.chains i
        · by_cases here : i = hash op.key % s.hashlen
          · subst here
            rw [show y = (y.1, y.2) from rfl] at bucket
            simp only [Function.update_self] at hk
            rcases inBucket_keys bucket k hk with rfl | old
            · rfl
            · exact h.placed _ k old
          · simp only [Function.update_of_ne here] at hk
            exact h.placed i k hk

def Store.bucket (s : Store) (key : Bytes) : Bucket := s.buckets (hash key % s.hashlen)

def Store.put (s : Store) (key : Bytes) (b : Bucket) : Store :=
  { s with buckets := Function.update s.buckets (hash key % s.hashlen) b }

theorem CacheOp.inStore_bucket {s : Store} (some : s.hashlen ≠ 0) {m : CacheMallocs} (op : CacheOp) :
    op.inStore m s = op.inBucket m (s.bucket op.key) >>= fun x => pure (x.1, s.put op.key x.2) :=
  if_neg some

theorem CacheOp.exec_error {cd : Cache} {s : Store} (h : CacheModels cd s) (some : s.hashlen ≠ 0)
    {m : CacheMallocs} {op : CacheOp} {e : Fault} (done : op.inBucket m (s.bucket op.key) = .error e) :
    op.exec m cd = .error e := by
  have refined := op.exec_refines h m
  rw [op.inStore_bucket some, done] at refined
  cases ran : op.exec m cd with
  | error f =>
    rw [ran] at refined
    exact congrArg Except.error refined
  | ok x =>
    rw [ran] at refined
    exact refined.elim

theorem CacheOp.exec_ok {cd : Cache} {s : Store} (h : CacheModels cd s) (some : s.hashlen ≠ 0)
    {m : CacheMallocs} {op : CacheOp} {r : CacheResult} {b : Bucket}
    (done : op.inBucket m (s.bucket op.key) = .ok (r, b)) :
    ∃ cd', op.exec m cd = .ok (r, cd') ∧ CacheModels cd' (s.put op.key b) := by
  have refined := op.exec_refines h m
  rw [op.inStore_bucket some, done] at refined
  cases ran : op.exec m cd with
  | error f =>
    rw [ran] at refined
    exact refined.elim
  | ok x =>
    rw [ran] at refined
    obtain ⟨same, after⟩ := refined
    exact ⟨x.2, congrArg Except.ok (Prod.ext same rfl), after⟩

theorem CacheOp.exec_none {cd : Cache} (none : cd.hashlen = 0) (m : CacheMallocs) (op : CacheOp) :
    op.exec m cd = .error .divByZero := by
  rw [op.exec_eq, onChain, bucketIndex, if_pos none, error_bind]

theorem CacheModels.lookup {cd : Cache} {s : Store} (h : CacheModels cd s) (key : Bytes) :
    cd.lookup key = (s.bucket key).get key := by
  rw [Cache.lookup, Cache.chain, h.hashlen, (h.chains _).pairs, Bucket.get]
  rfl

theorem emptyChain_models : Models emptyChain Bucket.empty := by
  refine ⟨⟨[], ⟨Linked.nil_iff.mpr ⟨rfl, rfl⟩, fun i => ?_, .nil, List.nodup_nil⟩⟩, rfl, Nat.le_refl _,
    Nat.zero_le _⟩
  constructor
  · intro used
    exact absurd rfl used
  · intro member
    cases member

theorem cacheCreate_models {cdOk tableOk : Bool} {numobjs flags : Nat} {cd : Cache}
    (created : cacheCreate cdOk tableOk numobjs flags = some cd) :
    cd.hashlen = numobjs / CHAINLEN ∧ CacheModels cd ⟨cd.hashlen, fun _ => Bucket.empty⟩ := by
  unfold cacheCreate at created
  split at created
  · cases created
    refine ⟨rfl, rfl, fun _ => emptyChain_models, fun _ k hk => ?_⟩
    cases hk
  · contradiction

/- The bucket a chain stands for. -/
def Cache.bucketOf (cd : Cache) (key : Bytes) : Bucket := ⟨(cd.chain key).len, (cd.chain key).pairs⟩

/-- A cache whose chains are lists in order, the counters possibly ahead. -/
def Cache.Represented (cd : Cache) : Prop := ∃ s, CacheModels cd s

section

variable {cd cd' : Cache} {s : Store} {m : CacheMallocs} {key val oldval newval : Bytes} {b : Bucket}

theorem CacheModels.bucketOf (models : CacheModels cd s) (key : Bytes) :
    cd.bucketOf key = s.bucket key := by
  have chain := models.chains (hash key % s.hashlen)
  rw [Cache.bucketOf, Cache.chain, models.hashlen, chain.pairs, chain.2.1]
  rfl

theorem CacheModels.distinct (models : CacheModels cd s) (key : Bytes) :
    (Assoc.keys (s.bucket key).pairs).Nodup := by
  obtain ⟨⟨is, rep⟩, _⟩ := models.chains (hash key % s.hashlen)
  exact rep.keys

theorem CacheOp.exec_inv (models : CacheModels cd s) {op : CacheOp} {r : CacheResult}
    (ran : op.exec m cd = .ok (r, cd')) :
    s.hashlen ≠ 0 ∧ ∃ b, op.inBucket m (s.bucket op.key) = .ok (r, b) ∧
      CacheModels cd' (s.put op.key b) := by
  have some : s.hashlen ≠ 0 := fun none => by
    rw [exec_none (models.hashlen.trans none)] at ran
    contradiction
  refine ⟨some, ?_⟩
  cases done : op.inBucket m (s.bucket op.key) with
  | error e =>
    rw [exec_error models some done] at ran
    contradiction
  | ok x =>
    obtain ⟨cd'', ran', models'⟩ := exec_ok models some (r := x.1) (b := x.2) done
    obtain ⟨rfl, rfl⟩ := Prod.mk.inj (Except.ok.inj (ran'.symm.trans ran))
    exact ⟨x.2, rfl, models'⟩

theorem Cache.Represented.exec {op : CacheOp} {r : CacheResult} (represented : cd.Represented)
    (ran : op.exec m cd = .ok (r, cd')) : cd'.Represented := by
  obtain ⟨s, models⟩ := represented
  obtain ⟨_, b, _, models'⟩ := CacheOp.exec_inv models ran
  exact ⟨_, models'⟩

/- The five functions as operations. -/

theorem CacheOp.exec_get {hit : Bool} {v : Ptr} {vsize : Int} (ran : cacheGet cd key = .ok (hit, v, vsize)) :
    (CacheOp.get key).exec m cd = .ok (.got hit v vsize, cd) := by
  simp only [exec, ran, ok_bind, pure_ok]

theorem CacheOp.exec_set {rv : Int} (ran : cacheSet m cd key val = .ok (rv, cd')) :
    (CacheOp.set key val).exec m cd = .ok (.rv rv, cd') := by
  simp only [exec, ran, ok_bind, pure_ok]

theorem CacheOp.exec_del {rv : Int} (ran : cacheDel cd key = .ok (rv, cd')) :
    (CacheOp.del key).exec m cd = .ok (.rv rv, cd') := by
  simp only [exec, ran, ok_bind, pure_ok]

theorem CacheOp.exec_cas {rv : Int} (ran : cacheCas m cd key oldval newval = .ok (rv, cd')) :
    (CacheOp.cas key oldval newval).exec m cd = .ok (.rv rv, cd') := by
  simp only [exec, ran, ok_bind, pure_ok]

theorem CacheOp.exec_incr {increment rv n : Int} (ran : cacheIncr m cd key increment = .ok ((rv, n), cd')) :
    (CacheOp.incr key increment).exec m cd = .ok (.incremented rv n, cd') := by
  simp only [exec, ran, ok_bind, pure_ok]

theorem cacheSet_inv (models : CacheModels cd s) {rv : Int}
    (ran : cacheSet m cd key val = .ok (rv, cd')) :
    ∃ b, (s.bucket key).set m key val = .ok (rv, b) ∧ CacheModels cd' (s.put key b) := by
  obtain ⟨_, b, done, models'⟩ := CacheOp.exec_inv models (CacheOp.exec_set ran)
  obtain ⟨⟨rv', b'⟩, set, same⟩ := bind_eq_ok.mp done
  cases same
  exact ⟨_, set, models'⟩

theorem cacheDel_inv (models : CacheModels cd s) {rv : Int} (ran : cacheDel cd key = .ok (rv, cd')) :
    ∃ b, (s.bucket key).del key = .ok (rv, b) ∧ CacheModels cd' (s.put key b) := by
  obtain ⟨_, b, done, models'⟩ := CacheOp.exec_inv models (CacheOp.exec_del (m := Bucket.plenty) ran)
  obtain ⟨⟨rv', b'⟩, del, same⟩ := bind_eq_ok.mp done
  cases same
  exact ⟨_, del, models'⟩

theorem cacheCas_inv (models : CacheModels cd s) {rv : Int}
    (ran : cacheCas m cd key oldval newval = .ok (rv, cd')) :
    ∃ b, (s.bucket key).cas m key oldval newval = .ok (rv, b) ∧ CacheModels cd' (s.put key b) := by
  obtain ⟨_, b, done, models'⟩ := CacheOp.exec_inv models (CacheOp.exec_cas ran)
  obtain ⟨⟨rv', b'⟩, cas, same⟩ := bind_eq_ok.mp done
  cases same
  exact ⟨_, cas, models'⟩

theorem cacheIncr_inv (models : CacheModels cd s) {increment rv n : Int}
    (ran : cacheIncr m cd key increment = .ok ((rv, n), cd')) :
    ∃ b, (s.bucket key).incr m key increment = .ok ((rv, n), b) ∧ CacheModels cd' (s.put key b) := by
  obtain ⟨_, b, done, models'⟩ := CacheOp.exec_inv models (CacheOp.exec_incr ran)
  obtain ⟨⟨⟨rv', n'⟩, b'⟩, incr, same⟩ := bind_eq_ok.mp done
  cases same
  exact ⟨_, incr, models'⟩

/-- What a lookup sees after the bucket of a key has changed. -/
theorem CacheModels.lookup_put (models : CacheModels cd s) (models' : CacheModels cd' (s.put key b))
    (k : Bytes) :
    cd'.lookup k = if hash k % s.hashlen = hash key % s.hashlen then b.get k else cd.lookup k := by
  rw [models'.lookup, models.lookup]
  by_cases here : hash k % s.hashlen = hash key % s.hashlen
  · rw [if_pos here]
    simp only [Store.bucket, Store.put, here, Function.update_self]
  · rw [if_neg here]
    simp only [Store.bucket, Store.put, Function.update_of_ne here]

/-- The cache has the same bindings as before if the bucket has. -/
theorem CacheModels.same_lookups (models : CacheModels cd s) (models' : CacheModels cd' (s.put key b)) :
    (∀ k, cd'.lookup k = cd.lookup k) ↔ ∀ k, b.get k = (s.bucket key).get k := by
  refine forall_congr' fun k => ?_
  rw [models.lookup_put models']
  by_cases here : hash k % s.hashlen = hash key % s.hashlen
  · rw [if_pos here, models.lookup, show s.bucket k = s.bucket key from congrArg s.buckets here]
  · have before : (s.bucket key).get k = none :=
      (Assoc.get_eq_none _ _).mpr fun member => here (models.placed _ k member)
    have after : b.get k = none := by
      refine (Assoc.get_eq_none _ _).mpr fun member => here (models'.placed (hash key % s.hashlen) k ?_)
      simpa only [Store.put, Function.update_self] using member
    rw [if_neg here, before, after]
    exact ⟨fun _ => rfl, fun _ => rfl⟩

end

end Nmdb
