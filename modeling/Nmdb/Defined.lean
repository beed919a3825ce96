import Nmdb.Dispatch
import Nmdb.Atomicity

/-! When handling a message has defined behaviour, whatever malloc() does. Three things go
wrong: the key of a new pair cannot be had, a bucket is out of step with its counter, and
a copy for a queue entry cannot be had. -/
namespace Nmdb

variable {ν : Type}

/-- Once there is an entry, its copies can be had. -/
def Mallocs.CopiesHad (m : Mallocs) (e : QueueEntry ν) : Prop :=
  m.entry = true → (e.key.isSome = true → m.kcopy = true) ∧ (e.val.isSome = true → m.vcopy = true) ∧
    (e.newval.isSome = true → m.nvcopy = true)

namespace Bucket

/-- The cache part of a request does not go wrong in its bucket. -/
def Defined (b : Bucket) (m : CacheMallocs) : Request → Prop
  | .set key _ => b.get key = none →
      if b.len = CHAINLEN then 2 ≤ b.pairs.length
      else m.key = true ∧ (m.val = true → 0 < b.len → b.pairs ≠ [])
  | .incr key _ => b.get key ≠ some []
  | _ => True

/-- The cache part of a request lets it go on to the database. -/
def PassesOn (b : Bucket) (m : CacheMallocs) : Request → Prop
  | .get key => b.get key = none
  | .set key val =>
    match b.get key with
    | some old => val.length = old.length ∨ m.val = true
    | none =>
      if b.len = CHAINLEN then ∀ last, b.pairs.getLast? = some last → recycles m key val last = true
      else m.val = true
  | .cas key oldval newval => b.get key = none ∨
      (b.get key = some oldval ∧ (oldval.length = newval.length ∨ m.val = true))
  | .incr key _ => ∀ v, b.get key = some v → v.getLast? = some 0 ∧ (24 ≤ v.length ∨ m.val = true)
  | _ => True

end Bucket

/-- A request is served with defined behaviour. -/
def RequestDefined (m : Mallocs) (s : Server ν) (req : ReqInfo ν) (r : Request) : Prop :=
  match r with
  | .nextkey _ => m.CopiesHad (r.entry req)
  | _ => s.cache.hashlen ≠ 0 ∧ (s.cache.bucketOf r.key).Defined m.cache r ∧
      (req.cacheOnly = false → (s.cache.bucketOf r.key).PassesOn m.cache r → m.CopiesHad (r.entry req))

def MessageDefined (m : Mallocs) (s : Server ν) (req : ReqInfo ν) (buf : Mem) (len : Nat) : Prop :=
  match route s.settings.readOnly buf len with
  | .request r => RequestDefined m s (headerInfo req buf) r
  | _ => True

/- Said of the function, so that the route of a message need not be computed to unfold it. -/
theorem messageDefined_eq : @MessageDefined ν = fun m s req buf len =>
    match route s.settings.readOnly buf len with
    | .request r => RequestDefined m s (headerInfo req buf) r
    | _ => True := rfl

/-- It is only a message that is served that can go wrong. -/
theorem messageDefined_iff {m : Mallocs} {s : Server ν} {req : ReqInfo ν} {buf : Mem} {len : Nat} :
    MessageDefined m s req buf len ↔
      ∀ r, route s.settings.readOnly buf len = .request r → RequestDefined m s (headerInfo req buf) r := by
  rw [messageDefined_eq]
  beta_reduce
  cases route s.settings.readOnly buf len with
  | request r => simp only [Route.request.injEq, forall_eq']
  | _ => exact ⟨nofun, fun _ => trivial⟩

/-- A computation comes to an end without a fault. -/
def Succeeds {α : Type} (x : Except Fault α) : Prop := ∃ a, x = .ok a

theorem not_succeeds {α : Type} {e : Fault} : ¬ Succeeds (.error e : Except Fault α) := by
  rintro ⟨_, done⟩
  contradiction

/- How a computation goes wrong. -/
def faultOf {α : Type} (x : Except Fault α) : Option Fault :=
  match x with
  | .ok _ => none
  | .error e => some e

theorem faultOf_error {α : Type} {x : Except Fault α} {e : Fault} (fault : faultOf x = some e) : x = .error e := by
  cases x with
  | ok a => contradiction
  | error f => exact congrArg Except.error (Option.some.inj fault)

theorem succeeds_bind {α β : Type} {x : Except Fault α} {f : α → Except Fault β} :
    Succeeds (x >>= f) ↔ ∃ a, x = .ok a ∧ Succeeds (f a) := by
  constructor
  · rintro ⟨b, done⟩
    obtain ⟨a, first, rest⟩ := bind_eq_ok.mp done
    exact ⟨a, first, b, rest⟩
  · rintro ⟨a, first, b, rest⟩
    exact ⟨b, bind_eq_ok.mpr ⟨a, first, rest⟩⟩

section

variable {m : Mallocs} {s : Server ν} {req : ReqInfo ν}

theorem makeQueueLongEntry_succeeds (e : QueueEntry ν) :
    Succeeds (makeQueueLongEntry m e.req e.operation e.key e.val e.newval) ↔ m.CopiesHad e := by
  unfold makeQueueLongEntry Mallocs.CopiesHad
  cases m.entry with
  | false => exact ⟨fun _ had => by contradiction, fun _ => ⟨none, rfl⟩⟩
  | true =>
    simp only [Bool.not_true, Bool.false_eq_true, if_false, true_implies]
    split
    case isTrue missing =>
      refine ⟨fun had => (not_succeeds had).elim, fun had => ?_⟩
      simp only [Bool.or_eq_true, Bool.and_eq_true, Bool.not_eq_true'] at missing
      rcases missing with (⟨key, no⟩ | ⟨val, no⟩) | ⟨newval, no⟩
      · exact absurd (had.1 key) (by simp [no])
      · exact absurd (had.2.1 val) (by simp [no])
      · exact absurd (had.2.2 newval) (by simp [no])
    case isFalse had =>
      simp only [Bool.or_eq_true, Bool.and_eq_true, Bool.not_eq_true', not_or, not_and,
        Bool.not_eq_false] at had
      refine ⟨fun _ => ⟨had.1.1, had.1.2, had.2⟩, fun _ => ?_⟩
      split <;> exact ⟨_, rfl⟩

theorem putInQueueLong_succeeds (s : Server ν) (e : QueueEntry ν) :
    Succeeds (putInQueueLong m s e.req e.operation e.key e.val e.newval) ↔ m.CopiesHad e := by
  rw [← makeQueueLongEntry_succeeds]
  unfold putInQueueLong
  rw [succeeds_bind]
  constructor
  · rintro ⟨o, done, _⟩
    exact ⟨o, done⟩
  · rintro ⟨o, done⟩
    refine ⟨o, done, ?_⟩
    cases o <;> exact ⟨_, rfl⟩

/- What follows the queueing of a request never goes wrong. -/
theorem queueing_succeeds {s : Server ν} {e : QueueEntry ν} {k : Bool × Server ν → Except Fault (Server ν)}
    (rest : ∀ x, Succeeds (k x)) :
    Succeeds (putInQueueLong m s e.req e.operation e.key e.val e.newval >>= k) ↔ m.CopiesHad e := by
  rw [succeeds_bind, ← putInQueueLong_succeeds s e]
  exact ⟨fun ⟨a, done, _⟩ => ⟨a, done⟩, fun ⟨a, done⟩ => ⟨a, done, rest a⟩⟩

end

namespace Bucket

section

variable {b b' : Bucket} {m : CacheMallocs} {key val oldval newval : Bytes} {increment rv n : Int}

theorem set_succeeds : Succeeds (b.set m key val) ↔ b.Defined m (.set key val) := by
  cases found : Assoc.get key b.pairs with
  | some old =>
    simp only [set, Defined, get, found]
    refine ⟨fun _ absent => by contradiction, fun _ => ?_⟩
    split <;> exact ⟨_, rfl⟩
  | none =>
    simp only [set, Defined, get, found, true_implies]
    split
    case isTrue full =>
      unfold insertFull
      rcases List.eq_nil_or_concat b.pairs with nil | ⟨init, last, pairs⟩
      · rw [nil]
        exact ⟨fun had => (not_succeeds had).elim, fun two => by contradiction⟩
      · rw [pairs, List.concat_eq_append, List.getLast?_concat, List.length_append, List.length_singleton]
        simp only
        split
        case isTrue single => exact ⟨fun had => (not_succeeds had).elim, fun two => by omega⟩
        case isFalse several =>
          refine ⟨fun _ => by omega, fun _ => ?_⟩
          split <;> exact ⟨_, rfl⟩
    case isFalse room =>
      unfold insertNew
      cases m.key with
      | false => exact ⟨fun had => (not_succeeds had).elim, fun had => by cases had.1⟩
      | true =>
        cases m.val with
        | false => exact ⟨fun _ => ⟨rfl, fun had => by contradiction⟩, fun _ => ⟨_, rfl⟩⟩
        | true =>
          simp only [Bool.not_true, Bool.false_eq_true, if_false, true_and, true_implies]
          split
          case isTrue out => exact ⟨fun had => (not_succeeds had).elim, fun linked => (linked out.1 out.2).elim⟩
          case isFalse linked => exact ⟨fun _ some nil => linked ⟨some, nil⟩, fun _ => ⟨_, rfl⟩⟩

theorem set_passesOn (done : b.set m key val = .ok (rv, b')) : rv = 0 ↔ b.PassesOn m (.set key val) := by
  unfold set at done
  cases found : Assoc.get key b.pairs with
  | some old =>
    simp only [found, PassesOn, get, Bool.or_eq_true, decide_eq_true_eq] at done ⊢
    split at done
    case isTrue fits =>
      cases done
      exact ⟨fun _ => fits, fun _ => rfl⟩
    case isFalse out =>
      cases done
      exact ⟨fun h => absurd h (by decide), fun fits => (out fits).elim⟩
  | none =>
    simp only [found, PassesOn, get] at done ⊢
    split at done
    case isTrue full =>
      rw [if_pos full]
      unfold insertFull at done
      split at done
      · contradiction
      case h_2 last isLast =>
        split at done
        · contradiction
        · split at done
          case isTrue recycled =>
            cases done
            refine ⟨fun _ last' h => ?_, fun _ => rfl⟩
            cases isLast.symm.trans h
            exact recycled
          case isFalse fails =>
            cases done
            exact ⟨fun h => absurd h (by decide), fun fits => (fails (fits last isLast)).elim⟩
    case isFalse room =>
      rw [if_neg room]
      unfold insertNew at done
      split at done
      · contradiction
      · split at done
        case isTrue fails =>
          cases done
          refine ⟨fun h => absurd h (by decide), fun had => ?_⟩
          rw [had] at fails
          contradiction
        case isFalse had =>
          split at done
          · contradiction
          · cases done
            exact ⟨fun _ => by simpa using had, fun _ => rfl⟩

theorem cas_succeeds : Succeeds (b.cas m key oldval newval) := by
  unfold cas
  split
  · exact ⟨_, rfl⟩
  · split
    · exact ⟨_, rfl⟩
    · split <;> exact ⟨_, rfl⟩

theorem cas_passesOn (done : b.cas m key oldval newval = .ok (rv, b')) :
    rv ≠ -1 ∧ rv ≠ -3 ↔ b.PassesOn m (.cas key oldval newval) := by
  unfold cas at done
  cases found : Assoc.get key b.pairs with
  | none =>
    simp only [found, PassesOn, get] at done ⊢
    cases done
    exact ⟨fun _ => .inl trivial, fun _ => by decide⟩
  | some v =>
    simp only [found, PassesOn, get, Bool.or_eq_true, decide_eq_true_eq] at done ⊢
    split at done
    case isTrue other =>
      cases done
      refine ⟨fun h => (h.1 rfl).elim, fun h => ?_⟩
      exact (other (Option.some.inj ((h.resolve_left (by simp)).1))).elim
    case isFalse same =>
      have same : v = oldval := Classical.not_not.mp same
      split at done
      case isTrue fits =>
        cases done
        exact ⟨fun _ => .inr ⟨congrArg some same, fits⟩, fun _ => by decide⟩
      case isFalse out =>
        cases done
        exact ⟨fun h => (h.2 rfl).elim, fun h => (out (h.resolve_left (by simp)).2).elim⟩

theorem incr_succeeds : Succeeds (b.incr m key increment) ↔ b.Defined m (.incr key increment) := by
  cases found : Assoc.get key b.pairs with
  | none =>
    simp only [incr, Defined, get, found]
    exact ⟨fun _ => by simp, fun _ => ⟨_, rfl⟩⟩
  | some v =>
    simp only [incr, Defined, get, found]
    cases last : v.getLast? with
    | none =>
      have empty : v = [] := List.getLast?_eq_none_iff.mp last
      exact ⟨fun had => (not_succeeds had).elim, fun some => (some (congrArg _ empty)).elim⟩
    | some c =>
      refine ⟨fun _ empty => ?_, fun _ => ?_⟩
      · rw [Option.some.inj empty] at last
        contradiction
      · simp only
        split
        · exact ⟨_, rfl⟩
        · split <;> exact ⟨_, rfl⟩

theorem incr_passesOn (done : b.incr m key increment = .ok ((rv, n), b')) :
    rv ≠ -3 ∧ rv ≠ -2 ↔ b.PassesOn m (.incr key increment) := by
  unfold incr at done
  cases found : Assoc.get key b.pairs with
  | none =>
    simp only [found, PassesOn, get] at done ⊢
    cases done
    exact ⟨fun _ v h => by contradiction, fun _ => by decide⟩
  | some v =>
    simp only [found, PassesOn, get, Option.some.injEq, forall_eq'] at done ⊢
    cases last : v.getLast? with
    | none =>
      simp only [last] at done
      contradiction
    | some c =>
      simp only [last, Option.some.injEq, Bool.or_eq_true, decide_eq_true_eq] at done ⊢
      split at done
      case isTrue text =>
        cases done
        exact ⟨fun h => (h.2 rfl).elim, fun h => (text h.1).elim⟩
      case isFalse number =>
        have number : c = 0 := Classical.not_not.mp number
        split at done
        case isTrue fits =>
          cases done
          exact ⟨fun _ => ⟨number, fits⟩, fun _ => by decide⟩
        case isFalse out =>
          cases done
          exact ⟨fun h => (h.1 rfl).elim, fun h => (out h.2).elim⟩

end

end Bucket

section

variable {cd : Cache} {m : CacheMallocs} {key val oldval newval : Bytes} {increment : Int}

theorem succeeds_map {α β : Type} {x : Except Fault α} (f : α → β) :
    Succeeds (x >>= fun a => .ok (f a)) ↔ Succeeds x := by
  rw [succeeds_bind]
  exact ⟨fun ⟨a, done, _⟩ => ⟨a, done⟩, fun ⟨a, done⟩ => ⟨a, done, _, rfl⟩⟩

/-- An operation goes right in the cache if it does in its bucket, and there are buckets. -/
theorem CacheOp.exec_succeeds (represented : cd.Represented) (m : CacheMallocs) (op : CacheOp) :
    Succeeds (op.exec m cd) ↔ cd.hashlen ≠ 0 ∧ Succeeds (op.inBucket m (cd.bucketOf op.key)) := by
  obtain ⟨s, models⟩ := represented
  rw [models.bucketOf, models.hashlen]
  constructor
  · rintro ⟨⟨r, cd'⟩, ran⟩
    obtain ⟨some, b, done, _⟩ := exec_inv models ran
    exact ⟨some, _, done⟩
  · rintro ⟨some, ⟨r, b⟩, done⟩
    obtain ⟨cd', ran, _⟩ := exec_ok models some done
    exact ⟨_, ran⟩

theorem cacheGet_succeeds (represented : cd.Represented) (key : Bytes) :
    Succeeds (cacheGet cd key) ↔ cd.hashlen ≠ 0 := by
  have exec := CacheOp.exec_succeeds represented Bucket.plenty (.get key)
  have total : Succeeds (CacheOp.inBucket Bucket.plenty (cd.bucketOf key) (.get key)) := by
    simp only [CacheOp.inBucket]
    split <;> exact ⟨_, rfl⟩
  rw [CacheOp.exec] at exec
  exact (succeeds_map (fun x : Bool × Ptr × Int => (CacheResult.got x.1 x.2.1 x.2.2, cd))).symm.trans
    (exec.trans (and_iff_left total))

theorem cacheSet_succeeds (represented : cd.Represented) :
    Succeeds (cacheSet m cd key val) ↔
      cd.hashlen ≠ 0 ∧ (cd.bucketOf key).Defined m (.set key val) := by
  have exec := CacheOp.exec_succeeds represented m (.set key val)
  rw [CacheOp.exec, CacheOp.inBucket] at exec
  rw [← Bucket.set_succeeds]
  exact (succeeds_map fun x : Int × Cache => (CacheResult.rv x.1, x.2)).symm.trans
    (exec.trans (and_congr_right fun _ => succeeds_map fun x : Int × Bucket => (CacheResult.rv x.1, x.2)))

theorem cacheDel_succeeds (represented : cd.Represented) (key : Bytes) :
    Succeeds (cacheDel cd key) ↔ cd.hashlen ≠ 0 := by
  have exec := CacheOp.exec_succeeds represented Bucket.plenty (.del key)
  have total : Succeeds ((cd.bucketOf key).del key) := by
    unfold Bucket.del
    split <;> exact ⟨_, rfl⟩
  rw [CacheOp.exec, CacheOp.inBucket] at exec
  exact (succeeds_map fun x : Int × Cache => (CacheResult.rv x.1, x.2)).symm.trans
    (exec.trans (and_iff_left ((succeeds_map fun x : Int × Bucket => (CacheResult.rv x.1, x.2)).mpr total)))

theorem cacheCas_succeeds (represented : cd.Represented) :
    Succeeds (cacheCas m cd key oldval newval) ↔ cd.hashlen ≠ 0 := by
  have exec := CacheOp.exec_succeeds represented m (.cas key oldval newval)
  rw [CacheOp.exec, CacheOp.inBucket] at exec
  exact (succeeds_map fun x : Int × Cache => (CacheResult.rv x.1, x.2)).symm.trans
    (exec.trans (and_iff_left
      ((succeeds_map fun x : Int × Bucket => (CacheResult.rv x.1, x.2)).mpr Bucket.cas_succeeds)))

theorem cacheIncr_succeeds (represented : cd.Represented) :
    Succeeds (cacheIncr m cd key increment) ↔
      cd.hashlen ≠ 0 ∧ (cd.bucketOf key).Defined m (.incr key increment) := by
  have exec := CacheOp.exec_succeeds represented m (.incr key increment)
  rw [CacheOp.exec, CacheOp.inBucket] at exec
  rw [← Bucket.incr_succeeds]
  exact (succeeds_map fun x : (Int × Int) × Cache => (CacheResult.incremented x.1.1 x.1.2, x.2)).symm.trans
    (exec.trans (and_congr_right fun _ =>
      succeeds_map fun x : (Int × Int) × Bucket => (CacheResult.incremented x.1.1 x.1.2, x.2)))

/-- What cache_get returns. -/
theorem cacheGet_inv (represented : cd.Represented) {hit : Bool} {v : Ptr} {vsize : Int}
    (ran : cacheGet cd key = .ok (hit, v, vsize)) :
    ((cd.bucketOf key).get key = none ∧ hit = false) ∨
      ∃ w, (cd.bucketOf key).get key = some w ∧ hit = true ∧ v = .block w ∧ vsize = w.length := by
  obtain ⟨s, models⟩ := represented
  obtain ⟨_, b, done, _⟩ := CacheOp.exec_inv models (CacheOp.exec_get (m := Bucket.plenty) ran)
  rw [models.bucketOf]
  simp only [CacheOp.inBucket, CacheOp.key] at done
  split at done
  case h_1 absent =>
    cases done
    exact .inl ⟨absent, rfl⟩
  case h_2 w held =>
    cases done
    exact .inr ⟨w, held, rfl, rfl, rfl⟩

end

section

variable {m : Mallocs} {s : Server ν} {req : ReqInfo ν} {key val oldval newval : Bytes} {increment : Int}

/- How a request that is queued ends, whether it is answered at once or not. -/
theorem queue_end_succeeds (c : Bool) (x : Bool × Server ν) :
    Succeeds (if (!x.1) = true then pure (x.2.reply req (.err .mem))
      else if c = true then pure (x.2.reply req (.mini .ok)) else pure x.2 : Except Fault (Server ν)) := by
  split
  · exact ⟨_, rfl⟩
  · split <;> exact ⟨_, rfl⟩

theorem serveGet_succeeds (represented : s.cache.Represented) :
    Succeeds (serveGet m s req key) ↔ RequestDefined m s req (.get key) := by
  unfold serveGet
  simp only
  rw [succeeds_bind]
  constructor
  · rintro ⟨⟨hit, v, vsize⟩, ran, rest⟩
    refine ⟨(cacheGet_succeeds represented key).mp ⟨_, ran⟩, trivial, fun toDb absent => ?_⟩
    rcases cacheGet_inv represented ran with ⟨_, rfl⟩ | ⟨w, held, _⟩
    · simp only [toDb, Bool.not_false, Bool.and_true, Bool.false_eq_true, if_false, if_true] at rest
      exact (queueing_succeeds (e := (Request.get key).entry req) (queue_end_succeeds false)).mp rest
    · cases (show _ = none from absent).symm.trans held
  · rintro ⟨some, _, copies⟩
    obtain ⟨⟨hit, v, vsize⟩, ran⟩ := (cacheGet_succeeds represented key).mpr some
    refine ⟨_, ran, ?_⟩
    rcases cacheGet_inv represented ran with ⟨absent, rfl⟩ | ⟨w, _, rfl, rfl, rfl⟩
    · cases only : req.cacheOnly with
      | true => exact ⟨_, rfl⟩
      | false =>
        simp only [Bool.not_false, Bool.and_true, Bool.false_eq_true, if_false, if_true]
        exact (queueing_succeeds (e := (Request.get key).entry req) (queue_end_succeeds false)).mpr
          (copies only absent)
    · simp only [Bool.not_true, Bool.and_false, Bool.false_eq_true, if_false, Server.replyLong,
        Int.toNat_natCast, read_block]
      exact ⟨_, rfl⟩

theorem serveSet_succeeds (represented : s.cache.Represented) :
    Succeeds (serveSet m s req key val) ↔ RequestDefined m s req (.set key val) := by
  unfold serveSet
  simp only
  rw [succeeds_bind]
  constructor
  · rintro ⟨⟨rv, cache⟩, ran, rest⟩
    obtain ⟨some, defined⟩ := (cacheSet_succeeds represented).mp ⟨_, ran⟩
    refine ⟨some, defined, fun toDb passes => ?_⟩
    obtain ⟨store, models⟩ := represented
    obtain ⟨b, set, _⟩ := cacheSet_inv models ran
    rw [models.bucketOf] at passes
    have stored : rv = 0 := (Bucket.set_passesOn set).mpr passes
    simp only [stored, ne_eq, not_true_eq_false, if_false, toDb, Bool.not_false, if_true] at rest
    exact (queueing_succeeds (e := (Request.set key val).entry req) (queue_end_succeeds (!req.sync))).mp rest
  · rintro ⟨some, defined, copies⟩
    obtain ⟨⟨rv, cache⟩, ran⟩ := (cacheSet_succeeds represented).mpr ⟨some, defined⟩
    refine ⟨_, ran, ?_⟩
    obtain ⟨store, models⟩ := represented
    obtain ⟨b, set, _⟩ := cacheSet_inv models ran
    split
    · exact ⟨_, rfl⟩
    case isFalse stored =>
      split
      case isTrue toDb =>
        have passes := (Bucket.set_passesOn set).mp (Classical.not_not.mp stored)
        rw [← models.bucketOf] at passes
        exact (queueing_succeeds (e := (Request.set key val).entry req) (queue_end_succeeds (!req.sync))).mpr
          (copies (by simpa using toDb) passes)
      · exact ⟨_, rfl⟩

theorem serveDel_succeeds (represented : s.cache.Represented) :
    Succeeds (serveDel m s req key) ↔ RequestDefined m s req (.del key) := by
  unfold serveDel
  simp only
  rw [succeeds_bind]
  constructor
  · rintro ⟨⟨hit, cache⟩, ran, rest⟩
    refine ⟨(cacheDel_succeeds represented key).mp ⟨_, ran⟩, trivial, fun toDb _ => ?_⟩
    simp only [toDb, Bool.false_and, Bool.false_eq_true, if_false] at rest
    exact (queueing_succeeds (e := (Request.del key).entry req) (queue_end_succeeds (!req.sync))).mp rest
  · rintro ⟨some, _, copies⟩
    obtain ⟨⟨hit, cache⟩, ran⟩ := (cacheDel_succeeds represented key).mpr some
    refine ⟨_, ran, ?_⟩
    split
    · exact ⟨_, rfl⟩
    case isFalse notHit =>
      split
      · exact ⟨_, rfl⟩
      case isFalse notMiss =>
        have toDb : req.cacheOnly = false := by
          by_contra only
          simp only [Bool.not_eq_false] at only
          simp only [only, Bool.true_and, decide_eq_true_eq] at notHit notMiss
          exact notHit notMiss
        exact (queueing_succeeds (e := (Request.del key).entry req) (queue_end_succeeds (!req.sync))).mpr
          (copies toDb trivial)

theorem serveCas_succeeds (represented : s.cache.Represented) :
    Succeeds (serveCas m s req key oldval newval) ↔ RequestDefined m s req (.cas key oldval newval) := by
  unfold serveCas
  simp only
  rw [succeeds_bind]
  constructor
  · rintro ⟨⟨rv, cache⟩, ran, rest⟩
    refine ⟨(cacheCas_succeeds represented).mp ⟨_, ran⟩, trivial, fun toDb passes => ?_⟩
    obtain ⟨store, models⟩ := represented
    obtain ⟨b, cas, _⟩ := cacheCas_inv models ran
    rw [models.bucketOf] at passes
    obtain ⟨matched, had⟩ := (Bucket.cas_passesOn cas).mpr passes
    simp only [if_neg matched, if_neg had, toDb, Bool.false_eq_true, if_false] at rest
    exact (queueing_succeeds (e := (Request.cas key oldval newval).entry req)
      (queue_end_succeeds false)).mp rest
  · rintro ⟨some, _, copies⟩
    obtain ⟨⟨rv, cache⟩, ran⟩ := (cacheCas_succeeds represented).mpr some
    refine ⟨_, ran, ?_⟩
    obtain ⟨store, models⟩ := represented
    obtain ⟨b, cas, _⟩ := cacheCas_inv models ran
    split
    · exact ⟨_, rfl⟩
    case isFalse matched =>
      split
      · exact ⟨_, rfl⟩
      case isFalse had =>
        split
        · split <;> exact ⟨_, rfl⟩
        case isFalse toDb =>
          have passes := (Bucket.cas_passesOn cas).mp ⟨matched, had⟩
          rw [← models.bucketOf] at passes
          exact (queueing_succeeds (e := (Request.cas key oldval newval).entry req)
            (queue_end_succeeds false)).mpr (copies (by simpa using toDb) passes)

theorem serveIncr_succeeds (represented : s.cache.Represented) :
    Succeeds (serveIncr m s req key increment) ↔ RequestDefined m s req (.incr key increment) := by
  unfold serveIncr
  simp only
  rw [succeeds_bind]
  constructor
  · rintro ⟨⟨⟨cres, n⟩, cache⟩, ran, rest⟩
    obtain ⟨some, defined⟩ := (cacheIncr_succeeds represented).mp ⟨_, ran⟩
    refine ⟨some, defined, fun toDb passes => ?_⟩
    obtain ⟨store, models⟩ := represented
    obtain ⟨b, incr, _⟩ := cacheIncr_inv models ran
    rw [models.bucketOf] at passes
    obtain ⟨had, number⟩ := (Bucket.incr_passesOn incr).mpr passes
    simp only [if_neg had, if_neg number, toDb, Bool.not_false, if_true] at rest
    exact (queueing_succeeds (e := (Request.incr key increment).entry req) (queue_end_succeeds false)).mp rest
  · rintro ⟨some, defined, copies⟩
    obtain ⟨⟨⟨cres, n⟩, cache⟩, ran⟩ := (cacheIncr_succeeds represented).mpr ⟨some, defined⟩
    refine ⟨_, ran, ?_⟩
    obtain ⟨store, models⟩ := represented
    obtain ⟨b, incr, _⟩ := cacheIncr_inv models ran
    simp only
    split
    · exact ⟨_, rfl⟩
    case isFalse had =>
      split
      · exact ⟨_, rfl⟩
      case isFalse number =>
        split
        case isTrue toDb =>
          have passes := (Bucket.incr_passesOn incr).mp ⟨had, number⟩
          rw [← models.bucketOf] at passes
          exact (queueing_succeeds (e := (Request.incr key increment).entry req)
            (queue_end_succeeds false)).mpr (copies (by simpa using toDb) passes)
        · split <;> exact ⟨_, rfl⟩

theorem serveNextkey_succeeds :
    Succeeds (serveNextkey m s req key) ↔ RequestDefined m s req (.nextkey key) :=
  queueing_succeeds (e := (Request.nextkey key).entry req) (queue_end_succeeds false)

theorem serve_succeeds (represented : s.cache.Represented) {r : Request}
    (mayWrite : s.settings.readOnly = false ∨ r.writes = false) :
    Succeeds (serve m s req r) ↔ RequestDefined m s req r := by
  have open_ : ∀ {x y : Except Fault (Server ν)}, r.writes = true →
      (Succeeds (if s.settings.readOnly = true then x else y) ↔ Succeeds y) := by
    intro x y writes
    rw [mayWrite.resolve_right (by simp [writes])]
    simp
  cases r with
  | get key => exact serveGet_succeeds represented
  | set key val => exact (open_ rfl).trans (serveSet_succeeds represented)
  | del key => exact (open_ rfl).trans (serveDel_succeeds represented)
  | cas key oldval newval => exact (open_ rfl).trans (serveCas_succeeds represented)
  | incr key increment => exact (open_ rfl).trans (serveIncr_succeeds represented)
  | nextkey key => exact serveNextkey_succeeds

/-- parse_message gets through a message exactly when handling it is defined. -/
theorem parseMessage_succeeds (represented : s.cache.Represented) (buf : Mem) (len : Nat) :
    Succeeds (parseMessage m s req buf len) ↔ MessageDefined m s req buf len := by
  rw [parseMessage_route, succeeds_map, messageDefined_iff]
  cases way : route s.settings.readOnly buf len with
  | firstkey =>
    refine ⟨fun _ => nofun, fun _ => ?_⟩
    have copies : m.CopiesHad (⟨.firstkey, replyInfo req buf, none, none, none⟩ : QueueEntry ν) :=
      fun _ => ⟨nofun, nofun, nofun⟩
    exact (queueing_succeeds (e := ⟨.firstkey, replyInfo req buf, none, none, none⟩)
      (queue_end_succeeds false)).mpr copies
  | request r =>
    obtain ⟨ver, mayWrite, _⟩ := route_request way
    simp only [Route.request.injEq, forall_eq']
    rw [Route.follow, replyInfo, if_pos ver]
    exact serve_succeeds represented mayWrite
  | _ => exact ⟨fun _ => nofun, fun _ => ⟨_, rfl⟩⟩

end

end Nmdb
