import Nmdb.Defined

/-! Error replies of the main thread, whatever allocation fails. A copy for the queue entry
that fails frees the entry, and queue_entry_free reads its pointer to the request, which
queue_entry_create has not set: where it is NULL the request is answered after all. -/
namespace Nmdb

variable {ν : Type}

/-- What parse_message can leave: what it leaves where every pointer it reads was set, or,
behind a copy that failed, what it leaves when there is no entry at all. -/
def Parses (m : Mallocs) (s : Server ν) (req : ReqInfo ν) (buf : Mem) (len : Nat) (s' : Server ν) : Prop :=
  (∃ understood, parseMessage m s req buf len = .ok (understood, s')) ∨
    parseMessage m s req buf len = .error .uninitialised ∧
      ∃ understood, parseMessage { m with entry := false } s req buf len = .ok (understood, s')

/-- No queue entry is needed, or it can be had with all the copies it takes. -/
def QueueSpared (m : Mallocs) (req : ReqInfo ν) (r : Request) : Prop :=
  req.cacheOnly = true ∨ m.EntryHad ∧ m.CopiesHad (r.entry req)

/-- A message that is served changes nothing it then reports as failed. -/
def ErrorsAtomic (m : Mallocs) (s : Server ν) (req : ReqInfo ν) (buf : Mem) (len : Nat) : Prop :=
  ∀ r, route s.settings.readOnly buf len = .request r →
    (s.cache.bucketOf r.key).AtomicOnError m.cache (QueueSpared m (headerInfo req buf) r) r

/- A request that its cache part stops before the queue does not look at the entry. -/
theorem Bucket.stopped_atomic {b : Bucket} {m : CacheMallocs} {r : Request} {p q : Prop}
    (stopped : ¬ b.PassesOn m r) : b.AtomicOnError m p r ↔ b.AtomicOnError m q r := by
  cases r with
  | get key => exact Iff.rfl
  | nextkey key => exact Iff.rfl
  | del key => exact absurd trivial stopped
  | set key val =>
    simp only [PassesOn] at stopped
    simp only [AtomicOnError]
    cases found : b.get key with
    | some old =>
      simp only [found] at stopped
      simp only [stopped, not_false_eq_true, or_true]
    | none =>
      simp only [found] at stopped
      by_cases full : b.len = CHAINLEN
      · simp only [if_pos full] at stopped ⊢
        simp only [stopped, and_false]
      · simp only [if_neg full, Bool.not_eq_true] at stopped ⊢
        simp only [stopped, or_true]
  | cas key oldval newval =>
    have done : ∀ p : Prop, b.AtomicOnError m p (.cas key oldval newval) := by
      intro p
      by_cases held : b.get key = some oldval
      · exact .inr (.inr (.inr fun fits => stopped (.inr ⟨held, fits⟩)))
      · exact .inr (.inl held)
    exact iff_of_true (done p) (done q)
  | incr key increment =>
    have done : ∀ p : Prop, b.AtomicOnError m p (.incr key increment) := by
      refine fun p => .inr fun v held number => .inr fun fits => stopped fun w there => ?_
      obtain rfl := Option.some.inj (held.symm.trans there)
      exact ⟨number, fits⟩
    exact iff_of_true (done p) (done q)

section

variable {m : Mallocs} {s s' : Server ν} {req : ReqInfo ν} {buf : Mem} {len : Nat} {understood : Bool}

/- A request that is served to its end has the copies it needs, so only the entry counts. -/
theorem queueSpared_iff {r : Request} (defined : RequestDefined m s req r) :
    (s.cache.bucketOf r.key).AtomicOnError m.cache (EntrySpared m req) r ↔
      (s.cache.bucketOf r.key).AtomicOnError m.cache (QueueSpared m req r) r := by
  by_cases reaches : req.cacheOnly = false ∧ (s.cache.bucketOf r.key).PassesOn m.cache r
  · have copies : m.CopiesHad (r.entry req) := by
      cases r with
      | nextkey key => exact defined
      | _ => exact defined.2.2 reaches.1 reaches.2
    rw [QueueSpared, and_iff_left copies, EntrySpared]
  · rcases not_and_or.mp reaches with only | stopped
    · rw [Bool.not_eq_false] at only
      have spared : EntrySpared m req ↔ QueueSpared m req r := iff_of_true (.inl only) (.inl only)
      rw [propext spared]
    · exact Bucket.stopped_atomic stopped

/- The message is answered without a pointer that was never set. -/
theorem answered_atomic_iff (represented : s.cache.Represented)
    (answered : parseMessage m s req buf len = .ok (understood, s')) :
    Atomic s s' ↔ ErrorsAtomic m s req buf len := by
  have defined := messageDefined_iff.mp ((parseMessage_succeeds represented buf len).mp ⟨_, answered⟩)
  rw [parseMessage_route] at answered
  obtain ⟨s₁, followed, same⟩ := bind_eq_ok.mp answered
  cases same
  unfold ErrorsAtomic
  cases way : route s.settings.readOnly buf len with
  | firstkey =>
    rw [way] at followed
    exact iff_of_true (parseFirstkey_atomic followed) fun r other => by contradiction
  | request r =>
    rw [way] at followed
    obtain ⟨ver, mayWrite, _⟩ := route_request way
    rw [Route.follow, replyInfo, if_pos ver] at followed
    simp only [Route.request.injEq, forall_eq']
    cases writes : r.writes with
    | false =>
      obtain ⟨_, readOnly, _⟩ | ⟨_, cd, e, reply, served, leaves⟩ := serve_way followed
      · rw [writes] at readOnly
        contradiction
      · refine iff_of_true (look_atomic writes served leaves) ?_
        cases r with
        | get key => exact trivial
        | nextkey key => exact trivial
        | _ => contradiction
    | true =>
      have open_ := mayWrite.resolve_right (by rw [writes]; decide)
      exact (serve_atomic_iff represented followed open_).trans (queueSpared_iff (defined r way))
  | _ =>
    rw [way] at followed
    cases followed
    exact iff_of_true (unchanged_atomic rfl fun _ => rfl) fun r other => by contradiction

/- Behind a pointer that was never set the copies were missing, and so was the entry. -/
theorem errorsAtomic_unset (represented : s.cache.Represented) (unset : ¬ Succeeds (parseMessage m s req buf len))
    (answered : Succeeds (parseMessage { m with entry := false } s req buf len)) :
    ErrorsAtomic { m with entry := false } s req buf len ↔ ErrorsAtomic m s req buf len := by
  rw [parseMessage_succeeds represented, messageDefined_iff] at unset answered
  refine forall₂_congr fun r way => ?_
  have missing : ¬ m.CopiesHad (r.entry (headerInfo req buf)) := by
    intro had
    refine unset fun r' way' => ?_
    cases way.symm.trans way'
    have defined := answered r way
    cases r with
    | nextkey key => exact had
    | _ => exact ⟨defined.1, defined.2.1, fun _ _ => had⟩
  have same : QueueSpared { m with entry := false } (headerInfo req buf) r ↔
      QueueSpared m (headerInfo req buf) r :=
    or_congr_right (iff_of_false (fun had => absurd had.1.1 Bool.false_ne_true) fun had => missing had.2)
  rw [propext same]

end

/-- A message answered with an error leaves bindings and queue as they were exactly where
nothing has been changed before the error, or only for nothing. -/
theorem error_replies_atomic_iff {m : Mallocs} {s s' : Server ν} {req : ReqInfo ν} {buf : Mem} {len : Nat}
    (represented : s.cache.Represented) (answered : Parses m s req buf len s') :
    Atomic s s' ↔ ErrorsAtomic m s req buf len := by
  rcases answered with ⟨understood, answered⟩ | ⟨unset, understood, answered⟩
  · exact answered_atomic_iff represented answered
  · have fails : ¬ Succeeds (parseMessage m s req buf len) := by
      rw [unset]
      exact not_succeeds
    exact (answered_atomic_iff represented answered).trans
      (errorsAtomic_unset represented fails ⟨_, answered⟩)

/- The value cannot be had, and nothing was changed before. -/
theorem error_replies_atomic_iff_value_fails :
    ∃ s', Parses { Mallocs.plenty with cache := ⟨true, false⟩ } (serverOf emptyCache) ⟨0, 0, 0, 0⟩
        setMessage 18 s' ∧ s'.replies = [(⟨0, 0, 0x102, 0⟩, .err .mem)] ∧ Atomic (serverOf emptyCache) s' := by
  have seen : observed (parseMessage
    { Mallocs.plenty with cache := ⟨true, false⟩ } (serverOf emptyCache) ⟨0, 0, 0, 0⟩ setMessage 18) [65] =
      some ([(⟨0, 0, 0x102, 0⟩, .err .mem)], none) := by decide
  obtain ⟨b, s', answered, replies, _⟩ := observed_some seen
  refine ⟨s', .inl ⟨b, answered⟩, replies,
    (error_replies_atomic_iff emptyCache_represented (.inl ⟨b, answered⟩)).mpr fun r way => ?_⟩
  have set : route (serverOf emptyCache).settings.readOnly setMessage 18 = .request (.set [65] [7]) := by
    decide +kernel
  cases set.symm.trans way
  exact .inr rfl

/-- The SET of the value into the empty cache is reported as failed, and the value is there. -/
def SetStays (m : Mallocs) : Prop :=
  ∃ s', Parses m (serverOf emptyCache) ⟨0, 0, 0, 0⟩ setMessage 18 s' ∧ FailsRequest (serverOf emptyCache) s' ∧
    s'.cache.lookup [65] = some [7] ∧ ¬ Atomic (serverOf emptyCache) s'

theorem setStays {m : Mallocs} {s' : Server Nat}
    (parses : Parses m (serverOf emptyCache) ⟨0, 0, 0, 0⟩ setMessage 18 s')
    (replies : s'.replies = [(⟨0, 0, 0x102, 0⟩, .err .mem)]) (held : s'.cache.lookup [65] = some [7]) :
    SetStays m := by
  have fails : FailsRequest (serverOf emptyCache) s' := ⟨_, .mem, replies⟩
  refine ⟨s', parses, fails, held, fun atomic => ?_⟩
  exact absurd (held.symm.trans ((atomic fails).1 [65])) (by decide)

/-- Without an entry, and without the copy of the key where the pointer to the request reads
as NULL. -/
theorem failed_set_stays_in_cache :
    SetStays { Mallocs.plenty with entry := false } ∧ SetStays { Mallocs.plenty with kcopy := false } := by
  constructor
  · have noEntry : observed (parseMessage
      { Mallocs.plenty with entry := false } (serverOf emptyCache) ⟨0, 0, 0, 0⟩ setMessage 18) [65] =
        some ([(⟨0, 0, 0x102, 0⟩, .err .mem)], some [7]) := by decide
    obtain ⟨b, s', answered, replies, held⟩ := observed_some noEntry
    exact setStays (.inl ⟨b, answered⟩) replies held
  · have noCopy : observed (parseMessage
      { Mallocs.plenty with entry := false, kcopy := false } (serverOf emptyCache) ⟨0, 0, 0, 0⟩ setMessage 18) [65] =
        some ([(⟨0, 0, 0x102, 0⟩, .err .mem)], some [7]) := by decide
    have unset : faultOf (parseMessage
      { Mallocs.plenty with kcopy := false } (serverOf emptyCache) ⟨0, 0, 0, 0⟩ setMessage 18) =
        some .uninitialised := by decide
    obtain ⟨b, s', answered, replies, held⟩ := observed_some noCopy
    exact setStays (.inr ⟨faultOf_error unset, b, answered⟩) replies held

end Nmdb
