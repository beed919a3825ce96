import Nmdb.CacheEffects
import Nmdb.ParseBounds

/-! The requests of database mode, one served at a time with memory to spare: what the
main thread does to the cache as a map, what it queues and what it answers at once. -/
namespace Nmdb

variable {ν : Type}

namespace Request

/-- The bytes of a request that count against the size limit. -/
def size : Request → Nat
  | .set key val => key.length + val.length
  | .cas key oldval newval => key.length + oldval.length + newval.length
  | .incr key _ => key.length + 8
  | _ => 0

/-- GET, SET, DEL, CAS and INCR without FLAGS_CACHE_ONLY, and GET and DEL with it. -/
def DatabaseMode (req : ReqInfo ν) : Request → Prop
  | .get _ => True
  | .del _ => True
  | .nextkey _ => False
  | _ => req.cacheOnly = false

end Request

def Req.ofCode (n : Nat) : Option Req :=
  [Req.get, .set, .del, .cas, .incr, .stats, .firstkey, .nextkey].find? fun c => c.code = n

/-- The request of a message, if it is well formed. -/
def decoded (buf : Mem) (len : Nat) : Option Request :=
  if version buf = PROTO_VER ∧ 8 ≤ len then
    (Req.ofCode (command buf)).bind fun c => declared c (slice (buf.from 8) 0 (len - 8))
  else none

theorem Req.ofCode_some {n : Nat} {c : Req} (found : Req.ofCode n = some c) : n = c.code := by
  have same := List.find?_some found
  exact (of_decide_eq_true same).symm

/- The operation is the one the command asks for. -/
theorem declared_operation {c : Req} {p : Bytes} {r : Request} (found : declared c p = some r) (req : ReqInfo ν) :
    (Request.entry req r).operation = c := by
  cases c with
  | get | del | nextkey =>
    obtain ⟨key, _, rfl⟩ := Option.map_eq_some_iff.mp found
    rfl
  | set =>
    simp only [declared, Option.bind_eq_bind, Option.bind_eq_some_iff] at found
    obtain ⟨_, _, _, _, _, _, _, _, rest⟩ := found
    cases rest
    rfl
  | cas =>
    simp only [declared, Option.bind_eq_bind, Option.bind_eq_some_iff] at found
    obtain ⟨_, _, _, _, _, _, _, _, _, _, _, _, rest⟩ := found
    cases rest
    rfl
  | incr =>
    simp only [declared, Option.bind_eq_bind, Option.bind_eq_some_iff] at found
    obtain ⟨_, _, _, _, _, _, rest⟩ := found
    cases rest
    rfl
  | _ => contradiction

theorem decoded_operation {buf : Mem} {len : Nat} {r : Request} (found : decoded buf len = some r)
    (req : ReqInfo ν) : command buf = (Request.entry req r).operation.code := by
  unfold decoded at found
  split at found
  case isTrue =>
    obtain ⟨c, code, dec⟩ := Option.bind_eq_some_iff.mp found
    rw [declared_operation dec, Req.ofCode_some code]
  case isFalse => contradiction

theorem sizes_accepted {c : Req} {payload : Mem} {psize : Nat} {r : Request}
    (fits : SizesFit c payload psize) (ops : operands c payload = some r) (size : r.size ≤ maxSize) :
    ¬ SizesRefused c payload psize := by
  cases c with
  | firstkey => cases ops
  | stats => cases ops
  | _ =>
    cases ops
    simp only [SizesFit, SizesRefused, Request.size, slice_length, maxSize, u32] at fits size ⊢
    omega

theorem parseMessage_decoded {m : Mallocs} {s : Server ν} {req : ReqInfo ν} {buf : Mem} {len : Nat}
    {r : Request} (found : decoded buf len = some r) (size : r.size ≤ maxSize) :
    parseMessage m s req buf len = serve m s (headerInfo req buf) r >>= fun s => .ok (true, s) := by
  unfold decoded at found
  split at found
  case isTrue header =>
    obtain ⟨c, code, dec⟩ := Option.bind_eq_some_iff.mp found
    have cmd := Req.ofCode_some code
    by_cases fits : SizesFit c (buf.from 8) (len - 8)
    · rw [(declared_slice c (buf.from 8) (len - 8)).1 fits] at dec
      rw [parseMessage_sized m s req header.2 header.1 cmd dec, if_neg (sizes_accepted fits dec size)]
    · rw [(declared_slice c (buf.from 8) (len - 8)).2 fits] at dec
      contradiction
  case isFalse => contradiction

/-- The ways a request of database mode is served: from the lookups before, the lookups
after, the entry queued and the reply given at once. -/
inductive Served (readOnly : Bool) (req : ReqInfo ν) (before after : Bytes → Option Bytes) :
    Request → Option (QueueEntry ν) → Option Reply → Prop
  | readOnly {r : Request} (isReadOnly : readOnly = true) (writes : r.writes = true)
      (kept : after = before) : Served readOnly req before after r none (some (.err .ro))
  | getHit {key v : Bytes} (held : before key = some v) (kept : after = before) :
      Served readOnly req before after (.get key) none (some (.long .cacheHit v))
  | getMiss {key : Bytes} (toDb : req.cacheOnly = false) (absent : before key = none)
      (kept : after = before) :
      Served readOnly req before after (.get key) (some (Request.entry req (.get key))) none
  | cacheMiss {key : Bytes} (only : req.cacheOnly = true) (kept : after = before) :
      Served readOnly req before after (.get key) none (some (.mini .cacheMiss))
  | set {key val : Bytes} (mayWrite : readOnly = false) (toDb : req.cacheOnly = false)
      (here : after key = some val) (others : ∀ k v, k ≠ key → after k = some v → before k = some v) :
      Served readOnly req before after (.set key val) (some (Request.entry req (.set key val)))
        (if req.sync then none else some (.mini .ok))
  | del {key : Bytes} (mayWrite : readOnly = false) (toDb : req.cacheOnly = false)
      (gone : after = Function.update before key none) :
      Served readOnly req before after (.del key) (some (Request.entry req (.del key)))
        (if req.sync then none else some (.mini .ok))
  | cacheDel {key : Bytes} {reply : Reply} (only : req.cacheOnly = true)
      (gone : after = Function.update before key none) :
      Served readOnly req before after (.del key) none (some reply)
  | casHit {key oldval newval : Bytes} (mayWrite : readOnly = false) (toDb : req.cacheOnly = false)
      (held : before key = some oldval) (changed : after = Function.update before key (some newval)) :
      Served readOnly req before after (.cas key oldval newval)
        (some (Request.entry req (.cas key oldval newval))) none
  | casMiss {key oldval newval : Bytes} (mayWrite : readOnly = false) (toDb : req.cacheOnly = false)
      (absent : before key = none) (kept : after = before) :
      Served readOnly req before after (.cas key oldval newval)
        (some (Request.entry req (.cas key oldval newval))) none
  | casOther {key oldval newval v : Bytes} (mayWrite : readOnly = false) (toDb : req.cacheOnly = false)
      (held : before key = some v) (other : v ≠ oldval) (kept : after = before) :
      Served readOnly req before after (.cas key oldval newval) none (some (.mini .nomatch))
  | incrHit {key v : Bytes} {increment : Int} (mayWrite : readOnly = false)
      (toDb : req.cacheOnly = false) (held : before key = some v) (number : v.getLast? = some 0)
      (changed : after = Function.update before key
        (some (Bucket.incrText v (wrap64 (strtoll v + increment))))) :
      Served readOnly req before after (.incr key increment)
        (some (Request.entry req (.incr key increment))) none
  | incrMiss {key : Bytes} {increment : Int} (mayWrite : readOnly = false)
      (toDb : req.cacheOnly = false) (absent : before key = none) (kept : after = before) :
      Served readOnly req before after (.incr key increment)
        (some (Request.entry req (.incr key increment))) none
  | incrOther {key v : Bytes} {increment : Int} (mayWrite : readOnly = false)
      (toDb : req.cacheOnly = false) (held : before key = some v) (other : v.getLast? ≠ some 0)
      (kept : after = before) :
      Served readOnly req before after (.incr key increment) none (some (.mini .nomatch))

/-- What serving a request leaves of the server. -/
structure ServeOutcome (s s' : Server ν) (req : ReqInfo ν) (r : Request) : Prop where
  listed : s'.cache.Listed
  hashlen : s'.cache.hashlen = s.cache.hashlen
  settings : s'.settings = s.settings
  served : ∃ e reply, Served s.settings.readOnly req s.cache.lookup s'.cache.lookup r e reply ∧
    s'.queue = s.queue ++ e.toList ∧ s'.replies = s.replies ++ (reply.map fun x => (req, x)).toList

theorem putInQueueLong_plenty (s : Server ν) (req : ReqInfo ν) (operation : Req)
    (key val newval : Option Bytes) : putInQueueLong Mallocs.plenty s req operation key val newval =
      .ok (true, { s with queue := s.queue ++ [⟨operation, req, key, val, newval⟩] }) := by
  simp only [putInQueueLong, makeQueueLongEntry, Mallocs.plenty, Bool.not_true, Bool.and_false,
    Bool.or_self, Bool.false_eq_true, if_false, ok_bind, pure_ok]

section

variable {cd cd' : Cache} {req : ReqInfo ν} {e : Option (QueueEntry ν)} {reply : Option Reply}

theorem Queued.plenty {async : Bool} {x : QueueEntry ν} (queued : Queued Mallocs.plenty async x e reply) :
    e = some x ∧ reply = if async then some (.mini .ok) else none := by
  cases queued with
  | refused missing => exact (missing ⟨rfl, rfl, rfl⟩).elim
  | answered _ isAsync => exact ⟨rfl, (if_pos isAsync).symm⟩
  | silent _ isSync => exact ⟨rfl, (if_neg (by rw [isSync]; decide)).symm⟩

theorem Queued.plenty_sync {x : QueueEntry ν} (queued : Queued Mallocs.plenty (!req.sync) x e reply) :
    e = some x ∧ reply = if req.sync then none else some (.mini .ok) := by
  obtain ⟨put, answer⟩ := queued.plenty
  refine ⟨put, answer.trans ?_⟩
  cases req.sync <;> rfl

theorem ServeWay.listed {r : Request} (listed : cd.Listed)
    (way : ServeWay Mallocs.plenty cd req r cd' e reply) :
    cd'.Listed ∧ cd'.hashlen = cd.hashlen := by
  rcases way.cache with ⟨_, rfl⟩ | ⟨_, result, ran⟩
  · exact ⟨listed, rfl⟩
  · obtain ⟨listed', same, _⟩ := listed.exec ran
    exact ⟨listed', same⟩

variable {readOnly : Bool} {key val oldval newval : Bytes} {increment : Int}

/- The cache operation behind a request and the rest of the request. -/
theorem get_served (listed : cd.Listed) (way : ServeWay Mallocs.plenty cd req (.get key) cd' e reply) :
    Served readOnly req cd.lookup cd'.lookup (.get key) e reply := by
  have missed : ∀ {v vsize}, cacheGet cd key = .ok (false, v, vsize) → cd.lookup key = none := by
    intro v vsize ran
    obtain ⟨_, _, _, found⟩ := listed.exec (CacheOp.exec_get ran)
    cases held : cd.lookup key with
    | none => rfl
    | some w =>
      rw [held] at found
      cases found
  cases way with
  | getMiss ran only => exact .cacheMiss only rfl
  | getQueued ran toDb queued =>
    obtain ⟨rfl, rfl⟩ := queued.plenty
    exact .getMiss toDb (missed ran) rfl
  | getHit ran hit =>
    obtain ⟨_, _, _, found⟩ := listed.exec (CacheOp.exec_get ran)
    cases held : cd.lookup key with
    | none =>
      rw [held] at found
      cases found
    | some w =>
      simp only [held, CacheResult.got.injEq] at found
      obtain ⟨_, rfl, rfl⟩ := found
      cases hit with
      | short null => contradiction
      | @long b read =>
        simp only [Ptr.read, Int.toNat_natCast, Nat.le_refl, if_true, List.take_length] at read
        cases read
        exact .getHit held rfl

theorem set_served (listed : cd.Listed) (mayWrite : readOnly = false) (toDb : req.cacheOnly = false)
    (way : ServeWay Mallocs.plenty cd req (.set key val) cd' e reply) :
    Served readOnly req cd.lookup cd'.lookup (.set key val) e reply := by
  cases way with
  | setRefused ran refused =>
    obtain ⟨_, _, result, _⟩ := listed.exec (CacheOp.exec_set ran)
    exact (refused (CacheResult.rv.inj result)).elim
  | setOnly _ only =>
    rw [only] at toDb
    contradiction
  | setQueued ran _ queued =>
    obtain ⟨_, _, _, here, others⟩ := listed.exec (CacheOp.exec_set ran)
    obtain ⟨rfl, rfl⟩ := queued.plenty_sync
    exact .set mayWrite toDb here others

theorem del_served (listed : cd.Listed) (mayWrite : readOnly = false)
    (way : ServeWay Mallocs.plenty cd req (.del key) cd' e reply) :
    Served readOnly req cd.lookup cd'.lookup (.del key) e reply := by
  cases way with
  | delHit ran _ only =>
    obtain ⟨_, _, _, gone⟩ := listed.exec (CacheOp.exec_del ran)
    exact .cacheDel only gone
  | delMiss ran only =>
    obtain ⟨_, _, _, gone⟩ := listed.exec (CacheOp.exec_del ran)
    exact .cacheDel only gone
  | delQueued ran toDb queued =>
    obtain ⟨_, _, _, gone⟩ := listed.exec (CacheOp.exec_del ran)
    obtain ⟨rfl, rfl⟩ := queued.plenty_sync
    exact .del mayWrite toDb gone

/- What cache_cas returns tells how the value compared. -/
theorem cas_effect (listed : cd.Listed) {rv : Int}
    (ran : cacheCas Bucket.plenty cd key oldval newval = .ok (rv, cd')) :
    (rv = -2 ∧ cd.lookup key = none ∧ cd'.lookup = cd.lookup) ∨
    (rv = 0 ∧ cd.lookup key = some oldval ∧ cd'.lookup = Function.update cd.lookup key (some newval)) ∨
    (rv = -1 ∧ (∃ v, cd.lookup key = some v ∧ v ≠ oldval) ∧ cd'.lookup = cd.lookup) := by
  obtain ⟨_, _, effect⟩ := listed.exec (CacheOp.exec_cas ran)
  simp only [CacheOp.Effect] at effect
  cases held : cd.lookup key with
  | none =>
    rw [held] at effect
    exact .inl ⟨CacheResult.rv.inj effect.1, rfl, effect.2⟩
  | some v =>
    rw [held] at effect
    simp only at effect
    split at effect
    case isTrue matched => exact .inr (.inl ⟨CacheResult.rv.inj effect.1, by rw [matched], effect.2⟩)
    case isFalse other => exact .inr (.inr ⟨CacheResult.rv.inj effect.1, ⟨v, rfl, other⟩, effect.2⟩)

theorem cas_served (listed : cd.Listed) (mayWrite : readOnly = false) (toDb : req.cacheOnly = false)
    (way : ServeWay Mallocs.plenty cd req (.cas key oldval newval) cd' e reply) :
    Served readOnly req cd.lookup cd'.lookup (.cas key oldval newval) e reply := by
  cases way with
  | casNomatch ran =>
    obtain ⟨rv, _⟩ | ⟨rv, _⟩ | ⟨_, ⟨v, held, other⟩, kept⟩ := cas_effect listed ran
    · contradiction
    · contradiction
    · exact .casOther mayWrite toDb held other kept
  | casRefused ran =>
    obtain ⟨rv, _⟩ | ⟨rv, _⟩ | ⟨rv, _⟩ := cas_effect listed ran <;> contradiction
  | casHit _ only =>
    rw [only] at toDb
    contradiction
  | casMiss _ _ _ only =>
    rw [only] at toDb
    contradiction
  | casQueued ran passed _ queued =>
    obtain ⟨rfl, rfl⟩ := queued.plenty
    obtain ⟨_, absent, kept⟩ | ⟨_, held, changed⟩ | ⟨rv, _⟩ := cas_effect listed ran
    · exact .casMiss mayWrite toDb absent kept
    · exact .casHit mayWrite toDb held changed
    · exact (passed.1 rv).elim

/- What cache_incr returns tells what the value was. -/
theorem incr_effect (listed : cd.Listed) {cres n : Int}
    (ran : cacheIncr Bucket.plenty cd key increment = .ok ((cres, n), cd')) :
    (cres = -1 ∧ cd.lookup key = none ∧ cd'.lookup = cd.lookup) ∨
    (cres = 0 ∧ ∃ v, cd.lookup key = some v ∧ v.getLast? = some 0 ∧
      cd'.lookup = Function.update cd.lookup key (some (Bucket.incrText v (wrap64 (strtoll v + increment))))) ∨
    (cres = -2 ∧ (∃ v, cd.lookup key = some v ∧ v.getLast? ≠ some 0) ∧ cd'.lookup = cd.lookup) := by
  obtain ⟨_, _, effect⟩ := listed.exec (CacheOp.exec_incr ran)
  simp only [CacheOp.Effect] at effect
  cases held : cd.lookup key with
  | none =>
    rw [held] at effect
    exact .inl ⟨(CacheResult.incremented.inj effect.1).1, rfl, effect.2⟩
  | some v =>
    rw [held] at effect
    simp only at effect
    split at effect
    case isTrue number =>
      exact .inr (.inl ⟨(CacheResult.incremented.inj effect.1).1, v, rfl, number, effect.2⟩)
    case isFalse other =>
      exact .inr (.inr ⟨(CacheResult.incremented.inj effect.1).1, ⟨v, rfl, other⟩, effect.2⟩)

theorem incr_served (listed : cd.Listed) (mayWrite : readOnly = false) (toDb : req.cacheOnly = false)
    (way : ServeWay Mallocs.plenty cd req (.incr key increment) cd' e reply) :
    Served readOnly req cd.lookup cd'.lookup (.incr key increment) e reply := by
  cases way with
  | incrRefused ran =>
    obtain ⟨rv, _⟩ | ⟨rv, _⟩ | ⟨rv, _⟩ := incr_effect listed ran <;> contradiction
  | incrNomatch ran =>
    obtain ⟨rv, _⟩ | ⟨rv, _⟩ | ⟨_, ⟨v, held, other⟩, kept⟩ := incr_effect listed ran
    · contradiction
    · contradiction
    · exact .incrOther mayWrite toDb held other kept
  | incrQueued ran passed _ queued =>
    obtain ⟨rfl, rfl⟩ := queued.plenty
    obtain ⟨_, absent, kept⟩ | ⟨_, v, held, number, changed⟩ | ⟨rv, _⟩ := incr_effect listed ran
    · exact .incrMiss mayWrite toDb absent kept
    · exact .incrHit mayWrite toDb held number changed
    · exact (passed.2 rv).elim
  | incrMiss _ only =>
    rw [only] at toDb
    contradiction
  | incrHit _ _ _ only =>
    rw [only] at toDb
    contradiction

end

section

variable {s s' : Server ν} {req : ReqInfo ν} {r : Request}

theorem serve_served (listed : s.cache.Listed) (mode : r.DatabaseMode req)
    (done : serve Mallocs.plenty s req r = .ok s') : ServeOutcome s s' req r := by
  rcases serve_way done with ⟨readOnly, writes, rfl⟩ | ⟨may, cd, e, reply, way, leaves⟩
  · exact ⟨listed, rfl, rfl, none, _, .readOnly readOnly writes rfl, (List.append_nil _).symm, rfl⟩
  · obtain ⟨listed', hashlen⟩ := way.listed listed
    obtain rfl := leaves.cache
    refine ⟨listed', hashlen, leaves.settings, e, reply, ?_, leaves.queue, leaves.replies⟩
    have mayWrite : r.writes = true → s.settings.readOnly = false :=
      fun writes => may.resolve_right (by rw [writes]; decide)
    cases r with
    | get key => exact get_served listed way
    | set key val => exact set_served listed (mayWrite rfl) mode way
    | del key => exact del_served listed (mayWrite rfl) way
    | cas key oldval newval => exact cas_served listed (mayWrite rfl) mode way
    | incr key increment => exact incr_served listed (mayWrite rfl) mode way
    | nextkey key => exact mode.elim

theorem serve_total (req : ReqInfo ν) (listed : s.cache.Listed) (buckets : 0 < s.cache.hashlen)
    (nonempty : IncrNonEmpty s.cache r.cacheOp) :
    ∃ s', serve Mallocs.plenty s req r = .ok s' := by
  obtain ⟨result, cd, exec⟩ := listed.total buckets nonempty
  unfold serve
  cases r with
  | get key =>
    obtain ⟨⟨hit, v, vsize⟩, ran, same⟩ := bind_eq_ok.mp exec
    cases same
    obtain ⟨_, _, _, found⟩ := listed.exec exec
    simp only [serveGet, Server.fillCacheFlag, Server.count, ran, ok_bind, putInQueue,
      putInQueueLong_plenty, pure_ok]
    split
    · exact ⟨_, rfl⟩
    · split
      · exact ⟨_, rfl⟩
      · cases held : s.cache.lookup key with
        | none =>
          simp only [held, CacheResult.got.injEq] at found
          obtain ⟨rfl, rfl, rfl⟩ := found
          exact ⟨_, rfl⟩
        | some w =>
          simp only [held, CacheResult.got.injEq] at found
          obtain ⟨rfl, rfl, rfl⟩ := found
          simp only [Server.replyLong, Ptr.read, Int.toNat_natCast, Nat.le_refl, if_true, ok_bind]
          exact ⟨_, rfl⟩
  | nextkey key =>
    simp only [serveNextkey, putInQueue, putInQueueLong_plenty, ok_bind, pure_ok]
    exact ⟨_, rfl⟩
  | set key val =>
    obtain ⟨⟨rv, cd'⟩, ran, _⟩ := bind_eq_ok.mp exec
    have ran : cacheSet Mallocs.plenty.cache s.cache key val = .ok (rv, cd') := ran
    simp only [serveSet, Server.fillCacheFlag, Server.count, ran, ok_bind, putInQueue,
      putInQueueLong_plenty, pure_ok, Bool.not_true, Bool.false_eq_true, if_false]
    repeat' apply total_ite
    all_goals exact ⟨_, rfl⟩
  | del key =>
    obtain ⟨⟨hit, cd'⟩, ran, _⟩ := bind_eq_ok.mp exec
    simp only [serveDel, Server.fillCacheFlag, Server.count, ran, ok_bind, putInQueue,
      putInQueueLong_plenty, pure_ok, Bool.not_true, Bool.false_eq_true, if_false]
    repeat' apply total_ite
    all_goals exact ⟨_, rfl⟩
  | cas key oldval newval =>
    obtain ⟨⟨rv, cd'⟩, ran, _⟩ := bind_eq_ok.mp exec
    have ran : cacheCas Mallocs.plenty.cache s.cache key oldval newval = .ok (rv, cd') := ran
    simp only [serveCas, Server.fillCacheFlag, Server.count, ran, ok_bind, putInQueueLong_plenty, pure_ok,
      Bool.not_true, Bool.false_eq_true, if_false]
    repeat' apply total_ite
    all_goals exact ⟨_, rfl⟩
  | incr key increment =>
    obtain ⟨⟨⟨cres, n⟩, cd'⟩, ran, _⟩ := bind_eq_ok.mp exec
    have ran : cacheIncr Mallocs.plenty.cache s.cache key increment = .ok ((cres, n), cd') := ran
    simp only [serveIncr, Server.fillCacheFlag, Server.count, ran, ok_bind, putInQueue,
      putInQueueLong_plenty, pure_ok, Bool.not_true, Bool.false_eq_true, if_false]
    repeat' apply total_ite
    all_goals exact ⟨_, rfl⟩

end

end Nmdb
