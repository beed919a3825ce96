import Nmdb.Parse
import Nmdb.Wire

/-! What a request can come to on the main thread. Each way in which the serve functions end
is a constructor of ServeWay, and what holds of a served request is read off it. -/
namespace Nmdb

variable {ν : Type}

namespace Request

def writes : Request → Bool
  | .get _ => false
  | .nextkey _ => false
  | _ => true

/-- What is queued for the database thread. -/
def entry (req : ReqInfo ν) : Request → QueueEntry ν
  | .get key => ⟨.get, req, some key, none, none⟩
  | .set key val => ⟨.set, req, some key, some val, none⟩
  | .del key => ⟨.del, req, some key, none, none⟩
  | .cas key oldval newval => ⟨.cas, req, some key, some oldval, some newval⟩
  | .incr key increment => ⟨.incr, req, some key, some (bytes64 (ofInt64 increment)), none⟩
  | .nextkey key => ⟨.nextkey, req, some key, none, none⟩

end Request

/- The operation a request starts with. -/
def Request.cacheOp : Request → CacheOp
  | .get key => .get key
  | .set key val => .set key val
  | .del key => .del key
  | .cas key oldval newval => .cas key oldval newval
  | .incr key increment => .incr key increment
  | .nextkey key => .get key

def serve (m : Mallocs) (s : Server ν) (req : ReqInfo ν) : Request → Except Fault (Server ν)
  | .get key => serveGet m s req key
  | .set key val =>
    if s.settings.readOnly then .ok (s.reply req (.err .ro)) else serveSet m s req key val
  | .del key =>
    if s.settings.readOnly then .ok (s.reply req (.err .ro)) else serveDel m s req key
  | .cas key oldval newval =>
    if s.settings.readOnly then .ok (s.reply req (.err .ro)) else serveCas m s req key oldval newval
  | .incr key increment =>
    if s.settings.readOnly then .ok (s.reply req (.err .ro)) else serveIncr m s req key increment
  | .nextkey key => serveNextkey m s req key

/-- An entry is refused for want of memory, or put into the queue; then the request is
answered at once if it is asynchronous. -/
inductive Queued (m : Mallocs) (async : Bool) (e : QueueEntry ν) :
    Option (QueueEntry ν) → Option Reply → Prop
  | refused (missing : ¬ m.EntryHad) : Queued m async e none (some (.err .mem))
  | answered (had : m.EntryHad) (isAsync : async = true) : Queued m async e (some e) (some (.mini .ok))
  | silent (had : m.EntryHad) (isSync : async = false) : Queued m async e (some e) none

/-- The reply to a hit; a null value makes it a short one. -/
inductive HitReply (v : Ptr) (vsize : Int) : Reply → Prop
  | short (null : v = .null) : HitReply v vsize (.mini .cacheHit)
  | long {b : Bytes} (read : v.read vsize.toNat = .ok b) : HitReply v vsize (.long .cacheHit b)

/-- The ways to serve a request: from the cache before, the cache after, the entry queued
and the reply given at once. -/
inductive ServeWay (m : Mallocs) (cd : Cache) (req : ReqInfo ν) :
    Request → Cache → Option (QueueEntry ν) → Option Reply → Prop
  | getMiss {key : Bytes} {v : Ptr} {vsize : Int} (ran : cacheGet cd key = .ok (false, v, vsize))
      (only : req.cacheOnly = true) : ServeWay m cd req (.get key) cd none (some (.mini .cacheMiss))
  | getQueued {key : Bytes} {v : Ptr} {vsize : Int} {e : Option (QueueEntry ν)} {reply : Option Reply}
      (ran : cacheGet cd key = .ok (false, v, vsize)) (toDb : req.cacheOnly = false)
      (queued : Queued m false (Request.entry req (.get key)) e reply) :
      ServeWay m cd req (.get key) cd e reply
  | getHit {key : Bytes} {v : Ptr} {vsize : Int} {r : Reply} (ran : cacheGet cd key = .ok (true, v, vsize))
      (hit : HitReply v vsize r) : ServeWay m cd req (.get key) cd none (some r)
  | setRefused {key val : Bytes} {rv : Int} {cd' : Cache} (ran : cacheSet m.cache cd key val = .ok (rv, cd'))
      (refused : rv ≠ 0) : ServeWay m cd req (.set key val) cd' none (some (.err .mem))
  | setOnly {key val : Bytes} {cd' : Cache} (ran : cacheSet m.cache cd key val = .ok (0, cd'))
      (only : req.cacheOnly = true) : ServeWay m cd req (.set key val) cd' none (some (.mini .ok))
  | setQueued {key val : Bytes} {cd' : Cache} {e : Option (QueueEntry ν)} {reply : Option Reply}
      (ran : cacheSet m.cache cd key val = .ok (0, cd')) (toDb : req.cacheOnly = false)
      (queued : Queued m (!req.sync) (Request.entry req (.set key val)) e reply) :
      ServeWay m cd req (.set key val) cd' e reply
  | delHit {key : Bytes} {hit : Int} {cd' : Cache} (ran : cacheDel cd key = .ok (hit, cd')) (had : hit ≠ 0)
      (only : req.cacheOnly = true) : ServeWay m cd req (.del key) cd' none (some (.mini .ok))
  | delMiss {key : Bytes} {cd' : Cache} (ran : cacheDel cd key = .ok (0, cd'))
      (only : req.cacheOnly = true) : ServeWay m cd req (.del key) cd' none (some (.mini .notin))
  | delQueued {key : Bytes} {hit : Int} {cd' : Cache} {e : Option (QueueEntry ν)} {reply : Option Reply}
      (ran : cacheDel cd key = .ok (hit, cd')) (toDb : req.cacheOnly = false)
      (queued : Queued m (!req.sync) (Request.entry req (.del key)) e reply) :
      ServeWay m cd req (.del key) cd' e reply
  | casNomatch {key oldval newval : Bytes} {cd' : Cache}
      (ran : cacheCas m.cache cd key oldval newval = .ok (-1, cd')) :
      ServeWay m cd req (.cas key oldval newval) cd' none (some (.mini .nomatch))
  | casRefused {key oldval newval : Bytes} {cd' : Cache}
      (ran : cacheCas m.cache cd key oldval newval = .ok (-3, cd')) :
      ServeWay m cd req (.cas key oldval newval) cd' none (some (.err .mem))
  | casHit {key oldval newval : Bytes} {cd' : Cache}
      (ran : cacheCas m.cache cd key oldval newval = .ok (0, cd')) (only : req.cacheOnly = true) :
      ServeWay m cd req (.cas key oldval newval) cd' none (some (.mini .ok))
  | casMiss {key oldval newval : Bytes} {rv : Int} {cd' : Cache}
      (ran : cacheCas m.cache cd key oldval newval = .ok (rv, cd')) (passed : rv ≠ -1 ∧ rv ≠ -3)
      (missed : rv ≠ 0) (only : req.cacheOnly = true) :
      ServeWay m cd req (.cas key oldval newval) cd' none (some (.mini .notin))
  | casQueued {key oldval newval : Bytes} {rv : Int} {cd' : Cache} {e : Option (QueueEntry ν)}
      {reply : Option Reply} (ran : cacheCas m.cache cd key oldval newval = .ok (rv, cd'))
      (passed : rv ≠ -1 ∧ rv ≠ -3) (toDb : req.cacheOnly = false)
      (queued : Queued m false (Request.entry req (.cas key oldval newval)) e reply) :
      ServeWay m cd req (.cas key oldval newval) cd' e reply
  | incrRefused {key : Bytes} {increment n : Int} {cd' : Cache}
      (ran : cacheIncr m.cache cd key increment = .ok ((-3, n), cd')) :
      ServeWay m cd req (.incr key increment) cd' none (some (.err .mem))
  | incrNomatch {key : Bytes} {increment n : Int} {cd' : Cache}
      (ran : cacheIncr m.cache cd key increment = .ok ((-2, n), cd')) :
      ServeWay m cd req (.incr key increment) cd' none (some (.mini .nomatch))
  | incrQueued {key : Bytes} {increment cres n : Int} {cd' : Cache} {e : Option (QueueEntry ν)}
      {reply : Option Reply} (ran : cacheIncr m.cache cd key increment = .ok ((cres, n), cd'))
      (passed : cres ≠ -3 ∧ cres ≠ -2) (toDb : req.cacheOnly = false)
      (queued : Queued m false (Request.entry req (.incr key increment)) e reply) :
      ServeWay m cd req (.incr key increment) cd' e reply
  | incrMiss {key : Bytes} {increment n : Int} {cd' : Cache}
      (ran : cacheIncr m.cache cd key increment = .ok ((-1, n), cd')) (only : req.cacheOnly = true) :
      ServeWay m cd req (.incr key increment) cd' none (some (.mini .notin))
  | incrHit {key : Bytes} {increment cres n : Int} {cd' : Cache}
      (ran : cacheIncr m.cache cd key increment = .ok ((cres, n), cd'))
      (passed : cres ≠ -3 ∧ cres ≠ -2) (held : cres ≠ -1) (only : req.cacheOnly = true) :
      ServeWay m cd req (.incr key increment) cd' none (some (.long .ok (bytes64 (htonll (ofInt64 n)))))
  | nextkey {key : Bytes} {e : Option (QueueEntry ν)} {reply : Option Reply}
      (queued : Queued m false (Request.entry req (.nextkey key)) e reply) :
      ServeWay m cd req (.nextkey key) cd e reply

theorem Queued.own {m : Mallocs} {async : Bool} {x : QueueEntry ν} {e : Option (QueueEntry ν)}
    {reply : Option Reply} (queued : Queued m async x e reply) : ∀ y ∈ e, y = x := by
  cases queued with
  | refused => simp
  | answered => simp
  | silent => simp

/-- Only the entry of the request is queued for it. -/
theorem ServeWay.own {m : Mallocs} {cd cd' : Cache} {req : ReqInfo ν} {r : Request}
    {e : Option (QueueEntry ν)} {reply : Option Reply} (way : ServeWay m cd req r cd' e reply) :
    ∀ x ∈ e, x = Request.entry req r := by
  cases way with
  | getQueued _ _ queued => exact queued.own
  | setQueued _ _ queued => exact queued.own
  | delQueued _ _ queued => exact queued.own
  | casQueued _ _ _ queued => exact queued.own
  | incrQueued _ _ _ queued => exact queued.own
  | nextkey queued => exact queued.own
  | _ => simp

/-- A look-up leaves the cache alone, any other request does one operation on it. -/
theorem ServeWay.cache {m : Mallocs} {cd cd' : Cache} {req : ReqInfo ν} {r : Request}
    {e : Option (QueueEntry ν)} {reply : Option Reply} (way : ServeWay m cd req r cd' e reply) :
    (r.writes = false ∧ cd' = cd) ∨
      (r.writes = true ∧ ∃ result, r.cacheOp.exec m.cache cd = .ok (result, cd')) := by
  cases way with
  | getMiss | getQueued | getHit | nextkey => exact .inl ⟨rfl, rfl⟩
  | setRefused ran | setOnly ran | setQueued ran => exact .inr ⟨rfl, _, CacheOp.exec_set ran⟩
  | delHit ran | delMiss ran | delQueued ran => exact .inr ⟨rfl, _, CacheOp.exec_del ran⟩
  | casNomatch ran | casRefused ran | casHit ran | casMiss ran | casQueued ran =>
    exact .inr ⟨rfl, _, CacheOp.exec_cas ran⟩
  | incrRefused ran | incrNomatch ran | incrQueued ran | incrMiss ran | incrHit ran =>
    exact .inr ⟨rfl, _, CacheOp.exec_incr ran⟩

theorem Request.entry_req (req : ReqInfo ν) (r : Request) : (r.entry req).req = req := by
  cases r <;> rfl

/-- What is left of the server: that cache, at most one more entry and one more reply. -/
structure Leaves (s s' : Server ν) (req : ReqInfo ν) (cd : Cache) (e : Option (QueueEntry ν))
    (reply : Option Reply) : Prop where
  cache : s'.cache = cd
  settings : s'.settings = s.settings
  brokenReq : s'.stats.netBrokenReq = s.stats.netBrokenReq
  queue : s'.queue = s.queue ++ e.toList
  replies : s'.replies = s.replies ++ (reply.map fun r => (req, r)).toList

section

variable {m : Mallocs} {s s' s₁ s₂ : Server ν} {req : ReqInfo ν} {cd : Cache} {key val oldval newval : Bytes}

theorem leaves_reply (s : Server ν) (req : ReqInfo ν) (r : Reply) :
    Leaves s (s.reply req r) req s.cache none (some r) :=
  ⟨rfl, rfl, rfl, (List.append_nil _).symm, rfl⟩

theorem leaves_counted (s : Server ν) (req : ReqInfo ν) {f : Stats → Stats}
    (left : ∀ st, (f st).netBrokenReq = st.netBrokenReq) :
    Leaves s (s.count f) req s.cache none none :=
  ⟨rfl, rfl, left s.stats, (List.append_nil _).symm, (List.append_nil _).symm⟩

theorem leaves_flagged (s : Server ν) (req : ReqInfo ν) {f g : Stats → Stats}
    (left : ∀ st, (f st).netBrokenReq = st.netBrokenReq)
    (right : ∀ st, (g st).netBrokenReq = st.netBrokenReq) (cd : Cache) :
    Leaves s { s.fillCacheFlag req f g with cache := cd } req cd none none := by
  refine ⟨rfl, rfl, ?_, (List.append_nil _).symm, (List.append_nil _).symm⟩
  change ((if req.cacheOnly then f else g) s.stats).netBrokenReq = _
  split
  · exact left s.stats
  · exact right s.stats

namespace Leaves

theorem count {f : Stats → Stats} (silent : Leaves s s₁ req cd none none)
    (left : ∀ st, (f st).netBrokenReq = st.netBrokenReq) : Leaves s (s₁.count f) req cd none none :=
  ⟨silent.cache, silent.settings, (left s₁.stats).trans silent.brokenReq, silent.queue, silent.replies⟩

theorem reply (silent : Leaves s s₁ req cd none none) (r : Reply) :
    Leaves s (s₁.reply req r) req cd none (some r) := by
  refine ⟨silent.cache, silent.settings, silent.brokenReq, silent.queue, ?_⟩
  rw [Server.reply, silent.replies]
  exact congrArg (· ++ [(req, r)]) (List.append_nil _)

theorem replyLong {v : Ptr} {vsize : Int} (silent : Leaves s s₁ req cd none none)
    (done : s₁.replyLong req .cacheHit v vsize = .ok s') :
    ∃ r, HitReply v vsize r ∧ Leaves s s' req cd none (some r) := by
  unfold Server.replyLong at done
  split at done
  · cases done
    exact ⟨_, .short rfl, silent.reply _⟩
  · obtain ⟨b, read, done⟩ := bind_eq_ok.mp done
    cases done
    exact ⟨_, .long read, silent.reply _⟩

/- The end of every request that is queued. -/
theorem queued (async : Bool) {operation : Req} {key val newval : Option Bytes} {rv : Bool}
    (silent : Leaves s s₁ req cd none none)
    (put : putInQueueLong m s₁ req operation key val newval = .ok (rv, s₂))
    (done : (if (!rv) = true then pure (s₂.reply req (.err .mem))
      else if async = true then pure (s₂.reply req (.mini .ok)) else pure s₂ :
        Except Fault (Server ν)) = .ok s') :
    ∃ e reply, Queued m async ⟨operation, req, key, val, newval⟩ e reply ∧ Leaves s s' req cd e reply := by
  rcases putInQueueLong_cases put with ⟨rfl, missing, rfl⟩ | ⟨rfl, had, rfl⟩
  · cases done
    exact ⟨none, _, .refused missing, silent.reply _⟩
  · have queue : s₁.queue = s.queue := silent.queue.trans (List.append_nil _)
    have replies : s₁.replies = s.replies := silent.replies.trans (List.append_nil _)
    cases async with
    | true =>
      cases done
      exact ⟨_, _, .answered had rfl, silent.cache, silent.settings, silent.brokenReq,
        congrArg (· ++ _) queue, congrArg (· ++ _) replies⟩
    | false =>
      cases done
      exact ⟨_, _, .silent had rfl, silent.cache, silent.settings, silent.brokenReq,
        congrArg (· ++ _) queue, silent.replies⟩

end Leaves

theorem serveGet_way (done : serveGet m s req key = .ok s') :
    ∃ cd e reply, ServeWay m s.cache req (.get key) cd e reply ∧ Leaves s s' req cd e reply := by
  unfold serveGet at done
  obtain ⟨⟨hit, v, vsize⟩, ran, done⟩ := bind_eq_ok.mp done
  have silent := leaves_flagged s req (f := fun st => { st with cacheGet := st.cacheGet + 1 })
    (g := fun st => { st with dbGet := st.dbGet + 1 }) (fun _ => rfl) (fun _ => rfl) s.cache
  simp only at done
  split at done
  case isTrue only =>
    cases done
    rw [Bool.and_eq_true, Bool.not_eq_true'] at only
    obtain ⟨only, rfl⟩ := only
    have counted := silent.count (f := fun st => { st with cacheMisses := st.cacheMisses + 1 }) fun _ => rfl
    exact ⟨_, _, _, .getMiss ran only, counted.reply _⟩
  case isFalse notOnly =>
    split at done
    case isTrue toDb =>
      rw [Bool.and_eq_true, Bool.not_eq_true', Bool.not_eq_true'] at toDb
      obtain ⟨toDb, rfl⟩ := toDb
      obtain ⟨⟨rv, s₂⟩, put, done⟩ := bind_eq_ok.mp done
      obtain ⟨e, reply, queued, leaves⟩ := silent.queued false put done
      exact ⟨_, e, reply, .getQueued ran toDb queued, leaves⟩
    case isFalse notMissed =>
      have had : hit = true := by
        cases hit
        · cases only : req.cacheOnly <;> simp [only] at notOnly notMissed
        · rfl
      subst had
      have counted := silent.count (f := fun st => { st with cacheHits := st.cacheHits + 1 }) fun _ => rfl
      obtain ⟨r, hit, leaves⟩ := counted.replyLong done
      exact ⟨_, _, _, .getHit ran hit, leaves⟩

theorem serveSet_way (done : serveSet m s req key val = .ok s') :
    ∃ cd e reply, ServeWay m s.cache req (.set key val) cd e reply ∧ Leaves s s' req cd e reply := by
  unfold serveSet at done
  obtain ⟨⟨rv, cache⟩, ran, done⟩ := bind_eq_ok.mp done
  have silent := leaves_flagged s req (f := fun st => { st with cacheSet := st.cacheSet + 1 })
    (g := fun st => { st with dbSet := st.dbSet + 1 }) (fun _ => rfl) (fun _ => rfl) cache
  simp only at done
  split at done
  case isTrue refused =>
    cases done
    exact ⟨_, _, _, .setRefused ran refused, silent.reply _⟩
  case isFalse set =>
    obtain rfl := Classical.not_not.mp set
    split at done
    case isTrue toDb =>
      rw [Bool.not_eq_true'] at toDb
      obtain ⟨⟨rv, s₂⟩, put, done⟩ := bind_eq_ok.mp done
      obtain ⟨e, reply, queued, leaves⟩ := silent.queued _ put done
      exact ⟨_, e, reply, .setQueued ran toDb queued, leaves⟩
    case isFalse only =>
      cases done
      rw [Bool.not_eq_true', Bool.not_eq_false] at only
      exact ⟨_, _, _, .setOnly ran only, silent.reply _⟩

theorem serveDel_way (done : serveDel m s req key = .ok s') :
    ∃ cd e reply, ServeWay m s.cache req (.del key) cd e reply ∧ Leaves s s' req cd e reply := by
  unfold serveDel at done
  obtain ⟨⟨hit, cache⟩, ran, done⟩ := bind_eq_ok.mp done
  have silent := leaves_flagged s req (f := fun st => { st with cacheDel := st.cacheDel + 1 })
    (g := fun st => { st with dbDel := st.dbDel + 1 }) (fun _ => rfl) (fun _ => rfl) cache
  simp only at done
  split at done
  case isTrue held =>
    cases done
    rw [Bool.and_eq_true, decide_eq_true_eq] at held
    exact ⟨_, _, _, .delHit ran held.2 held.1, silent.reply _⟩
  case isFalse notHit =>
    split at done
    case isTrue missed =>
      cases done
      rw [Bool.and_eq_true, decide_eq_true_eq] at missed
      obtain ⟨only, rfl⟩ := missed
      exact ⟨_, _, _, .delMiss ran only, silent.reply _⟩
    case isFalse notMissed =>
      have toDb : req.cacheOnly = false := by
        by_contra only
        simp only [Bool.not_eq_false] at only
        simp only [only, Bool.true_and, decide_eq_true_eq] at notHit notMissed
        exact notHit notMissed
      obtain ⟨⟨rv, s₂⟩, put, done⟩ := bind_eq_ok.mp done
      obtain ⟨e, reply, queued, leaves⟩ := silent.queued _ put done
      exact ⟨_, e, reply, .delQueued ran toDb queued, leaves⟩

theorem serveCas_way (done : serveCas m s req key oldval newval = .ok s') :
    ∃ cd e reply, ServeWay m s.cache req (.cas key oldval newval) cd e reply ∧
      Leaves s s' req cd e reply := by
  unfold serveCas at done
  obtain ⟨⟨rv, cache⟩, ran, done⟩ := bind_eq_ok.mp done
  have silent := leaves_flagged s req (f := fun st => { st with cacheCas := st.cacheCas + 1 })
    (g := fun st => { st with dbCas := st.dbCas + 1 }) (fun _ => rfl) (fun _ => rfl) cache
  simp only at done
  split at done
  case isTrue mismatch =>
    cases done
    subst mismatch
    exact ⟨_, _, _, .casNomatch ran, silent.reply _⟩
  case isFalse matched =>
    split at done
    case isTrue memory =>
      cases done
      subst memory
      exact ⟨_, _, _, .casRefused ran, silent.reply _⟩
    case isFalse had =>
      split at done
      case isTrue only =>
        split at done
        case isTrue swapped =>
          cases done
          subst swapped
          exact ⟨_, _, _, .casHit ran only, silent.reply _⟩
        case isFalse missed =>
          cases done
          exact ⟨_, _, _, .casMiss ran ⟨matched, had⟩ missed only, silent.reply _⟩
      case isFalse toDb =>
        rw [Bool.not_eq_true] at toDb
        obtain ⟨⟨rv', s₂⟩, put, done⟩ := bind_eq_ok.mp done
        obtain ⟨e, reply, queued, leaves⟩ := silent.queued false put done
        exact ⟨_, e, reply, .casQueued ran ⟨matched, had⟩ toDb queued, leaves⟩

theorem serveIncr_way {increment : Int} (done : serveIncr m s req key increment = .ok s') :
    ∃ cd e reply, ServeWay m s.cache req (.incr key increment) cd e reply ∧
      Leaves s s' req cd e reply := by
  unfold serveIncr at done
  obtain ⟨⟨⟨cres, n⟩, cache⟩, ran, done⟩ := bind_eq_ok.mp done
  have silent := leaves_flagged s req (f := fun st => { st with cacheIncr := st.cacheIncr + 1 })
    (g := fun st => { st with dbIncr := st.dbIncr + 1 }) (fun _ => rfl) (fun _ => rfl) cache
  simp only at done
  split at done
  case isTrue memory =>
    cases done
    subst memory
    exact ⟨_, _, _, .incrRefused ran, silent.reply _⟩
  case isFalse had =>
    split at done
    case isTrue unterminated =>
      cases done
      subst unterminated
      exact ⟨_, _, _, .incrNomatch ran, silent.reply _⟩
    case isFalse terminated =>
      split at done
      case isTrue toDb =>
        rw [Bool.not_eq_true'] at toDb
        obtain ⟨⟨rv', s₂⟩, put, done⟩ := bind_eq_ok.mp done
        obtain ⟨e, reply, queued, leaves⟩ := silent.queued false put done
        exact ⟨_, e, reply, .incrQueued ran ⟨had, terminated⟩ toDb queued, leaves⟩
      case isFalse only =>
        rw [Bool.not_eq_true', Bool.not_eq_false] at only
        split at done
        case isTrue missed =>
          cases done
          subst missed
          exact ⟨_, _, _, .incrMiss ran only, silent.reply _⟩
        case isFalse held =>
          cases done
          exact ⟨_, _, _, .incrHit ran ⟨had, terminated⟩ held only, silent.reply _⟩

theorem serveNextkey_way (done : serveNextkey m s req key = .ok s') :
    ∃ cd e reply, ServeWay m s.cache req (.nextkey key) cd e reply ∧ Leaves s s' req cd e reply := by
  unfold serveNextkey at done
  obtain ⟨⟨rv, s₂⟩, put, done⟩ := bind_eq_ok.mp done
  obtain ⟨e, reply, queued, leaves⟩ := (leaves_counted s req
    (f := fun st => { st with dbNextkey := st.dbNextkey + 1 }) fun _ => rfl).queued false put done
  exact ⟨_, e, reply, .nextkey queued, leaves⟩

theorem parseFirstkey_way (done : parseFirstkey m s req = .ok s') :
    ∃ e reply, Queued m false ⟨.firstkey, req, none, none, none⟩ e reply ∧
      Leaves s s' req s.cache e reply := by
  unfold parseFirstkey at done
  obtain ⟨⟨rv, s₂⟩, put, done⟩ := bind_eq_ok.mp done
  exact (leaves_counted s req
    (f := fun st => { st with dbFirstkey := st.dbFirstkey + 1 }) fun _ => rfl).queued false put done

/-- A request is turned down in read-only mode, or served in one of the ways. -/
theorem serve_way {r : Request} (done : serve m s req r = .ok s') :
    (s.settings.readOnly = true ∧ r.writes = true ∧ s' = s.reply req (.err .ro)) ∨
    ((s.settings.readOnly = false ∨ r.writes = false) ∧
      ∃ cd e reply, ServeWay m s.cache req r cd e reply ∧ Leaves s s' req cd e reply) := by
  cases r with
  | get key => exact .inr ⟨.inr rfl, serveGet_way done⟩
  | nextkey key => exact .inr ⟨.inr rfl, serveNextkey_way done⟩
  | set key val =>
    simp only [serve] at done
    split at done
    case isTrue readOnly => exact .inl ⟨readOnly, rfl, (Except.ok.inj done).symm⟩
    case isFalse mayWrite => exact .inr ⟨.inl (Bool.not_eq_true _ ▸ mayWrite), serveSet_way done⟩
  | del key =>
    simp only [serve] at done
    split at done
    case isTrue readOnly => exact .inl ⟨readOnly, rfl, (Except.ok.inj done).symm⟩
    case isFalse mayWrite => exact .inr ⟨.inl (Bool.not_eq_true _ ▸ mayWrite), serveDel_way done⟩
  | cas key oldval newval =>
    simp only [serve] at done
    split at done
    case isTrue readOnly => exact .inl ⟨readOnly, rfl, (Except.ok.inj done).symm⟩
    case isFalse mayWrite => exact .inr ⟨.inl (Bool.not_eq_true _ ▸ mayWrite), serveCas_way done⟩
  | incr key increment =>
    simp only [serve] at done
    split at done
    case isTrue readOnly => exact .inl ⟨readOnly, rfl, (Except.ok.inj done).symm⟩
    case isFalse mayWrite => exact .inr ⟨.inl (Bool.not_eq_true _ ▸ mayWrite), serveIncr_way done⟩

end

end Nmdb
