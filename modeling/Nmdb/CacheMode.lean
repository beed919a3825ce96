import Nmdb.Lib.Forgetful
import Nmdb.Linearizability

/-! The server as a cache alone: every request has FLAGS_CACHE_ONLY. Then the cache is a map
that may forget, a full chain its last pair. The database is not touched, and every request
is answered at once, as by a map that forgets nothing or as if the key were not there. -/
namespace Nmdb

/-- GET, SET, DEL, CAS and INCR with FLAGS_CACHE_ONLY. -/
def Request.CacheMode {ν : Type} (req : ReqInfo ν) : Request → Prop
  | .nextkey _ => False
  | _ => req.cacheOnly = true

def Event.InCacheMode : Event → Prop
  | .message buf len => ∃ r, decoded buf len = some r ∧ r.size ≤ maxSize ∧
      r.CacheMode (headerInfo ⟨0, 0, 0, 0⟩ buf)
  | _ => True

/-- A request on the binding of its key. A DEL tells whether there was one. -/
def performOnly (readOnly : Bool) (x : ReqInfo Nat × Request) (o : Option Bytes) :
    Option Bytes × (ReqInfo Nat × Answer) :=
  if readOnly && x.2.writes then (o, x.1, .refused)
  else ((x.2.perform true o).1, x.1, (x.2.perform true o).2)

/-- A key that is not in the cache may have been in it. -/
def Reply.cacheAnswer : Reply → Option Answer
  | .mini .cacheMiss => some .absent
  | r => r.answer

/-- The reply gives the answer to the request. -/
def Tells (a : ReqInfo Nat × Answer) (y : ReqInfo Nat × Reply) : Prop :=
  y.1 = a.1 ∧ y.2.cacheAnswer = some a.2

/-- A SET whose chain holds CHAINLEN other keys. -/
def ChainFull (hashlen : Nat) (m : KV) (x : ReqInfo Nat × Request) : Prop :=
  ∃ val, x.2 = .set x.2.key val ∧ ∃ ks : List Bytes, ks.Nodup ∧ ks.length = CHAINLEN ∧
    ∀ k ∈ ks, k ≠ x.2.key ∧ hash k % hashlen = hash x.2.key % hashlen ∧ m k ≠ none

theorem RecencyList.set_keeps {key k : Bytes} {l : RecencyList}
    (room : key ∈ Assoc.keys l.pairs ∨ l.pairs.length < CHAINLEN) (other : k ≠ key) (val : Bytes) : (l.set key val).get k = l.get k := by
  rw [get, set, Assoc.get_cons, if_neg other, behind]
  by_cases member : key ∈ Assoc.keys l.pairs
  · rw [if_pos member, Assoc.get_eraseKey, if_neg other, get]
  · rw [if_neg member, if_pos (room.resolve_left member), get]

section

variable {cd cd' : Cache} {key val oldval newval : Bytes}

/-- A SET keeps all other keys unless its chain is full of them. -/
theorem set_keeps (listed : cd.Listed) {req : ReqInfo Nat} {rv : Int}
    (ran : cacheSet Bucket.plenty cd key val = .ok (rv, cd'))
    (room : ¬ ChainFull cd.hashlen cd.lookup (req, .set key val)) :
    ∀ k, k ≠ key → cd'.lookup k = cd.lookup k := by
  obtain ⟨n, t, models⟩ := listed
  have exec := CacheOp.exec_set ran
  have buckets : 0 < n := Nat.pos_of_ne_zero (CacheOp.exec_inv models exec).1
  obtain ⟨cd₁, ran₁, models₁⟩ := exec_lists models buckets (incrNonEmpty_of_ok models exec)
  obtain ⟨_, rfl⟩ := Prod.mk.inj (Except.ok.inj (ran₁.symm.trans exec))
  intro k other
  rw [models₁.lookup_lists, models.lookup_lists]
  by_cases here : hash k % n = hash key % n
  · simp only [Lists.step, CacheOp.key, CacheOp.inList, here, Function.update_self]
    refine RecencyList.set_keeps ?_ other val
    by_contra full
    rw [not_or, Nat.not_lt] at full
    have length : (Assoc.keys (t (hash key % n)).pairs).length = CHAINLEN := by
      rw [Assoc.keys, List.length_map]
      exact Nat.le_antisymm (t _).short full.2
    refine room ⟨val, rfl, _, (t _).distinct, length, fun k' member => ?_⟩
    have placed : hash k' % n = hash key % n := models.placed _ k' member
    have apart : k' ≠ key := by
      intro same
      rw [same] at member
      exact full.1 member
    refine ⟨apart, ?_, ?_⟩
    · rw [models.hashlen]
      exact placed
    · rw [models.lookup_lists, placed]
      exact Option.isSome_iff_ne_none.mp ((Assoc.get_isSome_iff _ _).mpr member)
  · simp only [Lists.step, CacheOp.key, Function.update_of_ne here]

theorem get_effect (listed : cd.Listed) {hit : Bool} {v : Ptr} {vsize : Int}
    (ran : cacheGet cd key = .ok (hit, v, vsize)) :
    (hit = false ∧ cd.lookup key = none) ∨
      ∃ w, hit = true ∧ v = .block w ∧ vsize = w.length ∧ cd.lookup key = some w := by
  obtain ⟨_, _, _, found⟩ := listed.exec (CacheOp.exec_get ran)
  cases held : cd.lookup key with
  | none =>
    rw [held] at found
    cases found
    exact .inl ⟨rfl, rfl⟩
  | some w =>
    rw [held] at found
    cases found
    exact .inr ⟨w, rfl, rfl, rfl, rfl⟩

variable {req : ReqInfo Nat} {r : Request} {readOnly : Bool} {e : Option (QueueEntry Nat)} {reply : Option Reply}

theorem performOnly_serves (may : readOnly = false ∨ r.writes = false) (o : Option Bytes) :
    performOnly readOnly (req, r) o = ((r.perform true o).1, req, (r.perform true o).2) := by
  rw [performOnly, if_neg]
  rcases may with may | may
  · simp [may]
  · simp [may]

/-- A request served from the cache alone: one operation of a map that may forget, and its reply. -/
inductive ServedOnly (readOnly : Bool) (cd : Cache) (req : ReqInfo Nat) (r : Request) (cd' : Cache) :
    Option (QueueEntry Nat) → Option Reply → Prop
  | answered {x : Reply} (step : Forgetful.Step (fun x => x.2.key) (performOnly readOnly) (ChainFull cd.hashlen) Tells
      cd.lookup (req, r) (req, x) cd'.lookup) : ServedOnly readOnly cd req r cd' none (some x)

variable {increment : Int}

theorem ServedOnly.changed {x : Reply} {a : Answer} {b : Option Bytes} (may : readOnly = false ∨ r.writes = false)
    (told : x.cacheAnswer = some a) (done : r.perform true (cd.lookup r.key) = (b, a))
    (changed : cd'.lookup = Function.update cd.lookup r.key b) :
    ServedOnly readOnly cd req r cd' none (some x) := by
  refine .answered (.of_update (a := (req, a)) ?_ ⟨rfl, told⟩ changed)
  rw [performOnly_serves may, done]

theorem ServedOnly.same {x : Reply} {a : Answer} (may : readOnly = false ∨ r.writes = false)
    (told : x.cacheAnswer = some a) (done : r.perform true (cd.lookup r.key) = (cd.lookup r.key, a))
    (kept : cd'.lookup = cd.lookup) : ServedOnly readOnly cd req r cd' none (some x) :=
  .changed may told done (kept.trans (Function.update_eq_self ..).symm)

theorem get_only (listed : cd.Listed) (only : req.cacheOnly = true)
    (way : ServeWay Mallocs.plenty cd req (.get key) cd' e reply) :
    ServedOnly readOnly cd req (.get key) cd' e reply := by
  cases way with
  | getMiss ran _ =>
    obtain ⟨_, absent⟩ | ⟨_, hit, _⟩ := get_effect listed ran
    · apply ServedOnly.same (.inr rfl) (a := .absent) rfl _ rfl
      rw [Request.key, absent]
      rfl
    · contradiction
  | getQueued _ toDb _ =>
    rw [only] at toDb
    contradiction
  | getHit ran hit =>
    obtain ⟨miss, _⟩ | ⟨w, _, rfl, rfl, held⟩ := get_effect listed ran
    · contradiction
    · cases hit with
      | short null => contradiction
      | @long b read =>
        simp only [Ptr.read, Int.toNat_natCast, Nat.le_refl, if_true, List.take_length] at read
        cases read
        apply ServedOnly.same (.inr rfl) (a := .value w) rfl _ rfl
        rw [Request.key, held]
        rfl

theorem set_only (listed : cd.Listed) (may : readOnly = false) (only : req.cacheOnly = true)
    (way : ServeWay Mallocs.plenty cd req (.set key val) cd' e reply) :
    ServedOnly readOnly cd req (.set key val) cd' e reply := by
  cases way with
  | setRefused ran refused =>
    obtain ⟨_, _, result, _⟩ := listed.exec (CacheOp.exec_set ran)
    exact (refused (CacheResult.rv.inj result)).elim
  | setOnly ran _ =>
    obtain ⟨_, _, _, here, others⟩ := listed.exec (CacheOp.exec_set ran)
    refine .answered ⟨?_, ?_, others, set_keeps listed ran⟩
    · rw [performOnly_serves (.inl may)]
      exact ⟨rfl, rfl⟩
    · rw [performOnly_serves (.inl may)]
      exact here
  | setQueued _ toDb _ =>
    rw [only] at toDb
    contradiction

theorem del_only (listed : cd.Listed) (may : readOnly = false) (only : req.cacheOnly = true)
    (way : ServeWay Mallocs.plenty cd req (.del key) cd' e reply) :
    ServedOnly readOnly cd req (.del key) cd' e reply := by
  cases way with
  | delHit ran had _ =>
    obtain ⟨_, _, result, gone⟩ := listed.exec (CacheOp.exec_del ran)
    apply ServedOnly.changed (.inl may) (a := .done) rfl _ gone
    cases held : cd.lookup key with
    | none =>
      rw [held] at result
      exact absurd (CacheResult.rv.inj result) had
    | some v =>
      rw [Request.key, held]
      rfl
  | delMiss ran _ =>
    obtain ⟨_, _, result, gone⟩ := listed.exec (CacheOp.exec_del ran)
    apply ServedOnly.changed (.inl may) (a := .absent) rfl _ gone
    cases held : cd.lookup key with
    | none =>
      rw [Request.key, held]
      rfl
    | some v =>
      rw [held] at result
      have one : (0 : Int) = 1 := CacheResult.rv.inj result
      contradiction
  | delQueued _ toDb _ =>
    rw [only] at toDb
    contradiction

theorem cas_only (listed : cd.Listed) (may : readOnly = false) (only : req.cacheOnly = true)
    (way : ServeWay Mallocs.plenty cd req (.cas key oldval newval) cd' e reply) :
    ServedOnly readOnly cd req (.cas key oldval newval) cd' e reply := by
  cases way with
  | casNomatch ran =>
    obtain ⟨rv, _⟩ | ⟨rv, _⟩ | ⟨_, ⟨v, held, other⟩, kept⟩ := cas_effect listed ran
    · contradiction
    · contradiction
    · apply ServedOnly.same (.inl may) (a := .differs) rfl _ kept
      simp only [Request.key, held, Request.perform, if_neg other]
  | casRefused ran =>
    obtain ⟨rv, _⟩ | ⟨rv, _⟩ | ⟨rv, _⟩ := cas_effect listed ran <;> contradiction
  | casHit ran _ =>
    obtain ⟨rv, _⟩ | ⟨_, held, changed⟩ | ⟨rv, _⟩ := cas_effect listed ran
    · contradiction
    · apply ServedOnly.changed (.inl may) (a := .done) rfl _ changed
      simp only [Request.key, held, Request.perform, if_true]
    · contradiction
  | casMiss ran passed missed _ =>
    obtain ⟨_, absent, kept⟩ | ⟨rv, _⟩ | ⟨rv, _⟩ := cas_effect listed ran
    · apply ServedOnly.same (.inl may) (a := .absent) rfl _ kept
      simp only [Request.key, absent, Request.perform]
    · exact absurd rv missed
    · exact absurd rv passed.1
  | casQueued _ _ toDb _ =>
    rw [only] at toDb
    contradiction

theorem incr_only (listed : cd.Listed) (may : readOnly = false) (only : req.cacheOnly = true)
    (defined : IncrDefined cd.lookup (.incr key increment))
    (way : ServeWay Mallocs.plenty cd req (.incr key increment) cd' e reply) :
    ServedOnly readOnly cd req (.incr key increment) cd' e reply := by
  cases way with
  | incrRefused ran =>
    obtain ⟨rv, _⟩ | ⟨rv, _⟩ | ⟨rv, _⟩ := incr_effect listed ran <;> contradiction
  | incrNomatch ran =>
    obtain ⟨rv, _⟩ | ⟨rv, _⟩ | ⟨_, ⟨v, held, other⟩, kept⟩ := incr_effect listed ran
    · contradiction
    · contradiction
    · apply ServedOnly.same (.inl may) (a := .differs) rfl _ kept
      simp only [Request.key, held, Request.perform, if_neg other]
  | incrQueued _ _ toDb _ =>
    rw [only] at toDb
    contradiction
  | incrMiss ran _ =>
    obtain ⟨_, absent, kept⟩ | ⟨rv, _⟩ | ⟨rv, _⟩ := incr_effect listed ran
    · apply ServedOnly.same (.inl may) (a := .absent) rfl _ kept
      simp only [Request.key, absent, Request.perform]
    · contradiction
    · contradiction
  | incrHit ran passed found _ =>
    obtain ⟨rv, _⟩ | ⟨_, v, held, number, changed⟩ | ⟨rv, _⟩ := incr_effect listed ran
    · exact absurd rv found
    · obtain ⟨_, _, effect⟩ := listed.exec (CacheOp.exec_incr ran)
      simp only [CacheOp.Effect, held, if_pos number] at effect
      obtain rfl := (CacheResult.incremented.inj effect.1).2
      rw [wrap64_eq ((defined v held).2 number)] at changed ⊢
      apply ServedOnly.changed (.inl may) (a := .value _) rfl _ changed
      simp only [Request.key, held, Request.perform, if_pos number]
    · exact absurd rv passed.2

theorem serve_only {s s' : Server Nat} (listed : s.cache.Listed) (mode : r.CacheMode req)
    (defined : IncrDefined s.cache.lookup r) (done : serve Mallocs.plenty s req r = .ok s') :
    s'.cache.Listed ∧ s'.cache.hashlen = s.cache.hashlen ∧ s'.settings = s.settings ∧ s'.queue = s.queue ∧
      ∃ x, s'.replies = s.replies ++ [(req, x)] ∧
        ServedOnly s.settings.readOnly s.cache req r s'.cache none (some x) := by
  rcases serve_way done with ⟨readOnly, writes, rfl⟩ | ⟨may, cd, e, reply, way, leaves⟩
  · refine ⟨listed, rfl, rfl, rfl, _, rfl, .answered (.of_same (a := (req, .refused)) ?_ ⟨rfl, rfl⟩)⟩
    rw [performOnly, if_pos (by simp [readOnly, writes])]
  · obtain ⟨listed', hashlen⟩ := way.listed listed
    obtain rfl := leaves.cache
    have mayWrite : r.writes = true → s.settings.readOnly = false := fun writes =>
      may.resolve_right (by rw [writes]; decide)
    have served : ServedOnly s.settings.readOnly s.cache req r s'.cache e reply := by
      cases r with
      | get key => exact get_only listed mode way
      | set key val => exact set_only listed (mayWrite rfl) mode way
      | del key => exact del_only listed (mayWrite rfl) mode way
      | cas key oldval newval => exact cas_only listed (mayWrite rfl) mode way
      | incr key increment => exact incr_only listed (mayWrite rfl) mode defined way
      | nextkey key => exact mode.elim
    cases served with
    | @answered x step =>
      exact ⟨listed', hashlen, leaves.settings, leaves.queue.trans (List.append_nil _), x, leaves.replies,
        .answered step⟩

end

/-- The map that takes every request at once and forgets nothing, and its answers. -/
def mapRun (readOnly : Bool) : KV → List (ReqInfo Nat × Request) → KV × List (ReqInfo Nat × Answer) :=
  Forgetful.run (fun x => x.2.key) (performOnly readOnly)

/-- An increment meets no empty value in that map and does not overflow. -/
def IncrementsDefined (readOnly : Bool) : KV → List (ReqInfo Nat × Request) → Prop :=
  Forgetful.Along (fun x => x.2.key) (performOnly readOnly) fun m x => IncrDefined m x.2

/-- The system in cache mode, beside the map that took all requests. -/
structure System.Cached {δ : Type} (n : Nat) (readOnly : Bool) (s : System δ) (m : KV) : Prop where
  listed : s.server.cache.Listed
  hashlen : s.server.cache.hashlen = n
  mayWrite : s.server.settings.readOnly = readOnly
  idle : s.pending = []
  part : Forgetful.Part s.server.cache.lookup m

section

variable {δ : Type} {n : Nat} {readOnly : Bool} {s t : System δ} {m : KV} {buf : Mem} {len : Nat}
  {r : Request}

theorem performOnly_blind : Forgetful.Blind (performOnly readOnly) := by
  rintro ⟨req, r⟩ v held x
  unfold performOnly at held ⊢
  split at held
  case isTrue => contradiction
  case isFalse serves =>
    rw [if_neg serves]
    cases r with
    | set key val => exact held
    | _ => contradiction

theorem IncrDefined.part {m' : KV} (part : Forgetful.Part m m') (defined : IncrDefined m' r) : IncrDefined m r := by
  cases r with
  | incr key increment => exact fun v held => defined v (part key v held)
  | _ => trivial

theorem IncrDefined.nonempty {cd : Cache} (defined : IncrDefined cd.lookup r) : IncrNonEmpty cd r.cacheOp := by
  cases r with
  | incr key increment => exact fun empty => (defined [] empty).1 rfl
  | _ => trivial

theorem System.Cached.message (cached : s.Cached n readOnly m) (db : DbConn δ) (found : decoded buf len = some r)
    (size : r.size ≤ maxSize) (mode : r.CacheMode (headerInfo (⟨s.parsed, 0, 0, 0⟩ : ReqInfo Nat) buf))
    (defined : IncrDefined m r) :
    (0 < n → ∃ t, s.step db (.message buf len) = .ok t) ∧ ∀ t, s.step db (.message buf len) = .ok t →
      t.Cached n readOnly (Forgetful.after (fun x => x.2.key) (performOnly readOnly) m
        (headerInfo ⟨s.parsed, 0, 0, 0⟩ buf, r)) ∧ t.db = s.db ∧ t.parsed = s.parsed + 1 ∧
      ∃ y, t.server.replies = s.server.replies ++ [y] ∧
        Forgetful.Step (fun x => x.2.key) (performOnly readOnly) (ChainFull n) Tells s.server.cache.lookup
          (headerInfo ⟨s.parsed, 0, 0, 0⟩ buf, r) y t.server.cache.lookup := by
  have here := defined.part cached.part
  constructor
  · intro buckets
    obtain ⟨server, done⟩ := serve_total (headerInfo ⟨s.parsed, 0, 0, 0⟩ buf) cached.listed (cached.hashlen ▸ buckets)
      here.nonempty
    refine ⟨{ s with server := server, parsed := s.parsed + 1 }, ?_⟩
    simp only [System.step, parseMessage_decoded found size, done, ok_bind, pure_ok]
  · intro t taken
    obtain ⟨⟨_, server⟩, parsed, same⟩ := bind_eq_ok.mp taken
    rw [parseMessage_decoded found size] at parsed
    obtain ⟨server', done, same'⟩ := bind_eq_ok.mp parsed
    cases same'
    cases same
    obtain ⟨listed, hashlen, settings, queue, x, replies, ⟨step⟩⟩ := serve_only cached.listed mode here done
    rw [cached.mayWrite, cached.hashlen] at step
    refine ⟨⟨listed, hashlen.trans cached.hashlen, ?_, ?_, step.part performOnly_blind cached.part⟩, rfl, rfl,
      _, replies, step⟩
    · rw [settings]
      exact cached.mayWrite
    · have idle := cached.idle
      rw [System.pending] at idle ⊢
      rw [queue]
      exact idle

/- The database thread has nothing to do. -/
theorem System.Cached.turn (cached : s.Cached n readOnly m) (db : DbConn δ) :
    s.step db .dequeue = .ok s ∧ s.step db .execute = .ok s := by
  obtain ⟨idle, empty⟩ := List.append_eq_nil_iff.mp cached.idle
  have hand : s.hand = none := Option.toList_eq_nil_iff.mp idle
  constructor
  · simp only [System.step, hand, empty]
  · simp only [System.step, hand]

theorem System.Cached.run (db : DbConn δ) (evs : List Event) (cached : s.Cached n readOnly m)
    (inMode : ∀ ev ∈ evs, ev.InCacheMode)
    (defined : IncrementsDefined readOnly m (requests s.parsed evs)) :
    (0 < n → ∃ t, Runs.run (System.step db) s evs = .ok t) ∧ ∀ t, Runs.run (System.step db) s evs = .ok t →
      t.Cached n readOnly (mapRun readOnly m (requests s.parsed evs)).1 ∧ t.db = s.db ∧
      ∃ new, t.server.replies = s.server.replies ++ new ∧
        Forgetful.Run (fun x => x.2.key) (performOnly readOnly) (ChainFull n) Tells s.server.cache.lookup
          (requests s.parsed evs) new t.server.cache.lookup := by
  induction evs generalizing s m with
  | nil =>
    refine ⟨fun _ => ⟨s, rfl⟩, fun t ran => ?_⟩
    cases ran
    exact ⟨cached, rfl, [], (List.append_nil _).symm, .nil⟩
  | cons ev rest ih =>
    have modes : ∀ ev' ∈ rest, ev'.InCacheMode := fun ev' member => inMode ev' (List.mem_cons_of_mem ev member)
    cases ev with
    | dequeue =>
      rw [Runs.run_cons_ok (cached.turn db).1]
      exact ih cached modes defined
    | execute =>
      rw [Runs.run_cons_ok (cached.turn db).2]
      exact ih cached modes defined
    | message buf len =>
      obtain ⟨r, found, size, mode⟩ := inMode _ List.mem_cons_self
      rw [requests_message found] at defined ⊢
      obtain ⟨total, steps⟩ := cached.message db found size mode defined.1
      constructor
      · intro buckets
        obtain ⟨u, taken⟩ := total buckets
        obtain ⟨next, _, parsed, _⟩ := steps u taken
        rw [Runs.run_cons_ok taken]
        exact (ih next modes (parsed ▸ defined.2)).1 buckets
      · intro t ran
        obtain ⟨u, taken, ran⟩ := Runs.run_cons_inv ran
        obtain ⟨next, same, parsed, y, replies, step⟩ := steps u taken
        have later := (ih next modes (parsed ▸ defined.2)).2 t ran
        rw [parsed] at later
        obtain ⟨last, same', new, replies', run⟩ := later
        refine ⟨last, same'.trans same, y :: new, ?_, .cons step run⟩
        rw [replies', replies, List.append_assoc]
        rfl

theorem System.start_cached {cdOk tableOk : Bool} {numobjs flags : Nat} {cd : Cache}
    (created : cacheCreate cdOk tableOk numobjs flags = some cd) (settings : Settings) (d : δ) :
    (System.start cd settings d).Cached cd.hashlen settings.readOnly fun _ => none := by
  obtain ⟨listed, empty⟩ := cacheCreate_listed created
  refine ⟨listed, rfl, rfl, rfl, fun k v held => ?_⟩
  rw [← empty k]
  exact held

/-- In cache mode nothing reaches the database, and the cache shows no value but those of the map
that took all requests. Every request is answered at once and in turn, as by that map or as if
its key were not there. Where increments are defined only a table without buckets stops a run. -/
theorem cache_mode_forgets (db : DbConn δ) {cdOk tableOk : Bool} {numobjs flags : Nat} {cd : Cache}
    (created : cacheCreate cdOk tableOk numobjs flags = some cd) (settings : Settings) (d : δ) {evs : List Event}
    (inMode : ∀ ev ∈ evs, ev.InCacheMode)
    (defined : IncrementsDefined settings.readOnly (fun _ => none) (requests 0 evs)) :
    (0 < cd.hashlen → ∃ s, Runs.run (System.step db) (System.start cd settings d) evs = .ok s) ∧
    ∀ s, Runs.run (System.step db) (System.start cd settings d) evs = .ok s →
      s.db = d ∧ s.pending = [] ∧
      (∀ k v, s.server.cache.lookup k = some v →
        (mapRun settings.readOnly (fun _ => none) (requests 0 evs)).1 k = some v) ∧
      List.Forall₂ (fun x y => Tells x.2 y ∨ Tells (performOnly settings.readOnly x.1 none).2 y)
        ((requests 0 evs).zip (mapRun settings.readOnly (fun _ => none) (requests 0 evs)).2) s.server.replies := by
  have initial := System.start_cached created settings d
  obtain ⟨ends, runs⟩ := initial.run db evs inMode defined
  refine ⟨ends, fun s ran => ?_⟩
  obtain ⟨last, same, new, replies, run⟩ := runs s ran
  obtain ⟨part, told⟩ := run.part performOnly_blind initial.part
  obtain rfl : s.server.replies = new := replies
  exact ⟨same, last.idle, part, told⟩

/-- Cache-only SETs of some keys, and a GET of the key 65. -/
def setsThenGet (keys : List UInt8) : List Event :=
  keys.map (fun k => .message (Mem.ofBytes [0x10, 0, 0, 0, 1, 2, 0, 1, 0, 0, 0, 1, 0, 0, 0, 1, k, 7]) 18) ++
    [.message (Mem.ofBytes [0x10, 0, 0, 0, 1, 1, 0, 1, 0, 0, 0, 1, 65]) 13]

theorem setsThenGet_inCacheMode {keys : List UInt8} (few : keys ⊆ [65, 66, 67, 68, 69]) :
    ∀ ev ∈ setsThenGet keys, ev.InCacheMode := by
  have sets : ∀ k ∈ [(65 : UInt8), 66, 67, 68, 69],
      decoded (Mem.ofBytes [0x10, 0, 0, 0, 1, 2, 0, 1, 0, 0, 0, 1, 0, 0, 0, 1, k, 7]) 18 = some (.set [k] [7]) ∧
      (headerInfo (⟨0, 0, 0, 0⟩ : ReqInfo Nat)
        (Mem.ofBytes [0x10, 0, 0, 0, 1, 2, 0, 1, 0, 0, 0, 1, 0, 0, 0, 1, k, 7])).cacheOnly = true := by decide +kernel
  intro ev member
  rcases List.mem_append.mp member with set | get
  · obtain ⟨k, key, rfl⟩ := List.mem_map.mp set
    exact ⟨.set [k] [7], (sets k (few key)).1, by simp [Request.size, maxSize], (sets k (few key)).2⟩
  · obtain rfl := List.mem_singleton.mp get
    exact ⟨.get [65], by decide, by decide, show ReqInfo.cacheOnly _ = true by decide⟩

theorem fourSets_requests : requests 0 (setsThenGet [65, 66, 67, 68]) =
    [(⟨0, 0, 0x102, 1⟩, .set [65] [7]), (⟨1, 0, 0x102, 1⟩, .set [66] [7]), (⟨2, 0, 0x102, 1⟩, .set [67] [7]),
      (⟨3, 0, 0x102, 1⟩, .set [68] [7]), (⟨4, 0, 0x101, 1⟩, .get [65])] := by
  decide

theorem fiveSets_requests : requests 0 (setsThenGet [65, 66, 67, 68, 69]) =
    [(⟨0, 0, 0x102, 1⟩, .set [65] [7]), (⟨1, 0, 0x102, 1⟩, .set [66] [7]), (⟨2, 0, 0x102, 1⟩, .set [67] [7]),
      (⟨3, 0, 0x102, 1⟩, .set [68] [7]), (⟨4, 0, 0x102, 1⟩, .set [69] [7]), (⟨5, 0, 0x101, 1⟩, .get [65])] := by
  decide

/- The fifth key takes the place of the first one. -/
theorem cache_mode_forgets_fifth :
    ∃ s, Runs.run (System.step mapDb) (System.start emptyCache ⟨false⟩ fun _ => none)
        (setsThenGet [65, 66, 67, 68, 69]) = .ok s ∧
      List.Forall₂ (fun x y => Tells x.2 y ∨ Tells (performOnly false x.1 none).2 y)
        ((requests 0 (setsThenGet [65, 66, 67, 68, 69])).zip
          (mapRun false (fun _ => none) (requests 0 (setsThenGet [65, 66, 67, 68, 69]))).2) s.server.replies ∧
      s.server.replies.getLast? = some (⟨5, 0, 0x101, 1⟩, .mini .cacheMiss) := by
  have defined : IncrementsDefined false (fun _ => none) (requests 0 (setsThenGet [65, 66, 67, 68, 69])) := by
    rw [fiveSets_requests]
    exact ⟨trivial, trivial, trivial, trivial, trivial, trivial, trivial⟩
  obtain ⟨ends, told⟩ := cache_mode_forgets mapDb emptyCache_created ⟨false⟩ (fun _ => none)
    (setsThenGet_inCacheMode fun _ member => member) defined
  obtain ⟨s, ran⟩ := ends (by decide)
  have last : (Runs.run (System.step mapDb) (System.start emptyCache ⟨false⟩ fun _ => none)
      (setsThenGet [65, 66, 67, 68, 69]) >>= fun s => pure s.server.replies.getLast?) =
        .ok (some (⟨5, 0, 0x101, 1⟩, .mini .cacheMiss)) := by decide +kernel
  rw [ran] at last
  exact ⟨s, ran, (told s ran).2.2.2, Except.ok.inj last⟩

/-- The keys that SETs bring. -/
def setKeys (xs : List (ReqInfo Nat × Request)) : List Bytes :=
  xs.filterMap fun x => match x.2 with
    | .set key _ => some key
    | _ => none

theorem setKeys_cons (x : ReqInfo Nat × Request) (rest : List (ReqInfo Nat × Request)) :
    ∀ k ∈ setKeys rest, k ∈ setKeys (x :: rest) := by
  intro k member
  obtain ⟨y, later, brings⟩ := List.mem_filterMap.mp member
  exact List.mem_filterMap.mpr ⟨y, List.mem_cons_of_mem x later, brings⟩

/- Only a SET makes a binding where there was none. -/
theorem after_keys {x : ReqInfo Nat × Request} {k : Bytes}
    (held : Forgetful.after (fun x => x.2.key) (performOnly readOnly) m x k ≠ none) :
    m k ≠ none ∨ ∃ val, x.2 = .set k val := by
  by_cases here : k = x.2.key
  · subst here
    rw [Forgetful.after, WriteBehind.apply_at] at held
    by_contra neither
    rw [not_or, not_not] at neither
    obtain ⟨absent, noSet⟩ := neither
    obtain ⟨v, made⟩ := Option.ne_none_iff_exists'.mp held
    rw [absent] at made
    obtain ⟨req, r⟩ := x
    unfold performOnly at made
    split at made
    case isTrue => contradiction
    case isFalse =>
      cases r with
      | set key val => exact noSet ⟨val, rfl⟩
      | _ => contradiction
  · rw [Forgetful.after, WriteBehind.apply, Function.update_of_ne here] at held
    exact .inl held

/- Where all keys together fit into their chains, no chain is full of others. -/
theorem never_full {keys : List Bytes} (room : ∀ h, (keys.dedup.filter fun k => hash k % n = h).length ≤ CHAINLEN)
    {xs : List (ReqInfo Nat × Request)} (held : ∀ k, m k ≠ none → k ∈ keys) (sets : ∀ k ∈ setKeys xs, k ∈ keys) :
    Forgetful.Along (fun x => x.2.key) (performOnly readOnly) (fun m x => ¬ ChainFull n m x) m xs := by
  induction xs generalizing m with
  | nil => exact trivial
  | cons x rest ih =>
    have brought : ∀ k val, x.2 = .set k val → k ∈ keys := fun k val set =>
      sets k (List.mem_filterMap.mpr ⟨x, List.mem_cons_self, by rw [set]⟩)
    constructor
    · rintro ⟨val, set, ks, distinct, length, others⟩
      have apart : x.2.key ∉ ks := fun member => (others _ member).1 rfl
      have within : x.2.key :: ks ⊆ keys.dedup.filter fun k => hash k % n = hash x.2.key % n := by
        intro k member
        rw [List.mem_filter, List.mem_dedup, decide_eq_true_eq]
        rcases List.mem_cons.mp member with rfl | member
        · exact ⟨brought _ val set, rfl⟩
        · exact ⟨held k (others k member).2.2, (others k member).2.1⟩
      have more := (List.subperm_of_subset (List.nodup_cons.mpr ⟨apart, distinct⟩) within).length_le
      have most := room (hash x.2.key % n)
      rw [List.length_cons, length] at more
      omega
    · apply ih
      · intro k there
        rcases after_keys there with before | ⟨val, set⟩
        · exact held k before
        · exact brought k val set
      · exact fun k member => sets k (setKeys_cons x rest k member)

/-- While the keys set fit into their chains, the cache is that map. -/
theorem cache_mode_exact (db : DbConn δ) {cdOk tableOk : Bool} {numobjs flags : Nat} {cd : Cache}
    (created : cacheCreate cdOk tableOk numobjs flags = some cd) (settings : Settings) (d : δ) {evs : List Event}
    (inMode : ∀ ev ∈ evs, ev.InCacheMode)
    (defined : IncrementsDefined settings.readOnly (fun _ => none) (requests 0 evs))
    (room : ∀ h, ((setKeys (requests 0 evs)).dedup.filter fun k => hash k % cd.hashlen = h).length ≤ CHAINLEN) :
    ∀ s, Runs.run (System.step db) (System.start cd settings d) evs = .ok s →
      s.server.cache.lookup = (mapRun settings.readOnly (fun _ => none) (requests 0 evs)).1 ∧
      List.Forall₂ Tells (mapRun settings.readOnly (fun _ => none) (requests 0 evs)).2 s.server.replies := by
  have initial := System.start_cached created settings d
  obtain ⟨ends, runs⟩ := initial.run db evs inMode defined
  intro s ran
  obtain ⟨_, _, new, replies, run⟩ := runs s ran
  have empty : (System.start cd settings d).server.cache.lookup = fun _ => none :=
    funext (cacheCreate_listed created).2
  rw [empty] at run
  obtain rfl : s.server.replies = new := replies
  exact run.exact (never_full room (fun k held => absurd rfl held) fun k member => member)

theorem cache_mode_exact_four :
    ∃ s, Runs.run (System.step mapDb) (System.start emptyCache ⟨false⟩ fun _ => none)
        (setsThenGet [65, 66, 67, 68]) = .ok s ∧
      s.server.cache.lookup = (mapRun false (fun _ => none) (requests 0 (setsThenGet [65, 66, 67, 68]))).1 ∧
      s.server.replies.getLast? = some (⟨4, 0, 0x101, 1⟩, .long .cacheHit [7]) := by
  have defined : IncrementsDefined false (fun _ => none) (requests 0 (setsThenGet [65, 66, 67, 68])) := by
    rw [fourSets_requests]
    exact ⟨trivial, trivial, trivial, trivial, trivial, trivial⟩
  have room : ∀ h, ((setKeys (requests 0 (setsThenGet [65, 66, 67, 68]))).dedup.filter fun k =>
      hash k % emptyCache.hashlen = h).length ≤ CHAINLEN := by
    intro h
    rw [fourSets_requests]
    exact List.length_filter_le _ _
  have last : (Runs.run (System.step mapDb) (System.start emptyCache ⟨false⟩ fun _ => none)
      (setsThenGet [65, 66, 67, 68]) >>= fun s => pure s.server.replies.getLast?) =
        .ok (some (⟨4, 0, 0x101, 1⟩, .long .cacheHit [7])) := by decide +kernel
  obtain ⟨s, ran, last⟩ := bind_eq_ok.mp last
  have exact := cache_mode_exact mapDb emptyCache_created ⟨false⟩ (fun _ => none)
    (setsThenGet_inCacheMode fun k member => List.mem_append_left [69] member) defined room s ran
  exact ⟨s, ran, exact.1, Except.ok.inj last⟩

end

end Nmdb
