import Nmdb.LevelDb

/-! SETs and DELs on their way to LevelDB. Whatever part of them still waits in the queue, the
database and the queue together lead to the map that all of them make in order. -/
namespace Nmdb

open WriteBehind

variable {δ σ ι ν : Type}

namespace Request

def Simple : Request → Prop
  | .set _ _ => True
  | .del _ => True
  | _ => False

/-- What a SET or a DEL makes of a map. -/
def onMap (m : KV) : Request → KV
  | .set key val => Function.update m key (some val)
  | .del key => Function.update m key none
  | _ => m

/-- The entry of a SET or DEL does to the map what the request is for. -/
theorem Simple.entry_apply {r : Request} (simple : r.Simple) (req : ReqInfo ν) (m : KV) :
    apply QueueEntry.mapKey QueueEntry.act m (r.entry req) = r.onMap m := by
  cases r with
  | set key val => rfl
  | del key => rfl
  | _ => exact simple.elim

theorem Simple.entry_plain {r : Request} (simple : r.Simple) (req : ReqInfo ν) : (r.entry req).Plain := by
  cases r with
  | set key val => exact ⟨nofun, nofun⟩
  | del key => exact ⟨nofun, nofun⟩
  | _ => exact simple.elim

end Request

theorem plain_of_reads {e : QueueEntry ν} (reads : e.operation.writes = false) : e.Plain := by
  constructor <;> intro op <;> rw [op] at reads <;> contradiction

def Route.request? : Route → Option Request
  | .request r => some r
  | _ => none

/-- The change of the database that a message asks for, if the server goes along with it. -/
def Event.write (readOnly : Bool) : Event → Option Request
  | .message buf len =>
    (route readOnly buf len).request?.filter fun r =>
      r.writes && !(headerInfo (ReqInfo.mk () 0 0 0) buf).cacheOnly
  | .dequeue => none
  | .execute => none

/-- A cache-only request queues nothing. -/
theorem ServeWay.silent {m : Mallocs} {cd cd' : Cache} {req : ReqInfo ν} {r : Request}
    {e : Option (QueueEntry ν)} {reply : Option Reply} (way : ServeWay m cd req r cd' e reply)
    (writes : r.writes = true) (only : req.cacheOnly = true) : e = none := by
  cases way with
  | getQueued => contradiction
  | nextkey => contradiction
  | setQueued _ toDb | delQueued _ toDb | casQueued _ _ toDb | incrQueued _ _ toDb =>
    rw [only] at toDb
    contradiction
  | _ => rfl

/-- What is queued for a message: look-ups only if it asks for no change, and the entry of the
SET or DEL it asks for. -/
structure Queues (readOnly : Bool) (ev : Event) (es : List (QueueEntry ν)) : Prop where
  reads : ev.write readOnly = none → ∀ e ∈ es, e.operation.writes = false
  entry : ∀ r, ev.write readOnly = some r → r.Simple → ∃ req, es = [r.entry req]

section

variable {s s' : Server ν} {req : ReqInfo ν} {buf : Mem} {len : Nat}

theorem write_none {readOnly : Bool} (other : (route readOnly buf len).request? = none) :
    (Event.message buf len).write readOnly = none := by
  rw [Event.write, other, Option.filter_none]

theorem write_request (req : ReqInfo ν) {readOnly : Bool} {r : Request}
    (way : route readOnly buf len = .request r) :
    (Event.message buf len).write readOnly =
      if r.writes && !(headerInfo req buf).cacheOnly then some r else none := by
  rw [Event.write, way, Route.request?, Option.filter_some]
  rfl

/- An entry of database mode for the SET or DEL that is served. -/
theorem ServeWay.entry (listed : s.cache.Listed) {cd : Cache} {r : Request} {e : Option (QueueEntry ν)}
    {reply : Option Reply} (way : ServeWay Mallocs.plenty s.cache req r cd e reply)
    (toDb : req.cacheOnly = false) (simple : r.Simple) : e = some (r.entry req) := by
  cases r with
  | set key val =>
    cases (set_served listed rfl toDb way : Served false req _ _ _ _ _) with
    | readOnly isReadOnly => contradiction
    | set => rfl
  | del key =>
    cases (del_served listed rfl way : Served false req _ _ _ _ _) with
    | readOnly isReadOnly => contradiction
    | del => rfl
    | cacheDel only =>
      rw [only] at toDb
      contradiction
  | _ => exact simple.elim

theorem follow_queues (listed : s.cache.Listed)
    (done : (route s.settings.readOnly buf len).follow Mallocs.plenty s (replyInfo req buf) = .ok s') :
    ∃ es, s'.queue = s.queue ++ es ∧ Queues s.settings.readOnly (.message buf len) es := by
  cases way : route s.settings.readOnly buf len with
  | firstkey =>
    rw [way] at done
    obtain ⟨e, reply, queued, leaves⟩ := parseFirstkey_way done
    refine ⟨_, leaves.queue, fun _ x waiting => ?_, fun r asked => ?_⟩
    · rw [queued.own x (Option.mem_toList.mp waiting)]
      rfl
    · rw [write_none (by rw [way]; rfl)] at asked
      contradiction
  | request r =>
    rw [way] at done
    obtain ⟨ver, may, _⟩ := route_request way
    have info : replyInfo req buf = headerInfo req buf := if_pos ver
    rw [info] at done
    have write := write_request req way
    rcases serve_way done with ⟨readOnly, writes, _⟩ | ⟨_, cd, e, reply, served, leaves⟩
    · rw [readOnly, writes] at may
      rcases may with no | no <;> contradiction
    · refine ⟨_, leaves.queue, fun none x waiting => ?_, fun r' asked simple => ?_⟩
      · have waiting := Option.mem_toList.mp waiting
        rw [served.own x waiting, entry_writes, ← Bool.not_eq_true]
        intro writes
        have only : (headerInfo req buf).cacheOnly = true := by
          rw [write, writes, Bool.true_and] at none
          simpa using none
        rw [served.silent writes only] at waiting
        contradiction
      · rw [write] at asked
        split at asked
        case isTrue both =>
          cases asked
          have toDb := (Bool.and_eq_true _ _ ▸ both).2
          refine ⟨headerInfo req buf, ?_⟩
          rw [served.entry listed ((Bool.not_eq_true' _).mp toDb) simple]
          rfl
        case isFalse => contradiction
  | _ =>
    rw [way] at done
    cases done
    refine ⟨[], (List.append_nil _).symm, fun _ => List.forall_mem_nil _, fun r asked => ?_⟩
    rw [write_none (by rw [way]; rfl)] at asked
    contradiction

end

namespace System

/-- The database with what waits in front of it leads to this map. -/
structure Leads (view : σ → KV) (m : KV) (s : System σ) : Prop where
  listed : s.server.cache.Listed
  one : s.OneReply
  plain : ∀ e ∈ s.pending, e.Plain
  drains : drained (view s.db) s.pending = m

section

variable {db : LevelDb σ ι} {view : σ → KV} {shows : ι → KV × Option Bytes} {m : KV} {s t : System σ}

theorem step_one {db : DbConn δ} {s t : System δ} {ev : Event} (one : s.OneReply)
    (taken : s.step db ev = .ok t) : t.OneReply := by
  rw [← turn_plenty] at taken
  exact one.turn taken

/-- What a message leaves: entries behind those that wait. -/
theorem step_queues {db : DbConn δ} {s t : System δ} {buf : Mem} {len : Nat}
    (listed : s.server.cache.Listed) (taken : s.step db (.message buf len) = .ok t) :
    t.server.cache.Listed ∧ t.server.settings = s.server.settings ∧ t.db = s.db ∧ t.hand = s.hand ∧
      ∃ es, t.pending = s.pending ++ es ∧
        Queues s.server.settings.readOnly (.message buf len) es := by
  obtain ⟨⟨understood, server⟩, parsed, same⟩ := bind_eq_ok.mp taken
  cases same
  obtain ⟨settings, cache⟩ := parseMessage_cache parsed
  have followed := parsed
  rw [parseMessage_route] at followed
  obtain ⟨s₁, followed, same⟩ := bind_eq_ok.mp followed
  cases same
  obtain ⟨es, queue, queues⟩ := follow_queues listed followed
  refine ⟨?_, settings, rfl, rfl, es, ?_, queues⟩
  · rcases cache with same | ⟨r, _, _, result, ran⟩
    · rw [same]
      exact listed
    · exact (listed.exec ran).1
  · simp only [pending, queue, List.append_assoc]

theorem step_settings {db : DbConn δ} {s t : System δ} {ev : Event} (listed : s.server.cache.Listed)
    (taken : s.step db ev = .ok t) : t.server.settings = s.server.settings := by
  cases ev with
  | message buf len => exact (step_queues listed taken).2.1
  | dequeue => exact (step_dequeue taken).2.2.2.1
  | execute =>
    rcases step_execute taken with ⟨_, rfl⟩ | ⟨_, _, _, _, _, rfl⟩
    · rfl
    · rfl

theorem drained_reads {m : KV} {es : List (QueueEntry ν)} (reads : ∀ e ∈ es, e.operation.writes = false) :
    drained m es = m := by
  induction es with
  | nil => rfl
  | cons e es ih =>
    rw [drained_cons, apply_reads (reads e List.mem_cons_self)]
    exact ih fun x later => reads x (List.mem_cons_of_mem e later)

namespace Leads

/-- A message puts its change behind the others. -/
theorem message {buf : Mem} {len : Nat} (leads : s.Leads view m)
    (simple : ∀ r, (Event.message buf len).write s.server.settings.readOnly = some r → r.Simple)
    (taken : s.step (xleveldbOpen db) (.message buf len) = .ok t) :
    t.Leads view (((Event.message buf len).write s.server.settings.readOnly).elim m (·.onMap m)) := by
  obtain ⟨listed, _, sameDb, _, es, pending, queues⟩ := step_queues leads.listed taken
  have one := step_one leads.one taken
  cases asked : (Event.message buf len).write s.server.settings.readOnly with
  | none =>
    have reads := queues.reads asked
    refine ⟨listed, one, fun e waiting => ?_, ?_⟩
    · rw [pending] at waiting
      rcases List.mem_append.mp waiting with before | new
      · exact leads.plain e before
      · exact plain_of_reads (reads e new)
    · rw [pending, sameDb, drained, drain_append]
      exact (drained_reads reads).trans leads.drains
  | some r =>
    obtain ⟨req, rfl⟩ := queues.entry r asked (simple r asked)
    refine ⟨listed, one, fun e waiting => ?_, ?_⟩
    · rw [pending] at waiting
      rcases List.mem_append.mp waiting with before | new
      · exact leads.plain e before
      · rw [List.mem_singleton.mp new]
        exact (simple r asked).entry_plain req
    · rw [pending, sameDb, drained, drain_concat, (simple r asked).entry_apply req]
      exact congrArg r.onMap leads.drains

theorem dequeue (leads : s.Leads view m) (taken : s.step (xleveldbOpen db) .dequeue = .ok t) :
    t.Leads view m := by
  obtain ⟨pending, sameDb, sameCache, _⟩ := step_dequeue taken
  refine ⟨sameCache ▸ leads.listed, step_one leads.one taken, pending ▸ leads.plain, ?_⟩
  rw [pending, sameDb]
  exact leads.drains

/-- The oldest entry goes into the database. -/
theorem execute (map : db.OrderedMap view shows) (leads : s.Leads view m)
    (taken : s.step (xleveldbOpen db) .execute = .ok t) : t.Leads view m := by
  have one := step_one leads.one taken
  rcases step_execute taken with ⟨_, rfl⟩ | ⟨e, d, r, busy, done, rfl⟩
  · exact leads
  · have pending : s.pending = e :: s.server.queue := by
      rw [System.pending, busy]
      rfl
    have plain := leads.plain
    have drains := leads.drains
    rw [pending] at plain drains
    rw [drained_cons, ← map.executed (plain e List.mem_cons_self) done] at drains
    exact ⟨leads.listed, one, fun x waiting => plain x (List.mem_cons_of_mem e waiting), drains⟩

theorem step (map : db.OrderedMap view shows) (leads : s.Leads view m) {ev : Event}
    (simple : ∀ r, ev.write s.server.settings.readOnly = some r → r.Simple)
    (taken : s.step (xleveldbOpen db) ev = .ok t) :
    t.Leads view ((ev.write s.server.settings.readOnly).elim m (·.onMap m)) := by
  cases ev with
  | message buf len => exact leads.message simple taken
  | dequeue => exact leads.dequeue taken
  | execute => exact leads.execute map taken

theorem run (map : db.OrderedMap view shows) (leads : s.Leads view m) {evs : List Event}
    (simple : ∀ ev ∈ evs, ∀ r, ev.write s.server.settings.readOnly = some r → r.Simple)
    (ran : Runs.run (System.step (xleveldbOpen db)) s evs = .ok t) :
    t.server.settings = s.server.settings ∧
      t.Leads view ((evs.filterMap (Event.write s.server.settings.readOnly)).foldl Request.onMap m) := by
  induction evs generalizing s m with
  | nil =>
    cases ran
    exact ⟨rfl, leads⟩
  | cons ev rest ih =>
    obtain ⟨u, taken, tail⟩ := Runs.run_cons_inv ran
    have kept := step_settings leads.listed taken
    have here := leads.step map (simple ev List.mem_cons_self) taken
    rw [← kept] at simple
    obtain ⟨settings, later⟩ := ih here (fun x member => simple x (List.mem_cons_of_mem ev member)) tail
    refine ⟨settings.trans kept, ?_⟩
    rw [kept] at later
    rw [List.filterMap_cons]
    cases asked : ev.write s.server.settings.readOnly with
    | none =>
      rw [asked] at later
      exact later
    | some r =>
      rw [asked] at later
      exact later

theorem start {cdOk tableOk : Bool} {numobjs flags : Nat} {cd : Cache}
    (created : cacheCreate cdOk tableOk numobjs flags = some cd) (settings : Settings) (d : σ) :
    (System.start cd settings d).Leads view (view d) where
  listed := (cacheCreate_listed created).1
  one _ := rfl
  plain _ waiting := absurd waiting List.not_mem_nil
  drains := rfl

end Leads

end

end System

/-- The keys a server of this kind stores fit the buffer of the database thread. -/
def KV.ShortKeys (m : KV) : Prop := ∀ k ∈ m.keys, k.length ≤ maxSize

theorem write_route {readOnly : Bool} {buf : Mem} {len : Nat} {r : Request}
    (asked : (Event.message buf len).write readOnly = some r) : route readOnly buf len = .request r := by
  have found := (Option.filter_eq_some_iff.mp asked).1
  cases way : route readOnly buf len with
  | request r' =>
    rw [way] at found
    exact congrArg Route.request (Option.some.inj found)
  | _ =>
    rw [way] at found
    contradiction

/-- A SET of a longer key is turned down. -/
theorem set_short {readOnly : Bool} {buf : Mem} {len : Nat} {key val : Bytes}
    (way : route readOnly buf len = .request (.set key val)) : key.length ≤ maxSize := by
  obtain ⟨_, _, c, _, ops, passed⟩ := route_request way
  cases c with
  | set =>
    cases ops
    simp only [SizesRefused, not_or, Nat.not_lt] at passed
    rw [slice_length]
    exact passed.2.2.1
  | _ => cases ops

theorem KV.keys_update (m : KV) (key : Bytes) (o : Option Bytes) :
    KV.keys (Function.update m key o) ⊆ insert key m.keys := by
  intro k member
  by_cases here : k = key
  · exact .inl here
  · rw [KV.keys, Set.mem_ofPred_eq, Function.update_of_ne here] at member
    exact .inr member

/-- Finitely many requests leave the keys finite in number. -/
theorem writes_finite {m : KV} (finite : m.keys.Finite) (rs : List Request) :
    (rs.foldl Request.onMap m).keys.Finite := by
  induction rs generalizing m with
  | nil => exact finite
  | cons r rest ih =>
    apply ih
    cases r with
    | set key val => exact (finite.insert key).subset (m.keys_update key (some val))
    | del key => exact (finite.insert key).subset (m.keys_update key none)
    | _ => exact finite

theorem write_short {readOnly : Bool} {ev : Event} {r : Request} (asked : ev.write readOnly = some r)
    {m : KV} (short : m.ShortKeys) : (r.onMap m).ShortKeys := by
  cases ev with
  | message buf len =>
    have way := write_route asked
    cases r with
    | set key val =>
      intro k member
      rcases m.keys_update key (some val) member with rfl | before
      · exact set_short way
      · exact short k before
    | del key =>
      intro k member
      by_cases here : k = key
      · subst here
        simp [Request.onMap, KV.keys] at member
      · exact short k ((m.keys_update key none member).resolve_left here)
    | _ => exact short
  | _ => contradiction

theorem writes_short {readOnly : Bool} {m : KV} (short : m.ShortKeys) (evs : List Event) :
    ((evs.filterMap (Event.write readOnly)).foldl Request.onMap m).ShortKeys := by
  induction evs generalizing m with
  | nil => exact short
  | cons ev rest ih =>
    rw [List.filterMap_cons]
    cases asked : ev.write readOnly with
    | none => exact ih short
    | some r => exact ih (write_short asked short)

end Nmdb
