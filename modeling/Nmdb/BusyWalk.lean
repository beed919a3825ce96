import Nmdb.KeyWalk
import Nmdb.Lib.Tour

/-! A walk through the keys of a server with the LevelDB backend while others write. A seek to
a key that has been deleted meanwhile stands at the next one, and the step after it passes over
that one. -/
namespace Nmdb

open KeyOrder WriteBehind

variable {σ ι ν : Type}

namespace LevelDb.OrderedMap

variable {db : LevelDb σ ι} {view : σ → KV} {shows : ι → KV × Option Bytes} {d d' : σ}

/-- A step beyond a key that is gone leads beyond the first one that is left. -/
theorem nextkey_gone (map : db.OrderedMap view shows) {key : Bytes} (nksize : Nat)
    (gone : key ∉ KV.keys (view d)) (short : ∀ k ∈ KV.keys (view d), k.length ≤ nksize) :
    ∃ o, Least {k ∈ KV.keys (view d) | key < k ∧ ¬ IsLeast {x ∈ KV.keys (view d) | key < x} k} o ∧
      xleveldbNextkey db d key nksize = (o, d) := by
  obtain ⟨same, sought⟩ := map.seek (db.createIterator d) key
  rw [map.created] at same sought
  have beyond : {x ∈ KV.keys (view d) | key ≤ x} = {x ∈ KV.keys (view d) | key < x} := by
    ext x
    constructor
    · rintro ⟨member, above⟩
      refine ⟨member, lt_of_le_of_ne above ?_⟩
      rintro rfl
      exact gone member
    · rintro ⟨member, above⟩
      exact ⟨member, le_of_lt above⟩
  rw [beyond] at sought
  cases stands : (shows (db.iterSeek (db.createIterator d) key)).2 with
  | none =>
    rw [stands] at sought
    refine ⟨none, ?_, by simp only [xleveldbNextkey, map.valid, stands]; rfl⟩
    ext k
    constructor
    · rintro ⟨member, above, _⟩
      have inside : k ∈ {x ∈ KV.keys (view d) | key < x} := ⟨member, above⟩
      rwa [show _ = (∅ : Set Bytes) from sought] at inside
    · intro inside
      contradiction
  | some first =>
    rw [stands] at sought
    obtain ⟨_, least⟩ := map.next _ first stands
    rw [same] at least
    have left : {k ∈ KV.keys (view d) | key < k ∧ ¬ IsLeast {x ∈ KV.keys (view d) | key < x} k} =
        {x ∈ KV.keys (view d) | first < x} := by
      ext k
      constructor
      · rintro ⟨member, above, apart⟩
        refine ⟨member, lt_of_le_of_ne (sought.2 ⟨member, above⟩) ?_⟩
        rintro rfl
        exact apart sought
      · rintro ⟨member, above⟩
        refine ⟨member, sought.1.2.trans above, fun isFirst => ?_⟩
        exact absurd (isFirst.2 sought.1) (not_le_of_gt above)
    rw [left]
    refine ⟨_, least, ?_⟩
    simp only [xleveldbNextkey, map.valid, stands, Option.isSome_some, Bool.not_true, Bool.false_eq_true,
      if_false]
    cases here : (shows (db.iterNext (db.iterSeek (db.createIterator d) key))).2 with
    | none => rfl
    | some k =>
      rw [here] at least
      rw [map.copyKey_eq here (short k least.1.1)]
      rfl

theorem get_key (map : db.OrderedMap view shows) {key v : Bytes} {vsize : Nat}
    (found : xleveldbGet db d key vsize = some v) : key ∈ KV.keys (view d) := by
  rw [xleveldbGet, map.get] at found
  cases held : view d key with
  | none =>
    rw [held] at found
    contradiction
  | some v' =>
    rw [KV.keys, Set.mem_ofPred_eq, held]
    rfl

theorem put_short (map : db.OrderedMap view shows) (short : (view d).ShortKeys) {key val : Bytes}
    (fits : key.length ≤ maxSize) : (view (xleveldbSet db d key val).2).ShortKeys := by
  intro k member
  rw [xleveldbSet, (map.put d key val).2] at member
  rcases (view d).keys_update key (some val) member with rfl | before
  · exact fits
  · exact short k before

/-- Only a SET brings in a key. -/
theorem executed_short (map : db.OrderedMap view shows) {e : QueueEntry Nat} {r : Option Reply}
    (short : (view d).ShortKeys) (fits : e.operation = .set → e.mapKey.length ≤ maxSize)
    (done : processOp (xleveldbOpen db) true d e = .ok (d', r)) : (view d').ShortKeys := by
  have keyFits : ∀ {v : Bytes}, (xleveldbOpen db).get d e.mapKey dbBufSize = some v → e.mapKey.length ≤ maxSize :=
    fun found => short _ (map.get_key found)
  cases processOp_way done with
  | setQuiet op | setRefused op | setDone op => exact map.put_short short (fits op)
  | delQuiet op | delNotin op | delDone op =>
    intro k member
    have member : k ∈ KV.keys (view (xleveldbDel db d e.mapKey).2) := member
    rw [xleveldbDel, (map.delete d e.mapKey).2] at member
    by_cases here : k = e.mapKey
    · subst here
      simp [KV.keys] at member
    · exact short k (((view d).keys_update e.mapKey none member).resolve_left here)
  | casRefused _ _ found | casDone _ _ found | incrRefused _ _ found | incrDone _ _ found =>
    exact map.put_short short (keyFits found)
  | noMemory missing => contradiction
  | firstkey op | nextkey op =>
    have reads : e.operation.writes = false := by rw [op]; rfl
    rw [processOp_reads (cursorsOnly db view) reads done]
    exact short
  | _ => exact short

end LevelDb.OrderedMap

/-- Of the keys put into the queue those of SETs fit the buffers. -/
theorem follow_short {s s' : Server ν} {req : ReqInfo ν} {buf : Mem} {len : Nat}
    (done : (route s.settings.readOnly buf len).follow Mallocs.plenty s (replyInfo req buf) = .ok s') :
    ∃ es, s'.queue = s.queue ++ es ∧ ∀ e ∈ es, e.operation = .set → e.mapKey.length ≤ maxSize := by
  cases way : route s.settings.readOnly buf len with
  | firstkey =>
    rw [way] at done
    obtain ⟨e, reply, queued, leaves⟩ := parseFirstkey_way done
    refine ⟨_, leaves.queue, fun x waiting op => ?_⟩
    rw [queued.own x (Option.mem_toList.mp waiting)] at op
    contradiction
  | request r =>
    rw [way] at done
    rcases serve_way done with ⟨_, _, rfl⟩ | ⟨_, cd, e, reply, served, leaves⟩
    · exact ⟨[], (List.append_nil _).symm, List.forall_mem_nil _⟩
    · refine ⟨_, leaves.queue, fun x waiting op => ?_⟩
      rw [served.own x (Option.mem_toList.mp waiting)] at op ⊢
      cases r with
      | set key val => exact set_short way
      | _ => contradiction
  | _ =>
    rw [way] at done
    cases done
    exact ⟨[], (List.append_nil _).symm, List.forall_mem_nil _⟩

namespace System

/-- What others may do to the server leaves keys that the database thread can hold. -/
structure Short (view : σ → KV) (readOnly : Bool) (s : System σ) : Prop where
  listed : s.server.cache.Listed
  one : s.OneReply
  settings : s.server.settings.readOnly = readOnly
  keys : (view s.db).ShortKeys
  sets : ∀ e ∈ s.pending, e.operation = .set → e.mapKey.length ≤ maxSize

namespace Short

variable {db : LevelDb σ ι} {view : σ → KV} {shows : ι → KV × Option Bytes} {readOnly : Bool} {s t : System σ}

theorem step (map : db.OrderedMap view shows) (short : s.Short view readOnly) {ev : Event}
    (taken : s.step (xleveldbOpen db) ev = .ok t) : t.Short view readOnly := by
  have one := step_one short.one taken
  have settings : t.server.settings.readOnly = readOnly :=
    (congrArg Settings.readOnly (step_settings short.listed taken)).trans short.settings
  cases ev with
  | message buf len =>
    obtain ⟨listed, _, sameDb, sameHand, _⟩ := step_queues short.listed taken
    obtain ⟨⟨understood, server⟩, parsed, same⟩ := bind_eq_ok.mp taken
    cases same
    rw [parseMessage_route] at parsed
    obtain ⟨s₁, followed, same⟩ := bind_eq_ok.mp parsed
    cases same
    obtain ⟨es, queue, fits⟩ := follow_short followed
    refine ⟨listed, one, settings, short.keys, fun e waiting => ?_⟩
    rw [pending, queue, ← List.append_assoc] at waiting
    rcases List.mem_append.mp waiting with before | new
    · exact short.sets e before
    · exact fits e new
  | dequeue =>
    obtain ⟨pending, sameDb, sameCache, _⟩ := step_dequeue taken
    refine ⟨sameCache ▸ short.listed, one, settings, sameDb ▸ short.keys, ?_⟩
    rw [pending]
    exact short.sets
  | execute =>
    rcases step_execute taken with ⟨_, rfl⟩ | ⟨e, d, r, busy, done, rfl⟩
    · exact short
    · have waiting : s.pending = e :: s.server.queue := by
        rw [pending, busy]
        rfl
      have sets := short.sets
      rw [waiting] at sets
      exact ⟨short.listed, one, settings, map.executed_short short.keys (sets e List.mem_cons_self) done,
        fun x later => sets x (List.mem_cons_of_mem e later)⟩

theorem run (map : db.OrderedMap view shows) (short : s.Short view readOnly) {evs : List Event}
    (ran : Runs.run (System.step (xleveldbOpen db)) s evs = .ok t) : t.Short view readOnly := by
  induction evs generalizing s with
  | nil =>
    cases ran
    exact short
  | cons ev rest ih =>
    obtain ⟨u, taken, tail⟩ := Runs.run_cons_inv ran
    exact ih (short.step map taken) tail

theorem start {cdOk tableOk : Bool} {numobjs flags : Nat} {cd : Cache}
    (created : cacheCreate cdOk tableOk numobjs flags = some cd) (settings : Settings) {d : σ}
    (short : (view d).ShortKeys) : (System.start cd settings d).Short view settings.readOnly where
  listed := (cacheCreate_listed created).1
  one _ := rfl
  settings := rfl
  keys := short
  sets _ waiting := absurd waiting List.not_mem_nil

end Short

end System

/-- A request of a walk, executed, is answered with the key the tour looks for. -/
theorem Due.looks {db : LevelDb σ ι} {view : σ → KV} {shows : ι → KV × Option Bytes}
    (map : db.OrderedMap view shows) {d : σ} {returned : List Bytes} {e : QueueEntry Nat}
    (due : Due returned e) (short : (view d).ShortKeys) (increasing : returned.Pairwise (· < ·))
    (a : Option (Option Bytes)) :
    ∃ o, Least (Tour.ahead ⟨KV.keys (view d), returned, a⟩) o ∧
      processOp (xleveldbOpen db) true d e = .ok (d, some (keyReply o)) := by
  cases due with
  | first op none =>
    subst none
    have all : Tour.ahead ⟨KV.keys (view d), [], a⟩ = KV.keys (view d) := by
      ext k
      simp [Tour.ahead, Tour.PassesOver, beyond]
    rw [all]
    exact map.firstkey_executed op short
  | next op last =>
    obtain ⟨before, split⟩ := List.getLast?_eq_some_iff.mp last
    have above : beyond (KV.keys (view d)) returned = {x ∈ KV.keys (view d) | e.mapKey < x} := by
      rw [split] at increasing ⊢
      exact beyond_concat increasing
    by_cases member : e.mapKey ∈ KV.keys (view d)
    · have all : Tour.ahead ⟨KV.keys (view d), returned, a⟩ = {x ∈ KV.keys (view d) | e.mapKey < x} := by
        rw [← above]
        ext k
        constructor
        · exact And.left
        · intro inside
          refine ⟨inside, ?_⟩
          rintro ⟨key, here, gone, _⟩
          obtain rfl := Option.some.inj (last.symm.trans here)
          exact gone member
      rw [all]
      exact map.nextkey_executed op member short
    · have rest : Tour.ahead ⟨KV.keys (view d), returned, a⟩ = {k ∈ KV.keys (view d) |
          e.mapKey < k ∧ ¬ IsLeast {x ∈ KV.keys (view d) | e.mapKey < x} k} := by
        ext k
        rw [Tour.ahead, above]
        constructor
        · rintro ⟨⟨inside, beyond⟩, apart⟩
          exact ⟨inside, beyond, fun first => apart ⟨e.mapKey, last, member, first⟩⟩
        · rintro ⟨inside, beyond, apart⟩
          refine ⟨⟨inside, beyond⟩, ?_⟩
          rintro ⟨key, here, _, first⟩
          obtain rfl := Option.some.inj (last.symm.trans here)
          exact apart first
      rw [rest]
      obtain ⟨o, least, found⟩ := map.nextkey_gone dbBufSize member short
      refine ⟨o, least, ?_⟩
      have found : xleveldbNextkey db d (e.key.getD []) dbBufSize = (o, d) := found
      simp only [processOp, op, xleveldbOpen, found, Bool.not_true, Bool.false_eq_true, if_false]
      cases o <;> rfl

namespace Walk

variable {db : LevelDb σ ι} {view : σ → KV} {shows : ι → KV × Option Bytes} {readOnly : Bool}
  {w w' : Walk σ} {t : System σ} {n place : ℕ}

/-- The answer on its way to the client; at the end it stays that there is none. -/
def told (w : Walk σ) : Option (Option Bytes) :=
  match w.phase with
  | .ready => none
  | .waiting n =>
    match w.system.answers n with
    | (_, .long .ok k) :: _ => some (some k)
    | (_, .mini .notin) :: _ => some none
    | _ => none
  | .ended => some none
  | .failed _ => none

def tour (view : σ → KV) (w : Walk σ) : Tour Bytes := ⟨KV.keys (view w.system.db), w.returned, w.told⟩

/-- The database thread looks for a key when it executes the request of the walk, and the
client hears of it at its next turn. -/
def label (w : Walk σ) : Turn → Tour.Label
  | .execute =>
    match w.phase, w.system.hand with
    | .waiting n, some e => if e.req.net = n ∧ e.owesReply = true then .look else .change
    | _, _ => .change
  | .client =>
    match w.told with
    | some (some _) => .hear
    | _ => .change
  | _ => .change

/-- The request waits in its place. -/
structure Asked (n place : ℕ) (w : Walk σ) : Prop where
  phase : w.phase = .waiting n
  entry : ∃ before e after, w.system.pending = before ++ e :: after ∧ before.length = place ∧
    e.req.net = n ∧ Due w.returned e

inductive Flight (w : Walk σ) : Prop
  | ready (phase : w.phase = .ready)
  | asked {n place : ℕ} (asked : w.Asked n place)
  | told {n : ℕ} {req : ReqInfo Nat} {o : Option Bytes} (phase : w.phase = .waiting n)
      (given : w.system.answers n = [(req, keyReply o)]) (short : ∀ k, o = some k → k.length ≤ maxSize)
  | ended (phase : w.phase = .ended)

structure Walking (view : σ → KV) (readOnly : Bool) (w : Walk σ) : Prop where
  short : w.system.Short view readOnly
  returned : ∀ k ∈ w.returned, k.length ≤ maxSize
  ordered : (w.tour view).Ordered
  flight : w.Flight

theorem told_answer {req : ReqInfo Nat} {o : Option Bytes} (phase : w.phase = .waiting n)
    (given : w.system.answers n = [(req, keyReply o)]) : w.told = some o := by
  rw [told, phase]
  simp only [given]
  cases o <;> rfl

theorem told_silent (phase : w.phase = .waiting n) (silent : w.system.answers n = []) : w.told = none := by
  rw [told, phase]
  simp only [silent]

theorem Asked.silent (one : w.system.OneReply) (asked : w.Asked n place) : w.system.answers n = [] := by
  obtain ⟨before, e, after, split, _, own, due⟩ := asked.entry
  exact one.silent (e := e) (by rw [split]; simp) own due.owes

/-- Where the server moves on and the request keeps waiting, the answer stays what it is. -/
theorem Flight.moved {db : DbConn σ} (flight : w.Flight) (one : w.system.OneReply) {ev : Event}
    (taken : w.system.step db ev = .ok t)
    (stays : ∀ n place, w.Asked n place → ∃ place', (Walk.mk t w.returned w.phase).Asked n place') :
    (Walk.mk t w.returned w.phase).Flight ∧ (Walk.mk t w.returned w.phase).told = w.told := by
  have after := System.step_one one taken
  cases flight with
  | ready phase =>
    refine ⟨.ready phase, ?_⟩
    rw [Walk.told, Walk.told, phase]
  | @asked n place asked =>
    obtain ⟨place', still⟩ := stays n place asked
    refine ⟨.asked still, ?_⟩
    rw [told_silent still.phase (still.silent after), told_silent asked.phase (asked.silent one)]
  | told phase given short =>
    have kept := after.kept taken given
    refine ⟨.told phase kept short, ?_⟩
    rw [told_answer (w := w) phase given]
    exact told_answer phase kept
  | ended phase =>
    refine ⟨.ended phase, ?_⟩
    rw [Walk.told, Walk.told, phase]

theorem Asked.message {db : DbConn σ} {buf : Mem} {len : Nat} (listed : w.system.server.cache.Listed)
    (asked : w.Asked n place) (taken : w.system.step db (.message buf len) = .ok t) :
    (Walk.mk t w.returned w.phase).Asked n place := by
  obtain ⟨_, _, _, _, es, pending, _⟩ := System.step_queues listed taken
  obtain ⟨before, e, after, split, here, own, due⟩ := asked.entry
  refine ⟨asked.phase, before, e, after ++ es, ?_, here, own, due⟩
  rw [pending, split, List.append_assoc, List.cons_append]

theorem Asked.dequeue {db : DbConn σ} (asked : w.Asked n place)
    (taken : w.system.step db .dequeue = .ok t) : (Walk.mk t w.returned w.phase).Asked n place := by
  obtain ⟨pending, _⟩ := System.step_dequeue taken
  refine ⟨asked.phase, ?_⟩
  rw [pending]
  exact asked.entry

/-- The entry in hand is that of the request, or the request moves up. -/
theorem Asked.hand {e : QueueEntry Nat} (asked : w.Asked n place) (busy : w.system.hand = some e) :
    (place = 0 ∧ e.req.net = n ∧ Due w.returned e) ∨
      ∃ next, place = next + 1 ∧ ∃ own ∈ w.system.server.queue, own.req.net = n ∧ Due w.returned own ∧
        ∀ u : System σ, u.pending = w.system.server.queue → (Walk.mk u w.returned w.phase).Asked n next := by
  obtain ⟨before, own, after, split, here, net, due⟩ := asked.entry
  have queue : e :: w.system.server.queue = before ++ own :: after := by
    rw [← split, System.pending, busy]
    rfl
  cases before with
  | nil =>
    obtain ⟨rfl, _⟩ := List.cons.inj queue
    exact .inl ⟨here.symm, net, due⟩
  | cons b before =>
    obtain ⟨rfl, rest⟩ := List.cons.inj queue
    refine .inr ⟨before.length, here.symm, own, by rw [rest]; simp, net, due, fun u same => ?_⟩
    exact ⟨asked.phase, before, own, after, same.trans rest, rfl, net, due⟩

end Walk

/-- No request waits twice for its reply. -/
theorem System.OneReply.twice {s : System σ} {e x : QueueEntry Nat} (one : s.OneReply) (busy : s.hand = some e)
    (owes : e.owesReply = true) (waits : x ∈ s.server.queue) (owesToo : x.owesReply = true) :
    x.req.net ≠ e.req.net := by
  intro same
  have count := one e.req.net
  have first : s.owed e.req.net = e :: s.server.queue.filter fun x =>
      x.owesReply && decide (x.req.net = e.req.net) := by
    rw [System.owed, System.pending, busy, Option.toList_some, List.singleton_append, List.filter_cons]
    simp [owes]
  have second : 0 < (s.server.queue.filter fun x => x.owesReply && decide (x.req.net = e.req.net)).length :=
    List.length_pos_of_mem (List.mem_filter.mpr ⟨waits, by simp [owesToo, same]⟩)
  rw [first, List.length_cons] at count
  split at count <;> omega

namespace Walk

variable {db : LevelDb σ ι} {view : σ → KV} {shows : ι → KV × Option Bytes} {readOnly : Bool}
  {w w' : Walk σ} {t : System σ} {n place : ℕ}

/-- What the server does besides changes the set and nothing else. -/
theorem Walking.moved (map : db.OrderedMap view shows) (walking : w.Walking view readOnly) {ev : Event}
    (taken : w.system.step (xleveldbOpen db) ev = .ok t)
    (stays : ∀ n place, w.Asked n place → ∃ place', (Walk.mk t w.returned w.phase).Asked n place') :
    (Walk.mk t w.returned w.phase).Walking view readOnly ∧
      (w.tour view).Step .change ((Walk.mk t w.returned w.phase).tour view) := by
  obtain ⟨flight, told⟩ := walking.flight.moved walking.short.one taken stays
  have here : (Walk.mk t w.returned w.phase).tour view =
      { w.tour view with now := KV.keys (view t.db) } := by
    rw [tour, told]
    rfl
  rw [here]
  have step := Tour.Step.change (w.tour view) (KV.keys (view t.db))
  refine ⟨⟨walking.short.step map taken, walking.returned, ?_, flight⟩, step⟩
  rw [here]
  exact walking.ordered.step step

/-- The request of the walk is executed, and its answer is what the tour looks for. -/
theorem Walking.looks (map : db.OrderedMap view shows) (walking : w.Walking view readOnly)
    (phase : w.phase = .waiting n) {e : QueueEntry Nat} (busy : w.system.hand = some e) (net : e.req.net = n)
    (owes : e.owesReply = true) (taken : w.system.step (xleveldbOpen db) .execute = .ok t) :
    (Walk.mk t w.returned w.phase).Walking view readOnly ∧
      (w.tour view).Step .look ((Walk.mk t w.returned w.phase).tour view) := by
  have one := walking.short.one
  have waits : e ∈ w.system.pending := List.mem_append_left _ (Option.mem_toList.mpr busy)
  have silent := one.silent waits net owes
  cases walking.flight with
  | ready other | ended other =>
    rw [phase] at other
    contradiction
  | told other given =>
    rw [phase] at other
    cases other
    rw [silent] at given
    contradiction
  | asked asked =>
    have other := asked.phase
    rw [phase] at other
    cases other
    rcases asked.hand busy with ⟨_, _, due⟩ | ⟨_, _, own, behind, same, due, _⟩
    · obtain ⟨o, least, executed⟩ := due.looks map walking.short.keys walking.ordered.1 w.told
      have step := walking.short.step map taken
      rcases System.step_execute taken with ⟨idle, _⟩ | ⟨x, d, r, held, done, moved⟩
      · rw [busy] at idle
        contradiction
      · rw [busy] at held
        cases held
        obtain ⟨sameDb, rfl⟩ := Prod.mk.inj (Except.ok.inj (done.symm.trans executed))
        have replies : t.server.replies = w.system.server.replies ++ [(e.req, keyReply o)] := by
          rw [moved]
          rfl
        have given : t.answers n = [(e.req, keyReply o)] := by
          rw [System.answers_append replies, silent]
          simp [net]
        have quiet : (w.tour view).answer = none := told_silent phase silent
        have answer : (Walk.mk t w.returned w.phase).told = some o := told_answer phase given
        have here : (Walk.mk t w.returned w.phase).tour view = { w.tour view with answer := some o } := by
          rw [tour, answer, moved, sameDb]
          rfl
        have look := Tour.Step.look quiet least
        rw [here]
        refine ⟨⟨step, walking.returned, ?_, .told phase given ?_⟩, look⟩
        · rw [here]
          exact walking.ordered.step look
        · rintro k rfl
          exact walking.short.keys k least.1.1.1
    · exact absurd (same.trans net.symm) (one.twice busy owes behind due.owes)

theorem Walking.execute (map : db.OrderedMap view shows) (walking : w.Walking view readOnly)
    (taken : w.system.step (xleveldbOpen db) .execute = .ok t) :
    (Walk.mk t w.returned w.phase).Walking view readOnly ∧
      (w.tour view).Step (w.label .execute) ((Walk.mk t w.returned w.phase).tour view) := by
  have one := walking.short.one
  rcases System.step_execute taken with ⟨idle, rfl⟩ | ⟨e, d, r, busy, done, moved⟩
  · have change : w.label .execute = .change := by
      rw [label, idle]
      cases w.phase <;> rfl
    rw [change]
    exact walking.moved map taken fun n place asked => ⟨place, asked⟩
  · have queue : t.pending = w.system.server.queue := by
      rw [moved]
      rfl
    by_cases own : ∃ n, w.phase = .waiting n ∧ e.req.net = n ∧ e.owesReply = true
    · obtain ⟨n, phase, net, owes⟩ := own
      have look : w.label .execute = .look := by
        simp only [label, phase, busy, net, owes, and_self, if_true]
      rw [look]
      exact walking.looks map phase busy net owes taken
    · have change : w.label .execute = .change := by
        rw [label, busy]
        split
        case h_1 n x phase here =>
          cases here
          exact if_neg fun both => own ⟨n, phase, both.1, both.2⟩
        case h_2 => rfl
      rw [change]
      apply walking.moved map taken
      intro n place asked
      rcases asked.hand busy with ⟨_, net, due⟩ | ⟨next, _, _, _, _, _, up⟩
      · exact absurd ⟨n, asked.phase, net, due.owes⟩ own
      · exact ⟨next, up t queue⟩

/-- The client sends the request that is due. -/
theorem Walking.asks {walker : Walker} (speaks : walker.Speaks readOnly) (walking : w.Walking view readOnly) :
    route readOnly (w.request walker).1 (w.request walker).2 = dueRoute w.returned := by
  unfold request dueRoute
  cases last : w.returned.getLast? with
  | none => exact speaks.firstkey
  | some k =>
    apply speaks.nextkey
    exact walking.returned k (List.mem_of_getLast? last)

theorem Walking.sends (map : db.OrderedMap view shows) {walker : Walker} (speaks : walker.Speaks readOnly)
    (walking : w.Walking view readOnly) (phase : w.phase = .ready)
    (taken : w.system.step (xleveldbOpen db) (.message (w.request walker).1 (w.request walker).2) = .ok t) :
    (Walk.mk t w.returned (.waiting w.system.parsed)).Walking view readOnly ∧
      (Walk.mk t w.returned (.waiting w.system.parsed)).Asked w.system.parsed w.system.pending.length ∧
      (Walk.mk t w.returned (.waiting w.system.parsed)).tour view = w.tour view := by
  have asks := walking.asks speaks
  rw [← walking.short.settings] at asks
  obtain ⟨e, pending, own, due⟩ := System.step_asks asks taken
  have short := walking.short.step map taken
  have asked : (Walk.mk t w.returned (.waiting w.system.parsed)).Asked w.system.parsed
      w.system.pending.length := ⟨rfl, w.system.pending, e, [], pending, rfl, own, due⟩
  have silent := told_silent asked.phase (asked.silent short.one)
  have quiet : w.told = none := by rw [told, phase]
  have same : (Walk.mk t w.returned (.waiting w.system.parsed)).tour view = w.tour view := by
    obtain ⟨_, _, sameDb, _⟩ := System.step_queues walking.short.listed taken
    rw [tour, tour, silent, quiet, sameDb]
  refine ⟨⟨short, walking.returned, ?_, .asked asked⟩, asked, same⟩
  rw [same]
  exact walking.ordered

theorem Walking.client (map : db.OrderedMap view shows) {walker : Walker} (speaks : walker.Speaks readOnly)
    (walking : w.Walking view readOnly) (taken : step (xleveldbOpen db) walker w .client = .ok w') :
    w'.Walking view readOnly ∧ (w.tour view).Step (w.label .client) (w'.tour view) := by
  have stays : (w.tour view).Step .change (w.tour view) := .change (w.tour view) _
  cases walking.flight with
  | ready phase =>
    simp only [step, phase] at taken
    obtain ⟨t, sent, same⟩ := bind_eq_ok.mp taken
    cases same
    obtain ⟨kept, _, same⟩ := walking.sends map speaks phase sent
    have change : w.label .client = .change := by simp only [label, told, phase]
    refine ⟨kept, ?_⟩
    rw [change]
    exact same.symm ▸ stays
  | asked asked =>
    have silent := asked.silent walking.short.one
    simp only [step, asked.phase, silent] at taken
    cases taken
    have change : w.label .client = .change := by simp only [label, told_silent asked.phase silent]
    refine ⟨walking, ?_⟩
    rw [change]
    exact stays
  | @told n req o phase given short =>
    have answer := told_answer phase given
    simp only [step, phase, given] at taken
    cases taken
    cases o with
    | none =>
      have change : w.label .client = .change := by simp only [label, answer]
      have same : (w.receive (keyReply none)).tour view = w.tour view := by
        rw [tour, tour, answer]
        rfl
      rw [change, same]
      exact ⟨⟨walking.short, walking.returned, same.symm ▸ walking.ordered, .ended rfl⟩, stays⟩
    | some k =>
      have hear : w.label .client = .hear := by simp only [label, answer]
      have heard : (w.tour view).Step .hear ((w.receive (keyReply (some k))).tour view) := .hear answer
      rw [hear]
      refine ⟨⟨walking.short, fun x member => ?_, walking.ordered.step heard, .ready rfl⟩, heard⟩
      rcases List.mem_append.mp member with before | here
      · exact walking.returned x before
      · rw [List.mem_singleton.mp here]
        exact short k rfl
  | ended phase =>
    simp only [step, phase] at taken
    cases taken
    have change : w.label .client = .change := by simp only [label, told, phase]
    refine ⟨walking, ?_⟩
    rw [change]
    exact stays

/-- Each turn is a step of the tour. -/
theorem tours (map : db.OrderedMap view shows) {walker : Walker} (speaks : walker.Speaks readOnly) :
    Tours (step (xleveldbOpen db) walker) (Walking view readOnly) (tour view) label := by
  have both : ∀ {w turn w'}, Walking view readOnly w → step (xleveldbOpen db) walker w turn = .ok w' →
      Walking view readOnly w' ∧ (w.tour view).Step (w.label turn) (w'.tour view) := by
    intro w turn w' walking taken
    cases turn with
    | other buf len =>
      obtain ⟨t, moved, same⟩ := bind_eq_ok.mp taken
      cases same
      exact walking.moved map moved fun n place asked => ⟨place, asked.message walking.short.listed moved⟩
    | dequeue =>
      obtain ⟨t, moved, same⟩ := bind_eq_ok.mp taken
      cases same
      exact walking.moved map moved fun n place asked => ⟨place, asked.dequeue moved⟩
    | execute =>
      obtain ⟨t, moved, same⟩ := bind_eq_ok.mp taken
      cases same
      exact walking.execute map moved
    | client => exact walking.client map speaks taken
  exact ⟨fun walking taken => (both walking taken).1, fun walking taken => (both walking taken).2⟩

/-- The request of the walk is executed when the last key returned is gone, and this key is
the first one beyond it. -/
def Skips (view : σ → KV) (k : Bytes) (w : Walk σ) (turn : Turn) : Prop :=
  w.label turn = .look ∧ ∃ last, w.returned.getLast? = some last ∧ last ∉ KV.keys (view w.system.db) ∧
    IsLeast {x ∈ KV.keys (view w.system.db) | last < x} k

theorem start_walking {s : System σ} (short : s.Short view readOnly) : (start s).Walking view readOnly where
  short := short
  returned := List.forall_mem_nil _
  ordered := ⟨.nil, nofun⟩
  flight := .ready rfl

/-- A walk while others write, under any schedule: the keys returned increase, and each was
there at some time; at its end the walk has returned every key that was there all the time,
but for those that it skipped. -/
theorem busy_walk {db : LevelDb σ ι} {view : σ → KV} {shows : ι → KV × Option Bytes}
    (map : db.OrderedMap view shows) {cdOk tableOk : Bool} {numobjs flags : Nat} {cd : Cache}
    (created : cacheCreate cdOk tableOk numobjs flags = some cd) (settings : Settings) {d : σ}
    (short : (view d).ShortKeys) {evs : List Event} {s : System σ}
    (ran : Runs.run (System.step (xleveldbOpen db)) (System.start cd settings d) evs = .ok s)
    {walker : Walker} (speaks : walker.Speaks settings.readOnly) {turns : List Turn} {w : Walk σ}
    (walked : Runs.run (step (xleveldbOpen db) walker) (start s) turns = .ok w) :
    w.returned.Pairwise (· < ·) ∧
      (∀ k ∈ w.returned, ¬ Runs.Along (step (xleveldbOpen db) walker)
        (fun w _ => k ∉ KV.keys (view w.system.db)) (start s) turns) ∧
      (w.phase = .ended → ∀ k,
        Runs.Along (step (xleveldbOpen db) walker) (fun w _ => k ∈ KV.keys (view w.system.db)) (start s) turns →
        (k ∈ w.returned ↔
          Runs.Along (step (xleveldbOpen db) walker) (fun w turn => ¬ Skips view k w turn) (start s) turns)) := by
  have stored := (System.Short.start created settings short).run map ran
  have walking : (start s).Walking view settings.readOnly := start_walking stored
  have tours := tours map speaks
  constructor
  · exact (tours.ordered walking walking.ordered walked).1
  · constructor
    · intro k member absent
      rcases tours.met_inside walking walked (.inl member) absent with none | none
      · contradiction
      · contradiction
    · intro ended k lasting
      have answer : (w.tour view).answer = some none := by simp only [tour, told, ended]
      exact tours.visited_iff walking rfl rfl walked answer lasting

/-- Keys 41, 42 and 43 are there; 41 is deleted once the walk has it. -/
def delWhileWalking : List Turn :=
  [.client, .dequeue, .execute, .client, .other (Mem.ofBytes [0x10, 0, 0, 0, 0x01, 0x03, 0, 0, 0, 0, 0, 1, 65]) 13,
    .dequeue, .execute, .client, .dequeue, .execute, .client, .client, .dequeue, .execute, .client]

def threeKeys : List (Bytes × Bytes) := [([65], [1]), ([66], [2]), ([67], [3])]

theorem threeKeys_short : (pairsView threeKeys).ShortKeys := by
  intro k member
  rw [pairsView_keys] at member
  have one : k = [65] ∨ k = [66] ∨ k = [67] := by simpa [Assoc.keys, threeKeys] using member
  rcases one with rfl | rfl | rfl <;> decide

/-- What is seen of a walk: the keys, and whether it has ended. -/
def seen (x : Except Fault (Walk σ)) : Option (List Bytes × Bool) :=
  match x with
  | .ok w => some (w.returned, match w.phase with | .ended => true | _ => false)
  | .error _ => none

theorem seen_ended {x : Except Fault (Walk σ)} {keys : List Bytes} (sees : seen x = some (keys, true)) :
    ∃ w, x = .ok w ∧ w.returned = keys ∧ w.phase = .ended := by
  cases x with
  | error e => contradiction
  | ok w =>
    obtain ⟨system, returned, phase⟩ := w
    cases phase with
    | ended =>
      obtain ⟨rfl, _⟩ := Prod.mk.inj (Option.some.inj sees)
      exact ⟨_, rfl, rfl, rfl⟩
    | _ => cases sees

theorem delWhileWalking_seen : seen (Runs.run (step (xleveldbOpen pairsDb) Walker.libnmdb)
    (start (System.start emptyCache ⟨false⟩ threeKeys)) delWhileWalking) = some ([[65], [67]], true) := by
  decide +kernel

theorem busy_walk_skips : ∃ w, Runs.run (step (xleveldbOpen pairsDb) Walker.libnmdb)
      (start (System.start emptyCache ⟨false⟩ threeKeys)) delWhileWalking = .ok w ∧
    w.phase = .ended ∧ w.returned = [[65], [67]] ∧
    ¬ Runs.Along (step (xleveldbOpen pairsDb) Walker.libnmdb) (fun w turn => ¬ Skips pairsView [66] w turn)
      (start (System.start emptyCache ⟨false⟩ threeKeys)) delWhileWalking := by
  have lasting : Runs.Along (step (xleveldbOpen pairsDb) Walker.libnmdb)
      (fun w _ => (pairsView w.system.db [66]).isSome = true)
      (start (System.start emptyCache ⟨false⟩ threeKeys)) delWhileWalking := by
    decide +kernel
  obtain ⟨w, walked, returned, ended⟩ := seen_ended delWhileWalking_seen
  have short := threeKeys_short
  have began : Runs.run (System.step (xleveldbOpen pairsDb)) (System.start emptyCache ⟨false⟩ threeKeys) [] =
    .ok (System.start emptyCache ⟨false⟩ threeKeys) := rfl
  obtain ⟨_, _, complete⟩ := busy_walk pairsDb_ordered emptyCache_created ⟨false⟩ short began
    (Walker.libnmdb_speaks false) walked
  refine ⟨w, walked, ended, returned, fun along => ?_⟩
  have found := (complete ended [66] lasting).mpr along
  rw [returned] at found
  exact absurd found (by decide)

section

variable {F : Set Bytes} {r : ℕ ×ₗ ℕ ×ₗ ℕ} {h turn : Turn} {db : LevelDb σ ι} {walker : Walker}

/-- The walk has met keys of this set only. -/
def Within (F : Set Bytes) (w : Walk σ) : Prop := ∀ k, Tour.Met k ⟨∅, w.returned, w.told⟩ → k ∈ F

/-- The stages of a request while others write, each with the turn that leads on. -/
inductive BusyStage (view : σ → KV) (readOnly : Bool) (F : Set Bytes) :
    ℕ ×ₗ ℕ ×ₗ ℕ → Turn → Walk σ → Prop
  | ready {w : Walk σ} (walking : w.Walking view readOnly) (within : w.Within F) (phase : w.phase = .ready) :
      BusyStage view readOnly F (rank (F.ncard - w.returned.length) 2 0) .client w
  | queued {w : Walk σ} {n place : ℕ} (walking : w.Walking view readOnly) (within : w.Within F)
      (asked : w.Asked n place) (idle : w.system.hand = none) :
      BusyStage view readOnly F (rank (F.ncard - w.returned.length) 1 (2 * place + 2)) .dequeue w
  | busy {w : Walk σ} {n place : ℕ} {e : QueueEntry Nat} (walking : w.Walking view readOnly)
      (within : w.Within F) (asked : w.Asked n place) (busy : w.system.hand = some e) :
      BusyStage view readOnly F (rank (F.ncard - w.returned.length) 1 (2 * place + 1)) .execute w
  | answered {w : Walk σ} {n : ℕ} {req : ReqInfo Nat} {o : Option Bytes} (walking : w.Walking view readOnly)
      (within : w.Within F) (phase : w.phase = .waiting n) (given : w.system.answers n = [(req, keyReply o)]) :
      BusyStage view readOnly F (rank (F.ncard - w.returned.length) 0 0) .client w

/-- The server gets through the turn, and the database holds keys of this set only. -/
def Bounded (db : LevelDb σ ι) (view : σ → KV) (walker : Walker) (F : Set Bytes) (w : Walk σ) (turn : Turn) :
    Prop :=
  (∃ w', step (xleveldbOpen db) walker w turn = .ok w') ∧ KV.keys (view w.system.db) ⊆ F

theorem Within.step (within : w.Within F) (inside : KV.keys (view w.system.db) ⊆ F) {l : Tour.Label}
    (taken : (w.tour view).Step l (w'.tour view)) : w'.Within F := by
  intro k met
  rcases Tour.met_step taken met with before | present
  · exact within k before
  · exact inside present

theorem Asked.busyStage (walking : w.Walking view readOnly) (within : w.Within F) (asked : w.Asked n place) :
    ∃ turns h, turns ≤ 2 * place + 2 ∧
      BusyStage view readOnly F (rank (F.ncard - w.returned.length) 1 turns) h w := by
  cases hand : w.system.hand with
  | none => exact ⟨_, _, Nat.le_refl _, .queued walking within asked hand⟩
  | some e => exact ⟨_, _, Nat.le_succ _, .busy walking within asked hand⟩

theorem BusyStage.walking (stage : BusyStage view readOnly F r h w) : w.Walking view readOnly ∧ w.Within F := by
  cases stage with
  | ready walking within | queued walking within | busy walking within | answered walking within =>
    exact ⟨walking, within⟩

/-- A turn of the server or of another client. -/
def eventOf : Turn → Option Event
  | .other buf len => some (.message buf len)
  | .dequeue => some .dequeue
  | .execute => some .execute
  | .client => none

theorem other_turn {turn' : Turn} {ev : Event} (own : eventOf turn = some ev) (other : eventOf turn' ≠ some ev) :
    turn ≠ turn' := by
  rintro rfl
  exact other own

/-- The server gets on with the request, or with something else. -/
theorem BusyStage.serves (map : db.OrderedMap view shows) (stage : BusyStage view readOnly F r h w) {ev : Event}
    (taken : w.system.step (xleveldbOpen db) ev = .ok t)
    (walking : (Walk.mk t w.returned w.phase).Walking view readOnly)
    (within : (Walk.mk t w.returned w.phase).Within F)
    (own : eventOf turn = some ev) :
    (∃ r' h', r' < r ∧ BusyStage view readOnly F r' h' (Walk.mk t w.returned w.phase)) ∨
      turn ≠ h ∧ BusyStage view readOnly F r h (Walk.mk t w.returned w.phase) := by
  have apart : turn ≠ .client := other_turn own (by simp [eventOf])
  cases stage with
  | ready _ _ phase => exact .inr ⟨apart, .ready walking within phase⟩
  | answered before _ phase given =>
    exact .inr ⟨apart, .answered walking within phase (walking.short.one.kept taken given)⟩
  | queued before _ asked idle =>
    cases ev with
    | message buf len =>
      obtain ⟨_, _, _, hand, _⟩ := System.step_queues before.short.listed taken
      have still := asked.message before.short.listed taken
      exact .inr ⟨other_turn own (by simp [eventOf]), .queued walking within still (hand.trans idle)⟩
    | dequeue =>
      have still := asked.dequeue taken
      cases hand : t.hand with
      | some e => exact .inl ⟨_, _, rank_turns (Nat.lt_succ_self _), .busy walking within still hand⟩
      | none =>
        obtain ⟨front, e, rest, split, _⟩ := asked.entry
        rw [System.pending, idle, Option.toList_none, List.nil_append] at split
        simp only [System.step, idle, split] at taken
        cases front with
        | nil =>
          cases taken
          contradiction
        | cons b front =>
          cases taken
          contradiction
    | execute =>
      simp only [System.step, idle] at taken
      cases taken
      exact .inr ⟨other_turn own (by simp [eventOf]), .queued walking within asked idle⟩
  | @busy _ n place e before _ asked busy =>
    cases ev with
    | message buf len =>
      obtain ⟨_, _, _, hand, _⟩ := System.step_queues before.short.listed taken
      have still := asked.message before.short.listed taken
      exact .inr ⟨other_turn own (by simp [eventOf]), .busy walking within still (hand.trans busy)⟩
    | dequeue =>
      simp only [System.step, busy] at taken
      cases taken
      exact .inr ⟨other_turn own (by simp [eventOf]), .busy walking within asked busy⟩
    | execute =>
      left
      rcases System.step_execute taken with ⟨idle, _⟩ | ⟨x, d, reply, held, done, moved⟩
      · rw [busy] at idle
        contradiction
      · rcases asked.hand busy with ⟨_, net, due⟩ | ⟨next, rfl, _, _, _, _, up⟩
        · obtain ⟨_, look⟩ := before.looks map asked.phase busy net due.owes taken
          obtain ⟨o, answer⟩ := look.answered
          have told : (Walk.mk t w.returned w.phase).told = some o := answer
          cases walking.flight with
          | ready other | ended other =>
            rw [asked.phase] at other
            contradiction
          | asked still =>
            rw [told_silent still.phase (still.silent walking.short.one)] at told
            contradiction
          | told phase given =>
            exact ⟨_, _, rank_phase Nat.zero_lt_one, .answered walking within phase given⟩
        · have idle : t.hand = none := by rw [moved]
          have later := up t (by rw [moved]; rfl)
          exact ⟨_, _, rank_turns (by omega), .queued walking within later idle⟩

theorem Walking.length_le (walking : w.Walking view readOnly) (within : w.Within F) (finite : F.Finite) :
    w.returned.length ≤ F.ncard := by
  have nodup : w.returned.Nodup := walking.ordered.1.imp fun less => ne_of_lt less
  rw [← List.toFinset_card_of_nodup nodup, ← Set.ncard_coe_finset]
  apply Set.ncard_le_ncard _ finite
  intro k member
  exact within k (.inl (List.mem_toFinset.mp member))

/-- Every turn leads to the end, or on, or it is not the one that is waited for. -/
theorem BusyStage.progress (map : db.OrderedMap view shows) (speaks : walker.Speaks readOnly) (finite : F.Finite)
    (stage : BusyStage view readOnly F r h w) (bounded : Bounded db view walker F w turn) :
    ∃ w', step (xleveldbOpen db) walker w turn = .ok w' ∧ (w'.phase = .ended ∨
      (∃ r' h', r' < r ∧ BusyStage view readOnly F r' h' w') ∨ turn ≠ h ∧ BusyStage view readOnly F r h w') := by
  obtain ⟨⟨w', taken⟩, inside⟩ := bounded
  refine ⟨w', taken, ?_⟩
  obtain ⟨before, metBefore⟩ := stage.walking
  have walking := (tours map speaks).kept before taken
  have within := metBefore.step inside ((tours map speaks).taken before taken)
  cases turn with
  | other buf len =>
    obtain ⟨t, moved, same⟩ := bind_eq_ok.mp taken
    cases same
    exact .inr (stage.serves map moved walking within rfl)
  | dequeue =>
    obtain ⟨t, moved, same⟩ := bind_eq_ok.mp taken
    cases same
    exact .inr (stage.serves map moved walking within rfl)
  | execute =>
    obtain ⟨t, moved, same⟩ := bind_eq_ok.mp taken
    cases same
    exact .inr (stage.serves map moved walking within rfl)
  | client =>
    cases stage with
    | ready _ _ phase =>
      simp only [step, phase] at taken
      obtain ⟨t, sent, same⟩ := bind_eq_ok.mp taken
      cases same
      obtain ⟨_, asked, _⟩ := before.sends map speaks phase sent
      obtain ⟨turns, h, _, stage⟩ := asked.busyStage walking within
      exact .inr (.inl ⟨_, _, rank_phase (Nat.lt_succ_self 1), stage⟩)
    | queued _ _ asked idle =>
      simp only [step, asked.phase, asked.silent before.short.one] at taken
      cases taken
      exact .inr (.inr ⟨Turn.noConfusion, .queued walking within asked idle⟩)
    | busy _ _ asked busy =>
      simp only [step, asked.phase, asked.silent before.short.one] at taken
      cases taken
      exact .inr (.inr ⟨Turn.noConfusion, .busy walking within asked busy⟩)
    | @answered _ n req o _ _ phase given =>
      simp only [step, phase, given] at taken
      cases taken
      cases o with
      | none => exact .inl rfl
      | some k =>
        have longer := walking.length_le within finite
        have length : (w.receive (keyReply (some k))).returned.length = w.returned.length + 1 :=
          List.length_append
        rw [length] at longer
        refine .inr (.inl ⟨_, _, rank_left ?_, .ready walking within rfl⟩)
        rw [length]
        omega

end

/-- However the others write, as long as the keys of the database stay within a finite set a
walk ends under every fair schedule. -/
theorem busy_walk_ends {db : LevelDb σ ι} {view : σ → KV} {shows : ι → KV × Option Bytes}
    (map : db.OrderedMap view shows) {cdOk tableOk : Bool} {numobjs flags : Nat} {cd : Cache}
    (created : cacheCreate cdOk tableOk numobjs flags = some cd) (settings : Settings) {d : σ}
    (short : (view d).ShortKeys) {evs : List Event} {s : System σ}
    (ran : Runs.run (System.step (xleveldbOpen db)) (System.start cd settings d) evs = .ok s)
    {walker : Walker} (speaks : walker.Speaks settings.readOnly) {F : Set Bytes} (finite : F.Finite)
    {schedule : ℕ → Turn} (fair : ∀ turn ∈ [Turn.dequeue, .execute, .client], Runs.Fair schedule turn)
    (bounded : ∀ n, Runs.Along (step (xleveldbOpen db) walker) (Bounded db view walker F) (start s)
      (Runs.first schedule n)) :
    ∃ n w, Runs.run (step (xleveldbOpen db) walker) (start s) (Runs.first schedule n) = .ok w ∧
      w.phase = .ended := by
  have stored := (System.Short.start created settings short).run map ran
  have within : (start s).Within F := by
    intro k met
    rcases met with none | none
    · contradiction
    · contradiction
  apply Runs.eventually (BusyStage view settings.readOnly F) _ _ bounded
    (.ready (start_walking stored) within rfl)
  · intro r h w turn stage bounded
    exact stage.progress map speaks finite bounded
  · intro r h w stage
    apply fair
    cases stage <;> simp

/-- The same turns, and then all in turn. -/
def delThenRoundRobin (i : ℕ) : Turn := delWhileWalking.getD i (roundRobin i)

theorem delThenRoundRobin_late {i : ℕ} (late : 15 ≤ i) : delThenRoundRobin i = roundRobin i := by
  have past : delWhileWalking[i]? = none := List.getElem?_eq_none late
  rw [delThenRoundRobin, List.getD_eq_getElem?_getD, past]
  rfl

theorem first_delThenRoundRobin : Runs.first delThenRoundRobin 15 = delWhileWalking := rfl

theorem delThenRoundRobin_fair :
    ∀ turn ∈ [Turn.dequeue, .execute, .client], Runs.Fair delThenRoundRobin turn := by
  intro turn member i
  obtain ⟨j, later, here⟩ := roundRobin_fair turn member (i + 15)
  refine ⟨j, Nat.le_of_add_right_le later, ?_⟩
  rw [delThenRoundRobin_late (Nat.le_trans (Nat.le_add_left _ _) later), here]

def known (d : List (Bytes × Bytes)) : Bool := (Assoc.keys d).all fun k => (Assoc.get k threeKeys).isSome

/-- A walk at its end, with nothing left to do, and only the keys of before. -/
def Rests (w : Walk (List (Bytes × Bytes))) : Bool :=
  w.system.hand.isNone && w.system.server.queue.isEmpty && (match w.phase with | .ended => true | _ => false) &&
    known w.system.db

theorem keys_bounded {d : List (Bytes × Bytes)} (bounded : known d = true) :
    KV.keys (pairsView d) ⊆ KV.keys (pairsView threeKeys) := by
  rw [pairsView_keys, pairsView_keys]
  intro k member
  exact (Assoc.get_isSome_iff k threeKeys).mp (List.all_eq_true.mp bounded k member)

theorem rests_stay {w : Walk (List (Bytes × Bytes))} (rests : Rests w = true) (i : ℕ) :
    step (xleveldbOpen pairsDb) Walker.libnmdb w (roundRobin i) = .ok w ∧
      Bounded pairsDb pairsView Walker.libnmdb (KV.keys (pairsView threeKeys)) w (roundRobin i) := by
  simp only [Rests, Bool.and_eq_true, Option.isNone_iff_eq_none, List.isEmpty_iff] at rests
  obtain ⟨⟨⟨idle, empty⟩, atEnd⟩, keys⟩ := rests
  have ended : w.phase = .ended := by
    cases phase : w.phase with
    | ended => rfl
    | _ =>
      rw [phase] at atEnd
      contradiction
  have stays : step (xleveldbOpen pairsDb) Walker.libnmdb w (roundRobin i) = .ok w := by
    unfold roundRobin
    split
    · simp only [step, ended]
    · split
      · simp only [step, System.step, idle, empty, ok_bind, pure_ok]
      · simp only [step, System.step, idle, ok_bind, pure_ok]
  exact ⟨stays, ⟨w, stays⟩, keys_bounded keys⟩

theorem busy_walk_ends_del : ∃ n w, Runs.run (step (xleveldbOpen pairsDb) Walker.libnmdb)
      (start (System.start emptyCache ⟨false⟩ threeKeys)) (Runs.first delThenRoundRobin n) = .ok w ∧
    w.phase = .ended := by
  have began : Runs.run (System.step (xleveldbOpen pairsDb)) (System.start emptyCache ⟨false⟩ threeKeys) [] =
    .ok (System.start emptyCache ⟨false⟩ threeKeys) := rfl
  have ends : (Runs.run (step (xleveldbOpen pairsDb) Walker.libnmdb)
      (start (System.start emptyCache ⟨false⟩ threeKeys)) delWhileWalking).toOption.all Rests = true := by
    decide +kernel
  have along : Runs.Along (step (xleveldbOpen pairsDb) Walker.libnmdb)
      (fun w turn => (step (xleveldbOpen pairsDb) Walker.libnmdb w turn).isOk = true ∧
        known w.system.db = true)
      (start (System.start emptyCache ⟨false⟩ threeKeys)) delWhileWalking := by
    decide +kernel
  obtain ⟨w, walked, _, _⟩ := seen_ended delWhileWalking_seen
  rw [walked] at ends
  rw [← first_delThenRoundRobin] at walked along
  apply busy_walk_ends pairsDb_ordered emptyCache_created ⟨false⟩ threeKeys_short began
    (Walker.libnmdb_speaks false) (pairsDb_ordered.finite threeKeys) delThenRoundRobin_fair
  apply Runs.along_rest walked
  · apply along.mono
    rintro w turn ⟨ok, keys⟩
    refine ⟨?_, keys_bounded keys⟩
    cases taken : step (xleveldbOpen pairsDb) Walker.libnmdb w turn with
    | error e =>
      rw [taken] at ok
      contradiction
    | ok w' => exact ⟨w', rfl⟩
  · intro i late
    rw [delThenRoundRobin_late late]
    exact (rests_stay ends i).1
  · intro i late
    rw [delThenRoundRobin_late late]
    exact (rests_stay ends i).2

end Walk

end Nmdb
