import Nmdb.BufferBalance
import Nmdb.Lib.LinkedQueue

/-! The operation queue in memory: entries linked to each other, from queue_create to
queue_free. It is the list of entries that the other modules take it for. -/
namespace Nmdb.Live

open Ownership Runs

variable {δ ν : Type}

/-- An entry in memory, with its link to the entry put after it. -/
structure Node (ν : Type) where
  entry : Entry
  op : QueueEntry ν
  prev : Pointer

/-- A struct queue, without its lock. -/
structure Queue where
  self : Nat
  size : Nat
  top : Pointer
  bottom : Pointer

structure Linked (δ ν : Type) where
  heap : Heap
  node : Nat → Option (Node ν)
  queue : Queue
  db : δ

theorem Beside.perm {α : Type} {left left' : List Nat} {plain : Except Fault α} {live : Except Fault (α × Heap)}
    (beside : Beside left plain live) (same : left.Perm left') : Beside left' plain live := by
  cases plain with
  | error f => exact beside
  | ok x =>
    obtain ⟨h, done, owns⟩ := beside
    exact ⟨h, done, owns.perm same⟩

namespace Linked

/-- Only what is allocated can be read. -/
def load (s : Linked δ ν) (p : Nat) : Except Fault (Node ν) :=
  if p ∈ s.heap.live then
    match s.node p with
    | some n => .ok n
    | none => .error .uninitialised
  else .error .outOfBounds

def store (s : Linked δ ν) (p : Nat) (n : Node ν) : Linked δ ν := { s with node := Function.update s.node p (some n) }

def queueCreate (ok : Bool) (h : Heap) : Option Queue × Heap :=
  match malloc ok h with
  | (none, h) => (none, h)
  | (some q, h) => (some ⟨q, 0, none, none⟩, h)

def queuePut (s : Linked δ ν) (e : Nat) : Except Fault (Linked δ ν) :=
  match s.queue.top with
  | none => .ok { s with queue := { s.queue with size := s.queue.size + 1, top := some e, bottom := some e } }
  | some t => do
    let n ← s.load t
    let s := s.store t { n with prev := some e }
    return { s with queue := { s.queue with size := s.queue.size + 1, top := some e } }

def queueGet (s : Linked δ ν) : Except Fault (Pointer × Linked δ ν) :=
  match s.queue.bottom with
  | none => .ok (none, s)
  | some e => do
    let n ← s.load e
    let t := n.prev
    let top := if t = none then none else s.queue.top
    return (some e, { s with queue := { s.queue with size := s.queue.size - 1, top := top, bottom := t } })

def queueIsempty (q : Queue) : Bool := q.size = 0

/-- The loop of queue_free, and free(q). -/
def queueFree (s : Linked δ ν) : Nat → Except Fault Heap
  | 0 => .error .diverges
  | fuel + 1 => do
    match ← s.queueGet with
    | (none, s) => free (some s.queue.self) s.heap
    | (some e, s) =>
      let n ← s.load e
      let heap ← queueEntryFree n.entry s.heap
      queueFree { s with heap := heap } fuel

/-- A request is put in the queue, or db_loop does the next one. -/
def step (db : DbConn δ) (s : Linked δ ν) : Step ν → Except Fault (Linked δ ν)
  | .put m e => do
    let (made, heap) ← makeQueueLongEntry m e.req e.operation e.key e.val e.newval s.heap
    let s := { s with heap := heap }
    match made with
    | none => return s
    | some (e, op) => queuePut (s.store e.self ⟨e, op, none⟩) e.self
  | .execute ok => do
    match ← s.queueGet with
    | (none, s) => return s
    | (some e, s) =>
      let n ← s.load e
      let ((d, _), heap) ← dbLoop db ok s.db (n.entry, n.op) s.heap
      return { s with heap := heap, db := d }

def prev (s : Linked δ ν) (p : Nat) : Pointer := (s.node p).bind Node.prev

theorem prev_store (s : Linked δ ν) (p : Nat) (n : Node ν) :
    (s.store p n).prev = Function.update s.prev p n.prev := by
  funext q
  by_cases here : q = p
  · subst here
    simp only [prev, store, Function.update_self, Option.bind_some]
  · simp only [prev, store, Function.update_of_ne here]

/-- The queue in memory is the list, and whatever else is live is known. -/
structure Mirrors (s : Linked δ ν) (t : System δ ν) (rest : List Nat) : Prop where
  heap : t.heap = s.heap
  db : t.db = s.db
  size : s.queue.size = t.queue.length
  holds : LinkedQueue.Holds s.prev s.queue.bottom s.queue.top (t.queue.map fun e => e.1.self)
  nodes : ∀ e ∈ t.queue, ∃ p, s.node e.1.self = some ⟨e.1, e.2, p⟩
  owns : s.heap.Owns (owned t.queue ++ rest)
  set : ∀ e ∈ t.queue, e.1.req ≠ .unset

section

variable {s : Linked δ ν} {t : System δ ν} {rest : List Nat}

theorem self_buffers (e : Entry) : e.self ∈ e.buffers := by
  simp only [Entry.buffers, List.mem_append, List.mem_singleton, or_true]

theorem self_owned {queue : List (Entry × QueueEntry ν)} {e : Entry × QueueEntry ν} (member : e ∈ queue) :
    e.1.self ∈ owned queue := List.mem_flatMap.mpr ⟨e, member, self_buffers e.1⟩

theorem Mirrors.load (mirrors : s.Mirrors t rest) {e : Entry × QueueEntry ν} (member : e ∈ t.queue) :
    s.load e.1.self = .ok ⟨e.1, e.2, s.prev e.1.self⟩ := by
  have live : e.1.self ∈ s.heap.live :=
    (List.Perm.mem_iff mirrors.owns).mpr (List.mem_append_left rest (self_owned member))
  obtain ⟨p, node⟩ := mirrors.nodes e member
  simp only [Linked.load, if_pos live, node, Linked.prev, Option.bind_some]

/-- The bottom is the first entry of the list. Without it the queue is the rest. -/
theorem Mirrors.queueGet (mirrors : s.Mirrors t rest) :
    t.queue = [] ∧ s.queueGet = .ok (none, s) ∨
    ∃ e queue q, t.queue = e :: queue ∧ q.self = s.queue.self ∧
      s.queueGet = .ok (some e.1.self, { s with queue := q }) ∧
      ({ s with queue := q } : Linked δ ν).load e.1.self = .ok ⟨e.1, e.2, s.prev e.1.self⟩ ∧
      ∀ h d more, h.Owns (owned queue ++ more) →
        (⟨h, s.node, q, d⟩ : Linked δ ν).Mirrors ⟨h, queue, d⟩ more := by
  have holds := mirrors.holds
  cases bottom : s.queue.bottom with
  | none =>
    rw [bottom] at holds
    left
    refine ⟨List.map_eq_nil_iff.mp holds.get_none, ?_⟩
    simp only [Linked.queueGet, bottom]
  | some p =>
    rw [bottom] at holds
    obtain ⟨others, parts, holds⟩ := holds.get
    obtain ⟨e, queue, same, rfl, rfl⟩ := List.map_eq_cons_iff.mp parts
    have loads := mirrors.load (same ▸ List.mem_cons_self)
    have inside : ∀ x ∈ queue, x ∈ t.queue := fun x member => same ▸ List.mem_cons_of_mem e member
    refine .inr ⟨e, queue, { s.queue with
        size := s.queue.size - 1
        top := if s.prev e.1.self = none then none else s.queue.top
        bottom := s.prev e.1.self }, same, rfl, ?_, loads, fun h d more owns => ?_⟩
    · simp only [Linked.queueGet, bottom, loads, ok_bind, pure_ok]
    · refine ⟨rfl, rfl, ?_, holds, fun x member => mirrors.nodes x (inside x member), owns,
        fun x member => mirrors.set x (inside x member)⟩
      rw [mirrors.size, same]
      rfl

theorem Mirrors.heaped {h : Heap} {more : List Nat} (mirrors : s.Mirrors t rest) (owns : h.Owns (owned t.queue ++ more)) :
    ({ s with heap := h } : Linked δ ν).Mirrors { t with heap := h } more :=
  { mirrors with heap := rfl, owns := owns }

/- What is not owned by the queue can be written. -/
theorem Mirrors.written {p : Nat} (mirrors : s.Mirrors t rest) (n : Node ν) (aside : p ∉ owned t.queue) :
    (s.store p n).Mirrors t rest := by
  have apart : ∀ x ∈ t.queue, x.1.self ≠ p := by
    rintro x member rfl
    exact aside (self_owned member)
  refine { mirrors with holds := mirrors.holds.congr fun q member => ?_, nodes := fun x member => ?_ }
  · obtain ⟨x, inside, rfl⟩ := List.mem_map.mp member
    rw [prev_store, Function.update_of_ne (apart x inside)]
  · obtain ⟨q, node⟩ := mirrors.nodes x member
    exact ⟨q, (Function.update_of_ne (apart x member) ..).trans node⟩

/-- A new entry is put. -/
theorem Mirrors.queuePut {e : Entry} {op : QueueEntry ν} (mirrors : s.Mirrors t (e.buffers ++ rest))
    (new : s.node e.self = some ⟨e, op, none⟩) (set : e.req ≠ .unset) :
    ∃ s', s.queuePut e.self = .ok s' ∧ s'.queue.self = s.queue.self ∧
      s'.Mirrors { t with queue := t.queue ++ [(e, op)] } rest := by
  have owns : s.heap.Owns (owned (t.queue ++ [(e, op)]) ++ rest) := by
    apply mirrors.owns.perm
    simp only [owned, List.flatMap_append, List.flatMap_cons, List.flatMap_nil, List.append_nil, List.append_assoc]
    exact .refl _
  have fresh : e.self ∉ t.queue.map fun e => e.1.self := by
    intro member
    obtain ⟨x, inside, same⟩ := List.mem_map.mp member
    have nodup := (List.Perm.nodup_iff mirrors.owns).mp s.heap.distinct
    exact (List.nodup_append.mp nodup).2.2 _ (self_owned inside) _ (List.mem_append_left rest (self_buffers e)) same
  have nodes : ∀ x ∈ t.queue ++ [(e, op)], ∃ p, s.node x.1.self = some ⟨x.1, x.2, p⟩ := by
    intro x member
    rcases List.mem_append.mp member with before | here
    · exact mirrors.nodes x before
    · rw [List.mem_singleton.mp here]
      exact ⟨none, new⟩
  have set' : ∀ x ∈ t.queue ++ [(e, op)], x.1.req ≠ .unset := by
    intro x member
    rcases List.mem_append.mp member with before | here
    · exact mirrors.set x before
    · rw [List.mem_singleton.mp here]
      exact set
  have size : s.queue.size + 1 = (t.queue ++ [(e, op)]).length := by
    rw [mirrors.size, List.length_append, List.length_singleton]
  have ends : s.prev e.self = none := by rw [Linked.prev, new, Option.bind_some]
  have holds := mirrors.holds
  cases top : s.queue.top with
  | none =>
    rw [top] at holds
    refine ⟨{ s with queue := { s.queue with size := s.queue.size + 1, top := some e.self, bottom := some e.self } },
      by simp only [Linked.queuePut, top], rfl, mirrors.heap, mirrors.db, size, ?_, nodes, owns, set'⟩
    rw [List.map_append]
    exact holds.put_first ends
  | some p =>
    rw [top] at holds
    obtain ⟨member, linked⟩ := holds.put fresh ends
    obtain ⟨x, inside, rfl⟩ := List.mem_map.mp member
    refine ⟨{ s.store x.1.self ⟨x.1, x.2, some e.self⟩ with
        queue := { s.queue with size := s.queue.size + 1, top := some e.self } },
      by simp only [Linked.queuePut, top, mirrors.load inside, ok_bind, pure_ok, store], rfl, mirrors.heap, mirrors.db,
      size, ?_, fun y here => ?_, owns, set'⟩
    · rw [List.map_append]
      have links := prev_store s x.1.self ⟨x.1, x.2, some e.self⟩
      exact links ▸ linked
    · by_cases same : y.1.self = x.1.self
      · obtain ⟨q, node⟩ := nodes y here
        obtain ⟨q', node'⟩ := mirrors.nodes x inside
        rw [same, node'] at node
        obtain ⟨entry, op, _⟩ := Node.mk.inj (Option.some.inj node)
        refine ⟨some e.self, ?_⟩
        rw [← entry, ← op]
        exact Function.update_self ..
      · obtain ⟨q, node⟩ := nodes y here
        exact ⟨q, (Function.update_of_ne same ..).trans node⟩

/-- A step of the queue in memory is that of the list. What else is live becomes more only
where a buffer leaks. -/
theorem Mirrors.step (mirrors : s.Mirrors t rest) (db : DbConn δ) (x : Step ν) :
    Agree (fun s' t' => s'.queue.self = s.queue.self ∧ ∃ more, s'.Mirrors t' (more ++ rest) ∧ (Spares db t x → more = []))
      (Linked.step db s x) (Live.step db t x) := by
  cases x with
  | put m e =>
    simp only [Linked.step, Live.step, mirrors.heap]
    rcases makeQueueLongEntry_cases m e.req e.operation e.key e.val e.newval mirrors.owns with
      ⟨_, live⟩ | ⟨h, _, live, owns⟩ | ⟨made, x, h, _, live, set, owns⟩
    · rw [live]
      rfl
    · simp only [live, ok_bind, pure_ok, Option.toList_none, List.append_nil]
      exact ⟨rfl, [], mirrors.heaped owns, fun _ => rfl⟩
    · simp only [live, ok_bind, pure_ok, Option.toList_some]
      have nodup := (List.Perm.nodup_iff owns).mp h.distinct
      have aside : made.self ∉ owned t.queue := fun member =>
        (List.nodup_append.mp nodup).2.2 _ (self_buffers made) _ (List.mem_append_left rest member) rfl
      have reserved : h.Owns (owned t.queue ++ (made.buffers ++ rest)) := by
        apply owns.perm
        rw [← List.append_assoc, ← List.append_assoc]
        exact List.perm_append_comm.append_right rest
      obtain ⟨s', done, self, mirrors'⟩ :=
        ((mirrors.heaped reserved).written ⟨made, x, none⟩ aside).queuePut (Function.update_self ..) set
      rw [done]
      exact ⟨self, [], mirrors', fun _ => rfl⟩
  | execute ok =>
    rcases mirrors.queueGet with ⟨empty, got⟩ | ⟨e, queue, q, waiting, self, got, loads, next⟩
    · simp only [Linked.step, Live.step, empty, got, ok_bind, pure_ok]
      exact ⟨rfl, [], mirrors, fun _ => rfl⟩
    · simp only [Linked.step, Live.step, waiting, got, ok_bind, loads, mirrors.heap, mirrors.db]
      have owns := mirrors.owns
      rw [waiting, owned, List.flatMap_cons, List.append_assoc] at owns
      obtain ⟨more, beside, spared⟩ : ∃ more,
          Beside (e.1.buffers ++ (owned queue ++ (more ++ rest))) (Nmdb.processOp db ok s.db e.2)
            (processOp db ok s.db e.2 s.heap) ∧ (Spares db t (.execute ok) → more = []) := by
        obtain ⟨left, beside, ⟨_, rfl⟩ | ⟨leaks, rfl⟩⟩ := processOp_beside owns db ok s.db e.2
        · exact ⟨[], beside, fun _ => rfl⟩
        · refine ⟨[s.heap.next], beside.perm ?_, fun spares => ?_⟩
          · simp only [List.singleton_append, ← List.append_assoc]
            exact List.perm_middle.symm
          · rw [Spares, waiting, mirrors.db] at spares
            exact absurd leaks (spares e rfl).1
      cases plain : Nmdb.processOp db ok s.db e.2 with
      | error f =>
        rw [plain] at beside
        simp only [dbLoop, show processOp db ok s.db e.2 s.heap = .error f from beside, error_bind]
        rfl
      | ok x =>
        rw [plain] at beside
        obtain ⟨h₁, live, owns₁⟩ := beside
        obtain ⟨h₂, freed, owns₂⟩ := queueEntryFree_owns (mirrors.set e (waiting ▸ List.mem_cons_self)) owns₁
        simp only [dbLoop, live, freed, ok_bind, pure_ok]
        exact ⟨self, more, next h₂ x.1 (more ++ rest) owns₂, spared⟩

theorem Mirrors.run (mirrors : s.Mirrors t rest) (db : DbConn δ) (steps : List (Step ν)) :
    Agree (fun s' t' => s'.queue.self = s.queue.self ∧ ∃ more, s'.Mirrors t' (more ++ rest) ∧
        (Runs.Along (Live.step db) (Spares db) t steps → more = []))
      (Runs.run (Linked.step db) s steps) (Runs.run (Live.step db) t steps) := by
  induction steps generalizing s t rest with
  | nil => exact ⟨rfl, [], mirrors, fun _ => rfl⟩
  | cons x steps ih =>
    rcases (mirrors.step db x).outcomes with ⟨f, fault, fault'⟩ | ⟨s₁, t₁, taken, taken', self, more, next, spared⟩
    · simp only [Runs.run, fault, fault']
      rfl
    · rw [Runs.run_cons_ok taken, Runs.run_cons_ok taken']
      apply (ih next).mono
      rintro s₂ t₂ ⟨self', more', last, spared'⟩
      refine ⟨self'.trans self, more' ++ more, ?_, fun along => ?_⟩
      · rw [List.append_assoc]
        exact last
      · rw [spared along.1, spared' (along.2 t₁ taken')]
        rfl

/-- queue_free gets one entry after the other and frees each, and then the queue. -/
theorem Mirrors.queueFree {fuel : Nat} (mirrors : s.Mirrors t (s.queue.self :: rest)) (enough : t.queue.length < fuel) :
    ∃ h, s.queueFree fuel = .ok h ∧ h.Owns rest := by
  induction fuel generalizing s t with
  | zero => contradiction
  | succ fuel ih =>
    have owns := mirrors.owns
    rcases mirrors.queueGet with ⟨empty, got⟩ | ⟨e, queue, q, waiting, self, got, loads, next⟩
    · rw [empty] at owns
      obtain ⟨h, freed, left⟩ := free_owns (p := some s.queue.self) owns
      refine ⟨h, ?_, left⟩
      simp only [Linked.queueFree, got, ok_bind, freed]
    · rw [waiting, owned, List.flatMap_cons, List.append_assoc] at owns
      obtain ⟨h, freed, left⟩ := queueEntryFree_owns (mirrors.set e (waiting ▸ List.mem_cons_self)) owns
      have others := next h s.db (s.queue.self :: rest) left
      rw [← self] at others
      have fewer : queue.length < fuel := by
        rw [waiting, List.length_cons] at enough
        exact Nat.lt_of_succ_lt_succ enough
      obtain ⟨h', done, last⟩ := ih others fewer
      refine ⟨h', ?_, last⟩
      simp only [Linked.queueFree, got, ok_bind, loads, freed]
      exact done

end

/-- The queue when the server starts. -/
def start (d : δ) : Linked δ ν := ⟨Heap.empty.alloc, fun _ => none, ⟨Heap.empty.next, 0, none, none⟩, d⟩

theorem start_created (d : δ) : queueCreate true Heap.empty = (some (start (ν := ν) d).queue, (start (ν := ν) d).heap) :=
  rfl

theorem start_mirrors (d : δ) :
    (start (ν := ν) d).Mirrors ⟨Heap.empty.alloc, [], d⟩ [(start (ν := ν) d).queue.self] where
  heap := rfl
  db := rfl
  size := rfl
  holds := .empty _
  nodes := List.forall_mem_nil _
  owns := owns_alloc owns_empty
  set := List.forall_mem_nil _

/-- Every run with the queue in memory is one with the list. At its end queue_free comes to an
end, and frees all that is live but for what db_loop has leaked: what belongs neither to the
queue nor to an entry in it. -/
theorem queue_runs_as_list (db : DbConn δ) (d : δ) (steps : List (Step ν)) :
    Agree (fun s t => s.heap = t.heap ∧ s.db = t.db ∧ queueIsempty s.queue = t.queue.isEmpty ∧
        ∃ h leaked, t.heap.Owns (owned t.queue ++ s.queue.self :: leaked) ∧
          s.queueFree (s.queue.size + 1) = .ok h ∧ h.Owns leaked ∧
          (Runs.Along (Live.step db) (Spares db) ⟨Heap.empty.alloc, [], d⟩ steps → leaked = []))
      (Runs.run (Linked.step db) (start d) steps) (Runs.run (Live.step db) ⟨Heap.empty.alloc, [], d⟩ steps) := by
  apply ((start_mirrors d).run db steps).mono
  rintro s t ⟨self, more, mirrors, spared⟩
  have rest : s.Mirrors t (s.queue.self :: more) := by
    rw [self]
    exact { mirrors with owns := mirrors.owns.perm ((List.perm_append_singleton _ more).append_left _) }
  have enough : t.queue.length < s.queue.size + 1 := by
    rw [mirrors.size]
    exact Nat.lt_succ_self _
  obtain ⟨h, freed, owns⟩ := rest.queueFree enough
  refine ⟨mirrors.heap.symm, mirrors.db.symm, ?_, h, more, ?_, freed, owns, spared⟩
  · rw [queueIsempty, mirrors.size]
    cases t.queue with
    | nil => rfl
    | cons e queue => rfl
  · rw [mirrors.heap]
    exact rest.owns

end Linked

end Nmdb.Live
