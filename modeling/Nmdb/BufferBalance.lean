import Nmdb.LiveBuffers
import Nmdb.OneReply

/-! Whether the buffers of a request are freed, each once. What is live is compared with what the
entries in the queue own: a buffer that nobody owns any more has leaked. -/
namespace Nmdb.Live

open Ownership

variable {δ ν : Type}

def ReqPointer.buffers : ReqPointer → List Nat
  | .unset => []
  | .null => []
  | .copy self clisa => clisa.toList ++ [self]

/-- What an entry owns, in the order it is freed. -/
def Entry.buffers (e : Entry) : List Nat :=
  e.req.buffers ++ (e.key.toList ++ (e.val.toList ++ (e.newval.toList ++ [e.self])))

section

variable {h : Heap} {ps : List Nat}

theorem free_owns {p : Pointer} (owns : h.Owns (p.toList ++ ps)) : ∃ h', free p h = .ok h' ∧ h'.Owns ps := by
  cases p with
  | none => exact ⟨h, rfl, owns⟩
  | some p =>
    obtain ⟨h', released, left⟩ := owns_release owns
    refine ⟨h', ?_, left⟩
    simp only [free, released]

theorem freeReq_owns {req : ReqPointer} (set : req ≠ .unset) (owns : h.Owns (req.buffers ++ ps)) :
    ∃ h', freeReq req h = .ok h' ∧ h'.Owns ps := by
  cases req with
  | unset => exact absurd rfl set
  | null => exact ⟨h, rfl, owns⟩
  | copy self clisa =>
    rw [ReqPointer.buffers, List.append_assoc] at owns
    obtain ⟨h₁, first, owns⟩ := free_owns owns
    obtain ⟨h₂, second, owns⟩ := free_owns (p := some self) owns
    exact ⟨h₂, by rw [freeReq, first, ok_bind, second], owns⟩

/-- An entry whose request is set is freed with all it owns. -/
theorem queueEntryFree_owns {e : Entry} (set : e.req ≠ .unset) (owns : h.Owns (e.buffers ++ ps)) :
    ∃ h', queueEntryFree e h = .ok h' ∧ h'.Owns ps := by
  simp only [Entry.buffers, List.append_assoc] at owns
  obtain ⟨h₁, first, owns⟩ := freeReq_owns set owns
  obtain ⟨h₂, second, owns⟩ := free_owns owns
  obtain ⟨h₃, third, owns⟩ := free_owns owns
  obtain ⟨h₄, fourth, owns⟩ := free_owns owns
  obtain ⟨h₅, fifth, owns⟩ := free_owns (p := some e.self) owns
  exact ⟨h₅, by rw [queueEntryFree, first, ok_bind, second, ok_bind, third, ok_bind, fourth,
    ok_bind, fifth], owns⟩

/-- malloc(): NULL, or a buffer more. -/
theorem malloc_owns (ok : Bool) (owns : h.Owns ps) :
    ∃ p h', malloc ok h = (p, h') ∧ p.isSome = ok ∧ h'.Owns (p.toList ++ ps) := by
  cases ok with
  | false => exact ⟨none, h, rfl, rfl, owns⟩
  | true => exact ⟨some h.next, h.alloc, rfl, rfl, owns_alloc owns⟩

theorem copyOf_owns (ok : Bool) (datum : Option Bytes) (owns : h.Owns ps) :
    ∃ p h', copyOf ok datum h = (!(datum.isSome && !ok), p, h') ∧ h'.Owns (p.toList ++ ps) := by
  cases datum with
  | none => exact ⟨none, h, rfl, owns⟩
  | some b =>
    obtain ⟨p, h', allocated, _, owns⟩ := malloc_owns ok owns
    refine ⟨p, h', ?_, owns⟩
    rw [copyOf, allocated, Option.isSome_some, Bool.true_and, Bool.not_not]

/- The order in which they are allocated, and that in which they are freed. -/
theorem copies_perm (kcopy vcopy nvcopy : List Nat) (self : Nat) (ps : List Nat) :
    (nvcopy ++ (vcopy ++ (kcopy ++ self :: ps))).Perm (kcopy ++ (vcopy ++ (nvcopy ++ [self])) ++ ps) := by
  apply List.perm_iff_count.mpr
  intro p
  simp only [List.count_append, List.count_cons, List.count_nil]
  omega

/-- Making an entry, with and without its buffers. -/
theorem makeQueueLongEntry_cases (m : Mallocs) (req : ReqInfo ν) (operation : Req)
    (key val newval : Option Bytes)
    (owns : h.Owns ps) :
    (Nmdb.makeQueueLongEntry m req operation key val newval = .error .uninitialised ∧
      makeQueueLongEntry m req operation key val newval h = .error .uninitialised) ∨
    (∃ h', Nmdb.makeQueueLongEntry m req operation key val newval = .ok none ∧
      makeQueueLongEntry m req operation key val newval h = .ok (none, h') ∧ h'.Owns ps) ∨
    ∃ e x h', Nmdb.makeQueueLongEntry m req operation key val newval = .ok (some x) ∧
      makeQueueLongEntry m req operation key val newval h = .ok (some (e, x), h') ∧
      e.req ≠ .unset ∧ h'.Owns (e.buffers ++ ps) := by
  unfold Nmdb.makeQueueLongEntry makeQueueLongEntry queueEntryCreate
  cases m.entry with
  | false => exact .inr (.inl ⟨h, rfl, rfl, owns⟩)
  | true =>
    obtain ⟨kcopy, h₁, copied₁, owns₁⟩ := copyOf_owns m.kcopy key (owns_alloc owns)
    obtain ⟨vcopy, h₂, copied₂, owns₂⟩ := copyOf_owns m.vcopy val owns₁
    obtain ⟨nvcopy, h₃, copied₃, owns₃⟩ := copyOf_owns m.nvcopy newval owns₂
    have owns₃ := owns₃.perm (copies_perm ..)
    simp only [malloc, if_true, copied₁]
    cases key.isSome && !m.kcopy with
    | true => exact .inl ⟨rfl, rfl⟩
    | false =>
      simp only [Bool.not_false, copied₂]
      cases val.isSome && !m.vcopy with
      | true => exact .inl ⟨rfl, rfl⟩
      | false =>
        simp only [Bool.not_false, copied₃]
        cases newval.isSome && !m.nvcopy with
        | true => exact .inl ⟨rfl, rfl⟩
        | false =>
          refine .inr ?_
          cases m.req with
          | false =>
            obtain ⟨h₄, freed, left⟩ :=
              queueEntryFree_owns (e := ⟨h.next, .null, kcopy, vcopy, nvcopy⟩) nofun owns₃
            exact .inl ⟨h₄, rfl, by simp [freed], left⟩
          | true =>
            have owns₄ := owns_alloc owns₃
            cases m.clisa with
            | false =>
              obtain ⟨h₅, freed, left⟩ := queueEntryFree_owns
                (e := ⟨h.next, .copy h₃.next none, kcopy, vcopy, nvcopy⟩) nofun owns₄
              exact .inl ⟨h₅, rfl, by simp [freed], left⟩
            | true => exact .inr ⟨_, _, _, rfl, rfl, nofun, owns_alloc owns₄⟩

/-- A CAS or an INCR that comes to store a value, which the backend refuses. -/
def Leaks (db : DbConn δ) (ok : Bool) (d : δ) (e : QueueEntry ν) : Prop :=
  ok = true ∧ (e.operation = .cas ∨ e.operation = .incr) ∧ db.Refuses d e

/-- The outcome with buffers is the one without, and leaves so many. -/
def Beside {α : Type} (left : List Nat) (plain : Except Fault α) (live : Except Fault (α × Heap)) : Prop :=
  match plain with
  | .error f => live = .error f
  | .ok x => ∃ h, live = .ok (x, h) ∧ h.Owns left

/-- REQ_INCR returns without freeing its buffer where the sum is refused. -/
def IncrLeaks (db : DbConn δ) (d : δ) (e : QueueEntry ν) (v : Bytes) : Prop :=
  v.getLast? = some 0 ∧
    (db.set d e.mapKey (Bucket.incrText v (wrap64 (strtoll v + entryIncrement e)))).1 = false

theorem processIncr_beside {p : Nat} (owns : h.Owns (p :: ps)) (db : DbConn δ) (d : δ)
    (e : QueueEntry ν) (v : Bytes) :
    ∃ left, Beside left (Nmdb.processIncr db d e v) (processIncr db d e v (some p) h) ∧
      (¬ IncrLeaks db d e v ∧ left = ps ∨ IncrLeaks db d e v ∧ left = p :: ps) := by
  obtain ⟨h', freed, left⟩ := free_owns (p := some p) owns
  simp only [Nmdb.processIncr, processIncr, freed, ok_bind, pure_ok]
  cases last : v.getLast? with
  | none =>
    refine ⟨ps, rfl, .inl ⟨?_, rfl⟩⟩
    rintro ⟨number, _⟩
    rw [last] at number
    contradiction
  | some c =>
    dsimp only
    by_cases other : c ≠ 0
    · simp only [if_pos other]
      refine ⟨ps, ⟨h', rfl, left⟩, .inl ⟨?_, rfl⟩⟩
      rintro ⟨number, _⟩
      exact (getLast_zero last).mp number other
    · have number : v.getLast? = some 0 := (getLast_zero last).mpr other
      simp only [if_neg other, terminated_strtoll number, incremented_text v (wrap64_range _)]
      cases refused :
          (db.set d (e.key.getD []) (Bucket.incrText v (wrap64 (strtoll v + entryIncrement e)))).1 with
      | false => exact ⟨p :: ps, ⟨h, rfl, owns⟩, .inr ⟨⟨number, refused⟩, rfl⟩⟩
      | true =>
        refine ⟨ps, ⟨h', rfl, left⟩, .inl ⟨?_, rfl⟩⟩
        rintro ⟨_, refused'⟩
        exact absurd (refused.symm.trans refused') (by decide)

/-- Operations that store nothing they have read leave what they found. -/
theorem processOp_frees (owns : h.Owns ps) (db : DbConn δ) (ok : Bool) (d : δ) {e : QueueEntry ν}
    (cas : e.operation ≠ .cas) (incr : e.operation ≠ .incr) :
    Beside ps (Nmdb.processOp db ok d e) (processOp db ok d e h) := by
  obtain ⟨h', freed, left⟩ := free_owns (p := some h.next) (owns_alloc owns)
  unfold Nmdb.processOp processOp
  cases op : e.operation with
  | set =>
    cases e.req.sync with
    | false => exact ⟨h, rfl, owns⟩
    | true =>
      dsimp only
      cases (db.set d (e.key.getD []) (e.val.getD [])).1 with
      | false => exact ⟨h, rfl, owns⟩
      | true => exact ⟨h, rfl, owns⟩
  | del =>
    cases e.req.sync with
    | false => exact ⟨h, rfl, owns⟩
    | true =>
      dsimp only
      cases (db.del d (e.key.getD [])).1 with
      | false => exact ⟨h, rfl, owns⟩
      | true => exact ⟨h, rfl, owns⟩
  | get =>
    cases ok with
    | false => exact ⟨h, rfl, owns⟩
    | true =>
      simp only [malloc, if_true, Bool.not_true, Bool.false_eq_true, if_false, freed, ok_bind, pure_ok]
      cases db.get d (e.key.getD []) dbBufSize with
      | none => exact ⟨h', rfl, left⟩
      | some v => exact ⟨h', rfl, left⟩
  | cas => exact absurd op cas
  | incr => exact absurd op incr
  | firstkey =>
    cases db.firstkey with
    | none => exact ⟨h, rfl, owns⟩
    | some firstkey =>
      cases ok with
      | false => exact ⟨h, rfl, owns⟩
      | true =>
        simp only [malloc, if_true, Bool.not_true, Bool.false_eq_true, if_false, freed, ok_bind, pure_ok]
        rcases firstkey d dbBufSize with ⟨_ | k, d⟩
        · exact ⟨h', rfl, left⟩
        · exact ⟨h', rfl, left⟩
  | nextkey =>
    cases db.nextkey with
    | none => exact ⟨h, rfl, owns⟩
    | some nextkey =>
      cases ok with
      | false => exact ⟨h, rfl, owns⟩
      | true =>
        simp only [malloc, if_true, Bool.not_true, Bool.false_eq_true, if_false, freed, ok_bind, pure_ok]
        rcases nextkey d (e.key.getD []) dbBufSize with ⟨_ | k, d⟩
        · exact ⟨h', rfl, left⟩
        · exact ⟨h', rfl, left⟩
  | stats => exact ⟨h, rfl, owns⟩

theorem cas_leaks_iff {db : DbConn δ} {ok : Bool} {d : δ} {e : QueueEntry ν} (op : e.operation = .cas) :
    Leaks db ok d e ↔ ok = true ∧ ∃ v, db.get d e.mapKey dbBufSize = some v ∧ e.val = some v ∧
      (db.set d e.mapKey (e.newval.getD [])).1 = false := by
  simp only [Leaks, op, true_or, true_and, DbConn.Refuses, DbConn.writes]
  cases db.get d e.mapKey dbBufSize with
  | none => simp
  | some v =>
    by_cases same : e.val = some v
    · simp [same]
    · simp [same]

theorem incr_leaks_iff {db : DbConn δ} {ok : Bool} {d : δ} {e : QueueEntry ν} (op : e.operation = .incr) :
    Leaks db ok d e ↔ ok = true ∧ ∃ v, db.get d e.mapKey dbBufSize = some v ∧ IncrLeaks db d e v := by
  simp only [Leaks, op, or_true, true_and, DbConn.Refuses, DbConn.writes, IncrLeaks]
  cases db.get d e.mapKey dbBufSize with
  | none => simp
  | some v =>
    by_cases number : v.getLast? = some 0
    · simp [number]
    · simp [number]

theorem cas_beside (owns : h.Owns ps) (db : DbConn δ) (ok : Bool) (d : δ) {e : QueueEntry ν}
    (op : e.operation = .cas) :
    ∃ left, Beside left (Nmdb.processOp db ok d e) (processOp db ok d e h) ∧
      (¬ Leaks db ok d e ∧ left = ps ∨ Leaks db ok d e ∧ left = h.next :: ps) := by
  have kept := owns_alloc owns
  obtain ⟨h', freed, left⟩ := free_owns (p := some h.next) kept
  rw [cas_leaks_iff op]
  simp only [Nmdb.processOp, processOp, op, QueueEntry.mapKey]
  cases ok with
  | false => exact ⟨ps, ⟨h, rfl, owns⟩, .inl ⟨by simp, rfl⟩⟩
  | true =>
    simp only [malloc, if_true, Bool.not_true, Bool.false_eq_true, if_false, freed, ok_bind, pure_ok, true_and]
    cases db.get d (e.key.getD []) dbBufSize with
    | none => exact ⟨ps, ⟨h', rfl, left⟩, .inl ⟨by simp, rfl⟩⟩
    | some v =>
      by_cases same : e.val = some v
      · simp only [if_pos same]
        cases (db.set d (e.key.getD []) (e.newval.getD [])).1 with
        | false => exact ⟨_, ⟨h.alloc, rfl, kept⟩, .inr ⟨⟨v, rfl, same, rfl⟩, rfl⟩⟩
        | true => exact ⟨ps, ⟨h', rfl, left⟩, .inl ⟨by simp, rfl⟩⟩
      · simp only [if_neg same]
        exact ⟨ps, ⟨h', rfl, left⟩, .inl ⟨by simp [same], rfl⟩⟩

theorem incr_beside (owns : h.Owns ps) (db : DbConn δ) (ok : Bool) (d : δ) {e : QueueEntry ν}
    (op : e.operation = .incr) :
    ∃ left, Beside left (Nmdb.processOp db ok d e) (processOp db ok d e h) ∧
      (¬ Leaks db ok d e ∧ left = ps ∨ Leaks db ok d e ∧ left = h.next :: ps) := by
  have kept := owns_alloc owns
  obtain ⟨h', freed, left⟩ := free_owns (p := some h.next) kept
  rw [incr_leaks_iff op]
  simp only [Nmdb.processOp, processOp, op, QueueEntry.mapKey]
  cases ok with
  | false => exact ⟨ps, ⟨h, rfl, owns⟩, .inl ⟨by simp, rfl⟩⟩
  | true =>
    simp only [malloc, if_true, Bool.not_true, Bool.false_eq_true, if_false, freed, ok_bind, pure_ok]
    cases db.get d (e.key.getD []) dbBufSize with
    | none => exact ⟨ps, ⟨h', rfl, left⟩, .inl ⟨by simp, rfl⟩⟩
    | some v =>
      simp only [true_and, Option.some.injEq, exists_eq_left']
      exact processIncr_beside kept db d e v

/-- The buffer of process_op is freed, unless it leaks. -/
theorem processOp_beside (owns : h.Owns ps) (db : DbConn δ) (ok : Bool) (d : δ) (e : QueueEntry ν) :
    ∃ left, Beside left (Nmdb.processOp db ok d e) (processOp db ok d e h) ∧
      (¬ Leaks db ok d e ∧ left = ps ∨ Leaks db ok d e ∧ left = h.next :: ps) := by
  by_cases cas : e.operation = .cas
  · exact cas_beside owns db ok d cas
  · by_cases incr : e.operation = .incr
    · exact incr_beside owns db ok d incr
    · refine ⟨ps, processOp_frees owns db ok d cas incr, .inl ⟨?_, rfl⟩⟩
      rintro ⟨_, op | op, _⟩
      · exact cas op
      · exact incr op

end

/-- The buffers of a server: what is live, and the entries in its queue. -/
structure System (δ ν : Type) where
  heap : Heap
  queue : List (Entry × QueueEntry ν)
  db : δ

/-- A request is put in the queue, or db_loop does the next one. -/
inductive Step (ν : Type) where
  | put (m : Mallocs) (e : QueueEntry ν)
  | execute (ok : Bool)

def step (db : DbConn δ) (s : System δ ν) : Step ν → Except Fault (System δ ν)
  | .put m e => do
    let (made, heap) ← makeQueueLongEntry m e.req e.operation e.key e.val e.newval s.heap
    return { s with heap := heap, queue := s.queue ++ made.toList }
  | .execute ok =>
    match s.queue with
    | [] => .ok s
    | e :: queue => do
      let ((d, _), heap) ← dbLoop db ok s.db e s.heap
      return ⟨heap, queue, d⟩

def owned (queue : List (Entry × QueueEntry ν)) : List Nat := queue.flatMap fun e => e.1.buffers

/-- All that is live belongs to the entries in the queue. -/
structure System.Balanced (s : System δ ν) : Prop where
  owns : s.heap.Owns (owned s.queue)
  set : ∀ e ∈ s.queue, e.1.req ≠ .unset

/-- Only pointers that are set and live are freed, and afterwards nothing is live but what is queued. -/
def KeepsBalance (db : DbConn δ) (s : System δ ν) (x : Step ν) : Prop := ∃ t, step db s x = .ok t ∧ t.Balanced

/-- No copy for an entry fails, and no stored value is refused where that leaks. -/
def Spares (db : DbConn δ) (s : System δ ν) : Step ν → Prop
  | .put m e => m.CopiesHad e
  | .execute ok => ∀ e ∈ s.queue.head?, ¬ Leaks db ok s.db e.2 ∧
      (e.2.operation = .incr → ok = true → db.get s.db e.2.mapKey dbBufSize ≠ some [])

section

variable {db : DbConn δ} {s : System δ ν}

theorem put_keeps_iff (balanced : s.Balanced) (m : Mallocs) (e : QueueEntry ν) :
    KeepsBalance db s (.put m e) ↔ m.CopiesHad e := by
  rw [← makeQueueLongEntry_succeeds]
  rcases makeQueueLongEntry_cases m e.req e.operation e.key e.val e.newval balanced.owns with
    ⟨plain, live⟩ | ⟨h, plain, live, owns⟩ | ⟨made, x, h, plain, live, set, owns⟩
  · rw [plain, KeepsBalance, step, live]
    constructor
    · rintro ⟨t, done, _⟩
      contradiction
    · rintro ⟨x, done⟩
      contradiction
  · rw [plain, KeepsBalance, step, live]
    refine ⟨fun _ => ⟨none, rfl⟩, fun _ => ⟨_, rfl, ?_, ?_⟩⟩
    · simpa only [Option.toList_none, List.append_nil] using owns
    · simpa only [Option.toList_none, List.append_nil] using balanced.set
  · rw [plain, KeepsBalance, step, live]
    refine ⟨fun _ => ⟨some x, rfl⟩, fun _ => ⟨_, rfl, ?_, ?_⟩⟩
    · apply owns.perm
      simp only [owned, Option.toList_some, List.flatMap_append, List.flatMap_cons,
        List.flatMap_nil, List.append_nil]
      exact List.perm_append_comm
    · intro y mem
      rcases List.mem_append.mp mem with before | here
      · exact balanced.set y before
      · cases List.mem_singleton.mp here
        exact set

theorem execute_keeps_iff (balanced : s.Balanced) (ok : Bool) :
    KeepsBalance db s (.execute ok) ↔ Spares db s (.execute ok) := by
  obtain ⟨heap, queue, d⟩ := s
  obtain ⟨owns, set⟩ := balanced
  cases queue with
  | nil => exact ⟨fun _ e none => by contradiction, fun _ => ⟨_, rfl, owns, set⟩⟩
  | cons e queue =>
    obtain ⟨left, beside, balance⟩ := processOp_beside owns db ok d e.2
    have total : Succeeds (Nmdb.processOp db ok d e.2) ↔
        (e.2.operation = .incr → ok = true → db.get d e.2.mapKey dbBufSize ≠ some []) := processOp_succeeds
    have spares : Spares db ⟨heap, e :: queue, d⟩ (.execute ok) ↔
        ¬ Leaks db ok d e.2 ∧ Succeeds (Nmdb.processOp db ok d e.2) := by
      simp only [Spares, List.head?_cons, Option.mem_def, Option.some.injEq, forall_eq', total]
    rw [spares]
    cases plain : Nmdb.processOp db ok d e.2 with
    | error f =>
      rw [plain] at beside
      have fails : step db ⟨heap, e :: queue, d⟩ (.execute ok) = .error f := by
        simp only [step, dbLoop, show processOp db ok d e.2 heap = .error f from beside, error_bind]
      constructor
      · rintro ⟨t, done, _⟩
        rw [fails] at done
        contradiction
      · rintro ⟨_, x, done⟩
        contradiction
    | ok x =>
      rw [plain] at beside
      obtain ⟨h₁, live, owns₁⟩ := beside
      have freed : ∀ {ps}, h₁.Owns (e.1.buffers ++ ps) → ∃ h₂, step db ⟨heap, e :: queue, d⟩ (.execute ok) =
          .ok ⟨h₂, queue, x.1⟩ ∧ h₂.Owns ps := by
        intro ps owns
        obtain ⟨h₂, released, left⟩ := queueEntryFree_owns (set e List.mem_cons_self) owns
        exact ⟨h₂, by simp only [step, dbLoop, live, released, ok_bind, pure_ok], left⟩
      rcases balance with ⟨frees, rfl⟩ | ⟨leaks, rfl⟩
      · obtain ⟨h₂, done, owns₂⟩ := freed owns₁
        exact ⟨fun _ => ⟨frees, x, rfl⟩,
          fun _ => ⟨_, done, owns₂, fun y mem => set y (List.mem_cons_of_mem _ mem)⟩⟩
      · -- the buffer of process_op is live and belongs to no entry
        have owns₁ : h₁.Owns (e.1.buffers ++ heap.next :: owned queue) := owns₁.perm List.perm_middle.symm
        obtain ⟨h₂, done, owns₂⟩ := freed owns₁
        constructor
        · rintro ⟨t, done', balanced⟩
          obtain rfl := Except.ok.inj (done.symm.trans done')
          have same : (heap.next :: owned queue).length = (owned queue).length :=
            (owns_unique owns₂ balanced.owns).length_eq
          rw [List.length_cons] at same
          omega
        · rintro ⟨frees, _⟩
          exact absurd leaks frees

theorem keepsBalance_iff (balanced : s.Balanced) (x : Step ν) : KeepsBalance db s x ↔ Spares db s x := by
  cases x with
  | put m e => exact put_keeps_iff balanced m e
  | execute ok => exact execute_keeps_iff balanced ok

end

/-- From the start, the buffers of a run are balanced exactly as long as no copy for an entry fails
and no CAS or INCR comes to store what the backend refuses. -/
theorem buffers_balanced_iff (db : DbConn δ) (d : δ) (steps : List (Step ν)) :
    Runs.Along (step db) (KeepsBalance db) ⟨Heap.empty, [], d⟩ steps ↔
      Runs.Along (step db) (Spares db) ⟨Heap.empty, [], d⟩ steps := by
  have initial : System.Balanced (⟨Heap.empty, [], d⟩ : System δ ν) := by
    constructor
    · exact owns_empty
    · intro e mem
      exact absurd mem List.not_mem_nil
  have exact_step : ∀ (s : System δ ν) (x : Step ν), s.Balanced → (KeepsBalance db s x ↔ Spares db s x) :=
    fun s x balanced => keepsBalance_iff balanced x
  refine Runs.along_iff exact_step (fun s x t balanced spares taken => ?_) initial steps
  obtain ⟨t', taken', balanced'⟩ := (keepsBalance_iff balanced x).mpr spares
  obtain rfl := Except.ok.inj (taken.symm.trans taken')
  exact balanced'

/-- A backend that holds "A" under every key and takes no other value. -/
def fullDb : DbConn Unit :=
  ⟨fun _ _ _ => (false, ()), fun _ _ _ => some [65], fun _ _ => (false, ()), none, none⟩

def casOfA : QueueEntry Unit := ⟨.cas, ⟨(), 1, Req.cas.code, FLAGS_SYNC⟩, some [75], some [65], some [66]⟩

/-- A CAS that matches leaks 64 kb where the new value is refused, and without room for the copy of
its key the request of the new entry is looked at before it was set. -/
theorem refused_cas_leaks :
    ¬ Runs.Along (step fullDb) (KeepsBalance fullDb) ⟨Heap.empty, [], ()⟩ [.put .plenty casOfA, .execute true] ∧
    ¬ Runs.Along (step fullDb) (KeepsBalance fullDb) ⟨Heap.empty, [], ()⟩
      [.put { Mallocs.plenty with kcopy := false } casOfA] := by
  constructor
  · rintro ⟨_, queued⟩
    obtain ⟨⟨t, done, balanced⟩, _⟩ := queued _ rfl
    cases done
    exact absurd (List.Perm.length_eq balanced.owns) (by decide)
  · rintro ⟨⟨t, done, _⟩, _⟩
    contradiction

end Nmdb.Live
