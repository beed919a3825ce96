import Nmdb.DbLoop
import Nmdb.Lib.WriteBehind

/-! A backend that behaves as a map, and what executing a queue entry does to that map:
the database thread applies the operations that wait in the queue. Each way in which process_op
ends is a constructor of ExecuteWay. -/
namespace Nmdb

open WriteBehind

abbrev KV := Bytes → Option Bytes

variable {δ ν : Type}

/-- What a backend promises: get finds the values that fit its buffer, del tells whether
the key was there, and a set that fails changes nothing. -/
structure MapBackend (db : DbConn δ) (view : δ → KV) : Prop where
  absent : ∀ d k n, view d k = none → db.get d k n = none
  present : ∀ d k v n, view d k = some v → v.length ≤ n → db.get d k n = some v
  set : ∀ d k v, ((db.set d k v).1 = true ∧ view (db.set d k v).2 = Function.update (view d) k (some v)) ∨
    ((db.set d k v).1 = false ∧ view (db.set d k v).2 = view d)
  del : ∀ d k, (db.del d k).1 = (view d k).isSome ∧ view (db.del d k).2 = Function.update (view d) k none

namespace QueueEntry

def mapKey (e : QueueEntry ν) : Bytes := e.key.getD []

/-- The operations on a map. -/
def Mapped (e : QueueEntry ν) : Prop :=
  e.operation = .get ∨ e.operation = .set ∨ e.operation = .del ∨ e.operation = .cas ∨ e.operation = .incr

/-- The binding an entry leaves where it meets one; a value larger than the buffer of the
database thread is beyond compare and increment. -/
def act (e : QueueEntry ν) (o : Option Bytes) : Option Bytes :=
  match e.operation with
  | .set => some (e.val.getD [])
  | .del => none
  | .cas =>
    match o with
    | none => none
    | some v => if v.length ≤ dbBufSize ∧ e.val = some v then some (e.newval.getD []) else some v
  | .incr =>
    match o with
    | none => none
    | some v =>
      if v.length ≤ dbBufSize ∧ v.getLast? = some 0 then
        some (Bucket.incrText v (wrap64 (strtoll v + entryIncrement e)))
      else some v
  | _ => o

/-- The reply to an entry that meets a binding, sets being accepted. -/
def respond (e : QueueEntry ν) (o : Option Bytes) : Option Reply :=
  match e.operation with
  | .get => some (match o with
    | none => .mini .notin
    | some v => .long .ok v)
  | .set => if e.req.sync then some (.mini .ok) else none
  | .del => if e.req.sync then some (if o.isSome then .mini .ok else .mini .notin) else none
  | .cas => some (match o with
    | none => .mini .notin
    | some v => if e.val = some v then .mini .ok else .mini .nomatch)
  | .incr => some (match o with
    | none => .mini .notin
    | some v =>
      if v.getLast? = some 0 then
        .long .ok (bytes64 (htonll (ofInt64 (wrap64 (strtoll v + entryIncrement e)))))
      else .mini .nomatch)
  | _ => none

end QueueEntry

/-- The map once the waiting entries are executed. -/
abbrev drained (m : KV) (es : List (QueueEntry ν)) : KV := drain QueueEntry.mapKey QueueEntry.act m es

theorem drained_cons (m : KV) (e : QueueEntry ν) (es : List (QueueEntry ν)) :
    drained m (e :: es) = drained (apply QueueEntry.mapKey QueueEntry.act m e) es := drain_cons m e es

def Oversized (o : Option Bytes) : Prop := ∃ v, o = some v ∧ dbBufSize < v.length

/- What CAS and INCR find too large they leave. -/
theorem act_keeps_oversized {e : QueueEntry ν} {o : Option Bytes}
    (op : e.operation = .cas ∨ e.operation = .incr) (large : Oversized o) : e.act o = o := by
  obtain ⟨v, rfl, large⟩ := large
  unfold QueueEntry.act
  rcases op with op | op <;> rw [op] <;> exact if_neg fun fits => absurd fits.1 (Nat.not_le_of_lt large)

theorem act_oversized (e : QueueEntry ν) (o : Option Bytes) (large : Oversized o) :
    e.act o = o ∨ ∀ o', e.act o' = e.act o := by
  cases op : e.operation with
  | set | del =>
    right
    intro o'
    simp only [QueueEntry.act, op]
  | cas => exact .inl (act_keeps_oversized (.inl op) large)
  | incr => exact .inl (act_keeps_oversized (.inr op) large)
  | _ =>
    left
    simp only [QueueEntry.act, op]

namespace DbConn

/-- The value the execution of an entry hands to set(). -/
def writes (db : DbConn δ) (d : δ) (e : QueueEntry ν) : Option Bytes :=
  match e.operation with
  | .set => some (e.val.getD [])
  | .cas =>
    match db.get d e.mapKey dbBufSize with
    | none => none
    | some v => if e.val = some v then some (e.newval.getD []) else none
  | .incr =>
    match db.get d e.mapKey dbBufSize with
    | none => none
    | some v =>
      if v.getLast? = some 0 then some (Bucket.incrText v (wrap64 (strtoll v + entryIncrement e)))
      else none
  | _ => none

def Refuses (db : DbConn δ) (d : δ) (e : QueueEntry ν) : Prop :=
  ∃ v, db.writes d e = some v ∧ (db.set d e.mapKey v).1 = false

def after (db : DbConn δ) (d : δ) (e : QueueEntry ν) : δ :=
  match e.operation with
  | .del => (db.del d e.mapKey).2
  | _ =>
    match db.writes d e with
    | none => d
    | some v => (db.set d e.mapKey v).2

end DbConn

/-- The ways the database thread executes an entry: from the backend before, the backend after
and the reply. -/
inductive ExecuteWay (db : DbConn δ) (ok : Bool) (d : δ) (e : QueueEntry ν) : δ → Option Reply → Prop
  | setQuiet (op : e.operation = .set) (async : e.req.sync = false) :
      ExecuteWay db ok d e (db.set d e.mapKey (e.val.getD [])).2 none
  | setRefused (op : e.operation = .set) (sync : e.req.sync = true)
      (refused : (db.set d e.mapKey (e.val.getD [])).1 = false) :
      ExecuteWay db ok d e (db.set d e.mapKey (e.val.getD [])).2 (some (.err .db))
  | setDone (op : e.operation = .set) (sync : e.req.sync = true)
      (accepted : (db.set d e.mapKey (e.val.getD [])).1 = true) :
      ExecuteWay db ok d e (db.set d e.mapKey (e.val.getD [])).2 (some (.mini .ok))
  | delQuiet (op : e.operation = .del) (async : e.req.sync = false) :
      ExecuteWay db ok d e (db.del d e.mapKey).2 none
  | delNotin (op : e.operation = .del) (sync : e.req.sync = true) (missing : (db.del d e.mapKey).1 = false) :
      ExecuteWay db ok d e (db.del d e.mapKey).2 (some (.mini .notin))
  | delDone (op : e.operation = .del) (sync : e.req.sync = true) (there : (db.del d e.mapKey).1 = true) :
      ExecuteWay db ok d e (db.del d e.mapKey).2 (some (.mini .ok))
  | noMemory (missing : ok = false)
      (buffered : e.operation ≠ .set ∧ e.operation ≠ .del ∧ e.operation ≠ .stats) :
      ExecuteWay db ok d e d (some (.err .mem))
  | notin (op : e.operation = .get ∨ e.operation = .cas ∨ e.operation = .incr) (had : ok = true)
      (missing : db.get d e.mapKey dbBufSize = none) : ExecuteWay db ok d e d (some (.mini .notin))
  | getOk {v : Bytes} (op : e.operation = .get) (had : ok = true)
      (found : db.get d e.mapKey dbBufSize = some v) :
      ExecuteWay db ok d e d (some (.long .ok v))
  | casNomatch {v : Bytes} (op : e.operation = .cas) (had : ok = true)
      (found : db.get d e.mapKey dbBufSize = some v) (other : e.val ≠ some v) :
      ExecuteWay db ok d e d (some (.mini .nomatch))
  | casRefused {v : Bytes} (op : e.operation = .cas) (had : ok = true)
      (found : db.get d e.mapKey dbBufSize = some v) (same : e.val = some v)
      (refused : (db.set d e.mapKey (e.newval.getD [])).1 = false) :
      ExecuteWay db ok d e (db.set d e.mapKey (e.newval.getD [])).2 (some (.err .db))
  | casDone {v : Bytes} (op : e.operation = .cas) (had : ok = true)
      (found : db.get d e.mapKey dbBufSize = some v) (same : e.val = some v)
      (accepted : (db.set d e.mapKey (e.newval.getD [])).1 = true) :
      ExecuteWay db ok d e (db.set d e.mapKey (e.newval.getD [])).2 (some (.mini .ok))
  | incrNomatch {v : Bytes} (op : e.operation = .incr) (had : ok = true)
      (found : db.get d e.mapKey dbBufSize = some v) (nonempty : v ≠ []) (text : v.getLast? ≠ some 0) :
      ExecuteWay db ok d e d (some (.mini .nomatch))
  | incrRefused {v : Bytes} {n : Int} (op : e.operation = .incr) (had : ok = true)
      (found : db.get d e.mapKey dbBufSize = some v) (number : v.getLast? = some 0)
      (sum : n = wrap64 (strtoll v + entryIncrement e))
      (refused : (db.set d e.mapKey (Bucket.incrText v n)).1 = false) :
      ExecuteWay db ok d e (db.set d e.mapKey (Bucket.incrText v n)).2 (some (.err .db))
  | incrDone {v : Bytes} {n : Int} (op : e.operation = .incr) (had : ok = true)
      (found : db.get d e.mapKey dbBufSize = some v) (number : v.getLast? = some 0)
      (sum : n = wrap64 (strtoll v + entryIncrement e))
      (accepted : (db.set d e.mapKey (Bucket.incrText v n)).1 = true) :
      ExecuteWay db ok d e (db.set d e.mapKey (Bucket.incrText v n)).2
        (some (.long .ok (bytes64 (htonll (ofInt64 n)))))
  | noCursor (op : e.operation = .firstkey ∧ db.firstkey = none ∨ e.operation = .nextkey ∧ db.nextkey = none) :
      ExecuteWay db ok d e d (some (.err .db))
  | firstkey {firstkey : δ → Nat → Option Bytes × δ} {k : Option Bytes} {d' : δ} (op : e.operation = .firstkey)
      (known : db.firstkey = some firstkey) (had : ok = true) (moved : firstkey d dbBufSize = (k, d')) :
      ExecuteWay db ok d e d' (some (k.elim (.mini .notin) (.long .ok)))
  | nextkey {nextkey : δ → Bytes → Nat → Option Bytes × δ} {k : Option Bytes} {d' : δ}
      (op : e.operation = .nextkey) (known : db.nextkey = some nextkey) (had : ok = true)
      (moved : nextkey d e.mapKey dbBufSize = (k, d')) :
      ExecuteWay db ok d e d' (some (k.elim (.mini .notin) (.long .ok)))
  | stats (op : e.operation = .stats) : ExecuteWay db ok d e d none

/- The text written back is the one the cache writes, the rest of the buffer left out. -/
theorem incremented_text (v : Bytes) {n : Int} (fits : InInt64 n) :
    (snprintf (v ++ List.replicate (dbBufSize - v.length) indeterminate)
        (if v.length < 24 then 24 else v.length) n).take (if v.length < 24 then 24 else v.length) =
      Bucket.incrText v n := by
  have text := padded_length fits
  rw [snprintf_fits fits (by split <;> omega), Bucket.incrText]
  by_cases short : v.length < 24
  · have whole : (padded n ++ [0]).length = 24 := by
      rw [List.length_append, text, List.length_singleton]
    rw [if_pos short, ← whole, List.take_left, List.drop_eq_nil_of_le (by omega), List.append_nil]
  · have behind : (v ++ List.replicate (dbBufSize - v.length) indeterminate).drop 24 =
        v.drop 24 ++ List.replicate (dbBufSize - v.length) indeterminate :=
      List.drop_append_of_le_length (by omega)
    have whole : (padded n ++ [0] ++ v.drop 24).length = v.length := by
      simp only [List.length_append, text, List.length_singleton, List.length_drop]
      omega
    rw [if_neg short, behind, ← List.append_assoc, List.take_left' whole]

section

variable {db : DbConn δ} {d d' : δ} {e : QueueEntry ν} {r : Option Reply}

theorem getLast_zero {v : Bytes} {c : UInt8} (last : v.getLast? = some c) :
    v.getLast? = some 0 ↔ ¬ c ≠ 0 := by
  rw [last, Option.some.injEq, not_not]

theorem terminated_strtoll {v : Bytes} (number : v.getLast? = some 0) (tail : Bytes) :
    strtoll (v ++ tail) = strtoll v :=
  strtoll_append (List.mem_of_getLast? number) tail

/-- INCR on a value that is there, where that has a meaning. -/
theorem processIncr_eq {v : Bytes} {c : UInt8} (last : v.getLast? = some c) :
    processIncr db d e v =
      if v.getLast? = some 0 then
        let n := wrap64 (strtoll v + entryIncrement e)
        let (rv, d) := db.set d e.mapKey (Bucket.incrText v n)
        .ok (d, some (if !rv then .err .db else .long .ok (bytes64 (htonll (ofInt64 n)))))
      else .ok (d, some (.mini .nomatch)) := by
  unfold processIncr
  simp only [last]
  by_cases nul : c ≠ 0
  · rw [if_pos nul, if_neg fun same => nul (Option.some.inj same)]
  · have number : v.getLast? = some 0 := (getLast_zero last).mpr nul
    obtain rfl : c = 0 := not_not.mp nul
    rw [if_neg nul, if_pos rfl, terminated_strtoll number, incremented_text v (wrap64_range _)]
    simp only [QueueEntry.mapKey]
    split <;> rename_i refused <;> simp only [refused] <;> rfl

/-- An execution that comes to an end does so in one of the ways. -/
theorem processOp_way {ok : Bool} (done : processOp db ok d e = .ok (d', r)) :
    ExecuteWay db ok d e d' r := by
  cases op : e.operation with
  | set =>
    simp only [processOp, op] at done
    cases sync : e.req.sync with
    | false =>
      simp only [sync, Bool.not_false, if_true] at done
      cases done
      exact .setQuiet op sync
    | true =>
      simp only [sync, Bool.not_true, Bool.false_eq_true, if_false] at done
      split at done
      case isTrue refused =>
        cases done
        exact .setRefused op sync ((Bool.not_eq_true' _).mp refused)
      case isFalse accepted =>
        cases done
        exact .setDone op sync (by rwa [Bool.not_eq_true', Bool.not_eq_false] at accepted)
  | del =>
    simp only [processOp, op] at done
    cases sync : e.req.sync with
    | false =>
      simp only [sync, Bool.not_false, if_true] at done
      cases done
      exact .delQuiet op sync
    | true =>
      simp only [sync, Bool.not_true, Bool.false_eq_true, if_false] at done
      split at done
      case isTrue missing =>
        cases done
        exact .delNotin op sync ((Bool.not_eq_true' _).mp missing)
      case isFalse there =>
        cases done
        exact .delDone op sync (by rwa [Bool.not_eq_true', Bool.not_eq_false] at there)
  | get =>
    simp only [processOp, op] at done
    cases ok with
    | false =>
      cases done
      exact .noMemory rfl (by simp [op])
    | true =>
      simp only [Bool.not_true, Bool.false_eq_true, if_false] at done
      split at done
      case h_1 missing =>
        cases done
        exact .notin (.inl op) rfl missing
      case h_2 v found =>
        cases done
        exact .getOk op rfl found
  | cas =>
    simp only [processOp, op] at done
    cases ok with
    | false =>
      cases done
      exact .noMemory rfl (by simp [op])
    | true =>
      simp only [Bool.not_true, Bool.false_eq_true, if_false] at done
      split at done
      case h_1 missing =>
        cases done
        exact .notin (.inr (.inl op)) rfl missing
      case h_2 v found =>
        split at done
        case isTrue same =>
          split at done
          case isTrue refused =>
            cases done
            exact .casRefused op rfl found same ((Bool.not_eq_true' _).mp refused)
          case isFalse accepted =>
            cases done
            exact .casDone op rfl found same (by rwa [Bool.not_eq_true', Bool.not_eq_false] at accepted)
        case isFalse other =>
          cases done
          exact .casNomatch op rfl found other
  | incr =>
    simp only [processOp, op] at done
    cases ok with
    | false =>
      cases done
      exact .noMemory rfl (by simp [op])
    | true =>
      simp only [Bool.not_true, Bool.false_eq_true, if_false] at done
      split at done
      case h_1 missing =>
        cases done
        exact .notin (.inr (.inr op)) rfl missing
      case h_2 v found =>
        cases last : v.getLast? with
        | none =>
          simp only [processIncr, last] at done
          contradiction
        | some c =>
          rw [processIncr_eq last] at done
          split at done
          case isTrue number =>
            dsimp only at done
            cases stored :
                (db.set d e.mapKey (Bucket.incrText v (wrap64 (strtoll v + entryIncrement e)))).1 with
            | false =>
              rw [stored] at done
              cases done
              exact .incrRefused op rfl found number rfl stored
            | true =>
              rw [stored] at done
              cases done
              exact .incrDone op rfl found number rfl stored
          case isFalse text =>
            cases done
            exact .incrNomatch op rfl found (List.getLast?_isSome.mp (last ▸ rfl)) text
  | firstkey =>
    simp only [processOp, op] at done
    split at done
    case h_1 unknown =>
      cases done
      exact .noCursor (.inl ⟨op, unknown⟩)
    case h_2 firstkey known =>
      cases ok with
      | false =>
        cases done
        exact .noMemory rfl (by simp [op])
      | true =>
        simp only [Bool.not_true, Bool.false_eq_true, if_false] at done
        split at done
        case h_1 moved =>
          cases done
          exact .firstkey op known rfl moved
        case h_2 moved =>
          cases done
          exact .firstkey op known rfl moved
  | nextkey =>
    simp only [processOp, op] at done
    split at done
    case h_1 unknown =>
      cases done
      exact .noCursor (.inr ⟨op, unknown⟩)
    case h_2 nextkey known =>
      cases ok with
      | false =>
        cases done
        exact .noMemory rfl (by simp [op])
      | true =>
        simp only [Bool.not_true, Bool.false_eq_true, if_false] at done
        split at done
        case h_1 moved =>
          cases done
          exact .nextkey op known rfl moved
        case h_2 moved =>
          cases done
          exact .nextkey op known rfl moved
  | stats =>
    simp only [processOp, op] at done
    cases done
    exact .stats op

/-- Only the increment of an empty value does not come to an end. -/
theorem processOp_total {ok : Bool}
    (nonempty : e.operation = .incr → ok = true → db.get d e.mapKey dbBufSize ≠ some []) :
    ∃ x, processOp db ok d e = .ok x := by
  unfold processOp
  cases op : e.operation with
  | set | del =>
    apply total_ite ⟨_, rfl⟩
    apply total_ite ⟨_, rfl⟩ ⟨_, rfl⟩
  | get =>
    apply total_ite ⟨_, rfl⟩
    cases db.get d (e.key.getD []) dbBufSize <;> exact ⟨_, rfl⟩
  | cas =>
    apply total_ite ⟨_, rfl⟩
    cases db.get d (e.key.getD []) dbBufSize with
    | none => exact ⟨_, rfl⟩
    | some v => exact total_ite (total_ite ⟨_, rfl⟩ ⟨_, rfl⟩) ⟨_, rfl⟩
  | incr =>
    cases ok with
    | false => exact ⟨_, rfl⟩
    | true =>
      have nonempty : db.get d (e.key.getD []) dbBufSize ≠ some [] := nonempty op rfl
      simp only [Bool.not_true, Bool.false_eq_true, if_false]
      cases found : db.get d (e.key.getD []) dbBufSize with
      | none => exact ⟨_, rfl⟩
      | some v =>
        cases last : v.getLast? with
        | none =>
          obtain rfl := List.getLast?_eq_none_iff.mp last
          exact absurd found nonempty
        | some c =>
          simp only [processIncr_eq last]
          exact total_ite ⟨_, rfl⟩ ⟨_, rfl⟩
  | firstkey =>
    cases db.firstkey with
    | none => exact ⟨_, rfl⟩
    | some firstkey =>
      apply total_ite ⟨_, rfl⟩
      rcases firstkey d dbBufSize with ⟨_ | k, d⟩
      · exact ⟨_, rfl⟩
      · exact ⟨_, rfl⟩
  | nextkey =>
    cases db.nextkey with
    | none => exact ⟨_, rfl⟩
    | some nextkey =>
      apply total_ite ⟨_, rfl⟩
      rcases nextkey d (e.key.getD []) dbBufSize with ⟨_ | k, d⟩
      · exact ⟨_, rfl⟩
      · exact ⟨_, rfl⟩
  | stats => exact ⟨_, rfl⟩

theorem processOp_after (mapped : e.Mapped) (done : processOp db true d e = .ok (d', r)) :
    d' = db.after d e := by
  unfold DbConn.after DbConn.writes
  cases processOp_way done with
  | setQuiet op | setRefused op | setDone op | getOk op => simp only [op]
  | delQuiet op | delNotin op | delDone op => simp only [op]
  | noMemory missing => contradiction
  | notin op _ missing => rcases op with op | op | op <;> simp only [op, missing]
  | casNomatch op _ found other => simp only [op, found, if_neg other]
  | casRefused op _ found same | casDone op _ found same => simp only [op, found, if_pos same]
  | incrNomatch op _ found _ text => simp only [op, found, if_neg text]
  | incrRefused op _ found number sum | incrDone op _ found number sum =>
    simp only [op, found, if_pos number, sum]
  | noCursor op =>
    rcases op with ⟨op, _⟩ | ⟨op, _⟩ <;> simp [QueueEntry.Mapped, op] at mapped
  | firstkey op | nextkey op => simp [QueueEntry.Mapped, op] at mapped
  | stats op => simp only [op]

end

section

variable {db : DbConn δ} {view : δ → KV} (backend : MapBackend db view) {d : δ} {e : QueueEntry ν}

include backend

/- The other keys are out of reach. -/
theorem MapBackend.after_other {k : Bytes} (other : k ≠ e.mapKey) : view (db.after d e) k = view d k := by
  have set : ∀ v, view (db.set d e.mapKey v).2 k = view d k := by
    intro v
    rcases backend.set d e.mapKey v with ⟨_, changed⟩ | ⟨_, kept⟩
    · rw [changed, Function.update_of_ne other]
    · rw [kept]
  have write : view (match db.writes d e with
      | none => d
      | some v => (db.set d e.mapKey v).2) k = view d k := by
    split
    · rfl
    · exact set _
  unfold DbConn.after
  split
  · rw [(backend.del d e.mapKey).2, Function.update_of_ne other]
  · exact write

theorem MapBackend.get_eq (short : ¬ Oversized (view d e.mapKey)) :
    db.get d e.mapKey dbBufSize = view d e.mapKey := by
  cases held : view d e.mapKey with
  | none => exact backend.absent d _ _ held
  | some v => exact backend.present d _ v _ held (Nat.not_lt.mp fun large => short ⟨v, held, large⟩)

/- A value that is written, and not refused, is there afterwards. -/
theorem MapBackend.set_accepted {v : Bytes} (written : db.writes d e = some v)
    (accepted : ¬ db.Refuses d e) : view (db.set d e.mapKey v).2 e.mapKey = some v := by
  rcases backend.set d e.mapKey v with ⟨_, changed⟩ | ⟨refused, _⟩
  · rw [changed, Function.update_self]
  · exact absurd ⟨v, written, refused⟩ accepted

theorem MapBackend.after_refused (refused : db.Refuses d e) : view (db.after d e) = view d := by
  obtain ⟨v, written, no⟩ := refused
  have kept : view (db.set d e.mapKey v).2 = view d := by
    rcases backend.set d e.mapKey v with ⟨yes, _⟩ | ⟨_, kept⟩
    · exact absurd (yes.symm.trans no) (by decide)
    · exact kept
  unfold DbConn.after
  split
  case h_1 del =>
    simp only [DbConn.writes, del] at written
    contradiction
  case h_2 => rw [written, kept]

/- CAS and INCR leave the value they write, or else the one that was there. -/
theorem MapBackend.act_eq (op : e.operation = .cas ∨ e.operation = .incr)
    (short : ¬ Oversized (view d e.mapKey)) :
    e.act (view d e.mapKey) = (db.writes d e).or (view d e.mapKey) := by
  have got := backend.get_eq short
  cases held : view d e.mapKey with
  | none =>
    rw [held] at got
    rcases op with op | op <;> simp only [QueueEntry.act, DbConn.writes, op, got] <;> rfl
  | some v =>
    have fits : v.length ≤ dbBufSize := Nat.not_lt.mp fun long => short ⟨v, held, long⟩
    rw [held] at got
    rcases op with op | op <;> simp only [QueueEntry.act, DbConn.writes, op, got, fits, true_and] <;>
      split <;> rfl

/-- At its key an accepted entry leaves what the map operation leaves, unless the value
there is too large for the database thread and stays so. -/
theorem MapBackend.after_at (mapped : e.Mapped) (accepted : ¬ db.Refuses d e) :
    view (db.after d e) e.mapKey = e.act (view d e.mapKey) ∨
      Oversized (view d e.mapKey) ∧ Oversized (e.act (view d e.mapKey)) := by
  have written : ∀ v, db.writes d e = some v → view (db.set d e.mapKey v).2 e.mapKey = some v :=
    fun v => fun hw => backend.set_accepted hw accepted
  rcases mapped with op | op | op | op
  · exact .inl (by simp only [DbConn.after, DbConn.writes, QueueEntry.act, op])
  · refine .inl ?_
    have set := written (e.val.getD []) (by simp only [DbConn.writes, op])
    simpa only [DbConn.after, DbConn.writes, QueueEntry.act, op] using set
  · refine .inl ?_
    simp only [DbConn.after, QueueEntry.act, op, (backend.del d e.mapKey).2, Function.update_self]
  · by_cases large : Oversized (view d e.mapKey)
    · rw [act_keeps_oversized op large]
      exact .inr ⟨large, large⟩
    · left
      rw [backend.act_eq op large, DbConn.after]
      split
      case h_1 del => rcases op with op | op <;> rw [op] at del <;> contradiction
      case h_2 =>
        cases write : db.writes d e with
        | none => rfl
        | some v => exact written v write

/-- With room for every value and no refusal, executing an entry is applying it. -/
theorem MapBackend.after_eq (mapped : e.Mapped) (accepted : ¬ db.Refuses d e)
    (short : ¬ Oversized (view d e.mapKey)) :
    view (db.after d e) = apply QueueEntry.mapKey QueueEntry.act (view d) e := by
  funext k
  by_cases here : k = e.mapKey
  · subst here
    rw [apply_at]
    exact (backend.after_at mapped accepted).resolve_right fun large => short large.1
  · rw [apply_other _ here, backend.after_other here]

end

end Nmdb
