import Nmdb.Defined
import Nmdb.Replies
import Nmdb.Coherence

/-! Runs of the server in which any allocation may fail. Requests are told apart by their
number, and each has its one reply, or an entry that will give it. -/
namespace Nmdb

variable {δ ν : Type}

/-- What the two threads do next, with the outcomes of malloc() on the way. -/
inductive System.Turn where
  | message (m : Mallocs) (buf : Mem) (len : Nat)
  | dequeue
  | execute (ok : Bool)

namespace System

def turn (db : DbConn δ) (s : System δ) : Turn → Except Fault (System δ)
  | .message m buf len => do
    let (_, server) ← parseMessage m s.server ⟨s.parsed, 0, 0, 0⟩ buf len
    return { s with server := server, parsed := s.parsed + 1 }
  | .dequeue => s.step db .dequeue
  | .execute ok =>
    match s.hand with
    | none => .ok s
    | some e => do
      let (d, r) ← processOp db ok s.db e
      let server := match r with
        | none => s.server
        | some r => s.server.reply e.req r
      return { s with server := server, db := d, hand := none }

/-- With memory to spare these are the steps the server takes. -/
theorem turn_plenty (db : DbConn δ) (s : System δ) (ev : Event) :
    s.turn db (match ev with
      | .message buf len => .message Mallocs.plenty buf len
      | .dequeue => .dequeue
      | .execute => .execute true) = s.step db ev := by
  cases ev <;> rfl

/-- The replies a request has been given. -/
def answers (s : System δ) (n : Nat) : List (ReqInfo Nat × Reply) :=
  s.server.replies.filter fun x => x.1.net = n

/-- The entries that are to give a request its reply. -/
def owed (s : System δ) (n : Nat) : List (QueueEntry Nat) :=
  s.pending.filter fun e => e.owesReply ∧ e.req.net = n

/-- Every request parsed so far has one reply, given or owed, and no other number has any. -/
def OneReply (s : System δ) : Prop :=
  ∀ n, (s.answers n).length + (s.owed n).length = if n < s.parsed then 1 else 0

/-- The step has defined behaviour. For the database thread it is the increment of an empty
value that has not. -/
def TurnDefined (db : DbConn δ) (s : System δ) : Turn → Prop
  | .message m buf len => MessageDefined m s.server ⟨s.parsed, 0, 0, 0⟩ buf len
  | .dequeue => True
  | .execute ok => ∀ e ∈ s.hand, e.operation = .incr → ok = true → db.get s.db e.mapKey dbBufSize ≠ some []

end System

/-- process_op goes wrong only where it increments an empty value. -/
theorem processOp_succeeds {db : DbConn δ} {ok : Bool} {d : δ} {e : QueueEntry ν} :
    Succeeds (processOp db ok d e) ↔
      (e.operation = .incr → ok = true → db.get d e.mapKey dbBufSize ≠ some []) := by
  constructor
  · rintro ⟨⟨d', r⟩, done⟩ incr had empty
    cases processOp_way done with
    | noMemory missing => exact absurd had (by rw [missing]; decide)
    | notin _ _ missing => cases missing.symm.trans empty
    | incrNomatch _ _ found nonempty => exact nonempty (Option.some.inj (found.symm.trans empty))
    | incrRefused _ _ found number | incrDone _ _ found number =>
      cases found.symm.trans empty
      contradiction
    | noCursor op => rcases op with ⟨op, _⟩ | ⟨op, _⟩ <;> cases op.symm.trans incr
    | setQuiet op | setRefused op | setDone op => cases op.symm.trans incr
    | delQuiet op | delNotin op | delDone op => cases op.symm.trans incr
    | getOk op | casNomatch op | casRefused op | casDone op => cases op.symm.trans incr
    | firstkey op | nextkey op | stats op => cases op.symm.trans incr
  · exact processOp_total

namespace System

section

variable {db : DbConn δ} {s t : System δ} {n : Nat}

theorem answers_append {rs : List (ReqInfo Nat × Reply)} (replies : t.server.replies = s.server.replies ++ rs)
    (n : Nat) : t.answers n = s.answers n ++ rs.filter fun x => x.1.net = n := by
  rw [answers, replies, List.filter_append]
  rfl

theorem owed_append {es : List (QueueEntry Nat)} (pending : t.pending = s.pending ++ es) (n : Nat) :
    t.owed n = s.owed n ++ es.filter fun e => e.owesReply ∧ e.req.net = n := by
  rw [owed, pending, List.filter_append]
  rfl

/- The new request gets its one reply, or an entry for it. -/
theorem OneReply.message {m : Mallocs} {buf : Mem} {len : Nat} (one : s.OneReply)
    (taken : s.turn db (.message m buf len) = .ok t) : t.OneReply := by
  obtain ⟨⟨understood, server⟩, parsed, same⟩ := bind_eq_ok.mp taken
  cases same
  intro n
  have count := one n
  change List.length (answers _ n) + List.length (owed _ n) = if n < s.parsed + 1 then 1 else 0
  cases parseMessage_answered parsed with
  | @now r e replies queue own =>
    have silent : e.toList.filter (fun e => e.owesReply ∧ e.req.net = n) = [] := by
      refine List.filter_eq_nil_iff.mpr fun x mem => ?_
      simp [(own x (Option.mem_toList.mp mem)).2]
    have waiting : pending ⟨server, s.db, s.hand, s.parsed + 1⟩ = s.pending ++ e.toList := by
      simp only [System.pending, queue, List.append_assoc]
    rw [answers_append (s := s) replies, owed_append waiting, silent, List.append_nil,
      List.length_append, List.filter_singleton, replyInfo_net]
    by_cases here : s.parsed = n
    · simp only [here, decide_true, cond_true, List.length_singleton, Nat.lt_irrefl, if_false] at count ⊢
      rw [if_pos (Nat.lt_succ_self n)]
      omega
    · simp only [here, decide_false, cond_false, List.length_nil]
      split at count <;> split <;> omega
  | @later e replies queue own =>
    have waiting : pending ⟨server, s.db, s.hand, s.parsed + 1⟩ = s.pending ++ [e] := by
      simp only [System.pending, queue, List.append_assoc]
    have silent : server.replies = s.server.replies ++ [] := replies.trans (List.append_nil _).symm
    rw [answers_append (s := s) silent, owed_append waiting, List.filter_nil, List.append_nil,
      List.length_append, List.filter_singleton, own.1, own.2, replyInfo_net]
    by_cases here : s.parsed = n
    · simp only [here, decide_true, and_self, cond_true, List.length_singleton, Nat.lt_irrefl,
        if_false] at count ⊢
      rw [if_pos (Nat.lt_succ_self n)]
      omega
    · simp only [here, and_false, decide_false, cond_false, List.length_nil]
      split at count <;> split <;> omega

theorem OneReply.dequeue (one : s.OneReply) (taken : s.turn db .dequeue = .ok t) : t.OneReply := by
  obtain ⟨pending, _, _, _, replies, parsed⟩ := step_dequeue (show s.step db .dequeue = .ok t from taken)
  intro n
  rw [answers, replies, owed, pending, parsed]
  exact one n

/- The reply that was owed is given. -/
theorem OneReply.execute {ok : Bool} (one : s.OneReply) (taken : s.turn db (.execute ok) = .ok t) :
    t.OneReply := by
  simp only [turn] at taken
  split at taken
  · cases taken
    exact one
  case h_2 e busy =>
    obtain ⟨⟨d, r⟩, done, taken⟩ := bind_eq_ok.mp taken
    have owes := processOp_owes done
    have replies : t.server.replies = s.server.replies ++ (r.map fun x => (e.req, x)).toList := by
      cases r with
      | none =>
        cases taken
        exact (List.append_nil _).symm
      | some x =>
        cases taken
        rfl
    have pending : s.pending = e :: t.pending := by
      rw [System.pending, busy]
      cases r <;> cases taken <;> rfl
    have parsed : t.parsed = s.parsed := by
      cases taken
      rfl
    intro n
    have count := one n
    rw [owed, pending, List.filter_cons] at count
    rw [answers_append replies, List.length_append, parsed, ← count]
    cases r with
    | none =>
      rw [← owes]
      simp only [Option.isSome_none, Bool.false_eq_true, false_and, decide_false, if_false, Option.map_none,
        Option.toList_none, List.filter_nil, List.length_nil, Nat.add_zero]
      rfl
    | some x =>
      rw [← owes]
      simp only [Option.isSome_some, true_and, decide_eq_true_eq, Option.map_some, Option.toList_some,
        List.filter_singleton]
      split
      case isTrue here =>
        simp only [here, decide_true, cond_true, List.length_cons, List.length_nil]
        rw [owed]
        omega
      case isFalse other =>
        simp only [other, decide_false, cond_false, List.length_nil]
        rfl

theorem OneReply.turn {x : Turn} (one : s.OneReply) (taken : s.turn db x = .ok t) : t.OneReply := by
  cases x with
  | message m buf len => exact one.message taken
  | dequeue => exact one.dequeue taken
  | execute ok => exact one.execute taken

theorem turn_represented {x : Turn} (represented : s.server.cache.Represented)
    (taken : s.turn db x = .ok t) : t.server.cache.Represented := by
  cases x with
  | message m buf len =>
    obtain ⟨⟨understood, server⟩, parsed, same⟩ := bind_eq_ok.mp taken
    cases same
    exact parseMessage_represented represented parsed
  | dequeue =>
    obtain ⟨_, _, cache, _⟩ := step_dequeue (show s.step db .dequeue = .ok t from taken)
    rw [cache]
    exact represented
  | execute ok =>
    simp only [System.turn] at taken
    split at taken
    · cases taken
      exact represented
    · obtain ⟨⟨d, r⟩, _, taken⟩ := bind_eq_ok.mp taken
      cases r <;> cases taken <;> exact represented

theorem turn_succeeds {x : Turn} (represented : s.server.cache.Represented) :
    Succeeds (s.turn db x) ↔ TurnDefined db s x := by
  cases x with
  | message m buf len =>
    exact (succeeds_map fun x : Bool × Server Nat => { s with server := x.2, parsed := s.parsed + 1 }).trans
      (parseMessage_succeeds represented buf len)
  | dequeue =>
    refine ⟨fun _ => trivial, fun _ => ?_⟩
    simp only [System.turn, step]
    split <;> exact ⟨_, rfl⟩
  | execute ok =>
    simp only [System.turn, TurnDefined]
    cases s.hand with
    | none => exact ⟨fun _ e held => by contradiction, fun _ => ⟨_, rfl⟩⟩
    | some e =>
      simp only [Option.mem_some_iff, forall_eq']
      exact (succeeds_map _).trans processOp_succeeds

end

end System

end Nmdb
