import Nmdb.Dispatch
import Nmdb.Backend

/-! Who answers a request. Either the main thread replies, and an entry it has queued owes
no reply, or it stays silent and the entry owes one. -/
namespace Nmdb

variable {δ ν : Type}

/-- The queue entries process_op replies to. -/
def QueueEntry.owesReply (e : QueueEntry ν) : Bool :=
  match e.operation with
  | .set | .del => e.req.sync
  | .stats => false
  | .get | .cas | .incr | .firstkey | .nextkey => true

/-- What a message leaves: a reply or an entry that owes one, both with its request. -/
inductive Answered (req : ReqInfo ν) (s s' : Server ν) : Prop
  | now {r : Reply} {e : Option (QueueEntry ν)} (replies : s'.replies = s.replies ++ [(req, r)])
      (queue : s'.queue = s.queue ++ e.toList) (own : ∀ x ∈ e, x.req = req ∧ x.owesReply = false)
  | later {e : QueueEntry ν} (replies : s'.replies = s.replies) (queue : s'.queue = s.queue ++ [e])
      (own : e.req = req ∧ e.owesReply = true)

section

variable {m : Mallocs} {s s' : Server ν} {req : ReqInfo ν} {cd : Cache} {e : Option (QueueEntry ν)}
  {reply : Option Reply}

theorem answered_reply {r : Reply} (replies : s'.replies = s.replies ++ [(req, r)])
    (queue : s'.queue = s.queue) : Answered req s s' := by
  refine .now (e := none) replies ?_ fun x none => by cases none
  rw [queue]
  exact (List.append_nil _).symm

/- What is answered at once owes nothing. -/
theorem Queued.answer {async : Bool} {x : QueueEntry ν} (queued : Queued m async x e reply)
    (own : x.req = req) (owes : x.owesReply = !async) (leaves : Leaves s s' req cd e reply) :
    Answered req s s' := by
  cases queued with
  | refused => exact .now leaves.replies leaves.queue fun y none => by contradiction
  | answered _ isAsync =>
    subst isAsync
    exact .now leaves.replies leaves.queue fun y here => Option.some.inj here ▸ ⟨own, owes⟩
  | silent _ isSync =>
    subst isSync
    exact .later (leaves.replies.trans (List.append_nil _)) leaves.queue ⟨own, owes⟩

theorem ServeWay.answer {cd' : Cache} {r : Request} (way : ServeWay m cd req r cd' e reply)
    (leaves : Leaves s s' req cd' e reply) : Answered req s s' := by
  cases way with
  | getQueued _ _ queued => exact queued.answer rfl rfl leaves
  | setQueued _ _ queued => exact queued.answer rfl (Bool.not_not _).symm leaves
  | delQueued _ _ queued => exact queued.answer rfl (Bool.not_not _).symm leaves
  | casQueued _ _ _ queued => exact queued.answer rfl rfl leaves
  | incrQueued _ _ _ queued => exact queued.answer rfl rfl leaves
  | nextkey queued => exact queued.answer rfl rfl leaves
  | _ => exact .now leaves.replies leaves.queue fun y none => by contradiction

theorem parseFirstkey_answered (done : parseFirstkey m s req = .ok s') : Answered req s s' := by
  obtain ⟨e, reply, queued, leaves⟩ := parseFirstkey_way done
  exact queued.answer rfl rfl leaves

theorem serve_answered {r : Request} (done : serve m s req r = .ok s') : Answered req s s' := by
  rcases serve_way done with ⟨_, _, rfl⟩ | ⟨_, cd, e, reply, way, leaves⟩
  · exact answered_reply rfl rfl
  · exact way.answer leaves

theorem Route.follow_answered {route : Route} (done : route.follow m s req = .ok s') :
    Answered req s s' := by
  cases route with
  | firstkey => exact parseFirstkey_answered done
  | request r => exact serve_answered done
  | _ =>
    cases done
    exact answered_reply rfl rfl

/-- Every message that parse_message gets through is answered, now or later. -/
theorem parseMessage_answered {buf : Mem} {len : Nat} {understood : Bool}
    (done : parseMessage m s req buf len = .ok (understood, s')) : Answered (replyInfo req buf) s s' := by
  rw [parseMessage_route] at done
  obtain ⟨s₁, followed, done⟩ := bind_eq_ok.mp done
  cases done
  exact Route.follow_answered followed

end

/-- process_op replies to the entries that owe a reply, and to no other. -/
theorem processOp_owes {db : DbConn δ} {ok : Bool} {d d' : δ} {e : QueueEntry ν} {r : Option Reply}
    (done : processOp db ok d e = .ok (d', r)) : r.isSome = e.owesReply := by
  unfold QueueEntry.owesReply
  cases processOp_way done with
  | setQuiet op async | delQuiet op async => simp only [op, async, Option.isSome_none]
  | setRefused op sync | setDone op sync | delNotin op sync | delDone op sync =>
    simp only [op, sync, Option.isSome_some]
  | noMemory _ buffered =>
    cases op : e.operation with
    | set => exact absurd op buffered.1
    | del => exact absurd op buffered.2.1
    | stats => exact absurd op buffered.2.2
    | _ => rfl
  | notin op => rcases op with op | op | op <;> simp only [op, Option.isSome_some]
  | noCursor op => rcases op with ⟨op, _⟩ | ⟨op, _⟩ <;> simp only [op, Option.isSome_some]
  | getOk op | casNomatch op | casRefused op | casDone op => simp only [op, Option.isSome_some]
  | incrNomatch op | incrRefused op | incrDone op => simp only [op, Option.isSome_some]
  | firstkey op | nextkey op => simp only [op, Option.isSome_some]
  | stats op => simp only [op, Option.isSome_none]

end Nmdb
