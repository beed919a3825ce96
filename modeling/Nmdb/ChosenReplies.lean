import Nmdb.LibraryReplies
import Nmdb.Defined

/-! The replies the server chooses for an operation, by the main thread at once or by the
database thread for what was queued, are those the library is prepared for. -/
namespace Nmdb.Library

variable {δ ν : Type}

/-- What serving an operation adds: chosen replies, and entries of its own kind. -/
structure Chooses (op : Operation) (s s' : Server ν) : Prop where
  replies : ∀ x ∈ s'.replies, x ∈ s.replies ∨ Chosen op x.2
  queue : ∀ e ∈ s'.queue, e ∈ s.queue ∨ e.operation = op.code

section

variable {m : Mallocs} {s s' : Server ν} {req : ReqInfo ν} {cd : Cache} {e : Option (QueueEntry ν)}
  {reply : Option Reply} {op : Operation} {r : Request}

theorem chooses_left (leaves : Leaves s s' req cd e reply) (chosen : ∀ x ∈ reply, Chosen op x)
    (kind : ∀ x ∈ e, x.operation = op.code) : Chooses op s s' := by
  constructor
  · intro x mem
    rw [leaves.replies] at mem
    rcases List.mem_append.mp mem with before | here
    · exact .inl before
    · obtain ⟨answer, given, rfl⟩ := Option.map_eq_some_iff.mp (Option.mem_toList.mp here)
      exact .inr (chosen answer given)
  · intro x mem
    rw [leaves.queue] at mem
    rcases List.mem_append.mp mem with before | here
    · exact .inl before
    · exact .inr (kind x (Option.mem_toList.mp here))

theorem entry_kind (asked : op.request = some r) (req : ReqInfo ν) : (r.entry req).operation = op.code := by
  cases op <;> cases asked <;> rfl

/- Only memory can fail where an entry is queued; a reply at once is an OK. -/
theorem queued_chosen {async : Bool} {x : QueueEntry ν} (queued : Queued m async x e reply) (asks : op ≠ .stats)
    (okay : async = true → Chosen op (.mini .ok)) : ∀ y ∈ reply, Chosen op y := by
  cases queued with
  | refused => exact fun y given => Option.some.inj given ▸ .error asks .mem
  | answered _ isAsync => exact fun y given => Option.some.inj given ▸ okay isAsync
  | silent => exact fun y given => by contradiction

theorem silent_chosen {x : QueueEntry ν} (queued : Queued m false x e reply) (asks : op ≠ .stats) :
    ∀ y ∈ reply, Chosen op y :=
  queued_chosen queued asks fun async => by contradiction

/-- The number cache_incr reports is an int64_t. -/
theorem cacheIncr_number {key : Bytes} {increment rv n : Int} {cm : CacheMallocs} {cd cd' : Cache}
    (represented : cd.Represented) (ran : cacheIncr cm cd key increment = .ok ((rv, n), cd'))
    (counted : rv ≠ -1 ∧ rv ≠ -2 ∧ rv ≠ -3) : InInt64 n := by
  obtain ⟨store, models⟩ := represented
  obtain ⟨b, incr, _⟩ := cacheIncr_inv models ran
  rcases Bucket.incr_cases incr with ⟨rfl, _⟩ | ⟨v, rfl, _⟩ | ⟨v, _, rfl, _⟩ | ⟨v, rfl, _⟩
  · exact (counted.1 rfl).elim
  · exact (counted.2.1 rfl).elim
  · exact wrap64_range _
  · exact (counted.2.2 rfl).elim

theorem way_chosen (represented : cd.Represented) {cd' : Cache} (asked : op.request = some r)
    (way : ServeWay m cd req r cd' e reply) : ∀ y ∈ reply, Chosen op y := by
  have asks : op ≠ .stats := by
    rintro rfl
    contradiction
  have one : ∀ {x : Reply}, Chosen op x → ∀ y ∈ some x, Chosen op y :=
    fun chosen y given => Option.some.inj given ▸ chosen
  cases op with
  | get key =>
    cases asked
    cases way with
    | getMiss => exact one (.cacheMiss key)
    | getQueued _ _ queued => exact silent_chosen queued asks
    | getHit ran hit =>
      -- a hit has a value, so the reply is a long one
      obtain ⟨_, missed, _⟩ | ⟨w, _, _, rfl, rfl⟩ := cacheGet_inv represented ran
      cases hit with
      | short null => contradiction
      | long read => exact one (.cacheHit key _)
  | set key val =>
    cases asked
    cases way with
    | setRefused => exact one (.error asks .mem)
    | setOnly => exact one (.setOk key val)
    | setQueued _ _ queued => exact queued_chosen queued asks fun _ => .setOk key val
  | del key =>
    cases asked
    cases way with
    | delHit => exact one (.delOk key)
    | delMiss => exact one (.delNotin key)
    | delQueued _ _ queued => exact queued_chosen queued asks fun _ => .delOk key
  | cas key oldval newval =>
    cases asked
    cases way with
    | casNomatch => exact one (.casNomatch key oldval newval)
    | casRefused => exact one (.error asks .mem)
    | casHit => exact one (.casOk key oldval newval)
    | casMiss => exact one (.casNotin key oldval newval)
    | casQueued _ _ _ queued => exact silent_chosen queued asks
  | incr key increment =>
    cases asked
    cases way with
    | incrRefused => exact one (.error asks .mem)
    | incrNomatch => exact one (.incrNomatch key increment)
    | incrQueued _ _ _ queued => exact silent_chosen queued asks
    | incrMiss => exact one (.incrNotin key increment)
    | incrHit ran passed held =>
      exact one (.incrOk key increment (cacheIncr_number represented ran ⟨held, passed.2, passed.1⟩))
  | nextkey key =>
    cases asked
    cases way with
    | nextkey queued => exact silent_chosen queued asks
  | firstkey => contradiction
  | stats => contradiction

theorem serve_chooses (represented : s.cache.Represented) (asked : op.request = some r)
    (done : serve m s req r = .ok s') : Chooses op s s' := by
  rcases serve_way done with ⟨_, _, rfl⟩ | ⟨_, cd, e, reply, way, leaves⟩
  · refine chooses_left (leaves_reply s req _) (fun y given => Option.some.inj given ▸ .error ?_ .ro)
      fun x none => by contradiction
    rintro rfl
    contradiction
  · exact chooses_left leaves (way_chosen represented asked way)
      fun x queued => (congrArg QueueEntry.operation (way.own x queued)).trans (entry_kind asked req)

/-- The main thread answers an operation with one of its replies. -/
theorem handled_chooses {flags : Nat} (represented : s.cache.Represented)
    (done : op.handled flags m s req = .ok s') : Chooses op s s' := by
  unfold Operation.handled at done
  cases op with
  | firstkey =>
    obtain ⟨e, reply, queued, leaves⟩ := parseFirstkey_way done
    exact chooses_left leaves (silent_chosen queued fun stats => by contradiction)
      fun x here => congrArg QueueEntry.operation (queued.own x here)
  | stats =>
    cases done
    exact chooses_left (leaves_reply s _ _) (fun y given => Option.some.inj given ▸ .stats _)
      fun x none => by contradiction
  | _ => exact serve_chooses represented rfl done

end

/-- The database thread answers an entry with one of the replies of its operation. -/
theorem processOp_chooses {db : DbConn δ} {ok : Bool} {d d' : δ} {e : QueueEntry ν} {r : Reply} {op : Operation}
    (kind : e.operation = op.code) (done : processOp db ok d e = .ok (d', some r)) : Chosen op r := by
  have asks : e.operation ≠ .stats → op ≠ .stats := by
    rintro other rfl
    exact other kind
  cases processOp_way done with
  | setRefused way | casRefused way | incrRefused way =>
    apply Chosen.error (asks _) .db
    rw [way]
    decide
  | noMemory _ buffered => exact .error (asks buffered.2.2) .mem
  | noCursor way =>
    apply Chosen.error (asks _) .db
    rcases way with ⟨way, _⟩ | ⟨way, _⟩ <;> rw [way] <;> decide
  | setDone way =>
    cases op <;> cases way.symm.trans kind
    exact .setOk _ _
  | delNotin way =>
    cases op <;> cases way.symm.trans kind
    exact .delNotin _
  | delDone way =>
    cases op <;> cases way.symm.trans kind
    exact .delOk _
  | notin way =>
    rcases way with way | way | way <;> cases op <;> cases way.symm.trans kind
    · exact .getNotin _
    · exact .casNotin _ _ _
    · exact .incrNotin _ _
  | getOk way =>
    cases op <;> cases way.symm.trans kind
    exact .getOk _ _
  | casNomatch way =>
    cases op <;> cases way.symm.trans kind
    exact .casNomatch _ _ _
  | casDone way =>
    cases op <;> cases way.symm.trans kind
    exact .casOk _ _ _
  | incrNomatch way =>
    cases op <;> cases way.symm.trans kind
    exact .incrNomatch _ _
  | incrDone way _ _ _ sum =>
    cases op <;> cases way.symm.trans kind
    exact .incrOk _ _ (sum ▸ wrap64_range _)
  | @firstkey _ k _ way =>
    cases op <;> cases way.symm.trans kind
    cases k with
    | none => exact .firstkeyNotin
    | some k => exact .firstkeyOk k
  | @nextkey _ k _ way =>
    cases op <;> cases way.symm.trans kind
    cases k with
    | none => exact .nextkeyNotin _
    | some k => exact .nextkeyOk _ k

end Nmdb.Library
