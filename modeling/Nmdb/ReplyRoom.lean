import Nmdb.ChosenReplies
import Nmdb.LibraryStats

/-! The room for replies. The buffer of a request is used again for its reply, and nothing but the
sizes on both sides makes sure that it is large enough. -/
namespace Nmdb.Library

/-- The replies the server builds for an operation: the main thread at once, the database thread
for what was queued, and either where a reply cannot be sent. -/
inductive Builds (op : Operation) (flags : Nat) : Reply → Prop
  | atOnce {ν : Type} {m : Mallocs} {s s' : Server ν} {req : ReqInfo ν} {x : ReqInfo ν × Reply}
      (represented : s.cache.Represented) (done : op.handled flags m s req = .ok s') (sent : x ∈ s'.replies)
      (new : x ∉ s.replies) : Builds op flags x.2
  | later {δ ν : Type} {db : DbConn δ} {ok : Bool} {d d' : δ} {e : QueueEntry ν} {r : Reply}
      (kind : e.operation = op.code) (done : processOp db ok d e = .ok (d', some r)) : Builds op flags r
  | unsent : Builds op flags (.err .send)

/-- The bsize an operation passes to get_rep: the size of the packet it has built, or for the
statistics that of a buffer of its own. -/
def Operation.Passes (op : Operation) (t : Transport) (flags bsize : Nat) : Prop :=
  match op with
  | .stats => bsize = tmpbufSize
  | op => ∃ fresh buf reqsize, op.packet (some t) true flags fresh = .ok (some (buf, reqsize)) ∧ bsize = buf.length

section

variable {op : Operation} {flags : Nat} {t : Transport} {bsize : Nat} {r : Reply}

theorem builds_chosen (asks : op ≠ .stats) (builds : Builds op flags r) : Chosen op r := by
  cases builds with
  | atOnce represented done sent new =>
    exact ((handled_chooses represented done).replies _ sent).resolve_left new
  | later kind done => exact processOp_chooses kind done
  | unsent => exact .error asks .send

theorem builds_stats (builds : Builds .stats flags r) : r.data.length ≤ 4 + 8 * 23 := by
  cases builds with
  | atOnce represented done sent new =>
    cases done
    rcases List.mem_append.mp sent with before | here
    · exact absurd before new
    · cases List.mem_singleton.mp here
      exact Nat.le_refl _
  | later kind done =>
    simp only [processOp, kind, Operation.code] at done
    cases done
  | unsent => exact show 4 ≤ 4 + 8 * 23 by decide

theorem passes_bufsize (asks : op ≠ .stats) (passes : op.Passes t flags bsize) :
    bsize = op.bufsize t flags := by
  obtain ⟨fresh, buf, reqsize, built, rfl⟩ : ∃ fresh buf reqsize,
      op.packet (some t) true flags fresh = .ok (some (buf, reqsize)) ∧ bsize = buf.length := by
    cases op with
    | stats => exact absurd rfl asks
    | _ => exact passes
  obtain ⟨room, size, packet⟩ := packet_built op t flags fresh (fits_of_packet built)
  rw [built] at packet
  cases packet
  rw [filled_length, List.length_append, unset_length, size]

/-- Every reply the server builds for an operation fits in the buffer it is received in, and so
comes whole. -/
theorem replies_fit {ν : Type} {req : ReqInfo ν} (passes : op.Passes t flags bsize) (builds : Builds op flags r)
    (short : ShortReply r) :
    (t.packet req r).length ≤ bsize ∧
      ∀ buf socket, buf.length = bsize → req.id = htonl ID_CODE → Delivered t (t.packet req r) socket →
        getRep t buf socket = answerOf t req r buf := by
  have offset : t.idOffset ≤ 4 := by cases t <;> decide
  have room : (t.packet req r).length ≤ bsize := by
    by_cases asks : op = .stats
    · obtain rfl := asks
      obtain rfl : bsize = tmpbufSize := passes
      have data := builds_stats builds
      rw [packet_length, tmpbufSize]
      omega
    · rw [passes_bufsize asks passes]
      exact chosen_fits t req flags (builds_chosen asks builds) asks short
  refine ⟨room, ?_⟩
  intro buf socket length id delivered
  have small : (t.packet req r).length < 2 ^ 32 := by
    have data := data_length short
    rw [packet_length]
    simp only [maxSize] at data
    omega
  exact getRep_delivered id (length ▸ room) small delivered

end

/- A del of the empty key is refused by a read-only server: the reply takes all of the buffer. -/
theorem replies_fit_del :
    (Transport.udp.packet (⟨(), htonl ID_CODE, 0, 0⟩ : ReqInfo Unit) (.err .ro)).length ≤ 12 := by
  have passes : (Operation.del []).Passes .udp 0 12 := ⟨fun _ => 0, _, _, rfl, rfl⟩
  let s : Server Unit := ⟨emptyCache, [], {}, ⟨true⟩, []⟩
  have done : (Operation.del []).handled 0 Mallocs.plenty s ⟨(), 0, 0, 0⟩ =
    .ok (s.reply ⟨(), htonl ID_CODE, Req.del.code, 0⟩ (.err .ro)) := rfl
  have builds : Builds (.del []) 0 (.err .ro) :=
    .atOnce emptyCache_represented done List.mem_cons_self List.not_mem_nil
  exact (replies_fit passes builds nofun).1

end Nmdb.Library
