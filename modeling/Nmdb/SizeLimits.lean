import Nmdb.LibraryRequests

/-! The limits on sizes in the three places that have one: the manual and the parser allow a
key and its value 65536 bytes together, process_buf the whole frame. A frame of 9 to 11 bytes
is let through without room for a header. -/
namespace Nmdb

open Library Wire

variable {σ : Type}

section

variable {parse : σ → ReqInfo Client → Mem → Nat → Except Fault (Bool × σ)} {I : σ → Prop}
  {b piece : Bytes} {reads : List Read} {s : TcpRun σ} {tcpsock : TcpSocket}

/- A length field that is out of range closes the connection at once. -/
theorem processBuf_closes (ok : Bool) (fuel : Nat) (st : σ) {buf : Mem} (held : slice buf 0 b.length = b)
    (field : 4 ≤ b.length) (out : maxPacket < frameLength b ∨ frameLength b ≤ 8) :
    processBuf parse ok (fuel + 1) tcpsock buf b.length st = .ok (none, buf, st) := by
  unfold processBuf
  simp only [totaltoget_eq held field]
  exact if_pos ⟨field, out⟩

theorem run_closed (h : Handed σ) (reads : List Read) :
    Runs.run (tcpStep parse) ⟨none, h⟩ reads = .ok ⟨none, h⟩ := by
  induction reads with
  | nil => rfl
  | cons x rest ih =>
    rw [Runs.run_cons_ok (show tcpStep parse ⟨none, h⟩ x = .ok ⟨none, h⟩ from rfl)]
    exact ih

/-- The total length in front of a body, as it arrives. -/
theorem frameLength_prefix {future : Bytes} (stream : piece ++ future = frame b)
    (short : b.length + 4 < 2 ^ 32) (field : 4 ≤ piece.length) : frameLength piece = b.length + 4 := by
  rw [← frameLength_append field future, stream, frameLength, frame, List.take_left' (lengthField_length _)]
  exact bigEndian_lengthField short

/-- However a frame of a length out of range comes in, the connection is closed and nothing
is handed to the parser. -/
theorem tcpRun_closes (short : b.length + 4 < 2 ^ 32) (out : ¬ InRange b) (isOpen : s.tcpsock = some tcpsock)
    (holds : tcpsock.Holds piece) (early : piece.length < 4)
    (stream : piece ++ (reads.map Read.rv).flatten = frame b)
    (memory : ∀ x ∈ reads, x.ok = true)
    (within : Runs.Along (tcpStep parse) WithinAsked s reads) :
    Runs.run (tcpStep parse) s reads = .ok ⟨none, s.handed⟩ := by
  induction reads generalizing s tcpsock piece with
  | nil =>
    have length := congrArg List.length stream
    rw [frame_length, List.map_nil, List.flatten_nil, List.append_nil] at length
    omega
  | cons x rest ih =>
    obtain ⟨nonempty, _⟩ := within.1 tcpsock isOpen
    rw [List.map_cons, List.flatten_cons, ← List.append_assoc] at stream
    obtain ⟨next, buf, held, excess, _, into⟩ :=
      tcpRecv_into (recording parse) x.ok x.static s.handed holds nonempty
    have okay := memory x List.mem_cons_self
    by_cases field : 4 ≤ (piece ++ x.rv).length
    · have total := frameLength_prefix stream short field
      have closes : processBuf (recording parse) x.ok ((piece ++ x.rv).length + 1) next buf
          (piece ++ x.rv).length s.handed = .ok (none, buf, s.handed) :=
        processBuf_closes x.ok _ s.handed held field (by simp only [InRange] at out; omega)
      obtain ⟨static', received⟩ := into _ _ _ closes
      have taken : tcpStep parse s x = .ok ⟨none, s.handed⟩ := by
        simp only [tcpStep, isOpen, received, ok_bind, pure_ok]
      rw [Runs.run_cons_ok taken]
      exact run_closed _ _
    · obtain ⟨tcpsock', done, holds'⟩ := processBuf_piece parse s.handed held
        (Nat.succ_pos (piece ++ x.rv).length) excess (.inl okay) (fun had => absurd had field)
        (by rw [if_neg field]; omega)
      obtain ⟨static', received⟩ := into _ _ _ done
      have taken : tcpStep parse s x = .ok ⟨some tcpsock', s.handed⟩ := by
        simp only [tcpStep, isOpen, received, ok_bind, pure_ok]
      rw [Runs.run_cons_ok taken]
      exact ih rfl holds' (Nat.lt_of_not_le field) stream (fun y hy => memory y (List.mem_cons_of_mem x hy))
        (within.2 _ taken)

/-- However a frame of a length in range comes in, its body is handed to the parser. -/
theorem tcpRun_hands (inRange : InRange b) (accepted : Accepted parse I b) (isOpen : s.tcpsock = some tcpsock)
    (holds : tcpsock.Holds piece) (inv : I s.handed.state) (early : piece.length < b.length + 4)
    (stream : piece ++ (reads.map Read.rv).flatten = frame b)
    (memory : ∀ x ∈ reads, x.ok = true)
    (within : Runs.Along (tcpStep parse) WithinAsked s reads) :
    ∃ t, Runs.run (tcpStep parse) s reads = .ok t ∧ t.tcpsock.isSome ∧
      t.handed.bodies = s.handed.bodies ++ [b] := by
  have sized : ∀ x ∈ [b], InRange x := List.forall_mem_singleton.mpr inRange
  induction reads generalizing s tcpsock piece with
  | nil =>
    have length := congrArg List.length stream
    rw [frame_length, List.map_nil, List.flatten_nil, List.append_nil] at length
    omega
  | cons x rest ih =>
    obtain ⟨nonempty, asked⟩ := within.1 tcpsock isOpen
    rw [List.map_cons, List.flatten_cons, ← List.append_assoc] at stream
    have alone : (piece ++ x.rv) ++ (rest.map Read.rv).flatten = [b].flatMap frame := by
      rw [stream, List.flatMap_singleton]
    have clean : tcpsock.buf = none → ∃ left, Aligned x.rv left ∧ (left = [] ∨ x.ok = true) := by
      intro own
      obtain ⟨_, kept⟩ := holds
      simp only [own] at kept
      subst kept
      rw [List.nil_append] at stream
      obtain ⟨left, aligned⟩ := aligned_upTo nonempty fun field => by
        have total := frameLength_prefix stream (by simp only [InRange, maxPacket] at inRange; omega) field
        have length := congrArg List.length stream
        rw [List.length_append, frame_length] at length
        omega
      exact ⟨left, aligned, .inr (memory x List.mem_cons_self)⟩
    obtain ⟨tcpsock', static', st, new, piece', done, holds', inv', parts, newSized⟩ :=
      tcpRecv_clean x.static sized (List.forall_mem_singleton.mpr accepted) holds alone nonempty asked clean inv
    have taken : tcpStep parse s x = .ok ⟨some tcpsock', ⟨st, s.handed.bodies ++ new⟩⟩ := by
      simp only [tcpStep, isOpen, done, ok_bind, pure_ok]
    rw [parts, List.append_assoc] at alone
    obtain ⟨left, split, tail⟩ := frames_cancel newSized sized alone
    rw [Runs.run_cons_ok taken]
    cases left with
    | nil =>
      rw [List.append_nil] at split
      rw [List.flatMap_nil, List.append_eq_nil_iff] at tail
      cases rest with
      | nil => exact ⟨_, rfl, rfl, by rw [split]⟩
      | cons y more =>
        have some := ((within.2 _ taken).1 tcpsock' rfl).1
        rw [List.map_cons, List.flatten_cons, List.append_eq_nil_iff] at tail
        exact (some tail.2.1).elim
    | cons c more =>
      have parts' := congrArg List.length split
      have none : new = [] := by
        simp only [List.length_append, List.length_cons, List.length_nil] at parts'
        exact List.length_eq_zero_iff.mp (by omega)
      subst none
      rw [List.nil_append] at split
      cases split
      have incomplete := holds_incomplete inRange holds' tail
      rw [List.flatMap_singleton] at tail
      rw [List.append_nil] at taken ⊢
      exact ih rfl holds' inv' incomplete tail (fun y hy => memory y (List.mem_cons_of_mem x hy))
        (within.2 _ taken)

end

/-- However a packet comes in, with memory for a piece of it, the connection stays open and
the body is handed to a parser that takes it. -/
def KeptOpen (packet body : Bytes) : Prop :=
  ∀ (σ : Type) (parse : σ → ReqInfo Client → Mem → Nat → Except Fault (Bool × σ)) (I : σ → Prop) (st : σ)
    (client : Client) (reads : List Read), Accepted parse I body → I st →
    (reads.map Read.rv).flatten = packet → (∀ x ∈ reads, x.ok = true) →
    Runs.Along (tcpStep parse) WithinAsked ⟨some (.new client), ⟨st, []⟩⟩ reads →
    ∃ s, Runs.run (tcpStep parse) ⟨some (.new client), ⟨st, []⟩⟩ reads = .ok s ∧ s.tcpsock.isSome ∧
      s.handed.bodies = [body]

/-- However a packet comes in, the connection is closed with nothing handed on. -/
def Refused (packet : Bytes) : Prop :=
  ∀ (σ : Type) (parse : σ → ReqInfo Client → Mem → Nat → Except Fault (Bool × σ)) (st : σ)
    (client : Client) (reads : List Read), (reads.map Read.rv).flatten = packet → (∀ x ∈ reads, x.ok = true) →
    Runs.Along (tcpStep parse) WithinAsked ⟨some (.new client), ⟨st, []⟩⟩ reads →
    Runs.run (tcpStep parse) ⟨some (.new client), ⟨st, []⟩⟩ reads = .ok ⟨none, ⟨st, []⟩⟩

theorem frame_keptOpen {b : Bytes} (inRange : InRange b) : KeptOpen (frame b) b := by
  intro σ parse I st client reads accepted inv stream memory within
  exact tcpRun_hands inRange accepted rfl (show TcpSocket.Holds (.new client) [] from ⟨rfl, rfl⟩) inv
    (Nat.succ_pos _) stream memory within

theorem frame_refused {b : Bytes} (short : b.length + 4 < 2 ^ 32) (out : ¬ InRange b) : Refused (frame b) := by
  intro σ parse st client reads stream memory within
  exact tcpRun_closes short out rfl (show TcpSocket.Holds (.new client) [] from ⟨rfl, rfl⟩) (Nat.succ_pos 3)
    stream memory within

/- A packet that fits the static buffer can come in at once. -/
theorem Refused.not_keptOpen {packet body : Bytes} (refused : Refused packet) (nonempty : packet ≠ [])
    (fits : packet.length ≤ Nmdb.SBSIZE) : ¬ KeptOpen packet body := by
  intro kept
  let parse : Unit → ReqInfo Client → Mem → Nat → Except Fault (Bool × Unit) := fun st _ _ _ => .ok (true, st)
  let reads : List Read := [⟨fun _ => 0, packet, true⟩]
  have stream : (reads.map Read.rv).flatten = packet := List.append_nil packet
  have memory : ∀ x ∈ reads, x.ok = true := List.forall_mem_singleton.mpr rfl
  have within : Runs.Along (tcpStep parse) WithinAsked ⟨some (.new ⟨0, 0⟩), ⟨(), []⟩⟩ reads := by
    refine ⟨?_, fun _ _ => trivial⟩
    rintro _ ⟨⟩
    exact ⟨nonempty, fits⟩
  obtain ⟨s, ran, isOpen, _⟩ := kept Unit parse (fun _ => True) () ⟨0, 0⟩ reads
    (fun st req buf _ _ => ⟨st, rfl, trivial⟩) trivial stream memory within
  rw [refused Unit parse () ⟨0, 0⟩ reads stream memory within] at ran
  cases ran
  contradiction

/-- A total length process_buf goes on with, some body having it. -/
def Admits (n : Nat) : Prop := ∃ b : Bytes, b.length + 4 = n ∧ KeptOpen (frame b) b

theorem admits_of_range {n : Nat} (above : 8 < n) (below : n ≤ maxPacket) : Admits n := by
  have length : (List.replicate (n - 4) (0 : UInt8)).length + 4 = n := by
    rw [List.length_replicate]
    omega
  refine ⟨List.replicate (n - 4) 0, length, frame_keptOpen ?_⟩
  rw [InRange, length]
  exact ⟨above, below⟩

theorem not_admits_short {n : Nat} (short : n ≤ 8) : ¬ Admits n := by
  rintro ⟨b, length, kept⟩
  have total := frame_length b
  have out : ¬ InRange b := fun inRange => by
    simp only [InRange] at inRange
    omega
  refine (frame_refused (by omega) out).not_keptOpen (List.ne_nil_of_length_pos (by omega)) ?_ kept
  simp only [Nmdb.SBSIZE]
  omega

namespace Library.Operation

def operands : Operation → List Bytes
  | .get key => [key]
  | .set key val => [key, val]
  | .del key => [key]
  | .cas key oldval newval => [key, oldval, newval]
  | .incr key _ => [key]
  | .firstkey => []
  | .nextkey key => [key]
  | .stats => []

/-- The sizes of the keys and values together. -/
def sizes (op : Operation) : Nat := (op.operands.map List.length).sum

/-- Neither a key or value nor all together exceed 64Kb. -/
def Allowed (op : Operation) : Prop := (∀ b ∈ op.operands, b.length ≤ maxSize) ∧ op.sizes ≤ maxSize

/-- What a frame has besides: its length, the header, the size fields and the increment. -/
def overhead (op : Operation) : Nat :=
  4 + 8 + 4 * op.operands.length + match op with
    | .incr _ _ => 8
    | _ => 0

theorem total_length (op : Operation) (flags : Nat) :
    (op.message flags).length + 4 = op.overhead + op.sizes := by
  rw [message_length]
  cases op <;> simp only [payload, overhead, sizes, operands, List.length_append, List.length_cons,
    List.length_nil, bytes32_length, bytes64_length, List.map_cons, List.map_nil, List.sum_cons,
      List.sum_nil] <;>
    omega

theorem overhead_le (op : Operation) : op.overhead ≤ 24 := by
  cases op <;> simp only [overhead, operands, List.length_cons, List.length_nil] <;> omega

end Library.Operation

/-- The four bytes of a total length, as the client writes them. -/
theorem bytes32_htonl (n : Nat) : bytes32 (htonl n) = lengthField n := by
  have byte : ∀ a b : Nat, a % 256 = b % 256 → UInt8.ofNat a = UInt8.ofNat b := by
    intro a b same
    rw [← UInt8.toNat_inj, UInt8.toNat_ofNat', UInt8.toNat_ofNat']
    exact same
  have word : htonl n = n / 2 ^ 24 % 256 + n / 2 ^ 16 % 256 * 256 + n / 2 ^ 8 % 256 * 65536 +
      n % 256 * 16777216 := by
    simp only [htonl, ntohl, ntohs]
    omega
  have digits : ∀ a b c d : Nat, a < 256 → b < 256 → c < 256 → d < 256 →
      (a + b * 256 + c * 65536 + d * 16777216) / 256 ^ 0 % 256 = a ∧
      (a + b * 256 + c * 65536 + d * 16777216) / 256 ^ 1 % 256 = b ∧
      (a + b * 256 + c * 65536 + d * 16777216) / 256 ^ 2 % 256 = c ∧
      (a + b * 256 + c * 65536 + d * 16777216) / 256 ^ 3 % 256 = d := by omega
  have small : ∀ x : Nat, x % 256 < 256 := fun x => Nat.mod_lt x (by decide)
  obtain ⟨first, second, third, last⟩ := digits _ _ _ _ (small (n / 2 ^ 24)) (small (n / 2 ^ 16))
    (small (n / 2 ^ 8)) (small n)
  rw [← word] at first second third last
  simp only [bytes32, lengthField, List.range, List.range.loop, List.map_cons, List.map_nil,
    byte _ _ first, byte _ _ second, byte _ _ third, byte _ _ last]

theorem wire_frame {op : Operation} (flags : Nat) (fresh : Mem) (allowed : op.Allowed) :
    op.wire .tcp flags fresh = .ok (some (frame (op.message flags))) := by
  have total := op.total_length flags
  have small := op.overhead_le
  have room := allowed.2
  simp only [maxSize] at room
  rw [wire_eq op .tcp flags fresh (by simp only [Transport.idOffset, Nmdb.SBSIZE]; omega),
    Transport.lengthPrefix, frame,
    bytes32_htonl, Nat.add_comm 4]

/-- A request within the limits of the manual is let through by process_buf exactly if its frame
has room for what is in it besides keys and values. And whatever total length is let through
has room for a header, except the three below 12. -/
theorem size_limits_agree_iff {op : Operation} (allowed : op.Allowed) (flags n : Nat) (fresh : Mem) :
    (∃ packet, op.wire .tcp flags fresh = .ok (some packet) ∧
      (KeptOpen packet (op.message flags) ↔ op.overhead + op.sizes ≤ 65536) ∧
      (65536 < op.overhead + op.sizes → Refused packet)) ∧
    ((Admits n → 12 ≤ n) ↔ ¬ (9 ≤ n ∧ n ≤ 11)) := by
  have total := op.total_length flags
  have header := message_length op flags
  have small := op.overhead_le
  have room := allowed.2
  simp only [maxSize] at room
  have long : 65536 < op.overhead + op.sizes → Refused (frame (op.message flags)) := by
    intro long
    refine frame_refused (by omega) fun inRange => ?_
    simp only [InRange, maxPacket] at inRange
    omega
  refine ⟨⟨_, wire_frame flags fresh allowed, ⟨fun kept => ?_, fun fits => ?_⟩, long⟩, fun only => ?_,
    fun other admits => ?_⟩
  · by_contra exceeds
    have size := frame_length (op.message flags)
    refine (long (Nat.lt_of_not_le exceeds)).not_keptOpen (List.ne_nil_of_length_pos (by omega)) ?_ kept
    simp only [Nmdb.SBSIZE]
    omega
  · refine frame_keptOpen ?_
    simp only [InRange, maxPacket]
    omega
  · rintro ⟨above, below⟩
    have := only (admits_of_range (by omega) (by simp only [maxPacket]; omega))
    omega
  · by_contra low
    exact not_admits_short (by omega) admits

/-- SET of a one byte key to 65515 bytes, the largest value for such a key. -/
theorem size_limits_agree_iff_set :
    ∃ packet, (Operation.set [65] (List.replicate 65515 7)).wire .tcp 0 (fun _ => 0) = .ok (some packet) ∧
      KeptOpen packet ((Operation.set [65] (List.replicate 65515 7)).message 0) := by
  have sizes : (Operation.set [65] (List.replicate 65515 7)).sizes = 65516 := by
    simp only [Operation.sizes, Operation.operands, List.map_cons, List.map_nil, List.length_replicate,
      List.length_singleton, List.sum_cons, List.sum_nil, Nat.reduceAdd]
  have allowed : (Operation.set [65] (List.replicate 65515 7)).Allowed := by
    refine ⟨fun b member => ?_, by rw [sizes]; decide⟩
    rcases List.mem_pair.mp member with rfl | rfl
    · decide
    · rw [List.length_replicate]
      decide
  obtain ⟨packet, sent, kept, _⟩ := (size_limits_agree_iff allowed 0 12 fun _ => 0).1
  exact ⟨packet, sent, kept.mpr (by rw [sizes]; decide)⟩

/-- One byte more is within the limits, and the connection is closed; a frame of nine bytes
is handed to the parser. -/
theorem size_limits_disagree :
    (Operation.set [65] (List.replicate 65516 7)).Allowed ∧
      (∃ packet, (Operation.set [65] (List.replicate 65516 7)).wire .tcp 0 (fun _ => 0) = .ok (some packet) ∧
        Refused packet ∧ ¬ KeptOpen packet ((Operation.set [65] (List.replicate 65516 7)).message 0)) ∧
      Admits 9 := by
  have sizes : (Operation.set [65] (List.replicate 65516 7)).sizes = 65517 := by
    simp only [Operation.sizes, Operation.operands, List.map_cons, List.map_nil, List.length_replicate,
      List.length_singleton, List.sum_cons, List.sum_nil, Nat.reduceAdd]
  have allowed : (Operation.set [65] (List.replicate 65516 7)).Allowed := by
    refine ⟨fun b member => ?_, by rw [sizes]; decide⟩
    rcases List.mem_pair.mp member with rfl | rfl
    · decide
    · rw [List.length_replicate]
      decide
  have total := (Operation.set [65] (List.replicate 65516 7)).total_length 0
  rw [sizes, show (Operation.set [65] (List.replicate 65516 7)).overhead = 20 from rfl] at total
  have size := frame_length ((Operation.set [65] (List.replicate 65516 7)).message 0)
  have refused : Refused (frame ((Operation.set [65] (List.replicate 65516 7)).message 0)) := by
    refine frame_refused (by omega) fun inRange => ?_
    simp only [InRange, maxPacket] at inRange
    omega
  refine ⟨allowed, ⟨_, wire_frame 0 (fun _ => 0) allowed, refused, ?_⟩, admits_of_range (by decide) (by decide)⟩
  refine refused.not_keptOpen (List.ne_nil_of_length_pos (by omega)) ?_
  simp only [Nmdb.SBSIZE]
  omega

end Nmdb
