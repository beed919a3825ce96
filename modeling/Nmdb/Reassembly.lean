import Nmdb.Tcp
import Nmdb.ParseBounds
import Nmdb.Lib.Runs

/-! How process_buf puts messages together again. With leftovers behind a message it goes on
with the length of that message, so it is right where as many bytes are left over. -/
namespace Nmdb

open Wire

variable {σ : Type}

def lengthField (n : Nat) : Bytes :=
  [UInt8.ofNat (n / 2 ^ 24), UInt8.ofNat (n / 2 ^ 16), UInt8.ofNat (n / 2 ^ 8), UInt8.ofNat n]

/-- A message on the wire, behind its total length. -/
def frame (b : Bytes) : Bytes := lengthField (b.length + 4) ++ b

/-- The length field at the beginning of bytes. -/
def frameLength (b : Bytes) : Nat := bigEndian (b.take 4)

/-- 12 <= total <= 65536 -/
def Sized (b : Bytes) : Prop := 12 ≤ b.length + 4 ∧ b.length + 4 ≤ 65536

/-- The totals process_buf goes on with. -/
def InRange (b : Bytes) : Prop := 8 < b.length + 4 ∧ b.length + 4 ≤ maxPacket

theorem Sized.inRange {b : Bytes} (sized : Sized b) : InRange b := by
  simp only [Sized] at sized
  simp only [InRange, maxPacket]
  omega

/-- What process_buf takes apart well, and what it is left with: a piece of a message, a
message, or a message and as many bytes again. -/
inductive Aligned : Bytes → Bytes → Prop
  | short {b : Bytes} (nonempty : b ≠ []) (short : b.length < 4) : Aligned b b
  | part {b : Bytes} (field : 4 ≤ b.length) (part : b.length < frameLength b) : Aligned b b
  | whole {b : Bytes} (field : 4 ≤ b.length) (whole : frameLength b = b.length) : Aligned b []
  | twice {b rest : Bytes} (field : 4 ≤ b.length) (twice : b.length = 2 * frameLength b)
      (behind : Aligned (b.drop (frameLength b)) rest) : Aligned b rest

theorem bigEndian_lengthField {n : Nat} (fits : n < 2 ^ 32) : bigEndian (lengthField n) = n := by
  simp only [bigEndian, lengthField, List.foldl_cons, List.foldl_nil, UInt8.toNat_ofNat']
  omega

theorem lengthField_length (n : Nat) : (lengthField n).length = 4 := rfl

theorem frame_length (b : Bytes) : (frame b).length = b.length + 4 := by
  rw [frame, List.length_append, lengthField_length, Nat.add_comm]

theorem frameLength_frame {b : Bytes} (sized : InRange b) (rest : Bytes) :
    frameLength (frame b ++ rest) = b.length + 4 := by
  have fits : b.length + 4 < 2 ^ 32 := by
    have := sized.2
    simp only [maxPacket] at this
    omega
  rw [frameLength, frame, List.append_assoc, List.take_left' (lengthField_length _)]
  exact bigEndian_lengthField fits

theorem frameLength_append {b : Bytes} (field : 4 ≤ b.length) (rest : Bytes) :
    frameLength (b ++ rest) = frameLength b := by
  rw [frameLength, List.take_append_of_le_length field, frameLength]

/-- Messages in a row are told apart in one way only. -/
theorem frames_cancel {bodies msgs : List Bytes} {rest : Bytes} (bodiesSized : ∀ b ∈ bodies, InRange b)
    (msgsSized : ∀ b ∈ msgs, InRange b) (same : bodies.flatMap frame ++ rest = msgs.flatMap frame) :
    ∃ left, msgs = bodies ++ left ∧ rest = left.flatMap frame := by
  induction bodies generalizing msgs with
  | nil => exact ⟨msgs, rfl, same⟩
  | cons a as ih =>
    rw [List.flatMap_cons, List.append_assoc] at same
    cases msgs with
    | nil =>
      have lengths := congrArg List.length same
      rw [List.length_append, frame_length] at lengths
      simp at lengths
    | cons b bs =>
      rw [List.flatMap_cons] at same
      have sizedA := bodiesSized a List.mem_cons_self
      have sizedB := msgsSized b List.mem_cons_self
      have lengths := congrArg frameLength same
      rw [frameLength_frame sizedA, frameLength_frame sizedB] at lengths
      obtain ⟨frames, tails⟩ := List.append_inj same (by rw [frame_length, frame_length, lengths])
      have bodies_eq : a = b := (List.append_inj frames rfl).2
      obtain ⟨left, split, rest_eq⟩ := ih (fun x hx => bodiesSized x (List.mem_cons_of_mem a hx))
        (fun x hx => msgsSized x (List.mem_cons_of_mem b hx)) tails
      exact ⟨left, by rw [split, bodies_eq]; rfl, rest_eq⟩

section

variable {m m' : Mem}

theorem slice_prefix (m : Mem) {n k : Nat} (inside : n ≤ k) : (slice m 0 k).take n = slice m 0 n := by
  obtain ⟨d, rfl⟩ := Nat.exists_eq_add_of_le inside
  rw [slice_append, List.take_left' (slice_length ..)]

theorem slice_suffix (m : Mem) (n k : Nat) : (slice m 0 (n + k)).drop n = slice m n k := by
  rw [slice_append, List.drop_left' (slice_length ..), Nat.zero_add]

theorem slice_from (m : Mem) (off n : Nat) : slice (m.from off) 0 n = slice m off n := by
  unfold slice Mem.from
  refine List.map_congr_left fun i _ => ?_
  rw [Nat.zero_add]

theorem slice_memmove (m : Mem) (off n : Nat) : slice (memmove m off n) 0 n = slice m off n := by
  unfold slice memmove
  refine List.map_congr_left fun i hi => ?_
  rw [Nat.zero_add, if_pos (List.mem_range.mp hi)]

theorem received_before (m : Mem) (off : Nat) (b : Bytes) : slice (received m off b) 0 off = slice m 0 off := by
  unfold slice received
  refine List.map_congr_left fun i hi => if_neg fun inside => ?_
  have := List.mem_range.mp hi
  omega

theorem received_here (m : Mem) (off : Nat) (b : Bytes) : slice (received m off b) off b.length = b := by
  refine List.ext_getElem (slice_length ..) fun i hi hb => ?_
  simp only [slice, received, List.getElem_map, List.getElem_range]
  rw [if_pos ⟨Nat.le_add_right .., by omega⟩, Nat.add_sub_cancel_left, List.getD_eq_getElem?_getD,
    List.getElem?_eq_getElem hb, Option.getD_some]

theorem slice_received (m : Mem) (p b : Bytes) (held : slice m 0 p.length = p) :
    slice (received m p.length b) 0 (p ++ b).length = p ++ b := by
  rw [List.length_append, slice_append, received_before, held, Nat.zero_add, received_here]

/- The length process_buf reads is the one at the beginning of what was received. -/
theorem totaltoget_eq {b : Bytes} (held : slice m 0 b.length = b) (field : 4 ≤ b.length) :
    totaltoget m b.length = frameLength b := by
  rw [totaltoget, if_pos field, ntohl_load32, frameLength, ← slice_prefix m field, held]

end

/-- The parser with the bodies it is handed written down. -/
structure Handed (σ : Type) where
  state : σ
  bodies : List Bytes

def recording (parse : σ → ReqInfo Client → Mem → Nat → Except Fault (Bool × σ)) (h : Handed σ)
    (req : ReqInfo Client) (buf : Mem) (len : Nat) : Except Fault (Bool × Handed σ) := do
  let (rv, st) ← parse h.state req buf len
  return (rv, ⟨st, h.bodies ++ [slice buf 0 len]⟩)

/-- The parser takes a message in every state it gets into, whatever lies behind it. -/
def Accepted (parse : σ → ReqInfo Client → Mem → Nat → Except Fault (Bool × σ)) (I : σ → Prop)
    (b : Bytes) : Prop :=
  ∀ st req buf, I st → slice buf 0 b.length = b → ∃ st', parse st req buf b.length = .ok (true, st') ∧ I st'

/-- The socket keeps the piece of a message that has come so far. -/
def TcpSocket.Holds (tcpsock : TcpSocket) (piece : Bytes) : Prop :=
  tcpsock.excess = 0 ∧
  match tcpsock.buf with
  | none => piece = []
  | some buf => slice buf 0 piece.length = piece ∧ tcpsock.len = piece.length ∧
      piece.length < tcpsock.pktsize ∧ tcpsock.pktsize = if 4 ≤ piece.length then frameLength piece else 4

section

variable {parse : σ → ReqInfo Client → Mem → Nat → Except Fault (Bool × σ)} {I : σ → Prop}
  {msgs : List Bytes} {b rest future : Bytes} {ok : Bool} {fuel : Nat} {tcpsock : TcpSocket} {buf : Mem}
  {h : Handed σ}

/- The first message of a stream whose length field is there. -/
theorem stream_head (sized : ∀ x ∈ msgs, InRange x) (stream : b ++ future = msgs.flatMap frame)
    (field : 4 ≤ b.length) : ∃ x later, msgs = x :: later ∧ frameLength b = x.length + 4 := by
  cases msgs with
  | nil =>
    have lengths := congrArg List.length stream
    simp at lengths
    simp [lengths.1] at field
  | cons x later =>
    refine ⟨x, later, rfl, ?_⟩
    rw [← frameLength_append field future, stream, List.flatMap_cons,
      frameLength_frame (sized x List.mem_cons_self)]

theorem stream_first {x : Bytes} {later : List Bytes} (stream : b ++ future = (x :: later).flatMap frame)
    (inside : x.length + 4 ≤ b.length) :
    b.take (x.length + 4) = frame x ∧ b.drop (x.length + 4) ++ future = later.flatMap frame := by
  rw [← List.take_append_drop (x.length + 4) b, List.append_assoc, List.flatMap_cons] at stream
  refine List.append_inj stream ?_
  rw [List.length_take, Nat.min_eq_left inside, frame_length]

/-- The body of the message at the beginning of a buffer. -/
theorem body_slice {x : Bytes} (held : slice buf 0 b.length = b) (inside : x.length + 4 ≤ b.length)
    (first : b.take (x.length + 4) = frame x) : slice (buf.from 4) 0 x.length = x := by
  have whole : slice buf 0 (4 + x.length) = frame x := by
    rw [← slice_prefix buf (show 4 + x.length ≤ b.length by omega), held, Nat.add_comm, first]
  rw [slice_from, ← slice_suffix, whole, frame, List.drop_left' (lengthField_length _)]

/-- A piece of a message is put into the socket. -/
theorem processBuf_piece (parse : σ → ReqInfo Client → Mem → Nat → Except Fault (Bool × σ)) (h : Handed σ)
    (held : slice buf 0 b.length = b) (enough : 0 < fuel)
    (excess : tcpsock.excess = 0) (room : ok = true ∨ tcpsock.buf ≠ none)
    (valid : 4 ≤ b.length → 8 < frameLength b ∧ frameLength b ≤ maxPacket)
    (piece : b.length < if 4 ≤ b.length then frameLength b else 4) :
    ∃ tcpsock', processBuf (recording parse) ok fuel tcpsock buf b.length h = .ok (some tcpsock', buf, h) ∧
      tcpsock'.Holds b := by
  obtain ⟨fuel, rfl⟩ := Nat.exists_eq_add_one_of_ne_zero (Nat.pos_iff_ne_zero.mp enough)
  have total : totaltoget buf b.length = if 4 ≤ b.length then frameLength b else 4 := by
    split
    case isTrue field => exact totaltoget_eq held field
    case isFalse short => exact if_neg short
  have inRange : ¬ (4 ≤ b.length ∧
      (maxPacket < totaltoget buf b.length ∨ totaltoget buf b.length ≤ 8)) := by
    rintro ⟨field, out⟩
    rw [total, if_pos field] at out
    have := valid field
    omega
  rw [total] at inRange
  unfold processBuf
  simp only [total, if_neg inRange, if_pos piece]
  cases own : tcpsock.buf with
  | none =>
    have okay : ok = true := room.resolve_right (not_not_intro own)
    simp only [okay, Bool.not_true, Bool.false_eq_true, if_false]
    refine ⟨_, rfl, excess, ?_⟩
    have copied : slice (fun i => if i < b.length then buf i else indeterminate) 0 b.length = b := by
      rw [slice_same (show SameUpTo b.length _ buf from fun i hi => if_pos hi) (by omega), held]
    exact ⟨copied, rfl, piece, rfl⟩
  | some old => exact ⟨_, rfl, excess, held, rfl, piece, rfl⟩

theorem recording_accepted {x : Bytes} (accepts : Accepted parse I x) (inv : I h.state) (req : ReqInfo Client)
    {m : Mem} (body : slice m 0 x.length = x) :
    ∃ st, recording parse h req m x.length = .ok (true, ⟨st, h.bodies ++ [x]⟩) ∧ I st := by
  obtain ⟨st, done, inv'⟩ := accepts h.state req m inv body
  refine ⟨st, ?_, inv'⟩
  simp only [recording, done, ok_bind, pure_ok, body]

/-- Bytes cut well are taken apart into their messages. -/
theorem processBuf_aligned (aligned : Aligned b rest) (sized : ∀ x ∈ msgs, InRange x)
    (accepted : ∀ x ∈ msgs, Accepted parse I x) (stream : b ++ future = msgs.flatMap frame)
    (held : slice buf 0 b.length = b) (enough : b.length < fuel) (excess : tcpsock.excess = 0)
    (room : rest = [] ∨ ok = true ∨ tcpsock.buf ≠ none) (inv : I h.state) :
    ∃ tcpsock' buf' st new,
      processBuf (recording parse) ok fuel tcpsock buf b.length h =
        .ok (some tcpsock', buf', ⟨st, h.bodies ++ new⟩) ∧
      tcpsock'.Holds rest ∧ I st ∧ b = new.flatMap frame ++ rest ∧ ∀ x ∈ new, InRange x := by
  induction aligned generalizing msgs fuel tcpsock buf h with
  | @short b nonempty short =>
    have made := processBuf_piece parse h held (Nat.zero_lt_of_lt enough) excess
      (room.resolve_left nonempty) (fun field => by omega) (by rw [if_neg (by omega)]; exact short)
    obtain ⟨tcpsock', done, holds⟩ := made
    exact ⟨tcpsock', buf, h.state, [], by rw [done, List.append_nil], holds, inv, rfl, fun x hx => by cases hx⟩
  | @part b field part =>
    obtain ⟨x, later, rfl, total⟩ := stream_head sized stream field
    have bound := sized x List.mem_cons_self
    have nonempty : b ≠ [] := by
      rintro rfl
      simp at field
    have made := processBuf_piece parse h held (Nat.zero_lt_of_lt enough) excess
      (room.resolve_left nonempty) (fun _ => by
        simp only [InRange, maxPacket] at bound ⊢
        omega) (by rw [if_pos field]; exact part)
    obtain ⟨tcpsock', done, holds⟩ := made
    exact ⟨tcpsock', buf, h.state, [], by rw [done, List.append_nil], holds, inv, rfl, fun x hx => by cases hx⟩
  | @whole b field whole =>
    obtain ⟨x, later, rfl, total⟩ := stream_head sized stream field
    have bound := sized x List.mem_cons_self
    have length : b.length = x.length + 4 := whole.symm.trans total
    obtain ⟨first, _⟩ := stream_first stream (Nat.le_of_eq length.symm)
    obtain ⟨st, parsed, inv'⟩ := recording_accepted (accepted x List.mem_cons_self) inv tcpsock.req
      (body_slice held (Nat.le_of_eq length.symm) first)
    have inRange : ¬ (4 ≤ b.length ∧ (maxPacket < b.length ∨ b.length ≤ 8)) := by
      simp only [InRange, maxPacket] at bound ⊢
      omega
    have frame_eq : b = frame x := by
      rw [← first, ← length, List.take_length]
    obtain ⟨fuel, rfl⟩ := Nat.exists_eq_add_one_of_ne_zero (Nat.ne_of_gt (Nat.zero_lt_of_lt enough))
    have start : processBuf (recording parse) ok (fuel + 1) tcpsock buf b.length h =
        match tcpsock.buf with
        | none => .ok (some tcpsock, buf, ⟨st, h.bodies ++ [x]⟩)
        | some _ => .ok (some { tcpsock with buf := none, len := 0, pktsize := 0, excess := 0 }, buf,
            ⟨st, h.bodies ++ [x]⟩) := by
      have body : b.length - 4 = x.length := by omega
      unfold processBuf
      cases own : tcpsock.buf <;>
        simp only [totaltoget_eq held field, whole, if_neg inRange, Nat.lt_irrefl, if_false, body, parsed,
          ok_bind, Bool.not_true, Bool.false_eq_true, excess, ne_eq, not_true_eq_false, pure_ok, own]
    rw [start]
    cases own : tcpsock.buf with
    | none =>
      exact ⟨tcpsock, buf, st, [x], rfl, ⟨excess, by rw [own]⟩, inv', by simp [frame_eq],
        fun y hy => List.mem_singleton.mp hy ▸ bound⟩
    | some old =>
      exact ⟨_, buf, st, [x], rfl, ⟨rfl, rfl⟩, inv', by simp [frame_eq],
        fun y hy => List.mem_singleton.mp hy ▸ bound⟩
  | @twice b rest field twice behind ih =>
    obtain ⟨x, later, rfl, total⟩ := stream_head sized stream field
    have bound := sized x List.mem_cons_self
    rw [total] at twice behind ih
    have inside : x.length + 4 ≤ b.length := by omega
    obtain ⟨first, stream'⟩ := stream_first stream inside
    obtain ⟨st, parsed, inv'⟩ := recording_accepted (accepted x List.mem_cons_self) inv tcpsock.req
      (body_slice held inside first)
    have inRange : ¬ (4 ≤ b.length ∧ (maxPacket < x.length + 4 ∨ x.length + 4 ≤ 8)) := by
      simp only [InRange, maxPacket] at bound ⊢
      omega
    have length : (b.drop (x.length + 4)).length = x.length + 4 := by
      rw [List.length_drop]
      omega
    have moved : slice (memmove buf (x.length + 4) (x.length + 4)) 0 (b.drop (x.length + 4)).length =
        b.drop (x.length + 4) := by
      rw [length, slice_memmove, ← slice_suffix buf (x.length + 4), ← Nat.two_mul, ← twice, held]
    obtain ⟨fuel, rfl⟩ := Nat.exists_eq_add_one_of_ne_zero (Nat.ne_of_gt (Nat.zero_lt_of_lt enough))
    let next := initReq { tcpsock with len := x.length + 4, excess := 0 }
    have start : processBuf (recording parse) ok (fuel + 1) tcpsock buf b.length h =
        processBuf (recording parse) ok fuel next (memmove buf (x.length + 4) (x.length + 4))
          (b.drop (x.length + 4)).length ⟨st, h.bodies ++ [x]⟩ := by
      have more : x.length + 4 < b.length := by omega
      have left : b.length - (x.length + 4) = x.length + 4 := by omega
      have some_left : x.length + 4 ≠ 0 := by omega
      rw [length]
      conv => lhs; unfold processBuf
      simp only [totaltoget_eq held field, total, if_neg inRange, Nat.lt_asymm more, if_false, if_pos more,
        Nat.add_sub_cancel, parsed, ok_bind, Bool.not_true, Bool.false_eq_true, left, some_left, ne_eq,
        not_false_eq_true, if_true]
      rfl
    obtain ⟨tcpsock', buf', st', new, done, holds, inv'', parts, newSized⟩ :
        ∃ tcpsock' buf' st' new,
          processBuf (recording parse) ok fuel next (memmove buf (x.length + 4) (x.length + 4))
            (b.drop (x.length + 4)).length ⟨st, h.bodies ++ [x]⟩ =
              .ok (some tcpsock', buf', ⟨st', (h.bodies ++ [x]) ++ new⟩) ∧
          tcpsock'.Holds rest ∧ I st' ∧ b.drop (x.length + 4) = new.flatMap frame ++ rest ∧
          ∀ y ∈ new, InRange y :=
      ih (fun y hy => sized y (List.mem_cons_of_mem x hy))
        (fun y hy => accepted y (List.mem_cons_of_mem x hy)) stream' moved (by omega) rfl room inv'
    refine ⟨tcpsock', buf', st', x :: new, ?_, holds, inv'', ?_, ?_⟩
    · rw [start, done, List.append_assoc]
      rfl
    · rw [List.flatMap_cons, List.append_assoc, ← parts, ← first, List.take_append_drop]
    · intro y hy
      rcases List.mem_cons.mp hy with rfl | behind
      · exact bound
      · exact newSized y behind

/- Bytes that do not go past the first message are always cut well. -/
theorem aligned_upTo (nonempty : b ≠ []) (upTo : 4 ≤ b.length → b.length ≤ frameLength b) :
    ∃ rest, Aligned b rest := by
  by_cases field : 4 ≤ b.length
  · rcases Nat.lt_or_eq_of_le (upTo field) with part | whole
    · exact ⟨_, .part field part⟩
    · exact ⟨_, .whole field whole.symm⟩
  · exact ⟨_, .short nonempty (Nat.lt_of_not_le field)⟩

theorem aligned_within {piece rv : Bytes} (sized : ∀ x ∈ msgs, InRange x)
    (stream : (piece ++ rv) ++ future = msgs.flatMap frame) (nonempty : rv ≠ [])
    (within : (piece ++ rv).length ≤ if 4 ≤ piece.length then frameLength piece else 4) :
    ∃ rest, Aligned (piece ++ rv) rest := by
  refine aligned_upTo (List.append_ne_nil_of_right_ne_nil piece nonempty) fun field => ?_
  obtain ⟨x, later, rfl, total⟩ := stream_head sized stream field
  have bound := sized x List.mem_cons_self
  split at within
  case isTrue had =>
    rw [frameLength_append had]
    exact within
  case isFalse =>
    rw [total]
    simp only [InRange] at bound
    omega

/- What tcp_recv hands to process_buf: the piece the socket holds and the bytes received. -/
theorem tcpRecv_into (parse : σ → ReqInfo Client → Mem → Nat → Except Fault (Bool × σ)) (ok : Bool)
    (static : Mem) {piece rv : Bytes} (st : σ) (holds : tcpsock.Holds piece) (nonempty : rv ≠ []) :
    ∃ tcpsock' buf', slice buf' 0 (piece ++ rv).length = piece ++ rv ∧ tcpsock'.excess = 0 ∧
      (tcpsock'.buf = none ↔ tcpsock.buf = none) ∧
      ∀ after left st', processBuf parse ok ((piece ++ rv).length + 1) tcpsock' buf' (piece ++ rv).length st =
        .ok (after, left, st') →
          ∃ static', tcpRecv parse ok static tcpsock rv st = .ok (after, static', st') := by
  obtain ⟨excess, kept⟩ := holds
  cases own : tcpsock.buf with
  | none =>
    simp only [own] at kept
    subst kept
    refine ⟨initReq tcpsock, received static 0 rv, received_here static 0 rv, excess, iff_of_true own rfl, ?_⟩
    intro after left st' done
    rw [List.nil_append] at done
    refine ⟨left, ?_⟩
    simp only [tcpRecv, if_neg nonempty, own, done]
  | some buf =>
    simp only [own] at kept
    obtain ⟨held, len, _, _⟩ := kept
    have whole := slice_received buf piece rv held
    have total : tcpsock.len + rv.length = (piece ++ rv).length := by
      rw [len, List.length_append]
    rw [← len] at whole
    refine ⟨{ tcpsock with buf := some (received buf tcpsock.len rv), len := (piece ++ rv).length }, _, whole,
      excess, iff_of_false nofun nofun, ?_⟩
    intro after left st' done
    refine ⟨static, ?_⟩
    simp only [tcpRecv, if_neg nonempty, own, total, done, ok_bind, pure_ok]

theorem tcpRecv_clean (static : Mem) {piece rv : Bytes} (sized : ∀ x ∈ msgs, InRange x)
    (accepted : ∀ x ∈ msgs, Accepted parse I x) (holds : tcpsock.Holds piece)
    (stream : (piece ++ rv) ++ future = msgs.flatMap frame) (nonempty : rv ≠ [])
    (within : rv.length ≤ tcpsock.asked)
    (clean : tcpsock.buf = none → ∃ rest, Aligned rv rest ∧ (rest = [] ∨ ok = true)) (inv : I h.state) :
    ∃ tcpsock' static' st new piece',
      tcpRecv (recording parse) ok static tcpsock rv h =
        .ok (some tcpsock', static', ⟨st, h.bodies ++ new⟩) ∧
      tcpsock'.Holds piece' ∧ I st ∧ piece ++ rv = new.flatMap frame ++ piece' ∧ ∀ x ∈ new, InRange x := by
  obtain ⟨next, buf, held, excess, same, into⟩ := tcpRecv_into (recording parse) ok static h holds nonempty
  obtain ⟨rest, aligned, room⟩ : ∃ rest, Aligned (piece ++ rv) rest ∧
      (rest = [] ∨ ok = true ∨ next.buf ≠ none) := by
    obtain ⟨_, kept⟩ := holds
    cases own : tcpsock.buf with
    | none =>
      simp only [own] at kept
      subst kept
      obtain ⟨rest, aligned, room⟩ := clean own
      exact ⟨rest, aligned, room.imp id .inl⟩
    | some old =>
      simp only [own] at kept
      obtain ⟨_, len, open_, pktsize⟩ := kept
      have asked : (piece ++ rv).length ≤ if 4 ≤ piece.length then frameLength piece else 4 := by
        rw [← pktsize, List.length_append]
        simp only [TcpSocket.asked, own, len] at within
        omega
      obtain ⟨rest, aligned⟩ := aligned_within sized stream nonempty asked
      refine ⟨rest, aligned, .inr (.inr fun none => ?_)⟩
      rw [same, own] at none
      contradiction
  obtain ⟨tcpsock', buf', st, new, done, holds', inv', parts, newSized⟩ :=
    processBuf_aligned aligned sized accepted stream held (Nat.lt_succ_self _) excess room inv
  obtain ⟨static', received⟩ := into _ _ _ done
  exact ⟨tcpsock', static', st, new, rest, received, holds', inv', parts, newSized⟩

/- What a socket holds is less than the next message. -/
theorem holds_incomplete {piece x : Bytes} {later : List Bytes} (sized : InRange x)
    (holds : tcpsock.Holds piece) (stream : piece ++ future = (x :: later).flatMap frame) :
    piece.length < x.length + 4 := by
  obtain ⟨_, kept⟩ := holds
  split at kept
  · rw [kept]
    exact Nat.succ_pos _
  · obtain ⟨_, _, incomplete, pktsize⟩ := kept
    split at pktsize
    case isTrue field =>
      have total := frameLength_append field future
      rw [stream, List.flatMap_cons, frameLength_frame sized] at total
      omega
    case isFalse =>
      simp only [InRange] at sized
      omega

end

/-- One return of recv(), with what the static buffer held before it. -/
structure Read where
  static : Mem
  rv : Bytes
  ok : Bool

structure TcpRun (σ : Type) where
  tcpsock : Option TcpSocket
  handed : Handed σ

def tcpStep (parse : σ → ReqInfo Client → Mem → Nat → Except Fault (Bool × σ)) (s : TcpRun σ) (x : Read) :
    Except Fault (TcpRun σ) :=
  match s.tcpsock with
  | none => .ok s
  | some tcpsock => do
    let (tcpsock, _, h) ← tcpRecv (recording parse) x.ok x.static tcpsock x.rv s.handed
    return ⟨tcpsock, h⟩

/-- recv() returns at least a byte and at most what it was asked for. -/
def WithinAsked (s : TcpRun σ) (x : Read) : Prop :=
  ∀ tcpsock, s.tcpsock = some tcpsock → x.rv ≠ [] ∧ x.rv.length ≤ tcpsock.asked

/-- What is read where no message is begun is cut well, with memory for a piece left over. -/
def CutWell (s : TcpRun σ) (x : Read) : Prop :=
  ∀ tcpsock, s.tcpsock = some tcpsock → tcpsock.buf = none →
    ∃ rest, Aligned x.rv rest ∧ (rest = [] ∨ x.ok = true)

section

variable {parse : σ → ReqInfo Client → Mem → Nat → Except Fault (Bool × σ)} {I : σ → Prop}

theorem tcpRun_clean {reads : List Read} {msgs : List Bytes} {future piece : Bytes} {s : TcpRun σ}
    {tcpsock : TcpSocket} (sized : ∀ x ∈ msgs, InRange x) (accepted : ∀ x ∈ msgs, Accepted parse I x)
    (isOpen : s.tcpsock = some tcpsock) (holds : tcpsock.Holds piece) (inv : I s.handed.state)
    (stream : piece ++ ((reads.map Read.rv).flatten ++ future) = msgs.flatMap frame)
    (within : Runs.Along (tcpStep parse) WithinAsked s reads)
    (clean : Runs.Along (tcpStep parse) CutWell s reads) :
    ∃ t tcpsock' new left piece', Runs.run (tcpStep parse) s reads = .ok t ∧
      t.tcpsock = some tcpsock' ∧ t.handed.bodies = s.handed.bodies ++ new ∧ msgs = new ++ left ∧
      tcpsock'.Holds piece' ∧ piece' ++ future = left.flatMap frame := by
  induction reads generalizing s tcpsock msgs piece with
  | nil => exact ⟨s, tcpsock, [], msgs, piece, rfl, isOpen, (List.append_nil _).symm, rfl, holds, stream⟩
  | cons x rest ih =>
    obtain ⟨nonempty, asked⟩ := within.1 tcpsock isOpen
    have here : (piece ++ x.rv) ++ ((rest.map Read.rv).flatten ++ future) = msgs.flatMap frame := by
      rw [← stream, List.map_cons, List.flatten_cons, List.append_assoc, List.append_assoc]
    obtain ⟨tcpsock', static', st, new, piece', done, holds', inv', parts, newSized⟩ :=
      tcpRecv_clean x.static sized accepted holds here nonempty asked (clean.1 tcpsock isOpen) inv
    have taken : tcpStep parse s x = .ok ⟨some tcpsock', ⟨st, s.handed.bodies ++ new⟩⟩ := by
      simp only [tcpStep, isOpen, done, ok_bind, pure_ok]
    rw [parts, List.append_assoc] at here
    obtain ⟨left, rfl, tail⟩ := frames_cancel newSized sized here
    obtain ⟨t, last, more, left', piece'', ran, isOpen', bodies, split, holds'', end_⟩ :=
      ih (fun y hy => sized y (List.mem_append_right new hy))
        (fun y hy => accepted y (List.mem_append_right new hy)) rfl holds' inv' tail
        (within.2 _ taken) (clean.2 _ taken)
    refine ⟨t, last, new ++ more, left', piece'', ?_, isOpen', ?_, ?_, holds'', end_⟩
    · rw [Runs.run_cons_ok taken]
      exact ran
    · rw [bodies, List.append_assoc]
    · rw [split, List.append_assoc]

/-- Where every read into the static buffer is cut well, the messages handed to the parser
are, at any time, those that have come completely, in order; in the end all. -/
theorem messages_reassembled {msgs : List Bytes}
    (sized : ∀ b ∈ msgs, 12 ≤ b.length + 4 ∧ b.length + 4 ≤ 65536)
    (accepted : ∀ b ∈ msgs, Accepted parse I b) {st : σ} (initial : I st) (client : Client)
    {reads : List Read} {future : Bytes} (cut : (reads.map Read.rv).flatten ++ future = msgs.flatMap frame)
    (within : Runs.Along (tcpStep parse) WithinAsked ⟨some (.new client), ⟨st, []⟩⟩ reads)
    (clean : Runs.Along (tcpStep parse) CutWell ⟨some (.new client), ⟨st, []⟩⟩ reads) :
    ∃ s left piece, Runs.run (tcpStep parse) ⟨some (.new client), ⟨st, []⟩⟩ reads = .ok s ∧
      s.tcpsock.isSome ∧ msgs = s.handed.bodies ++ left ∧ piece ++ future = left.flatMap frame ∧
      (∀ b ∈ left.head?, piece.length < b.length + 4) ∧ (future = [] → s.handed.bodies = msgs) := by
  obtain ⟨s, tcpsock, new, left, piece, ran, isOpen, bodies, split, holds, tail⟩ :=
    tcpRun_clean (fun b hb => Sized.inRange (sized b hb)) accepted rfl
      (show TcpSocket.Holds (.new client) [] from ⟨rfl, rfl⟩) initial cut
      within clean
  rw [List.nil_append] at bodies
  have incomplete : ∀ b ∈ left.head?, piece.length < b.length + 4 := by
    intro b first
    obtain ⟨later, rfl⟩ := List.head?_eq_some_iff.mp first
    exact holds_incomplete
      (Sized.inRange (sized b (split ▸ List.mem_append_right new List.mem_cons_self))) holds tail
  refine ⟨s, left, piece, ran, by rw [isOpen]; rfl, by rw [bodies, split], tail, incomplete, fun ended => ?_⟩
  cases left with
  | nil => rw [bodies, split, List.append_nil]
  | cons b later =>
    have short := incomplete b rfl
    rw [ended, List.append_nil, List.flatMap_cons] at tail
    rw [tail, List.length_append, frame_length] at short
    omega

end

/-- The parser behind TCP, which also counts the message. -/
def tcpParse (m : Mallocs) (s : Server Client) (req : ReqInfo Client) (buf : Mem) (len : Nat) :
    Except Fault (Bool × Server Client) :=
  parseMessage m (s.count fun st => { st with msgTcp := st.msgTcp + 1 }) req buf len

def idleServer : Server Client := ⟨⟨4, 0, 1, fun _ => emptyChain⟩, [], {}, ⟨false⟩, []⟩

/-- STATS with an id. -/
def statsMessage (id : UInt8) : Bytes := [0x10, 0, 0, id, 0x01, 0x06, 0, 0]

theorem stats_accepted (m : Mallocs) (id : UInt8) :
    Accepted (tcpParse m) (fun _ => True) (statsMessage id) := by
  intro st req buf _ held
  have bytes : buf 0 = 0x10 ∧ buf 1 = 0 ∧ buf 2 = 0 ∧ buf 3 = id ∧ buf 4 = 0x01 ∧ buf 5 = 0x06 ∧
      buf 6 = 0 ∧ buf 7 = 0 := by
    simpa [statsMessage, slice, List.range_succ] using held
  obtain ⟨b0, b1, b2, b3, b4, b5, _⟩ := bytes
  have word : load32 buf 0 = 16 + id.toNat * 2 ^ 24 := by
    simp only [load32, load16, b0, b1, b2, b3, Nat.zero_add, UInt8.toNat_ofNat, Nat.reduceAdd]
    omega
  have small := id.toNat_lt
  have ver : version buf = PROTO_VER := by
    simp only [version, htonl, ntohl, ntohs, word, PROTO_VER]
    omega
  have cmd : command buf = Req.stats.code := by
    simp [command, ntohs, load16, b4, b5, Req.code]
  refine ⟨parseStats (st.count fun st => { st with msgTcp := st.msgTcp + 1 }) (headerInfo req buf), ?_, trivial⟩
  rw [tcpParse, parseMessage, if_neg (not_not_intro ver),
    parseCommand_eq m _ (show _ = Req.stats.code from cmd)]
  rfl

theorem messages_reassembled_two : ∃ s,
    Runs.run (tcpStep (tcpParse Mallocs.plenty)) ⟨some (.new ⟨5, 0⟩), ⟨idleServer, []⟩⟩
      [⟨fun _ => 0, frame (statsMessage 1) ++ frame (statsMessage 2), true⟩] = .ok s ∧
    s.handed.bodies = [statsMessage 1, statsMessage 2] := by
  have accepted : ∀ b ∈ [statsMessage 1, statsMessage 2],
      Accepted (tcpParse Mallocs.plenty) (fun _ => True) b := by
    intro b member
    rcases List.mem_pair.mp member with rfl | rfl
    · exact stats_accepted _ _
    · exact stats_accepted _ _
  have within : Runs.Along (tcpStep (tcpParse Mallocs.plenty)) WithinAsked
      ⟨some (.new ⟨5, 0⟩), ⟨idleServer, []⟩⟩
      [⟨fun _ => 0, frame (statsMessage 1) ++ frame (statsMessage 2), true⟩] := by
    refine ⟨?_, fun _ _ => trivial⟩
    rintro _ ⟨⟩
    exact ⟨by decide, by decide⟩
  have clean : Runs.Along (tcpStep (tcpParse Mallocs.plenty)) CutWell
      ⟨some (.new ⟨5, 0⟩), ⟨idleServer, []⟩⟩
      [⟨fun _ => 0, frame (statsMessage 1) ++ frame (statsMessage 2), true⟩] := by
    refine ⟨?_, fun _ _ => trivial⟩
    rintro _ ⟨⟩ _
    exact ⟨[], .twice (by decide) (by decide) (.whole (by decide) (by decide)), .inl rfl⟩
  obtain ⟨s, _, _, ran, _, _, _, _, all⟩ :=
    messages_reassembled (by decide) accepted trivial ⟨5, 0⟩ rfl within clean
  exact ⟨s, ran, all rfl⟩

/- The bodies the parser was handed in a run. -/
def bodiesOf (x : Except Fault (TcpRun σ)) : Option (List Bytes) :=
  match x with
  | .ok s => some s.handed.bodies
  | .error _ => none

theorem bodiesOf_some {x : Except Fault (TcpRun σ)} {bodies : List Bytes} (handed : bodiesOf x = some bodies) :
    ∃ s, x = .ok s ∧ s.handed.bodies = bodies := by
  cases x with
  | error e => contradiction
  | ok s => exact ⟨s, rfl, Option.some.inj handed⟩

/-- Three messages in one read: the third is lost. -/
theorem third_message_lost : ∃ s,
    Runs.run (tcpStep (tcpParse Mallocs.plenty)) ⟨some (.new ⟨5, 0⟩), ⟨idleServer, []⟩⟩
      [⟨fun _ => 0, [statsMessage 1, statsMessage 2, statsMessage 3].flatMap frame, true⟩] = .ok s ∧
    s.handed.bodies = [statsMessage 1, statsMessage 2] ∧
    s.handed.bodies ≠ [statsMessage 1, statsMessage 2, statsMessage 3] := by
  have seen : bodiesOf (Runs.run (tcpStep (tcpParse Mallocs.plenty))
    ⟨some (.new ⟨5, 0⟩), ⟨idleServer, []⟩⟩
    [⟨fun _ => 0, [statsMessage 1, statsMessage 2, statsMessage 3].flatMap frame, true⟩]) =
      some [statsMessage 1, statsMessage 2] := by decide
  obtain ⟨s, ran, handed⟩ := bodiesOf_some seen
  refine ⟨s, ran, handed, ?_⟩
  rw [handed]
  decide

end Nmdb
