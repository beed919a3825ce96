import Nmdb.LibraryRequests

/-! What the library makes of the stream a reply comes in: the pieces are put together in the
buffer of the request. A stream that breaks off leaves the old bytes behind the new ones. -/
namespace Nmdb.Library

open Wire

/-- A buffer that has received some bytes from its beginning on. -/
def refill (buf got : Bytes) : Bytes := got ++ buf.drop got.length

theorem refill_nil (buf : Bytes) : refill buf [] = buf := rfl

theorem refill_length {buf got : Bytes} (inside : got.length ≤ buf.length) :
    (refill buf got).length = buf.length := by
  rw [refill, List.length_append, List.length_drop]
  omega

theorem overlay_refill (buf got p : Bytes) : overlay (refill buf got) got.length p = refill buf (got ++ p) := by
  rw [overlay, refill, List.take_left, ← List.drop_drop, List.drop_left, List.drop_drop, refill,
    List.length_append]

section

variable {buf got : Bytes} {pieces : List Bytes} {tail : Arrivals}

theorem srecv_pieces (buf : Bytes) (nonempty : ∀ p ∈ pieces, p ≠ []) {off count c : Nat}
    (here : off + c = got.length)
    (inside : c ≤ count) (enough : count - c ≤ pieces.flatten.length) :
    ∃ rest : List Bytes, srecv off count c (refill buf got) (pieces.map some ++ tail) =
        ((count : Int), refill buf (got ++ pieces.flatten.take (count - c)), rest.map some ++ tail) ∧
      (∀ p ∈ rest, p ≠ []) ∧ pieces.flatten.take (count - c) ++ rest.flatten = pieces.flatten := by
  induction pieces generalizing got c with
  | nil =>
    have all : c = count := by
      rw [List.flatten_nil, List.length_nil] at enough
      omega
    refine ⟨[], ?_, nonempty, by rw [List.flatten_nil, List.take_nil]; rfl⟩
    rw [List.flatten_nil, List.take_nil, List.append_nil, ← all]
    cases tail with
    | nil => rfl
    | cons a rest => cases a <;> exact if_pos (Nat.le_refl _)
  | cons p ps ih =>
    have laterNonempty : ∀ q ∈ ps, q ≠ [] := fun q hq => nonempty q (List.mem_cons_of_mem p hq)
    simp only [List.map_cons, List.cons_append, srecv]
    by_cases done : count ≤ c
    · have none : count - c = 0 := by omega
      refine ⟨p :: ps, ?_, nonempty, ?_⟩
      · rw [if_pos done, none, List.take_zero, List.append_nil]
        rfl
      · rw [none]
        rfl
    · rw [if_neg done]
      by_cases last : count - c < p.length
      · have part : (p :: ps).flatten.take (count - c) = p.take (count - c) := by
          rw [List.flatten_cons, List.take_append_of_le_length (by omega)]
        refine ⟨p.drop (count - c) :: ps, ?_, ?_, ?_⟩
        · rw [if_pos last, here, overlay_refill, part]
          rfl
        · intro q hq
          rcases List.mem_cons.mp hq with rfl | later
          · exact List.ne_nil_of_length_pos (by rw [List.length_drop]; omega)
          · exact laterNonempty q later
        · rw [part, List.flatten_cons, List.flatten_cons, ← List.append_assoc, List.take_append_drop]
      · have some : p ≠ [] := nonempty p List.mem_cons_self
        have next : off + (c + p.length) = (got ++ p).length := by
          rw [List.length_append, ← here, Nat.add_assoc]
        rw [List.flatten_cons, List.length_append] at enough
        obtain ⟨rest, read, restNonempty, whole⟩ := ih laterNonempty next (by omega) (by omega)
        have part : (p :: ps).flatten.take (count - c) = p ++ ps.flatten.take (count - (c + p.length)) := by
          rw [List.flatten_cons, List.take_append, List.take_of_length_le (by omega), Nat.sub_sub]
        refine ⟨rest, ?_, restNonempty, ?_⟩
        · rw [if_neg last, if_neg some, here, overlay_refill, read, part, List.append_assoc]
        · rw [part, List.append_assoc, whole, List.flatten_cons]

theorem recvUpTo_pieces (buf got : Bytes) (tail : Arrivals) (nonempty : ∀ p ∈ pieces, p ≠ []) {upTo : Nat}
    (enough : upTo ≤ (got ++ pieces.flatten).length) :
    ∃ (more : Bytes) (rest : List Bytes), recvUpTo upTo got.length (refill buf got) (pieces.map some ++ tail) =
        (((got ++ more).length : Int), refill buf (got ++ more), rest.map some ++ tail) ∧
      (∀ p ∈ rest, p ≠ []) ∧ more ++ rest.flatten = pieces.flatten ∧
      (got ++ more).length = max upTo got.length := by
  rw [List.length_append] at enough
  unfold recvUpTo
  by_cases short : got.length < upTo
  · obtain ⟨rest, read, restNonempty, whole⟩ := srecv_pieces buf nonempty (Nat.add_zero got.length)
      (Nat.zero_le (upTo - got.length)) (by omega)
    have size : (pieces.flatten.take (upTo - got.length - 0)).length = upTo - got.length := by
      rw [List.length_take]
      omega
    refine ⟨_, rest, ?_, restNonempty, whole, ?_⟩
    · have some : ¬ ((upTo - got.length : Nat) : Int) ≤ 0 := by omega
      rw [if_pos short, read]
      simp only [if_neg some]
      rw [List.length_append, size]
      exact congrArg (·, _) (Nat.cast_add ..).symm
    · rw [List.length_append, size]
      omega
  · refine ⟨[], pieces, ?_, nonempty, rfl, ?_⟩
    · rw [if_neg short, List.append_nil]
    · rw [List.append_nil]
      omega

/-- Whether recv() fails or the peer has closed where the pieces end. -/
def ending (failed : Bool) : Arrivals := if failed then [none] else []

theorem srecv_short (buf : Bytes) (nonempty : ∀ p ∈ pieces, p ≠ []) {off c : Nat} (count : Nat)
    (here : off + c = got.length) (short : pieces.flatten.length < count - c) (failed : Bool) :
    srecv off count c (refill buf got) (pieces.map some ++ ending failed) =
      (if failed then -1 else ((c + pieces.flatten.length : Nat) : Int),
        refill buf (got ++ pieces.flatten), []) := by
  induction pieces generalizing got c with
  | nil =>
    rw [List.flatten_nil, List.length_nil] at short
    rw [List.flatten_nil, List.append_nil]
    cases failed with
    | false => rfl
    | true => exact if_neg (by omega)
  | cons p ps ih =>
    have some : p ≠ [] := nonempty p List.mem_cons_self
    rw [List.flatten_cons, List.length_append] at short
    have next : off + (c + p.length) = (got ++ p).length := by
      rw [List.length_append, ← here, Nat.add_assoc]
    have later := ih (fun q hq => nonempty q (List.mem_cons_of_mem p hq)) next (by omega)
    simp only [List.map_cons, List.cons_append, srecv]
    rw [if_neg (by omega), if_neg (by omega), if_neg some, here, overlay_refill, later, List.flatten_cons,
      List.append_assoc, List.length_append, Nat.add_assoc]

theorem recvUpTo_short (buf : Bytes) (nonempty : ∀ p ∈ pieces, p ≠ []) {upTo : Nat}
    (short : (got ++ pieces.flatten).length < upTo) (failed : Bool) :
    recvUpTo upTo got.length (refill buf got) (pieces.map some ++ ending failed) =
      (if failed then -1 else if pieces.flatten = [] then 0 else ((got ++ pieces.flatten).length : Int),
        refill buf (got ++ pieces.flatten), []) := by
  rw [List.length_append] at short
  have read := srecv_short buf nonempty (upTo - got.length) (Nat.add_zero got.length) (by omega) failed
  unfold recvUpTo
  rw [if_pos (by omega), read]
  cases failed with
  | true => rfl
  | false =>
    simp only [Bool.false_eq_true, if_false, Nat.zero_add]
    by_cases nothing : pieces.flatten = []
    · rw [if_pos nothing, nothing]
      rfl
    · have some := List.length_pos_iff.mpr nothing
      rw [if_neg nothing, if_neg (by omega), List.length_append]
      exact congrArg (·, _) (Nat.cast_add ..).symm

theorem recv_first (buf : Bytes) (tail : Arrivals) {p : Bytes} {ps : List Bytes}
    (nonempty : ∀ q ∈ p :: ps, q ≠ []) (room : 0 < buf.length) :
    ∃ rest : List Bytes, recv buf 0 buf.length ((p :: ps).map some ++ tail) =
        (((p.take buf.length).length : Int), refill buf (p.take buf.length), rest.map some ++ tail) ∧
      (∀ q ∈ rest, q ≠ []) ∧ p.take buf.length ++ rest.flatten = (p :: ps).flatten ∧
        p.take buf.length ≠ [] := by
  have later : ∀ q ∈ ps, q ≠ [] := fun q hq => nonempty q (List.mem_cons_of_mem p hq)
  have some := List.length_pos_iff.mpr (nonempty p List.mem_cons_self)
  have start := fun b => overlay_refill buf [] b
  simp only [List.length_nil, refill_nil, List.nil_append] at start
  rw [List.map_cons, List.cons_append, recv]
  by_cases whole : p.length ≤ buf.length
  · rw [if_pos whole, start, List.take_of_length_le whole]
    exact ⟨ps, rfl, later, rfl, nonempty p List.mem_cons_self⟩
  · rw [if_neg whole, start, List.length_take, Nat.min_eq_left (by omega)]
    refine ⟨p.drop buf.length :: ps, rfl, ?_, ?_, ?_⟩
    · intro q hq
      rcases List.mem_cons.mp hq with rfl | hq
      · exact List.ne_nil_of_length_pos (by rw [List.length_drop]; omega)
      · exact later q hq
    · rw [List.flatten_cons, List.flatten_cons, ← List.append_assoc, List.take_append_drop]
    · exact List.ne_nil_of_length_pos (by rw [List.length_take]; omega)

theorem msgsize_eq {b : Bytes} (field : 4 ≤ b.length) :
    ntohl (load32 (Mem.ofBytes b) 0) = bigEndian (b.take 4) := by
  have held := slice_ofBytes [] (b.take 4) (b.drop 4)
  rw [List.take_append_drop, List.nil_append, List.length_nil, List.length_take, Nat.min_eq_left field] at held
  rw [ntohl_load32, held]

theorem recvMsg_stages {socket s₁ s₂ : Arrivals} {b₁ b₂ : Bytes} {n k : Nat}
    (first : recv buf 0 buf.length socket = ((n : Int), b₁, s₁)) (some₁ : 0 < n)
    (field : recvUpTo 4 n b₁ s₁ = ((k : Int), b₂, s₂)) (some₂ : 0 < k) :
    recvMsg buf socket =
      if b₂.length < ntohl (load32 (Mem.ofBytes b₂) 0) then (-1, b₂, s₂)
      else recvUpTo (ntohl (load32 (Mem.ofBytes b₂) 0)) k b₂ s₂ := by
  have positive₁ : ¬ (n : Int) ≤ 0 := by omega
  have positive₂ : ¬ (k : Int) ≤ 0 := by omega
  unfold recvMsg
  simp only [first, if_neg positive₁, Int.toNat_natCast, field, if_neg positive₂]

theorem msgsize_refill {got : Bytes} (field : 4 ≤ got.length) (room : got.length ≤ buf.length) :
    ntohl (load32 (Mem.ofBytes (refill buf got)) 0) = bigEndian (got.take 4) := by
  rw [msgsize_eq (by rw [refill_length room]; omega), refill, List.take_append_of_le_length field]

theorem recvMsg_field (tail : Arrivals) (nonempty : ∀ p ∈ pieces, p ≠ []) (field : 4 ≤ pieces.flatten.length)
    (room : 4 ≤ buf.length) :
    ∃ (got : Bytes) (rest : List Bytes), recvMsg buf (pieces.map some ++ tail) =
        (if buf.length < bigEndian (pieces.flatten.take 4) then (-1, refill buf got, rest.map some ++ tail)
        else recvUpTo (bigEndian (pieces.flatten.take 4)) got.length (refill buf got) (rest.map some ++ tail)) ∧
      (∀ p ∈ rest, p ≠ []) ∧ got ++ rest.flatten = pieces.flatten ∧ got.length ≤ buf.length ∧
      got.length = max 4 (((pieces.headD []).take buf.length).length) := by
  cases pieces with
  | nil => contradiction
  | cons p ps =>
    obtain ⟨rest, first, restNonempty, split, some⟩ := recv_first buf tail nonempty (by omega)
    obtain ⟨more, rest', second, restNonempty', split', size⟩ :=
      recvUpTo_pieces buf (p.take buf.length) tail restNonempty (show 4 ≤ _ by rw [split]; exact field)
    have small := List.length_take_le buf.length p
    have ends : (p.take buf.length ++ more) ++ rest'.flatten = (p :: ps).flatten := by
      rw [List.append_assoc, split', split]
    have inside : (p.take buf.length ++ more).length ≤ buf.length := by omega
    have msgsize := msgsize_refill (show 4 ≤ (p.take buf.length ++ more).length by omega) inside
    have four : (p.take buf.length ++ more).take 4 = (p :: ps).flatten.take 4 := by
      rw [← ends]
      exact (List.take_append_of_le_length (by omega)).symm
    refine ⟨p.take buf.length ++ more, rest', ?_, restNonempty', ends, inside, size⟩
    have some' : 0 < (p.take buf.length ++ more).length := by omega
    rw [recvMsg_stages first (List.length_pos_iff.mpr some) second some', msgsize, four, refill_length inside]

section

variable {packet : Bytes} (length : bigEndian (packet.take 4) = packet.length)

include length

theorem recvMsg_complete (tail : Arrivals) (nonempty : ∀ p ∈ pieces, p ≠ [])
    (complete : packet <+: pieces.flatten)
    (field : 4 ≤ packet.length) (room : packet.length ≤ buf.length) :
    ∃ (got : Bytes) (rest : List Bytes), recvMsg buf (pieces.map some ++ tail) =
        ((got.length : Int), refill buf got, rest.map some ++ tail) ∧
      packet <+: got ∧ (∀ p ∈ rest, p ≠ []) ∧ got ++ rest.flatten = pieces.flatten := by
  have enough := complete.length_le
  have four : pieces.flatten.take 4 = packet.take 4 := by
    obtain ⟨behind, whole⟩ := complete
    rw [← whole, List.take_append_of_le_length field]
  obtain ⟨got, rest, read, restNonempty, split, small, _⟩ := recvMsg_field tail nonempty
    (field.trans enough) (field.trans room)
  rw [four, length, if_neg (Nat.not_lt.mpr room)] at read
  obtain ⟨more, rest', last, restNonempty', split', size⟩ := recvUpTo_pieces buf got tail restNonempty
    (show packet.length ≤ _ by rw [split]; exact enough)
  have ends : (got ++ more) ++ rest'.flatten = pieces.flatten := by
    rw [List.append_assoc, split', split]
  refine ⟨got ++ more, rest', read.trans last, ?_, restNonempty', ends⟩
  apply List.prefix_of_prefix_length_le complete
  · exact ⟨rest'.flatten, ends⟩
  · omega

theorem recvMsg_broken (nonempty : ∀ p ∈ pieces, p ≠ []) (part : pieces.flatten <+: packet)
    (short : pieces.flatten.length < packet.length) (field : 4 ≤ pieces.flatten.length)
    (room : packet.length ≤ buf.length) (failed : Bool) :
    (recvMsg buf (pieces.map some ++ ending failed)).1 =
      if failed then -1
      else if pieces.flatten.length = max 4 (pieces.headD []).length then 0 else (pieces.flatten.length : Int) := by
  have four : pieces.flatten.take 4 = packet.take 4 := by
    obtain ⟨behind, whole⟩ := part
    rw [← whole, List.take_append_of_le_length field]
  obtain ⟨got, rest, read, restNonempty, split, small, size⟩ := recvMsg_field (ending failed) nonempty field
    (show 4 ≤ buf.length by omega)
  rw [four, length, if_neg (Nat.not_lt.mpr room),
    recvUpTo_short buf restNonempty (by rw [split]; exact short) failed, split] at read
  have first : (pieces.headD []).take buf.length = pieces.headD [] := by
    apply List.take_of_length_le
    cases pieces with
    | nil => exact Nat.zero_le _
    | cons p ps =>
      rw [List.flatten_cons, List.length_append] at short
      change p.length ≤ _
      omega
  rw [first] at size
  have lengths := congrArg List.length split
  rw [List.length_append] at lengths
  have nothing : rest.flatten = [] ↔ pieces.flatten.length = max 4 (pieces.headD []).length := by
    rw [← List.length_eq_zero_iff, ← lengths, size]
    omega
  rw [read]
  simp only [nothing]

end

/-- A message that breaks off in its length field: the rest of the field is what the buffer held. -/
theorem recvMsg_headless (nonempty : ∀ p ∈ pieces, p ≠ []) (short : pieces.flatten.length < 4)
    (room : 4 ≤ buf.length) (failed : Bool) :
    (recvMsg buf (pieces.map some ++ ending failed)).1 =
      if failed then -1
      else if pieces.flatten.length = (pieces.headD []).length then 0
      else if buf.length < bigEndian ((pieces.flatten ++ buf.drop pieces.flatten.length).take 4) then -1
      else if pieces.flatten.length < bigEndian ((pieces.flatten ++ buf.drop pieces.flatten.length).take 4) then 0
      else (pieces.flatten.length : Int) := by
  cases pieces with
  | nil => cases failed <;> rfl
  | cons p ps =>
    obtain ⟨rest, first, restNonempty, split, some⟩ := recv_first buf (ending failed) nonempty (by omega)
    have positive := List.length_pos_iff.mpr some
    have lengths := congrArg List.length split
    rw [List.length_append] at lengths
    have whole : p.take buf.length = p := by
      apply List.take_of_length_le
      rw [List.length_take] at lengths
      omega
    rw [whole] at first split positive lengths
    have second := recvUpTo_short buf restNonempty
      (show (p ++ rest.flatten).length < 4 by rw [split]; exact short) failed
    rw [split] at second
    have nothing : rest.flatten = [] ↔ (p :: ps).flatten.length = p.length := by
      rw [← List.length_eq_zero_iff, ← lengths]
      omega
    have inside : (p :: ps).flatten.length ≤ buf.length := by omega
    have stale : ntohl (load32 (Mem.ofBytes (refill buf (p :: ps).flatten)) 0) =
        bigEndian (((p :: ps).flatten ++ buf.drop (p :: ps).flatten.length).take 4) :=
      msgsize_eq (by rw [refill_length inside]; exact room)
    rw [List.headD_cons]
    cases failed with
    | true =>
      unfold recvMsg
      simp only [first, if_neg (show ¬ (p.length : Int) ≤ 0 by omega), Int.toNat_natCast, second]
      rfl
    | false =>
      simp only [Bool.false_eq_true, if_false] at second ⊢
      by_cases all : (p :: ps).flatten.length = p.length
      · rw [if_pos (nothing.mpr all)] at second
        rw [if_pos all]
        unfold recvMsg
        simp only [first, if_neg (show ¬ (p.length : Int) ≤ 0 by omega), Int.toNat_natCast, second, Int.le_refl,
          if_true]
      · rw [if_neg fun none => all (nothing.mp none)] at second
        rw [recvMsg_stages first positive second (by omega), stale, refill_length inside, if_neg all]
        split
        · rfl
        · unfold recvUpTo
          split
          · rfl
          · rfl

theorem recvMsg_pieces (nonempty : ∀ p ∈ pieces, p ≠ []) {packet : Bytes} (whole : pieces.flatten = packet)
    (field : 4 ≤ packet.length) (length : bigEndian (packet.take 4) = packet.length)
    (room : packet.length ≤ buf.length) :
    recvMsg buf (pieces.map some) = ((packet.length : Int), refill buf packet, []) := by
  obtain ⟨got, rest, read, complete, restNonempty, split⟩ := recvMsg_complete length [] nonempty
    (by rw [whole]) field room
  rw [List.append_nil, List.append_nil] at read
  have lengths := congrArg List.length split
  rw [List.length_append, whole] at lengths
  have atLeast := complete.length_le
  obtain rfl : packet = got := complete.eq_of_length (by omega)
  have nothing : rest = [] := by
    cases rest with
    | nil => rfl
    | cons q qs =>
      have some := List.length_pos_iff.mpr (restNonempty q List.mem_cons_self)
      rw [List.flatten_cons, List.length_append] at lengths
      omega
  rw [read, nothing]
  rfl

end

/- Whatever comes: what is received goes to the beginning of the buffer, in order. -/

def joined (socket : Arrivals) : Bytes := (socket.map (Option.getD · [])).flatten

/-- A read behind the bytes got so far: the result is negative or counts them with the new ones. -/
structure Reads (buf got : Bytes) (limit : Nat) (socket : Arrivals) (x : Int × Bytes × Arrivals)
    (more : Bytes) :
    Prop where
  buffer : x.2.1 = refill buf (got ++ more)
  inside : (got ++ more).length ≤ limit
  taken : joined socket = more ++ joined x.2.2

section

variable {buf got : Bytes}

theorem recv_reads (buf : Bytes) (socket : Arrivals) :
    ∃ more, Reads buf [] buf.length socket (recv buf 0 buf.length socket) more ∧
      ((recv buf 0 buf.length socket).1 ≤ 0 ∨ (recv buf 0 buf.length socket).1 = more.length) := by
  have start := fun b => overlay_refill buf [] b
  simp only [List.length_nil, refill_nil, List.nil_append] at start
  cases socket with
  | nil => exact ⟨[], ⟨rfl, Nat.zero_le _, rfl⟩, .inr rfl⟩
  | cons a rest =>
    cases a with
    | none => exact ⟨[], ⟨rfl, Nat.zero_le _, rfl⟩, .inl (show (-1 : Int) ≤ 0 by decide)⟩
    | some p =>
      simp only [recv]
      split
      case isTrue whole => exact ⟨p, ⟨start p, whole, rfl⟩, .inr rfl⟩
      case isFalse long =>
        have size : (p.take buf.length).length = buf.length := by
          rw [List.length_take]
          omega
        refine ⟨p.take buf.length, ⟨start _, Nat.le_of_eq size, ?_⟩, .inr ?_⟩
        · simp only [joined, List.map_cons, List.flatten_cons, Option.getD_some]
          rw [← List.append_assoc, List.take_append_drop]
        · rw [size]

theorem srecv_reads (buf : Bytes) (socket : Arrivals) {off count c : Nat} (here : off + c = got.length)
    (inside : c ≤ count) :
    ∃ more, Reads buf got (off + count) socket (srecv off count c (refill buf got) socket) more ∧
      ((srecv off count c (refill buf got) socket).1 < 0 ∨
        (srecv off count c (refill buf got) socket).1 = ((c + more.length : Nat) : Int)) := by
  induction socket generalizing got c with
  | nil => exact ⟨[], ⟨by rw [List.append_nil]; rfl, by rw [List.append_nil]; omega, rfl⟩, .inr rfl⟩
  | cons a rest ih =>
    cases a with
    | none =>
      unfold srecv
      split
      case isTrue done =>
        obtain rfl : c = count := by omega
        exact ⟨[], ⟨by rw [List.append_nil], by rw [List.append_nil]; omega, rfl⟩, .inr rfl⟩
      case isFalse =>
        exact ⟨[], ⟨by rw [List.append_nil], by rw [List.append_nil]; omega, rfl⟩,
          .inl (show (-1 : Int) < 0 by decide)⟩
    | some p =>
      unfold srecv
      split
      case isTrue done =>
        obtain rfl : c = count := by omega
        exact ⟨[], ⟨by rw [List.append_nil], by rw [List.append_nil]; omega, rfl⟩, .inr rfl⟩
      case isFalse =>
        split
        case isTrue last =>
          have size : (p.take (count - c)).length = count - c := by
            rw [List.length_take]
            omega
          refine ⟨p.take (count - c), ⟨?_, ?_, ?_⟩, .inr ?_⟩
          · rw [here, overlay_refill]
          · rw [List.length_append, size]
            omega
          · simp only [joined, List.map_cons, List.flatten_cons, Option.getD_some]
            rw [← List.append_assoc, List.take_append_drop]
          · rw [size, Nat.add_sub_cancel' inside]
        case isFalse =>
          split
          case isTrue nothing =>
            rw [nothing]
            exact ⟨[], ⟨by rw [List.append_nil], by rw [List.append_nil]; omega, rfl⟩, .inr rfl⟩
          case isFalse =>
            have next : off + (c + p.length) = (got ++ p).length := by
              rw [List.length_append, ← here, Nat.add_assoc]
            obtain ⟨more, ⟨buffer, room, taken⟩, result⟩ := ih next (by omega)
            rw [here, overlay_refill]
            refine ⟨p ++ more, ⟨?_, ?_, ?_⟩, ?_⟩
            · rw [buffer, List.append_assoc]
            · rw [← List.append_assoc]
              exact room
            · simp only [joined, List.map_cons, List.flatten_cons, Option.getD_some] at taken ⊢
              rw [taken, List.append_assoc]
            · rw [List.length_append, ← Nat.add_assoc]
              exact result

theorem recvUpTo_reads (buf got : Bytes) (upTo : Nat) (socket : Arrivals) :
    ∃ more, Reads buf got (max upTo got.length) socket (recvUpTo upTo got.length (refill buf got) socket) more ∧
      ((recvUpTo upTo got.length (refill buf got) socket).1 ≤ 0 ∨
        (recvUpTo upTo got.length (refill buf got) socket).1 = (got ++ more).length) := by
  unfold recvUpTo
  split
  case isTrue short =>
    obtain ⟨more, ⟨buffer, room, taken⟩, result⟩ := srecv_reads buf socket (Nat.add_zero got.length)
      (Nat.zero_le (upTo - got.length))
    have limit : (got ++ more).length ≤ max upTo got.length := by omega
    simp only
    split
    case isTrue nothing => exact ⟨more, ⟨buffer, limit, taken⟩, .inl nothing⟩
    case isFalse some =>
      refine ⟨more, ⟨buffer, limit, taken⟩, .inr ?_⟩
      rw [result.resolve_left (by omega), List.length_append]
      omega
  case isFalse =>
    exact ⟨[], ⟨by rw [List.append_nil], by rw [List.append_nil]; omega, rfl⟩, .inr (by rw [List.append_nil])⟩

theorem Reads.trans {more more' : Bytes} {limit limit' : Nat} {socket : Arrivals} {x y : Int × Bytes × Arrivals}
    (first : Reads buf got limit socket x more) (second : Reads buf (got ++ more) limit' x.2.2 y more') :
    Reads buf got limit' socket y (more ++ more') where
  buffer := by rw [second.buffer, List.append_assoc]
  inside := by rw [← List.append_assoc]; exact second.inside
  taken := by rw [first.taken, second.taken, List.append_assoc]

theorem recvMsg_reads (buf : Bytes) (socket : Arrivals) (field : 4 ≤ buf.length) :
    ∃ more, Reads buf [] buf.length socket (recvMsg buf socket) more ∧
      ((recvMsg buf socket).1 ≤ 0 ∨ (recvMsg buf socket).1 = more.length) := by
  obtain ⟨got, first, count₁⟩ := recv_reads buf socket
  unfold recvMsg
  generalize recv buf 0 buf.length socket = x at first count₁
  obtain ⟨rv, b, s⟩ := x
  obtain rfl : b = refill buf got := first.buffer
  simp only at count₁ ⊢
  split
  case isTrue nothing => exact ⟨got, first, .inl nothing⟩
  case isFalse some =>
    obtain rfl := count₁.resolve_left some
    rw [Int.toNat_natCast]
    obtain ⟨more, second, count₂⟩ := recvUpTo_reads buf got 4 s
    generalize recvUpTo 4 got.length (refill buf got) s = y at second count₂
    obtain ⟨rv, b, s'⟩ := y
    obtain rfl : b = refill buf (got ++ more) := second.buffer
    have all := first.trans second
    have room : (got ++ more).length ≤ buf.length := by
      have small := first.inside
      have small' := second.inside
      simp only [List.nil_append] at small
      omega
    simp only at count₂ ⊢
    split
    case isTrue nothing => exact ⟨got ++ more, ⟨all.buffer, room, all.taken⟩, .inl nothing⟩
    case isFalse some' =>
      obtain rfl := count₂.resolve_left some'
      rw [Int.toNat_natCast]
      split
      case isTrue => exact ⟨got ++ more, ⟨all.buffer, room, all.taken⟩, .inl (show (-1 : Int) ≤ 0 by decide)⟩
      case isFalse fits =>
        rw [refill_length room] at fits
        obtain ⟨last, third, count₃⟩ := recvUpTo_reads buf (got ++ more)
          (ntohl (load32 (Mem.ofBytes (refill buf (got ++ more))) 0)) s'
        have whole := all.trans third
        refine ⟨got ++ more ++ last, ⟨whole.buffer, ?_, whole.taken⟩, count₃⟩
        have small := third.inside
        rw [List.nil_append]
        omega

end

/-- recv_msg gives a message only if all of it was received, and nothing is made of one that
breaks off, by the peer closing or by a failed recv(). -/
structure OnlyWhole (buf packet : Bytes) (pieces : List Bytes) (failed : Bool) : Prop where
  whole : 0 < (recvMsg buf (pieces.map some ++ ending failed)).1 →
    packet <+: pieces.flatten ∧ (packet.length : Int) ≤ (recvMsg buf (pieces.map some ++ ending failed)).1 ∧
      (recvMsg buf (pieces.map some ++ ending failed)).2.1.take packet.length = packet
  broken : ¬ packet <+: pieces.flatten →
    (recvMsg buf (pieces.map some ++ ending failed)).1 ≤ 0 ∧
      (tcpGetRep buf (pieces.map some ++ ending failed)).payload = none

/-- The message is complete, or recv() fails, or the peer closes behind what the first recv()
took or just behind the length field, or so early that the length, with old bytes for the
missing ones, asks for more. -/
def EndsWell (buf packet : Bytes) (pieces : List Bytes) (failed : Bool) : Prop :=
  packet <+: pieces.flatten ∨ failed = true ∨ pieces.flatten.length ≤ (pieces.headD []).length ∨
    pieces.flatten.length = 4 ∨
    (pieces.flatten.length < 4 ∧
      pieces.flatten.length < bigEndian ((pieces.flatten ++ buf.drop pieces.flatten.length).take 4))

section

variable {buf packet : Bytes} {pieces : List Bytes}

theorem head_length_le (pieces : List Bytes) : (pieces.headD []).length ≤ pieces.flatten.length := by
  cases pieces with
  | nil => exact Nat.le_refl _
  | cons p ps =>
    rw [List.flatten_cons, List.length_append]
    exact Nat.le_add_right _ _

/- Of a message that breaks off only the result counts. -/
theorem onlyWhole_broken (broken : ¬ packet <+: pieces.flatten) (failed : Bool) :
    OnlyWhole buf packet pieces failed ↔ (recvMsg buf (pieces.map some ++ ending failed)).1 ≤ 0 := by
  constructor
  · intro only
    exact (only.broken broken).1
  · intro nothing
    refine ⟨fun positive => absurd positive (Int.not_lt.mpr nothing), fun _ => ⟨nothing, ?_⟩⟩
    unfold tcpGetRep
    simp only [if_pos nothing]

/-- Only whole replies are returned, exactly where the stream ends well. -/
theorem whole_replies_iff (nonempty : ∀ p ∈ pieces, p ≠ []) (framed : bigEndian (packet.take 4) = packet.length)
    (long : 12 ≤ packet.length) (room : packet.length ≤ buf.length)
    (ofFrame : pieces.flatten <+: packet ∨ packet <+: pieces.flatten) (failed : Bool) :
    OnlyWhole buf packet pieces failed ↔ EndsWell buf packet pieces failed := by
  by_cases complete : packet <+: pieces.flatten
  · obtain ⟨got, rest, read, held, _⟩ :=
      recvMsg_complete framed (ending failed) nonempty complete (by omega) room
    obtain ⟨behind, split⟩ := held
    refine ⟨fun _ => .inl complete,
      fun _ => ⟨fun _ => ⟨complete, ?_, ?_⟩, fun broken => absurd complete broken⟩⟩
    · rw [read, ← split, List.length_append]
      exact Int.ofNat_le.mpr (Nat.le_add_right _ _)
    · rw [read, ← split, refill, List.append_assoc, List.take_left]
  · have part := ofFrame.resolve_right complete
    have short : pieces.flatten.length < packet.length := by
      apply Nat.lt_of_le_of_ne part.length_le
      intro same
      exact complete (part.eq_of_length same ▸ List.prefix_rfl)
    have first := head_length_le pieces
    rw [onlyWhole_broken complete]
    unfold EndsWell
    by_cases field : 4 ≤ pieces.flatten.length
    · rw [recvMsg_broken framed nonempty part short field room failed]
      cases failed with
      | true => simp
      | false =>
        simp only [complete, false_or, Bool.false_eq_true, if_false]
        split
        · omega
        · omega
    · rw [recvMsg_headless nonempty (by omega) (by omega) failed]
      cases failed with
      | true => simp
      | false =>
        simp only [complete, false_or, Bool.false_eq_true, if_false]
        split
        · omega
        · split
          · omega
          · split
            · omega
            · omega

end

def errorFrame : Bytes := [0, 0, 0, 16, 0, 0, 0, 1, 0, 0, 8, 0, 0, 0, 1, 3]

/- It comes whole in two pieces cut inside the length field. -/
theorem whole_replies_iff_cut :
    OnlyWhole (List.replicate 20 7) errorFrame [errorFrame.take 3, errorFrame.drop 3] false :=
  (whole_replies_iff (by decide) (by decide) (by decide) (by decide) (by decide) false).mpr (.inl (by decide))

/-- The peer closes after eight bytes in two pieces, and recv_msg returns eight. -/
theorem broken_reply_returned :
    ¬ OnlyWhole (List.replicate 20 7) errorFrame [errorFrame.take 4, (errorFrame.drop 4).take 4] false := by
  intro only
  have nothing := (only.broken (by decide)).1
  have eight : (recvMsg (List.replicate 20 7)
      ([errorFrame.take 4, (errorFrame.drop 4).take 4].map some ++ ending false)).1 = 8 := by decide
  rw [eight] at nothing
  contradiction

end Nmdb.Library
