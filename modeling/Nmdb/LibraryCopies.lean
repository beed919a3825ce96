import Nmdb.LibraryReplies
import Nmdb.PacketBounds

/-! What the lookups of the library copy to their caller from a reply that may be anything. The
length is checked against a difference of sizes, which wraps when the reply is too short to
have a length. -/
namespace Nmdb.Library

open Wire

/-- The operations that copy a value or a key to their caller. -/
inductive Lookup where
  | get (key : Bytes) (flags : Nat)
  | firstkey
  | nextkey (key : Bytes)
  deriving DecidableEq, Repr

namespace Lookup

def op : Lookup → Operation
  | .get key _ => .get key
  | .firstkey => .firstkey
  | .nextkey key => .nextkey key

def flags : Lookup → Nat
  | .get _ flags => flags
  | .firstkey => 0
  | .nextkey _ => 0

/-- The lookup at one server, for a caller with so many bytes of room. -/
def run (l : Lookup) (t : Transport) (io : Io) (size : Nat) : Except Fault (Int × Option Bytes) :=
  match l with
  | .get key flags => doGet (some t) io key size flags
  | .firstkey => nmdbFirstkey [t] io size
  | .nextkey key => nmdbNextkey [t] io key size

/-- What is made of the answer. -/
def take (l : Lookup) (a : Answer) (size : Nat) : Except Fault (Int × Option Bytes) :=
  match l with
  | .get _ _ => a.found size
  | .firstkey => a.key size
  | .nextkey _ => a.key size

def noMemory : Lookup → Int
  | .get _ _ => -1
  | .firstkey => -2
  | .nextkey _ => -1

/-- The reply codes that come with a value. -/
def Accepts (code : Nat) : Lookup → Prop
  | .get _ _ => code = Rep.ok.code ∨ code = Rep.cacheHit.code
  | .firstkey => code = Rep.ok.code
  | .nextkey _ => code = Rep.ok.code

end Lookup

/-- The result of the recv() calls of get_rep, and the buffer after them. -/
def afterRecv (t : Transport) (buf : Bytes) (socket : Arrivals) : Int × Bytes :=
  match t with
  | .tcp => ((recvMsg buf socket).1, (recvMsg buf socket).2.1)
  | .tipc | .udp | .sctp => ((recv buf 0 buf.length socket).1, (recv buf 0 buf.length socket).2.1)

def received (t : Transport) (buf : Bytes) (socket : Arrivals) : Bytes :=
  (afterRecv t buf socket).2.take (afterRecv t buf socket).1.toNat

/-- The least result that get_rep goes on with. -/
def leastCount : Transport → Int
  | .tcp => 1
  | .tipc | .udp | .sctp => 8

def field (buf : Bytes) (off : Nat) : Nat := ntohl (load32 (Mem.ofBytes buf) off)

/-- What is copied fits, and has been received where it is copied from; else the result is
negative. -/
def CopiesReceived (t : Transport) (buf : Bytes) (socket : Arrivals) (size : Nat)
    (result : Except Fault (Int × Option Bytes)) : Prop :=
  ∃ rv copied, result = .ok (rv, copied) ∧
    match copied with
    | none => rv < 0
    | some b => rv = b.length ∧ b.length ≤ size ∧
        (b ≠ [] → t.idOffset + 12 + b.length ≤ (received t buf socket).length ∧
          b = ((received t buf socket).drop (t.idOffset + 12)).take b.length)

/-- A reply too short for a length, behind which the buffer still has one that the caller has
room for. -/
structure Deceives (l : Lookup) (t : Transport) (buf : Bytes) (socket : Arrivals) (size : Nat) : Prop where
  parsed : leastCount t ≤ (afterRecv t buf socket).1
  short : (received t buf socket).length < t.idOffset + 12
  id : field (afterRecv t buf socket).2 t.idOffset = ID_CODE
  code : l.Accepts (field (afterRecv t buf socket).2 (t.idOffset + 4))
  some : 0 < field (afterRecv t buf socket).2 (t.idOffset + 8)
  fits : field (afterRecv t buf socket).2 (t.idOffset + 8) ≤ size

section

variable {l : Lookup} {t : Transport} {buf : Bytes} {socket : Arrivals} {size : Nat}

/- The size check lets any length pass that has not been received itself. -/
theorem sizeSub_short (n : Nat) {off : Nat} (short : n < off + 4) (small : off ≤ 12) :
    2 ^ 32 ≤ sizeSub (sizeSub n off) 4 := by
  unfold sizeSub
  split <;> split <;> omega

theorem sizeSub_long {n off : Nat} (long : off + 4 ≤ n) : sizeSub (sizeSub n off) 4 = n - (off + 4) := by
  unfold sizeSub
  split <;> split <;> omega

theorem slice_take_drop {b : Bytes} {off n : Nat} (inside : off + n ≤ b.length) :
    slice (Mem.ofBytes b) off n = (b.drop off).take n := by
  have held := slice_ofBytes (b.take off) ((b.drop off).take n) ((b.drop off).drop n)
  rw [List.take_append_drop, List.take_append_drop, List.length_take, List.length_take, List.length_drop,
    Nat.min_eq_left (by omega), Nat.min_eq_left (by omega)] at held
  exact held

theorem received_refill (room : 4 ≤ buf.length) (positive : 0 < (afterRecv t buf socket).1) :
    (afterRecv t buf socket).2 = refill buf (received t buf socket) ∧
      (afterRecv t buf socket).1 = (received t buf socket).length ∧
      (received t buf socket).length ≤ buf.length ∧ received t buf socket <+: joined socket := by
  obtain ⟨more, reads, rest, taken, count⟩ : ∃ more, (afterRecv t buf socket).2 = refill buf more ∧ ∃ rest,
      joined socket = more ++ rest ∧ more.length ≤ buf.length ∧ (afterRecv t buf socket).1 = more.length := by
    cases t with
    | tcp =>
      obtain ⟨more, reads, count⟩ := recvMsg_reads buf socket room
      exact ⟨more, reads.buffer, _, reads.taken, reads.inside, count.resolve_left (Int.not_le.mpr positive)⟩
    | _ =>
      obtain ⟨more, reads, count⟩ := recv_reads buf socket
      exact ⟨more, reads.buffer, _, reads.taken, reads.inside, count.resolve_left (Int.not_le.mpr positive)⟩
  have same : received t buf socket = more := by
    rw [received, reads, count.2, Int.toNat_natCast, refill, List.take_left]
  rw [same]
  exact ⟨reads, count.2, count.1, ⟨rest, taken.symm⟩⟩

theorem getRep_eq (t : Transport) (buf : Bytes) (socket : Arrivals) :
    getRep t buf socket =
      if (afterRecv t buf socket).1 < leastCount t then ⟨noReply, (afterRecv t buf socket).2, none⟩
      else parseRep (afterRecv t buf socket).2 t.idOffset (afterRecv t buf socket).1.toNat := by
  cases t with
  | tcp =>
    have same : (afterRecv .tcp buf socket).1 < leastCount .tcp ↔ (recvMsg buf socket).1 ≤ 0 :=
      Int.lt_iff_add_one_le.trans ⟨fun h => Int.le_of_add_le_add_right h, fun h => Int.add_le_add_right h 1⟩
    simp only [same]
    rfl
  | _ => rfl

theorem parseRep_field (buf : Bytes) (off n : Nat) :
    parseRep buf off n =
      if field buf off = ID_CODE then ⟨field buf (off + 4), buf, some (off + 8, sizeSub n (off + 8))⟩
      else ⟨noReply, buf, none⟩ := ite_not ..

/-- A reply that brings no value. -/
theorem take_refused {a : Answer} (size : Nat) (other : ¬ l.Accepts a.reply) :
    ∃ rv, l.take a size = .ok (rv, none) ∧ rv < 0 := by
  cases l with
  | get key flags =>
    obtain ⟨ok, hit⟩ := not_or.mp other
    simp only [Lookup.take, Answer.found]
    split
    · exact ⟨-1, rfl, by decide⟩
    · split
      · exact ⟨-2, rfl, by decide⟩
      · exact ⟨-2, if_pos ⟨ok, hit⟩, by decide⟩
  | _ =>
    have ok : a.reply ≠ Rep.ok.code := other
    simp only [Lookup.take, Answer.key]
    split
    · exact ⟨-1, rfl, by decide⟩
    · split
      · exact ⟨-2, rfl, by decide⟩
      · exact ⟨-2, rfl, by decide⟩

theorem take_accepted {a : Answer} (accepted : l.Accepts a.reply) : l.take a size = a.value size := by
  cases l with
  | get key flags =>
    simp only [Lookup.take, Answer.found]
    rcases accepted with ok | hit
    · simp only [ok]
      rfl
    · simp only [hit]
      rfl
  | _ =>
    have ok : a.reply = Rep.ok.code := accepted
    simp only [Lookup.take, Answer.key, ok]
    rfl

theorem run_eq (l : Lookup) (t : Transport) (io : Io) (size : Nat) :
    l.run t io size = exchange (some t) io (l.op.packet (some t) io.malloc l.flags io.fresh) >>= fun
      | .noMemory => .ok (l.noMemory, none)
      | .notSent => .ok (-2, none)
      | .answered a => l.take a size := by
  cases l <;> rfl

theorem run_answered {io : Io} (malloc : io.malloc = true) (sent : io.sent = true) (fits : l.op.Fits t) :
    l.run t io size = l.take (getRep t (l.op.sent t l.flags io.fresh) io.socket) size := by
  rw [run_eq, exchange_answered l.flags malloc sent fits, ok_bind]

theorem run_noMemory {io : Io} (malloc : io.malloc = false) : l.run t io size = .ok (l.noMemory, none) := by
  rw [run_eq, malloc, packet_refused]
  rfl

theorem run_unsent {io : Io} (malloc : io.malloc = true) (unsent : io.sent = false) (fits : l.op.Fits t) :
    l.run t io size = .ok (-2, none) := by
  obtain ⟨buf, built, put⟩ := packet_sent l.op t l.flags io.fresh fits
  rw [run_eq, malloc, built]
  simp only [exchange, ok_bind, put, unsent, Bool.not_false, if_true, pure_ok]

theorem run_unfit {io : Io} {result : Int × Option Bytes} (malloc : io.malloc = true)
    (run : l.run t io size = .ok result) : l.op.Fits t := by
  rw [run_eq, malloc] at run
  obtain ⟨outcome, exchanged, _⟩ := bind_eq_ok.mp run
  obtain ⟨packet, built, _⟩ := bind_eq_ok.mp exchanged
  exact fits_of_packet built

/-- A value in a reply that was received so far. -/
theorem value_copies_iff (room : t.idOffset + 12 ≤ buf.length) (positive : 0 < (afterRecv t buf socket).1)
    (reply : Nat) :
    CopiesReceived t buf socket size (Answer.value ⟨reply, (afterRecv t buf socket).2,
        some (t.idOffset + 8, sizeSub (afterRecv t buf socket).1.toNat (t.idOffset + 8))⟩ size) ↔
      ¬ ((received t buf socket).length < t.idOffset + 12 ∧
        0 < field (afterRecv t buf socket).2 (t.idOffset + 8) ∧
        field (afterRecv t buf socket).2 (t.idOffset + 8) ≤ size) := by
  obtain ⟨after, count, inside, _⟩ := received_refill (show 4 ≤ buf.length by omega) positive
  have offset : t.idOffset ≤ 4 := by cases t <;> decide
  have small : field (afterRecv t buf socket).2 (t.idOffset + 8) < 2 ^ 32 := ntohl_lt _
  have whole : (afterRecv t buf socket).2.length = buf.length := by
    rw [after]
    exact refill_length inside
  rw [count, Int.toNat_natCast]
  simp only [Answer.value]
  rw [show ntohl (load32 (Mem.ofBytes (afterRecv t buf socket).2) (t.idOffset + 8)) =
    field (afterRecv t buf socket).2 (t.idOffset + 8) from rfl, whole]
  generalize field (afterRecv t buf socket).2 (t.idOffset + 8) = n at small ⊢
  by_cases short : (received t buf socket).length < t.idOffset + 12
  · have passes := sizeSub_short _ short (show t.idOffset + 8 ≤ 12 by omega)
    by_cases large : size < n
    · rw [if_pos (.inr large)]
      exact ⟨fun _ deceived => by omega, fun _ => ⟨-2, none, rfl, show (-2 : Int) < 0 by decide⟩⟩
    · rw [if_neg (by omega)]
      constructor
      · rintro ⟨rv, copied, result, holds⟩ ⟨_, some, _⟩
        split at result
        · cases result
          have nonempty : slice (Mem.ofBytes (afterRecv t buf socket).2) (t.idOffset + 8 + 4) n ≠ [] := by
            apply List.ne_nil_of_length_pos
            rwa [slice_length]
          have claimed := (holds.2.2 nonempty).1
          omega
        · contradiction
      · intro honest
        obtain rfl : n = 0 := by omega
        rw [if_pos (by omega)]
        exact ⟨_, _, rfl, rfl, Nat.zero_le _, fun some => absurd rfl some⟩
  · have checked := sizeSub_long (Nat.not_lt.mp short)
    rw [checked]
    refine ⟨fun _ deceived => short deceived.1, fun _ => ?_⟩
    by_cases refused : (received t buf socket).length - (t.idOffset + 8 + 4) < n ∨ size < n
    · rw [if_pos refused]
      exact ⟨-2, none, rfl, show (-2 : Int) < 0 by decide⟩
    · rw [if_neg refused, if_pos (by omega)]
      have copied : slice (Mem.ofBytes (afterRecv t buf socket).2) (t.idOffset + 8 + 4) n =
          ((received t buf socket).drop (t.idOffset + 12)).take n := by
        have part : n ≤ ((received t buf socket).drop (t.idOffset + 12)).length := by
          rw [List.length_drop]
          omega
        rw [slice_take_drop (by omega), after, refill, Nat.add_assoc, List.drop_append_of_le_length (by omega),
          List.take_append_of_le_length part]
      refine ⟨n, _, rfl, ?_, ?_, fun _ => ⟨?_, ?_⟩⟩
      · rw [slice_length]
      · rw [slice_length]
        omega
      · rw [slice_length]
        omega
      · rw [slice_length]
        exact copied

theorem take_copies_iff (room : t.idOffset + 12 ≤ buf.length) :
    CopiesReceived t buf socket size (l.take (getRep t buf socket) size) ↔ ¬ Deceives l t buf socket size := by
  have refused : ∀ a : Answer, ¬ l.Accepts a.reply → CopiesReceived t buf socket size (l.take a size) := by
    intro a other
    obtain ⟨rv, result, negative⟩ := take_refused size other
    exact ⟨rv, none, result, negative⟩
  have noCode : ¬ l.Accepts noReply := by
    cases l <;> simp only [Lookup.Accepts] <;> decide
  rw [getRep_eq]
  by_cases parsed : leastCount t ≤ (afterRecv t buf socket).1
  · have positive : 0 < (afterRecv t buf socket).1 := by
      have least : 0 < leastCount t := by cases t <;> decide
      exact Int.lt_of_lt_of_le least parsed
    rw [if_neg (Int.not_lt.mpr parsed)]
    rw [parseRep_field]
    by_cases id : field (afterRecv t buf socket).2 t.idOffset = ID_CODE
    · rw [if_pos id]
      by_cases accepted : l.Accepts (field (afterRecv t buf socket).2 (t.idOffset + 4))
      · rw [take_accepted accepted]
        refine (value_copies_iff room positive _).trans (not_congr ⟨?_, ?_⟩)
        · rintro ⟨short, some, fits⟩
          exact ⟨parsed, short, id, accepted, some, fits⟩
        · intro deceived
          exact ⟨deceived.short, deceived.some, deceived.fits⟩
      · exact ⟨fun _ deceived => accepted deceived.code, fun _ => refused _ accepted⟩
    · rw [if_neg id]
      exact ⟨fun _ deceived => id deceived.id, fun _ => refused _ noCode⟩
  · rw [if_pos (Int.not_le.mp parsed)]
    exact ⟨fun _ deceived => parsed deceived.parsed, fun _ => refused _ noCode⟩

/-- Whatever arrives, the lookups copy only bytes they received, unless their request is too long
for its buffer or a reply too short for a length deceives them. -/
theorem copies_received_iff (l : Lookup) (t : Transport) (io : Io) (size : Nat) :
    CopiesReceived t (l.op.sent t l.flags io.fresh) io.socket size (l.run t io size) ↔
      (io.malloc = true → l.op.Fits t ∧
        (io.sent = true → ¬ Deceives l t (l.op.sent t l.flags io.fresh) io.socket size)) := by
  cases malloc : io.malloc with
  | false =>
    have negative : l.noMemory < 0 := by
      cases l <;> simp only [Lookup.noMemory] <;> decide
    rw [run_noMemory malloc]
    exact ⟨fun _ memory => absurd memory Bool.false_ne_true, fun _ => ⟨_, none, rfl, negative⟩⟩
  | true =>
    by_cases fits : l.op.Fits t
    · have offset : t.idOffset ≤ 4 := by cases t <;> decide
      have room : t.idOffset + 12 ≤ (l.op.sent t l.flags io.fresh).length := by
        rw [sent_length _ _ _ _ fits]
        cases l <;> simp only [Lookup.op, Operation.bufsize, SBSIZE] <;> omega
      cases sent : io.sent with
      | false =>
        rw [run_unsent malloc sent fits]
        constructor
        · intro _ _
          exact ⟨fits, fun out => absurd out Bool.false_ne_true⟩
        · intro _
          exact ⟨-2, none, rfl, show (-2 : Int) < 0 by decide⟩
      | true =>
        rw [run_answered malloc sent fits]
        refine (take_copies_iff room).trans ⟨?_, ?_⟩
        · intro honest _
          exact ⟨fits, fun _ => honest⟩
        · intro honest
          exact (honest rfl).2 rfl
    · constructor
      · rintro ⟨rv, copied, run, _⟩
        exact absurd (run_unfit malloc run) fits
      · intro honest
        exact absurd (honest rfl).1 fits

end

theorem afterRecv_datagram {buf p : Bytes} (inside : p.length ≤ buf.length) (rest : Arrivals) :
    afterRecv .udp buf (some p :: rest) = ((p.length : Int), refill buf p) ∧
      received .udp buf (some p :: rest) = p := by
  have start := overlay_refill buf [] p
  rw [List.length_nil, refill_nil, List.nil_append] at start
  have after : afterRecv .udp buf (some p :: rest) = ((p.length : Int), refill buf p) := by
    simp only [afterRecv, recv, if_pos inside, start]
  refine ⟨after, ?_⟩
  rw [received, after, Int.toNat_natCast, refill, List.take_left]

/-- REP_OK, cut behind its code. -/
def cutDatagram : Bytes := [0, 0, 0, 1, 0, 0, 8, 3]

theorem field_word {word : Bytes} (before behind : Bytes) (four : word.length = 4) :
    field (before ++ (word ++ behind)) before.length = bigEndian word := by
  have held := slice_ofBytes before word behind
  rw [four] at held
  rw [field, ntohl_load32, held]

/-- A lookup that is answered so takes the length of the value from what else is in its buffer. -/
theorem cut_copied {l : Lookup} {fresh : Mem} {word behind : Bytes} (fits : l.op.Fits .udp) (four : word.length = 4)
    (held : (l.op.sent .udp l.flags fresh).drop 8 = word ++ behind) (positive : 0 < bigEndian word)
    (small : bigEndian word ≤ 10) :
    ¬ CopiesReceived .udp (l.op.sent .udp l.flags fresh) [some cutDatagram] 10
      (l.run .udp ⟨true, fresh, true, [some cutDatagram]⟩ 10) := by
  have room : Transport.udp.idOffset + 12 ≤ (l.op.sent .udp l.flags fresh).length := by
    rw [sent_length _ _ _ _ fits]
    cases l <;> simp only [Lookup.op, Operation.bufsize, SBSIZE, Transport.idOffset] <;> omega
  have inside : cutDatagram.length ≤ (l.op.sent .udp l.flags fresh).length := Nat.le_trans (by decide) room
  obtain ⟨after, got⟩ := afterRecv_datagram inside []
  have bytes : refill (l.op.sent .udp l.flags fresh) cutDatagram =
      [0, 0, 0, 1] ++ ([0, 0, 8, 3] ++ (word ++ behind)) := by
    rw [refill, show cutDatagram.length = 8 from rfl, held]
    rfl
  have id := field_word [] ([0, 0, 8, 3] ++ (word ++ behind)) (show ([0, 0, 0, 1] : Bytes).length = 4 from rfl)
  have code := field_word [0, 0, 0, 1] (word ++ behind) (show ([0, 0, 8, 3] : Bytes).length = 4 from rfl)
  have length := field_word [0, 0, 0, 1, 0, 0, 8, 3] behind four
  have deceived : Deceives l .udp (l.op.sent .udp l.flags fresh) [some cutDatagram] 10 := by
    refine ⟨?_, by rw [got]; decide, ?_, ?_, ?_, ?_⟩
    all_goals rw [after]
    · exact show (8 : Int) ≤ 8 from Int.le_refl 8
    all_goals simp only [bytes]
    · exact id
    · have accepted : bigEndian [0, 0, 8, 3] = Rep.ok.code := rfl
      cases l with
      | get key flags => exact .inl (code.trans accepted)
      | _ => exact code.trans accepted
    · exact Nat.lt_of_lt_of_eq positive length.symm
    · exact Nat.le_trans (Nat.le_of_eq length) small
  rw [run_answered rfl rfl fits]
  exact fun copies => (take_copies_iff room).mp copies deceived

theorem sent_payload (op : Operation) (flags : Nat) (fresh : Mem) : (op.sent .udp flags fresh).drop 8 =
    op.payload ++ slice fresh (8 + op.payload.length) (op.bufsize .udp flags - (8 + op.payload.length)) := by
  have long := message_length op flags
  have message : op.message flags = header op.code.code (op.admitted flags) ++ op.payload := rfl
  rw [Operation.sent, filled, Transport.lengthPrefix, List.nil_append, long, message, List.append_assoc,
    List.drop_left' (header_length _ _)]
  simp only [Transport.idOffset, Nat.zero_add]

/-- A block that has held a get of the key A. -/
def recycled : Mem := Mem.ofBytes ((Operation.get [65]).message 0)

/-- A get of the key A is answered so: the length of the key stands in place of that of the value,
and the key is returned as the value. So it is for a firstkey in a block that held that get. -/
theorem unreceived_copied :
    (∀ fresh, ¬ CopiesReceived .udp ((Operation.get [65]).sent .udp 0 fresh) [some cutDatagram] 10
      ((Lookup.get [65] 0).run .udp ⟨true, fresh, true, [some cutDatagram]⟩ 10)) ∧
    ¬ CopiesReceived .udp (Operation.firstkey.sent .udp 0 recycled) [some cutDatagram] 10
      (Lookup.firstkey.run .udp ⟨true, recycled, true, [some cutDatagram]⟩ 10) := by
  constructor
  · intro fresh
    have fits : (Lookup.get [65] 0).op.Fits .udp := by
      change 0 + (8 + 5) ≤ SBSIZE
      decide
    have held := sent_payload (.get [65]) 0 fresh
    rw [Operation.payload, List.append_assoc] at held
    exact cut_copied (l := .get [65] 0) fits rfl held (by decide) (by decide)
  · have fits : Lookup.firstkey.op.Fits .udp := by
      change 0 + (8 + 0) < 2 ^ 64
      decide
    have held := sent_payload .firstkey 0 recycled
    have block : (Operation.firstkey.bufsize .udp 0) - (8 + 0) = 4 + (SBSIZE - 12) := by decide
    rw [Operation.payload, List.nil_append, List.length_nil, block, slice_append] at held
    exact cut_copied (l := .firstkey) fits rfl held (by decide) (by decide)

end Nmdb.Library
