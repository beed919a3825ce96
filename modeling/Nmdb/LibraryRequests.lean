import Nmdb.Library
import Nmdb.Datagram
import Nmdb.Served

/-! The requests of the library as the server reads them. A packet is a header and a
payload behind the transport's offset, and the decoder finds in it what was put there. -/
namespace Nmdb.Library

open Wire

/-- An operation of the library with its arguments. -/
inductive Operation where
  | get (key : Bytes)
  | set (key val : Bytes)
  | del (key : Bytes)
  | cas (key oldval newval : Bytes)
  | incr (key : Bytes) (increment : Int)
  | firstkey
  | nextkey (key : Bytes)
  | stats
  deriving DecidableEq, Repr

namespace Operation

def code : Operation → Req
  | .get _ => .get
  | .set _ _ => .set
  | .del _ => .del
  | .cas _ _ _ => .cas
  | .incr _ _ => .incr
  | .firstkey => .firstkey
  | .nextkey _ => .nextkey
  | .stats => .stats

/-- The flags an operation lets through. -/
def admitted (flags : Nat) : Operation → Nat
  | .get _ => flags &&& NMDB_CACHE_ONLY
  | .set _ _ => flags &&& (NMDB_CACHE_ONLY ||| NMDB_SYNC)
  | .del _ => flags &&& (NMDB_CACHE_ONLY ||| NMDB_SYNC)
  | .cas _ _ _ => flags &&& NMDB_CACHE_ONLY
  | .incr _ _ => flags &&& NMDB_CACHE_ONLY
  | .firstkey => 0
  | .nextkey _ => 0
  | .stats => 0

def packet (srv : Option Transport) (ok : Bool) (flags : Nat) (fresh : Mem) : Operation → Except Fault (Option (Bytes × Nat))
  | .get key => getPacket srv ok fresh key flags
  | .set key val => setPacket srv ok fresh key val flags
  | .del key => delPacket srv ok fresh key flags
  | .cas key oldval newval => casPacket srv ok fresh key oldval newval flags
  | .incr key increment => incrPacket srv ok fresh key increment flags
  | .firstkey => firstkeyPacket srv ok fresh
  | .nextkey key => nextkeyPacket srv ok fresh key
  | .stats => statsPacket srv ok fresh

/-- The request of an operation that has operands. -/
def request : Operation → Option Request
  | .get key => some (.get key)
  | .set key val => some (.set key val)
  | .del key => some (.del key)
  | .cas key oldval newval => some (.cas key oldval newval)
  | .incr key increment => some (.incr key increment)
  | .firstkey => none
  | .nextkey key => some (.nextkey key)
  | .stats => none

def payload : Operation → Bytes
  | .get key => bytes32 (htonl key.length) ++ key
  | .set key val => bytes32 (htonl key.length) ++ bytes32 (htonl val.length) ++ key ++ val
  | .del key => bytes32 (htonl key.length) ++ key
  | .cas key oldval newval => bytes32 (htonl key.length) ++ bytes32 (htonl oldval.length) ++
      bytes32 (htonl newval.length) ++ key ++ oldval ++ newval
  | .incr key increment => bytes32 (htonl key.length) ++ key ++ bytes64 (htonll (ofInt64 increment))
  | .firstkey => []
  | .nextkey key => bytes32 (htonl key.length) ++ key
  | .stats => []

end Operation

def header (request flags : Nat) : Bytes :=
  bytes32 (htonl (PROTO_VER * 2 ^ 28 + ID_CODE)) ++ bytes16 (htons request) ++ bytes16 (htons flags)

/-- The message of an operation, as the server is to see it. -/
def Operation.message (op : Operation) (flags : Nat) : Bytes :=
  header op.code.code (op.admitted flags) ++ op.payload

/-- A fresh buffer filled up to some point. -/
def filled (fresh : Mem) (p : Bytes) (room : Nat) : Bytes := p ++ slice fresh p.length room

theorem filled_length (fresh : Mem) (p : Bytes) (room : Nat) : (filled fresh p room).length = p.length + room := by
  rw [filled, List.length_append, slice_length]

theorem poke_filled {fresh : Mem} {p b : Bytes} {off room : Nat} (here : off = p.length) (fits : b.length ≤ room) :
    poke (filled fresh p room) off b = .ok (filled fresh (p ++ b) (room - b.length)) := by
  have inside : off + b.length ≤ (filled fresh p room).length := by
    rw [filled_length]
    omega
  have before : (filled fresh p room).take off = p := List.take_left' here.symm
  have behind : (filled fresh p room).drop (off + b.length) =
      slice fresh (p ++ b).length (room - b.length) := by
    rw [here, ← List.drop_drop, filled, List.drop_left, drop_slice fits, List.length_append]
  rw [poke, if_pos inside, overlay, before, behind]
  rfl

theorem poke_filled_bind {α : Type} {fresh : Mem} {p b : Bytes} {off room : Nat} {rest : Bytes → Except Fault α}
    (here : off = p.length) (fits : b.length ≤ room) :
    (poke (filled fresh p room) off b >>= rest) = rest (filled fresh (p ++ b) (room - b.length)) := by
  rw [poke_filled here fits, ok_bind]

theorem header_length (request flags : Nat) : (header request flags).length = 8 := by
  simp only [header, List.length_append, bytes32_length, bytes16_length]

/-- The bytes in front of a message before anything is sent. -/
def unset (t : Transport) (fresh : Mem) : Bytes := slice fresh 0 t.idOffset

theorem unset_length (t : Transport) (fresh : Mem) : (unset t fresh).length = t.idOffset := slice_length ..

theorem srvGetMsgOffset_some (t : Transport) : srvGetMsgOffset (some t) = t.idOffset := by
  cases t <;> rfl

/-- The buffer of new_packet: its header, and room for the rest. -/
theorem newPacket_eq (t : Transport) (request flags : Nat) (payloadSize : Option Nat) (fresh : Mem) {room : Nat}
    (size : bufsize t.idOffset payloadSize = t.idOffset + 8 + room) :
    newPacket (some t) request flags payloadSize true fresh =
      .ok (some (filled fresh (unset t fresh ++ header request flags) room, t.idOffset + 8)) := by
  have block : slice fresh 0 (t.idOffset + 8 + room) = filled fresh (unset t fresh) (8 + room) := by
    rw [filled, unset, slice_length, Nat.add_assoc, slice_append, Nat.zero_add]
  unfold newPacket
  simp only [srvGetMsgOffset_some, Bool.not_true, Bool.false_eq_true, if_false]
  rw [size, block, poke_filled_bind (unset_length t fresh).symm (by rw [bytes32_length]; omega),
    poke_filled_bind (by rw [List.length_append, unset_length, bytes32_length])
      (by rw [bytes32_length, bytes16_length]; omega),
    poke_filled_bind (by rw [List.length_append, List.length_append, unset_length, bytes32_length, bytes16_length])
      (by rw [bytes32_length, bytes16_length, bytes16_length]; omega)]
  have left : 8 + room - (bytes32 (htonl (PROTO_VER * 2 ^ 28 + ID_CODE))).length -
      (bytes16 (htons request)).length - (bytes16 (htons flags)).length = room := by
    rw [bytes32_length, bytes16_length, bytes16_length]
    omega
  rw [left, header, List.append_assoc, List.append_assoc, List.append_assoc]
  rfl

/-- A function that fills in some bytes at the end of what is there. -/
def Appends (append : Bytes → Nat → Except Fault (Bytes × Nat)) (body : Bytes) (room : Nat) : Prop :=
  body.length ≤ room ∧ ∀ fresh p,
    append (filled fresh p room) p.length = .ok (filled fresh (p ++ body) (room - body.length), body.length)

theorem append1v_appends {datum : Bytes} {room : Nat} (fits : 4 + datum.length ≤ room) :
    Appends (append1v · · datum) (bytes32 (htonl datum.length) ++ datum) room := by
  refine ⟨by simp only [List.length_append, bytes32_length]; omega, fun fresh p => ?_⟩
  simp only [append1v]
  rw [poke_filled_bind rfl (by rw [bytes32_length]; omega),
    poke_filled_bind (by rw [List.length_append, bytes32_length]) (by rw [bytes32_length]; omega)]
  simp only [List.append_assoc, List.length_append, bytes32_length, Nat.sub_sub, pure_ok]

theorem append2v_appends {datum1 datum2 : Bytes} {room : Nat}
    (fits : 8 + datum1.length + datum2.length ≤ room) :
    Appends (append2v · · datum1 datum2)
      (bytes32 (htonl datum1.length) ++ bytes32 (htonl datum2.length) ++ datum1 ++ datum2) room := by
  refine ⟨by simp only [List.length_append, bytes32_length]; omega, fun fresh p => ?_⟩
  simp only [append2v]
  rw [poke_filled_bind rfl (by rw [bytes32_length]; omega),
    poke_filled_bind (by simp only [List.length_append, bytes32_length]) (by simp only [bytes32_length]; omega),
    poke_filled_bind (by simp only [List.length_append, bytes32_length]) (by simp only [bytes32_length]; omega),
    poke_filled_bind (by simp only [List.length_append, bytes32_length]) (by simp only [bytes32_length]; omega)]
  simp only [List.append_assoc, List.length_append, bytes32_length, Nat.sub_sub, pure_ok]
  simp only [← Nat.add_assoc, Nat.reduceAdd]

theorem append3v_appends {datum1 datum2 datum3 : Bytes} {room : Nat}
    (fits : 12 + datum1.length + datum2.length + datum3.length ≤ room) :
    Appends (append3v · · datum1 datum2 datum3)
      (bytes32 (htonl datum1.length) ++ bytes32 (htonl datum2.length) ++
      bytes32 (htonl datum3.length) ++ datum1 ++ datum2 ++ datum3) room := by
  refine ⟨by simp only [List.length_append, bytes32_length]; omega, fun fresh p => ?_⟩
  simp only [append3v]
  rw [poke_filled_bind rfl (by rw [bytes32_length]; omega),
    poke_filled_bind (by simp only [List.length_append, bytes32_length]) (by simp only [bytes32_length]; omega),
    poke_filled_bind (by simp only [List.length_append, bytes32_length]) (by simp only [bytes32_length]; omega),
    poke_filled_bind (by simp only [List.length_append, bytes32_length]) (by simp only [bytes32_length]; omega),
    poke_filled_bind (by simp only [List.length_append, bytes32_length]) (by simp only [bytes32_length]; omega),
    poke_filled_bind (by simp only [List.length_append, bytes32_length]) (by simp only [bytes32_length]; omega)]
  simp only [List.append_assoc, List.length_append, bytes32_length, Nat.sub_sub, pure_ok]
  simp only [← Nat.add_assoc, Nat.reduceAdd]

/-- The packet of a message in a buffer of some size: it lies behind the offset, and all of
it is sent. -/
def Built (t : Transport) (message : Bytes) (size : Nat) (fresh : Mem)
    (packet : Except Fault (Option (Bytes × Nat))) : Prop :=
  ∃ room, t.idOffset + message.length + room = size ∧
    packet = .ok (some (filled fresh (unset t fresh ++ message) room, t.idOffset + message.length))

theorem built_of_appends {t : Transport} {payloadSize : Option Nat} {room : Nat} {body : Bytes}
    {append : Bytes → Nat → Except Fault (Bytes × Nat)} (request flags : Nat) (fresh : Mem)
    (size : bufsize t.idOffset payloadSize = t.idOffset + 8 + room)
    (appends : Appends append body room) :
    Built t (header request flags ++ body) (bufsize t.idOffset payloadSize) fresh
      (newPacket (some t) request flags payloadSize true fresh >>= fun
        | none => pure none
        | some (buf, payloadOffset) => append buf payloadOffset >>= fun (buf, n) =>
          pure (some (buf, payloadOffset + n))) := by
  have payloadOffset : t.idOffset + 8 = (unset t fresh ++ header request flags).length := by
    rw [List.length_append, unset_length, header_length]
  obtain ⟨fits, appends⟩ := appends
  refine ⟨room - body.length, by rw [size, List.length_append, header_length]; omega, ?_⟩
  rw [newPacket_eq t request flags payloadSize fresh size, ok_bind]
  simp only
  rw [payloadOffset, appends, ok_bind, List.append_assoc]
  simp only [pure_ok, List.length_append, unset_length, header_length, Nat.add_assoc]

theorem message_length (op : Operation) (flags : Nat) :
    (op.message flags).length = 8 + op.payload.length := by
  rw [Operation.message, List.length_append, header_length]

def Operation.bufsize (op : Operation) (t : Transport) (flags : Nat) : Nat :=
  match op with
  | .get _ => SBSIZE
  | .firstkey => SBSIZE
  | .nextkey _ => SBSIZE
  | _ => t.idOffset + (op.message flags).length

/-- The message fits in the buffer that is made for it: one of 68 kB where the reply is to come
into it too, else one whose size is a size_t. -/
def Operation.Fits (op : Operation) (t : Transport) : Prop :=
  match op with
  | .get _ => t.idOffset + (8 + op.payload.length) ≤ SBSIZE
  | .nextkey _ => t.idOffset + (8 + op.payload.length) ≤ SBSIZE
  | _ => t.idOffset + (8 + op.payload.length) < 2 ^ 64

theorem Operation.fits_of_short {op : Operation} {t : Transport} {flags : Nat}
    (short : t.idOffset + (op.message flags).length ≤ SBSIZE) : op.Fits t := by
  rw [message_length] at short
  cases op with
  | get key => exact short
  | nextkey key => exact short
  | _ => exact Nat.lt_of_le_of_lt short (by decide)

theorem bufsize_some {moff payloadSize : Nat} (fits : moff + (8 + payloadSize) < 2 ^ 64) :
    bufsize moff (some payloadSize) = moff + 8 + payloadSize := by
  rw [bufsize, if_neg (by omega), Nat.mod_eq_of_lt (by omega)]

theorem packet_built (op : Operation) (t : Transport) (flags : Nat) (fresh : Mem) (fits : op.Fits t) :
    Built t (op.message flags) (op.bufsize t flags) fresh (op.packet (some t) true flags fresh) := by
  have long := message_length op flags
  have offset : t.idOffset ≤ 4 := by cases t <;> decide
  have whole : Library.bufsize t.idOffset none = t.idOffset + 8 + (SBSIZE - (t.idOffset + 8)) := by
    simp only [Library.bufsize, SBSIZE]
    omega
  have exact_size : ∀ n, (op.message flags).length = 8 + n → t.idOffset + (8 + n) < 2 ^ 64 →
      Library.bufsize t.idOffset (some n) = t.idOffset + (op.message flags).length := fun n same small => by
    rw [same, bufsize_some small, Nat.add_assoc]
  cases op with
  | get key =>
    simp only [Operation.Fits, Operation.payload, List.length_append, bytes32_length] at fits
    exact built_of_appends _ _ fresh whole (append1v_appends (by omega))
  | nextkey key =>
    simp only [Operation.Fits, Operation.payload, List.length_append, bytes32_length] at fits
    exact built_of_appends _ _ fresh whole (append1v_appends (by omega))
  | del key =>
    simp only [Operation.Fits, Operation.payload, List.length_append, bytes32_length] at long fits
    change Built t _ (t.idOffset + _) fresh _
    rw [← exact_size _ long fits]
    exact built_of_appends _ _ fresh (bufsize_some fits) (append1v_appends (Nat.le_refl _))
  | set key val =>
    simp only [Operation.Fits, Operation.payload, List.length_append, bytes32_length] at long fits
    change Built t _ (t.idOffset + _) fresh _
    rw [← exact_size _ long fits]
    exact built_of_appends _ _ fresh (bufsize_some fits) (append2v_appends (Nat.le_refl _))
  | cas key oldval newval =>
    simp only [Operation.Fits, Operation.payload, List.length_append, bytes32_length] at long fits
    change Built t _ (t.idOffset + _) fresh _
    rw [← exact_size _ long fits]
    exact built_of_appends _ _ fresh (bufsize_some fits) (append3v_appends (Nat.le_refl _))
  | incr key increment =>
    simp only [Operation.Fits, Operation.payload, List.length_append, bytes32_length, bytes64_length] at fits
    have room := bufsize_some fits
    have appends := (append1v_appends (show 4 + key.length ≤ 4 + key.length + 8 by omega)).2 fresh
      (unset t fresh ++ header Req.incr.code (flags &&& NMDB_CACHE_ONLY))
    have payloadOffset : (unset t fresh ++ header Req.incr.code (flags &&& NMDB_CACHE_ONLY)).length =
        t.idOffset + 8 := by
      rw [List.length_append, unset_length, header_length]
    simp only [payloadOffset] at appends
    refine ⟨0, rfl, ?_⟩
    simp only [Operation.packet, incrPacket]
    rw [newPacket_eq t _ _ _ fresh room, ok_bind]
    simp only
    rw [appends, ok_bind, poke_filled]
    · simp only [ok_bind, Operation.message, Operation.payload, Operation.code, Operation.admitted,
        List.append_assoc, List.length_append, bytes32_length, bytes64_length, header_length, pure_ok,
        Nat.add_assoc, Nat.add_sub_cancel_left, Nat.add_sub_add_left]
    · simp only [List.length_append, unset_length, header_length]
    · simp only [List.length_append, bytes32_length, bytes64_length]
      omega
  | firstkey =>
    refine ⟨SBSIZE - (t.idOffset + 8), ?_, ?_⟩
    · rw [long]
      simp only [Operation.payload, List.length_nil, Operation.bufsize, SBSIZE]
      omega
    · simp only [Operation.packet, firstkeyPacket]
      rw [newPacket_eq t Req.firstkey.code 0 none fresh whole, ok_bind, Operation.message, Operation.payload,
        List.append_nil, header_length]
      rfl
  | stats =>
    refine ⟨0, rfl, ?_⟩
    simp only [Operation.packet, statsPacket]
    rw [newPacket_eq t Req.stats.code 0 (some 0) fresh (bufsize_some (by omega)), ok_bind, Operation.message,
      Operation.payload, List.append_nil, header_length]
    simp only [filled_length, List.length_append, unset_length, header_length, Nat.add_zero, pure_ok]
    rfl

theorem srvSend_packet (t : Transport) (fresh : Mem) (message : Bytes) (room : Nat) :
    srvSend t (filled fresh (unset t fresh ++ message) room) (t.idOffset + message.length) =
      .ok (filled fresh (t.lengthPrefix message.length ++ message) room) := by
  cases t with
  | tcp =>
    have field : (bytes32 (htonl (4 + message.length))).length = 4 := bytes32_length _
    have inside : 0 + (bytes32 (htonl (4 + message.length))).length ≤
      (filled fresh (unset .tcp fresh ++ message) room).length := by
      simp only [bytes32_length, filled_length, List.length_append, unset_length, Transport.idOffset]
      omega
    have behind : (filled fresh (unset .tcp fresh ++ message) room).drop (0 + 4) =
        message ++ slice fresh (4 + message.length) room := by
      rw [filled, List.append_assoc, List.length_append, unset_length]
      exact List.drop_left' (unset_length .tcp fresh)
    change poke _ 0 (bytes32 (htonl (4 + message.length))) = _
    rw [poke, if_pos inside, overlay, field, behind, List.take_zero, List.nil_append, filled, List.length_append,
      Transport.lengthPrefix, field, List.append_assoc]
  | _ => rfl

def Operation.sent (op : Operation) (t : Transport) (flags : Nat) (fresh : Mem) : Bytes :=
  filled fresh (t.lengthPrefix (op.message flags).length ++ op.message flags)
    (op.bufsize t flags - (t.idOffset + (op.message flags).length))

/-- What an operation puts on the wire, with memory for its packet. -/
def Operation.wire (op : Operation) (t : Transport) (flags : Nat) (fresh : Mem) : Except Fault (Option Bytes) := do
  match ← op.packet (some t) true flags fresh with
  | none => return none
  | some (buf, reqsize) =>
    let buf ← srvSend t buf reqsize
    return some (buf.take reqsize)

theorem packet_sent (op : Operation) (t : Transport) (flags : Nat) (fresh : Mem) (fits : op.Fits t) :
    ∃ buf, op.packet (some t) true flags fresh = .ok (some (buf, t.idOffset + (op.message flags).length)) ∧
      srvSend t buf (t.idOffset + (op.message flags).length) = .ok (op.sent t flags fresh) := by
  obtain ⟨room, size, built⟩ := packet_built op t flags fresh fits
  refine ⟨_, built, ?_⟩
  rw [srvSend_packet, Operation.sent, ← size, Nat.add_sub_cancel_left]

theorem sent_length (op : Operation) (t : Transport) (flags : Nat) (fresh : Mem) (fits : op.Fits t) :
    (op.sent t flags fresh).length = op.bufsize t flags := by
  obtain ⟨room, size, _⟩ := packet_built op t flags fresh fits
  rw [Operation.sent, filled_length, List.length_append, t.lengthPrefix_length]
  omega

/-- The message, over TCP behind its length. -/
theorem wire_eq (op : Operation) (t : Transport) (flags : Nat) (fresh : Mem)
    (fits : t.idOffset + (op.message flags).length ≤ SBSIZE) :
    op.wire t flags fresh = .ok (some (t.lengthPrefix (op.message flags).length ++ op.message flags)) := by
  obtain ⟨buf, built, put⟩ := packet_sent op t flags fresh (Operation.fits_of_short fits)
  unfold Operation.wire
  rw [built, ok_bind]
  simp only [put, ok_bind, pure_ok, Operation.sent, filled]
  rw [List.take_left' (by rw [List.length_append, t.lengthPrefix_length])]

/- From here on it is the server that reads the message. -/

section

variable {buf : Mem} {request flags : Nat} {payload : Bytes}

theorem header_read (held : slice buf 0
    (header request flags ++ payload).length = header request flags ++ payload)
    (requestFits : request < 2 ^ 16) (flagsFit : flags < 2 ^ 16) :
    version buf = PROTO_VER ∧ requestId buf = ID_CODE ∧ command buf = request ∧ flagBits buf = flags ∧
      slice (buf.from 8) 0 payload.length = payload := by
  have parts : slice buf 0 4 ++ (slice buf 4 2 ++ (slice buf 6 2 ++ slice buf 8 payload.length)) =
      bytes32 (htonl (PROTO_VER * 2 ^ 28 + ID_CODE)) ++ (bytes16 (htons request) ++
        (bytes16 (htons flags) ++ payload)) := by
    rw [List.length_append, header_length, show 8 + payload.length = 4 + (2 + (2 + payload.length)) by omega,
      slice_append, slice_append, slice_append] at held
    simp only [header, List.append_assoc, Nat.zero_add] at held
    exact held
  obtain ⟨word, parts⟩ := List.append_inj parts (by rw [slice_length, bytes32_length])
  obtain ⟨code, parts⟩ := List.append_inj parts (by rw [slice_length, bytes16_length])
  obtain ⟨bits, rest⟩ := List.append_inj parts (by rw [slice_length, bytes16_length])
  have hdr : htonl (load32 buf 0) = PROTO_VER * 2 ^ 28 + ID_CODE := by
    have read := ntohl_load32 buf 0
    rw [word, bigEndian_htonl (by decide)] at read
    exact read
  refine ⟨by rw [version, hdr]; rfl, by rw [requestId, hdr]; rfl, ?_, ?_, by rw [slice_from, rest]⟩
  · rw [command, ntohs_slice, code, bigEndian_htons requestFits]
  · rw [flagBits, ntohs_slice, bits, bigEndian_htons flagsFit]

end

theorem code_lt (c : Req) : c.code < 2 ^ 16 := by
  cases c <;> decide

theorem admitted_lt (op : Operation) (flags : Nat) : op.admitted flags < 2 ^ 16 := by
  have one : flags &&& NMDB_CACHE_ONLY < 2 ^ 16 := Nat.lt_of_le_of_lt Nat.and_le_right (by decide)
  have both : flags &&& (NMDB_CACHE_ONLY ||| NMDB_SYNC) < 2 ^ 16 :=
    Nat.lt_of_le_of_lt Nat.and_le_right (by decide)
  cases op with
  | get key => exact one
  | set key val => exact both
  | del key => exact both
  | cas key oldval newval => exact one
  | incr key increment => exact one
  | _ => exact Nat.two_pow_pos 16

/-- The sizes the server takes, and an increment that is an int64_t. -/
def Operation.Legal (op : Operation) : Prop :=
  (∀ r ∈ op.request, r.size ≤ maxSize) ∧ ∀ key increment, op = .incr key increment → InInt64 increment

theorem declared_payload {op : Operation} {r : Request} (asked : op.request = some r) (legal : op.Legal)
    (short : op.payload.length < 2 ^ 32) : declared op.code op.payload = some r := by
  have oneKey : ∀ key : Bytes, (bytes32 (htonl key.length) ++ key).length < 2 ^ 32 →
      declaredKey (bytes32 (htonl key.length) ++ key) = some key := by
    intro key short
    rw [List.length_append, bytes32_length] at short
    have all := take_append key []
    rw [List.append_nil] at all
    rw [declaredKey, word_htonl (by omega)]
    simp only [Option.bind_eq_bind, Option.bind_some, all, Option.pure_def]
  have last : ∀ b : Bytes, take b.length b = some (b, []) := by
    intro b
    have all := take_append b []
    rw [List.append_nil] at all
    exact all
  cases op with
  | get key =>
    cases asked
    simp only [declared, Operation.code, Operation.payload, oneKey key short, Option.map_some]
  | del key =>
    cases asked
    simp only [declared, Operation.code, Operation.payload, oneKey key short, Option.map_some]
  | nextkey key =>
    cases asked
    simp only [declared, Operation.code, Operation.payload, oneKey key short, Option.map_some]
  | set key val =>
    cases asked
    simp only [Operation.payload, List.length_append, bytes32_length] at short
    simp only [declared, Operation.code, Operation.payload, List.append_assoc, Option.bind_eq_bind,
      word_htonl (show key.length < 2 ^ 32 by omega), word_htonl (show val.length < 2 ^ 32 by omega),
      Option.bind_some, take_append, last, Option.pure_def]
  | cas key oldval newval =>
    cases asked
    simp only [Operation.payload, List.length_append, bytes32_length] at short
    simp only [declared, Operation.code, Operation.payload, List.append_assoc, Option.bind_eq_bind,
      word_htonl (show key.length < 2 ^ 32 by omega), word_htonl (show oldval.length < 2 ^ 32 by omega),
      word_htonl (show newval.length < 2 ^ 32 by omega), Option.bind_some, take_append, last, Option.pure_def]
  | incr key increment =>
    cases asked
    have fits : InInt64 increment := legal.2 key increment rfl
    have number : word 8 (bytes64 (htonll (ofInt64 increment))) = some (ofInt64 increment, []) := by
      have read := word_append (bytes64_length _) (bigEndian_htonll (ofInt64_lt increment)) []
      rw [List.append_nil] at read
      exact read
    simp only [Operation.payload, List.length_append, bytes32_length] at short
    simp only [declared, Operation.code, Operation.payload, List.append_assoc, Option.bind_eq_bind,
      word_htonl (show key.length < 2 ^ 32 by omega), Option.bind_some, take_append, number, Option.pure_def]
    rw [show toInt64 (ofInt64 increment) = wrap64 increment from rfl, wrap64_eq fits]
  | firstkey => contradiction
  | stats => contradiction

/-- What the server does for an operation it understands: the request information has ID 1
and the flags the operation lets through, and the operands are those of the caller. -/
def Operation.handled {ν : Type} (op : Operation) (flags : Nat) (m : Mallocs) (s : Server ν) (req : ReqInfo ν) :
    Except Fault (Server ν) :=
  let req := { req with id := htonl ID_CODE, cmd := op.code.code, flags := op.admitted flags }
  match op with
  | .get key => serve m s req (.get key)
  | .set key val => serve m s req (.set key val)
  | .del key => serve m s req (.del key)
  | .cas key oldval newval => serve m s req (.cas key oldval newval)
  | .incr key increment => serve m s req (.incr key increment)
  | .firstkey => parseFirstkey m s req
  | .nextkey key => serve m s req (.nextkey key)
  | .stats => .ok (parseStats s req)

theorem parseMessage_message {ν : Type} {op : Operation} {flags : Nat} {buf : Mem} (legal : op.Legal)
    (short : op.payload.length < 2 ^ 32) (held : slice buf 0 (op.message flags).length = op.message flags)
    (m : Mallocs) (s : Server ν) (req : ReqInfo ν) :
    parseMessage m s req buf (op.message flags).length = op.handled flags m s req >>= fun s =>
      .ok (true, s) := by
  obtain ⟨ver, id, cmd, bits, rest⟩ := header_read held (code_lt op.code) (admitted_lt op flags)
  have info : headerInfo req buf =
      { req with id := htonl ID_CODE, cmd := op.code.code, flags := op.admitted flags } := by
    rw [headerInfo, id, cmd, bits]
  cases asked : op.request with
  | some r =>
    have found : decoded buf (op.message flags).length = some r := by
      rw [decoded, if_pos ⟨ver, by rw [message_length]; omega⟩, cmd, Req.ofCode_code, Option.bind_some,
        message_length, Nat.add_sub_cancel_left, rest, declared_payload asked legal short]
    rw [parseMessage_decoded found (legal.1 r asked), info]
    cases op <;> cases asked <;> rfl
  | none =>
    unfold parseMessage
    rw [if_neg (not_not_intro ver), info, parseCommand_eq m s (c := op.code) rfl]
    cases op with
    | firstkey => rfl
    | stats => rfl
    | _ => contradiction

/-- The longest message a transport takes. -/
def longest : Transport → Nat
  | .tipc => SBSIZE
  | .tcp => maxPacket
  | .udp => SBSIZE
  | .sctp => SBSIZE

/-- The header of the operation in a message. -/
def Sees (op : Operation) (flags : Nat) (buf : Mem) : Prop :=
  version buf = PROTO_VER ∧ requestId buf = ID_CODE ∧ command buf = op.code.code ∧
    flagBits buf = op.admitted flags

/-- The server receives a packet whole, takes the message out and handles the operation. -/
def Understood (op : Operation) (flags : Nat) (packet : Bytes) : Transport → Prop
  | .tipc => ∀ (ν : Type) (m : Mallocs) (static : Mem) (req : ReqInfo ν) (s : Server ν),
      tipcRecv m static req (some packet) s =
        op.handled flags m (s.count fun st => { st with msgTipc := st.msgTipc + 1 }) req >>= fun s =>
          .ok (received static 0 packet, s)
  | .tcp => ∀ (m : Mallocs) (ok : Bool) (static : Mem) (tcpsock : TcpSocket) (s : Server Client),
      tcpsock.buf = none → tcpsock.excess = 0 →
      tcpRecv (tcpParse m) ok static tcpsock packet s =
        op.handled flags m (s.count fun st => { st with msgTcp := st.msgTcp + 1 })
          (initReq tcpsock).req >>= fun s =>
          .ok (some (initReq tcpsock), received static 0 packet, s)
  | .udp => ∀ (ν : Type) (m : Mallocs) (static : Mem) (req : ReqInfo ν) (s : Server ν),
      udpRecv m static req (some packet) s =
        op.handled flags m (s.count fun st => { st with msgUdp := st.msgUdp + 1 }) req >>= fun s =>
          .ok (received static 0 packet, s)
  | .sctp => ∀ (ν : Type) (m : Mallocs) (static : Mem) (req : ReqInfo ν) (s : Server ν),
      sctpRecv m static req (some packet) s =
        op.handled flags m (s.count fun st => { st with msgSctp := st.msgSctp + 1 }) req >>= fun s =>
          .ok (received static 0 packet, s)

section

variable {op : Operation} {flags : Nat}

theorem datagram_understood {ν : Type} (legal : op.Legal) (short : op.payload.length < 2 ^ 32)
    (msg : Stats → Stats)
    (m : Mallocs) (static : Mem) (req : ReqInfo ν) (s : Server ν) :
    datagramRecv msg m static req (some (op.message flags)) s =
      op.handled flags m (s.count msg) req >>= fun s => .ok (received static 0 (op.message flags), s) := by
  have held := received_here static 0 (op.message flags)
  rw [datagramRecv_whole msg m static req s (by rw [message_length]; omega),
    parseMessage_message legal short held]
  cases op.handled flags m (s.count msg) req <;> rfl

theorem tcp_understood (legal : op.Legal) (fits : 4 + (op.message flags).length ≤ maxPacket) :
    Understood op flags (bytes32 (htonl (4 + (op.message flags).length)) ++ op.message flags) .tcp := by
  intro m ok static tcpsock s fresh clean
  have long := message_length op flags
  obtain ⟨b, packet⟩ : ∃ b, b = bytes32 (htonl (4 + (op.message flags).length)) ++ op.message flags := ⟨_, rfl⟩
  rw [← packet]
  have length : b.length = 4 + (op.message flags).length := by
    rw [packet, List.length_append, bytes32_length]
  have held : slice (received static 0 b) 0 4 ++ slice (received static 0 b) 4 (op.message flags).length =
      bytes32 (htonl (4 + (op.message flags).length)) ++ op.message flags := by
    have whole := received_here static 0 b
    rw [length, slice_append, Nat.zero_add] at whole
    rw [whole, packet]
  obtain ⟨field, body⟩ := List.append_inj held (by rw [slice_length, bytes32_length])
  have total : totaltoget (received static 0 b) b.length = b.length := by
    have small : 4 + (op.message flags).length < 2 ^ 32 := by
      simp only [maxPacket] at fits
      omega
    rw [totaltoget, if_pos (by omega), ntohl_load32, field, bigEndian_htonl small, length]
  have inRange : ¬ (4 ≤ b.length ∧ (maxPacket < b.length ∨ b.length ≤ 8)) := by omega
  have some : b ≠ [] := List.ne_nil_of_length_pos (by omega)
  have parsed := parseMessage_message legal (by simp only [maxPacket] at fits; omega)
    ((slice_from _ 4 _).trans body) m (s.count fun st => { st with msgTcp := st.msgTcp + 1 })
      (initReq tcpsock).req
  have own : (initReq tcpsock).buf = none := fresh
  have excess : (initReq tcpsock).excess = 0 := clean
  rw [tcpRecv, if_neg some]
  simp only [fresh]
  unfold processBuf
  simp only [total, if_neg inRange, Nat.lt_irrefl, if_false, tcpParse]
  rw [show b.length - 4 = (op.message flags).length by omega, parsed]
  cases op.handled flags m (s.count fun st => { st with msgTcp := st.msgTcp + 1 }) (initReq tcpsock).req with
  | error e => rfl
  | ok s' =>
    simp only [ok_bind, pure_ok, Bool.not_true, Bool.false_eq_true, if_false, excess, ne_eq,
      not_true_eq_false, own]

end

/-- The server understands every request the library can send it. -/
theorem requests_survive (op : Operation) (t : Transport) (flags : Nat) (fresh : Mem) (legal : op.Legal)
    (fits : t.idOffset + (op.message flags).length ≤ longest t) :
    ∃ packet, op.wire t flags fresh = .ok (some packet) ∧ Understood op flags packet t ∧
      ∀ buf, slice buf 0 packet.length = packet → Sees op flags (buf.from t.idOffset) := by
  have room : t.idOffset + (op.message flags).length ≤ SBSIZE := by
    cases t <;> simp only [longest, maxPacket, SBSIZE] at fits ⊢ <;> omega
  have short : op.payload.length < 2 ^ 32 := by
    have long := message_length op flags
    simp only [SBSIZE] at room
    omega
  refine ⟨_, wire_eq op t flags fresh room, ?_, fun buf held => ?_⟩
  · cases t with
    | tcp => exact tcp_understood legal fits
    | udp => exact fun ν m static req s => datagram_understood legal short _ m static req s
    | sctp => exact fun ν m static req s => datagram_understood legal short _ m static req s
    | tipc =>
      intro ν m static req s
      have some : ¬ some (op.message flags) = some [] := by
        intro none
        have long := message_length op flags
        rw [Option.some.inj none, List.length_nil] at long
        omega
      exact (if_neg some).trans (datagram_understood legal short _ m static req s)
  · have body : slice (buf.from t.idOffset) 0 (op.message flags).length = op.message flags := by
      rw [List.length_append, t.lengthPrefix_length, slice_append] at held
      obtain ⟨_, rest⟩ := List.append_inj held (by rw [slice_length, t.lengthPrefix_length])
      rw [slice_from, ← Nat.zero_add t.idOffset]
      exact rest
    obtain ⟨ver, id, cmd, bits, _⟩ := header_read body (code_lt op.code) (admitted_lt op flags)
    exact ⟨ver, id, cmd, bits⟩

/-- CAS of an empty key and value with all flags set, over TCP. -/
theorem requests_survive_cas :
    ∃ packet, (Operation.cas [] [] [7]).wire .tcp 65535 (fun _ => 0) = .ok (some packet) ∧
    Understood (.cas [] [] [7]) 65535 packet .tcp ∧
      ∀ buf, slice buf 0 packet.length = packet → Sees (.cas [] [] [7]) 65535 (buf.from 4) :=
  requests_survive _ _ _ _ ⟨by rintro r ⟨⟩; decide, nofun⟩ (by decide)

end Nmdb.Library
