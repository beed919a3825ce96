import Nmdb.Replies
import Nmdb.Reassembly

/-! The packets replies are sent in. They all take the ID as the request information
holds it, so it is the parser that decides which ID a client reads. -/
namespace Nmdb

open Wire

variable {ν : Type}

inductive Transport where
  | tipc
  | tcp
  | udp
  | sctp
  deriving DecidableEq, Repr

/- The code of tipc.c, udp.c and sctp.c is the same here: the ID, the reply code and what
goes with it, in a datagram of its own. -/
namespace Datagram

def repSendError (req : ReqInfo ν) (code : Err) : Bytes :=
  bytes32 req.id ++ bytes32 (htonl REP_ERR) ++ bytes32 (htonl code.code)

def replyMini (req : ReqInfo ν) (reply : Rep) : Bytes :=
  bytes32 req.id ++ bytes32 (htonl reply.code)

def replyErr (req : ReqInfo ν) (reply : Err) : Bytes := repSendError req reply

def replyLong (req : ReqInfo ν) (reply : Rep) (val : Bytes) : Bytes :=
  bytes32 req.id ++ bytes32 (htonl reply.code) ++ bytes32 (htonl val.length) ++ val

end Datagram

def tipcReplyMini (req : ReqInfo ν) (reply : Rep) : Bytes := Datagram.replyMini req reply
def tipcReplyErr (req : ReqInfo ν) (reply : Err) : Bytes := Datagram.replyErr req reply
def tipcReplyLong (req : ReqInfo ν) (reply : Rep) (val : Bytes) : Bytes := Datagram.replyLong req reply val

def udpReplyMini (req : ReqInfo ν) (reply : Rep) : Bytes := Datagram.replyMini req reply
def udpReplyErr (req : ReqInfo ν) (reply : Err) : Bytes := Datagram.replyErr req reply
def udpReplyLong (req : ReqInfo ν) (reply : Rep) (val : Bytes) : Bytes := Datagram.replyLong req reply val

def sctpReplyMini (req : ReqInfo ν) (reply : Rep) : Bytes := Datagram.replyMini req reply
def sctpReplyErr (req : ReqInfo ν) (reply : Err) : Bytes := Datagram.replyErr req reply
def sctpReplyLong (req : ReqInfo ν) (reply : Rep) (val : Bytes) : Bytes := Datagram.replyLong req reply val

/-- rep_send_error of tcp.c -/
def repSendError (req : ReqInfo ν) (code : Err) : Bytes :=
  bytes32 (htonl (4 + 4 + 4 + 4)) ++ bytes32 req.id ++ bytes32 (htonl REP_ERR) ++ bytes32 (htonl code.code)

def tcpReplyMini (req : ReqInfo ν) (reply : Rep) : Bytes :=
  bytes32 (htonl 12) ++ bytes32 req.id ++ bytes32 (htonl reply.code)

def tcpReplyErr (req : ReqInfo ν) (reply : Err) : Bytes := repSendError req reply

def tcpReplyLong (req : ReqInfo ν) (reply : Rep) (val : Bytes) : Bytes :=
  bytes32 (htonl (4 + 4 + 4 + 4 + val.length)) ++ bytes32 req.id ++ bytes32 (htonl reply.code) ++
    bytes32 (htonl val.length) ++ val

namespace Transport

def replyMini : Transport → ReqInfo ν → Rep → Bytes
  | .tipc => tipcReplyMini
  | .tcp => tcpReplyMini
  | .udp => udpReplyMini
  | .sctp => sctpReplyMini

def replyErr : Transport → ReqInfo ν → Err → Bytes
  | .tipc => tipcReplyErr
  | .tcp => tcpReplyErr
  | .udp => udpReplyErr
  | .sctp => sctpReplyErr

def replyLong : Transport → ReqInfo ν → Rep → Bytes → Bytes
  | .tipc => tipcReplyLong
  | .tcp => tcpReplyLong
  | .udp => udpReplyLong
  | .sctp => sctpReplyLong

/-- The packet of a reply. -/
def packet (t : Transport) (req : ReqInfo ν) : Reply → Bytes
  | .mini r => t.replyMini req r
  | .err e => t.replyErr req e
  | .long r val => t.replyLong req r val

/-- What is handed to the kernel for a reply. When that fails, and it is no error reply
already, one follows. -/
def sent (t : Transport) (failed : Bool) (req : ReqInfo ν) (r : Reply) : List Bytes :=
  if failed && !r.isErr then [t.packet req r, t.packet req (.err .send)] else [t.packet req r]

def idOffset : Transport → Nat
  | .tipc | .udp | .sctp => 0
  | .tcp => 4

/-- The ID field of a packet, in network byte order. -/
def idField (t : Transport) (packet : Bytes) : Nat := bigEndian ((packet.drop t.idOffset).take 4)

/-- The total length TCP puts in front of n bytes. -/
def lengthPrefix (t : Transport) (n : Nat) : Bytes :=
  match t with
  | .tipc | .udp | .sctp => []
  | .tcp => bytes32 (htonl (4 + n))

theorem lengthPrefix_length (t : Transport) (n : Nat) : (t.lengthPrefix n).length = t.idOffset := by
  cases t with
  | tcp => exact bytes32_length _
  | _ => rfl

end Transport

/-- What follows the ID in a reply. -/
def Reply.body : Reply → Bytes
  | .mini r => bytes32 (htonl r.code)
  | .err e => bytes32 (htonl REP_ERR) ++ bytes32 (htonl e.code)
  | .long r val => bytes32 (htonl r.code) ++ bytes32 (htonl val.length) ++ val

/-- The reply code, and what follows it. -/
def Reply.code : Reply → Nat
  | .mini r => r.code
  | .err _ => REP_ERR
  | .long r _ => r.code

def Reply.data : Reply → Bytes
  | .mini _ => []
  | .err e => bytes32 (htonl e.code)
  | .long _ val => bytes32 (htonl val.length) ++ val

theorem Reply.body_eq (r : Reply) : r.body = bytes32 (htonl r.code) ++ r.data := by
  cases r with
  | mini r => exact (List.append_nil _).symm
  | err e => rfl
  | long r val => exact List.append_assoc ..

theorem Reply.code_lt (r : Reply) : r.code < 2 ^ 32 := by
  have rep : ∀ r : Rep, r.code < 2 ^ 32 := fun r => by cases r <;> decide
  cases r with
  | mini r => exact rep r
  | err e => exact show REP_ERR < 2 ^ 32 by decide
  | long r val => exact rep r

namespace Transport

theorem datagram_packet (req : ReqInfo ν) (r : Reply) :
    Transport.udp.packet req r = bytes32 req.id ++ r.body := by
  cases r with
  | mini r => rfl
  | err e =>
    simp only [packet, replyErr, udpReplyErr, Datagram.replyErr, Datagram.repSendError, Reply.body,
      List.append_assoc]
  | long r val =>
    simp only [packet, replyLong, udpReplyLong, Datagram.replyLong, Reply.body, List.append_assoc]

theorem tcp_packet (req : ReqInfo ν) (r : Reply) :
    Transport.tcp.packet req r = bytes32 (htonl (4 + (4 + r.body.length))) ++ (bytes32 req.id ++ r.body) := by
  cases r with
  | mini r =>
    simp only [packet, replyMini, tcpReplyMini, Reply.body, bytes32_length, List.append_assoc]
  | err e =>
    simp only [packet, replyErr, tcpReplyErr, Nmdb.repSendError, Reply.body, List.length_append,
      bytes32_length, List.append_assoc]
  | long r val =>
    have total : 4 + (4 + (4 + (4 + val.length))) = 4 + 4 + 4 + 4 + val.length := by omega
    simp only [packet, replyLong, tcpReplyLong, Reply.body, List.length_append, bytes32_length,
      List.append_assoc, total]

/-- Every reply is its ID and its body, behind the length if there is one. -/
theorem packet_eq (t : Transport) (req : ReqInfo ν) (r : Reply) :
    t.packet req r = t.lengthPrefix (4 + r.body.length) ++ (bytes32 req.id ++ r.body) := by
  have tipc : Transport.tipc.packet req r = Transport.udp.packet req r := by cases r <;> rfl
  have sctp : Transport.sctp.packet req r = Transport.udp.packet req r := by cases r <;> rfl
  cases t with
  | tcp => exact tcp_packet req r
  | udp => rw [datagram_packet, lengthPrefix, List.nil_append]
  | tipc => rw [tipc, datagram_packet, lengthPrefix, List.nil_append]
  | sctp => rw [sctp, datagram_packet, lengthPrefix, List.nil_append]

theorem idField_packet (t : Transport) (req : ReqInfo ν) (r : Reply) :
    t.idField (t.packet req r) = htonl req.id := by
  rw [idField, packet_eq, List.drop_left' (lengthPrefix_length ..), List.take_left' (bytes32_length _),
    bigEndian_bytes32]

end Transport

/-- Whatever the transport and the outcome of sending, a reply is read with this ID. -/
def Carries (id : Nat) (req : ReqInfo ν) (r : Reply) : Prop :=
  ∀ (t : Transport) (failed : Bool), ∀ packet ∈ t.sent failed req r, t.idField packet = id

theorem carries_iff {id : Nat} {req : ReqInfo ν} {r : Reply} : Carries id req r ↔ htonl req.id = id := by
  constructor
  · intro carries
    rw [← Transport.idField_packet .udp req r]
    exact carries .udp false _ List.mem_cons_self
  · intro same t failed packet mem
    have either : ∃ r, packet = t.packet req r := by
      unfold Transport.sent at mem
      split at mem
      · rcases List.mem_cons.mp mem with rfl | last
        · exact ⟨r, rfl⟩
        · exact ⟨.err .send, List.mem_singleton.mp last⟩
      · exact ⟨r, List.mem_singleton.mp mem⟩
    obtain ⟨r', rfl⟩ := either
    rw [Transport.idField_packet, same]

/-- Every reply to a message carries its ID: those of the main thread, and those the
database thread gives to what the message has queued. -/
def RepliesCarryId (m : Mallocs) (s : Server ν) (req : ReqInfo ν) (buf : Mem) (len : Nat) : Prop :=
  ∀ understood s', parseMessage m s req buf len = .ok (understood, s') →
    (∀ x ∈ s'.replies.drop s.replies.length, Carries (requestId buf) x.1 x.2) ∧
    (∀ e ∈ s'.queue.drop s.queue.length, ∀ (δ : Type) (db : DbConn δ) (ok : Bool) (d d' : δ) (r : Reply),
      processOp db ok d e = .ok (d', some r) → Carries (requestId buf) e.req r)

/-- The replies of a message are those of its reply information. -/
theorem Answered.carry {id : Nat} {req : ReqInfo ν} {s s' : Server ν} (answered : Answered req s s')
    (same : htonl req.id = id) :
    (∀ x ∈ s'.replies.drop s.replies.length, Carries id x.1 x.2) ∧
    (∀ e ∈ s'.queue.drop s.queue.length, ∀ r, Carries id e.req r) := by
  cases answered with
  | now replies queue own =>
    rw [replies, queue, List.drop_left, List.drop_left]
    refine ⟨fun x mem => ?_, fun e mem r => ?_⟩
    · rw [List.mem_singleton.mp mem]
      exact carries_iff.mpr same
    · rw [carries_iff, (own e (Option.mem_toList.mp mem)).1]
      exact same
  | later replies queue own =>
    rw [replies, queue, List.drop_left, List.drop_length]
    refine ⟨List.forall_mem_nil _, fun e mem r => ?_⟩
    rw [carries_iff, List.mem_singleton.mp mem, own.1]
    exact same

theorem requestId_lt (buf : Mem) : requestId buf < 2 ^ 28 := Nat.mod_lt _ (by decide)

/- The reply to a message of another version. -/
theorem RepliesCarryId.version {m : Mallocs} {s : Server ν} {req : ReqInfo ν} {buf : Mem} {len : Nat}
    (carry : RepliesCarryId m s req buf len) (ver : version buf ≠ PROTO_VER) :
    htonl (requestId buf) = requestId buf := by
  have refused : parseMessage m s req buf len = .ok (false,
      (s.count fun st => { st with netVersionMismatch := st.netVersionMismatch + 1 }).reply
        { req with id := requestId buf } (.err .ver)) := if_pos ver
  have given := (carry _ _ refused).1 ({ req with id := requestId buf }, .err .ver)
    (by simp only [Server.reply, Server.count, List.drop_left, List.mem_singleton])
  have read := carries_iff.mp given
  exact read

/-- The version is checked before the ID is put back in network byte order. -/
theorem replies_carry_id_iff (m : Mallocs) (s : Server ν) (req : ReqInfo ν) (buf : Mem) (len : Nat) :
    RepliesCarryId m s req buf len ↔
      version buf = PROTO_VER ∨ htonl (requestId buf) = requestId buf := by
  constructor
  · intro carry
    by_cases ver : version buf = PROTO_VER
    · exact .inl ver
    · exact .inr (carry.version ver)
  · intro fine understood s' done
    have same : htonl (replyInfo req buf).id = requestId buf := by
      unfold replyInfo
      split
      · have small := requestId_lt buf
        exact ntohl_ntohl (by omega)
      case isFalse ver => exact fine.resolve_left ver
    obtain ⟨replies, queue⟩ := (parseMessage_answered done).carry same
    exact ⟨replies, fun e mem δ db ok d d' r _ => queue e mem r⟩

/-- Request 1 of protocol version 0 is told about its version under the ID 16777216. -/
theorem version_mismatch_swaps_id :
    requestId (Mem.ofBytes [0, 0, 0, 1, 1, 6, 0, 0]) = 1 ∧
    ¬ RepliesCarryId Mallocs.plenty (serverOf emptyCache) ⟨0, 0, 0, 0⟩
      (Mem.ofBytes [0, 0, 0, 1, 1, 6, 0, 0]) 8 := by
  refine ⟨by decide, fun carry => ?_⟩
  exact absurd (carry.version (by decide)) (by decide)

end Nmdb
