import Nmdb.ReplyFrames

/-! The client library: how an operation builds its packet, sends it, and reads the reply
back into the same buffer. Writes of the library are checked against the buffer. -/
namespace Nmdb.Library

def NMDB_CACHE_ONLY : Nat := 1
def NMDB_SYNC : Nat := 2

def ID_CODE : Nat := 1

/-- The uint32_t -1. -/
def noReply : Nat := 2 ^ 32 - 1

/-- A block with bytes written over it from off on. -/
def overlay (buf : Bytes) (off : Nat) (b : Bytes) : Bytes := buf.take off ++ b ++ buf.drop (off + b.length)

def poke (buf : Bytes) (off : Nat) (b : Bytes) : Except Fault Bytes :=
  if off + b.length ≤ buf.length then .ok (overlay buf off b) else .error .outOfBounds

/-- The offsets of a message in its packet. Without a server it is 0. -/
def srvGetMsgOffset : Option Transport → Nat
  | some .tipc => 0
  | some .tcp => 4
  | some .udp => 0
  | some .sctp => 0
  | none => 0

/-- The *bufsize of new_packet; no payload size stands for -1, and so does the largest size_t. -/
def bufsize (moff : Nat) : Option Nat → Nat
  | none => 68 * 1024
  | some payloadSize =>
    if payloadSize % 2 ^ 64 = 2 ^ 64 - 1 then 68 * 1024 else (moff + 8 + payloadSize) % 2 ^ 64

/-- The new buffer and the offset of the payload, if there is memory. What is fresh in it is
whatever was there before. -/
def newPacket (srv : Option Transport) (request flags : Nat) (payloadSize : Option Nat) (ok : Bool) (fresh : Mem) :
    Except Fault (Option (Bytes × Nat)) :=
  let moff := srvGetMsgOffset srv
  if !ok then .ok none
  else do
    let buf := slice fresh 0 (bufsize moff payloadSize)
    let buf ← poke buf moff (bytes32 (htonl (PROTO_VER * 2 ^ 28 + ID_CODE)))
    let buf ← poke buf (moff + 4) (bytes16 (htons request))
    let buf ← poke buf (moff + 6) (bytes16 (htons flags))
    return some (buf, moff + 8)

/- They return the buffer and the number of bytes appended. -/

def append1v (buf : Bytes) (off : Nat) (datum : Bytes) : Except Fault (Bytes × Nat) := do
  let buf ← poke buf off (bytes32 (htonl datum.length))
  let buf ← poke buf (off + 4) datum
  return (buf, 4 + datum.length)

def append2v (buf : Bytes) (off : Nat) (datum1 datum2 : Bytes) : Except Fault (Bytes × Nat) := do
  let buf ← poke buf off (bytes32 (htonl datum1.length))
  let buf ← poke buf (off + 4) (bytes32 (htonl datum2.length))
  let buf ← poke buf (off + 8) datum1
  let buf ← poke buf (off + 8 + datum1.length) datum2
  return (buf, 8 + datum1.length + datum2.length)

def append3v (buf : Bytes) (off : Nat) (datum1 datum2 datum3 : Bytes) : Except Fault (Bytes × Nat) := do
  let buf ← poke buf off (bytes32 (htonl datum1.length))
  let buf ← poke buf (off + 4) (bytes32 (htonl datum2.length))
  let buf ← poke buf (off + 8) (bytes32 (htonl datum3.length))
  let buf ← poke buf (off + 12) datum1
  let buf ← poke buf (off + 12 + datum1.length) datum2
  let buf ← poke buf (off + 12 + datum1.length + datum2.length) datum3
  return (buf, 12 + datum1.length + datum2.length + datum3.length)

/- The packets of the operations: the buffer and how much of it is sent. -/

/-- A packet of one key, in a buffer of the given payload size. -/
def keyPacket (srv : Option Transport) (request flags : Nat) (payloadSize : Option Nat) (ok : Bool)
    (fresh : Mem) (key : Bytes) : Except Fault (Option (Bytes × Nat)) := do
  match ← newPacket srv request flags payloadSize ok fresh with
  | none => return none
  | some (buf, payloadOffset) =>
    let (buf, n) ← append1v buf payloadOffset key
    return some (buf, payloadOffset + n)

def getPacket (srv : Option Transport) (ok : Bool) (fresh : Mem) (key : Bytes) (flags : Nat) :
    Except Fault (Option (Bytes × Nat)) :=
  keyPacket srv Req.get.code (flags &&& NMDB_CACHE_ONLY) none ok fresh key

def setPacket (srv : Option Transport) (ok : Bool) (fresh : Mem) (key val : Bytes) (flags : Nat) :
    Except Fault (Option (Bytes × Nat)) := do
  match ← newPacket srv Req.set.code (flags &&& (NMDB_CACHE_ONLY ||| NMDB_SYNC))
    (some (4 * 2 + key.length + val.length)) ok fresh with
  | none => return none
  | some (buf, payloadOffset) =>
    let (buf, n) ← append2v buf payloadOffset key val
    return some (buf, payloadOffset + n)

def delPacket (srv : Option Transport) (ok : Bool) (fresh : Mem) (key : Bytes) (flags : Nat) :
    Except Fault (Option (Bytes × Nat)) :=
  keyPacket srv Req.del.code (flags &&& (NMDB_CACHE_ONLY ||| NMDB_SYNC)) (some (4 + key.length)) ok fresh key

def casPacket (srv : Option Transport) (ok : Bool) (fresh : Mem) (key oldval newval : Bytes) (flags : Nat) :
    Except Fault (Option (Bytes × Nat)) := do
  match ← newPacket srv Req.cas.code (flags &&& NMDB_CACHE_ONLY)
    (some (4 * 3 + key.length + oldval.length + newval.length)) ok fresh with
  | none => return none
  | some (buf, payloadOffset) =>
    let (buf, n) ← append3v buf payloadOffset key oldval newval
    return some (buf, payloadOffset + n)

def incrPacket (srv : Option Transport) (ok : Bool) (fresh : Mem) (key : Bytes) (increment : Int) (flags : Nat) :
    Except Fault (Option (Bytes × Nat)) := do
  let increment := htonll (ofInt64 increment)
  match ← newPacket srv Req.incr.code (flags &&& NMDB_CACHE_ONLY) (some (4 + key.length + 8)) ok fresh with
  | none => return none
  | some (buf, payloadOffset) =>
    let (buf, n) ← append1v buf payloadOffset key
    let reqsize := payloadOffset + n
    let buf ← poke buf reqsize (bytes64 increment)
    return some (buf, reqsize + 8)

def firstkeyPacket (srv : Option Transport) (ok : Bool) (fresh : Mem) : Except Fault (Option (Bytes × Nat)) := do
  match ← newPacket srv Req.firstkey.code 0 none ok fresh with
  | none => return none
  | some (buf, payloadOffset) => return some (buf, payloadOffset)

def nextkeyPacket (srv : Option Transport) (ok : Bool) (fresh : Mem) (key : Bytes) : Except Fault (Option (Bytes × Nat)) :=
  keyPacket srv Req.nextkey.code 0 none ok fresh key

/-- nmdb_stats sends the whole buffer. -/
def statsPacket (srv : Option Transport) (ok : Bool) (fresh : Mem) : Except Fault (Option (Bytes × Nat)) := do
  match ← newPacket srv Req.stats.code 0 (some 0) ok fresh with
  | none => return none
  | some (buf, _) => return some (buf, buf.length)

/-- The buffer as it is sent: over TCP the total length is put in front. -/
def srvSend (t : Transport) (buf : Bytes) (bsize : Nat) : Except Fault Bytes :=
  match t with
  | .tipc => .ok buf
  | .tcp => poke buf 0 (bytes32 (htonl bsize))
  | .udp => .ok buf
  | .sctp => .ok buf

/-- What the socket will give: pieces of the stream or datagrams, or an error. Behind the
last the peer has closed. -/
abbrev Arrivals := List (Option Bytes)

/-- recv() of a stream into the buffer at an offset, with its result. -/
def recv (buf : Bytes) (off count : Nat) : Arrivals → Int × Bytes × Arrivals
  | [] => (0, buf, [])
  | none :: rest => (-1, buf, rest)
  | some p :: rest =>
    if p.length ≤ count then (p.length, overlay buf off p, rest)
    else (count, overlay buf off (p.take count), some (p.drop count) :: rest)

/-- Reads until count bytes are there, c of them so far, or the peer closes. -/
def srecv (off count : Nat) : Nat → Bytes → Arrivals → Int × Bytes × Arrivals
  | c, buf, [] => (c, buf, [])
  | c, buf, none :: rest => if count ≤ c then (count, buf, none :: rest) else (-1, buf, rest)
  | c, buf, some p :: rest =>
    if count ≤ c then (count, buf, some p :: rest)
    else if count - c < p.length then
      (count, overlay buf (off + c) (p.take (count - c)), some (p.drop (count - c)) :: rest)
    else if p = [] then (c, buf, rest)
    else srecv off count (c + p.length) (overlay buf (off + c) p) rest

/-- With rv bytes in the buffer, read the rest of the first upTo. -/
def recvUpTo (upTo rv : Nat) (buf : Bytes) (socket : Arrivals) : Int × Bytes × Arrivals :=
  if rv < upTo then
    match srecv rv (upTo - rv) 0 buf socket with
    | (t, buf, socket) => if t ≤ 0 then (t, buf, socket) else (rv + t, buf, socket)
  else (rv, buf, socket)

def recvMsg (buf : Bytes) (socket : Arrivals) : Int × Bytes × Arrivals :=
  match recv buf 0 buf.length socket with
  | (rv, buf, socket) =>
    if rv ≤ 0 then (rv, buf, socket)
    else
      match recvUpTo 4 rv.toNat buf socket with
      | (rv, buf, socket) =>
        if rv ≤ 0 then (rv, buf, socket)
        else
          let msgsize := ntohl (load32 (Mem.ofBytes buf) 0)
          if buf.length < msgsize then (-1, buf, socket)
          else recvUpTo msgsize rv.toNat buf socket

/-- What get_rep returns, with the buffer and the offset and size of the payload. -/
structure Answer where
  reply : Nat
  buf : Bytes
  payload : Option (Nat × Nat)
  deriving DecidableEq, Repr

/-- The ID and the reply code at an offset of the buffer that has received rv bytes. -/
def parseRep (buf : Bytes) (off rv : Nat) : Answer :=
  let id := ntohl (load32 (Mem.ofBytes buf) off)
  let reply := ntohl (load32 (Mem.ofBytes buf) (off + 4))
  if id ≠ ID_CODE then ⟨noReply, buf, none⟩
  else ⟨reply, buf, some (off + 8, sizeSub rv (off + 8))⟩

def tcpGetRep (buf : Bytes) (socket : Arrivals) : Answer :=
  match recvMsg buf socket with
  | (rv, buf, _) => if rv ≤ 0 then ⟨noReply, buf, none⟩ else parseRep buf 4 rv.toNat

/-- One datagram, of which recv() drops what does not fit. -/
def udpGetRep (buf : Bytes) (socket : Arrivals) : Answer :=
  match recv buf 0 buf.length socket with
  | (rv, buf, _) => if rv < 8 then ⟨noReply, buf, none⟩ else parseRep buf 0 rv.toNat

def tipcGetRep (buf : Bytes) (socket : Arrivals) : Answer := udpGetRep buf socket
def sctpGetRep (buf : Bytes) (socket : Arrivals) : Answer := udpGetRep buf socket

def getRep (t : Transport) (buf : Bytes) (socket : Arrivals) : Answer :=
  match t with
  | .tipc => tipcGetRep buf socket
  | .tcp => tcpGetRep buf socket
  | .udp => udpGetRep buf socket
  | .sctp => sctpGetRep buf socket

/-- What the system gives an operation: memory and what is in it, the success of sending, and
what arrives. -/
structure Io where
  malloc : Bool
  fresh : Mem
  sent : Bool
  socket : Arrivals

inductive Exchange where
  | noMemory
  | notSent
  | answered (a : Answer)
  deriving DecidableEq, Repr

/-- What all operations do: build the packet, send it and get the reply. -/
def exchange (srv : Option Transport) (io : Io) (packet : Except Fault (Option (Bytes × Nat))) :
    Except Fault Exchange := do
  match ← packet with
  | none => return .noMemory
  | some (buf, reqsize) =>
    match srv with
    | none => return .notSent
    | some t =>
      let buf ← srvSend t buf reqsize
      if !io.sent then return .notSent
      else return .answered (getRep t buf io.socket)

/-- The value in a reply, copied to the caller if it fits: its size, and what is copied. -/
def Answer.value (a : Answer) (size : Nat) : Except Fault (Int × Option Bytes) :=
  match a.payload with
  | none => .error .uninitialised
  | some (p, psize) =>
    let rv := ntohl (load32 (Mem.ofBytes a.buf) p)
    if sizeSub psize 4 < rv ∨ size < rv then .ok (-2, none)
    else if p + 4 + rv ≤ a.buf.length then .ok (rv, some (slice (Mem.ofBytes a.buf) (p + 4) rv))
    else .error .outOfBounds

/-- The reply to a get. -/
def Answer.found (a : Answer) (vsize : Nat) : Except Fault (Int × Option Bytes) :=
  if a.reply = Rep.cacheMiss.code ∨ a.reply = Rep.notin.code then .ok (-1, none)
  else if a.reply = REP_ERR then .ok (-2, none)
  else if a.reply ≠ Rep.ok.code ∧ a.reply ≠ Rep.cacheHit.code then .ok (-2, none)
  else a.value vsize

def doGet (srv : Option Transport) (io : Io) (key : Bytes) (vsize flags : Nat) :
    Except Fault (Int × Option Bytes) := do
  match ← exchange srv io (getPacket srv io.malloc io.fresh key flags) with
  | .noMemory => return (-1, none)
  | .notSent => return (-2, none)
  | .answered a => a.found vsize

def doSet (srv : Option Transport) (io : Io) (key val : Bytes) (flags : Nat) : Except Fault Int := do
  match ← exchange srv io (setPacket srv io.malloc io.fresh key val flags) with
  | .noMemory => return -1
  | .notSent => return -1
  | .answered a => if a.reply = Rep.ok.code then return 1 else return -1

def doDel (srv : Option Transport) (io : Io) (key : Bytes) (flags : Nat) : Except Fault Int := do
  match ← exchange srv io (delPacket srv io.malloc io.fresh key flags) with
  | .noMemory => return -1
  | .notSent => return -1
  | .answered a =>
    if a.reply = Rep.ok.code then return 1
    else if a.reply = Rep.notin.code then return 0
    else return -1

def doCas (srv : Option Transport) (io : Io) (key oldval newval : Bytes) (flags : Nat) : Except Fault Int := do
  match ← exchange srv io (casPacket srv io.malloc io.fresh key oldval newval flags) with
  | .noMemory => return -1
  | .notSent => return -1
  | .answered a =>
    if a.reply = Rep.ok.code then return 2
    else if a.reply = Rep.nomatch.code then return 1
    else if a.reply = Rep.notin.code then return 0
    else return -1

/-- The second result is what is stored in *newval, for a newval that is not NULL. -/
def doIncr (srv : Option Transport) (io : Io) (key : Bytes) (increment : Int) (flags : Nat) :
    Except Fault (Int × Option Int) := do
  match ← exchange srv io (incrPacket srv io.malloc io.fresh key increment flags) with
  | .noMemory => return (-1, none)
  | .notSent => return (-1, none)
  | .answered a =>
    if a.reply = Rep.ok.code then
      match a.payload with
      | some (payload, psize) =>
        if psize = 8 + 4 then
          return (2, some (toInt64 (ntohll (load64 (Mem.ofBytes a.buf) (payload + 4)))))
        else return (2, none)
      | none => return (2, none)
    else if a.reply = Rep.nomatch.code then return (1, none)
    else if a.reply = Rep.notin.code then return (0, none)
    else return (-1, none)

/-- The reply to a key lookup. -/
def Answer.key (a : Answer) (ksize : Nat) : Except Fault (Int × Option Bytes) :=
  if a.reply = Rep.notin.code then .ok (-1, none)
  else if a.reply = REP_ERR then .ok (-2, none)
  else if a.reply ≠ Rep.ok.code then .ok (-2, none)
  else a.value ksize

/-- With any other number of servers than one there is no first key. -/
def nmdbFirstkey (servers : List Transport) (io : Io) (ksize : Nat) : Except Fault (Int × Option Bytes) :=
  match servers with
  | [t] => do
    match ← exchange (some t) io (firstkeyPacket (some t) io.malloc io.fresh) with
    | .noMemory => return (-2, none)
    | .notSent => return (-2, none)
    | .answered a => a.key ksize
  | _ => .ok (-2, none)

def nmdbNextkey (servers : List Transport) (io : Io) (key : Bytes) (nksize : Nat) :
    Except Fault (Int × Option Bytes) :=
  match servers with
  | [t] => do
    match ← exchange (some t) io (nextkeyPacket (some t) io.malloc io.fresh key) with
    | .noMemory => return (-1, none)
    | .notSent => return (-2, none)
    | .answered a => a.key nksize
  | _ => .ok (-2, none)

end Nmdb.Library
