import Nmdb.Wire

/-! The TCP side of the main thread: bytes come in pieces, and messages are framed by their
total length. Handing a message to the parser is a parameter here, with the state it acts
on; a connection that is closed is none. -/
namespace Nmdb

variable {σ : Type}

/-- A connection: its descriptor, and its number among all connections accepted so far,
which the code does not keep. -/
structure Client where
  fd : Nat
  conn : Nat
  deriving DecidableEq, Repr

structure TcpSocket where
  client : Client
  buf : Option Mem
  pktsize : Nat
  len : Nat
  req : ReqInfo Client
  excess : Nat

def SBSIZE : Nat := 68 * 1024

def maxPacket : Nat := 64 * 1024

/-- The socket tcp_newconnection makes. -/
def TcpSocket.new (client : Client) : TcpSocket := ⟨client, none, 0, 0, ⟨client, 0, 0, 0⟩, 0⟩

def initReq (tcpsock : TcpSocket) : TcpSocket :=
  { tcpsock with req := { tcpsock.req with net := tcpsock.client } }

/-- A buffer after n bytes from off on were moved to its beginning. -/
def memmove (buf : Mem) (off n : Nat) : Mem := fun i => if i < n then buf (off + i) else buf i

/-- A buffer after bytes were received into it at off. -/
def received (buf : Mem) (off : Nat) (b : Bytes) : Mem := fun i =>
  if off ≤ i ∧ i < off + b.length then b.getD (i - off) 0 else buf i

/-- The length field of a buffer, or what is needed to have one. -/
def totaltoget (buf : Mem) (len : Nat) : Nat := if 4 ≤ len then ntohl (load32 buf 0) else 4

/-- Main message unwrapping. The result is the socket, if it is still open, the buffer and
the parser's state; ok is the outcome of malloc(). -/
def processBuf (parse : σ → ReqInfo Client → Mem → Nat → Except Fault (Bool × σ)) (ok : Bool) :
    Nat → TcpSocket → Mem → Nat → σ → Except Fault (Option TcpSocket × Mem × σ)
  | 0, _, _, _, _ => .error .diverges
  | fuel + 1, tcpsock, buf, len, st =>
    let total := totaltoget buf len
    if 4 ≤ len ∧ (maxPacket < total ∨ total ≤ 8) then .ok (none, buf, st)
    else if len < total then
      match tcpsock.buf with
      | none =>
        if !ok then .ok (none, buf, st)
        else
          let copy : Mem := fun i => if i < len then buf i else indeterminate
          .ok (some { tcpsock with buf := some copy, len := len, pktsize := total }, buf, st)
      | some _ => .ok (some { tcpsock with buf := some buf, len := len, pktsize := total }, buf, st)
    else do
      let tcpsock := if total < len then { tcpsock with excess := len - total } else tcpsock
      let len := if total < len then total else len
      let (rv, st) ← parse st tcpsock.req (buf.from 4) (len - 4)
      if !rv then return (none, buf, st)
      else if tcpsock.excess ≠ 0 then
        let buf := memmove buf len tcpsock.excess
        let tcpsock := initReq { tcpsock with len := tcpsock.excess, excess := 0 }
        -- the length passed on is that of the message just parsed
        processBuf parse ok fuel tcpsock buf len st
      else
        match tcpsock.buf with
        | none => return (some tcpsock, buf, st)
        | some _ =>
          return (some { tcpsock with buf := none, len := 0, pktsize := 0, excess := 0 }, buf, st)

/- Every recursion is on a shorter length, so the fuel beyond the first is not used up. -/
theorem processBuf_fuel {parse : σ → ReqInfo Client → Mem → Nat → Except Fault (Bool × σ)} {ok : Bool}
    {fuel len : Nat} {tcpsock : TcpSocket} {buf : Mem} {st : σ} (enough : len < fuel)
    (excess : tcpsock.excess = 0) :
    processBuf parse ok (fuel + 1) tcpsock buf len st = processBuf parse ok fuel tcpsock buf len st := by
  induction fuel generalizing tcpsock buf len st with
  | zero => contradiction
  | succ fuel ih =>
    conv => lhs; unfold processBuf
    conv => rhs; unfold processBuf
    simp only
    split
    · rfl
    · split
      · rfl
      · split
        case isTrue more =>
          refine congrArg (parse st _ _ _ >>= ·) (funext fun (rv, st) => ?_)
          simp only
          split
          · rfl
          · split
            · exact ih (by omega) rfl
            · rfl
        case isFalse =>
          refine congrArg (parse st _ _ _ >>= ·) (funext fun (rv, st) => ?_)
          simp only [excess, ne_eq, not_true_eq_false, if_false]

/-- More fuel than bytes is enough. -/
theorem processBuf_enough {parse : σ → ReqInfo Client → Mem → Nat → Except Fault (Bool × σ)} {ok : Bool}
    {fuel len : Nat} {tcpsock : TcpSocket} {buf : Mem} {st : σ} (enough : len < fuel)
    (excess : tcpsock.excess = 0) :
    processBuf parse ok fuel tcpsock buf len st = processBuf parse ok (len + 1) tcpsock buf len st := by
  induction fuel, enough using Nat.le_induction with
  | base => rfl
  | succ fuel enough ih =>
    rw [processBuf_fuel enough excess]
    exact ih

/-- What recv() is asked for at most. -/
def TcpSocket.asked (tcpsock : TcpSocket) : Nat :=
  match tcpsock.buf with
  | none => SBSIZE
  | some _ => tcpsock.pktsize - tcpsock.len

/-- Called for each receive event, with the bytes recv() returns: none of them at the end
of the stream and on an error. The result has the static buffer in second place. -/
def tcpRecv (parse : σ → ReqInfo Client → Mem → Nat → Except Fault (Bool × σ)) (ok : Bool)
    (static : Mem) (tcpsock : TcpSocket) (rv : Bytes) (st : σ) :
    Except Fault (Option TcpSocket × Mem × σ) :=
  if rv = [] then .ok (none, static, st)
  else
    match tcpsock.buf with
    | none =>
      processBuf parse ok (rv.length + 1) (initReq tcpsock) (received static 0 rv) rv.length st
    | some buf => do
      let buf := received buf tcpsock.len rv
      let tcpsock := { tcpsock with buf := some buf, len := tcpsock.len + rv.length }
      let (tcpsock, _, st) ← processBuf parse ok (tcpsock.len + 1) tcpsock buf tcpsock.len st
      return (tcpsock, static, st)

end Nmdb
