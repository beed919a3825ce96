import Nmdb.Parse
import Nmdb.Tcp

/-! The receive events of the transports whose messages come whole. -/
namespace Nmdb

variable {ν : Type}

/-- A message that recvfrom() has put into the static buffer; none for an error. The
request information is not cleared before. -/
def datagramRecv (msg : Stats → Stats) (m : Mallocs) (static : Mem) (req : ReqInfo ν) (rv : Option Bytes)
    (s : Server ν) : Except Fault (Mem × Server ν) :=
  match rv with
  | none => .ok (static, s)
  | some b =>
    let static := received static 0 b
    if b.length < 8 then .ok (static, s.count fun st => { st with netBrokenReq := st.netBrokenReq + 1 })
    else do
      let (_, s) ← parseMessage m (s.count msg) req static b.length
      return (static, s)

/-- An undeliverable message that comes back is empty and ignored. -/
def tipcRecv (m : Mallocs) (static : Mem) (req : ReqInfo ν) (rv : Option Bytes) (s : Server ν) :
    Except Fault (Mem × Server ν) :=
  if rv = some [] then .ok (static, s)
  else datagramRecv (fun st => { st with msgTipc := st.msgTipc + 1 }) m static req rv s

def udpRecv (m : Mallocs) (static : Mem) (req : ReqInfo ν) (rv : Option Bytes) (s : Server ν) :
    Except Fault (Mem × Server ν) :=
  datagramRecv (fun st => { st with msgUdp := st.msgUdp + 1 }) m static req rv s

def sctpRecv (m : Mallocs) (static : Mem) (req : ReqInfo ν) (rv : Option Bytes) (s : Server ν) :
    Except Fault (Mem × Server ν) :=
  datagramRecv (fun st => { st with msgSctp := st.msgSctp + 1 }) m static req rv s

/-- A message of at least a header goes to the parser. -/
theorem datagramRecv_whole (msg : Stats → Stats) (m : Mallocs) (static : Mem) (req : ReqInfo ν) {b : Bytes}
    (s : Server ν) (header : 8 ≤ b.length) :
    datagramRecv msg m static req (some b) s =
      parseMessage m (s.count msg) req (received static 0 b) b.length >>= fun (_, s) =>
        .ok (received static 0 b, s) :=
  if_neg (Nat.not_lt.mpr header)

end Nmdb
