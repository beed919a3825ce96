import Nmdb.ReplyFrames
import Nmdb.Lib.Sorting

/-! The servers of a client. They are kept in the order of compare_servers, and a key is sent
to the one its checksum points at, so clients with the same servers agree on it. -/
namespace Nmdb.Library

open Sorting

/-- The byte order of the client's host. -/
inductive ByteOrder where
  | little
  | big
  deriving DecidableEq, Repr

namespace ByteOrder

def htons (o : ByteOrder) (x : Nat) : Nat :=
  match o with
  | .little => Nmdb.htons x
  | .big => x % 2 ^ 16

/-- The uint16_t at the beginning of some bytes. -/
def load16 (o : ByteOrder) (buf : Bytes) : Nat :=
  match o with
  | .little => (buf.getD 0 0).toNat + (buf.getD 1 0).toNat * 2 ^ 8
  | .big => (buf.getD 0 0).toNat * 2 ^ 8 + (buf.getD 1 0).toNat

end ByteOrder

def TIPC_SERVER_INST : Int := 10
def TCP_SERVER_PORT : Int := 26010
def UDP_SERVER_PORT : Int := 26010
def SCTP_SERVER_PORT : Int := 26010

/-- The type of a server with the member of the union that goes with it: the port of a TIPC
server, otherwise s_addr and sin_port, which are in network byte order. -/
inductive SrvInfo where
  | tipc (port : Nat)
  | tcp (sAddr sinPort : Nat)
  | udp (sAddr sinPort : Nat)
  | sctp (sAddr sinPort : Nat)
  deriving DecidableEq, Repr

/-- TIPC_CONN to SCTP_CONN. -/
def SrvInfo.type : SrvInfo → Nat
  | .tipc _ => 1
  | .tcp _ _ => 2
  | .udp _ _ => 3
  | .sctp _ _ => 4

structure NmdbSrv where
  fd : Nat
  info : SrvInfo
  deriving DecidableEq, Repr

/-- The comparison of addresses, then of ports. -/
def compareAddrs (a1 p1 a2 p2 : Nat) : Int :=
  if a1 < a2 then -1
  else if a1 = a2 then
    if p1 < p2 then -1
    else if p1 = p2 then 0
    else 1
  else 1

def compareServers (srv1 srv2 : NmdbSrv) : Int :=
  if srv1.info.type ≠ srv2.info.type then
    if srv1.info.type < srv2.info.type then -1 else 1
  else
    match srv1.info, srv2.info with
    | .tipc p1, .tipc p2 =>
      if p1 < p2 then -1
      else if p1 = p2 then 0
      else 1
    | .tcp a1 p1, .tcp a2 p2 => compareAddrs a1 p1 a2 p2
    | .udp a1 p1, .udp a2 p2 => compareAddrs a1 p1 a2 p2
    | .sctp a1 p1, .sctp a2 p2 => compareAddrs a1 p1 a2 p2
    -- we should never get here
    | _, _ => 0

/-- What the system answers during a call: the descriptor of socket(), whether setsockopt() and
connect() succeed, and the outcomes of realloc() for the longer array and for the shorter one. -/
structure SysCalls where
  socket : Option Nat
  setsockopt : Bool
  connect : Bool
  grow : Bool
  shrink : Bool
  deriving DecidableEq, Repr

abbrev Qsort := (NmdbSrv → NmdbSrv → Int) → List NmdbSrv → List NmdbSrv

/-- The server array after one more server has been put at its end. -/
def addSorted (qsort : Qsort) (db : List NmdbSrv) (x : SysCalls) (ready : Bool) (info : SrvInfo) :
    Bool × List NmdbSrv :=
  match x.socket with
  | none => (false, db)
  | some fd =>
    if !ready then (false, db)
    else if !x.grow then (false, db)
    else (true, qsort compareServers (db ++ [⟨fd, info⟩]))

def portOr (port default : Int) : Nat := (if port < 0 then default else port).toNat

def addTipcServer (qsort : Qsort) (db : List NmdbSrv) (port : Int) (x : SysCalls) : Bool × List NmdbSrv :=
  addSorted qsort db x true (.tipc (portOr port TIPC_SERVER_INST))

/-- A TCP server is connected to when it is in the array already; if that fails the array is
made shorter again. A realloc() that returns NULL leaves no array, and one to no elements
leaves none whatever it returns. -/
def addTcpServerAddr (o : ByteOrder) (qsort : Qsort) (db : List NmdbSrv) (inetaddr : Nat) (port : Int)
    (x : SysCalls) : Bool × List NmdbSrv :=
  match x.socket with
  | none => (false, db)
  | some fd =>
    if !x.grow then (false, db)
    else
      let servers := db ++ [⟨fd, .tcp inetaddr (o.htons (portOr port TCP_SERVER_PORT))⟩]
      if x.connect && x.setsockopt then (true, qsort compareServers servers)
      else if servers.length - 1 = 0 ∨ !x.shrink then (false, [])
      else (false, servers.take (servers.length - 1))

def addUdpServerAddr (o : ByteOrder) (qsort : Qsort) (db : List NmdbSrv) (inetaddr : Nat) (port : Int)
    (x : SysCalls) : Bool × List NmdbSrv :=
  addSorted qsort db x true (.udp inetaddr (o.htons (portOr port UDP_SERVER_PORT)))

def addSctpServerAddr (o : ByteOrder) (qsort : Qsort) (db : List NmdbSrv) (inetaddr : Nat) (port : Int)
    (x : SysCalls) : Bool × List NmdbSrv :=
  addSorted qsort db x x.setsockopt (.sctp inetaddr (o.htons (portOr port SCTP_SERVER_PORT)))

/-- A call of one of the nmdb_add_*_server functions. An address is none where neither
inet_pton() nor gethostbyname() knows it. -/
inductive AddServer where
  | tipc (port : Int)
  | tcp (addr : Option Nat) (port : Int)
  | udp (addr : Option Nat) (port : Int)
  | sctp (addr : Option Nat) (port : Int)
  deriving DecidableEq, Repr

def AddServer.call (o : ByteOrder) (qsort : Qsort) (db : List NmdbSrv) (x : SysCalls) :
    AddServer → Bool × List NmdbSrv
  | .tipc port => addTipcServer qsort db port x
  | .tcp none _ => (false, db)
  | .tcp (some inetaddr) port => addTcpServerAddr o qsort db inetaddr port x
  | .udp none _ => (false, db)
  | .udp (some inetaddr) port => addUdpServerAddr o qsort db inetaddr port x
  | .sctp none _ => (false, db)
  | .sctp (some inetaddr) port => addSctpServerAddr o qsort db inetaddr port x

/-- The sum of the words, and the number of bytes behind the last of them. The pointer moves on
by one byte, the count by two. -/
def checksumWords (o : ByteOrder) : Nat → Bytes → Nat → Nat × Nat × Bytes
  | bsize + 2, buf, sum => checksumWords o bsize (buf.drop 1) (u32 (sum + o.load16 buf))
  | bsize, buf, sum => (sum, bsize, buf)

def foldCarries (sum : Nat) : Nat :=
  if sum / 2 ^ 16 = 0 then sum else foldCarries (sum % 2 ^ 16 + sum / 2 ^ 16)
termination_by sum
decreasing_by omega

def checksum (o : ByteOrder) (key : Bytes) : Nat :=
  let (sum, bsize, buf) := checksumWords o key.length key 0
  let sum := if 0 < bsize then u32 (sum + (buf.getD 0 0).toNat) else sum
  2 ^ 32 - 1 - foldCarries sum

def selectSrv (o : ByteOrder) (db : List NmdbSrv) (key : Bytes) : Option NmdbSrv :=
  if db.length = 0 then none else db[checksum o key % db.length]?

/- compare_servers is a total order of the servers, descriptors apart. -/

/-- The numbers a server is compared by. -/
def SrvInfo.numbers : SrvInfo → Nat × Nat
  | .tipc port => (0, port)
  | .tcp sAddr sinPort => (sAddr, sinPort)
  | .udp sAddr sinPort => (sAddr, sinPort)
  | .sctp sAddr sinPort => (sAddr, sinPort)

def SrvInfo.Before (i j : SrvInfo) : Prop :=
  i.type < j.type ∨ i.type = j.type ∧
    (i.numbers.1 < j.numbers.1 ∨ i.numbers.1 = j.numbers.1 ∧ i.numbers.2 < j.numbers.2)

def compareInfos (i j : SrvInfo) : Int := compareServers ⟨0, i⟩ ⟨0, j⟩

theorem compareServers_infos (srv1 srv2 : NmdbSrv) :
    compareServers srv1 srv2 = compareInfos srv1.info srv2.info := rfl

theorem SrvInfo.eq_of_numbers {i j : SrvInfo} (sameType : i.type = j.type) (same : i.numbers = j.numbers) :
    i = j := by
  cases i <;> cases j <;> first | (cases same; rfl) | simp [SrvInfo.type] at sameType

theorem compareInfos_eq (i j : SrvInfo) :
    compareInfos i j =
      if i.type ≠ j.type then if i.type < j.type then -1 else 1
      else compareAddrs i.numbers.1 i.numbers.2 j.numbers.1 j.numbers.2 := by
  cases i <;> cases j <;> rfl

theorem compareAddrs_sign (a1 p1 a2 p2 : Nat) :
    (compareAddrs a1 p1 a2 p2 < 0 ↔ a1 < a2 ∨ a1 = a2 ∧ p1 < p2) ∧
      (0 < compareAddrs a1 p1 a2 p2 ↔ a2 < a1 ∨ a2 = a1 ∧ p2 < p1) := by
  unfold compareAddrs
  split
  · omega
  · split
    · split
      · omega
      · split <;> omega
    · omega

/-- The sign of the comparison: type first, then the numbers in turn. -/
theorem compareInfos_sign (i j : SrvInfo) :
    (compareInfos i j < 0 ↔ i.Before j) ∧ (0 < compareInfos i j ↔ j.Before i) := by
  have addrs := compareAddrs_sign i.numbers.1 i.numbers.2 j.numbers.1 j.numbers.2
  rw [compareInfos_eq]
  unfold SrvInfo.Before
  split
  · split <;> omega
  · omega

theorem compareInfos_antisymm (i j : SrvInfo) (le : compareInfos i j ≤ 0) (ge : compareInfos j i ≤ 0) :
    i = j := by
  have after := (compareInfos_sign i j).2
  have before := (compareInfos_sign j i).2
  unfold SrvInfo.Before at after before
  refine SrvInfo.eq_of_numbers (by omega) (Prod.ext ?_ ?_)
  · omega
  · omega

/-- compare_servers is a total order of the servers, descriptors apart. -/
theorem compareServers_consistent : Consistent compareServers where
  flip srv1 srv2 := by
    rw [compareServers_infos, compareServers_infos, (compareInfos_sign _ _).1, (compareInfos_sign _ _).2]
  trans srv1 srv2 srv3 first second := by
    have one := (compareInfos_sign srv1.info srv2.info).2
    have two := (compareInfos_sign srv2.info srv3.info).2
    have three := (compareInfos_sign srv1.info srv3.info).2
    rw [compareServers_infos] at first second ⊢
    unfold SrvInfo.Before at one two three
    omega

section

variable {o : ByteOrder} {qsort : Qsort} {db : List NmdbSrv} {x : SysCalls}

/-- The server a call asks for. -/
def AddServer.info (o : ByteOrder) : AddServer → Option SrvInfo
  | .tipc port => some (.tipc (portOr port TIPC_SERVER_INST))
  | .tcp addr port => addr.map fun a => .tcp a (o.htons (portOr port TCP_SERVER_PORT))
  | .udp addr port => addr.map fun a => .udp a (o.htons (portOr port UDP_SERVER_PORT))
  | .sctp addr port => addr.map fun a => .sctp a (o.htons (portOr port SCTP_SERVER_PORT))

/-- What a call leaves: on success the array with the server put in and sorted, on failure the
array it found. -/
inductive Added (qsort : Qsort) (db : List NmdbSrv) (info : Option SrvInfo) : Bool × List NmdbSrv → Prop
  | fails : Added qsort db info (false, db)
  | sorted {fd : Nat} {i : SrvInfo} (own : info = some i) :
      Added qsort db info (true, qsort compareServers (db ++ [⟨fd, i⟩]))

theorem addSorted_added {ready : Bool} {i : SrvInfo} :
    Added qsort db (some i) (addSorted qsort db x ready i) := by
  unfold addSorted
  split
  · exact .fails
  · split
    · exact .fails
    · split
      · exact .fails
      · exact .sorted rfl

theorem addTcpServerAddr_added {inetaddr : Nat} {port : Int} (memory : x.shrink = true) :
    Added qsort db (some (.tcp inetaddr (o.htons (portOr port TCP_SERVER_PORT))))
      (addTcpServerAddr o qsort db inetaddr port x) := by
  unfold addTcpServerAddr
  split
  · exact .fails
  · split
    · exact .fails
    · split
      · exact .sorted rfl
      · simp only [memory, Bool.not_true, Bool.false_eq_true, or_false, List.length_append,
          List.length_singleton, Nat.add_sub_cancel, List.take_left]
        split
        case isTrue empty =>
          rw [List.length_eq_zero_iff.mp empty]
          exact .fails
        case isFalse => exact .fails

theorem call_added (call : AddServer) (memory : x.shrink = true) :
    Added qsort db (call.info o) (call.call o qsort db x) := by
  cases call with
  | tipc port => exact addSorted_added
  | tcp addr port =>
    cases addr with
    | none => exact .fails
    | some inetaddr => exact addTcpServerAddr_added memory
  | udp addr port =>
    cases addr with
    | none => exact .fails
    | some inetaddr => exact addSorted_added
  | sctp addr port =>
    cases addr with
    | none => exact .fails
    | some inetaddr => exact addSorted_added

end

/-- A run of calls: the servers added by those that return 1, and the array in the end. -/
def addAll (o : ByteOrder) (qsort : Qsort) :
    List NmdbSrv → List (AddServer × SysCalls) → List SrvInfo × List NmdbSrv
  | db, [] => ([], db)
  | db, (call, x) :: rest =>
    let (rv, db) := call.call o qsort db x
    let (added, db) := addAll o qsort db rest
    (if rv then (call.info o).toList ++ added else added, db)

section

variable {o : ByteOrder} {qsort : Qsort} {db : List NmdbSrv}

/- In every run the array stays sorted and holds the servers added so far. -/
theorem addAll_sorted (sorts : Sorts qsort) {calls : List (AddServer × SysCalls)}
    (memory : ∀ c ∈ calls, c.2.shrink = true) (sorted : Sorted compareServers db) :
    Sorted compareServers (addAll o qsort db calls).2 ∧
      ((addAll o qsort db calls).2.map NmdbSrv.info).Perm
        (db.map NmdbSrv.info ++ (addAll o qsort db calls).1) := by
  induction calls generalizing db with
  | nil => exact ⟨sorted, by rw [addAll, List.append_nil]⟩
  | cons c rest ih =>
    obtain ⟨call, x⟩ := c
    have rest_memory : ∀ c ∈ rest, c.2.shrink = true := fun c hc => memory c (List.mem_cons_of_mem _ hc)
    have added : Added qsort db (call.info o) (call.call o qsort db x) :=
      call_added call (memory (call, x) List.mem_cons_self)
    simp only [addAll]
    generalize call.call o qsort db x = result at added
    cases added with
    | fails => exact ih rest_memory sorted
    | @sorted fd i own =>
      obtain ⟨perm, ordered⟩ := sorts compareServers (db ++ [⟨fd, i⟩]) compareServers_consistent
      obtain ⟨sorted', members⟩ := ih rest_memory ordered
      refine ⟨sorted', members.trans ?_⟩
      have moved := (perm.map NmdbSrv.info).append_right
        (addAll o qsort (qsort compareServers (db ++ [⟨fd, i⟩])) rest).1
      simpa only [if_true, own, Option.toList_some, List.map_append, List.map_cons, List.map_nil,
        List.append_assoc] using moved

/-- Arrays alike up to descriptors select alike. -/
theorem selectSrv_info {db₁ db₂ : List NmdbSrv} (same : db₁.map NmdbSrv.info = db₂.map NmdbSrv.info)
    (key : Bytes) :
    (selectSrv o db₁ key).map NmdbSrv.info = (selectSrv o db₂ key).map NmdbSrv.info := by
  have length : db₁.length = db₂.length := by
    have lengths := congrArg List.length same
    rwa [List.length_map, List.length_map] at lengths
  unfold selectSrv
  rw [length]
  split
  · rfl
  · rw [← List.getElem?_map, ← List.getElem?_map, same]

/-- Whatever the order of the calls and whatever calls fail in between, clients of one byte
order that have added the same servers have the same array, the servers added in sorted order,
descriptors apart, and select the same server for every key; and a call that fails leaves the
array as it was. -/
theorem selection_order_independent {qsort' : Qsort} (sorts : Sorts qsort) (sorts' : Sorts qsort')
    {calls calls' : List (AddServer × SysCalls)}
    (memory : ∀ c ∈ calls, c.2.shrink = true) (memory' : ∀ c ∈ calls', c.2.shrink = true)
    (same : (addAll o qsort [] calls).1.Perm (addAll o qsort' [] calls').1) :
    ((addAll o qsort [] calls).2.map NmdbSrv.info = (addAll o qsort' [] calls').2.map NmdbSrv.info ∧
      ∀ key, (selectSrv o (addAll o qsort [] calls).2 key).map NmdbSrv.info =
        (selectSrv o (addAll o qsort' [] calls').2 key).map NmdbSrv.info) ∧
    (Sorted compareServers (addAll o qsort [] calls).2 ∧
      ((addAll o qsort [] calls).2.map NmdbSrv.info).Perm (addAll o qsort [] calls).1) ∧
    ∀ c ∈ calls, ∀ db, (c.1.call o qsort db c.2).1 = false → (c.1.call o qsort db c.2).2 = db := by
  obtain ⟨sorted, members⟩ := addAll_sorted (o := o) sorts memory List.Pairwise.nil
  obtain ⟨sorted', members'⟩ := addAll_sorted (o := o) sorts' memory' List.Pairwise.nil
  have array := sorted_unique compareServers_infos compareInfos_antisymm sorted sorted'
    (members.trans (same.trans members'.symm))
  refine ⟨⟨array, selectSrv_info array⟩, ⟨sorted, members⟩, fun c hc db failed => ?_⟩
  have added : Added qsort db (c.1.info o) (c.1.call o qsort db c.2) := call_added c.1 (memory c hc)
  generalize c.1.call o qsort db c.2 = result at added failed ⊢
  cases added with
  | fails => rfl
  | sorted => contradiction

/- A UDP server and then a TCP server, and the other way round. -/

def udpFirst : List (AddServer × SysCalls) :=
  [(.udp (some 0x0100007F) (-1), ⟨some 3, true, true, true, true⟩),
    (.tcp (some 0x0200007F) 4000, ⟨some 4, true, true, true, true⟩)]

/-- The first connect() fails. -/
def tcpFirst : List (AddServer × SysCalls) :=
  [(.tcp (some 0x0200007F) 4000, ⟨some 3, true, false, true, true⟩),
    (.tcp (some 0x0200007F) 4000, ⟨some 3, true, true, true, true⟩),
    (.udp (some 0x0100007F) (-1), ⟨some 5, true, true, true, true⟩)]

def sortServers : Qsort := fun cmp l => l.mergeSort fun a b => cmp a b ≤ 0

theorem selection_order_independent_retry :
    (selectSrv .little (addAll .little sortServers [] udpFirst).2 [65, 66, 67]).map NmdbSrv.info =
      (selectSrv .little (addAll .little sortServers [] tcpFirst).2 [65, 66, 67]).map NmdbSrv.info := by
  have added : (addAll .little sortServers [] udpFirst).1 = [.udp 0x0100007F 39525, .tcp 0x0200007F 40975] := by
    decide
  have added' : (addAll .little sortServers [] tcpFirst).1 =
    [.tcp 0x0200007F 40975, .udp 0x0100007F 39525] := by
    decide
  have same : (addAll .little sortServers [] udpFirst).1.Perm (addAll .little sortServers [] tcpFirst).1 := by
    rw [added, added']
    exact .swap _ _ _
  exact (selection_order_independent mergeSort_sorts mergeSort_sorts (by decide) (by decide) same).1.2 _

end

end Nmdb.Library
