import Nmdb.Client
import Nmdb.Checksum
import Nmdb.Lib.Sharding

/-! Several servers and the library in front of them. Every key belongs to the server its
checksum points at, so the servers, each with a cache and a database of its own, are one map. -/
namespace Nmdb

open Sharding

variable {δ : Type}

section

variable {I : Type} [DecidableEq I]

/-- The requests to all servers in the order of parsing, each with its number at its server. -/
def requestsAll (n : I → Nat) : List (I × Event) → List (I × (ReqInfo Nat × Request))
  | [] => []
  | (i, ev) :: rest => (requests (n i) [ev]).map (Prod.mk i) ++
      requestsAll (Function.update n i (n i + (messages [ev]).length)) rest

/-- The messages to a server concern keys of its own. -/
def Routed (route : Bytes → I) (evs : List (I × Event)) : Prop :=
  ∀ i buf len, (i, .message buf len) ∈ evs → ∀ r, decoded buf len = some r → route r.key = i

theorem Routed.requests {route : Bytes → I} {evs : List (I × Event)} (routed : Routed route evs) (n : I → Nat) :
    ∀ x ∈ requestsAll n evs, route x.2.2.key = x.1 := by
  induction evs generalizing n with
  | nil => exact fun x none => by contradiction
  | cons y evs ih =>
    obtain ⟨j, ev⟩ := y
    intro x member
    rcases List.mem_append.mp member with here | later
    · obtain ⟨⟨req, r⟩, asked, rfl⟩ := List.mem_map.mp here
      cases ev with
      | message buf len =>
        rcases List.mem_append.mp asked with own | none
        · obtain ⟨r', found, same⟩ := Option.map_eq_some_iff.mp (Option.mem_toList.mp own)
          obtain ⟨_, rfl⟩ := Prod.mk.inj same
          exact routed j buf len List.mem_cons_self r' found
        · contradiction
      | dequeue => contradiction
      | execute => contradiction
    · exact ih (fun i buf len member => routed i buf len (List.mem_cons_of_mem _ member)) _ x later

end

namespace Library

/-- Where select_srv finds the server of a key. -/
def serverOf (o : ByteOrder) (servers : List NmdbSrv) (nonempty : 0 < servers.length) (key : Bytes) :
    Fin servers.length :=
  ⟨checksum o key % servers.length, Nat.mod_lt _ nonempty⟩

theorem selectSrv_serverOf (o : ByteOrder) {servers : List NmdbSrv} (nonempty : 0 < servers.length) (key : Bytes) :
    selectSrv o servers key = some (servers.get (serverOf o servers nonempty key)) := by
  rw [selectSrv, if_neg (Nat.pos_iff_ne_zero.mp nonempty)]
  exact List.getElem?_eq_getElem (Nat.mod_lt _ nonempty)

section

variable {I : Type}

variable [DecidableEq I]

end

end Library

end Nmdb
