import Nmdb.Words
import Nmdb.Server

/-! What a message declares: sizes as big-endian words, then keys and values one after
the other. The decoder below is the format itself; it sees the payload only. -/
namespace Nmdb

/-- A request with the operands it declares. -/
inductive Request where
  | get (key : Bytes)
  | set (key val : Bytes)
  | del (key : Bytes)
  | cas (key oldval newval : Bytes)
  | incr (key : Bytes) (increment : Int)
  | nextkey (key : Bytes)
  deriving DecidableEq, Repr

namespace Wire

def bigEndian (b : Bytes) : Nat := b.foldl (fun acc c => acc * 2 ^ 8 + c.toNat) 0

/-- The first n bytes and the rest. -/
def take (n : Nat) (p : Bytes) : Option (Bytes × Bytes) :=
  if n ≤ p.length then some (p.take n, p.drop n) else none

def word (n : Nat) (p : Bytes) : Option (Nat × Bytes) := do
  let (b, p) ← take n p
  return (bigEndian b, p)

end Wire

open Wire

/-- A payload of one key. -/
def declaredKey (p : Bytes) : Option Bytes := do
  let (ksize, p) ← word 4 p
  let (key, _) ← take ksize p
  return key

/-- The request a payload declares, if all of it is there. -/
def declared : Req → Bytes → Option Request
  | .get, p => (declaredKey p).map .get
  | .set, p => do
    let (ksize, p) ← word 4 p
    let (vsize, p) ← word 4 p
    let (key, p) ← take ksize p
    let (val, _) ← take vsize p
    return .set key val
  | .del, p => (declaredKey p).map .del
  | .cas, p => do
    let (ksize, p) ← word 4 p
    let (ovsize, p) ← word 4 p
    let (nvsize, p) ← word 4 p
    let (key, p) ← take ksize p
    let (oldval, p) ← take ovsize p
    let (newval, _) ← take nvsize p
    return .cas key oldval newval
  | .incr, p => do
    let (ksize, p) ← word 4 p
    let (key, p) ← take ksize p
    let (increment, _) ← word 8 p
    return .incr key (toInt64 increment)
  | .nextkey, p => (declaredKey p).map .nextkey
  | .firstkey, _ => none
  | .stats, _ => none

namespace Wire

theorem slice_zero (m : Mem) (off : Nat) : slice m off 0 = [] := rfl

theorem slice_succ (m : Mem) (off n : Nat) : slice m off (n + 1) = m off :: slice m (off + 1) n := by
  unfold slice
  rw [List.range_succ_eq_map, List.map_cons, List.map_map, Nat.add_zero]
  refine congrArg (m off :: ·) (List.map_congr_left fun i _ => ?_)
  change m (off + (i + 1)) = m (off + 1 + i)
  rw [Nat.add_assoc, Nat.add_comm 1 i]

theorem slice_append (m : Mem) (off n k : Nat) :
    slice m off (n + k) = slice m off n ++ slice m (off + n) k := by
  induction n generalizing off with
  | zero => rw [Nat.zero_add, slice_zero, List.nil_append, Nat.add_zero]
  | succ n ih =>
    rw [Nat.add_right_comm, slice_succ, ih, slice_succ, List.cons_append, Nat.add_right_comm off 1 n]
    rfl

theorem drop_slice {m : Mem} {off n total : Nat} (inside : n ≤ total) :
    (slice m off total).drop n = slice m (off + n) (total - n) := by
  have parts := slice_append m off n (total - n)
  rw [Nat.add_sub_cancel' inside] at parts
  rw [parts, List.drop_left' (slice_length ..)]

/-- Cutting a payload is moving along it. -/
theorem take_slice (m : Mem) (off n total : Nat) :
    take n (slice m off total) =
      if n ≤ total then some (slice m off n, slice m (off + n) (total - n)) else none := by
  unfold take
  rw [slice_length]
  by_cases inside : n ≤ total
  · obtain ⟨k, rfl⟩ := Nat.exists_eq_add_of_le inside
    rw [if_pos inside, if_pos inside, slice_append, Nat.add_sub_cancel_left,
      List.take_left' (slice_length ..), List.drop_left' (slice_length ..)]
  · rw [if_neg inside, if_neg inside]

theorem ntohs_load16 (m : Mem) (i : Nat) : ntohs (load16 m i) = (m i).toNat * 2 ^ 8 + (m (i + 1)).toNat := by
  have low := (m i).toNat_lt
  have high := (m (i + 1)).toNat_lt
  unfold ntohs load16
  omega

theorem ntohl_load32 (m : Mem) (i : Nat) : ntohl (load32 m i) = bigEndian (slice m i 4) := by
  have halves : ntohl (load32 m i) = ntohs (load16 m (i + 2)) + ntohs (load16 m i) * 2 ^ 16 :=
    ntohl_halves (load16_lt m i) (load16_lt m (i + 2))
  rw [halves, ntohs_load16, ntohs_load16]
  simp only [slice_succ, slice_zero, bigEndian, List.foldl_cons, List.foldl_nil, Nat.add_assoc, Nat.reduceAdd]
  omega

theorem ntohll_load64 (m : Mem) (i : Nat) : ntohll (load64 m i) = bigEndian (slice m i 8) := by
  have halves : ntohll (load64 m i) = ntohl (load32 m (i + 4)) + ntohl (load32 m i) * 2 ^ 32 :=
    ntohll_halves (load32_lt m i) (load32_lt m (i + 4))
  rw [halves, ntohl_load32, ntohl_load32]
  simp only [slice_succ, slice_zero, bigEndian, List.foldl_cons, List.foldl_nil, Nat.add_assoc, Nat.reduceAdd]
  omega

theorem word_slice (m : Mem) (off n total : Nat) :
    word n (slice m off total) =
      if n ≤ total then some (bigEndian (slice m off n), slice m (off + n) (total - n)) else none := by
  unfold word
  rw [take_slice]
  split <;> rfl

theorem bigEndian_bytes32 (x : Nat) : bigEndian (bytes32 x) = htonl x := by
  have byte : ∀ i, (UInt8.ofNat (x / 256 ^ i)).toNat = x / 256 ^ i % 256 := fun i =>
    UInt8.toNat_ofNat'
  have first : x / 2 ^ 16 % 2 ^ 16 / 2 ^ 8 % 2 ^ 8 = x / 256 ^ 3 % 256 := by omega
  have second : x / 2 ^ 16 % 2 ^ 16 % 2 ^ 8 = x / 256 ^ 2 % 256 := by omega
  have third : x % 2 ^ 16 / 2 ^ 8 % 2 ^ 8 = x / 256 ^ 1 % 256 := by omega
  have last : x % 2 ^ 16 % 2 ^ 8 = x / 256 ^ 0 % 256 := by omega
  simp only [bigEndian, bytes32, List.range, List.range.loop, List.map_cons, List.map_nil,
    List.foldl_cons, List.foldl_nil, byte, htonl, ntohl, ntohs, first, second, third, last]
  omega

/-- A word stored in network byte order is read back. -/
theorem bigEndian_htonl {x : Nat} (h : x < 2 ^ 32) : bigEndian (bytes32 (htonl x)) = x := by
  rw [bigEndian_bytes32]
  exact ntohl_ntohl h

theorem bigEndian_bytes16 (x : Nat) : bigEndian (bytes16 x) = htons x := by
  have byte : ∀ i, (UInt8.ofNat (x / 256 ^ i)).toNat = x / 256 ^ i % 256 := fun i =>
    UInt8.toNat_ofNat'
  simp only [bigEndian, bytes16, List.range, List.range.loop, List.map_cons, List.map_nil,
    List.foldl_cons, List.foldl_nil, byte, htons, ntohs]
  omega

theorem bigEndian_htons {x : Nat} (h : x < 2 ^ 16) : bigEndian (bytes16 (htons x)) = x := by
  rw [bigEndian_bytes16]
  exact ntohs_ntohs h

theorem bigEndian_bytes64 {x : Nat} (h : x < 2 ^ 64) : bigEndian (bytes64 x) = htonll x := by
  have held : slice (Mem.ofBytes (bytes64 x)) 0 8 = bytes64 x := rfl
  rw [← held, ← ntohll_load64, load64_bytes64 h]
  rfl

theorem bigEndian_htonll {x : Nat} (h : x < 2 ^ 64) : bigEndian (bytes64 (htonll x)) = x := by
  rw [bigEndian_bytes64 (show htonll x < 2 ^ 64 from ntohll_lt x)]
  exact ntohll_ntohll h

theorem ntohs_slice (m : Mem) (i : Nat) : ntohs (load16 m i) = bigEndian (slice m i 2) := by
  rw [ntohs_load16]
  simp only [slice_succ, slice_zero, bigEndian, List.foldl_cons, List.foldl_nil]
  omega

/-- A part of a block, read where it lies. -/
theorem slice_ofBytes (p q r : Bytes) : slice (Mem.ofBytes (p ++ (q ++ r))) p.length q.length = q := by
  refine List.ext_getElem (slice_length ..) fun i hi hq => ?_
  have inside : p.length + i < (p ++ (q ++ r)).length := by
    simp only [List.length_append]
    omega
  simp only [slice, List.getElem_map, List.getElem_range, Mem.ofBytes]
  rw [List.getD_eq_getElem?_getD, List.getElem?_eq_getElem inside, Option.getD_some,
    List.getElem_append_right (Nat.le_add_right ..)]
  simp only [Nat.add_sub_cancel_left]
  rw [List.getElem_append_left hq]

theorem load32_ofBytes {n off : Nat} {p q : Bytes} (here : off = p.length) (h : n < 2 ^ 32) :
    ntohl (load32 (Mem.ofBytes (p ++ (bytes32 (htonl n) ++ q))) off) = n := by
  have held := slice_ofBytes p (bytes32 (htonl n)) q
  rw [bytes32_length, ← here] at held
  rw [ntohl_load32, held, bigEndian_htonl h]

/- What was put in front of a payload is taken off it again. -/

theorem take_append (b rest : Bytes) : take b.length (b ++ rest) = some (b, rest) := by
  have inside : b.length ≤ (b ++ rest).length := by
    rw [List.length_append]
    exact Nat.le_add_right ..
  rw [take, if_pos inside, List.take_left, List.drop_left]

theorem word_append {n k : Nat} {b : Bytes} (long : b.length = n) (spells : bigEndian b = k) (rest : Bytes) :
    word n (b ++ rest) = some (k, rest) := by
  rw [word, ← long, take_append]
  exact congrArg (fun k => some (k, rest)) spells

theorem word_htonl {n : Nat} (h : n < 2 ^ 32) (rest : Bytes) :
    word 4 (bytes32 (htonl n) ++ rest) = some (n, rest) :=
  word_append (bytes32_length _) (bigEndian_htonl h) rest

end Wire

end Nmdb
