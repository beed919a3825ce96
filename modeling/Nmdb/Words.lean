import Mathlib.Data.List.Basic
import Mathlib.Tactic.NormNum

/-! Bytes, machine words and byte order on a little-endian host. A word is a natural
number below the power of two of its width; wrap-around is written out where it matters. -/
namespace Nmdb

abbrev Bytes := List UInt8

/-- Memory seen from a pointer: the byte at each offset, past the end of a message too. -/
abbrev Mem := Nat → UInt8

def load16 (m : Mem) (i : Nat) : Nat := (m i).toNat + (m (i + 1)).toNat * 2 ^ 8
def load32 (m : Mem) (i : Nat) : Nat := load16 m i + load16 m (i + 2) * 2 ^ 16
def load64 (m : Mem) (i : Nat) : Nat := load32 m i + load32 m (i + 4) * 2 ^ 32

def ntohs (x : Nat) : Nat := x / 2 ^ 8 % 2 ^ 8 + x % 2 ^ 8 * 2 ^ 8
def htons (x : Nat) : Nat := ntohs x
def ntohl (x : Nat) : Nat := ntohs (x / 2 ^ 16 % 2 ^ 16) + ntohs (x % 2 ^ 16) * 2 ^ 16
def htonl (x : Nat) : Nat := ntohl x
def ntohll (x : Nat) : Nat := ntohl (x / 2 ^ 32 % 2 ^ 32) + ntohl (x % 2 ^ 32) * 2 ^ 32
def htonll (x : Nat) : Nat := ntohll x

/-- A uint32_t result. -/
def u32 (x : Nat) : Nat := x % 2 ^ 32

/-- A size_t difference, which wraps. -/
def sizeSub (a b : Nat) : Nat := if b ≤ a then a - b else a + 2 ^ 64 - b

/-- The int64_t a 64-bit word stands for. -/
def toInt64 (x : Nat) : Int := if x < 2 ^ 63 then x else (x : Int) - 2 ^ 64

/-- The 64-bit word of an integer; out of range it wraps. -/
def ofInt64 (i : Int) : Nat := (i % 2 ^ 64).toNat

/-- The int64_t result of a signed operation, as the two's complement addition yields it. -/
def wrap64 (i : Int) : Int := toInt64 (ofInt64 i)

def InInt64 (i : Int) : Prop := -2 ^ 63 ≤ i ∧ i < 2 ^ 63

/-- The eight bytes of a 64-bit word as it lies in memory. -/
def bytes64 (x : Nat) : Bytes := (List.range 8).map fun i => UInt8.ofNat (x / 256 ^ i)

/-- The same of a 32-bit and of a 16-bit word. -/
def bytes32 (x : Nat) : Bytes := (List.range 4).map fun i => UInt8.ofNat (x / 256 ^ i)
def bytes16 (x : Nat) : Bytes := (List.range 2).map fun i => UInt8.ofNat (x / 256 ^ i)

/-- The bytes of m from off on. -/
def slice (m : Mem) (off n : Nat) : Bytes := (List.range n).map fun i => m (off + i)

/-- The memory behind a pointer moved forward. -/
def Mem.from (m : Mem) (off : Nat) : Mem := fun i => m (off + i)

/-- A block as memory; past its end it reads as zero. -/
def Mem.ofBytes (b : Bytes) : Mem := fun i => b.getD i 0

/-- The first n bytes are the same. -/
def SameUpTo (n : Nat) (m m' : Mem) : Prop := ∀ i, i < n → m i = m' i

theorem ofBytes_append (p t t' : Bytes) :
    SameUpTo p.length (Mem.ofBytes (p ++ t)) (Mem.ofBytes (p ++ t')) := by
  intro i hi
  unfold Mem.ofBytes
  rw [List.getD_eq_getElem?_getD, List.getD_eq_getElem?_getD, List.getElem?_append_left hi,
    List.getElem?_append_left hi]

@[simp] theorem slice_length (m : Mem) (off n : Nat) : (slice m off n).length = n := by
  simp [slice]

theorem slice_same {m m' : Mem} {n off k : Nat} (same : SameUpTo n m m') (inside : off + k ≤ n) :
    slice m off k = slice m' off k := by
  unfold slice
  refine List.map_congr_left fun i hi => same _ ?_
  have := List.mem_range.mp hi
  omega

theorem load16_same {m m' : Mem} {n i : Nat} (same : SameUpTo n m m') (inside : i + 2 ≤ n) :
    load16 m i = load16 m' i := by
  unfold load16
  rw [same i (by omega), same (i + 1) (by omega)]

theorem load32_same {m m' : Mem} {n i : Nat} (same : SameUpTo n m m') (inside : i + 4 ≤ n) :
    load32 m i = load32 m' i := by
  unfold load32
  rw [load16_same same (by omega), load16_same same (by omega)]

theorem load64_same {m m' : Mem} {n i : Nat} (same : SameUpTo n m m') (inside : i + 8 ≤ n) :
    load64 m i = load64 m' i := by
  unfold load64
  rw [load32_same same (by omega), load32_same same (by omega)]

theorem SameUpTo.from {m m' : Mem} {n : Nat} (same : SameUpTo n m m') (off : Nat) :
    SameUpTo (n - off) (m.from off) (m'.from off) := fun i hi => same (off + i) (by omega)

theorem SameUpTo.symm {m m' : Mem} {n : Nat} (same : SameUpTo n m m') : SameUpTo n m' m :=
  fun i hi => (same i hi).symm

theorem load16_lt (m : Mem) (i : Nat) : load16 m i < 2 ^ 16 := by
  unfold load16
  have := (m i).toNat_lt
  have := (m (i + 1)).toNat_lt
  omega

theorem load32_lt (m : Mem) (i : Nat) : load32 m i < 2 ^ 32 := by
  unfold load32
  have := load16_lt m i
  have := load16_lt m (i + 2)
  omega

theorem ntohs_lt (x : Nat) : ntohs x < 2 ^ 16 := by
  unfold ntohs
  omega

theorem ntohl_lt (x : Nat) : ntohl x < 2 ^ 32 := by
  unfold ntohl
  have := ntohs_lt (x / 2 ^ 16 % 2 ^ 16)
  have := ntohs_lt (x % 2 ^ 16)
  omega

theorem ntohll_lt (x : Nat) : ntohll x < 2 ^ 64 := by
  unfold ntohll
  have := ntohl_lt (x / 2 ^ 32 % 2 ^ 32)
  have := ntohl_lt (x % 2 ^ 32)
  omega

theorem ntohs_halves {low high : Nat} (hl : low < 2 ^ 8) (hh : high < 2 ^ 8) :
    ntohs (low + high * 2 ^ 8) = high + low * 2 ^ 8 := by
  unfold ntohs
  omega

theorem ntohs_ntohs {x : Nat} (h : x < 2 ^ 16) : ntohs (ntohs x) = x := by
  have split : ntohs x = x / 2 ^ 8 % 2 ^ 8 + x % 2 ^ 8 * 2 ^ 8 := rfl
  rw [split, ntohs_halves (Nat.mod_lt _ (by decide)) (Nat.mod_lt _ (by decide))]
  omega

/-- Swapping a word is swapping its halves and their order. -/
theorem ntohl_halves {low high : Nat} (hl : low < 2 ^ 16) (hh : high < 2 ^ 16) :
    ntohl (low + high * 2 ^ 16) = ntohs high + ntohs low * 2 ^ 16 := by
  unfold ntohl
  congr 2 <;> congr 1 <;> omega

theorem ntohll_halves {low high : Nat} (hl : low < 2 ^ 32) (hh : high < 2 ^ 32) :
    ntohll (low + high * 2 ^ 32) = ntohl high + ntohl low * 2 ^ 32 := by
  unfold ntohll
  congr 2 <;> congr 1 <;> omega

theorem ntohl_ntohl {x : Nat} (h : x < 2 ^ 32) : ntohl (ntohl x) = x := by
  have split : ntohl x = ntohs (x / 2 ^ 16 % 2 ^ 16) + ntohs (x % 2 ^ 16) * 2 ^ 16 := rfl
  rw [split, ntohl_halves (ntohs_lt _) (ntohs_lt _), ntohs_ntohs (by omega), ntohs_ntohs (by omega)]
  omega

theorem ntohll_ntohll {x : Nat} (h : x < 2 ^ 64) : ntohll (ntohll x) = x := by
  have split : ntohll x = ntohl (x / 2 ^ 32 % 2 ^ 32) + ntohl (x % 2 ^ 32) * 2 ^ 32 := rfl
  rw [split, ntohll_halves (ntohl_lt _) (ntohl_lt _), ntohl_ntohl (by omega), ntohl_ntohl (by omega)]
  omega

theorem wrap64_eq {i : Int} (fits : InInt64 i) : wrap64 i = i := by
  unfold wrap64 toInt64 ofInt64
  obtain ⟨lo, hi⟩ := fits
  split <;> omega

theorem wrap64_range (i : Int) : InInt64 (wrap64 i) := by
  unfold InInt64 wrap64 toInt64 ofInt64
  split <;> omega

/-- Wrapping a term first makes no difference. -/
theorem wrap64_add_wrap64 (a b : Int) : wrap64 (a + wrap64 b) = wrap64 (a + b) := by
  unfold wrap64 toInt64 ofInt64
  split <;> split <;> split <;> omega

theorem ofInt64_lt (i : Int) : ofInt64 i < 2 ^ 64 := by
  unfold ofInt64
  omega

/-- A word stored in memory is read back. -/
theorem load64_bytes64 {x : Nat} (h : x < 2 ^ 64) : load64 (Mem.ofBytes (bytes64 x)) 0 = x := by
  have byte : ∀ i, (UInt8.ofNat (x / 256 ^ i)).toNat = x / 256 ^ i % 256 := fun i =>
    UInt8.toNat_ofNat'
  simp only [load64, load32, load16, Mem.ofBytes, bytes64, List.range, List.range.loop,
    List.map_cons, List.map_nil, List.getD_cons_zero, List.getD_cons_succ, byte]
  omega

theorem bytes64_length (x : Nat) : (bytes64 x).length = 8 := by
  simp [bytes64]

theorem bytes32_length (x : Nat) : (bytes32 x).length = 4 := by
  simp [bytes32]

theorem bytes16_length (x : Nat) : (bytes16 x).length = 2 := by
  simp [bytes16]

end Nmdb
