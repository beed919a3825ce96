import Nmdb.Servers
import Nmdb.Lib.OnesComplement

/-! The checksum that selects the server of a key. Its pointer moves on by one byte where the words
have two, so that the words overlap and the second half of a key is not looked at. -/
namespace Nmdb.Library

/-- The words of a key one behind the other, with a last odd byte as it is. -/
def keyWords : Bytes → List Nat
  | a :: b :: rest => (a.toNat + b.toNat * 2 ^ 8) :: keyWords rest
  | [a] => [a.toNat]
  | [] => []

/-- The checksum of RFC 1071, as the uint32_t that it is returned in. -/
def rfc1071 (key : Bytes) : Nat := 2 ^ 32 - 1 - OnesComplement.sum (2 ^ 16) (keyWords key)

/-- checksum() of so many bytes of a memory. -/
def checksumAt (o : ByteOrder) (mem : Bytes) (bsize : Nat) : Nat :=
  let (sum, bsize, buf) := checksumWords o bsize mem 0
  let sum := if 0 < bsize then u32 (sum + (buf.getD 0 0).toNat) else sum
  2 ^ 32 - 1 - foldCarries sum

/-- The words it takes. -/
def summed (o : ByteOrder) : Nat → Bytes → List Nat
  | bsize + 2, buf => o.load16 buf :: summed o bsize (buf.drop 1)
  | 1, buf => [(buf.getD 0 0).toNat]
  | 0, _ => []

/-- The checksum is the one of RFC 1071, on a little-endian host: it has its value, every byte of the
key takes part, and what lies behind the key does not. -/
structure Rfc1071 (key : Bytes) : Prop where
  value : checksum .little key = rfc1071 key
  takesPart : ∀ i < key.length, ∃ c, checksum .little (key.set i c) ≠ checksum .little key
  inside : ∀ behind, checksumAt .little (key ++ behind) key.length = checksum .little key

section

variable {o : ByteOrder} {key buf buf' : Bytes}

theorem u32_add (a b : Nat) : u32 (u32 a + b) = u32 (a + b) := by
  unfold u32
  omega

/- The loop and the odd byte behind it. -/
theorem checksumWords_summed (o : ByteOrder) (bsize : Nat) (buf : Bytes) (sum : Nat) :
    (if 0 < (checksumWords o bsize buf (u32 sum)).2.1 then
        u32 ((checksumWords o bsize buf (u32 sum)).1 +
          ((checksumWords o bsize buf (u32 sum)).2.2.getD 0 0).toNat)
      else (checksumWords o bsize buf (u32 sum)).1) = u32 (sum + (summed o bsize buf).sum) := by
  induction bsize, buf using summed.induct generalizing sum with
  | case1 bsize buf ih =>
    rw [checksumWords, u32_add, summed, List.sum_cons, ← Nat.add_assoc]
    exact ih (sum + o.load16 buf)
  | case2 buf =>
    rw [summed, List.sum_singleton]
    exact u32_add ..
  | case3 buf => rfl

theorem checksumAt_eq (o : ByteOrder) (mem : Bytes) (bsize : Nat) :
    checksumAt o mem bsize = 2 ^ 32 - 1 - foldCarries (u32 (summed o bsize mem).sum) := by
  have read := checksumWords_summed o bsize mem 0
  rw [Nat.zero_add] at read
  rw [← read]
  rfl

theorem checksum_eq (o : ByteOrder) (key : Bytes) :
    checksum o key = 2 ^ 32 - 1 - foldCarries (u32 (summed o key.length key).sum) :=
  checksumAt_eq o key key.length

/- Of n bytes the first n / 2 + 1 are looked at. -/
theorem summed_take {bsize : Nat} (same : ∀ i ≤ bsize / 2, buf.getD i 0 = buf'.getD i 0) :
    summed o bsize buf = summed o bsize buf' := by
  induction bsize, buf using summed.induct generalizing buf' with
  | case1 bsize buf ih =>
    have first := same 0 (Nat.zero_le _)
    have second := same 1 (by omega)
    have load : o.load16 buf = o.load16 buf' := by
      cases o <;> simp only [ByteOrder.load16, first, second]
    rw [summed, summed, load]
    congr 1
    apply ih
    intro i inside
    have here := same (1 + i) (by omega)
    simpa only [List.getD_eq_getElem?_getD, List.getElem?_drop] using here
  | case2 buf => rw [summed, summed, same 0 (Nat.zero_le _)]
  | case3 buf => rfl

/-- The bytes of a key behind the first half take no part. -/
theorem checksum_half (o : ByteOrder) {key' : Bytes} (length : key.length = key'.length)
    (same : ∀ i ≤ key.length / 2, key.getD i 0 = key'.getD i 0) : checksum o key = checksum o key' := by
  rw [checksum_eq, checksum_eq, ← length, summed_take same]

theorem foldCarries_small {sum : Nat} (small : sum < 2 ^ 16) : foldCarries sum = sum := by
  rw [foldCarries, if_pos (Nat.div_eq_of_lt small)]

theorem foldCarries_lt (sum : Nat) : foldCarries sum < 2 ^ 16 := by
  induction sum using foldCarries.induct with
  | case1 sum done =>
    rw [foldCarries, if_pos done]
    omega
  | case2 sum carry ih => rwa [foldCarries, if_neg carry]

theorem foldCarries_modEq (sum : Nat) : foldCarries sum ≡ sum [MOD 2 ^ 16 - 1] := by
  induction sum using foldCarries.induct with
  | case1 sum done => rw [foldCarries, if_pos done]
  | case2 sum carry ih =>
    have folded : sum % 2 ^ 16 + sum / 2 ^ 16 ≡ sum [MOD 2 ^ 16 - 1] := by
      unfold Nat.ModEq
      omega
    rw [foldCarries, if_neg carry]
    exact ih.trans folded

theorem foldCarries_eq_zero (sum : Nat) : foldCarries sum = 0 ↔ sum = 0 := by
  induction sum using foldCarries.induct with
  | case1 sum done => rw [foldCarries, if_pos done]
  | case2 sum carry ih =>
    rw [foldCarries, if_neg carry, ih]
    omega

theorem keyWords_lt (key : Bytes) : ∀ w ∈ keyWords key, w < 2 ^ 16 := by
  induction key using keyWords.induct with
  | case1 a b rest ih =>
    have low := a.toNat_lt
    have high := b.toNat_lt
    exact List.forall_mem_cons.mpr ⟨by omega, ih⟩
  | case2 a =>
    have small := a.toNat_lt
    exact List.forall_mem_cons.mpr ⟨by omega, List.forall_mem_nil _⟩
  | case3 => exact List.forall_mem_nil _

theorem summed_le (bsize : Nat) (buf : Bytes) : (summed .little bsize buf).sum ≤ (bsize + 1) / 2 * 2 ^ 16 := by
  induction bsize, buf using summed.induct with
  | case1 bsize buf ih =>
    have low := (buf.getD 0 0).toNat_lt
    have high := (buf.getD 1 0).toNat_lt
    rw [summed, List.sum_cons, ByteOrder.load16]
    omega
  | case2 buf =>
    have small := (buf.getD 0 0).toNat_lt
    rw [summed, List.sum_singleton]
    omega
  | case3 buf => exact Nat.zero_le _

/-- The value alone is right where the overlapping words have the same residue as those of the key. -/
theorem checksum_value_iff (short : key.length ≤ 65536) :
    checksum .little key = rfc1071 key ↔
      (summed .little key.length key).sum ≡ (keyWords key).sum [MOD 2 ^ 16 - 1] ∧
        ((summed .little key.length key).sum = 0 ↔ (keyWords key).sum = 0) := by
  have words := keyWords_lt key
  have rfc_lt := OnesComplement.sum_lt (by decide) words
  have rfc_modEq := OnesComplement.sum_modEq (by decide) words
  have rfc_zero := OnesComplement.sum_eq_zero (by decide) words
  have small := summed_le key.length key
  rw [checksum_eq, rfc1071, u32, Nat.mod_eq_of_lt (by omega)]
  generalize (summed .little key.length key).sum = s
  have lt := foldCarries_lt s
  have same : 2 ^ 32 - 1 - foldCarries s = 2 ^ 32 - 1 - OnesComplement.sum (2 ^ 16) (keyWords key) ↔
      foldCarries s = OnesComplement.sum (2 ^ 16) (keyWords key) := by omega
  rw [same]
  constructor
  · intro equal
    refine ⟨?_, ?_⟩
    · exact (foldCarries_modEq s).symm.trans (equal ▸ rfc_modEq)
    · rw [← foldCarries_eq_zero, equal, rfc_zero]
  · rintro ⟨residue, zero⟩
    apply OnesComplement.eq_of_modEq lt rfc_lt
    · exact (foldCarries_modEq s).trans (residue.trans rfc_modEq.symm)
    · rw [foldCarries_eq_zero, zero, rfc_zero]

/-- Nothing behind a key is read. -/
theorem checksumAt_inside (o : ByteOrder) (key behind : Bytes) :
    checksumAt o (key ++ behind) key.length = checksum o key := by
  rw [checksumAt_eq, checksum_eq]
  cases key with
  | nil => rfl
  | cons c rest =>
    rw [summed_take]
    intro i inside
    have within : i < (c :: rest).length := by
      rw [List.length_cons] at inside ⊢
      omega
    rw [List.getD_eq_getElem?_getD, List.getD_eq_getElem?_getD, List.getElem?_append_left within]

/- Two bytes are one word. -/
theorem checksum_short (short : key.length ≤ 2) :
    checksum .little key = 2 ^ 32 - 1 - ((key.getD 0 0).toNat + (key.getD 1 0).toNat * 2 ^ 8) := by
  have low := (key.getD 0 0).toNat_lt
  have high := (key.getD 1 0).toNat_lt
  have word : (summed .little key.length key).sum = (key.getD 0 0).toNat + (key.getD 1 0).toNat * 2 ^ 8 := by
    match key, short with
    | [], _ => rfl
    | [a], _ => simp [summed]
    | [a, b], _ => simp [summed, ByteOrder.load16]
  rw [checksum_eq, word, u32, Nat.mod_eq_of_lt (by omega), foldCarries_small (by omega)]

theorem rfc1071_short (short : key.length ≤ 2) :
    rfc1071 key = 2 ^ 32 - 1 - ((key.getD 0 0).toNat + (key.getD 1 0).toNat * 2 ^ 8) := by
  have one : ∀ w < 2 ^ 16, OnesComplement.sum (2 ^ 16) [w] = w := by
    intro w small
    change OnesComplement.add (2 ^ 16) 0 w = w
    rw [OnesComplement.add, Nat.zero_add, if_pos small]
  rw [rfc1071]
  match key, short with
  | [], _ => simp [keyWords, OnesComplement.sum]
  | [a], _ =>
    have small := a.toNat_lt
    rw [keyWords, one _ (by omega)]
    simp
  | [a, b], _ =>
    have low := a.toNat_lt
    have high := b.toNat_lt
    rw [keyWords, keyWords, one _ (by omega)]
    rfl

/-- Only the keys of at most two bytes have the checksum they should. -/
theorem rfc1071_iff (key : Bytes) : Rfc1071 key ↔ key.length ≤ 2 := by
  constructor
  · intro right
    by_contra long
    -- the last byte lies in the half that is not looked at
    obtain ⟨c, differs⟩ := right.takesPart (key.length - 1) (by omega)
    apply differs
    refine (checksum_half .little (List.length_set ..).symm fun i inside => ?_).symm
    rw [List.getD_eq_getElem?_getD, List.getD_eq_getElem?_getD, List.getElem?_set_ne (by omega)]
  · intro short
    refine ⟨(checksum_short short).trans (rfc1071_short short).symm, ?_, checksumAt_inside .little key⟩
    intro i inside
    have low := (key.getD 0 0).toNat_lt
    have high := (key.getD 1 0).toNat_lt
    obtain ⟨c, other⟩ : ∃ c : UInt8, c.toNat ≠ (key.getD i 0).toNat := by
      by_cases zero : key.getD i 0 = 0
      · exact ⟨1, by rw [zero]; decide⟩
      · exact ⟨0, fun same => zero (UInt8.toNat_inj.mp same).symm⟩
    have small := c.toNat_lt
    refine ⟨c, ?_⟩
    rw [checksum_short short, checksum_short (show (key.set i c).length ≤ 2 by rwa [List.length_set])]
    obtain rfl | rfl : i = 0 ∨ i = 1 := by omega
    · have here : (key.set 0 c).getD 0 0 = c := by
        rw [List.getD_eq_getElem?_getD, List.getElem?_set_self inside]
        rfl
      have beside : (key.set 0 c).getD 1 0 = key.getD 1 0 := by
        rw [List.getD_eq_getElem?_getD, List.getElem?_set_ne (by decide), List.getD_eq_getElem?_getD]
      rw [here, beside]
      omega
    · have here : (key.set 1 c).getD 1 0 = c := by
        rw [List.getD_eq_getElem?_getD, List.getElem?_set_self inside]
        rfl
      have beside : (key.set 1 c).getD 0 0 = key.getD 0 0 := by
        rw [List.getD_eq_getElem?_getD, List.getElem?_set_ne (by decide), List.getD_eq_getElem?_getD]
      rw [here, beside]
      omega

/-- The words 1 and 2 of four bytes: between them the checksum sees 256 * 2. -/
theorem overlapping_words : ¬ Rfc1071 [1, 0, 2, 0] := by
  intro right
  have value := right.value
  have seen : u32 (summed .little ([1, 0, 2, 0] : Bytes).length [1, 0, 2, 0]).sum = 513 := rfl
  rw [checksum_eq, seen, foldCarries_small (by decide)] at value
  exact absurd value (by decide)

end

end Nmdb.Library
