import Nmdb.Words

/-! The two conversions between numbers and text the server calls: strtoll in base 10
and snprintf with the one format it uses, the number right-aligned in 23 columns. -/
namespace Nmdb

def isspace (c : UInt8) : Bool := c = 32 || (9 ≤ c && c ≤ 13)

def isdigit (c : UInt8) : Bool := 48 ≤ c && c ≤ 57

/-- The number the leading digits spell, after the digits already read. -/
def digitsValue : Bytes → Nat → Nat
  | [], acc => acc
  | c :: rest, acc => if isdigit c then digitsValue rest (acc * 10 + (c.toNat - 48)) else acc

/-- The number an optional sign and the digits after it spell. -/
def signedValue : Bytes → Int
  | [] => 0
  | c :: rest =>
    if c = 45 then -(digitsValue rest 0 : Int)
    else if c = 43 then digitsValue rest 0
    else digitsValue (c :: rest) 0

/-- Out of range the result is the nearest limit. -/
def saturate (i : Int) : Int := max (-2 ^ 63) (min i (2 ^ 63 - 1))

def strtoll (s : Bytes) : Int := saturate (signedValue (s.dropWhile isspace))

/-- Decimal text of an integer. -/
def decimal (i : Int) : Bytes :=
  let digits := (Nat.toDigits 10 i.natAbs).map fun c => UInt8.ofNat c.toNat
  if i < 0 then 45 :: digits else digits

/-- The text of the format %23lld. -/
def padded (i : Int) : Bytes := List.replicate (23 - (decimal i).length) 32 ++ decimal i

/-- A buffer after snprintf(buf, size, "%23lld", i). -/
def snprintf (buf : Bytes) (size : Nat) (i : Int) : Bytes :=
  if size = 0 then buf
  else
    let text := (padded i).take (size - 1) ++ [0]
    text ++ buf.drop text.length

theorem decimal_length {i : Int} (fits : InInt64 i) : (decimal i).length ≤ 20 := by
  have small : i.natAbs < 10 ^ 19 := by
    obtain ⟨lo, hi⟩ := fits
    omega
  have digits : (Nat.toDigits 10 i.natAbs).length ≤ 19 :=
    (Nat.length_toDigits_le_iff (by decide) (by decide)).mpr small
  unfold decimal
  split <;> simp <;> omega

theorem padded_length {i : Int} (fits : InInt64 i) : (padded i).length = 23 := by
  have := decimal_length fits
  simp only [padded, List.length_append, List.length_replicate]
  omega

/-- A buffer of at least 24 bytes gets the whole text and keeps its tail. -/
theorem snprintf_fits {buf : Bytes} {size : Nat} {i : Int} (fits : InInt64 i) (room : 24 ≤ size) :
    snprintf buf size i = padded i ++ [0] ++ buf.drop 24 := by
  have len := padded_length fits
  have whole : (padded i).take (size - 1) = padded i := List.take_of_length_le (by omega)
  have nonzero : size ≠ 0 := by omega
  simp only [snprintf, if_neg nonzero, whole, List.length_append, len, List.length_singleton]

theorem snprintf_length {buf : Bytes} {size : Nat} {i : Int} (fits : InInt64 i) (room : 24 ≤ size)
    (large : size ≤ buf.length) : (snprintf buf size i).length = buf.length := by
  rw [snprintf_fits fits room]
  simp only [List.length_append, padded_length fits, List.length_singleton, List.length_drop]
  omega

/-- Reading stops at the terminator, whatever lies behind it. -/
theorem digitsValue_append {s : Bytes} (terminated : (0 : UInt8) ∈ s) (tail : Bytes) (acc : Nat) :
    digitsValue (s ++ tail) acc = digitsValue s acc := by
  induction s generalizing acc with
  | nil => cases terminated
  | cons c rest ih =>
    simp only [List.cons_append, digitsValue]
    by_cases hd : isdigit c = true
    · have hc : (0 : UInt8) ≠ c := by
        rintro rfl
        exact absurd hd (by decide)
      rw [if_pos hd, if_pos hd, ih ((List.mem_cons.mp terminated).resolve_left hc)]
    · rw [if_neg hd, if_neg hd]

theorem signedValue_append {s : Bytes} (terminated : (0 : UInt8) ∈ s) (tail : Bytes) :
    signedValue (s ++ tail) = signedValue s := by
  cases s with
  | nil => cases terminated
  | cons c rest =>
    have inRest : c ≠ 0 → (0 : UInt8) ∈ rest := fun hc =>
      (List.mem_cons.mp terminated).resolve_left (Ne.symm hc)
    have whole := digitsValue_append terminated tail 0
    simp only [List.cons_append] at whole
    simp only [List.cons_append, signedValue, whole]
    by_cases minus : c = 45
    · rw [if_pos minus, if_pos minus, digitsValue_append (inRest (by rw [minus]; decide))]
    · rw [if_neg minus, if_neg minus]
      by_cases plus : c = 43
      · rw [if_pos plus, if_pos plus, digitsValue_append (inRest (by rw [plus]; decide))]
      · rw [if_neg plus, if_neg plus]

theorem strtoll_append {s : Bytes} (terminated : (0 : UInt8) ∈ s) (tail : Bytes) :
    strtoll (s ++ tail) = strtoll s := by
  have skip : (s ++ tail).dropWhile isspace = s.dropWhile isspace ++ tail ∧
      (0 : UInt8) ∈ s.dropWhile isspace := by
    induction s with
    | nil => cases terminated
    | cons c rest ih =>
      by_cases hs : isspace c = true
      · have hc : (0 : UInt8) ≠ c := by
          rintro rfl
          exact absurd hs (by decide)
        rw [List.cons_append, List.dropWhile_cons_of_pos hs, List.dropWhile_cons_of_pos hs]
        exact ih ((List.mem_cons.mp terminated).resolve_left hc)
      · rw [List.cons_append, List.dropWhile_cons_of_neg hs, List.dropWhile_cons_of_neg hs]
        exact ⟨rfl, terminated⟩
  unfold strtoll
  rw [skip.1, signedValue_append skip.2]

/- Reading a number back from its text. -/

/-- The digits of a number as bytes. -/
def digitBytes (m : Nat) : Bytes := (Nat.toDigits 10 m).map fun c => UInt8.ofNat c.toNat

theorem decimal_eq (i : Int) :
    decimal i = if i < 0 then 45 :: digitBytes i.natAbs else digitBytes i.natAbs := rfl

theorem digit_byte {d : Nat} (h : d < 10) :
    isdigit (UInt8.ofNat (Nat.digitChar d).toNat) = true ∧
      (UInt8.ofNat (Nat.digitChar d).toNat).toNat - 48 = d := by
  have all : ∀ d : Fin 10, isdigit (UInt8.ofNat (Nat.digitChar d).toNat) = true ∧
      (UInt8.ofNat (Nat.digitChar d).toNat).toNat - 48 = d.val := by decide
  exact all ⟨d, h⟩

theorem digitBytes_small {m : Nat} (h : m < 10) : digitBytes m = [UInt8.ofNat (Nat.digitChar m).toNat] := by
  rw [digitBytes, Nat.toDigits_of_lt_base h]
  rfl

theorem digitBytes_large {m : Nat} (h : 10 ≤ m) :
    digitBytes m = digitBytes (m / 10) ++ [UInt8.ofNat (Nat.digitChar (m % 10)).toNat] := by
  rw [digitBytes, Nat.toDigits_of_base_le (by decide) h, List.map_append]
  rfl

/- The digits in front are those of the number without its last digit. -/
theorem digitsValue_digitBytes (m : Nat) (rest : Bytes) :
    digitsValue (digitBytes m ++ rest) 0 = digitsValue rest m := by
  induction m using Nat.strong_induction_on generalizing rest with
  | _ m ih =>
    by_cases small : m < 10
    · obtain ⟨digit, value⟩ := digit_byte small
      rw [digitBytes_small small, List.singleton_append, digitsValue, if_pos digit, value]
      simp only [Nat.zero_mul, Nat.zero_add]
    · obtain ⟨digit, value⟩ := digit_byte (show m % 10 < 10 by omega)
      rw [digitBytes_large (by omega), List.append_assoc, ih (m / 10) (by omega), List.singleton_append,
        digitsValue, if_pos digit, value]
      congr 1
      omega

theorem digitBytes_head (m : Nat) : ∃ c rest, digitBytes m = c :: rest ∧ isdigit c = true := by
  induction m using Nat.strong_induction_on with
  | _ m ih =>
    by_cases small : m < 10
    · exact ⟨_, [], digitBytes_small small, (digit_byte small).1⟩
    · obtain ⟨c, rest, head, digit⟩ := ih (m / 10) (by omega)
      refine ⟨c, rest ++ [UInt8.ofNat (Nat.digitChar (m % 10)).toNat], ?_, digit⟩
      rw [digitBytes_large (by omega), head, List.cons_append]

theorem signedValue_decimal (i : Int) (tail : Bytes) : signedValue (decimal i ++ 0 :: tail) = i := by
  have ends : ∀ m : Nat, digitsValue (0 :: tail) m = m := fun m => if_neg (by decide)
  have value := digitsValue_digitBytes i.natAbs (0 :: tail)
  rw [ends] at value
  rw [decimal_eq]
  split
  case isTrue negative =>
    rw [List.cons_append, signedValue, if_pos rfl, value]
    omega
  case isFalse positive =>
    obtain ⟨c, rest, head, digit⟩ := digitBytes_head i.natAbs
    rw [head, List.cons_append] at value ⊢
    have minus : c ≠ 45 := by
      rintro rfl
      exact absurd digit (by decide)
    have plus : c ≠ 43 := by
      rintro rfl
      exact absurd digit (by decide)
    rw [signedValue, if_neg minus, if_neg plus, value]
    omega

theorem decimal_head (i : Int) (tail : Bytes) :
    (decimal i ++ tail).dropWhile isspace = decimal i ++ tail := by
  rw [decimal_eq]
  split
  · exact List.dropWhile_cons_of_neg (by decide)
  · obtain ⟨c, rest, head, digit⟩ := digitBytes_head i.natAbs
    rw [head, List.cons_append, List.dropWhile_cons_of_neg]
    intro space
    simp only [isdigit, isspace, Bool.and_eq_true, Bool.or_eq_true, decide_eq_true_eq,
      UInt8.le_iff_toNat_le] at digit space
    rcases space with rfl | space
    · exact absurd digit.1 (by decide)
    · have low := digit.1
      have high := space.2
      simp only [UInt8.toNat_ofNat] at low high
      omega

/-- strtoll reads back what snprintf has written. -/
theorem strtoll_padded {i : Int} (fits : InInt64 i) (tail : Bytes) : strtoll (padded i ++ 0 :: tail) = i := by
  have spaces : ∀ c ∈ List.replicate (23 - (decimal i).length) (32 : UInt8), isspace c = true := by
    intro c member
    rw [List.eq_of_mem_replicate member]
    decide
  rw [strtoll, padded, List.append_assoc, List.dropWhile_append_of_pos spaces, decimal_head,
    signedValue_decimal,
    saturate]
  obtain ⟨low, high⟩ := fits
  omega

end Nmdb
