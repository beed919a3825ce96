import Nmdb.SizeLimits

/-! The size checks of the parser in machine arithmetic. They decide as over the integers,
except where the payload size wraps below zero or the key size of an INCR above 2^32. -/
namespace Nmdb

open Library

/-- The size checks over the integers. -/
def SizesExceed (c : Req) (payload : Mem) (psize : Int) : Prop :=
  match c with
  | .set => psize < sizeField payload 0 ∨ psize < sizeField payload 1 ∨
      maxSize < sizeField payload 0 ∨ maxSize < sizeField payload 1 ∨
      maxSize < sizeField payload 0 + sizeField payload 1
  | .cas => psize < sizeField payload 0 ∨ psize < sizeField payload 1 ∨
      psize < sizeField payload 2 ∨ maxSize < sizeField payload 0 ∨
      maxSize < sizeField payload 1 ∨ maxSize < sizeField payload 2 ∨
      maxSize < sizeField payload 0 + sizeField payload 1 + sizeField payload 2
  | .incr => psize < (sizeField payload 0 + 8 : Int) ∨ maxSize < sizeField payload 0 + 8
  | _ => psize < sizeField payload 0

def GuardRefuses (c : Req) (payload : Mem) (psize : Nat) : Prop :=
  ∀ (m : Mallocs) (s : Server Nat) (req : ReqInfo Nat), req.cmd = c.code →
    parseCommand m s req payload psize = .ok (s.broken req)

/-- The lengths a transport hands to parse_message. -/
def HandedLength (t : Transport) (len : Nat) : Prop :=
  match t with
  | .tcp => Admits (len + 4)
  | .tipc | .udp | .sctp => 8 ≤ len

section

variable {c : Req} {payload : Mem} {len : Nat}

theorem sizeField_lt (payload : Mem) (i : Nat) : sizeField payload i < 2 ^ 32 := ntohl_lt _

theorem guardRefuses_iff (sized : c.sized) (psize : Nat) :
    GuardRefuses c payload psize ↔ SizesRefused c payload psize := by
  obtain ⟨r, ops⟩ := operands_sized sized payload
  constructor
  · intro refuses
    by_contra passed
    have answered := refuses Mallocs.plenty (serverOf emptyCache) ⟨0, 0, c.code, 0⟩ rfl
    rw [parseCommand_sized _ _ psize rfl ops, if_neg passed] at answered
    exact serve_not_broken r answered
  · intro refused m s req cmd
    rw [parseCommand_sized m s psize cmd ops, if_pos refused]

/-- The key size of an INCR is so large that the sum with the size of the increment wraps to
a number within the payload. -/
def SumWraps (c : Req) (payload : Mem) (psize : Nat) : Prop :=
  c = .incr ∧ 2 ^ 32 ≤ sizeField payload 0 + 8 ∧ sizeField payload 0 + 8 ≤ 2 ^ 32 + psize

theorem sizeSub_exact_iff : ((sizeSub len 8 : Nat) : Int) = (len : Int) - 8 ↔ 8 ≤ len := by
  unfold sizeSub
  split <;> omega

/- The sums of SET and CAS are asked for only where their parts are small. -/
theorem sizesRefused_iff (sized : c.sized) (header : 8 ≤ len) :
    (SizesRefused c payload (len - 8) ↔ SizesExceed c payload ((len : Int) - 8)) ↔
      ¬ SumWraps c payload (len - 8) := by
  have first := sizeField_lt payload 0
  have second := sizeField_lt payload 1
  have third := sizeField_lt payload 2
  have exact_size : ((len - 8 : Nat) : Int) = (len : Int) - 8 := Int.ofNat_sub header
  rw [← exact_size]
  cases c with
  | incr =>
    simp only [SizesRefused, SizesExceed, SumWraps, u32, maxSize, true_and]
    omega
  | set =>
    refine iff_of_true ?_ (fun wraps => by cases wraps.1)
    simp only [SizesRefused, SizesExceed, u32, maxSize]
    omega
  | cas =>
    refine iff_of_true ?_ (fun wraps => by cases wraps.1)
    simp only [SizesRefused, SizesExceed, u32, maxSize]
    omega
  | firstkey => contradiction
  | stats => contradiction
  | _ =>
    refine iff_of_true ?_ (fun wraps => by cases wraps.1)
    simp only [SizesRefused, SizesExceed, Nat.cast_lt]

/-- The payload size is that of the integers, and a guard decides as over the integers, exactly
for frames that have room for a header and, in an INCR, sums that do not wrap. -/
theorem size_checks_exact_iff {t : Transport} (handed : HandedLength t len) (sized : c.sized) (payload : Mem) :
    ((sizeSub len 8 : Nat) : Int) = (len : Int) - 8 ∧
      (GuardRefuses c payload (sizeSub len 8) ↔ SizesExceed c payload ((len : Int) - 8)) ↔
    (t = .tcp → 12 ≤ len + 4) ∧ ¬ SumWraps c payload (len - 8) := by
  have header : (t = .tcp → 12 ≤ len + 4) ↔ 8 ≤ len := by
    cases t with
    | tcp => exact ⟨fun h => by have := h rfl; omega, fun h _ => by omega⟩
    | _ => exact iff_of_true nofun handed
  rw [header, sizeSub_exact_iff]
  refine and_congr_right fun header => ?_
  rw [guardRefuses_iff sized, sizeSub, if_pos header, sizesRefused_iff sized header]

theorem size_checks_exact_iff_incr :
    GuardRefuses .incr (Mem.ofBytes [0, 0, 0xFF, 0xF8]) (sizeSub 100 8) ↔
      SizesExceed .incr (Mem.ofBytes [0, 0, 0xFF, 0xF8]) 92 := by
  have handed : HandedLength .udp 100 := show 8 ≤ 100 by decide
  refine ((size_checks_exact_iff handed rfl (Mem.ofBytes [0, 0, 0xFF, 0xF8])).mpr ⟨nofun, ?_⟩).2
  rintro ⟨_, wraps, _⟩
  exact absurd wraps (by decide)

/-- A key size of 2^32 - 8 passes the guard of INCR, over any transport; and a TCP frame of
nine bytes has a payload size near 2^64. -/
theorem size_checks_wrap :
    (HandedLength .udp 20 ∧ ¬ GuardRefuses .incr (Mem.ofBytes [0xFF, 0xFF, 0xFF, 0xF8]) (sizeSub 20 8) ∧
      SizesExceed .incr (Mem.ofBytes [0xFF, 0xFF, 0xFF, 0xF8]) ((20 : Nat) - 8)) ∧
    HandedLength .tcp 5 ∧ sizeSub 5 8 = 2 ^ 64 - 3 := by
  have key : sizeField (Mem.ofBytes [0xFF, 0xFF, 0xFF, 0xF8]) 0 = 2 ^ 32 - 8 := by decide
  refine ⟨⟨show 8 ≤ 20 by decide, ?_, .inr ?_⟩, admits_of_range (by decide) (by decide), rfl⟩
  · rw [guardRefuses_iff rfl, SizesRefused, key]
    decide
  · rw [key]
    decide

end

end Nmdb
