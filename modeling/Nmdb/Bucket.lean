import Nmdb.Memory
import Nmdb.Libc
import Nmdb.Cache
import Nmdb.Lib.Assoc

/-! What a bucket is for: a recency list of at most CHAINLEN pairs, the newest first,
and the counter the code keeps beside it. After a failed recycling the counter is ahead
of the list; the operations below say what the code then does, faults included. -/
namespace Nmdb

open Assoc

structure Bucket where
  len : Nat
  pairs : List (Bytes × Bytes)
  deriving DecidableEq, Repr

namespace Bucket

def empty : Bucket := ⟨0, []⟩

def get (key : Bytes) (b : Bucket) : Option Bytes := Assoc.get key b.pairs

/-- Both blocks of the recycled pair can be had. -/
def recycles (m : CacheMallocs) (key val : Bytes) (last : Bytes × Bytes) : Bool :=
  (key.length = last.1.length || m.key) && (val.length = last.2.length || m.val)

def insertFull (m : CacheMallocs) (key val : Bytes) (b : Bucket) : Except Fault (Int × Bucket) :=
  match b.pairs.getLast? with
  | none => .error .nullDeref
  | some last =>
    if b.pairs.length = 1 then .error .nullDeref
    else if recycles m key val last then
      .ok (0, { b with pairs := (key, val) :: b.pairs.dropLast })
    else .ok (-1, { b with pairs := b.pairs.dropLast })

def insertNew (m : CacheMallocs) (key val : Bytes) (b : Bucket) : Except Fault (Int × Bucket) :=
  if !m.key then .error .badFree
  else if !m.val then .ok (-1, b)
  else if 0 < b.len ∧ b.pairs = [] then .error .nullDeref
  else .ok (0, ⟨b.len + 1, (key, val) :: b.pairs⟩)

def set (m : CacheMallocs) (key val : Bytes) (b : Bucket) : Except Fault (Int × Bucket) :=
  match Assoc.get key b.pairs with
  | some old =>
    if val.length = old.length || m.val then
      .ok (0, { b with pairs := (key, val) :: eraseKey key b.pairs })
    else .ok (-1, b)
  | none => if b.len = CHAINLEN then insertFull m key val b else insertNew m key val b

def del (key : Bytes) (b : Bucket) : Except Fault (Int × Bucket) :=
  match Assoc.get key b.pairs with
  | some _ => .ok (1, ⟨b.len - 1, eraseKey key b.pairs⟩)
  | none => .ok (0, b)

def cas (m : CacheMallocs) (key oldval newval : Bytes) (b : Bucket) :
    Except Fault (Int × Bucket) :=
  match Assoc.get key b.pairs with
  | none => .ok (-2, b)
  | some v =>
    if v ≠ oldval then .ok (-1, b)
    else if oldval.length = newval.length || m.val then
      .ok (0, { b with pairs := replace key newval b.pairs })
    else .ok (-3, b)

/-- The text an increment leaves in place of a value. -/
def incrText (v : Bytes) (n : Int) : Bytes := padded n ++ [0] ++ v.drop 24

def incr (m : CacheMallocs) (key : Bytes) (increment : Int) (b : Bucket) :
    Except Fault ((Int × Int) × Bucket) :=
  match Assoc.get key b.pairs with
  | none => .ok ((-1, 0), b)
  | some v =>
    match v.getLast? with
    | none => .error .outOfBounds
    | some c =>
      if c ≠ 0 then .ok ((-2, 0), b)
      else
        let n := wrap64 (strtoll v + increment)
        if 24 ≤ v.length || m.val then
          .ok ((0, n), { b with pairs := replace key (incrText v n) b.pairs })
        else .ok ((-3, 0), b)

section

variable {b b' : Bucket} {m : CacheMallocs} {key val oldval newval : Bytes} {increment rv n : Int}

/- What a set can do to its bucket. -/
theorem set_cases (done : b.set m key val = .ok (rv, b')) :
    (∃ old, rv = 0 ∧ b.get key = some old ∧ b' = ⟨b.len, (key, val) :: eraseKey key b.pairs⟩) ∨
    (rv = 0 ∧ b.get key = none ∧ b.len = CHAINLEN ∧
      b' = ⟨b.len, (key, val) :: b.pairs.dropLast⟩) ∨
    (rv = 0 ∧ b.get key = none ∧ b.len ≠ CHAINLEN ∧ b' = ⟨b.len + 1, (key, val) :: b.pairs⟩) ∨
    (rv = -1 ∧ b' = b) ∨
    (rv = -1 ∧ b.get key = none ∧ b.len = CHAINLEN ∧ b' = ⟨b.len, b.pairs.dropLast⟩) := by
  unfold set at done
  cases found : Assoc.get key b.pairs with
  | some old =>
    simp only [found] at done
    split at done
    · cases done
      exact .inl ⟨old, rfl, found, rfl⟩
    · cases done
      exact .inr (.inr (.inr (.inl ⟨rfl, rfl⟩)))
  | none =>
    simp only [found] at done
    by_cases full : b.len = CHAINLEN
    · rw [if_pos full, insertFull] at done
      split at done
      · contradiction
      · split at done
        · contradiction
        · split at done
          · cases done
            exact .inr (.inl ⟨rfl, found, full, rfl⟩)
          · cases done
            exact .inr (.inr (.inr (.inr ⟨rfl, found, full, rfl⟩)))
    · rw [if_neg full, insertNew] at done
      split at done
      · contradiction
      · split at done
        · cases done
          exact .inr (.inr (.inr (.inl ⟨rfl, rfl⟩)))
        · split at done
          · contradiction
          · cases done
            exact .inr (.inr (.inl ⟨rfl, found, full, rfl⟩))

theorem del_cases (done : b.del key = .ok (rv, b')) :
    (∃ v, rv = 1 ∧ b.get key = some v ∧ b' = ⟨b.len - 1, eraseKey key b.pairs⟩) ∨
    (rv = 0 ∧ b.get key = none ∧ b' = b) := by
  unfold del at done
  cases found : Assoc.get key b.pairs with
  | some v =>
    simp only [found] at done
    cases done
    exact .inl ⟨v, rfl, found, rfl⟩
  | none =>
    simp only [found] at done
    cases done
    exact .inr ⟨rfl, found, rfl⟩

theorem cas_cases (done : b.cas m key oldval newval = .ok (rv, b')) :
    (rv = -2 ∧ b.get key = none ∧ b' = b) ∨
    (∃ v, rv = -1 ∧ b.get key = some v ∧ v ≠ oldval ∧ b' = b) ∨
    (rv = 0 ∧ b.get key = some oldval ∧ b' = ⟨b.len, replace key newval b.pairs⟩) ∨
    (rv = -3 ∧ b.get key = some oldval ∧ b' = b) := by
  unfold cas at done
  cases found : Assoc.get key b.pairs with
  | none =>
    simp only [found] at done
    cases done
    exact .inl ⟨rfl, found, rfl⟩
  | some v =>
    simp only [found] at done
    by_cases same : v = oldval
    · subst same
      rw [if_neg (not_not_intro rfl)] at done
      split at done
      · cases done
        exact .inr (.inr (.inl ⟨rfl, found, rfl⟩))
      · cases done
        exact .inr (.inr (.inr ⟨rfl, found, rfl⟩))
    · rw [if_pos same] at done
      cases done
      exact .inr (.inl ⟨v, rfl, found, same, rfl⟩)

theorem incr_cases (done : b.incr m key increment = .ok ((rv, n), b')) :
    (rv = -1 ∧ b.get key = none ∧ b' = b) ∨
    (∃ v, rv = -2 ∧ b.get key = some v ∧ v.getLast? ≠ some 0 ∧ b' = b) ∨
    (∃ v, rv = 0 ∧ n = wrap64 (strtoll v + increment) ∧ b.get key = some v ∧ v.getLast? = some 0 ∧
      b' = ⟨b.len, replace key (incrText v n) b.pairs⟩) ∨
    (∃ v, rv = -3 ∧ b.get key = some v ∧ b' = b) := by
  unfold incr at done
  cases found : Assoc.get key b.pairs with
  | none =>
    simp only [found] at done
    cases done
    exact .inl ⟨rfl, found, rfl⟩
  | some v =>
    simp only [found] at done
    cases last : v.getLast? with
    | none =>
      simp only [last] at done
      contradiction
    | some c =>
      simp only [last] at done
      by_cases nul : c = 0
      · subst nul
        rw [if_neg (not_not_intro rfl)] at done
        split at done
        · cases done
          exact .inr (.inr (.inl ⟨v, rfl, rfl, found, last, rfl⟩))
        · cases done
          exact .inr (.inr (.inr ⟨v, rfl, found, rfl⟩))
      · rw [if_pos nul] at done
        cases done
        exact .inr (.inl ⟨v, rfl, found, by simp [last, nul], rfl⟩)

end

end Bucket

end Nmdb
