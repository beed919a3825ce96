import Nmdb.Words

/-! Memory blocks and the library calls on them. A call whose behaviour C leaves
undefined is a fault, and a run ends there. -/
namespace Nmdb

inductive Fault where
  | nullDeref
  | badFree
  | outOfBounds
  | uninitialised
  | divByZero
  | diverges
  deriving DecidableEq, Repr

@[simp] theorem ok_bind {α β : Type} (a : α) (f : α → Except Fault β) :
    (Except.ok a >>= f) = f a := rfl

@[simp] theorem pure_ok {α : Type} (a : α) : (pure a : Except Fault α) = .ok a := rfl

@[simp] theorem error_bind {α β : Type} (e : Fault) (f : α → Except Fault β) :
    (Except.error e >>= f) = .error e := rfl

theorem bind_eq_ok {α β : Type} {x : Except Fault α} {f : α → Except Fault β} {b : β} :
    x >>= f = .ok b ↔ ∃ a, x = .ok a ∧ f a = .ok b := by
  cases x with
  | error e => simp
  | ok a => simp

/-- Both ways out of a branch come to an end. -/
theorem total_ite {α : Type} {c : Prop} [Decidable c] {x y : Except Fault α} (yes : ∃ a, x = .ok a)
    (no : ∃ a, y = .ok a) : ∃ a, (if c then x else y) = .ok a := by
  split
  · exact yes
  · exact no

/-- A pointer to a block of its own: NULL, what malloc() returned, or freed memory. -/
inductive Ptr where
  | null
  | block (b : Bytes)
  | dangling
  deriving DecidableEq, Repr

/-- Fresh memory holds no particular bytes. -/
def indeterminate : UInt8 := 0xA5

def malloc (ok : Bool) (n : Nat) : Ptr :=
  if ok then .block (List.replicate n indeterminate) else .null

def free : Ptr → Except Fault Unit
  | .null => .ok ()
  | .block _ => .ok ()
  | .dangling => .error .badFree

def memcpy (dst : Ptr) (src : Bytes) : Except Fault Ptr :=
  match dst with
  | .block b => if src.length ≤ b.length then .ok (.block (src ++ b.drop src.length)) else .error .outOfBounds
  | .null => .error .nullDeref
  | .dangling => .error .nullDeref

def Ptr.read (p : Ptr) (n : Nat) : Except Fault Bytes :=
  match p with
  | .block b => if n ≤ b.length then .ok (b.take n) else .error .outOfBounds
  | .null => .error .nullDeref
  | .dangling => .error .nullDeref

/-- The byte at an index, which may be negative. -/
def Ptr.byteAt (p : Ptr) (i : Int) : Except Fault UInt8 :=
  match p with
  | .block b => if 0 ≤ i ∧ i < b.length then .ok (b.getD i.toNat 0) else .error .outOfBounds
  | .null => .error .nullDeref
  | .dangling => .error .nullDeref

/-- memcmp(a, p, length of a) == 0 -/
def memEq (a : Bytes) (p : Ptr) : Except Fault Bool := do
  let b ← p.read a.length
  return a = b

@[simp] theorem malloc_false (n : Nat) : malloc false n = .null := rfl

@[simp] theorem malloc_true (n : Nat) :
    malloc true n = .block (List.replicate n indeterminate) := rfl

@[simp] theorem free_block (b : Bytes) : free (.block b) = .ok () := rfl

/-- Copying over a whole block leaves none of its old bytes. -/
theorem memcpy_whole {b src : Bytes} (same : b.length = src.length) :
    memcpy (.block b) src = .ok (.block src) := by
  have fits : src.length ≤ b.length := Nat.le_of_eq same.symm
  rw [memcpy, if_pos fits, List.drop_of_length_le (Nat.le_of_eq same), List.append_nil]

@[simp] theorem memcpy_fresh (src : Bytes) :
    memcpy (.block (List.replicate src.length indeterminate)) src = .ok (.block src) :=
  memcpy_whole (by simp)

@[simp] theorem read_block (b : Bytes) : (Ptr.block b).read b.length = .ok b := by
  simp [Ptr.read]

theorem memEq_block {a b : Bytes} (same : a.length = b.length) :
    memEq a (.block b) = .ok (decide (a = b)) := by
  simp [memEq, same]

theorem byteAt_last {b : Bytes} (nonempty : b ≠ []) :
    (Ptr.block b).byteAt ((b.length : Int) - 1) = .ok (b.getLast nonempty) := by
  have pos := List.length_pos_iff.mpr nonempty
  have inside : 0 ≤ (b.length : Int) - 1 ∧ (b.length : Int) - 1 < b.length := by omega
  have index : ((b.length : Int) - 1).toNat = b.length - 1 := by omega
  simp only [Ptr.byteAt, if_pos inside, index, List.getLast_eq_getElem]
  rw [List.getD_eq_getElem?_getD, List.getElem?_eq_getElem (by omega), Option.getD_some]

end Nmdb
