import Nmdb.Lib.Runs
import Mathlib.Data.List.Basic
import Mathlib.Logic.Function.Basic

/-! Machines side by side, each with labels of its own, and a map whose keys are shared out
among them. If the operations on a key all go to the machine the key belongs to, the
machines together are one map. -/
namespace Sharding

section

variable {I A B : Type} [DecidableEq I]

/-- What concerns one of the machines. -/
def part (i : I) : List (I × A) → List A
  | [] => []
  | (j, a) :: rest => if j = i then a :: part i rest else part i rest

end

section

variable {I S A E : Type} [DecidableEq I] {step : I → S → A → Except E S}

end

section

variable {I K V Op B : Type} [DecidableEq I]

/-- Operations on a map that look at one key and change one key, and put something out. -/
structure Keyed (key : Op → K) (step : (K → V) → Op → (K → V) × List B) : Prop where
  frame : ∀ m o k, k ≠ key o → (step m o).1 k = m k
  here : ∀ m m' o, m (key o) = m' (key o) → (step m o).1 (key o) = (step m' o).1 (key o)
  out : ∀ m m' o, m (key o) = m' (key o) → (step m o).2 = (step m' o).2

variable (step : (K → V) → Op → (K → V) × List B)

def run (m : K → V) : List Op → (K → V) × List B
  | [] => (m, [])
  | o :: rest => ((run (step m o).1 rest).1, (step m o).2 ++ (run (step m o).1 rest).2)

variable {step}

theorem Keyed.congr {key : Op → K} (keyed : Keyed key step) {m m' : K → V} {k : K} (same : m k = m' k) (o : Op) :
    (step m o).1 k = (step m' o).1 k := by
  by_cases here : k = key o
  · subst here
    exact keyed.here m m' o same
  · rw [keyed.frame m o k here, keyed.frame m' o k here]
    exact same

end

end Sharding
