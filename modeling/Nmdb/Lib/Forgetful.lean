import Mathlib.Data.List.Forall2
import Nmdb.Lib.WriteBehind

/-! A map that may forget. Each operation is on one key and answers from its binding; while
the map is full it may lose bindings of other keys. Beside a map that forgets nothing it
shows no other value, and it answers as that map does or as if the key were missing. -/
namespace Forgetful

open WriteBehind

variable {K V Op A B : Type} [DecidableEq K] (key : Op → K) (act : Op → Option V → Option V × A)

/-- The map that forgets nothing, after an operation. -/
def after (m : K → Option V) (o : Op) : K → Option V := apply key (fun o x => (act o x).1) m o

def run : (K → Option V) → List Op → (K → Option V) × List A
  | m, [] => (m, [])
  | m, o :: os => ((run (after key act m o) os).1, (act o (m (key o))).2 :: (run (after key act m o) os).2)

/-- P holds of the map that forgets nothing before every operation. -/
def Along (P : (K → Option V) → Op → Prop) : (K → Option V) → List Op → Prop
  | _, [] => True
  | m, o :: os => P m o ∧ Along P (after key act m o) os

/-- An operation of the map that may forget, and a reply that tells its answer. -/
structure Step (full : (K → Option V) → Op → Prop) (tells : A → B → Prop) (m : K → Option V) (o : Op) (b : B)
    (n : K → Option V) : Prop where
  answer : tells (act o (m (key o))).2 b
  here : n (key o) = (act o (m (key o))).1
  others : ∀ k v, k ≠ key o → n k = some v → m k = some v
  kept : ¬ full m o → ∀ k, k ≠ key o → n k = m k

inductive Run (full : (K → Option V) → Op → Prop) (tells : A → B → Prop) :
    (K → Option V) → List Op → List B → (K → Option V) → Prop
  | nil {m : K → Option V} : Run full tells m [] [] m
  | cons {m n p : K → Option V} {o : Op} {os : List Op} {b : B} {bs : List B} (step : Step key act full tells m o b n)
      (rest : Run full tells n os bs p) : Run full tells m (o :: os) (b :: bs) p

def Part (m n : K → Option V) : Prop := ∀ k v, m k = some v → n k = some v

/-- What an operation makes of no binding it makes of any. -/
def Blind : Prop := ∀ o v, (act o none).1 = some v → ∀ x, (act o x).1 = some v

variable {key act} {full : (K → Option V) → Op → Prop} {tells : A → B → Prop} {m n p : K → Option V} {o : Op}
  {os : List Op} {b : B} {bs : List B}

theorem Step.of_update {v : Option V} {a : A} (done : act o (m (key o)) = (v, a)) (told : tells a b)
    (changed : n = Function.update m (key o) v) : Step key act full tells m o b n := by
  subst changed
  refine ⟨by rwa [done], by rw [done, Function.update_self], fun k v other held => ?_, fun _ k other => ?_⟩
  · rwa [Function.update_of_ne other] at held
  · exact Function.update_of_ne other ..

theorem Step.of_same {a : A} (done : act o (m (key o)) = (m (key o), a)) (told : tells a b) :
    Step key act full tells m o b m :=
  .of_update done told (Function.update_eq_self ..).symm

theorem Step.part (step : Step key act full tells m o b n) (blind : Blind act) (part : Part m p) :
    Part n (after key act p o) := by
  intro k v held
  by_cases here : k = key o
  · subst here
    rw [step.here] at held
    rw [after, apply_at]
    cases before : m (key o) with
    | none =>
      rw [before] at held
      exact blind o v held _
    | some w =>
      rw [before] at held
      rw [part _ w before]
      exact held
  · rw [after, apply_other _ here]
    exact part k v (step.others k v here held)

omit [DecidableEq K] in
theorem Step.told (step : Step key act full tells m o b n) (part : Part m p) :
    tells (act o (p (key o))).2 b ∨ tells (act o none).2 b := by
  have told := step.answer
  cases before : m (key o) with
  | none =>
    rw [before] at told
    exact .inr told
  | some v =>
    rw [before] at told
    rw [part _ v before]
    exact .inl told

theorem Step.exact (step : Step key act full tells m o b n) (room : ¬ full m o) : n = after key act m o := by
  funext k
  by_cases here : k = key o
  · subst here
    rw [step.here, after, apply_at]
  · rw [step.kept room k here, after, apply_other _ here]

theorem Run.part (ran : Run key act full tells m os bs n) (blind : Blind act) (part : Part m p) :
    Part n (run key act p os).1 ∧
      List.Forall₂ (fun x b => tells x.2 b ∨ tells (act x.1 none).2 b) (os.zip (run key act p os).2) bs := by
  induction ran generalizing p with
  | nil => exact ⟨part, .nil⟩
  | cons step _ ih =>
    obtain ⟨last, told⟩ := ih (step.part blind part)
    exact ⟨last, .cons (step.told part) told⟩

/-- Nothing is lost while there is room. -/
theorem Run.exact (ran : Run key act full tells m os bs n) (room : Along key act (fun m o => ¬ full m o) m os) :
    n = (run key act m os).1 ∧ List.Forall₂ tells (run key act m os).2 bs := by
  induction ran with
  | nil => exact ⟨rfl, .nil⟩
  | cons step _ ih =>
    have same := step.exact room.1
    obtain ⟨last, told⟩ := ih (same ▸ room.2)
    rw [same] at last told
    exact ⟨last, .cons step.answer told⟩

end Forgetful
