import Mathlib.Logic.Function.Basic

/-! A map with operations waiting in front of it, each on one key. Draining applies them
in order. A cache over the map is coherent if it shows what draining would leave. -/
namespace WriteBehind

section

variable {K V Op : Type} [DecidableEq K] (key : Op → K) (act : Op → Option V → Option V)

def apply (m : K → Option V) (o : Op) : K → Option V :=
  Function.update m (key o) (act o (m (key o)))

def drain (m : K → Option V) (os : List Op) : K → Option V := os.foldl (apply key act) m

def Coherent (cache m : K → Option V) (os : List Op) : Prop :=
  ∀ k v, cache k = some v → drain key act m os k = some v

/-- P holds of every waiting operation and the value it will meet. -/
def Meets (P : Op → Option V → Prop) (m : K → Option V) : List Op → Prop
  | [] => True
  | o :: os => P o (m (key o)) ∧ Meets P (apply key act m o) os

variable {key act}

theorem drain_cons (m : K → Option V) (o : Op) (os : List Op) :
    drain key act m (o :: os) = drain key act (apply key act m o) os := rfl

theorem drain_append (m : K → Option V) (os ps : List Op) :
    drain key act m (os ++ ps) = drain key act (drain key act m os) ps := List.foldl_append

theorem drain_concat (m : K → Option V) (os : List Op) (o : Op) :
    drain key act m (os ++ [o]) = apply key act (drain key act m os) o := drain_append m os [o]

theorem apply_at (m : K → Option V) (o : Op) : apply key act m o (key o) = act o (m (key o)) :=
  Function.update_self ..

theorem apply_other (m : K → Option V) {o : Op} {k : K} (other : k ≠ key o) :
    apply key act m o k = m k := Function.update_of_ne other ..

/-- What an operation leaves at a key depends on that key only. -/
theorem apply_congr {m m' : K → Option V} {k : K} (same : m k = m' k) (o : Op) :
    apply key act m o k = apply key act m' o k := by
  by_cases here : k = key o
  · subst here
    rw [apply_at, apply_at, same]
  · rw [apply_other m here, apply_other m' here, same]

theorem drain_congr {m m' : K → Option V} {k : K} (same : m k = m' k) (os : List Op) :
    drain key act m os k = drain key act m' os k := by
  induction os generalizing m m' with
  | nil => exact same
  | cons o os ih => exact ih (apply_congr same o)

/-- A value that operations can only keep or overwrite: once it is gone, it was
overwritten, and what was there before does not matter. -/
theorem drain_forgets {stuck : Option V → Prop}
    (kept : ∀ o x, stuck x → act o x = x ∨ ∀ y, act o y = act o x)
    {m : K → Option V} {os : List Op} {k : K} (start : stuck (m k))
    (gone : ¬ stuck (drain key act m os k)) (m' : K → Option V) :
    drain key act m' os k = drain key act m os k := by
  induction os generalizing m m' with
  | nil => exact absurd start gone
  | cons o os ih =>
    by_cases here : k = key o
    · subst here
      rcases kept o (m (key o)) start with same | overwrites
      · refine ih ?_ gone _
        rw [apply_at, same]
        exact start
      · refine drain_congr ?_ os
        rw [apply_at, apply_at]
        exact overwrites _
    · refine ih ?_ gone _
      rw [apply_other m here]
      exact start

section

variable {cache cache' m m' : K → Option V} {os : List Op} {o : Op}

theorem Coherent.forget (coherent : Coherent key act cache m os)
    (fewer : ∀ k v, cache' k = some v → cache k = some v) : Coherent key act cache' m os :=
  fun k v held => coherent k v (fewer k v held)

/-- An operation is put behind the waiting ones while the cache takes its effect. -/
theorem Coherent.push (coherent : Coherent key act cache m os)
    (others : ∀ k v, k ≠ key o → cache' k = some v → cache k = some v)
    (here : ∀ v, cache' (key o) = some v → act o (drain key act m os (key o)) = some v) :
    Coherent key act cache' m (os ++ [o]) := by
  intro k v held
  rw [drain_concat]
  by_cases at_key : k = key o
  · subst at_key
    rw [apply_at]
    exact here v held
  · rw [apply_other _ at_key]
    exact coherent k v (others k v at_key held)

/-- The cache takes the very effect at the key. -/
theorem Coherent.push_update (coherent : Coherent key act cache m os) {k : K} {val : Option V}
    (at_key : key o = k) (effect : act o (drain key act m os k) = val) :
    Coherent key act (Function.update cache k val) m (os ++ [o]) := by
  subst at_key
  refine coherent.push (fun k v other held => ?_) fun v held => ?_
  · rwa [Function.update_of_ne other] at held
  · rw [Function.update_self] at held
    exact effect.trans held

theorem Meets.mono {P Q : Op → Option V → Prop} (meets : Meets key act P m os)
    (implies : ∀ o x, P o x → Q o x) : Meets key act Q m os := by
  induction os generalizing m with
  | nil => exact trivial
  | cons o os ih => exact ⟨implies o _ meets.1, ih meets.2⟩

theorem Meets.concat {P : Op → Option V → Prop} (meets : Meets key act P m os)
    (last : P o (drain key act m os (key o))) : Meets key act P m (os ++ [o]) := by
  induction os generalizing m with
  | nil => exact ⟨last, trivial⟩
  | cons p os ih => exact ⟨meets.1, ih meets.2 last⟩

end

end

end WriteBehind
