/-! Runs of a deterministic machine whose steps may fault. A run is a list of
labels; it stops at the first fault. The rules below turn facts about one step
into facts about every run, and a condition on the steps into a condition on runs. -/
namespace Runs

section

variable {S A E : Type} (step : S → A → Except E S)

def run (s : S) : List A → Except E S
  | [] => .ok s
  | a :: rest =>
    match step s a with
    | .ok t => run t rest
    | .error e => .error e

/-- P holds of the state and label of every step the run takes. -/
def Along (P : S → A → Prop) (s : S) : List A → Prop
  | [] => True
  | a :: rest => P s a ∧ ∀ t, step s a = .ok t → Along P t rest

variable {step}

theorem run_cons_ok {s t : S} {a : A} {rest : List A} (taken : step s a = .ok t) :
    run step s (a :: rest) = run step t rest := by
  simp only [run, taken]

theorem run_cons_inv {s t : S} {a : A} {rest : List A} (ran : run step s (a :: rest) = .ok t) :
    ∃ u, step s a = .ok u ∧ run step u rest = .ok t := by
  unfold run at ran
  split at ran
  · rename_i u taken
    exact ⟨u, taken, ran⟩
  · contradiction

theorem run_append (s : S) (as bs : List A) :
    run step s (as ++ bs) =
      match run step s as with
      | .ok t => run step t bs
      | .error e => .error e := by
  induction as generalizing s with
  | nil => rfl
  | cons a rest ih =>
    simp only [List.cons_append, run]
    cases step s a with
    | error e => rfl
    | ok t => exact ih t

theorem run_append_inv {s t : S} {as bs : List A} (ran : run step s (as ++ bs) = .ok t) :
    ∃ u, run step s as = .ok u ∧ run step u bs = .ok t := by
  rw [run_append] at ran
  split at ran
  case h_1 u reached => exact ⟨u, reached, ran⟩
  case h_2 => contradiction

/-- Steps that correspond make runs that do. -/
theorem run_map {T B : Type} {step' : T → B → Except E T} {f : S → T} {g : A → B}
    (same : ∀ s a, step' (f s) (g a) = f <$> step s a) (s : S) (as : List A) :
    run step' (f s) (as.map g) = f <$> run step s as := by
  induction as generalizing s with
  | nil => rfl
  | cons a rest ih =>
    rw [List.map_cons, run, run, same]
    cases step s a with
    | error e => rfl
    | ok t => exact ih t

instance Along.decidable (P : S → A → Prop) [∀ s a, Decidable (P s a)] :
    (s : S) → (as : List A) → Decidable (Along step P s as)
  | _, [] => .isTrue trivial
  | s, a :: rest =>
    match taken : step s a with
    | .ok t =>
      have := decidable P t rest
      decidable_of_iff (P s a ∧ Along step P t rest)
        (and_congr_right fun _ => ⟨fun later u other => by
          cases taken.symm.trans other
          exact later, fun each => each t taken⟩)
    | .error _ =>
      decidable_of_iff (P s a)
        ⟨fun here => ⟨here, fun u other => by cases taken.symm.trans other⟩, And.left⟩

theorem Along.mono {P Q : S → A → Prop} (implies : ∀ s a, P s a → Q s a) {s : S} {as : List A}
    (h : Along step P s as) : Along step Q s as := by
  induction as generalizing s with
  | nil => exact trivial
  | cons a rest ih => exact ⟨implies s a h.1, fun t ht => ih (h.2 t ht)⟩

theorem Along.always {P : S → A → Prop} (always : ∀ s a, P s a) (s : S) (as : List A) :
    Along step P s as := by
  induction as generalizing s with
  | nil => exact trivial
  | cons a rest ih => exact ⟨always s a, fun t _ => ih t⟩

theorem along_append {P : S → A → Prop} {s : S} {as bs : List A} :
    Along step P s (as ++ bs) ↔ Along step P s as ∧ ∀ t, run step s as = .ok t → Along step P t bs := by
  induction as generalizing s with
  | nil => exact ⟨fun later => ⟨trivial, fun t same => by cases same; exact later⟩, fun both => both.2 s rfl⟩
  | cons a rest ih =>
    constructor
    · rintro ⟨here, each⟩
      refine ⟨⟨here, fun u taken => (ih.mp (each u taken)).1⟩, fun t ran => ?_⟩
      obtain ⟨u, taken, tail⟩ := run_cons_inv ran
      exact (ih.mp (each u taken)).2 t tail
    · rintro ⟨⟨here, each⟩, later⟩
      refine ⟨here, fun u taken => ih.mpr ⟨each u taken, fun t tail => ?_⟩⟩
      exact later t ((run_cons_ok taken).trans tail)

/-- It holds along a run if it does wherever the run is cut. -/
theorem along_iff_cuts {P : S → A → Prop} {s : S} {as : List A} :
    Along step P s as ↔ ∀ before a after t, as = before ++ a :: after → run step s before = .ok t → P t a := by
  constructor
  · rintro along before a after t rfl ran
    exact ((along_append.mp along).2 t ran).1
  · intro cuts
    induction as generalizing s with
    | nil => exact trivial
    | cons a rest ih =>
      refine ⟨cuts [] a rest s rfl rfl, fun t taken => ih fun before b after u same ran => ?_⟩
      exact cuts (a :: before) b after u (congrArg (a :: ·) same) ((run_cons_ok taken).trans ran)

/-- A condition on the labels alone holds at every step. -/
theorem Along.labels {P : S → A → Prop} {Q : A → Prop} {s : S} {as : List A}
    (labels : ∀ a ∈ as, Q a) (h : Along step P s as) : Along step (fun s a => Q a ∧ P s a) s as := by
  induction as generalizing s with
  | nil => exact trivial
  | cons a rest ih =>
    have tail : ∀ b ∈ rest, Q b := fun b hb => labels b (List.mem_cons_of_mem a hb)
    exact ⟨⟨labels a List.mem_cons_self, h.1⟩, fun t ht => ih tail (h.2 t ht)⟩

/-- What each step preserves under its condition, the run preserves. -/
theorem run_invariant {Inv : S → Prop} {P : S → A → Prop}
    (preserves : ∀ s a t, Inv s → P s a → step s a = .ok t → Inv t)
    {s t : S} {as : List A} (initial : Inv s) (cond : Along step P s as)
    (ran : run step s as = .ok t) : Inv t := by
  induction as generalizing s with
  | nil =>
    cases ran
    exact initial
  | cons a rest ih =>
    obtain ⟨u, taken, tail⟩ := run_cons_inv ran
    exact ih (preserves s a u initial cond.1 taken) (cond.2 u taken) tail

/-- A run whose steps cannot fault under their condition ends in a state. -/
theorem run_total {Inv : S → Prop} {P : S → A → Prop}
    (progress : ∀ s a, Inv s → P s a → ∃ t, step s a = .ok t ∧ Inv t)
    {s : S} {as : List A} (initial : Inv s) (cond : Along step P s as) :
    ∃ t, run step s as = .ok t ∧ Inv t := by
  induction as generalizing s with
  | nil => exact ⟨s, rfl, initial⟩
  | cons a rest ih =>
    obtain ⟨u, taken, hu⟩ := progress s a initial cond.1
    rw [run_cons_ok taken]
    exact ih hu (cond.2 u taken)

/-- Where, on invariant states, a step has a property exactly under a condition
that also keeps the invariant, a run has it throughout exactly under that condition. -/
theorem along_iff {Inv : S → Prop} {P C : S → A → Prop}
    (exact_step : ∀ s a, Inv s → (P s a ↔ C s a))
    (preserves : ∀ s a t, Inv s → C s a → step s a = .ok t → Inv t)
    {s : S} (initial : Inv s) (as : List A) : Along step P s as ↔ Along step C s as := by
  induction as generalizing s with
  | nil => exact Iff.rfl
  | cons a rest ih =>
    have here := exact_step s a initial
    constructor
    · rintro ⟨hp, tail⟩
      have hc := here.mp hp
      exact ⟨hc, fun t ht => (ih (preserves s a t initial hc ht)).mp (tail t ht)⟩
    · rintro ⟨hc, tail⟩
      exact ⟨here.mpr hc, fun t ht => (ih (preserves s a t initial hc ht)).mpr (tail t ht)⟩

end

/-- A relation that matching steps keep, outcomes of faulting steps included. -/
def Agree {S T E : Type} (R : S → T → Prop) : Except E S → Except E T → Prop
  | .ok s, .ok t => R s t
  | .error e, .error f => e = f
  | _, _ => False

theorem Agree.bind {S T U V E : Type} {P : S → T → Prop} {Q : U → V → Prop} {x : Except E S} {y : Except E T}
    {k : S → Except E U} {l : T → Except E V} (first : Agree P x y)
    (rest : ∀ a b, P a b → Agree Q (k a) (l b)) : Agree Q (x >>= k) (y >>= l) := by
  cases x with
  | error e =>
    cases y with
    | error e' => exact first
    | ok b => exact first.elim
  | ok a =>
    cases y with
    | error e => exact first.elim
    | ok b => exact rest a b first

theorem Agree.given {S U V E : Type} {Q : U → V → Prop} {x : Except E S} {k : S → Except E U} {l : S → Except E V}
    (rest : ∀ a, x = .ok a → Agree Q (k a) (l a)) : Agree Q (x >>= k) (x >>= l) := by
  cases x with
  | error e => rfl
  | ok a => exact rest a rfl

theorem Agree.same {S U V E : Type} {Q : U → V → Prop} (x : Except E S) {k : S → Except E U} {l : S → Except E V}
    (rest : ∀ a, Agree Q (k a) (l a)) : Agree Q (x >>= k) (x >>= l) := Agree.given fun a _ => rest a

theorem Agree.ite {U V E : Type} {Q : U → V → Prop} {c : Prop} [Decidable c] {x x' : Except E U} {y y' : Except E V}
    (yes : Agree Q x y) (no : Agree Q x' y') : Agree Q (if c then x else x') (if c then y else y') := by
  split
  · exact yes
  · exact no

theorem Agree.mono {S T E : Type} {R Q : S → T → Prop} {x : Except E S} {y : Except E T} (agree : Agree R x y)
    (implies : ∀ a b, R a b → Q a b) : Agree Q x y := by
  cases x with
  | error e =>
    cases y with
    | error e' => exact agree
    | ok b => exact agree
  | ok a =>
    cases y with
    | error e => exact agree
    | ok b => exact implies a b agree

/-- Both fault with the same fault, or neither does. -/
theorem Agree.outcomes {S T E : Type} {R : S → T → Prop} {x : Except E S} {y : Except E T} (agree : Agree R x y) :
    (∃ e, x = .error e ∧ y = .error e) ∨ ∃ a b, x = .ok a ∧ y = .ok b ∧ R a b := by
  cases x with
  | error e =>
    cases y with
    | error e' => exact .inl ⟨e, rfl, congrArg Except.error (show e = e' from agree).symm⟩
    | ok b => exact agree.elim
  | ok a =>
    cases y with
    | error e => exact agree.elim
    | ok b => exact .inr ⟨a, b, rfl, rfl, agree⟩

/-- Steps that agree make runs that do. -/
theorem Agree.run {S T A E : Type} {step : S → A → Except E S} {step' : T → A → Except E T} {R : S → T → Prop}
    {P : A → Prop} (steps : ∀ s t a, R s t → P a → Agree R (step s a) (step' t a)) {s : S} {t : T} {as : List A}
    (here : R s t) (labels : ∀ a ∈ as, P a) : Agree R (Runs.run step s as) (Runs.run step' t as) := by
  induction as generalizing s t with
  | nil => exact here
  | cons a rest ih =>
    have later : ∀ b ∈ rest, P b := fun b member => labels b (List.mem_cons_of_mem a member)
    unfold Runs.run
    rcases (steps s t a here (labels a List.mem_cons_self)).outcomes with ⟨e, fault, fault'⟩ | ⟨u, v, moved, moved', next⟩
    · rw [fault, fault']
      rfl
    · rw [moved, moved']
      exact ih next later

end Runs
