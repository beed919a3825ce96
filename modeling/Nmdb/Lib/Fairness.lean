import Nmdb.Lib.Runs
import Mathlib.Order.WellFounded

/-! Goals that a machine reaches under every fair schedule. In each stage on the way there
is one label that helps: it leads to an earlier stage, and no other label leads elsewhere. -/
namespace Runs

section

variable {S A E : Type}

/-- The first labels of a schedule. -/
def first (schedule : ℕ → A) : ℕ → List A
  | 0 => []
  | n + 1 => schedule 0 :: first (fun i => schedule (i + 1)) n

/-- The label comes up again and again. -/
def Fair (schedule : ℕ → A) (a : A) : Prop := ∀ i, ∃ j, i ≤ j ∧ schedule j = a

theorem Fair.tail {schedule : ℕ → A} {a : A} (fair : Fair schedule a) :
    Fair (fun i => schedule (i + 1)) a := by
  intro i
  obtain ⟨j, later, here⟩ := fair (i + 1)
  obtain ⟨k, rfl⟩ := Nat.exists_eq_add_of_le' (Nat.le_trans (Nat.le_add_left 1 i) later)
  exact ⟨k, Nat.le_of_succ_le_succ later, here⟩

theorem mem_first {schedule : ℕ → A} {n : ℕ} {a : A} (member : a ∈ first schedule n) :
    ∃ i, a = schedule i := by
  induction n generalizing schedule with
  | zero => contradiction
  | succ n ih =>
    rcases List.mem_cons.mp member with rfl | later
    · exact ⟨0, rfl⟩
    · obtain ⟨i, rfl⟩ := ih later
      exact ⟨i + 1, rfl⟩

theorem first_add (schedule : ℕ → A) (m n : ℕ) :
    first schedule (m + n) = first schedule m ++ first (fun i => schedule (m + i)) n := by
  induction m generalizing schedule with
  | zero => simp only [Nat.zero_add, first, List.nil_append]
  | succ m ih =>
    rw [Nat.succ_add, first, first, ih, List.cons_append]
    simp only [Nat.succ_add]

variable {step : S → A → Except E S}

/-- Where the first labels lead to rest, and the others leave it, a condition is met by all. -/
theorem along_rest {P : S → A → Prop} {schedule : ℕ → A} {s t : S} {m : ℕ}
    (ran : run step s (first schedule m) = .ok t) (early : Along step P s (first schedule m))
    (rests : ∀ i, m ≤ i → step t (schedule i) = .ok t) (late : ∀ i, m ≤ i → P t (schedule i)) (n : ℕ) :
    Along step P s (first schedule n) := by
  have later : ∀ n k, m ≤ k → Along step P t (first (fun i => schedule (k + i)) n) := by
    intro n
    induction n with
    | zero => exact fun _ _ => trivial
    | succ n ih =>
      intro k after
      refine ⟨late k after, fun u taken => ?_⟩
      cases (rests k after).symm.trans taken
      have next := ih (k + 1) (Nat.le_succ_of_le after)
      simp only [Nat.add_right_comm k 1, Nat.add_assoc] at next
      simpa only [Nat.add_assoc] using next
  rcases Nat.le_total n m with short | long
  · obtain ⟨k, rfl⟩ := Nat.exists_eq_add_of_le short
    rw [first_add] at early
    exact (along_append.mp early).1
  · obtain ⟨k, rfl⟩ := Nat.exists_eq_add_of_le long
    rw [first_add]
    apply along_append.mpr
    refine ⟨early, fun u same => ?_⟩
    cases ran.symm.trans same
    exact later k m (Nat.le_refl m)

/-- A condition that each label meets in every state. -/
theorem Along.of_labels {P : S → A → Prop} {as : List A} (always : ∀ a ∈ as, ∀ s, P s a) (s : S) :
    Along step P s as := by
  induction as generalizing s with
  | nil => exact trivial
  | cons a rest ih =>
    constructor
    · exact always a List.mem_cons_self s
    · intro t _
      exact ih (fun b hb => always b (List.mem_cons_of_mem a hb)) t

variable {R : Type} [Preorder R] [WellFoundedLT R] {Goal : S → Prop} {P : S → A → Prop}

theorem reach_next {schedule : ℕ → A} {s t : S} (taken : step s (schedule 0) = .ok t)
    (reach : ∃ n u, run step t (first (fun i => schedule (i + 1)) n) = .ok u ∧ Goal u) :
    ∃ n u, run step s (first schedule n) = .ok u ∧ Goal u := by
  obtain ⟨n, u, ran, goal⟩ := reach
  exact ⟨n + 1, u, (run_cons_ok taken).trans ran, goal⟩

/-- Stages are ranked, and each names the label that helps. Under its condition a step reaches
the goal or an earlier stage, or it is not the one that helps and stays in the stage. -/
theorem eventually (Stage : R → A → S → Prop)
    (progress : ∀ r h s a, Stage r h s → P s a → ∃ t, step s a = .ok t ∧
      (Goal t ∨ (∃ r' h', r' < r ∧ Stage r' h' t) ∨ a ≠ h ∧ Stage r h t))
    {schedule : ℕ → A} (fair : ∀ r h s, Stage r h s → Fair schedule h) {r : R} {h : A} {s : S}
    (cond : ∀ n, Along step P s (first schedule n)) (initial : Stage r h s) :
    ∃ n t, run step s (first schedule n) = .ok t ∧ Goal t := by
  induction r using WellFoundedLT.induction generalizing h s schedule with
  | ind r earlier =>
    -- the label that helps is j steps away
    obtain ⟨j, _, helps⟩ := fair r h s initial 0
    induction j generalizing s schedule with
    | zero =>
      obtain ⟨t, taken, next⟩ := progress r h s (schedule 0) initial (cond 1).1
      apply reach_next taken
      rcases next with goal | ⟨r', h', less, stage⟩ | ⟨other, _⟩
      · exact ⟨0, t, rfl, goal⟩
      · exact earlier r' less (fun r h s stage => (fair r h s stage).tail)
          (fun n => (cond (n + 1)).2 t taken) stage
      · exact absurd helps other
    | succ j nearer =>
      obtain ⟨t, taken, next⟩ := progress r h s (schedule 0) initial (cond 1).1
      apply reach_next taken
      rcases next with goal | ⟨r', h', less, stage⟩ | ⟨_, stage⟩
      · exact ⟨0, t, rfl, goal⟩
      · exact earlier r' less (fun r h s stage => (fair r h s stage).tail)
          (fun n => (cond (n + 1)).2 t taken) stage
      · exact nearer (fun r h s stage => (fair r h s stage).tail)
          (fun n => (cond (n + 1)).2 t taken) stage (Nat.zero_le j) helps

end

end Runs
