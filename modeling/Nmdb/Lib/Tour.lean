import Nmdb.Lib.KeyOrder
import Nmdb.Lib.Runs

/-! A walk through an ordered set that others change meanwhile. The next element is looked for
beyond the last one visited; where that one is gone by then, the first element beyond it is
passed over. The walk finds what is there all the time, but for what it passes over. -/
namespace KeyOrder

variable {K : Type} [LinearOrder K]

/-- The set as it is now, what has been visited, and the answer on its way: an element, or
that there is none. -/
structure Tour (K : Type) where
  now : Set K
  visited : List K
  answer : Option (Option K)

/-- Beyond the last one visited lies what is beyond all of them. -/
theorem beyond_concat {S : Set K} {l : List K} {last : K} (increasing : (l ++ [last]).Pairwise (· < ·)) :
    beyond S (l ++ [last]) = {x ∈ S | last < x} := by
  obtain ⟨_, _, below⟩ := List.pairwise_append.mp increasing
  ext x
  constructor
  · rintro ⟨member, greater⟩
    exact ⟨member, greater last (by simp)⟩
  · rintro ⟨member, greater⟩
    refine ⟨member, fun y visited => ?_⟩
    rcases List.mem_append.mp visited with before | here
    · exact (below y before last (by simp)).trans greater
    · rwa [List.mem_singleton.mp here]

namespace Tour

inductive Label where
  | change
  | look
  | hear
  deriving DecidableEq

/-- The first element beyond the last one visited, where that one is gone. -/
def PassesOver (t : Tour K) (k : K) : Prop :=
  ∃ last, t.visited.getLast? = some last ∧ last ∉ t.now ∧ IsLeast {x ∈ t.now | last < x} k

def ahead (t : Tour K) : Set K := {k ∈ beyond t.now t.visited | ¬ t.PassesOver k}

inductive Step : Label → Tour K → Tour K → Prop
  | change (t : Tour K) (now : Set K) : Step .change t { t with now := now }
  | look {t : Tour K} {o : Option K} (silent : t.answer = none) (least : Least t.ahead o) :
      Step .look t { t with answer := some o }
  | hear {t : Tour K} {k : K} (told : t.answer = some (some k)) :
      Step .hear t { t with visited := t.visited ++ [k], answer := none }

/-- Elements are visited in increasing order, the one on its way included. -/
def Ordered (t : Tour K) : Prop :=
  t.visited.Pairwise (· < ·) ∧ ∀ k, t.answer = some (some k) → ∀ x ∈ t.visited, x < k

/-- The walk has not come to this element yet. -/
def Before (k : K) (t : Tour K) : Prop :=
  (∀ x ∈ t.visited, x < k) ∧ ∀ o, t.answer = some o → ∃ y, o = some y ∧ y < k

def Met (k : K) (t : Tour K) : Prop := k ∈ t.visited ∨ t.answer = some (some k)

/-- The walk is past this element, and has not met it. -/
def Past (k : K) (t : Tour K) : Prop :=
  k ∉ t.visited ∧ ((∃ x ∈ t.visited, k < x) ∨ ∃ o, t.answer = some o ∧ ∀ y, o = some y → k < y)

variable {t u : Tour K} {l : Label} {k : K}

theorem Ordered.step (ordered : t.Ordered) (taken : Step l t u) : u.Ordered := by
  obtain ⟨increasing, above⟩ := ordered
  cases taken with
  | change now => exact ⟨increasing, above⟩
  | look silent least =>
    constructor
    · exact increasing
    · intro k here
      obtain rfl := Option.some.inj here
      exact least.1.1.2
  | hear told =>
    constructor
    · apply List.pairwise_append.mpr
      refine ⟨increasing, List.pairwise_singleton .., fun x before y here => ?_⟩
      rw [List.mem_singleton.mp here]
      exact above _ told x before
    · intro k none
      contradiction

theorem Met.step (met : t.Met k) (taken : Step l t u) : u.Met k := by
  cases taken with
  | change now => exact met
  | look silent least =>
    rcases met with visited | told
    · exact .inl visited
    · rw [silent] at told
      contradiction
  | hear told =>
    rcases met with visited | here
    · exact .inl (List.mem_append_left _ visited)
    · rw [told] at here
      cases here
      exact .inl (by simp)

/-- An element that has been met is not passed over later. -/
theorem Met.not_passedOver (met : t.Met k) (ordered : t.Ordered) (taken : Step .look t u) : ¬ t.PassesOver k := by
  rintro ⟨last, here, _, least⟩
  cases taken with
  | look silent =>
    rcases met with visited | told
    · obtain ⟨front, split⟩ := List.getLast?_eq_some_iff.mp here
      have beyond : last < k := least.1.2
      rw [split] at visited
      rcases List.mem_append.mp visited with before | same
      · have increasing := ordered.1
        rw [split] at increasing
        have below : k < last := (List.pairwise_append.mp increasing).2.2 k before last (by simp)
        exact lt_asymm below beyond
      · exact ne_of_gt beyond (List.mem_singleton.mp same)
    · rw [silent] at told
      contradiction

theorem Past.step (past : t.Past k) (ordered : t.Ordered) (taken : Step l t u) : u.Past k := by
  obtain ⟨unvisited, passed⟩ := past
  cases taken with
  | change now => exact ⟨unvisited, passed⟩
  | look silent least =>
    rcases passed with visited | ⟨o, told, _⟩
    · exact ⟨unvisited, .inl visited⟩
    · rw [silent] at told
      contradiction
  | @hear _ y told =>
    have less : k < y := by
      rcases passed with ⟨x, visited, below⟩ | ⟨o, here, below⟩
      · exact below.trans (ordered.2 y told x visited)
      · rw [told] at here
        exact below y (Option.some.inj here).symm
    constructor
    · intro member
      rcases List.mem_append.mp member with visited | same
      · exact unvisited visited
      · exact ne_of_lt less (List.mem_singleton.mp same)
    · exact .inl ⟨y, by simp, less⟩

/-- From before an element that is there a step leads to it or leaves it ahead, unless it
passes over this element. -/
theorem Before.step (before : t.Before k) (present : k ∈ t.now) (taken : Step l t u) :
    ¬ (l = .look ∧ t.PassesOver k) ∧ (u.Before k ∨ u.Met k) ∨ (l = .look ∧ t.PassesOver k) ∧ u.Past k := by
  obtain ⟨above, toldBelow⟩ := before
  have unvisited : k ∉ t.visited := fun visited => lt_irrefl k (above k visited)
  cases taken with
  | change now => exact .inl ⟨nofun, .inl ⟨above, toldBelow⟩⟩
  | @look _ o silent least =>
    by_cases skipped : t.PassesOver k
    · right
      refine ⟨⟨rfl, skipped⟩, unvisited, .inr ⟨o, rfl, fun y here => ?_⟩⟩
      subst here
      obtain ⟨⟨inside, beyond⟩, apart⟩ := least.1
      obtain ⟨last, visited, gone, first⟩ := skipped
      have after : last < y := beyond last (List.mem_of_getLast? visited)
      apply lt_of_le_of_ne (first.2 ⟨inside, after⟩)
      rintro rfl
      exact apart ⟨last, visited, gone, first⟩
    · left
      refine ⟨fun passed => skipped passed.2, ?_⟩
      have aim : k ∈ t.ahead := ⟨⟨present, above⟩, skipped⟩
      cases o with
      | none =>
        have empty : t.ahead = ∅ := least
        rw [empty] at aim
        contradiction
      | some y =>
        rcases eq_or_lt_of_le (least.2 aim) with rfl | less
        · exact .inr (.inr rfl)
        · left
          refine ⟨above, fun o here => ?_⟩
          cases here
          exact ⟨y, rfl, less⟩
  | @hear _ y told =>
    left
    refine ⟨nofun, .inl ?_⟩
    obtain ⟨_, same, less⟩ := toldBelow _ told
    cases same
    constructor
    · intro x member
      rcases List.mem_append.mp member with visited | here
      · exact above x visited
      · rw [List.mem_singleton.mp here]
        exact less
    · intro o none
      contradiction

theorem Step.answered (taken : Step .look t u) : ∃ o, u.answer = some o := by
  cases taken with
  | look => exact ⟨_, rfl⟩

/-- What is on its way was there when it was looked for. -/
theorem met_step (taken : Step l t u) (met : u.Met k) : t.Met k ∨ k ∈ t.now := by
  cases taken with
  | change now => exact .inl met
  | look silent least =>
    rcases met with visited | told
    · exact .inl (.inl visited)
    · obtain rfl := Option.some.inj told
      exact .inr least.1.1.1
  | hear told =>
    rcases met with visited | none
    · rcases List.mem_append.mp visited with before | here
      · exact .inl (.inl before)
      · rw [List.mem_singleton.mp here]
        exact .inl (.inr told)
    · contradiction

end Tour

/-- A machine each step of which is the step of a tour that its label names. -/
structure Tours {S A E : Type} (step : S → A → Except E S) (Inv : S → Prop) (tour : S → Tour K)
    (label : S → A → Tour.Label) : Prop where
  kept : ∀ {s a t}, Inv s → step s a = .ok t → Inv t
  taken : ∀ {s a t}, Inv s → step s a = .ok t → (tour s).Step (label s a) (tour t)

namespace Tours

variable {S A E : Type} {step : S → A → Except E S} {Inv : S → Prop} {tour : S → Tour K}
  {label : S → A → Tour.Label} {s t : S} {as : List A} {k : K}

/-- The walk passes over this element now. -/
def Over (tour : S → Tour K) (label : S → A → Tour.Label) (k : K) (s : S) (a : A) : Prop :=
  label s a = .look ∧ (tour s).PassesOver k

theorem ordered (tours : Tours step Inv tour label) (initial : Inv s) (start : (tour s).Ordered)
    (ran : Runs.run step s as = .ok t) : (tour t).Ordered := by
  induction as generalizing s with
  | nil =>
    cases ran
    exact start
  | cons a rest ih =>
    obtain ⟨u, taken, tail⟩ := Runs.run_cons_inv ran
    exact ih (tours.kept initial taken) (start.step (tours.taken initial taken)) tail

/-- What is met has been there at some time. -/
theorem met_inside (tours : Tours step Inv tour label) (initial : Inv s)
    (ran : Runs.run step s as = .ok t) (met : (tour t).Met k)
    (absent : Runs.Along step (fun s _ => k ∉ (tour s).now) s as) : (tour s).Met k := by
  induction as generalizing s with
  | nil =>
    cases ran
    exact met
  | cons a rest ih =>
    obtain ⟨u, taken, tail⟩ := Runs.run_cons_inv ran
    have later := ih (tours.kept initial taken) tail (absent.2 u taken)
    rcases Tour.met_step (tours.taken initial taken) later with before | present
    · exact before
    · exact absurd present absent.1

theorem met_run (tours : Tours step Inv tour label) (initial : Inv s) (start : (tour s).Ordered)
    (ran : Runs.run step s as = .ok t) (met : (tour s).Met k) :
    (tour t).Met k ∧ Runs.Along step (fun s a => ¬ Over tour label k s a) s as := by
  induction as generalizing s with
  | nil =>
    cases ran
    exact ⟨met, trivial⟩
  | cons a rest ih =>
    obtain ⟨u, taken, tail⟩ := Runs.run_cons_inv ran
    have here := tours.taken initial taken
    obtain ⟨later, along⟩ := ih (tours.kept initial taken) (start.step here) tail (met.step here)
    refine ⟨later, fun skipped => ?_, fun v other => ?_⟩
    · rw [skipped.1] at here
      exact met.not_passedOver start here skipped.2
    · rw [taken] at other
      cases other
      exact along

theorem past_run (tours : Tours step Inv tour label) (initial : Inv s) (start : (tour s).Ordered)
    (ran : Runs.run step s as = .ok t) (past : (tour s).Past k) : (tour t).Past k := by
  induction as generalizing s with
  | nil =>
    cases ran
    exact past
  | cons a rest ih =>
    obtain ⟨u, taken, tail⟩ := Runs.run_cons_inv ran
    have here := tours.taken initial taken
    exact ih (tours.kept initial taken) (start.step here) tail (past.step start here)

/-- An element that stays there is met in time or passed over. -/
theorem before_run (tours : Tours step Inv tour label) (initial : Inv s) (start : (tour s).Ordered)
    (ran : Runs.run step s as = .ok t) (lasting : Runs.Along step (fun s _ => k ∈ (tour s).now) s as)
    (before : (tour s).Before k) :
    Runs.Along step (fun s a => ¬ Over tour label k s a) s as ∧ ((tour t).Before k ∨ (tour t).Met k) ∨
      ¬ Runs.Along step (fun s a => ¬ Over tour label k s a) s as ∧ (tour t).Past k := by
  induction as generalizing s with
  | nil =>
    cases ran
    exact .inl ⟨trivial, .inl before⟩
  | cons a rest ih =>
    obtain ⟨u, taken, tail⟩ := Runs.run_cons_inv ran
    have here := tours.taken initial taken
    have kept := tours.kept initial taken
    have along : (¬ Over tour label k s a ∧ Runs.Along step (fun s a => ¬ Over tour label k s a) u rest) ↔
        Runs.Along step (fun s a => ¬ Over tour label k s a) s (a :: rest) := by
      apply and_congr_right
      intro _
      constructor
      · intro later v other
        rw [taken] at other
        cases other
        exact later
      · intro each
        exact each u taken
    rw [← along]
    rcases before.step lasting.1 here with ⟨aside, ahead | met⟩ | ⟨skipped, past⟩
    · rcases ih kept (start.step here) tail (lasting.2 u taken) ahead with ⟨later, ends⟩ | ⟨later, ends⟩
      · exact .inl ⟨⟨aside, later⟩, ends⟩
      · exact .inr ⟨fun both => later both.2, ends⟩
    · obtain ⟨ends, later⟩ := tours.met_run kept (start.step here) tail met
      exact .inl ⟨⟨aside, later⟩, .inr ends⟩
    · exact .inr ⟨fun both => both.1 skipped, tours.past_run kept (start.step here) tail past⟩

/-- At its end a walk from the start has visited what was there all the time, but for what it
passed over. -/
theorem visited_iff (tours : Tours step Inv tour label) (initial : Inv s) (fresh : (tour s).visited = [])
    (silent : (tour s).answer = none) (ran : Runs.run step s as = .ok t) (ended : (tour t).answer = some none)
    (lasting : Runs.Along step (fun s _ => k ∈ (tour s).now) s as) :
    k ∈ (tour t).visited ↔ Runs.Along step (fun s a => ¬ Over tour label k s a) s as := by
  have start : (tour s).Ordered := by
    constructor
    · rw [fresh]
      exact .nil
    · intro k told
      rw [silent] at told
      contradiction
  have before : (tour s).Before k := by
    constructor
    · rw [fresh]
      exact List.forall_mem_nil _
    · intro o told
      rw [silent] at told
      contradiction
  rcases tours.before_run initial start ran lasting before with ⟨along, ahead | met⟩ | ⟨skipped, past⟩
  · obtain ⟨_, none, _⟩ := ahead.2 _ ended
    contradiction
  · rcases met with visited | told
    · exact iff_of_true visited along
    · rw [ended] at told
      cases told
  · exact iff_of_false past.1 skipped

end Tours

end KeyOrder
