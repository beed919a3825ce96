import Nmdb.Lib.Runs
import Mathlib.Data.List.Basic
import Mathlib.Data.List.Forall2

/-! A producer that hands items to a consumer through a queue, and what both put out on the
way. Whatever the order of their turns, it is as if the producer had done all its work
before the consumer began. -/
namespace Handoff

/-- A list is a merge of two others, each in its own order. -/
inductive Merge {O : Type} : List O → List O → List O → Prop
  | nil : Merge [] [] []
  | left {x : O} {xs ys zs : List O} (rest : Merge xs ys zs) : Merge (x :: xs) ys (x :: zs)
  | right {y : O} {xs ys zs : List O} (rest : Merge xs ys zs) : Merge xs (y :: ys) (y :: zs)

namespace Merge

variable {O : Type} {xs ys zs : List O}

theorem left_append (front : List O) (rest : Merge xs ys zs) : Merge (front ++ xs) ys (front ++ zs) := by
  induction front with
  | nil => exact rest
  | cons x front ih => exact .left ih

theorem right_append (front : List O) (rest : Merge xs ys zs) : Merge xs (front ++ ys) (front ++ zs) := by
  induction front with
  | nil => exact rest
  | cons y front ih => exact .right ih

theorem perm (merge : Merge xs ys zs) : zs.Perm (xs ++ ys) := by
  induction merge with
  | nil => exact .nil
  | left _ ih => exact .cons _ ih
  | right _ ih => exact .trans (.cons _ ih) List.perm_middle.symm

end Merge

/-- One turn of the producer on an input, and of the consumer on an item: the new state,
the items handed over, and what is put out. -/
structure Machine (P C A I O E : Type) where
  produce : P → A → Except E (P × List I × List O)
  consume : C → I → Except E (C × List O)

structure State (P C I O : Type) where
  producer : P
  consumer : C
  waiting : List I
  hand : Option I
  out : List O

inductive Label (A : Type) where
  | produce (a : A)
  | take
  | work

def inputs {A : Type} : List (Label A) → List A
  | [] => []
  | .produce a :: rest => a :: inputs rest
  | .take :: rest => inputs rest
  | .work :: rest => inputs rest

theorem mem_inputs {A : Type} {a : A} {labels : List (Label A)} (member : .produce a ∈ labels) : a ∈ inputs labels := by
  induction labels with
  | nil => contradiction
  | cons first rest ih =>
    rcases List.mem_cons.mp member with rfl | later
    · exact List.mem_cons_self
    · cases first with
      | produce b => exact List.mem_cons_of_mem b (ih later)
      | take => exact ih later
      | work => exact ih later

theorem inputs_append {A : Type} (as bs : List (Label A)) : inputs (as ++ bs) = inputs as ++ inputs bs := by
  induction as with
  | nil => rfl
  | cons x as ih => cases x <;> simp only [List.cons_append, inputs, ih]

section

variable {P C A I O E : Type} (m : Machine P C A I O E)

def step (s : State P C I O) : Label A → Except E (State P C I O)
  | .produce a =>
    match m.produce s.producer a with
    | .ok (p, items, os) =>
      .ok { s with producer := p, waiting := s.waiting ++ items, out := s.out ++ os }
    | .error e => .error e
  | .take =>
    match s.hand, s.waiting with
    | none, i :: rest => .ok { s with hand := some i, waiting := rest }
    | _, _ => .ok s
  | .work =>
    match s.hand with
    | none => .ok s
    | some i =>
      match m.consume s.consumer i with
      | .ok (c, os) => .ok { s with consumer := c, hand := none, out := s.out ++ os }
      | .error e => .error e

def produceAll (p : P) : List A → Except E (P × List I × List O)
  | [] => .ok (p, [], [])
  | a :: rest =>
    match m.produce p a with
    | .error e => .error e
    | .ok (p, items, os) =>
      match produceAll p rest with
      | .error e => .error e
      | .ok (p, more, later) => .ok (p, items ++ more, os ++ later)

def consumeAll (c : C) : List I → Except E (C × List O)
  | [] => .ok (c, [])
  | i :: rest =>
    match m.consume c i with
    | .error e => .error e
    | .ok (c, os) =>
      match consumeAll c rest with
      | .error e => .error e
      | .ok (c, later) => .ok (c, os ++ later)

/-- Items on their way to the consumer, the oldest first. -/
def State.pending (s : State P C I O) : List I := s.hand.toList ++ s.waiting

variable {m}

theorem step_produce {s : State P C I O} {a : A} {p : P} {items : List I} {os : List O}
    (made : m.produce s.producer a = .ok (p, items, os)) :
    step m s (.produce a) = .ok { s with producer := p, waiting := s.waiting ++ items, out := s.out ++ os } := by
  simp only [step, made]

theorem step_produce_fault {s : State P C I O} {a : A} {e : E} (made : m.produce s.producer a = .error e) :
    step m s (.produce a) = .error e := by
  simp only [step, made]

theorem produceAll_cons {p q : P} {a : A} {rest : List A} {items more : List I} {os later : List O}
    (first : m.produce p a = .ok (q, items, os)) {r : P}
    (others : produceAll m q rest = .ok (r, more, later)) :
    produceAll m p (a :: rest) = .ok (r, items ++ more, os ++ later) := by
  simp only [produceAll, first, others]

theorem consumeAll_cons {c d : C} {i : I} {rest : List I} {os later : List O}
    (first : m.consume c i = .ok (d, os)) {e : C} (others : consumeAll m d rest = .ok (e, later)) :
    consumeAll m c (i :: rest) = .ok (e, os ++ later) := by
  simp only [consumeAll, first, others]

/-- The producer does its work as if alone; the consumer works off a part of what came in,
in order, and the outputs are a merge of theirs. -/
theorem run_apart {labels : List (Label A)} {s t : State P C I O}
    (ran : Runs.run (step m) s labels = .ok t) :
    ∃ items os done co new, produceAll m s.producer (inputs labels) = .ok (t.producer, items, os) ∧
      s.pending ++ items = done ++ t.pending ∧ consumeAll m s.consumer done = .ok (t.consumer, co) ∧
      t.out = s.out ++ new ∧ Merge os co new := by
  induction labels generalizing s with
  | nil =>
    cases ran
    exact ⟨[], [], [], [], [], rfl, by simp, rfl, by simp, .nil⟩
  | cons label rest ih =>
    obtain ⟨u, taken, ran⟩ := Runs.run_cons_inv ran
    obtain ⟨items, os, done, co, new, made, split_at, eaten, out, merge⟩ := ih ran
    cases label with
    | produce a =>
      simp only [step] at taken
      split at taken
      case h_2 => contradiction
      case h_1 p here first made_here =>
        cases taken
        have moved : s.pending ++ (here ++ items) = done ++ t.pending := by
          rw [← split_at]
          simp only [State.pending, List.append_assoc]
        have output : t.out = s.out ++ (first ++ new) := by
          rw [out]
          simp only [List.append_assoc]
        exact ⟨here ++ items, first ++ os, done, co, first ++ new, produceAll_cons made_here made, moved,
          eaten, output, merge.left_append first⟩
    | take =>
      simp only [step] at taken
      split at taken
      case h_1 i others free full =>
        cases taken
        have moved : s.pending ++ items = done ++ t.pending := by
          rw [← split_at]
          simp [State.pending, free, full]
        exact ⟨items, os, done, co, new, made, moved, eaten, out, merge⟩
      case h_2 =>
        cases taken
        exact ⟨items, os, done, co, new, made, split_at, eaten, out, merge⟩
    | work =>
      simp only [step] at taken
      split at taken
      case h_1 =>
        cases taken
        exact ⟨items, os, done, co, new, made, split_at, eaten, out, merge⟩
      case h_2 i busy =>
        split at taken
        case h_2 => contradiction
        case h_1 c first worked =>
          cases taken
          have moved : s.pending ++ items = (i :: done) ++ t.pending := by
            rw [List.cons_append, ← split_at]
            simp [State.pending, busy]
          have output : t.out = s.out ++ (first ++ new) := by
            rw [out]
            simp only [List.append_assoc]
          exact ⟨items, os, i :: done, first ++ co, first ++ new, made, moved,
            consumeAll_cons worked eaten, output, merge.right_append first⟩

/-- Two orders of the turns on the same inputs, with all items worked off, come to the same. -/
theorem settled_same {as bs : List (Label A)} {s t u : State P C I O}
    (same : inputs as = inputs bs) (ranT : Runs.run (step m) s as = .ok t)
    (ranU : Runs.run (step m) s bs = .ok u) (settledT : t.pending = []) (settledU : u.pending = []) :
    t.producer = u.producer ∧ t.consumer = u.consumer ∧ t.out.Perm u.out := by
  obtain ⟨items, os, done, co, new, made, all, eaten, out, merge⟩ := run_apart ranT
  obtain ⟨items', os', done', co', new', made', all', eaten', out', merge'⟩ := run_apart ranU
  rw [same, made'] at made
  obtain ⟨producer, rfl, rfl⟩ : u.producer = t.producer ∧ items' = items ∧ os' = os := by
    simpa only [Except.ok.injEq, Prod.mk.injEq] using made
  rw [settledT, List.append_nil] at all
  rw [settledU, List.append_nil] at all'
  rw [← all, all', eaten'] at eaten
  obtain ⟨consumer, rfl⟩ : u.consumer = t.consumer ∧ co' = co := by
    simpa only [Except.ok.injEq, Prod.mk.injEq] using eaten
  refine ⟨producer.symm, consumer.symm, ?_⟩
  rw [out, out']
  exact .append_left _ (merge.perm.trans merge'.perm.symm)

/-- An order of the turns faults only if the producer alone does, or the consumer on its items. -/
theorem run_ok {labels : List (Label A)} {s : State P C I O} {p : P} {items : List I} {os : List O} {c : C}
    {co : List O} (made : produceAll m s.producer (inputs labels) = .ok (p, items, os))
    (eaten : consumeAll m s.consumer (s.pending ++ items) = .ok (c, co)) :
    ∃ t, Runs.run (step m) s labels = .ok t := by
  induction labels generalizing s items os co with
  | nil => exact ⟨s, rfl⟩
  | cons label rest ih =>
    cases label with
    | produce a =>
      simp only [inputs, produceAll] at made
      split at made
      case h_1 => contradiction
      case h_2 q here first made_here =>
        split at made
        case h_1 => contradiction
        case h_2 r more later others =>
          cases made
          rw [Runs.run_cons_ok (step_produce made_here)]
          apply ih others
          simpa only [State.pending, List.append_assoc] using eaten
    | take =>
      cases free : s.hand with
      | some i =>
        have taken : step m s .take = .ok s := by simp only [step, free]
        rw [Runs.run_cons_ok taken]
        exact ih made eaten
      | none =>
        cases full : s.waiting with
        | nil =>
          have taken : step m s .take = .ok s := by simp only [step, free, full]
          rw [Runs.run_cons_ok taken]
          exact ih made eaten
        | cons i others =>
          have taken : step m s .take = .ok { s with hand := some i, waiting := others } := by
            simp only [step, free, full]
          rw [Runs.run_cons_ok taken]
          apply ih (s := { s with hand := some i, waiting := others }) made
          simpa [State.pending, free, full] using eaten
    | work =>
      cases busy : s.hand with
      | none =>
        have taken : step m s .work = .ok s := by simp only [step, busy]
        rw [Runs.run_cons_ok taken]
        exact ih made eaten
      | some i =>
        have front : s.pending ++ items = i :: (s.waiting ++ items) := by simp [State.pending, busy]
        rw [front, consumeAll] at eaten
        split at eaten
        case h_1 => contradiction
        case h_2 d here first =>
          split at eaten
          case h_1 => contradiction
          case h_2 e later others =>
            cases eaten
            have taken : step m s .work = .ok { s with consumer := d, hand := none, out := s.out ++ here } := by
              simp only [step, busy, first]
            rw [Runs.run_cons_ok taken]
            apply ih (s := { s with consumer := d, hand := none, out := s.out ++ here }) made
            simpa [State.pending] using others

end

/- Another consumer in the place of one. -/
section

variable {P C D A I O E : Type} {m : Machine P C A I O E} {n : Machine P D A I O E} {Inv : P → Prop}
  {Good : I → Prop} {R : C → D → Prop} {Q : O → O → Prop} {Made : A → Prop}

/-- The same producer, and consumers that do alike with the items it makes. -/
structure Exchange (m : Machine P C A I O E) (n : Machine P D A I O E) (Made : A → Prop) (Inv : P → Prop)
    (Good : I → Prop) (R : C → D → Prop) (Q : O → O → Prop) : Prop where
  produce : n.produce = m.produce
  made : ∀ p a q items os, Inv p → Made a → m.produce p a = .ok (q, items, os) → Inv q ∧ ∀ i ∈ items, Good i
  consume : ∀ c d i, R c d → Good i →
    Runs.Agree (fun x y => R x.1 y.1 ∧ List.Forall₂ Q x.2 y.2) (m.consume c i) (n.consume d i)
  same : ∀ o, Q o o

/-- States that differ in the consumer, and in what is put out as it may differ. -/
structure State.Alike (Inv : P → Prop) (Good : I → Prop) (R : C → D → Prop) (Q : O → O → Prop)
    (s : State P C I O) (t : State P D I O) : Prop where
  producer : t.producer = s.producer
  waiting : t.waiting = s.waiting
  hand : t.hand = s.hand
  consumer : R s.consumer t.consumer
  out : List.Forall₂ Q s.out t.out
  inv : Inv s.producer
  good : ∀ i ∈ s.pending, Good i

theorem Exchange.step (exchange : Exchange m n Made Inv Good R Q) {s : State P C I O} {t : State P D I O}
    (alike : s.Alike Inv Good R Q t) {label : Label A} (made : ∀ a, label = .produce a → Made a) :
    Runs.Agree (State.Alike Inv Good R Q) (step m s label) (step n t label) := by
  obtain ⟨p, d, waiting, hand, out'⟩ := t
  obtain ⟨rfl, rfl, rfl, consumer, out, inv, good⟩ := alike
  cases label with
  | produce a =>
    simp only [Handoff.step, exchange.produce]
    cases done : m.produce s.producer a with
    | error e => rfl
    | ok x =>
      obtain ⟨q, items, os⟩ := x
      obtain ⟨inv', good'⟩ := exchange.made _ _ _ _ _ inv (made a rfl) done
      refine ⟨rfl, rfl, rfl, consumer, ?_, inv', fun i member => ?_⟩
      · exact List.rel_append out (List.forall₂_same.mpr fun o _ => exchange.same o)
      · simp only [State.pending, ← List.append_assoc] at member
        exact (List.mem_append.mp member).elim (good i) (good' i)
  | take =>
    cases free : s.hand with
    | some i =>
      simp only [Handoff.step, free]
      exact ⟨rfl, rfl, free.symm, consumer, out, inv, good⟩
    | none =>
      cases full : s.waiting with
      | nil =>
        simp only [Handoff.step, free, full]
        exact ⟨rfl, full.symm, free.symm, consumer, out, inv, good⟩
      | cons i rest =>
        have pending : s.pending = i :: rest := by simp [State.pending, free, full]
        rw [pending] at good
        simp only [Handoff.step, free, full]
        exact ⟨rfl, rfl, rfl, consumer, out, inv, good⟩
  | work =>
    cases busy : s.hand with
    | none =>
      simp only [Handoff.step, busy]
      exact ⟨rfl, rfl, busy.symm, consumer, out, inv, good⟩
    | some i =>
      have pending : s.pending = i :: s.waiting := by simp [State.pending, busy]
      rw [pending] at good
      simp only [Handoff.step, busy]
      rcases (exchange.consume _ _ i consumer (good i List.mem_cons_self)).outcomes with
        ⟨e, fault, fault'⟩ | ⟨x, y, done, done', next, given⟩
      · rw [fault, fault']
        rfl
      · rw [done, done']
        exact ⟨rfl, rfl, rfl, next, List.rel_append out given, inv,
          fun j member => good j (List.mem_cons_of_mem i member)⟩

/-- Runs on the same turns come to states alike, or fault alike. -/
theorem Exchange.run (exchange : Exchange m n Made Inv Good R Q) {labels : List (Label A)} {s : State P C I O}
    {t : State P D I O} (alike : s.Alike Inv Good R Q t) (made : ∀ a ∈ inputs labels, Made a) :
    Runs.Agree (State.Alike Inv Good R Q) (Runs.run (Handoff.step m) s labels)
      (Runs.run (Handoff.step n) t labels) := by
  apply Runs.Agree.run (P := fun label => ∀ a, label = .produce a → Made a) _ alike
  · rintro label member a rfl
    exact made a (mem_inputs member)
  · exact fun s t label alike made => exchange.step alike made

end

end Handoff
