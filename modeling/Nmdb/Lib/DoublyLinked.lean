import Mathlib.Data.List.Chain
import Mathlib.Logic.Function.Basic

/-! Intrusive doubly linked lists whose ends are NULL. The list is read as a ring
through a header: none stands for the header going in and for NULL coming out, so
first and last are its links and the surgery needs no cases for the two ends. -/
namespace DoublyLinked

variable {ι : Type}

structure Links (ι : Type) where
  first : Option ι
  last : Option ι
  next : ι → Option ι
  prev : ι → Option ι

namespace Links

def fwd (L : Links ι) : Option ι → Option ι
  | none => L.first
  | some a => L.next a

def bwd (L : Links ι) : Option ι → Option ι
  | none => L.last
  | some a => L.prev a

/-- Two neighbours of the ring, linked both ways. -/
def Adj (L : Links ι) (x y : Option ι) : Prop := L.fwd x = y ∧ L.bwd y = x

variable [DecidableEq ι]

def setFwd (L : Links ι) (x y : Option ι) : Links ι :=
  match x with
  | none => { L with first := y }
  | some a => { L with next := Function.update L.next a y }

def setBwd (L : Links ι) (y x : Option ι) : Links ι :=
  match y with
  | none => { L with last := x }
  | some b => { L with prev := Function.update L.prev b x }

/-- Make x and y neighbours. -/
def join (L : Links ι) (x y : Option ι) : Links ι := (L.setFwd x y).setBwd y x

def unlink (L : Links ι) (e : ι) : Links ι := L.join (L.bwd (some e)) (L.fwd (some e))

def pushFront (L : Links ι) (e : ι) : Links ι := (L.join (some e) (L.fwd none)).join none (some e)

theorem fwd_setFwd (L : Links ι) (x y z : Option ι) :
    (L.setFwd x y).fwd z = if z = x then y else L.fwd z := by
  cases x <;> cases z <;> simp [setFwd, fwd, Function.update_apply]

theorem bwd_setBwd (L : Links ι) (y x z : Option ι) :
    (L.setBwd y x).bwd z = if z = y then x else L.bwd z := by
  cases y <;> cases z <;> simp [setBwd, bwd, Function.update_apply]

theorem bwd_setFwd (L : Links ι) (x y z : Option ι) : (L.setFwd x y).bwd z = L.bwd z := by
  cases x <;> cases z <;> rfl

theorem fwd_setBwd (L : Links ι) (y x z : Option ι) : (L.setBwd y x).fwd z = L.fwd z := by
  cases y <;> cases z <;> rfl

theorem fwd_join (L : Links ι) (x y z : Option ι) :
    (L.join x y).fwd z = if z = x then y else L.fwd z := by
  rw [join, fwd_setBwd, fwd_setFwd]

theorem bwd_join (L : Links ι) (x y z : Option ι) :
    (L.join x y).bwd z = if z = y then x else L.bwd z := by
  rw [join, bwd_setBwd, bwd_setFwd]

omit [DecidableEq ι] in
theorem ext_walk {L M : Links ι} (fwd : ∀ z, L.fwd z = M.fwd z) (bwd : ∀ z, L.bwd z = M.bwd z) :
    L = M := by
  cases L
  cases M
  have next := funext fun a => fwd (some a)
  have prev := funext fun a => bwd (some a)
  have first := fwd none
  have last := bwd none
  simp only [Links.fwd, Links.bwd] at next prev first last
  simp only [next, prev, first, last]

theorem join_adj (L : Links ι) (x y : Option ι) : (L.join x y).Adj x y :=
  ⟨by rw [fwd_join, if_pos rfl], by rw [bwd_join, if_pos rfl]⟩

/-- A pair the new neighbours do not touch stays a pair. -/
theorem join_adj_of_ne {L : Links ι} {x y u v : Option ι} (h : L.Adj u v) (hu : u ≠ x)
    (hv : v ≠ y) : (L.join x y).Adj u v :=
  ⟨by rw [fwd_join, if_neg hu, h.1], by rw [bwd_join, if_neg hv, h.2]⟩

end Links

/-- The nodes is are linked in this order between the two ends. -/
structure Linked (L : Links ι) (is : List ι) : Prop where
  nodup : is.Nodup
  ring : (none :: (is.map some ++ [none])).IsChain L.Adj

namespace Linked

variable {L : Links ι} {is xs ys : List ι} {e : ι}

theorem getLast?_header : (none :: xs.map some).getLast? = some xs.getLast? := by
  cases xs using List.reverseRecOn with
  | nil => rfl
  | append_singleton init a =>
    rw [List.map_append, List.map_singleton, ← List.cons_append, List.getLast?_concat,
      List.getLast?_concat]

theorem head?_header : (ys.map some ++ [none]).head? = some ys.head? := by
  cases ys <;> rfl

theorem nil_iff : Linked L [] ↔ L.fwd none = none ∧ L.bwd none = none := by
  constructor
  · intro h
    have adj := (List.isChain_cons_cons.mp h.ring).1
    exact ⟨adj.1, adj.2⟩
  · intro h
    exact ⟨List.nodup_nil, List.isChain_cons_cons.mpr ⟨⟨h.1, h.2⟩, List.IsChain.singleton _⟩⟩

theorem first_eq (h : Linked L is) : L.fwd none = is.head? := by
  cases is with
  | nil => exact (nil_iff.mp h).1
  | cons a rest => exact (List.isChain_cons_cons.mp h.ring).1.1

theorem last_eq (h : Linked L is) : L.bwd none = is.getLast? := by
  rcases List.eq_nil_or_concat is with rfl | ⟨init, a, rfl⟩
  · exact (nil_iff.mp h).2
  · have ring := h.ring
    rw [List.concat_eq_append, List.map_append, List.map_cons, List.map_nil, List.append_assoc,
      ← List.cons_append] at ring
    have adj := (List.isChain_append.mp ring).2.1
    simpa using (List.isChain_cons_cons.mp adj).1.2

/-- The ring around one of its nodes. -/
theorem split (h : Linked L (xs ++ e :: ys)) :
    (none :: xs.map some).IsChain L.Adj ∧ (ys.map some ++ [none]).IsChain L.Adj ∧
      L.Adj (xs.getLast?) (some e) ∧ L.Adj (some e) (ys.head?) := by
  have ring := h.ring
  rw [List.map_append, List.map_cons, List.append_assoc, ← List.cons_append] at ring
  obtain ⟨before, after, seam⟩ := List.isChain_append.mp ring
  rw [List.cons_append] at after
  obtain ⟨front, rest⟩ := List.isChain_cons.mp after
  exact ⟨before, rest, seam _ getLast?_header _ rfl, front _ head?_header⟩

theorem prev_eq (h : Linked L (xs ++ e :: ys)) : L.bwd (some e) = xs.getLast? := h.split.2.2.1.2

theorem prev_head (h : Linked L (e :: ys)) : L.bwd (some e) = none := by
  have front : Linked L ([] ++ e :: ys) := h
  exact front.prev_eq

theorem next_eq (h : Linked L (xs ++ e :: ys)) : L.fwd (some e) = ys.head? := h.split.2.2.2.1

theorem first_iff (h : Linked L (xs ++ e :: ys)) : L.fwd none = some e ↔ xs = [] := by
  have fresh : e ∉ xs := fun hm =>
    (List.nodup_append.mp h.nodup).2.2 e hm e (by simp) rfl
  rw [h.first_eq]
  cases xs with
  | nil => simp
  | cons a rest =>
    have hne : a ≠ e := fun he => fresh (by simp [he])
    simp [hne]

theorem last_iff (h : Linked L (xs ++ e :: ys)) : L.bwd none = some e ↔ ys = [] := by
  have fresh : e ∉ ys := (List.nodup_cons.mp (List.nodup_append.mp h.nodup).2.1).1
  rw [h.last_eq]
  cases ys using List.reverseRecOn with
  | nil => simp
  | append_singleton init a =>
    have hne : a ≠ e := fun he => fresh (by simp [he])
    rw [← List.cons_append, ← List.append_assoc, List.getLast?_concat]
    simp [hne]

variable [DecidableEq ι]

/-- Unlinking a node leaves the others in order. The pairs of the ring that do not
hold e do not hold its two outer links either, since those links hold e. -/
theorem unlink (h : Linked L (xs ++ e :: ys)) : Linked (L.unlink e) (xs ++ ys) := by
  obtain ⟨before, after, into, out⟩ := h.split
  have parts := List.nodup_append.mp h.nodup
  have notLeft : e ∉ xs := fun hm => parts.2.2 e hm e (by simp) rfl
  have notRight : e ∉ ys := (List.nodup_cons.mp parts.2.1).1
  have keep : ∀ u v, u ≠ some e → v ≠ some e → L.Adj u v → (L.unlink e).Adj u v := by
    intro u v hu hv adj
    refine Links.join_adj_of_ne adj ?_ ?_
    · rintro rfl
      exact hv (adj.1.symm.trans (h.prev_eq ▸ into.1))
    · rintro rfl
      exact hu (adj.2.symm.trans (h.next_eq ▸ out.2))
  have seam : (L.unlink e).Adj xs.getLast? ys.head? := by
    rw [← h.prev_eq, ← h.next_eq]
    exact Links.join_adj _ _ _
  refine ⟨h.nodup.sublist (List.Sublist.append_left (List.sublist_cons_self e ys) xs), ?_⟩
  rw [List.map_append, List.append_assoc, ← List.cons_append]
  refine List.isChain_append.mpr ⟨?_, ?_, ?_⟩
  · exact before.imp_of_mem_imp fun u v hu hv adj =>
      keep u v (by rintro rfl; simp [notLeft] at hu) (by rintro rfl; simp [notLeft] at hv) adj
  · exact after.imp_of_mem_imp fun u v hu hv adj =>
      keep u v (by rintro rfl; simp [notRight] at hu) (by rintro rfl; simp [notRight] at hv) adj
  · intro u hu v hv
    rw [getLast?_header, Option.mem_def, Option.some.injEq] at hu
    rw [head?_header, Option.mem_def, Option.some.injEq] at hv
    exact hu ▸ hv ▸ seam

/-- A new node linked in before all others. -/
theorem pushFront (h : Linked L is) (fresh : e ∉ is) : Linked (L.pushFront e) (e :: is) := by
  have front : L.fwd none = is.head? := h.first_eq
  have header := (List.isChain_cons.mp h.ring).1 _ head?_header
  have tail := (List.isChain_cons.mp h.ring).2
  -- Only the header and e change their forward link, only e and the old head their backward one.
  have keep : ∀ u v, u ≠ none → u ≠ some e → v ≠ some e → L.Adj u v → (L.pushFront e).Adj u v := by
    intro u v hn hu hv adj
    refine Links.join_adj_of_ne (Links.join_adj_of_ne adj hu ?_) hn hv
    rintro rfl
    exact hn (adj.2.symm.trans (front ▸ header.2))
  refine ⟨List.nodup_cons.mpr ⟨fresh, h.nodup⟩, ?_⟩
  rw [List.map_cons, List.cons_append]
  refine List.isChain_cons_cons.mpr ⟨Links.join_adj _ _ _, List.isChain_cons.mpr ⟨?_, ?_⟩⟩
  · intro v hv
    rw [head?_header, Option.mem_def, Option.some.injEq] at hv
    subst hv
    refine Links.join_adj_of_ne (front ▸ Links.join_adj _ _ _) (by simp) ?_
    intro he
    exact fresh (List.mem_of_head? he)
  · obtain ⟨nodes, _, last⟩ := List.isChain_append.mp tail
    refine List.isChain_append.mpr ⟨?_, List.IsChain.singleton _, ?_⟩
    · exact nodes.imp_of_mem_imp fun u v hu hv adj =>
        keep u v (by rintro rfl; simp at hu) (by rintro rfl; simp [fresh] at hu)
          (by rintro rfl; simp [fresh] at hv) adj
    · intro u hu v hv
      have member := List.mem_of_getLast? hu
      obtain rfl : v = none := by simpa using hv.symm
      exact keep u none (by rintro rfl; simp at member) (by rintro rfl; simp [fresh] at member)
        (by simp) (last u hu none rfl)

end Linked

/-- The links of a node outside the list are of no account. -/
theorem Linked.frame [DecidableEq ι] {L M : Links ι} {is : List ι} {e : ι} (h : Linked L is)
    (fresh : e ∉ is) (fwd : ∀ z, z ≠ some e → M.fwd z = L.fwd z)
    (bwd : ∀ z, z ≠ some e → M.bwd z = L.bwd z) : Linked M is := by
  refine ⟨h.nodup, h.ring.imp_of_mem_imp fun u v hu hv adj => ?_⟩
  have hu' : u ≠ some e := by rintro rfl; simp [fresh] at hu
  have hv' : v ≠ some e := by rintro rfl; simp [fresh] at hv
  exact ⟨(fwd u hu').trans adj.1, (bwd v hv').trans adj.2⟩

/-- The links of a chain whose ends and neighbours were mended by cases. -/
theorem Linked.unlink_eq [DecidableEq ι] {L M : Links ι} {xs ys : List ι} {e : ι}
    (h : Linked L (xs ++ e :: ys))
    (fwd : ∀ z, M.fwd z = if z = L.bwd (some e) then L.fwd (some e) else L.fwd z)
    (bwd : ∀ j, M.bwd (some j) = if L.fwd (some e) = some j then L.bwd (some e) else L.bwd (some j))
    (last : M.bwd none = if L.bwd none = some e then L.bwd (some e) else L.bwd none) :
    M = L.unlink e := by
  refine Links.ext_walk (fun z => ?_) (fun z => ?_)
  · rw [fwd, Links.unlink, Links.fwd_join]
  · rw [Links.unlink, Links.bwd_join]
    cases z with
    | none =>
      have edge : L.bwd none = some e ↔ none = L.fwd (some e) := by
        rw [h.last_iff, h.next_eq]
        cases ys <;> simp
      simp only [last, edge]
    | some j => simp only [bwd, eq_comm]

/-- The nodes met from p on, at most n of them. -/
def walk (step : ι → Option ι) : Nat → Option ι → List ι
  | 0, _ => []
  | _ + 1, none => []
  | n + 1, some a => a :: walk step n (step a)

theorem walk_chain {step : ι → Option ι} {is : List ι} {n : Nat} (enough : is.length ≤ n)
    (linked : ∀ xs a ys, is = xs ++ a :: ys → step a = ys.head?) :
    walk step n is.head? = is := by
  induction is generalizing n with
  | nil => cases n <;> rfl
  | cons a rest ih =>
    cases n with
    | zero => simp at enough
    | succ n =>
      have here : step a = rest.head? := linked [] a rest rfl
      have tail := ih (by simpa using enough) fun xs b ys h => linked (a :: xs) b ys (by simp [h])
      simp only [List.head?_cons, walk, here, tail]

theorem Linked.walk_next {L : Links ι} {is : List ι} {n : Nat} (h : Linked L is)
    (enough : is.length ≤ n) : walk L.next n L.first = is := by
  rw [show L.first = is.head? from h.first_eq]
  exact walk_chain enough fun xs a ys split => Linked.next_eq (split ▸ h)

/-- From p on, step meets exactly these nodes and then NULL. -/
def Follows (step : ι → Option ι) : Option ι → List ι → Prop
  | p, [] => p = none
  | p, a :: rest => p = some a ∧ Follows step (step a) rest

theorem follows_chain {step : ι → Option ι} {is : List ι}
    (linked : ∀ xs a ys, is = xs ++ a :: ys → step a = ys.head?) : Follows step is.head? is := by
  induction is with
  | nil => rfl
  | cons a rest ih =>
    refine ⟨rfl, ?_⟩
    rw [linked [] a rest rfl]
    exact ih fun xs b ys h => linked (a :: xs) b ys (by simp [h])

theorem Linked.follows_next {L : Links ι} {is : List ι} (h : Linked L is) :
    Follows L.next L.first is := by
  rw [show L.first = is.head? from h.first_eq]
  exact follows_chain fun xs a ys split => Linked.next_eq (split ▸ h)

/-- Backwards from the last node the same nodes appear in reverse. -/
theorem Linked.follows_prev {L : Links ι} {is : List ι} (h : Linked L is) :
    Follows L.prev L.last is.reverse := by
  rw [show L.last = is.getLast? from h.last_eq, ← List.head?_reverse]
  refine follows_chain fun xs a ys split => ?_
  have back : is = ys.reverse ++ a :: xs.reverse := by
    simpa using congrArg List.reverse split
  rw [List.head?_eq_getLast?_reverse]
  exact Linked.prev_eq (back ▸ h)

end DoublyLinked
