import Mathlib.Data.List.Basic
import Mathlib.Data.List.Nodup
import Mathlib.Data.List.Induction

/-! Association lists: removing and replacing the value of a key, and what a lookup
sees of it. Where the keys are distinct the two operations act on one place. -/
namespace Assoc

variable {K V : Type}

def keys (l : List (K × V)) : List K := l.map Prod.fst

@[simp] theorem keys_cons (p : K × V) (l : List (K × V)) : keys (p :: l) = p.1 :: keys l := rfl

@[simp] theorem keys_append (l m : List (K × V)) : keys (l ++ m) = keys l ++ keys m :=
  List.map_append

variable [DecidableEq K]

def eraseKey (k : K) (l : List (K × V)) : List (K × V) := l.filter fun p => p.1 ≠ k

def replace (k : K) (v : V) (l : List (K × V)) : List (K × V) :=
  l.map fun p => if p.1 = k then (k, v) else p

def get (k : K) (l : List (K × V)) : Option V := l.lookup k

@[simp] theorem get_nil (k : K) : get k ([] : List (K × V)) = none := rfl

theorem get_cons (k : K) (p : K × V) (l : List (K × V)) :
    get k (p :: l) = if k = p.1 then some p.2 else get k l := by
  unfold get
  rw [List.lookup_cons]
  by_cases h : k = p.1
  · rw [if_pos h, beq_iff_eq.mpr h]
  · rw [if_neg h, beq_eq_false_iff_ne.mpr h]

theorem get_isSome_iff (k : K) (l : List (K × V)) : (get k l).isSome ↔ k ∈ keys l := by
  induction l with
  | nil => simp [keys]
  | cons p rest ih =>
    rw [get_cons, keys_cons, List.mem_cons]
    by_cases h : k = p.1
    · simp [h]
    · simpa only [h, if_false, false_or] using ih

theorem get_eq_none (k : K) (l : List (K × V)) : get k l = none ↔ k ∉ keys l := by
  rw [← get_isSome_iff, Option.not_isSome_iff_eq_none]

theorem mem_keys_of_get {k : K} {v : V} {l : List (K × V)} (h : get k l = some v) : k ∈ keys l :=
  (get_isSome_iff k l).mp (by rw [h]; rfl)

theorem get_eraseKey (k a : K) (l : List (K × V)) :
    get a (eraseKey k l) = if a = k then none else get a l := by
  induction l with
  | nil => simp [eraseKey]
  | cons p rest ih =>
    unfold eraseKey at ih ⊢
    by_cases hp : p.1 = k
    · rw [List.filter_cons_of_neg (by simpa using hp), ih, get_cons, hp]
      by_cases ha : a = k <;> simp only [ha, if_true, if_false]
    · rw [List.filter_cons_of_pos (by simpa using hp), get_cons, get_cons, ih]
      by_cases ha : a = p.1
      · simp only [ha, hp, if_true, if_false]
      · simp only [ha, if_false]

theorem get_replace (k a : K) (v : V) (l : List (K × V)) :
    get a (replace k v l) = if a = k then (get k l).map fun _ => v else get a l := by
  induction l with
  | nil => simp [replace]
  | cons p rest ih =>
    unfold replace at ih ⊢
    rw [List.map_cons, get_cons, ih, get_cons, get_cons]
    by_cases hp : p.1 = k
    · by_cases ha : a = k <;> simp only [hp, ha, if_true, if_false, Option.map_some]
    · have hk : k ≠ p.1 := Ne.symm hp
      by_cases ha : a = p.1
      · simp only [ha, hp, if_true, if_false]
      · simp only [hp, ha, hk, if_false]

theorem get_of_dropLast {k : K} {v : V} {l : List (K × V)} (h : get k l.dropLast = some v) :
    get k l = some v := by
  cases l using List.reverseRecOn with
  | nil => exact h
  | append_singleton init p =>
    rw [List.dropLast_concat] at h
    unfold get at h ⊢
    rw [List.lookup_append, h]
    rfl

theorem get_concat {k : K} {p : K × V} (other : k ≠ p.1) (l : List (K × V)) :
    get k (l ++ [p]) = get k l := by
  induction l with
  | nil => rw [List.nil_append, get_cons, if_neg other]
  | cons q rest ih => rw [List.cons_append, get_cons, get_cons, ih]

omit [DecidableEq K] in
theorem apart_of_nodup {k : K} {v : V} {xs ys : List (K × V)}
    (nodup : (keys (xs ++ (k, v) :: ys)).Nodup) : (∀ p ∈ xs, p.1 ≠ k) ∧ ∀ p ∈ ys, p.1 ≠ k := by
  rw [keys_append, keys_cons] at nodup
  have parts := List.nodup_append.mp nodup
  have after : k ∉ keys ys := (List.nodup_cons.mp parts.2.1).1
  exact ⟨fun p hp e => parts.2.2 p.1 (List.mem_map_of_mem hp) k (by simp) e,
    fun p hp e => after (e ▸ List.mem_map_of_mem hp)⟩

theorem eraseKey_split {k : K} {v : V} {xs ys : List (K × V)}
    (nodup : (keys (xs ++ (k, v) :: ys)).Nodup) : eraseKey k (xs ++ (k, v) :: ys) = xs ++ ys := by
  obtain ⟨left, right⟩ := apart_of_nodup nodup
  have hx : xs.filter (fun p => decide (p.1 ≠ k)) = xs :=
    List.filter_eq_self.mpr fun p hp => by simpa using left p hp
  have hy : ys.filter (fun p => decide (p.1 ≠ k)) = ys :=
    List.filter_eq_self.mpr fun p hp => by simpa using right p hp
  unfold eraseKey
  rw [List.filter_append, List.filter_cons_of_neg (by simp), hx, hy]

theorem replace_split {k : K} {v : V} {xs ys : List (K × V)}
    (nodup : (keys (xs ++ (k, v) :: ys)).Nodup) (w : V) :
    replace k w (xs ++ (k, v) :: ys) = xs ++ (k, w) :: ys := by
  obtain ⟨left, right⟩ := apart_of_nodup nodup
  have hx : xs.map (fun p => if p.1 = k then (k, w) else p) = xs :=
    (List.map_congr_left fun p hp => if_neg (left p hp)).trans (List.map_id _)
  have hy : ys.map (fun p => if p.1 = k then (k, w) else p) = ys :=
    (List.map_congr_left fun p hp => if_neg (right p hp)).trans (List.map_id _)
  unfold replace
  rw [List.map_append, List.map_cons, hx, hy, if_pos rfl]

/-- Where a key stands, and what the two operations do there. -/
theorem split_of_get {k : K} {v : V} {l : List (K × V)} (nodup : (keys l).Nodup)
    (h : get k l = some v) :
    ∃ xs ys, l = xs ++ (k, v) :: ys ∧ eraseKey k l = xs ++ ys ∧
      ∀ w, replace k w l = xs ++ (k, w) :: ys := by
  obtain ⟨xs, ys, rfl, _⟩ := List.lookup_eq_some_iff.mp h
  exact ⟨xs, ys, rfl, eraseKey_split nodup, fun w => replace_split nodup w⟩

theorem keys_eraseKey (k : K) (l : List (K × V)) : keys (eraseKey k l) = (keys l).filter (· ≠ k) := by
  unfold keys eraseKey
  rw [List.filter_map]
  rfl

theorem keys_replace (k : K) (v : V) (l : List (K × V)) : keys (replace k v l) = keys l := by
  unfold keys replace
  rw [List.map_map]
  refine List.map_congr_left fun p _ => ?_
  by_cases h : p.1 = k
  · simp [h]
  · simp [h]

theorem not_mem_eraseKey (k : K) (l : List (K × V)) : k ∉ keys (eraseKey k l) := by
  rw [keys_eraseKey]
  simp

theorem eraseKey_absent {k : K} {l : List (K × V)} (absent : k ∉ keys l) : eraseKey k l = l := by
  refine List.filter_eq_self.mpr fun p hp => decide_eq_true fun same => ?_
  exact absent (same ▸ List.mem_map_of_mem hp)

theorem length_eraseKey_lt {k : K} {l : List (K × V)} (member : k ∈ keys l) :
    (eraseKey k l).length < l.length := by
  obtain ⟨p, hp, rfl⟩ := List.mem_map.mp member
  exact List.length_filter_lt_length_iff_exists.mpr ⟨p, hp, by simp⟩

/-- A list of distinct keys loses its last one with its last pair. -/
theorem get_dropLast {l : List (K × V)} {p : K × V} (distinct : (keys l).Nodup)
    (last : l.getLast? = some p) : get p.1 l.dropLast = none ∧ get p.1 l ≠ none := by
  obtain ⟨init, rfl⟩ : ∃ init, l = init ++ [p] := by
    rcases List.eq_nil_or_concat l with rfl | ⟨init, q, rfl⟩
    · contradiction
    · rw [List.concat_eq_append, List.getLast?_concat, Option.some.injEq] at last
      exact ⟨init, by rw [last, List.concat_eq_append]⟩
  rw [keys_append] at distinct
  rw [List.dropLast_concat]
  refine ⟨(get_eq_none _ _).mpr fun member => ?_, fun none => ?_⟩
  · exact (List.nodup_append.mp distinct).2.2 _ member p.1 (by simp) rfl
  · exact (get_eq_none _ _).mp none (by simp)

end Assoc
