import Nmdb.Bucket

/-! What a bucket is for: a list of at most CHAINLEN pairs with distinct keys, the one
last set in front. With memory to spare a bucket behaves as one. -/
namespace Nmdb

open Assoc

structure RecencyList where
  pairs : List (Bytes × Bytes)
  short : pairs.length ≤ CHAINLEN
  distinct : (keys pairs).Nodup

namespace RecencyList

def empty : RecencyList := ⟨[], Nat.zero_le _, List.nodup_nil⟩

def get (key : Bytes) (l : RecencyList) : Option Bytes := Assoc.get key l.pairs

/-- The pairs behind a key that is set: its old pair gives way, or the last one does. -/
def behind (key : Bytes) (pairs : List (Bytes × Bytes)) : List (Bytes × Bytes) :=
  if key ∈ keys pairs then eraseKey key pairs
  else if pairs.length < CHAINLEN then pairs
  else pairs.dropLast

theorem behind_sublist (key : Bytes) (pairs : List (Bytes × Bytes)) :
    (behind key pairs).Sublist pairs := by
  unfold behind
  split
  · exact List.filter_sublist
  · split
    · exact List.Sublist.refl _
    · exact List.dropLast_sublist _

theorem behind_absent (key : Bytes) (pairs : List (Bytes × Bytes)) :
    key ∉ keys (behind key pairs) := by
  by_cases member : key ∈ keys pairs
  · rw [behind, if_pos member]
    exact not_mem_eraseKey key pairs
  · intro found
    exact member (((behind_sublist key pairs).map Prod.fst).subset found)

theorem behind_length (key : Bytes) {pairs : List (Bytes × Bytes)}
    (short : pairs.length ≤ CHAINLEN) : (behind key pairs).length < CHAINLEN := by
  unfold behind
  split
  case isTrue member => exact Nat.lt_of_lt_of_le (length_eraseKey_lt member) short
  case isFalse =>
    split
    case isTrue room => exact room
    case isFalse =>
      have positive : 0 < CHAINLEN := by decide
      rw [List.length_dropLast]
      omega

def set (key val : Bytes) (l : RecencyList) : RecencyList where
  pairs := (key, val) :: behind key l.pairs
  short := behind_length key l.short
  distinct := List.nodup_cons.mpr ⟨behind_absent key l.pairs,
    l.distinct.sublist ((behind_sublist key l.pairs).map Prod.fst)⟩

def del (key : Bytes) (l : RecencyList) : RecencyList where
  pairs := eraseKey key l.pairs
  short := Nat.le_trans (List.length_filter_le _ _) l.short
  distinct := l.distinct.sublist (List.filter_sublist.map Prod.fst)

/-- A present value changed in place. -/
def replace (key val : Bytes) (l : RecencyList) : RecencyList where
  pairs := Assoc.replace key val l.pairs
  short := by
    simpa only [Assoc.replace, List.length_map] using l.short
  distinct := by
    rw [keys_replace]
    exact l.distinct

def cas (key oldval newval : Bytes) (l : RecencyList) : Int × RecencyList :=
  match l.get key with
  | none => (-2, l)
  | some v => if v = oldval then (0, l.replace key newval) else (-1, l)

def incr (key : Bytes) (increment : Int) (l : RecencyList) : (Int × Int) × RecencyList :=
  match l.get key with
  | none => ((-1, 0), l)
  | some v =>
    if v.getLast? = some 0 then
      let n := wrap64 (strtoll v + increment)
      ((0, n), l.replace key (Bucket.incrText v n))
    else ((-2, 0), l)

end RecencyList

namespace Bucket

/-- A bucket whose counter is exact. -/
def ofList (l : RecencyList) : Bucket := ⟨l.pairs.length, l.pairs⟩

def plenty : CacheMallocs := ⟨true, true⟩

theorem set_ofList (key val : Bytes) (l : RecencyList) :
    set plenty key val (ofList l) = .ok (0, ofList (l.set key val)) := by
  unfold set
  cases found : Assoc.get key (ofList l).pairs with
  | some old =>
    have member := mem_keys_of_get found
    obtain ⟨xs, ys, split, erased, _⟩ := split_of_get l.distinct found
    have behind : RecencyList.behind key l.pairs = eraseKey key l.pairs := if_pos member
    have length : l.pairs.length = (eraseKey key l.pairs).length + 1 := by
      rw [erased, split]
      simp only [List.length_append, List.length_cons]
      omega
    simp only [ofList, RecencyList.set, plenty, Bool.or_true, if_true, behind, List.length_cons, length]
  | none =>
    have absent := (get_eq_none _ _).mp found
    have behind : RecencyList.behind key l.pairs =
        if l.pairs.length < CHAINLEN then l.pairs else l.pairs.dropLast := if_neg absent
    change (if l.pairs.length = CHAINLEN then _ else _) = _
    by_cases full : l.pairs.length = CHAINLEN
    · have large : ¬ l.pairs.length < CHAINLEN := by omega
      obtain ⟨init, last, pairs⟩ : ∃ init last, l.pairs = init ++ [last] := by
        rcases List.eq_nil_or_concat l.pairs with nil | ⟨init, last, pairs⟩
        · rw [nil] at full
          exact absurd full (by decide)
        · exact ⟨init, last, by rw [pairs, List.concat_eq_append]⟩
      have several : (init ++ [last]).length ≠ 1 := by
        rw [← pairs, full]
        decide
      have front : RecencyList.behind key (init ++ [last]) = init := by
        rw [← pairs, behind, if_neg large, pairs, List.dropLast_concat]
      have length : init.length + 1 = (init ++ [last]).length := by simp
      rw [if_pos full]
      simp only [insertFull, ofList, RecencyList.set, pairs, List.getLast?_concat, if_neg several,
        recycles, plenty, Bool.or_true, Bool.and_self, if_true, List.dropLast_concat, front,
        List.length_cons, length]
    · have room : l.pairs.length < CHAINLEN := Nat.lt_of_le_of_ne l.short full
      have linked : ¬ (0 < (ofList l).len ∧ (ofList l).pairs = []) := by
        rintro ⟨positive, nil⟩
        have none : l.pairs = [] := nil
        simp [ofList, none] at positive
      rw [if_neg full, insertNew, if_neg linked]
      simp only [plenty, Bool.not_true, Bool.false_eq_true, if_false, ofList, RecencyList.set, behind,
        if_pos room, List.length_cons]

theorem del_ofList (key : Bytes) (l : RecencyList) :
    del key (ofList l) = .ok (if (l.get key).isSome then 1 else 0, ofList (l.del key)) := by
  unfold del RecencyList.get
  cases found : Assoc.get key l.pairs with
  | none =>
    have absent := (get_eq_none _ _).mp found
    have kept : eraseKey key l.pairs = l.pairs := eraseKey_absent absent
    simp [ofList, RecencyList.del, found, kept]
  | some v =>
    obtain ⟨xs, ys, split, erased, _⟩ := split_of_get l.distinct found
    have length : (eraseKey key l.pairs).length = l.pairs.length - 1 := by
      rw [erased, split]
      simp only [List.length_append, List.length_cons]
      omega
    simp [ofList, RecencyList.del, found, length]

theorem cas_ofList (key oldval newval : Bytes) (l : RecencyList) :
    cas plenty key oldval newval (ofList l) =
      .ok ((l.cas key oldval newval).1, ofList (l.cas key oldval newval).2) := by
  unfold cas RecencyList.cas RecencyList.get
  cases found : Assoc.get key l.pairs with
  | none => simp [ofList, found]
  | some v =>
    by_cases same : v = oldval
    · simp [ofList, found, same, plenty, RecencyList.replace, Assoc.replace]
    · simp [ofList, found, same]

theorem incr_ofList {key : Bytes} {l : RecencyList} (nonempty : l.get key ≠ some [])
    (increment : Int) :
    incr plenty key increment (ofList l) =
      .ok ((l.incr key increment).1, ofList (l.incr key increment).2) := by
  unfold incr RecencyList.incr
  rw [show Assoc.get key (ofList l).pairs = l.get key from rfl]
  cases found : l.get key with
  | none => rfl
  | some v =>
    rcases List.eq_nil_or_concat v with rfl | ⟨init, last, rfl⟩
    · exact absurd found nonempty
    · rw [List.concat_eq_append]
      simp only [List.getLast?_concat, Option.some.injEq]
      by_cases nul : last = 0
      · simp [nul, plenty, ofList, RecencyList.replace, Assoc.replace]
      · simp [nul]

end Bucket

end Nmdb
