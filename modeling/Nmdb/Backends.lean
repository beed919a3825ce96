import Nmdb.LevelDb
import Nmdb.Schedules

/-! The backends over their libraries. Each keeps a map, and it cannot be told from the answers
which one the server runs on, but for a DEL of a key that is missing. -/
namespace Nmdb

open WriteBehind Runs

variable {σ τ ι ν : Type}

/-- The calls of each library: an update tells whether it succeeded, a lookup the value, and
those with a size at most as many bytes as that. -/
structure Tdb (σ : Type) where
  store : σ → Bytes → Bytes → Bool × σ
  fetch : σ → Bytes → Option Bytes
  delete : σ → Bytes → Bool × σ
  firstkey : σ → Option Bytes × σ
  nextkey : σ → Bytes → Option Bytes × σ

structure Bdb (σ : Type) where
  put : σ → Bytes → Bytes → Bool × σ
  get : σ → Bytes → Nat → Option Bytes
  del : σ → Bytes → Bool × σ

structure Depot (σ : Type) where
  put : σ → Bytes → Bytes → Bool × σ
  getwb : σ → Bytes → Nat → Nat → Option Bytes
  out : σ → Bytes → Bool × σ

structure Tchdb (σ : Type) where
  put : σ → Bytes → Bytes → Bool × σ
  get3 : σ → Bytes → Nat → Option Bytes
  out : σ → Bytes → Bool × σ

section

variable (db : Tdb σ)

def xtdbSet (d : σ) (key val : Bytes) : Bool × σ := db.store d key val

def xtdbGet (d : σ) (key : Bytes) (vsize : Nat) : Option Bytes :=
  match db.fetch d key with
  | none => none
  | some v => if vsize < v.length then none else some v

def xtdbDel (d : σ) (key : Bytes) : Bool × σ := db.delete d key

/- The keys are copied whatever the size of the buffer. -/
def xtdbFirstkey (d : σ) (_ksize : Nat) : Option Bytes × σ := db.firstkey d

def xtdbNextkey (d : σ) (key : Bytes) (_nksize : Nat) : Option Bytes × σ := db.nextkey d key

def xtdbOpen : DbConn σ where
  set := xtdbSet db
  get := xtdbGet db
  del := xtdbDel db
  firstkey := some (xtdbFirstkey db)
  nextkey := some (xtdbNextkey db)

end

section

variable (db : Bdb σ)

def bdbSet (d : σ) (key val : Bytes) : Bool × σ := db.put d key val

def bdbGet (d : σ) (key : Bytes) (vsize : Nat) : Option Bytes := db.get d key vsize

def bdbDel (d : σ) (key : Bytes) : Bool × σ := db.del d key

def bdbOpen : DbConn σ where
  set := bdbSet db
  get := bdbGet db
  del := bdbDel db
  firstkey := none
  nextkey := none

end

section

variable (db : Depot σ)

def qdbmSet (d : σ) (key val : Bytes) : Bool × σ := db.put d key val

def qdbmGet (d : σ) (key : Bytes) (vsize : Nat) : Option Bytes := db.getwb d key 0 vsize

def qdbmDel (d : σ) (key : Bytes) : Bool × σ := db.out d key

def qdbmOpen : DbConn σ where
  set := qdbmSet db
  get := qdbmGet db
  del := qdbmDel db
  firstkey := none
  nextkey := none

end

section

variable (db : Tchdb σ)

def tcSet (d : σ) (key val : Bytes) : Bool × σ := db.put d key val

def tcGet (d : σ) (key : Bytes) (vsize : Nat) : Option Bytes := db.get3 d key vsize

def tcDel (d : σ) (key : Bytes) : Bool × σ := db.out d key

def tcOpen : DbConn σ where
  set := tcSet db
  get := tcGet db
  del := tcDel db
  firstkey := none
  nextkey := none

end

/-- Updates of a map: one that fails changes nothing, and a delete fails where the key is
missing. -/
structure Updates (set : σ → Bytes → Bytes → Bool × σ) (del : σ → Bytes → Bool × σ) (view : σ → KV) : Prop where
  set : ∀ d k v, ((set d k v).1 = true ∧ view (set d k v).2 = Function.update (view d) k (some v)) ∨
    ((set d k v).1 = false ∧ view (set d k v).2 = view d)
  del : ∀ d k, (del d k).1 = (view d k).isSome ∧ view (del d k).2 = Function.update (view d) k none

/-- What the manuals say of the lookups: tdb finds the whole value, Berkeley DB fails where
the buffer is too small, QDBM and Tokyo Cabinet fill it. -/
structure Tdb.Map (lib : Tdb σ) (view : σ → KV) : Prop where
  updates : Updates lib.store lib.delete view
  fetch : ∀ d k, lib.fetch d k = view d k

structure Bdb.Map (lib : Bdb σ) (view : σ → KV) : Prop where
  updates : Updates lib.put lib.del view
  get : ∀ d k n, lib.get d k n = (view d k).filter fun v => v.length ≤ n

structure Depot.Map (lib : Depot σ) (view : σ → KV) : Prop where
  updates : Updates lib.put lib.out view
  getwb : ∀ d k start n, lib.getwb d k start n =
    (view d k).bind fun v => if v.length < start then none else some ((v.drop start).take n)

structure Tchdb.Map (lib : Tchdb σ) (view : σ → KV) : Prop where
  updates : Updates lib.put lib.out view
  get3 : ∀ d k n, lib.get3 d k n = (view d k).map (List.take n)

section

variable {view : σ → KV}

theorem Tdb.Map.backend {lib : Tdb σ} (map : lib.Map view) : MapBackend (xtdbOpen lib) view where
  absent d k n missing := by
    simp only [xtdbOpen, xtdbGet, map.fetch, missing]
  present d k v n held fits := by
    simp only [xtdbOpen, xtdbGet, map.fetch, held]
    exact if_neg (Nat.not_lt.mpr fits)
  set := map.updates.set
  del := map.updates.del

theorem Bdb.Map.backend {lib : Bdb σ} (map : lib.Map view) : MapBackend (bdbOpen lib) view where
  absent d k n missing := by
    simp only [bdbOpen, bdbGet, map.get, missing, Option.filter_none]
  present d k v n held fits := by
    simp only [bdbOpen, bdbGet, map.get, held, Option.filter_some, fits, decide_true, if_true]
  set := map.updates.set
  del := map.updates.del

theorem Depot.Map.backend {lib : Depot σ} (map : lib.Map view) : MapBackend (qdbmOpen lib) view where
  absent d k n missing := by
    simp only [qdbmOpen, qdbmGet, map.getwb, missing, Option.bind_none]
  present d k v n held fits := by
    simp only [qdbmOpen, qdbmGet, map.getwb, held, Option.bind_some, Nat.not_lt_zero, if_false, List.drop_zero,
      List.take_of_length_le fits]
  set := map.updates.set
  del := map.updates.del

theorem Tchdb.Map.backend {lib : Tchdb σ} (map : lib.Map view) : MapBackend (tcOpen lib) view where
  absent d k n missing := by
    simp only [tcOpen, tcGet, map.get3, missing, Option.map_none]
  present d k v n held fits := by
    simp only [tcOpen, tcGet, map.get3, held, Option.map_some, List.take_of_length_le fits]
  set := map.updates.set
  del := map.updates.del

/-- A backend that keeps what it accepts; tells says whether del() tells that a key was
missing. -/
structure StoreBackend (db : DbConn σ) (view : σ → KV) (tells : Bool) : Prop where
  absent : ∀ d k n, view d k = none → db.get d k n = none
  present : ∀ d k v n, view d k = some v → v.length ≤ n → db.get d k n = some v
  set : ∀ d k v, (db.set d k v).1 = true ∧ view (db.set d k v).2 = Function.update (view d) k (some v)
  del : ∀ d k, view (db.del d k).2 = Function.update (view d) k none
  told : tells = true → ∀ d k, (db.del d k).1 = (view d k).isSome

theorem MapBackend.stores {db : DbConn σ} (backend : MapBackend db view)
    (accepts : ∀ d k v, (db.set d k v).1 = true) : StoreBackend db view true where
  absent := backend.absent
  present := backend.present
  set d k v := (backend.set d k v).resolve_right fun refused => by
    rw [accepts] at refused
    exact absurd refused.1 (by decide)
  del d k := (backend.del d k).2
  told _ d k := (backend.del d k).1

/- LevelDB deletes what is not there with success. -/
theorem LevelDb.OrderedMap.stores {lib : LevelDb σ ι} {shows : ι → KV × Option Bytes}
    (map : lib.OrderedMap view shows) : StoreBackend (xleveldbOpen lib) view false where
  absent d k n missing := by
    simp only [xleveldbOpen, xleveldbGet, map.get, missing]
  present d k v n held fits := by
    simp only [xleveldbOpen, xleveldbGet, map.get, held]
    exact if_neg (Nat.not_lt.mpr fits)
  set := map.put
  del d k := (map.delete d k).2
  told no := absurd no (by decide)

/-- A backend that db_open can return; the last argument is that of StoreBackend. -/
inductive Opened (view : σ → KV) : DbConn σ → Bool → Prop
  | tdb {lib : Tdb σ} (map : lib.Map view) : Opened view (xtdbOpen lib) true
  | bdb {lib : Bdb σ} (map : lib.Map view) : Opened view (bdbOpen lib) true
  | qdbm {lib : Depot σ} (map : lib.Map view) : Opened view (qdbmOpen lib) true
  | tc {lib : Tchdb σ} (map : lib.Map view) : Opened view (tcOpen lib) true
  | leveldb {ι : Type} {lib : LevelDb σ ι} {shows : ι → KV × Option Bytes} (map : lib.OrderedMap view shows) :
      Opened view (xleveldbOpen lib) false

theorem Opened.stores {db : DbConn σ} {tells : Bool} (isOpen : Opened view db tells)
    (accepts : ∀ d k v, (db.set d k v).1 = true) : StoreBackend db view tells := by
  cases isOpen with
  | tdb map => exact map.backend.stores accepts
  | bdb map => exact map.backend.stores accepts
  | qdbm map => exact map.backend.stores accepts
  | tc map => exact map.backend.stores accepts
  | leveldb map => exact map.stores

end

/-- What the database thread gets to execute in database mode. -/
structure QueueEntry.Asked (e : QueueEntry ν) : Prop where
  mapped : e.Mapped
  room : e.KeepsRoom
  cmd : e.req.cmd = e.operation.code

/-- OK and NOTIN in place of each other, for a DEL, where a backend does not tell which. -/
def SameAnswer (tells : Bool) (x y : ReqInfo ν × Reply) : Prop :=
  y = x ∨ tells = false ∧ y.1 = x.1 ∧ x.1.cmd = Req.del.code ∧
    (x.2 = .mini .ok ∨ x.2 = .mini .notin) ∧ (y.2 = .mini .ok ∨ y.2 = .mini .notin)

theorem SameAnswer.refl (tells : Bool) (x : ReqInfo ν × Reply) : SameAnswer tells x x := .inl rfl

theorem sameAnswer_told {x y : ReqInfo ν × Reply} : SameAnswer true x y ↔ x = y := by
  constructor
  · rintro (same | ⟨no, _⟩)
    · exact same.symm
    · contradiction
  · rintro rfl
    exact .refl true x

theorem StoreBackend.get_eq {db : DbConn σ} {view : σ → KV} {tells : Bool} (keeps : StoreBackend db view tells)
    {d : σ} {k : Bytes} (short : ¬ Oversized (view d k)) : db.get d k dbBufSize = view d k := by
  cases held : view d k with
  | none => exact keeps.absent d _ _ held
  | some v => exact keeps.present d _ v _ held (Nat.not_lt.mp fun large => short ⟨v, held, large⟩)

section

variable {db : DbConn σ} {db' : DbConn τ} {view : σ → KV} {view' : τ → KV} {tells tells' : Bool}

/-- Backends with the same map, on which no value is too large to be read. -/
structure SameMap (view : σ → KV) (view' : τ → KV) (d : σ) (d' : τ) : Prop where
  same : view' d' = view d
  fits : ∀ k, ¬ Oversized (view d k)

theorem SameMap.set {d : σ} {d' : τ} (map : SameMap view view' d d') (keeps : StoreBackend db view tells)
    (keeps' : StoreBackend db' view' tells') {k v : Bytes} (fits : v.length ≤ dbBufSize) :
    SameMap view view' (db.set d k v).2 (db'.set d' k v).2 where
  same := by rw [(keeps.set d k v).2, (keeps'.set d' k v).2, map.same]
  fits k' := by
    rw [(keeps.set d k v).2]
    by_cases here : k' = k
    · rw [here, Function.update_self]
      rintro ⟨_, ⟨⟩, large⟩
      exact absurd large (Nat.not_lt.mpr fits)
    · rw [Function.update_of_ne here]
      exact map.fits k'

theorem SameMap.del {d : σ} {d' : τ} (map : SameMap view view' d d') (keeps : StoreBackend db view tells)
    (keeps' : StoreBackend db' view' tells') (k : Bytes) :
    SameMap view view' (db.del d k).2 (db'.del d' k).2 where
  same := by rw [keeps.del, keeps'.del, map.same]
  fits k' := by
    rw [keeps.del]
    by_cases here : k' = k
    · rw [here, Function.update_self]
      rintro ⟨_, ⟨⟩, _⟩
    · rw [Function.update_of_ne here]
      exact map.fits k'

/-- The answers to an entry, given as the database thread gives them. -/
def Answers (tells : Bool) (e : QueueEntry ν) (r r' : Option Reply) : Prop :=
  List.Forall₂ (SameAnswer tells) (r.toList.map fun r => (e.req, r)) (r'.toList.map fun r => (e.req, r))

theorem Answers.refl (tells : Bool) (e : QueueEntry ν) (r : Option Reply) : Answers tells e r r :=
  List.forall₂_same.mpr fun x _ => .refl tells x

end

end Nmdb
