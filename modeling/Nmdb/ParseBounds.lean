import Nmdb.Ways

/-! What the parser accepts. Its size checks leave out the size fields themselves, so a
key or value may reach past the end of the message into what the buffer held before. -/
namespace Nmdb

open Wire

variable {ν : Type}

/-- The requests whose payload declares sizes. -/
def Req.sized : Req → Bool
  | .firstkey => false
  | .stats => false
  | _ => true

/-- The i-th size field of a payload. -/
def sizeField (payload : Mem) (i : Nat) : Nat := ntohl (load32 payload (4 * i))

/-- What is declared, size fields included, lies in the payload. -/
def SizesFit (c : Req) (payload : Mem) (psize : Nat) : Prop :=
  match c with
  | .set => 8 + sizeField payload 0 + sizeField payload 1 ≤ psize
  | .cas => 12 + sizeField payload 0 + sizeField payload 1 + sizeField payload 2 ≤ psize
  | .incr => 4 + sizeField payload 0 + 8 ≤ psize
  | _ => 4 + sizeField payload 0 ≤ psize

/-- The size checks of the parse functions turn the message down. -/
def SizesRefused (c : Req) (payload : Mem) (psize : Nat) : Prop :=
  match c with
  | .set => psize < sizeField payload 0 ∨ psize < sizeField payload 1 ∨
      maxSize < sizeField payload 0 ∨ maxSize < sizeField payload 1 ∨
      maxSize < u32 (sizeField payload 0 + sizeField payload 1)
  | .cas => psize < sizeField payload 0 ∨ psize < sizeField payload 1 ∨
      psize < sizeField payload 2 ∨ maxSize < sizeField payload 0 ∨
      maxSize < sizeField payload 1 ∨ maxSize < sizeField payload 2 ∨
      maxSize < u32 (sizeField payload 0 + sizeField payload 1 + sizeField payload 2)
  | .incr => psize < u32 (sizeField payload 0 + 8) ∨ maxSize < u32 (sizeField payload 0 + 8)
  | _ => psize < sizeField payload 0

instance (c : Req) (payload : Mem) (psize : Nat) : Decidable (SizesRefused c payload psize) := by
  cases c <;> unfold SizesRefused <;> infer_instance

/-- The operands the parse functions cut out of the payload. -/
def operands (c : Req) (payload : Mem) : Option Request :=
  match c with
  | .get => some (.get (slice payload 4 (sizeField payload 0)))
  | .set => some (.set (slice payload 8 (sizeField payload 0))
      (slice payload (8 + sizeField payload 0) (sizeField payload 1)))
  | .del => some (.del (slice payload 4 (sizeField payload 0)))
  | .cas => some (.cas (slice payload 12 (sizeField payload 0))
      (slice payload (12 + sizeField payload 0) (sizeField payload 1))
      (slice payload (12 + sizeField payload 0 + sizeField payload 1) (sizeField payload 2)))
  | .incr => some (.incr (slice payload 4 (sizeField payload 0))
      (toInt64 (ntohll (load64 payload (4 + sizeField payload 0)))))
  | .nextkey => some (.nextkey (slice payload 4 (sizeField payload 0)))
  | .firstkey => none
  | .stats => none

theorem bind_ite {α β : Type} (c : Prop) [Decidable c] (a : α) (f : α → Option β) :
    ((if c then some a else none) >>= f) = if c then f a else none := by
  split <;> rfl

theorem field_slice (payload : Mem) (i : Nat) :
    bigEndian (slice payload (4 * i) 4) = sizeField payload i := (ntohl_load32 payload (4 * i)).symm

theorem declaredKey_slice (payload : Mem) (psize : Nat) :
    declaredKey (slice payload 0 psize) =
      if 4 + sizeField payload 0 ≤ psize then some (slice payload 4 (sizeField payload 0)) else none := by
  have field := field_slice payload 0
  simp only [Nat.mul_zero] at field
  simp only [declaredKey, word_slice, take_slice, bind_ite, Nat.zero_add, field]
  by_cases fits : 4 + sizeField payload 0 ≤ psize
  · rw [if_pos fits, if_pos (by omega), if_pos (by omega)]
    rfl
  · rw [if_neg fits]
    split
    · rw [if_neg (by omega)]
    · rfl

/-- The decoder finds the operands exactly where all that is declared fits. -/
theorem declared_slice (c : Req) (payload : Mem) (psize : Nat) :
    (SizesFit c payload psize → declared c (slice payload 0 psize) = operands c payload) ∧
    (¬ SizesFit c payload psize → declared c (slice payload 0 psize) = none) := by
  have field0 := field_slice payload 0
  have field1 := field_slice payload 1
  have field2 := field_slice payload 2
  simp only [Nat.mul_zero, Nat.mul_one, Nat.reduceMul] at field0 field1 field2
  cases c with
  | get =>
    simp only [declared, operands, SizesFit, declaredKey_slice]
    exact ⟨fun fits => by rw [if_pos fits]; rfl, fun short => by rw [if_neg short]; rfl⟩
  | set =>
    simp only [declared, operands, SizesFit, word_slice, take_slice, bind_ite, Nat.zero_add, Nat.reduceAdd,
      field0, field1]
    constructor
    · intro fits
      rw [if_pos (by omega), if_pos (by omega), if_pos (by omega), if_pos (by omega)]
      rfl
    · intro short
      split
      · split
        · split
          · rw [if_neg (by omega)]
          · rfl
        · rfl
      · rfl
  | del =>
    simp only [declared, operands, SizesFit, declaredKey_slice]
    exact ⟨fun fits => by rw [if_pos fits]; rfl, fun short => by rw [if_neg short]; rfl⟩
  | cas =>
    simp only [declared, operands, SizesFit, word_slice, take_slice, bind_ite, Nat.zero_add, Nat.reduceAdd,
      field0, field1, field2]
    constructor
    · intro fits
      rw [if_pos (by omega), if_pos (by omega), if_pos (by omega), if_pos (by omega), if_pos (by omega),
        if_pos (by omega)]
      rfl
    · intro short
      split
      · split
        · split
          · split
            · split
              · rw [if_neg (by omega)]
              · rfl
            · rfl
          · rfl
        · rfl
      · rfl
  | incr =>
    simp only [declared, operands, SizesFit, word_slice, take_slice, bind_ite, Nat.zero_add, field0,
      ntohll_load64]
    constructor
    · intro fits
      rw [if_pos (by omega), if_pos (by omega), if_pos (by omega)]
      rfl
    · intro short
      split
      · split
        · rw [if_neg (by omega)]
        · rfl
      · rfl
  | nextkey =>
    simp only [declared, operands, SizesFit, declaredKey_slice]
    exact ⟨fun fits => by rw [if_pos fits]; rfl, fun short => by rw [if_neg short]; rfl⟩
  | firstkey => exact ⟨fun _ => rfl, fun _ => rfl⟩
  | stats => exact ⟨fun _ => rfl, fun _ => rfl⟩

theorem parseCommand_eq (m : Mallocs) (s : Server ν) {req : ReqInfo ν} {c : Req}
    (cmd : req.cmd = c.code) (payload : Mem) (psize : Nat) :
    parseCommand m s req payload psize =
      match c with
      | .get => parseGet m s req payload psize
      | .set => parseSet m s req payload psize
      | .del => parseDel m s req payload psize
      | .cas => parseCas m s req payload psize
      | .incr => parseIncr m s req payload psize
      | .firstkey => parseFirstkey m s req
      | .nextkey => parseNextkey m s req payload psize
      | .stats => .ok (parseStats s req) := by
  cases c <;> simp [parseCommand, cmd, Req.code]

/-- A message with sizes is turned down by its size checks, or its operands are served. -/
theorem parseCommand_sized (m : Mallocs) (s : Server ν) {req : ReqInfo ν} {c : Req} {r : Request}
    {payload : Mem} (psize : Nat) (cmd : req.cmd = c.code) (ops : operands c payload = some r) :
    parseCommand m s req payload psize =
      if SizesRefused c payload psize then .ok (s.broken req) else serve m s req r := by
  rw [parseCommand_eq m s cmd]
  cases c with
  | get =>
    cases ops
    exact if_congr Iff.rfl rfl rfl
  | set =>
    cases ops
    exact if_congr Iff.rfl rfl rfl
  | del =>
    cases ops
    exact if_congr Iff.rfl rfl rfl
  | cas =>
    cases ops
    exact if_congr Iff.rfl rfl rfl
  | incr =>
    cases ops
    exact if_congr Iff.rfl rfl rfl
  | nextkey =>
    cases ops
    exact if_congr Iff.rfl rfl rfl
  | firstkey => cases ops
  | stats => cases ops

/- What serving a request does besides the cache: it replies to the request and queues it.
The settings are not its business, nor is the count of broken requests. -/
structure Footprint (req : ReqInfo ν) (s s' : Server ν) : Prop where
  brokenReq : s'.stats.netBrokenReq = s.stats.netBrokenReq
  settings : s'.settings = s.settings
  replies : ∃ rs, s'.replies = s.replies ++ rs ∧ ∀ x ∈ rs, x.1 = req
  queue : ∃ es, s'.queue = s.queue ++ es ∧ ∀ e ∈ es, e.req = req

section

variable {m : Mallocs} {s s' : Server ν} {req : ReqInfo ν}

theorem Leaves.footprint {cd : Cache} {e : Option (QueueEntry ν)} {reply : Option Reply}
    (leaves : Leaves s s' req cd e reply) (own : ∀ x ∈ e, x.req = req) : Footprint req s s' := by
  refine ⟨leaves.brokenReq, leaves.settings, ⟨_, leaves.replies, ?_⟩, _, leaves.queue, ?_⟩
  · intro x hx
    obtain ⟨r, _, rfl⟩ := Option.map_eq_some_iff.mp (Option.mem_toList.mp hx)
    rfl
  · intro x hx
    exact own x (Option.mem_toList.mp hx)

theorem parseFirstkey_footprint (done : parseFirstkey m s req = .ok s') : Footprint req s s' := by
  obtain ⟨e, reply, queued, leaves⟩ := parseFirstkey_way done
  exact leaves.footprint fun x hx => congrArg QueueEntry.req (queued.own x hx)

theorem serve_footprint {r : Request} (done : serve m s req r = .ok s') : Footprint req s s' := by
  rcases serve_way done with ⟨_, _, rfl⟩ | ⟨_, cd, e, reply, way, leaves⟩
  · exact (leaves_reply s req _).footprint fun x none => by contradiction
  · exact leaves.footprint fun x hx => (congrArg QueueEntry.req (way.own x hx)).trans (r.entry_req req)

theorem serve_not_broken (r : Request) : serve m s req r ≠ .ok (s.broken req) := by
  intro done
  have same : s.stats.netBrokenReq + 1 = s.stats.netBrokenReq := (serve_footprint done).brokenReq
  have moved : s.stats.netBrokenReq + 1 ≠ s.stats.netBrokenReq := by
    intro h
    have word := congrArg UInt64.toNat h
    have small := s.stats.netBrokenReq.toNat_lt
    rw [UInt64.toNat_add, UInt64.toNat_one] at word
    omega
  exact moved same

end

/- A sized message is answered ERR_BROKEN, with cache and queue unchanged, unless all it
declares lies in its payload; if it is served, it is with the declared operands. -/
def AcceptsOnlyDeclared (m : Mallocs) (s : Server ν) (req : ReqInfo ν) (buf : Mem) (len : Nat) : Prop :=
  version buf = PROTO_VER → ∀ c : Req, c.sized → command buf = c.code →
    match declared c (slice (buf.from 8) 0 (len - 8)) with
    | none => parseMessage m s req buf len = .ok (true, s.broken (headerInfo req buf))
    | some r => parseMessage m s req buf len = .ok (true, s.broken (headerInfo req buf)) ∨
        parseMessage m s req buf len = serve m s (headerInfo req buf) r >>= fun s => .ok (true, s)

/-- Whatever the size checks let through fits, size fields included. -/
def SizesChecked (buf : Mem) (len : Nat) : Prop :=
  version buf = PROTO_VER → ∀ c : Req, c.sized → command buf = c.code →
    SizesFit c (buf.from 8) (len - 8) ∨ SizesRefused c (buf.from 8) (len - 8)

section

variable {m : Mallocs} {s : Server ν} {req : ReqInfo ν} {buf buf' : Mem} {len : Nat} {c : Req}

theorem operands_sized (sized : c.sized) (payload : Mem) : ∃ r, operands c payload = some r := by
  cases c with
  | firstkey => contradiction
  | stats => contradiction
  | _ => exact ⟨_, rfl⟩

theorem parseMessage_sized (m : Mallocs) (s : Server ν) (req : ReqInfo ν) (header : 8 ≤ len)
    (ver : version buf = PROTO_VER)
    (cmd : command buf = c.code) {r : Request} (ops : operands c (buf.from 8) = some r) :
    parseMessage m s req buf len =
      (if SizesRefused c (buf.from 8) (len - 8) then .ok (s.broken (headerInfo req buf))
        else serve m s (headerInfo req buf) r) >>= fun s => .ok (true, s) := by
  unfold parseMessage
  rw [if_neg (not_not_intro ver), parseCommand_sized m s _ (show (headerInfo req buf).cmd = _ from cmd) ops,
    sizeSub, if_pos header]
  rfl

theorem acceptsOnlyDeclared_iff (header : 8 ≤ len) :
    AcceptsOnlyDeclared m s req buf len ↔ SizesChecked buf len := by
  constructor
  · intro accepts ver c sized cmd
    obtain ⟨r, ops⟩ := operands_sized sized (buf.from 8)
    by_contra slips
    obtain ⟨short, passed⟩ := not_or.mp slips
    have answered := accepts ver c sized cmd
    rw [(declared_slice c (buf.from 8) (len - 8)).2 short] at answered
    have served := parseMessage_sized m s req header ver cmd ops
    rw [if_neg passed] at served
    obtain ⟨s', done, same⟩ := bind_eq_ok.mp (served.symm.trans answered)
    cases same
    exact serve_not_broken r done
  · intro checked ver c sized cmd
    obtain ⟨r, ops⟩ := operands_sized sized (buf.from 8)
    have outcome := parseMessage_sized m s req header ver cmd ops
    by_cases fits : SizesFit c (buf.from 8) (len - 8)
    · rw [(declared_slice c (buf.from 8) (len - 8)).1 fits, ops]
      by_cases refused : SizesRefused c (buf.from 8) (len - 8)
      · rw [if_pos refused] at outcome
        exact .inl outcome
      · rw [if_neg refused] at outcome
        exact .inr outcome
    · rw [(declared_slice c (buf.from 8) (len - 8)).2 fits]
      have refused := (checked ver c sized cmd).resolve_left fits
      rw [if_pos refused] at outcome
      exact outcome

theorem header_same (header : 8 ≤ len) (same : SameUpTo len buf buf') :
    version buf = version buf' ∧ command buf = command buf' ∧
      ∀ req : ReqInfo ν, headerInfo req buf = headerInfo req buf' := by
  have word : load32 buf 0 = load32 buf' 0 := load32_same same (by omega)
  have code : load16 buf 4 = load16 buf' 4 := load16_same same (by omega)
  have bits : load16 buf 6 = load16 buf' 6 := load16_same same (by omega)
  refine ⟨by rw [version, word, version], by rw [command, code, command], fun req => ?_⟩
  simp only [headerInfo, requestId, command, flagBits, word, code, bits]

/- Where all fits, the sizes and the operands are read from the message alone. -/
theorem fit_same {payload payload' : Mem} {psize : Nat} (same : SameUpTo psize payload payload')
    (sized : c.sized) (fits : SizesFit c payload psize) :
    SizesFit c payload' psize ∧ operands c payload = operands c payload' ∧
      (SizesRefused c payload psize ↔ SizesRefused c payload' psize) := by
  have field : ∀ i, 4 * i + 4 ≤ psize → sizeField payload i = sizeField payload' i := fun i inside => by
    rw [sizeField, load32_same same inside, sizeField]
  cases c with
  | get =>
    have f0 := field 0 (by simp only [SizesFit] at fits; omega)
    simp only [SizesFit, operands, SizesRefused] at fits ⊢
    rw [← f0]
    exact ⟨fits, by rw [slice_same same fits], Iff.rfl⟩
  | set =>
    have f0 := field 0 (by simp only [SizesFit] at fits; omega)
    have f1 := field 1 (by simp only [SizesFit] at fits; omega)
    simp only [SizesFit, operands, SizesRefused] at fits ⊢
    rw [← f0, ← f1]
    exact ⟨fits, by rw [slice_same same (by omega), slice_same same fits], Iff.rfl⟩
  | del =>
    have f0 := field 0 (by simp only [SizesFit] at fits; omega)
    simp only [SizesFit, operands, SizesRefused] at fits ⊢
    rw [← f0]
    exact ⟨fits, by rw [slice_same same fits], Iff.rfl⟩
  | cas =>
    have f0 := field 0 (by simp only [SizesFit] at fits; omega)
    have f1 := field 1 (by simp only [SizesFit] at fits; omega)
    have f2 := field 2 (by simp only [SizesFit] at fits; omega)
    simp only [SizesFit, operands, SizesRefused] at fits ⊢
    rw [← f0, ← f1, ← f2]
    exact ⟨fits, by rw [slice_same same (by omega), slice_same same (by omega), slice_same same fits], Iff.rfl⟩
  | incr =>
    have f0 := field 0 (by simp only [SizesFit] at fits; omega)
    simp only [SizesFit, operands, SizesRefused] at fits ⊢
    rw [← f0]
    exact ⟨fits, by rw [slice_same same (by omega), load64_same same (by omega)], Iff.rfl⟩
  | nextkey =>
    have f0 := field 0 (by simp only [SizesFit] at fits; omega)
    simp only [SizesFit, operands, SizesRefused] at fits ⊢
    rw [← f0]
    exact ⟨fits, by rw [slice_same same fits], Iff.rfl⟩
  | firstkey => contradiction
  | stats => contradiction

theorem parseCommand_unsized (payload payload' : Mem) {psize : Nat}
    (unsized : ∀ c : Req, c.sized → req.cmd ≠ c.code) :
    parseCommand m s req payload psize = parseCommand m s req payload' psize := by
  unfold parseCommand
  rw [if_neg (unsized .get rfl), if_neg (unsized .set rfl), if_neg (unsized .del rfl),
    if_neg (unsized .cas rfl), if_neg (unsized .incr rfl), if_neg (unsized .nextkey rfl),
    if_neg (unsized .get rfl), if_neg (unsized .set rfl), if_neg (unsized .del rfl),
    if_neg (unsized .cas rfl), if_neg (unsized .incr rfl), if_neg (unsized .nextkey rfl)]

theorem parseMessage_same (header : 8 ≤ len) (same : SameUpTo len buf buf')
    (checked : SizesChecked buf len) (checked' : SizesChecked buf' len) :
    parseMessage m s req buf len = parseMessage m s req buf' len := by
  obtain ⟨version_same, command_same, info⟩ := header_same header same
  by_cases ver : version buf = PROTO_VER
  · have ver' : version buf' = PROTO_VER := version_same ▸ ver
    by_cases sized : ∃ c : Req, c.sized ∧ command buf = c.code
    · obtain ⟨c, sized, cmd⟩ := sized
      have cmd' : command buf' = c.code := command_same ▸ cmd
      have payloads : SameUpTo (len - 8) (buf.from 8) (buf'.from 8) := same.from 8
      obtain ⟨r, ops⟩ := operands_sized sized (buf.from 8)
      obtain ⟨r', ops'⟩ := operands_sized sized (buf'.from 8)
      rw [parseMessage_sized m s req header ver cmd ops, parseMessage_sized m s req header ver' cmd' ops',
        ← info req]
      by_cases fits : SizesFit c (buf.from 8) (len - 8)
      · obtain ⟨_, agree, refuse⟩ := fit_same payloads sized fits
        rw [ops, ops'] at agree
        rw [Option.some.inj agree]
        simp only [refuse]
      · have short' : ¬ SizesFit c (buf'.from 8) (len - 8) := fun fits' =>
          fits (fit_same payloads.symm sized fits').1
        rw [if_pos ((checked ver c sized cmd).resolve_left fits),
          if_pos ((checked' ver' c sized cmd').resolve_left short')]
    · have unsized : ∀ c : Req, c.sized → (headerInfo req buf).cmd ≠ c.code := fun c hc cmd =>
        sized ⟨c, hc, cmd⟩
      unfold parseMessage
      rw [if_neg (not_not_intro ver), if_neg (not_not_intro ver'), ← info req,
        parseCommand_unsized (buf.from 8) (buf'.from 8) unsized]
  · have ver' : version buf' ≠ PROTO_VER := version_same ▸ ver
    have word : load32 buf 0 = load32 buf' 0 := load32_same same (by omega)
    unfold parseMessage
    rw [if_pos ver, if_pos ver', requestId, word, requestId]

/-- Two buffers that hold the same message are both served from the message alone, and
alike, exactly when the size checks leave nothing outside it. -/
theorem parser_accepts_declared_iff (m : Mallocs) (s : Server ν) (req : ReqInfo ν)
    (header : 8 ≤ len) (same : SameUpTo len buf buf') :
    (AcceptsOnlyDeclared m s req buf len ∧ AcceptsOnlyDeclared m s req buf' len ∧
      parseMessage m s req buf len = parseMessage m s req buf' len) ↔
    SizesChecked buf len ∧ SizesChecked buf' len := by
  constructor
  · rintro ⟨accepts, accepts', _⟩
    exact ⟨(acceptsOnlyDeclared_iff header).mp accepts, (acceptsOnlyDeclared_iff header).mp accepts'⟩
  · rintro ⟨checked, checked'⟩
    exact ⟨(acceptsOnlyDeclared_iff header).mpr checked, (acceptsOnlyDeclared_iff header).mpr checked',
      parseMessage_same header same checked checked'⟩

end

/-- A cache-only GET of a four byte key whose payload ends after the size field. -/
def shortGet (stale : Bytes) : Mem :=
  Mem.ofBytes ([0x10, 0, 0, 0, 0x01, 0x01, 0, 1, 0, 0, 0, 4] ++ stale)

def oneEntry : Cache :=
  ⟨4, 0, 1, fun _ => ⟨1, fun i => if i.val = 0 then ⟨.block [65, 65, 65, 65], .block [7], 4, 1, none, none⟩
    else ⟨.null, .null, -1, -1, none, none⟩, some ⟨0, by decide⟩, some ⟨0, by decide⟩⟩⟩

def serverOf (cache : Cache) : Server Nat := ⟨cache, [], {}, ⟨false⟩, []⟩

theorem parser_accepts_declared_iff_reject :
    AcceptsOnlyDeclared Mallocs.plenty (serverOf oneEntry) ⟨0, 0, 0, 0⟩
        (Mem.ofBytes [0x10, 0, 0, 0, 0x01, 0x01, 0, 1, 0, 0, 0, 9]) 12 := by
  have itself : SameUpTo 12 (Mem.ofBytes [0x10, 0, 0, 0, 0x01, 0x01, 0, 1, 0, 0, 0, 9])
      (Mem.ofBytes [0x10, 0, 0, 0, 0x01, 0x01, 0, 1, 0, 0, 0, 9]) := fun _ _ => rfl
  refine ((parser_accepts_declared_iff Mallocs.plenty (serverOf oneEntry) ⟨0, 0, 0, 0⟩ (by decide)
    itself).mpr ?_).1
  have checked : SizesChecked (Mem.ofBytes [0x10, 0, 0, 0, 0x01, 0x01, 0, 1, 0, 0, 0, 9]) 12 := by
    intro _ c _ cmd
    cases c with
    | get => exact .inr (by decide)
    | _ => exact absurd cmd (by decide)
  exact ⟨checked, checked⟩

/-- The key is taken from what the buffer held before, and the reply depends on it. -/
theorem short_get_reads_stale_bytes :
    SameUpTo 12 (shortGet [65, 65, 65, 65]) (shortGet [66, 66, 66, 66]) ∧
    ¬ (AcceptsOnlyDeclared Mallocs.plenty (serverOf oneEntry) ⟨0, 0, 0, 0⟩ (shortGet [65, 65, 65, 65]) 12 ∧
      AcceptsOnlyDeclared Mallocs.plenty (serverOf oneEntry) ⟨0, 0, 0, 0⟩ (shortGet [66, 66, 66, 66]) 12 ∧
      parseMessage Mallocs.plenty (serverOf oneEntry) ⟨0, 0, 0, 0⟩ (shortGet [65, 65, 65, 65]) 12 =
        parseMessage Mallocs.plenty (serverOf oneEntry) ⟨0, 0, 0, 0⟩ (shortGet [66, 66, 66, 66]) 12) := by
  refine ⟨ofBytes_append [0x10, 0, 0, 0, 0x01, 0x01, 0, 1, 0, 0, 0, 4] _ _, ?_⟩
  rintro ⟨_, _, same⟩
  have replies := congrArg (fun x => match x with
    | .ok (_, s) => s.replies.map Prod.snd
    | .error _ => []) same
  exact absurd replies (by decide)

end Nmdb
