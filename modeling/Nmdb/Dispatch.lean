import Nmdb.Atomicity
import Nmdb.Served

/-! Where a message goes. The header and the size fields alone decide which part of the
parser answers it, apart from the read-only setting. -/
namespace Nmdb

variable {ν : Type}

inductive Route where
  | version
  | unknown
  | stats
  | firstkey
  | broken
  | readOnly
  | request (r : Request)
  deriving DecidableEq, Repr

def route (readOnly : Bool) (buf : Mem) (len : Nat) : Route :=
  if version buf ≠ PROTO_VER then .version
  else
    match Req.ofCode (command buf) with
    | none => .unknown
    | some c =>
      match operands c (buf.from 8) with
      | none => if c = .firstkey then .firstkey else .stats
      | some r =>
        if SizesRefused c (buf.from 8) (sizeSub len 8) then .broken
        else if readOnly && r.writes then .readOnly
        else .request r

/-- What is done at the end of a route, with the header in the request information. -/
def Route.follow (m : Mallocs) (s : Server ν) (req : ReqInfo ν) : Route → Except Fault (Server ν)
  | .version =>
    let s := s.count fun st => { st with netVersionMismatch := st.netVersionMismatch + 1 }
    .ok (s.reply req (.err .ver))
  | .unknown =>
    let s := s.count fun st => { st with netUnkReq := st.netUnkReq + 1 }
    .ok (s.reply req (.err .unkreq))
  | .stats => .ok (parseStats s req)
  | .firstkey => parseFirstkey m s req
  | .broken => .ok (s.broken req)
  | .readOnly => .ok (s.reply req (.err .ro))
  | .request r => serve m s req r

/-- What parse_message leaves in the request information when it replies. The id of a
message of another version stays in host byte order. -/
def replyInfo (req : ReqInfo ν) (buf : Mem) : ReqInfo ν :=
  if version buf = PROTO_VER then headerInfo req buf else { req with id := requestId buf }

theorem replyInfo_net (req : ReqInfo ν) (buf : Mem) : (replyInfo req buf).net = req.net := by
  unfold replyInfo headerInfo
  split <;> rfl

theorem Req.ofCode_code (c : Req) : Req.ofCode c.code = some c := by
  cases c <;> rfl

theorem Req.ofCode_none {n : Nat} (missing : Req.ofCode n = none) (c : Req) : n ≠ c.code := by
  rintro rfl
  rw [Req.ofCode_code] at missing
  contradiction

theorem serve_readOnly {m : Mallocs} {s : Server ν} {req : ReqInfo ν} {r : Request}
    (readOnly : s.settings.readOnly = true) (writes : r.writes = true) :
    serve m s req r = .ok (s.reply req (.err .ro)) := by
  cases r with
  | get key => contradiction
  | nextkey key => contradiction
  | _ => exact if_pos readOnly

theorem parseCommand_unknown {m : Mallocs} {s : Server ν} {req : ReqInfo ν} {payload : Mem} {psize : Nat}
    (unknown : Req.ofCode req.cmd = none) :
    parseCommand m s req payload psize = Route.unknown.follow m s req := by
  have other := Req.ofCode_none unknown
  unfold parseCommand
  rw [if_neg (other .get), if_neg (other .set), if_neg (other .del), if_neg (other .cas),
    if_neg (other .incr), if_neg (other .firstkey), if_neg (other .nextkey), if_neg (other .stats)]
  rfl

/-- A message is handled by the end of its route; it is understood if its version is. -/
theorem parseMessage_route (m : Mallocs) (s : Server ν) (req : ReqInfo ν) (buf : Mem) (len : Nat) :
    parseMessage m s req buf len =
      (route s.settings.readOnly buf len).follow m s (replyInfo req buf) >>= fun s =>
        .ok (decide (version buf = PROTO_VER), s) := by
  by_cases ver : version buf = PROTO_VER
  · have info : replyInfo req buf = headerInfo req buf := if_pos ver
    simp only [parseMessage, route, ver, ne_eq, not_true_eq_false, if_false, decide_true, info, pure_ok]
    refine congrArg (· >>= fun s => Except.ok (true, s)) ?_
    cases code : Req.ofCode (command buf) with
    | none => exact parseCommand_unknown code
    | some c =>
      have cmd : (headerInfo req buf).cmd = c.code := Req.ofCode_some code
      cases ops : operands c (buf.from 8) with
      | none =>
        rw [parseCommand_eq m s cmd]
        cases c with
        | firstkey => rfl
        | stats => rfl
        | _ => contradiction
      | some r =>
        rw [parseCommand_sized m s _ cmd ops]
        by_cases refused : SizesRefused c (buf.from 8) (sizeSub len 8)
        · simp only [ops, if_pos refused]
          rfl
        · simp only [ops, if_neg refused]
          by_cases ro : s.settings.readOnly = true ∧ r.writes = true
          · rw [serve_readOnly ro.1 ro.2]
            simp only [ro.1, ro.2, Bool.and_self, if_true]
            rfl
          · rw [← Bool.and_eq_true] at ro
            simp only [if_neg ro]
            rfl
  · have info : replyInfo req buf = { req with id := requestId buf } := if_neg ver
    simp only [parseMessage, route, ver, ne_eq, not_false_eq_true, if_true, decide_false, info]
    rfl

/-- What is known of a message that is served. -/
theorem route_request {readOnly : Bool} {buf : Mem} {len : Nat} {r : Request}
    (way : route readOnly buf len = .request r) :
    version buf = PROTO_VER ∧ (readOnly = false ∨ r.writes = false) ∧
      ∃ c : Req, command buf = c.code ∧ operands c (buf.from 8) = some r ∧
        ¬ SizesRefused c (buf.from 8) (sizeSub len 8) := by
  unfold route at way
  split at way
  · contradiction
  case isFalse ver =>
    split at way
    · contradiction
    case h_2 c code =>
      split at way
      · split at way <;> contradiction
      case h_2 r' ops =>
        split at way
        · contradiction
        case isFalse passed =>
          split at way
          · contradiction
          case isFalse mayWrite =>
            cases way
            refine ⟨Classical.not_not.mp ver, ?_, c, Req.ofCode_some code, ops, passed⟩
            rw [Bool.and_eq_true, not_and_or, Bool.not_eq_true, Bool.not_eq_true] at mayWrite
            exact mayWrite

section

variable {m : Mallocs} {s s' : Server ν} {req : ReqInfo ν}

theorem parseFirstkey_cache (done : parseFirstkey m s req = .ok s') : s'.cache = s.cache := by
  obtain ⟨e, reply, _, leaves⟩ := parseFirstkey_way done
  exact leaves.cache

/-- A request leaves the cache alone, or it does one operation on it. -/
theorem serve_cache {r : Request} (done : serve m s req r = .ok s') :
    s'.cache = s.cache ∨ (r.writes = true ∧ s.settings.readOnly = false ∧
      ∃ result, r.cacheOp.exec m.cache s.cache = .ok (result, s'.cache)) := by
  rcases serve_way done with ⟨_, _, rfl⟩ | ⟨may, cd, e, reply, way, leaves⟩
  · exact .inl rfl
  · rcases way.cache with ⟨_, rfl⟩ | ⟨writes, result, ran⟩
    · exact .inl leaves.cache
    · have mayWrite := may.resolve_right (by rw [writes]; decide)
      exact .inr ⟨writes, mayWrite, result, leaves.cache ▸ ran⟩

/-- What a message does to the cache. -/
theorem parseMessage_cache {buf : Mem} {len : Nat} {understood : Bool}
    (done : parseMessage m s req buf len = .ok (understood, s')) :
    s'.settings = s.settings ∧ (s'.cache = s.cache ∨ ∃ r : Request, r.writes = true ∧
      s.settings.readOnly = false ∧ ∃ result, r.cacheOp.exec m.cache s.cache = .ok (result, s'.cache)) := by
  rw [parseMessage_route] at done
  obtain ⟨s₁, followed, done⟩ := bind_eq_ok.mp done
  cases done
  cases way : route s.settings.readOnly buf len with
  | firstkey =>
    rw [way] at followed
    exact ⟨(parseFirstkey_footprint followed).settings, .inl (parseFirstkey_cache followed)⟩
  | request r =>
    rw [way] at followed
    refine ⟨(serve_footprint followed).settings, (serve_cache followed).imp id fun h => ⟨r, h⟩⟩
  | _ =>
    rw [way] at followed
    cases followed
    exact ⟨rfl, .inl rfl⟩

theorem parseMessage_represented (represented : s.cache.Represented) {buf : Mem} {len : Nat}
    {understood : Bool} (done : parseMessage m s req buf len = .ok (understood, s')) :
    s'.cache.Represented := by
  rcases (parseMessage_cache done).2 with same | ⟨r, _, _, result, ran⟩
  · rw [same]
    exact represented
  · exact represented.exec ran

end

end Nmdb
