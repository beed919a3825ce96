import Nmdb.Tcp
import Nmdb.Lib.Runs

/-! The receive path of a connection with its memory watched: every access of a buffer is
checked against the SBSIZE bytes of the buffer, every use of the socket against its being
freed. The checks always pass, so the path does what it does without them. -/
namespace Nmdb

variable {σ : Type}

/-- What the callback of a connection works on. A socket that was freed is none. -/
structure Receiver (σ : Type) where
  static : Mem
  sock : Option TcpSocket
  st : σ

/-- The buffers process_buf is given. -/
inductive Buffer where
  | static
  | own
  deriving DecidableEq, Repr

/-- So many bytes from off on lie inside a buffer. -/
def within (off count : Nat) : Except Fault Unit :=
  if off + count ≤ SBSIZE then .ok () else .error .outOfBounds

namespace Receiver

/-- tcpsock-> -/
def tcpsock (r : Receiver σ) : Except Fault TcpSocket :=
  match r.sock with
  | some k => .ok k
  | none => .error .nullDeref

def assign (r : Receiver σ) (f : TcpSocket → TcpSocket) : Except Fault (Receiver σ) := do
  let k ← r.tcpsock
  return { r with sock := some (f k) }

def load (r : Receiver σ) : Buffer → Except Fault Mem
  | .static => .ok r.static
  | .own => do
    let k ← r.tcpsock
    match k.buf with
    | some buf => return buf
    | none => .error .nullDeref

def store (r : Receiver σ) (p : Buffer) (buf : Mem) : Except Fault (Receiver σ) :=
  match p with
  | .static => .ok { r with static := buf }
  | .own => r.assign fun k => { k with buf := some buf }

/-- close(tcpsock->fd), event_del(tcpsock->evt) and tcp_socket_free(tcpsock). -/
def errorExit (r : Receiver σ) : Except Fault (Receiver σ) := do
  let _ ← r.tcpsock
  return { r with sock := none }

def processBuf (parse : σ → ReqInfo Client → Mem → Nat → Bool × σ) (ok : Bool) :
    Nat → Receiver σ → Buffer → Nat → Except Fault (Receiver σ)
  | 0, _, _, _ => .error .diverges
  | fuel + 1, r, p, len => do
    let buf ← r.load p
    let _ ← within 0 (if 4 ≤ len then 4 else 0)
    let total := totaltoget buf len
    if 4 ≤ len ∧ (maxPacket < total ∨ total ≤ 8) then r.errorExit
    else if len < total then
      let k ← r.tcpsock
      match k.buf with
      | none =>
        if !ok then r.errorExit
        else
          -- memcpy() between two buffers
          let _ ← within 0 len
          let copy : Mem := fun i => if i < len then buf i else indeterminate
          r.assign fun k => { k with buf := some copy, len := len, pktsize := total }
      | some _ => r.assign fun k => { k with len := len, pktsize := total }
    else
      let r ← r.assign fun k => if total < len then { k with excess := len - total } else k
      let len := if total < len then total else len
      let k ← r.tcpsock
      let _ ← within 4 (len - 4)
      let (rv, st) := parse r.st k.req (buf.from 4) (len - 4)
      let r := { r with st := st }
      if !rv then r.errorExit
      else if k.excess ≠ 0 then
        let _ ← within len k.excess
        let _ ← within 0 k.excess
        let r ← r.store p (memmove buf len k.excess)
        let r ← r.assign fun k => initReq { k with len := k.excess, excess := 0 }
        processBuf parse ok fuel r p len
      else
        match k.buf with
        | none => return r
        | some _ => r.assign fun k => { k with buf := none, len := 0, pktsize := 0, excess := 0 }

/-- The callback. What recv() finds is none where there is nothing yet, and no bytes at the
end of the stream or on an error; it takes no more than it is asked for. -/
def tcpRecv (parse : σ → ReqInfo Client → Mem → Nat → Bool × σ) (ok : Bool) (r : Receiver σ)
    (found : Option Bytes) : Except Fault (Receiver σ) := do
  let k ← r.tcpsock
  match k.buf with
  | none =>
    let _ ← within 0 SBSIZE
    match found with
    | none => return r
    | some b =>
      let rv := b.take SBSIZE
      if rv = [] then r.errorExit
      else
        let r ← r.store .static (received r.static 0 rv)
        let r ← r.assign initReq
        processBuf parse ok (rv.length + 1) r .static rv.length
  | some buf =>
    let maxtoread := sizeSub k.pktsize k.len
    let _ ← within k.len maxtoread
    match found with
    | none => return r
    | some b =>
      let rv := b.take maxtoread
      if rv = [] then r.errorExit
      else
        let r ← r.store .own (received buf k.len rv)
        let r ← r.assign fun k => { k with len := k.len + rv.length }
        processBuf parse ok (k.len + rv.length + 1) r .own (k.len + rv.length)

/-- One event of the loop. A freed socket has none left. -/
def step (parse : σ → ReqInfo Client → Mem → Nat → Bool × σ) (r : Receiver σ) (ev : Bool × Option Bytes) :
    Except Fault (Receiver σ) :=
  match r.sock with
  | none => .ok r
  | some _ => r.tcpRecv parse ev.1 ev.2

def start (client : Client) (static : Mem) (st : σ) : Receiver σ := ⟨static, some (TcpSocket.new client), st⟩

end Receiver

/-- Nothing is left over, and a message that is not complete misses something. -/
structure TcpSocket.Bounded (k : TcpSocket) : Prop where
  excess : k.excess = 0
  partly : ∀ buf, k.buf = some buf → 0 < k.len ∧ k.len < k.pktsize ∧ k.pktsize ≤ maxPacket

namespace TcpSocket

/-- Where the next recv() writes: from which byte of its buffer on. -/
def writesFrom (k : TcpSocket) : Nat :=
  match k.buf with
  | none => 0
  | some _ => k.len

/- What a socket in bounds asks of recv(). -/
theorem Bounded.asked {k : TcpSocket} (bounded : k.Bounded) :
    1 ≤ k.asked ∧ k.writesFrom + k.asked ≤ SBSIZE := by
  unfold TcpSocket.asked writesFrom
  cases held : k.buf with
  | none =>
    simp only [SBSIZE]
    omega
  | some buf =>
    obtain ⟨_, missing, small⟩ := bounded.partly buf held
    simp only [maxPacket] at small
    simp only [SBSIZE]
    omega

end TcpSocket

section

variable {parse : σ → ReqInfo Client → Mem → Nat → Bool × σ} {ok : Bool}

theorem totaltoget_small {buf : Mem} {len : Nat} (inRange : ¬ (4 ≤ len ∧ (maxPacket < totaltoget buf len ∨
    totaltoget buf len ≤ 8))) : totaltoget buf len ≤ maxPacket ∧ 4 ≤ totaltoget buf len := by
  by_cases field : 4 ≤ len
  · have := not_and.mp inRange field
    omega
  · rw [totaltoget, if_neg field]
    decide

/-- process_buf comes to an end, and leaves the socket in bounds or closed. -/
theorem processBuf_bounded {fuel len : Nat} (tcpsock : TcpSocket) (buf : Mem) (st : σ) (enough : len < fuel)
    (nonempty : 0 < len) (excess : tcpsock.excess = 0) :
    ∃ sock buf' st', processBuf (fun st req m n => .ok (parse st req m n)) ok fuel tcpsock buf len st =
      .ok (sock, buf', st') ∧ ∀ k ∈ sock, k.Bounded := by
  induction fuel generalizing tcpsock buf len st with
  | zero => contradiction
  | succ fuel ih =>
    unfold processBuf
    simp only
    split
    · exact ⟨none, _, _, rfl, nofun⟩
    case isFalse inRange =>
      obtain ⟨small, field⟩ := totaltoget_small inRange
      split
      case isTrue partly =>
        split
        · split
          · exact ⟨none, _, _, rfl, nofun⟩
          · refine ⟨_, _, _, rfl, ?_⟩
            rintro _ ⟨⟩
            exact ⟨excess, fun _ _ => ⟨nonempty, partly, small⟩⟩
        · refine ⟨_, _, _, rfl, ?_⟩
          rintro _ ⟨⟩
          exact ⟨excess, fun _ _ => ⟨nonempty, partly, small⟩⟩
      case isFalse whole =>
        simp only [ok_bind, pure_ok]
        by_cases more : totaltoget buf len < len
        · simp only [if_pos more]
          split
          · exact ⟨none, _, _, rfl, nofun⟩
          · rw [if_pos (by omega)]
            exact ih _ _ _ (by omega) (by omega) rfl
        · simp only [if_neg more, excess, ne_eq, not_true_eq_false, if_false]
          split
          · exact ⟨none, _, _, rfl, nofun⟩
          · split
            case h_1 none =>
              refine ⟨_, _, _, rfl, ?_⟩
              rintro _ ⟨⟩
              exact ⟨excess, fun _ held => by rw [none] at held; contradiction⟩
            · refine ⟨_, _, _, rfl, ?_⟩
              rintro _ ⟨⟩
              exact ⟨rfl, nofun⟩

theorem within_ok {off count : Nat} (inside : off + count ≤ SBSIZE) : within off count = .ok () := if_pos inside

namespace Receiver

@[simp] theorem tcpsock_live (static : Mem) (k : TcpSocket) (st : σ) :
    (Receiver.mk static (some k) st).tcpsock = .ok k := rfl

@[simp] theorem assign_live (static : Mem) (k : TcpSocket) (st : σ) (f : TcpSocket → TcpSocket) :
    (Receiver.mk static (some k) st).assign f = .ok ⟨static, some (f k), st⟩ := rfl

@[simp] theorem errorExit_live (static : Mem) (k : TcpSocket) (st : σ) :
    (Receiver.mk static (some k) st).errorExit = .ok ⟨static, none, st⟩ := rfl

/-- The receiver while process_buf works on a buffer; k may show an earlier content of its own. -/
def working (p : Buffer) (static buf : Mem) (k : TcpSocket) (st : σ) : Receiver σ :=
  match p with
  | .static => ⟨buf, some k, st⟩
  | .own => ⟨static, some { k with buf := some buf }, st⟩

/-- What process_buf leaves of the receiver. -/
def worked (p : Buffer) (static : Mem) (x : Option TcpSocket × Mem × σ) : Receiver σ :=
  match p with
  | .static => ⟨x.2.1, x.1, x.2.2⟩
  | .own => ⟨static, x.1, x.2.2⟩

theorem load_working (p : Buffer) (static buf : Mem) (k : TcpSocket) (st : σ) :
    (working p static buf k st).load p = .ok buf := by
  cases p <;> rfl

/-- The checks of process_buf pass. It works on the static buffer where the socket has none of
its own. -/
theorem processBuf_checked {fuel len : Nat} (p : Buffer) (static buf : Mem) (k : TcpSocket) (st : σ)
    (fits : len ≤ SBSIZE) (excess : k.excess = 0) (own : k.buf.isSome = decide (p = .own)) :
    (working p static buf k st).processBuf parse ok fuel p len =
      (Nmdb.processBuf (fun st req m n => .ok (parse st req m n)) ok fuel k buf len st >>= fun x =>
        .ok (worked p static x)) := by
  induction fuel generalizing k buf len st with
  | zero => rfl
  | succ fuel ih =>
    have field : within 0 (if 4 ≤ len then 4 else 0) = .ok () := by
      apply within_ok
      split
      · exact Nat.le_of_ble_eq_true rfl
      · exact Nat.zero_le _
    unfold processBuf Nmdb.processBuf
    simp only [load_working, field, ok_bind]
    split
    · cases p <;> rfl
    case isFalse inRange =>
      obtain ⟨small, four⟩ := totaltoget_small inRange
      split
      case isTrue partly =>
        have copied : within 0 len = .ok () := within_ok (by omega)
        cases p with
        | static =>
          have none : k.buf = none := by simpa using own
          cases ok <;> simp [working, worked, none, copied]
        | own =>
          obtain ⟨b, some⟩ := Option.isSome_iff_exists.mp own
          simp [working, worked, some]
      case isFalse whole =>
        by_cases more : totaltoget buf len < len
        · have parsed : within 4 (totaltoget buf len - 4) = .ok () := within_ok (by omega)
          have moved : within (totaltoget buf len) (len - totaltoget buf len) = .ok () := within_ok (by omega)
          have begun : within 0 (len - totaltoget buf len) = .ok () := within_ok (by omega)
          have left : len - totaltoget buf len ≠ 0 := by omega
          have next := fun st' => ih (memmove buf (totaltoget buf len) (len - totaltoget buf len))
            (initReq { k with len := len - totaltoget buf len, excess := 0 }) st'
            (show totaltoget buf len ≤ SBSIZE by omega) rfl own
          cases p with
          | static =>
            simp only [working, assign_live, tcpsock_live, ok_bind, if_pos more, parsed, pure_ok]
            split
            · rfl
            · simp only [moved, begun, ok_bind, store, assign_live]
              exact next _
          | own =>
            simp only [working, assign_live, tcpsock_live, ok_bind, if_pos more, parsed, pure_ok]
            split
            · rfl
            · simp only [moved, begun, ok_bind, store, assign_live]
              exact next _
        · have parsed : within 4 (len - 4) = .ok () := within_ok (by omega)
          cases p with
          | static =>
            have none : k.buf = none := by simpa using own
            simp only [working, assign_live, tcpsock_live, ok_bind, if_neg more, parsed, pure_ok, excess, ne_eq,
              not_true_eq_false, if_false, none]
            split <;> rfl
          | own =>
            obtain ⟨b, some⟩ := Option.isSome_iff_exists.mp own
            simp only [working, assign_live, tcpsock_live, ok_bind, if_neg more, parsed, pure_ok, excess, ne_eq,
              not_true_eq_false, if_false, some]
            split <;> rfl

/-- The checks of the callback pass: a socket in bounds is served as without them. -/
theorem tcpRecv_checked {k : TcpSocket} {static : Mem} {st : σ} (bounded : k.Bounded) (b : Bytes) :
    (Receiver.mk static (some k) st).tcpRecv parse ok (some b) =
      (Nmdb.tcpRecv (fun st req m n => .ok (parse st req m n)) ok static k (b.take k.asked) st >>= fun x =>
        .ok ⟨x.2.1, x.1, x.2.2⟩) := by
  have inside := bounded.asked.2
  unfold tcpRecv Nmdb.tcpRecv
  simp only [tcpsock_live, ok_bind]
  unfold TcpSocket.writesFrom TcpSocket.asked at inside
  unfold TcpSocket.asked
  cases held : k.buf with
  | none =>
    have whole : within 0 SBSIZE = .ok () := within_ok (Nat.le_of_eq (Nat.zero_add _))
    simp only [whole, ok_bind]
    split
    · rfl
    · simp only [store, assign_live, ok_bind]
      apply processBuf_checked .static static _ (initReq k)
      · exact List.length_take_le _ _
      · exact bounded.excess
      · exact congrArg Option.isSome held
  | some buf =>
    obtain ⟨_, missing, small⟩ := bounded.partly buf held
    simp only [held] at inside
    have asked : sizeSub k.pktsize k.len = k.pktsize - k.len := if_pos (by omega)
    simp only [asked, within_ok inside, ok_bind]
    split
    · rfl
    · have taken := List.length_take_le (k.pktsize - k.len) b
      simp only [store, assign_live, ok_bind]
      refine (processBuf_checked .own static (received buf k.len (b.take (k.pktsize - k.len)))
        { k with buf := some (received buf k.len (b.take (k.pktsize - k.len))),
                 len := k.len + (b.take (k.pktsize - k.len)).length } st ?_ ?_ ?_).trans ?_
      · omega
      · exact bounded.excess
      · rfl
      · cases Nmdb.processBuf (fun st req m n => .ok (parse st req m n)) ok _ _ _ _ st <;> rfl

/-- The callback for a socket in bounds comes to an end, and leaves it in bounds or closed. -/
theorem tcpRecv_bounded {k : TcpSocket} (static : Mem) (st : σ) (bounded : k.Bounded) (found : Option Bytes) :
    ∃ t, (Receiver.mk static (some k) st).tcpRecv parse ok found = .ok t ∧ ∀ k ∈ t.sock, k.Bounded := by
  cases found with
  | none =>
    have inside := bounded.asked.2
    refine ⟨⟨static, some k, st⟩, ?_, ?_⟩
    · unfold TcpSocket.writesFrom TcpSocket.asked at inside
      unfold tcpRecv
      simp only [tcpsock_live, ok_bind]
      cases held : k.buf with
      | none => rfl
      | some buf =>
        obtain ⟨_, missing, _⟩ := bounded.partly buf held
        simp only [held] at inside
        have asked : sizeSub k.pktsize k.len = k.pktsize - k.len := if_pos (by omega)
        simp only [asked, within_ok inside, ok_bind, pure_ok]
    · rintro _ ⟨⟩
      exact bounded
  | some b =>
    rw [tcpRecv_checked bounded]
    unfold Nmdb.tcpRecv
    split
    · exact ⟨_, rfl, nofun⟩
    case isFalse nonempty =>
      have positive := List.length_pos_iff.mpr nonempty
      split
      · obtain ⟨sock, buf', st', done, after⟩ := processBuf_bounded (initReq k)
          (received static 0 (b.take k.asked)) st (Nat.lt_succ_self (b.take k.asked).length)
            positive bounded.excess
        rw [done]
        exact ⟨_, rfl, after⟩
      case h_2 buf _ =>
        obtain ⟨sock, buf', st', done, after⟩ := processBuf_bounded
          { k with buf := some (received buf k.len (b.take k.asked)), len := k.len + (b.take k.asked).length }
          (received buf k.len (b.take k.asked)) st (Nat.lt_succ_self (k.len + (b.take k.asked).length))
          (Nat.add_pos_right _ positive) bounded.excess
        refine ⟨⟨static, sock, st'⟩, ?_, after⟩
        simp only at done ⊢
        rw [done]
        rfl

theorem step_bounded {r : Receiver σ} (bounded : ∀ k ∈ r.sock, k.Bounded) (ev : Bool × Option Bytes) :
    ∃ t, r.step parse ev = .ok t ∧ ∀ k ∈ t.sock, k.Bounded := by
  obtain ⟨static, sock, st⟩ := r
  cases sock with
  | none => exact ⟨_, rfl, nofun⟩
  | some k => exact tcpRecv_bounded static st (bounded k rfl) ev.2

end Receiver

end

/-- Whatever recv() finds, malloc() does and the parser answers, the callbacks of a connection
never access a buffer outside its bytes or a socket that was freed, they come to an end, and
between them a message that is not complete misses something. -/
theorem receive_in_bounds (parse : σ → ReqInfo Client → Mem → Nat → Bool × σ) (client : Client) (static : Mem)
    (st : σ) (evs : List (Bool × Option Bytes)) :
    ∃ r, Runs.run (Receiver.step parse) (Receiver.start client static st) evs = .ok r ∧
      ∀ k, r.sock = some k →
        (∀ buf, k.buf = some buf → 0 < k.len ∧ k.len < k.pktsize ∧ k.pktsize ≤ 65536) ∧
        1 ≤ k.asked ∧ k.writesFrom + k.asked ≤ SBSIZE := by
  have initial : ∀ k ∈ (Receiver.start client static st).sock, k.Bounded := by
    rintro _ ⟨⟩
    exact ⟨rfl, nofun⟩
  have progress : ∀ (r : Receiver σ) (ev : Bool × Option Bytes), (∀ k ∈ r.sock, k.Bounded) → True →
      ∃ t, r.step parse ev = .ok t ∧ ∀ k ∈ t.sock, k.Bounded := fun _ ev inv _ => Receiver.step_bounded inv ev
  obtain ⟨r, ran, bounded⟩ := Runs.run_total progress initial (Runs.Along.always (fun _ _ => trivial) _ evs)
  refine ⟨r, ran, ?_⟩
  intro k here
  exact ⟨(bounded k here).partly, (bounded k here).asked⟩

end Nmdb
