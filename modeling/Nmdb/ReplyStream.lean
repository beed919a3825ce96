import Nmdb.ReplyFrames
import Nmdb.Lib.Runs

/-! What a client of the TCP server reads. Both threads write to a connection without a
lock, one send() at a time, so the frames of two replies can get into each other. -/
namespace Nmdb

variable {ν : Type}

inductive Thread where
  | main
  | db
  deriving DecidableEq, Repr

def Thread.other : Thread → Thread
  | .main => .db
  | .db => .main

/-- What send() returns: a count, or -1 with EAGAIN or with another error. -/
inductive SendResult where
  | sent (n : Nat)
  | again
  | failed
  deriving DecidableEq, Repr

/-- Where a thread is in its reply: before a turn of the loop of rep_send, with c bytes of
the buffer sent, or before the send() of rep_send_error. -/
inductive Sending (ν : Type) where
  | idle
  | loop (req : ReqInfo ν) (buf : Bytes) (c : Nat)
  | error (minibuf : Bytes)
  deriving DecidableEq

/-- A reply function of tcp.c up to its first send(); ok is the outcome of malloc(). -/
def tcpReply (ok : Bool) (req : ReqInfo ν) : Reply → Except Fault (Sending ν)
  | .mini r => .ok (.loop req (tcpReplyMini req r) 0)
  | .err e => .ok (.error (tcpReplyErr req e))
  | .long r val => if ok then .ok (.loop req (tcpReplyLong req r val) 0) else .error .nullDeref

/-- One send() and what is done with its result: the bytes written, and what is next. -/
def Sending.turn : Sending ν → SendResult → Bytes × Sending ν
  | .idle, _ => ([], .idle)
  | .loop req buf c, .sent n =>
    let rv := min n (buf.length - c)
    if rv = buf.length then (buf.drop c, .idle)
    else if rv = 0 then ([], .idle)
    else ((buf.drop c).take rv, if c + rv < buf.length then .loop req buf (c + rv) else .idle)
  | .loop req buf c, .again => ([], .loop req buf c)
  | .loop req _ _, .failed => ([], .error (repSendError req .send))
  | .error minibuf, .sent n => (minibuf.take n, .idle)
  | .error _, .again => ([], .idle)
  | .error _, .failed => ([], .idle)

/-- What of its frame a thread has written. -/
def Sending.begun : Sending ν → Bytes
  | .loop _ buf c => buf.take c
  | .idle | .error _ => []

/-- The turn leaves a frame incomplete for good. -/
def Sending.abandons : Sending ν → SendResult → Bool
  | .loop _ buf c, .sent n => 0 < c && min n (buf.length - c) = 0
  | .loop _ _ c, .failed => 0 < c
  | .error minibuf, .sent n => 0 < n && n < minibuf.length
  | _, _ => false

/-- A connection with what was written to it. Whether a frame was abandoned is not kept by
the code. -/
structure Connection (ν : Type) where
  stream : Bytes
  threads : Thread → Sending ν
  abandoned : Bool

inductive SendEvent (ν : Type) where
  | reply (t : Thread) (ok : Bool) (req : ReqInfo ν) (r : Reply)
  | send (t : Thread) (result : SendResult)

namespace Connection

def start : Connection ν := ⟨[], fun _ => .idle, false⟩

/-- A thread between replies begins one, or it makes its next send(). -/
def step (s : Connection ν) : SendEvent ν → Except Fault (Connection ν)
  | .reply t ok req r =>
    match s.threads t with
    | .idle => do
      let sending ← tcpReply ok req r
      return { s with threads := Function.update s.threads t sending }
    | _ => .ok s
  | .send t result =>
    let turn := (s.threads t).turn result
    .ok ⟨s.stream ++ turn.1, Function.update s.threads t turn.2, s.abandoned || (s.threads t).abandons result⟩

end Connection

def IsReplyFrame (ν : Type) (f : Bytes) : Prop :=
  ∃ (req : ReqInfo ν) (r : Reply), f = Transport.tcp.packet req r

theorem IsReplyFrame.ne_nil {f : Bytes} (frame : IsReplyFrame ν f) : f ≠ [] := by
  obtain ⟨req, r, rfl⟩ := frame
  rw [Transport.tcp_packet]
  exact List.append_ne_nil_of_left_ne_nil (List.ne_nil_of_length_pos (by rw [bytes32_length]; omega)) _

/-- Whole replies one after the other, and the beginning of one more. -/
def Untorn (ν : Type) (stream : Bytes) : Prop :=
  ∃ (frames : List Bytes) (tail : Bytes), stream = frames.flatten ++ tail ∧
    (∀ f ∈ frames, IsReplyFrame ν f) ∧ (tail = [] ∨ ∃ rest, IsReplyFrame ν (tail ++ rest))

/-- Nothing is written behind a frame that was abandoned, nor while the other thread is in
the middle of one. -/
def Connection.Undisturbed (s : Connection ν) : SendEvent ν → Prop
  | .send t (.sent n) => 0 < n → s.threads t ≠ .idle →
    s.abandoned = false ∧ (s.threads t.other).begun = []
  | _ => True

/- What is proved of a turn: it writes the next part of the frame, or nothing. -/

/-- The frame a thread is sending, and how far it is. -/
def Sending.Sound : Sending ν → Prop
  | .idle => True
  | .loop _ buf c => IsReplyFrame ν buf ∧ c < buf.length
  | .error minibuf => IsReplyFrame ν minibuf

/-- What a turn can do. -/
inductive Progress (x : Sending ν) (result : SendResult) (written : Bytes) (next : Sending ν) : Prop
  | waits (nothing : written = []) (same : next.begun = x.begun) (kept : x.abandons result = false)
  | advances (more : next.begun = x.begun ++ written) (kept : x.abandons result = false)
  | completes (whole : IsReplyFrame ν (x.begun ++ written)) (done : next.begun = [])
      (kept : x.abandons result = false)
  | abandons {rest : Bytes} (part : IsReplyFrame ν (x.begun ++ written ++ rest))
      (begun : x.begun ++ written ≠ []) (done : next.begun = []) (left : x.abandons result = true)

theorem tcpReply_sound {ok : Bool} {req : ReqInfo ν} {r : Reply} {x : Sending ν}
    (begins : tcpReply ok req r = .ok x) : x.Sound ∧ x.begun = [] := by
  have nonempty : 0 < (Transport.tcp.packet req r).length := by
    rw [Transport.tcp_packet, List.length_append, bytes32_length]
    omega
  cases r with
  | mini r =>
    cases begins
    exact ⟨⟨⟨req, .mini r, rfl⟩, nonempty⟩, rfl⟩
  | err e =>
    cases begins
    exact ⟨⟨req, .err e, rfl⟩, rfl⟩
  | long r val =>
    simp only [tcpReply] at begins
    split at begins
    · cases begins
      exact ⟨⟨⟨req, .long r val, rfl⟩, nonempty⟩, rfl⟩
    · contradiction

theorem Sending.Sound.turn {x : Sending ν} (sound : x.Sound) (result : SendResult) :
    (x.turn result).2.Sound := by
  cases x with
  | idle => trivial
  | error minibuf => cases result <;> trivial
  | loop req buf c =>
    cases result with
    | again => exact sound
    | failed => exact ⟨req, .err .send, rfl⟩
    | sent n =>
      simp only [Sending.turn]
      split
      · trivial
      · split
        · trivial
        · change Sending.Sound (if _ then _ else _)
          split
          case isTrue more => exact ⟨sound.1, more⟩
          case isFalse => trivial

theorem Sending.Sound.progress {x : Sending ν} (sound : x.Sound) (result : SendResult) :
    Progress x result (x.turn result).1 (x.turn result).2 := by
  cases x with
  | idle => exact .waits rfl rfl rfl
  | error minibuf =>
    cases result with
    | again => exact .waits rfl rfl rfl
    | failed => exact .waits rfl rfl rfl
    | sent n =>
      by_cases nothing : n = 0
      · refine .waits ?_ rfl (by simp only [abandons, nothing]; rfl)
        rw [nothing]
        rfl
      · by_cases part : n < minibuf.length
        · refine .abandons (show IsReplyFrame ν ([] ++ minibuf.take n ++ minibuf.drop n) from ?_) ?_ rfl ?_
          · rw [List.nil_append, List.take_append_drop]
            exact sound
          · change minibuf.take n ≠ []
            exact List.ne_nil_of_length_pos (by rw [List.length_take]; omega)
          · simp only [abandons, part, Nat.pos_of_ne_zero nothing, decide_true, Bool.and_self]
        · refine .completes ?_ rfl (by simp only [abandons, part, decide_false, Bool.and_false])
          change IsReplyFrame ν ([] ++ minibuf.take n)
          rw [List.nil_append, List.take_of_length_le (by omega)]
          exact sound
  | loop req buf c =>
    obtain ⟨frame, inside⟩ := sound
    cases result with
    | again => exact .waits rfl rfl rfl
    | failed =>
      by_cases none : c = 0
      · exact .waits rfl (by rw [none]; rfl) (by simp only [abandons, none]; rfl)
      · refine .abandons (show IsReplyFrame ν (buf.take c ++ [] ++ buf.drop c) from ?_) ?_ rfl ?_
        · rw [List.append_nil, List.take_append_drop]
          exact frame
        · change buf.take c ++ [] ≠ []
          rw [List.append_nil]
          exact List.ne_nil_of_length_pos (by rw [List.length_take]; omega)
        · simp only [abandons, Nat.pos_of_ne_zero none, decide_true]
    | sent n =>
      have split := List.take_append_drop c buf
      by_cases all : min n (buf.length - c) = buf.length
      · have first : c = 0 := by omega
        have turn : (Sending.loop req buf c).turn (.sent n) = (buf.drop c, .idle) := if_pos all
        rw [turn]
        refine .completes ?_ rfl (by simp only [abandons, first]; rfl)
        rw [begun, split]
        exact frame
      · by_cases nothing : min n (buf.length - c) = 0
        · have turn : (Sending.loop req buf c).turn (.sent n) = ([], .idle) := by
            simp only [Sending.turn, if_neg all, if_pos nothing]
          rw [turn]
          by_cases none : c = 0
          · exact .waits rfl (by rw [none]; rfl) (by simp only [abandons, none]; rfl)
          · refine .abandons (show IsReplyFrame ν (buf.take c ++ [] ++ buf.drop c) from ?_) ?_ rfl ?_
            · rw [List.append_nil, split]
              exact frame
            · change buf.take c ++ [] ≠ []
              rw [List.append_nil]
              exact List.ne_nil_of_length_pos (by rw [List.length_take]; omega)
            · simp only [abandons, nothing, Nat.pos_of_ne_zero none, decide_true, Bool.and_self]
        · have turn : (Sending.loop req buf c).turn (.sent n) =
              ((buf.drop c).take (min n (buf.length - c)),
                if c + min n (buf.length - c) < buf.length then .loop req buf (c + min n (buf.length - c))
                else .idle) := by
            simp only [Sending.turn, if_neg all, if_neg nothing]
          have kept : (Sending.loop req buf c).abandons (.sent n) = false := by
            simp only [abandons, nothing, decide_false, Bool.and_false]
          rw [turn]
          by_cases more : c + min n (buf.length - c) < buf.length
          · rw [if_pos more]
            exact .advances List.take_add kept
          · rw [if_neg more]
            have last : (buf.drop c).take (min n (buf.length - c)) = buf.drop c :=
              List.take_of_length_le (by rw [List.length_drop]; omega)
            refine .completes ?_ rfl kept
            rw [begun, last, split]
            exact frame

/-- How the stream ends behind the last whole frame: in the middle of a frame one of the
threads is sending, or of one that was abandoned. -/
def Connection.Ends (s : Connection ν) (tail : Bytes) : Prop :=
  (s.abandoned = false ∧ ∃ t, tail = (s.threads t).begun ∧ (s.threads t.other).begun = []) ∨
    (s.abandoned = true ∧ (∀ t, (s.threads t).begun = []) ∧ ∃ rest, IsReplyFrame ν (tail ++ rest))

/-- The invariant of the connection. -/
structure Connection.Framed (s : Connection ν) : Prop where
  sound : ∀ t, (s.threads t).Sound
  stream : ∃ (frames : List Bytes) (tail : Bytes), s.stream = frames.flatten ++ tail ∧
    (∀ f ∈ frames, IsReplyFrame ν f) ∧ s.Ends tail

theorem Thread.eq_or_other (t u : Thread) : u = t ∨ u = t.other := by
  cases t <;> cases u <;> simp [Thread.other]

theorem Thread.other_ne (t : Thread) : t.other ≠ t := by
  cases t <;> simp [Thread.other]

theorem Thread.other_other (t : Thread) : t.other.other = t := by
  cases t <;> rfl

namespace Connection

variable {s s' : Connection ν} {tail : Bytes}

theorem Ends.tail_eq (ends : s.Ends tail) {t : Thread} (kept : s.abandoned = false)
    (quiet : (s.threads t.other).begun = []) : tail = (s.threads t).begun := by
  rcases ends with ⟨_, u, same, rest⟩ | ⟨left, _⟩
  · rcases Thread.eq_or_other t u with rfl | rfl
    · exact same
    · rw [Thread.other_other] at rest
      rw [same, quiet, rest]
  · rw [kept] at left
    contradiction

/-- A thread in the middle of a frame keeps the other from being in one. -/
theorem Ends.only (ends : s.Ends tail) {t : Thread} (middle : (s.threads t).begun ≠ []) :
    s.abandoned = false ∧ (s.threads t.other).begun = [] := by
  rcases ends with ⟨kept, u, _, rest⟩ | ⟨_, none, _⟩
  · rcases Thread.eq_or_other u t with rfl | rfl
    · exact ⟨kept, rest⟩
    · exact (middle rest).elim
  · exact (middle (none t)).elim

theorem Ends.congr (ends : s.Ends tail) (kept : s'.abandoned = s.abandoned)
    (same : ∀ u, (s'.threads u).begun = (s.threads u).begun) : s'.Ends tail := by
  simp only [Connection.Ends, kept, same]
  exact ends

theorem Undisturbed.quiet {t : Thread} {result : SendResult} (undisturbed : s.Undisturbed (.send t result))
    (writes : ((s.threads t).turn result).1 ≠ []) :
    s.abandoned = false ∧ (s.threads t.other).begun = [] := by
  cases sending : s.threads t with
  | idle =>
    rw [sending] at writes
    exact (writes rfl).elim
  | loop req buf c =>
    rw [sending] at writes
    cases result with
    | again => exact (writes rfl).elim
    | failed => exact (writes rfl).elim
    | sent n =>
      refine undisturbed (Nat.pos_of_ne_zero fun none => writes ?_) (by rw [sending]; nofun)
      simp only [Sending.turn, none, Nat.zero_min]
      split
      case isTrue all => rw [List.drop_of_length_le (by omega)]
      case isFalse => rfl
  | error minibuf =>
    rw [sending] at writes
    cases result with
    | again => exact (writes rfl).elim
    | failed => exact (writes rfl).elim
    | sent n =>
      refine undisturbed (Nat.pos_of_ne_zero fun none => writes ?_) (by rw [sending]; nofun)
      rw [none]
      rfl

theorem update_sound {threads : Thread → Sending ν} {t : Thread} {next : Sending ν}
    (sounds : ∀ u, (threads u).Sound) (sound : next.Sound) : ∀ u, (Function.update threads t next u).Sound :=
  (Function.forall_update_iff threads fun _ x => x.Sound).mpr ⟨sound, fun u _ => sounds u⟩

theorem update_begun {threads : Thread → Sending ν} {t : Thread} {next : Sending ν}
    (same : next.begun = (threads t).begun) :
    ∀ u, (Function.update threads t next u).begun = (threads u).begun :=
  (Function.forall_update_iff threads fun u x => x.begun = (threads u).begun).mpr ⟨same, fun _ _ => rfl⟩

theorem Framed.turned {t : Thread} {result : SendResult} {written : Bytes} {next : Sending ν}
    (framed : s.Framed) (sound : next.Sound) (progress : Progress (s.threads t) result written next)
    (writes : written ≠ [] → s.abandoned = false ∧ (s.threads t.other).begun = []) :
    Framed ⟨s.stream ++ written, Function.update s.threads t next,
      s.abandoned || (s.threads t).abandons result⟩ := by
  obtain ⟨frames, tail, stream, whole, ends⟩ := framed.stream
  have here : Function.update s.threads t next t = next := Function.update_self ..
  have there : Function.update s.threads t next t.other = s.threads t.other :=
    Function.update_of_ne t.other_ne next s.threads
  have quiet : (s.threads t).begun ++ written ≠ [] →
      s.abandoned = false ∧ (s.threads t.other).begun = [] := by
    intro some
    by_cases nothing : written = []
    · rw [nothing, List.append_nil] at some
      exact ends.only some
    · exact writes nothing
  have unmoved : written = [] → next.begun = (s.threads t).begun → (s.threads t).abandons result = false →
      Ends ⟨s.stream ++ written, Function.update s.threads t next,
        s.abandoned || (s.threads t).abandons result⟩ tail ∧ s.stream ++ written = frames.flatten ++ tail := by
    intro nothing same kept
    exact ⟨ends.congr (by rw [kept, Bool.or_false]) (update_begun same),
      by rw [nothing, List.append_nil, stream]⟩
  refine ⟨update_sound framed.sound sound, ?_⟩
  cases progress with
  | waits nothing same kept =>
    obtain ⟨ends', stream'⟩ := unmoved nothing same kept
    exact ⟨frames, tail, stream', whole, ends'⟩
  | advances more kept =>
    by_cases nothing : (s.threads t).begun ++ written = []
    · rw [nothing] at more
      rw [List.append_eq_nil_iff] at nothing
      obtain ⟨ends', stream'⟩ := unmoved nothing.2 (more.trans nothing.1.symm) kept
      exact ⟨frames, tail, stream', whole, ends'⟩
    · obtain ⟨clean, other⟩ := quiet nothing
      have end_eq : tail ++ written = (Function.update s.threads t next t).begun := by
        rw [here, more, ends.tail_eq clean other]
      have rest : (Function.update s.threads t next t.other).begun = [] := by rw [there, other]
      refine ⟨frames, tail ++ written, by rw [stream, List.append_assoc], whole, .inl ⟨?_, t, end_eq, rest⟩⟩
      rw [clean, kept, Bool.or_false]
  | completes complete done kept =>
    obtain ⟨clean, other⟩ := quiet complete.ne_nil
    have end_eq : [] = (Function.update s.threads t next t).begun := by rw [here, done]
    have rest : (Function.update s.threads t next t.other).begun = [] := by rw [there, other]
    refine ⟨frames ++ [(s.threads t).begun ++ written], [], ?_, ?_, .inl ⟨?_, t, end_eq, rest⟩⟩
    · rw [stream, ends.tail_eq clean other, List.flatten_concat, List.append_nil, List.append_assoc]
    · intro f mem
      rcases List.mem_append.mp mem with earlier | last
      · exact whole f earlier
      · rw [List.mem_singleton.mp last]
        exact complete
    · rw [clean, kept, Bool.or_false]
  | abandons part begun done left =>
    obtain ⟨clean, other⟩ := quiet begun
    have tail_eq := ends.tail_eq clean other
    have none : ∀ u, (Function.update s.threads t next u).begun = [] := by
      intro u
      rcases Thread.eq_or_other t u with rfl | rfl
      · rw [here, done]
      · rw [there, other]
    refine ⟨frames, tail ++ written, by rw [stream, List.append_assoc], whole, .inr ⟨?_, none, ?_⟩⟩
    · rw [left, Bool.or_true]
    · rw [tail_eq]
      exact ⟨_, part⟩

theorem Framed.begins {t : Thread} {x : Sending ν} (framed : s.Framed) (sound : x.Sound)
    (same : x.begun = (s.threads t).begun) : Framed { s with threads := Function.update s.threads t x } := by
  obtain ⟨frames, tail, stream, whole, ends⟩ := framed.stream
  exact ⟨update_sound framed.sound sound, frames, tail, stream, whole, ends.congr rfl (update_begun same)⟩

/-- A step that is not in the way of another keeps the stream in frames. -/
theorem Framed.step {ev : SendEvent ν} (framed : s.Framed) (undisturbed : s.Undisturbed ev)
    (taken : s.step ev = .ok s') : s'.Framed := by
  cases ev with
  | reply t ok req r =>
    simp only [Connection.step] at taken
    split at taken
    case h_1 idle =>
      obtain ⟨x, begins, done⟩ := bind_eq_ok.mp taken
      cases done
      obtain ⟨sound, fresh⟩ := tcpReply_sound begins
      refine framed.begins sound ?_
      rw [fresh, idle]
      rfl
    case h_2 =>
      cases taken
      exact framed
  | send t result =>
    simp only [Connection.step] at taken
    cases taken
    exact framed.turned ((framed.sound t).turn result) ((framed.sound t).progress result) undisturbed.quiet

theorem Framed.untorn (framed : s.Framed) : Untorn ν s.stream := by
  obtain ⟨frames, tail, stream, whole, ends⟩ := framed.stream
  refine ⟨frames, tail, stream, whole, ?_⟩
  rcases ends with ⟨_, t, same, _⟩ | ⟨_, _, part⟩
  · have sound := framed.sound t
    cases sending : s.threads t with
    | loop req buf c =>
      rw [sending] at same sound
      refine .inr ⟨buf.drop c, ?_⟩
      rw [same, Sending.begun, List.take_append_drop]
      exact sound.1
    | _ =>
      rw [sending] at same
      exact .inl same
  · exact .inr part

theorem start_framed : Framed (start : Connection ν) :=
  ⟨fun _ => trivial, [], [], rfl, List.forall_mem_nil _, .inl ⟨rfl, .main, rfl, rfl⟩⟩

/-- While no send() is in the way of another, the client reads whole replies. -/
theorem replies_untorn {events : List (SendEvent ν)} {s : Connection ν}
    (undisturbed : Runs.Along step Undisturbed start events) (ran : Runs.run step start events = .ok s) :
    Untorn ν s.stream :=
  (Runs.run_invariant (fun _ _ _ framed undisturbed taken => framed.step undisturbed taken)
    start_framed undisturbed ran).untorn

/-- The main thread sends a reply in two pieces, and then the database thread one whole. -/
def inTurn : List (SendEvent Unit) :=
  [.reply .main true ⟨(), htonl 1, 0, 0⟩ (.mini .ok), .reply .db true ⟨(), htonl 2, 0, 0⟩ (.mini .notin),
    .send .main (.sent 4), .send .main (.sent 8), .send .db (.sent 12)]

theorem replies_untorn_in_turn : ∃ s, Runs.run step start inTurn = .ok s ∧ Untorn Unit s.stream := by
  have ran : ∃ s, Runs.run step start inTurn = .ok s := ⟨_, rfl⟩
  obtain ⟨s, ran⟩ := ran
  refine ⟨s, ran, replies_untorn ?_ ran⟩
  refine ⟨trivial, fun _ taken => ?_⟩
  cases taken
  refine ⟨trivial, fun _ taken => ?_⟩
  cases taken
  refine ⟨fun _ _ => ⟨rfl, rfl⟩, fun _ taken => ?_⟩
  cases taken
  refine ⟨fun _ _ => ⟨rfl, rfl⟩, fun _ taken => ?_⟩
  cases taken
  refine ⟨fun _ _ => ⟨rfl, rfl⟩, fun _ taken => ?_⟩
  cases taken
  trivial

/-- What an untorn stream has behind the first ID. -/
theorem untorn_code {b : Bytes} (untorn : Untorn ν b) (long : 12 ≤ b.length) :
    ∃ code ∈ REP_ERR :: [Rep.cacheHit, .cacheMiss, .ok, .notin, .nomatch].map Rep.code,
      (b.drop 8).take 4 = bytes32 (htonl code) := by
  have first : ∃ f more rest, IsReplyFrame ν f ∧ b ++ more = f ++ rest := by
    obtain ⟨frames, tail, stream, whole, part⟩ := untorn
    cases frames with
    | nil =>
      rw [List.flatten_nil, List.nil_append] at stream
      rcases part with none | ⟨rest, frame⟩
      · rw [stream, none] at long
        exact absurd long (by decide)
      · exact ⟨tail ++ rest, rest, [], frame, by rw [stream, List.append_nil]⟩
    | cons f frames =>
      exact ⟨f, [], frames.flatten ++ tail, whole f List.mem_cons_self,
        by rw [stream, List.append_nil, List.flatten_cons, List.append_assoc]⟩
  obtain ⟨f, more, rest, ⟨req, r, rfl⟩, same⟩ := first
  have field : ((b ++ more).drop 8).take 4 = (r.body ++ rest).take 4 := by
    rw [same, Transport.tcp_packet, ← List.append_assoc, List.append_assoc, List.drop_left' (by
      rw [List.length_append, bytes32_length, bytes32_length])]
  rw [List.drop_append_of_le_length (by omega),
    List.take_append_of_le_length (by rw [List.length_drop]; omega)] at field
  cases r with
  | mini r =>
    refine ⟨r.code, ?_, ?_⟩
    · cases r <;> decide
    · rw [field, Reply.body, List.take_left' (bytes32_length _)]
  | err e =>
    refine ⟨REP_ERR, List.mem_cons_self, ?_⟩
    rw [field, Reply.body, List.append_assoc, List.take_left' (bytes32_length _)]
  | long r val =>
    refine ⟨r.code, ?_, ?_⟩
    · cases r <;> decide
    · rw [field, Reply.body, List.append_assoc, List.append_assoc, List.take_left' (bytes32_length _)]

/-- Two replies in pieces of 8 and 12 bytes; and one that fails after 8. -/
def interleaved : List (SendEvent Unit) :=
  [.reply .main true ⟨(), htonl 1, 0, 0⟩ (.mini .ok), .reply .db true ⟨(), htonl 2, 0, 0⟩ (.mini .notin),
    .send .main (.sent 8), .send .db (.sent 12)]

def failing : List (SendEvent Unit) :=
  [.reply .main true ⟨(), htonl 1, 0, 0⟩ (.mini .ok), .send .main (.sent 8), .send .main .failed,
    .send .main (.sent 16)]

/-- Where the reply code should be, a client reads the length of another reply. -/
theorem replies_torn :
    (∃ s, Runs.run step start interleaved = .ok s ∧ ¬ Untorn Unit s.stream) ∧
    (∃ s, Runs.run step start failing = .ok s ∧ ¬ Untorn Unit s.stream) := by
  have torn : ∀ b : Bytes, 12 ≤ b.length → (∀ code ∈ REP_ERR :: [Rep.cacheHit, .cacheMiss, .ok, .notin,
      .nomatch].map Rep.code, (b.drop 8).take 4 ≠ bytes32 (htonl code)) → ¬ Untorn Unit b := by
    intro b long other untorn
    obtain ⟨code, mem, field⟩ := untorn_code untorn long
    exact other code mem field
  refine ⟨⟨_, rfl, ?_⟩, ⟨_, rfl, ?_⟩⟩
  · change ¬ Untorn Unit [0, 0, 0, 12, 0, 0, 0, 1, 0, 0, 0, 12, 0, 0, 0, 2, 0, 0, 8, 4]
    exact torn _ (by decide) (by decide)
  · change ¬ Untorn Unit [0, 0, 0, 12, 0, 0, 0, 1, 0, 0, 0, 16, 0, 0, 0, 1, 0, 0, 8, 0, 0, 0, 1, 2]
    exact torn _ (by decide) (by decide)

end Connection

end Nmdb
