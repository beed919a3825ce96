import Nmdb.OneReply
import Nmdb.SizeChecks

/-! Messages in the buffers they are received into. A parse function reads all that the sizes
of a request declare. Its size check lets it read a little past the message, which is
harmless, and where a sum or the payload size wraps, gigabytes past the buffer. -/
namespace Nmdb

variable {δ : Type}

/-- The bytes from the start of a message to the end of its buffer. A TCP message stands
behind its length. -/
def Transport.room (t : Transport) : Nat := SBSIZE - t.idOffset

/-- Where in the payload it ends what the sizes of a request declare. -/
def Request.reach : Request → Nat
  | .get key | .del key | .nextkey key => 4 + key.length
  | .set key val => 8 + key.length + val.length
  | .cas key oldval newval => 12 + key.length + oldval.length + newval.length
  | .incr key _ => 4 + key.length + 8

/-- What is read of a message ends behind its buffer. NEXTKEY reads its key for the copy in
the queue entry only. -/
def Route.readsPast (m : Mallocs) (t : Transport) : Route → Bool
  | .request (.nextkey key) => m.entry && decide (t.room < 8 + (Request.nextkey key).reach)
  | .request r => decide (t.room < 8 + r.reach)
  | _ => false

/-- Of the messages that have a header, and leave the length of a size field in the buffer,
only an INCR whose sum wraps is read past its buffer. -/
theorem readsPast_wraps {m : Mallocs} {t : Transport} {readOnly : Bool} {buf : Mem} {len : Nat} (header : 8 ≤ len)
    (fits : len + 4 ≤ t.room) (past : (route readOnly buf len).readsPast m t = true) :
    command buf = Req.incr.code ∧ SumWraps .incr (buf.from 8) (len - 8) := by
  have room : 69628 ≤ t.room := by cases t <;> decide
  cases way : route readOnly buf len with
  | request r =>
    rw [way] at past
    obtain ⟨_, _, c, cmd, ops, passed⟩ := route_request way
    have first := sizeField_lt (buf.from 8) 0
    rw [sizeSub, if_pos header] at passed
    cases c with
    | firstkey => contradiction
    | stats => contradiction
    | incr =>
      cases ops
      refine ⟨cmd, rfl, ?_⟩
      simp only [SizesRefused, Route.readsPast, Request.reach, slice_length, decide_eq_true_eq, maxSize, u32]
        at passed past
      omega
    | _ =>
      cases ops
      simp only [SizesRefused, Route.readsPast, Request.reach, slice_length, Bool.and_eq_true, decide_eq_true_eq,
        maxSize, u32] at passed past
      omega
  | _ =>
    rw [way] at past
    contradiction

namespace System

def receive (db : DbConn δ) (s : System δ) : Transport × Turn → Except Fault (System δ)
  | (t, .message m buf len) =>
    if (route s.server.settings.readOnly buf len).readsPast m t then .error .outOfBounds
    else s.turn db (.message m buf len)
  | (_, x) => s.turn db x

def KeepsOneReply (db : DbConn δ) (s : System δ) (x : Transport × Turn) : Prop :=
  ∃ t, s.receive db x = .ok t ∧ t.OneReply

/-- The step has defined behaviour, and reads nothing behind its buffer. -/
def ReceiveDefined (db : DbConn δ) (s : System δ) : Transport × Turn → Prop
  | (t, .message m buf len) => (route s.server.settings.readOnly buf len).readsPast m t = false ∧
      TurnDefined db s (.message m buf len)
  | (_, x) => TurnDefined db s x

section

variable {db : DbConn δ} {s s' : System δ} {x : Transport × Turn}

theorem receive_turn (taken : s.receive db x = .ok s') : s.turn db x.2 = .ok s' := by
  obtain ⟨t, x⟩ := x
  cases x with
  | message m buf len =>
    simp only [receive] at taken
    split at taken
    · contradiction
    · exact taken
  | dequeue => exact taken
  | execute ok => exact taken

theorem receive_succeeds (represented : s.server.cache.Represented) :
    Succeeds (s.receive db x) ↔ ReceiveDefined db s x := by
  obtain ⟨t, x⟩ := x
  cases x with
  | message m buf len =>
    simp only [receive, ReceiveDefined]
    cases (route s.server.settings.readOnly buf len).readsPast m t with
    | true => exact iff_of_false not_succeeds fun defined => absurd defined.1 Bool.noConfusion
    | false =>
      simp only [Bool.false_eq_true, if_false, true_and]
      exact turn_succeeds represented
  | dequeue =>
    have same : s.receive db (t, .dequeue) = s.turn db .dequeue := rfl
    rw [same, turn_succeeds represented]
    rfl
  | execute ok =>
    have same : s.receive db (t, .execute ok) = s.turn db (.execute ok) := rfl
    rw [same, turn_succeeds represented]
    rfl

end

/-- In every run the server gets through each step and leaves every request with exactly one
reply, given or owed, as long as the steps have defined behaviour and no longer. -/
theorem one_reply_per_request_iff (db : DbConn δ) {cache : Cache} (represented : cache.Represented)
    (settings : Settings) (d : δ) (turns : List (Transport × Turn)) :
    Runs.Along (receive db) (KeepsOneReply db) (start cache settings d) turns ↔
      Runs.Along (receive db) (ReceiveDefined db) (start cache settings d) turns := by
  let Inv : System δ → Prop := fun s => s.server.cache.Represented ∧ s.OneReply
  have initial : Inv (start cache settings d) := ⟨represented, fun n => rfl⟩
  refine Runs.along_iff (fun s x inv => ?_) (fun s x t inv _ taken => ?_) initial turns
  · rw [← receive_succeeds inv.1]
    exact ⟨fun ⟨t, taken, _⟩ => ⟨t, taken⟩, fun ⟨t, taken⟩ => ⟨t, taken, inv.2.turn (receive_turn taken)⟩⟩
  · exact ⟨turn_represented inv.1 (receive_turn taken), inv.2.turn (receive_turn taken)⟩

/- A SET whose queue entry cannot be had is answered at once, and only once. -/
theorem one_reply_per_request_iff_no_entry :
    Runs.Along (receive refusing) (KeepsOneReply refusing) (start emptyCache ⟨false⟩ ())
      [(.udp, .message { Mallocs.plenty with entry := false } setMessage 18), (.udp, .dequeue),
        (.udp, .execute true)] := by
  have set : route (start emptyCache ⟨false⟩ ()).server.settings.readOnly setMessage 18 =
      .request (.set [65] [7]) := by decide +kernel
  refine (one_reply_per_request_iff refusing emptyCache_represented ⟨false⟩ () _).mpr
    ⟨⟨?_, ?_⟩, fun _ _ => ⟨trivial, fun _ _ => ⟨fun _ _ _ _ empty => ?_, fun _ _ => trivial⟩⟩⟩
  · rw [set]
    rfl
  · rw [TurnDefined, messageDefined_iff]
    intro r way
    rw [set] at way
    cases way
    exact ⟨by decide, fun _ => ⟨rfl, fun _ positive => absurd positive (by decide)⟩,
      fun _ _ had => absurd had Bool.false_ne_true⟩
  · exact Option.some_ne_none [] empty.symm

/-- The copy of the key cannot be had: the entry is freed with a pointer never set, and
nobody answers. -/
theorem no_reply_without_copy :
    faultOf ((start emptyCache ⟨false⟩ ()).receive refusing
      (.udp, .message { Mallocs.plenty with kcopy := false } setMessage 18)) = some .uninitialised ∧
    ¬ KeepsOneReply refusing (start emptyCache ⟨false⟩ ())
      (.udp, .message { Mallocs.plenty with kcopy := false } setMessage 18) := by
  have fault : faultOf ((start emptyCache ⟨false⟩ ()).receive refusing
      (.udp, .message { Mallocs.plenty with kcopy := false } setMessage 18)) = some .uninitialised := by decide
  refine ⟨fault, fun ⟨t, taken, _⟩ => ?_⟩
  rw [taken] at fault
  contradiction

/-- INCR in the cache, of a key of 2^32 - 8 bytes. -/
def wrappedIncr : Mem :=
  Mem.ofBytes [0x10, 0, 0, 0, 0x01, 0x05, 0, 1, 0xFF, 0xFF, 0xFF, 0xF8, 65, 0, 0, 0, 0, 0, 0, 1]

theorem receive_past {db : DbConn δ} {s : System δ} {t : Transport} {m : Mallocs} {buf : Mem} {len : Nat}
    (past : (route s.server.settings.readOnly buf len).readsPast m t = true) :
    s.receive db (t, .message m buf len) = .error .outOfBounds := if_pos past

theorem readsPast_incr (m : Mallocs) (t : Transport) (key : Bytes) (increment : Int) :
    (Route.request (.incr key increment)).readsPast m t = decide (t.room < 8 + (4 + key.length + 8)) := rfl

theorem wrappedIncr_past (t : Transport) : (route false wrappedIncr 20).readsPast Mallocs.plenty t = true := by
  have size : sizeField (wrappedIncr.from 8) 0 = 2 ^ 32 - 8 := by decide
  have version : ¬ version wrappedIncr ≠ PROTO_VER := by decide
  have code : Req.ofCode (command wrappedIncr) = some .incr := by decide
  have passed : ¬ SizesRefused .incr (wrappedIncr.from 8) (sizeSub 20 8) := by
    rw [SizesRefused, size]
    decide
  have room : t.room ≤ 69632 := Nat.sub_le _ _
  -- the key is never computed
  simp only [route, if_neg version, code, operands, if_neg passed, Bool.false_and, Bool.false_eq_true, if_false]
  rw [readsPast_incr, slice_length, size, decide_eq_true_eq]
  omega

/-- The size check passes, and the increment is looked for 4 GB behind the buffer. -/
theorem wrapped_incr_faults (t : Transport) :
    faultOf ((start emptyCache ⟨false⟩ ()).receive refusing (t, .message Mallocs.plenty wrappedIncr 20)) =
      some .outOfBounds := by
  have past : (route (start emptyCache ⟨false⟩ ()).server.settings.readOnly wrappedIncr 20).readsPast
      Mallocs.plenty t = true := wrappedIncr_past t
  rw [receive_past past]
  rfl

end System

end Nmdb
