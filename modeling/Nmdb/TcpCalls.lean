import Nmdb.Client
import Nmdb.SizeLimits
import Nmdb.TcpClients

/-! Library calls over TCP, from the bytes on any number of connections to what the callers
get back: all of them see the map that took the messages in one order, and that order has
those of each connection in turn. -/
namespace Nmdb.TcpServer

open Server Library

section

variable {c : Nat} {clients : List Client} {before after : List Event} {buf : Mem} {len : Nat} {client : Client}

theorem sentBy_place (here : clients[(messages before).length]? = some client)
    {msgs : List Bytes} (sent : sentBy client.conn clients (before ++ .message buf len :: after) <+: msgs) :
    msgs[(sentBy client.conn clients before).length]? = some (slice buf 0 len) := by
  obtain ⟨cs, cs', rfl, size⟩ : ∃ cs cs', clients = cs ++ client :: cs' ∧ cs.length = (messages before).length := by
    obtain ⟨inside, rfl⟩ := List.getElem?_eq_some_iff.mp here
    refine ⟨clients.take (messages before).length, clients.drop ((messages before).length + 1), ?_, ?_⟩
    · rw [← List.drop_eq_getElem_cons inside, List.take_append_drop]
    · exact List.length_take_of_le (Nat.le_of_lt inside)
  have front : sentBy client.conn (cs ++ client :: cs') before = sentBy client.conn cs before := by
    have cut := sentBy_append client.conn size (client :: cs') []
    rw [List.append_nil] at cut
    rw [cut]
    exact List.append_nil _
  rw [front]
  rw [sentBy_append client.conn size] at sent
  obtain ⟨rest, rfl⟩ := sent
  rw [List.append_assoc, List.getElem?_append_right (Nat.le_refl _), Nat.sub_self]
  simp [sentBy, messages]

theorem requests_place {n : Nat} {evs : List Event} {req : ReqInfo Nat} {r : Request} (member : (req, r) ∈ requests n evs) :
    ∃ before buf len after, evs = before ++ .message buf len :: after ∧ req.net = n + (messages before).length := by
  induction evs generalizing n with
  | nil => contradiction
  | cons ev rest ih =>
    cases ev with
    | dequeue =>
      obtain ⟨before, buf, len, after, rfl, number⟩ := ih member
      exact ⟨.dequeue :: before, buf, len, after, rfl, number⟩
    | execute =>
      obtain ⟨before, buf, len, after, rfl, number⟩ := ih member
      exact ⟨.execute :: before, buf, len, after, rfl, number⟩
    | message buf len =>
      rcases List.mem_append.mp member with first | later
      · obtain ⟨_, _, same⟩ := Option.map_eq_some_iff.mp (Option.mem_toList.mp first)
        obtain ⟨rfl, rfl⟩ := Prod.mk.inj same
        exact ⟨[], buf, len, rest, rfl, rfl⟩
      · obtain ⟨before, buf', len', after, rfl, number⟩ := ih later
        refine ⟨.message buf len :: before, buf', len', after, rfl, ?_⟩
        rw [number, messages, List.length_cons]
        omega

end

section

variable {δ : Type} {db : DbConn δ} {s : System δ} {t : TcpServer δ} {clients : List Client} {turns : List Event}

theorem settled_nets (one : s.OneReply) (settled : s.pending = []) :
    (s.server.replies.map fun x => x.1.net).Perm (List.range s.parsed) := by
  refine List.perm_iff_count.mpr fun n => ?_
  have count := one n
  rw [System.owed, settled] at count
  rw [List.nodup_range.count, List.count_eq_countP, List.countP_map, List.countP_eq_length_filter]
  simp only [List.mem_range]
  exact count

theorem settled_counts (serves : Serves (fun n => clients.getD n ⟨0, 0⟩) s t) (one : s.OneReply)
    (length : clients.length = (messages turns).length) (parsed : s.parsed = (messages turns).length)
    (idle : t.hand = none) (empty : t.server.queue = []) (c : Nat) :
    (t.server.replies.filter fun y => y.1.net.conn = c).length = (sentBy c clients turns).length := by
  have settled : s.pending = [] := by
    have hand := serves.hand
    have queue := serves.server.queue
    rw [idle] at hand
    rw [empty, List.nil_append] at queue
    rw [System.pending, Option.map_eq_none_iff.mp hand.symm, List.map_eq_nil_iff.mp queue.symm]
    rfl
  have names : (List.range s.parsed).map (fun n => clients.getD n ⟨0, 0⟩) = clients := by
    rw [parsed, ← length]
    apply List.ext_getElem
    · rw [List.length_map, List.length_range]
    · intro n _ inside
      rw [List.getElem_map, List.getElem_range, List.getD_eq_getElem?_getD,
        List.getElem?_eq_getElem inside, Option.getD_some]
  have nets := (settled_nets one settled).map fun n => clients.getD n ⟨0, 0⟩
  rw [names] at nets
  calc (t.server.replies.filter fun y => y.1.net.conn = c).length
      = (((s.server.replies.map fun x => x.1.net).map fun n => clients.getD n ⟨0, 0⟩).countP fun k => k.conn = c) := by
        rw [serves.server.replies, List.nil_append, List.map_map, ← List.countP_eq_length_filter, List.countP_map,
          List.countP_map]
        rfl
    _ = clients.countP fun k => k.conn = c := nets.countP_eq _
    _ = (sentBy c clients turns).length := by
        rw [sentBy, List.length_map, ← List.countP_eq_length_filter]
        have firsts : (clients.zip (messages turns)).map Prod.fst = clients :=
          List.map_fst_zip (Nat.le_of_eq length)
        conv => lhs; rw [← firsts]
        rw [List.countP_map]
        rfl

end

theorem packet_message {c : Call} {flags : Nat} {fresh : Mem} {body : Bytes}
    (fits : Transport.tcp.idOffset + (c.op.message flags).length ≤ SBSIZE)
    (wire : c.op.wire .tcp flags fresh = .ok (some (frame body))) : body = c.op.message flags := by
  rw [wire_eq c.op .tcp flags fresh fits] at wire
  have same := Option.some.inj (Except.ok.inj wire)
  have parts := List.append_inj same (by rw [Transport.lengthPrefix_length]; rfl)
  exact parts.2.symm

/-- The reply makes any call whose packet holds the message return what is documented for the map. -/
def Suits (readOnly : Bool) (m : KV) (body : Bytes) (req : ReqInfo Client) (x : Reply) : Prop :=
  ∀ (c : Call) (flags : Nat) (fresh : Mem), c.op.Legal →
    Transport.tcp.idOffset + (c.op.message flags).length ≤ longest .tcp →
    (c.info 0 flags).cacheOnly = false → c.op.wire .tcp flags fresh = .ok (some (frame body)) →
    ∀ io : Io, io.malloc = true → io.sent = true → Delivered .tcp (Transport.tcp.packet req x) io.socket →
      c.run .tcp io flags = .ok (c.result readOnly flags m)

theorem reply_suits {δ : Type} {db : DbConn δ} {view : δ → KV} (backend : MapBackend db view)
    (accepts : ∀ d k v, (db.set d k v).1 = true) {cdOk tableOk : Bool} {numobjs cflags : Nat} {cd : Cache}
    (created : cacheCreate cdOk tableOk numobjs cflags = some cd) (settings : Settings) {d : δ}
    (bounded : ∀ k v, view d k = some v → v.length ≤ 65536) {before after : List Event} {buf : Mem} {len : Nat}
    (inMode : ∀ ev ∈ before ++ .message buf len :: after, ev.InMode)
    (defined : NumbersDefined settings.readOnly (view d) (requests 0 (before ++ .message buf len :: after)))
    {sys : System δ} (served : Runs.run (System.step db) (System.start cd settings d)
      (before ++ .message buf len :: after) = .ok sys) {req : ReqInfo Nat} {x : Reply}
    (given : (req, x) ∈ sys.server.replies) (number : req.net = (messages before).length) (f : Nat → Client) :
    Suits settings.readOnly (atomicRun settings.readOnly (view d) (requests 0 before)).1 (slice buf 0 len)
      (req.rename f) x := by
  intro c flags fresh legal fits toDb wire io malloc isSent delivered
  have initial := System.start_linear created settings bounded
  have final := (initial.run backend accepts _ inMode defined).2 sys served
  have traced := (start_traced created settings d).run _ inMode served
  have room : Transport.tcp.idOffset + (c.op.message flags).length ≤ SBSIZE := fits_buffer fits
  have body := packet_message room wire
  have size : len = (c.op.message flags).length := by rw [← body, slice_length]
  rw [size] at body
  have short : c.op.payload.length < 2 ^ 32 := by
    have long := message_length c.op flags
    simp only [Transport.idOffset, SBSIZE] at room
    omega
  obtain ⟨found, info⟩ := message_decoded (Call.request_op c) legal short body
  rw [← size] at found
  have earlier : ∀ ev ∈ before, ev.InMode := fun ev early => inMode ev (List.mem_append_left _ early)
  obtain ⟨small, incr⟩ := message_finds backend accepts initial rfl found earlier defined served
  exact reply_returns room toDb found info traced final.replied small incr given number malloc isSent delivered

/-- In whatever order the messages of the connections come, no increment meets an empty value
or overflows. -/
def AnyOrderDefined (readOnly : Bool) (m : KV) (msgs : Nat → List Bytes) : Prop :=
  ∀ turns clients, clients.length = (messages turns).length → (∀ c, sentBy c clients turns <+: msgs c) →
    NumbersDefined readOnly m (requests 0 turns)

/-- Library calls over TCP. Behind any number of connections, whose bytes come in any pieces
and in any mixture, there is one order of the messages that has those of each connection in
turn, and the server without connections runs on it. Each reply is to one of them, reaches the
connection that sent it, and makes the call whose packet that is return what is documented for
the map that took the messages before it, each at once. Once the server has nothing left to do,
each connection has been given as many replies as messages came from it. -/
theorem tcp_calls_see_one_map {δ : Type} {db : DbConn δ} {view : δ → KV} (backend : MapBackend db view)
    (accepts : ∀ d k v, (db.set d k v).1 = true) {cdOk tableOk : Bool} {numobjs cflags : Nat} {cd : Cache}
    (created : cacheCreate cdOk tableOk numobjs cflags = some cd) (settings : Settings) {d : δ}
    (bounded : ∀ k v, view d k = some v → v.length ≤ 65536) {static : Mem} {evs : List NetEvent} {t : TcpServer δ}
    {future : Nat → Bytes} {msgs : Nat → List Bytes} (sized : ∀ c, ∀ x ∈ msgs c, InRange x)
    (asks : ∀ c, ∀ x ∈ msgs c, Asks x) (numbers : AnyOrderDefined settings.readOnly (view d) msgs)
    (streams : ∀ c, arrived db c (start cd settings d static) evs ++ future c = (msgs c).flatMap frame)
    (well : Runs.Along (TcpServer.step db) Well (start cd settings d static) evs)
    (ran : Runs.run (TcpServer.step db) (start cd settings d static) evs = .ok t) :
    ∃ turns clients sys, Runs.run (System.step db) (System.start cd settings d) turns = .ok sys ∧
      clients.length = (messages turns).length ∧ Serves (fun n => clients.getD n ⟨0, 0⟩) sys t ∧
      (∀ c, sentBy c clients turns <+: msgs c ∧ (future c = [] → sentBy c clients turns = msgs c)) ∧
      (t.hand = none → t.server.queue = [] → ∀ c,
        (t.server.replies.filter fun y => y.1.net.conn = c).length = (sentBy c clients turns).length) ∧
      Runs.Along (TcpServer.step db) (RepliesReach db) (start cd settings d static) evs ∧
      ∀ req x, (req, x) ∈ t.server.replies →
        ∃ before buf len after, turns = before ++ .message buf len :: after ∧
          (msgs req.net.conn)[(sentBy req.net.conn clients before).length]? = some (slice buf 0 len) ∧
          Suits settings.readOnly (atomicRun settings.readOnly (view d) (requests 0 before)).1 (slice buf 0 len) req x := by
  obtain ⟨turns, clients, sys, served, length, inMode, serves, sent⟩ := streams_turns sized asks streams well ran
  have parsed : sys.parsed = (messages turns).length := (run_parsed served).trans (Nat.zero_add _)
  have one : sys.OneReply := run_oneReply (fun n => rfl) served
  have defined := numbers turns clients length fun c => (sent c).1
  have reach := fresh_reach (start_consistent cd settings d static) (well.mono fun _ _ => Well.fresh)
  refine ⟨turns, clients, sys, served, length, serves, sent,
    fun idle empty => settled_counts serves one length parsed idle empty, reach, ?_⟩
  intro req x member
  have traced := (start_traced created settings d).run _ inMode served
  rw [serves.server.replies, List.nil_append] at member
  obtain ⟨⟨req', x'⟩, given, same⟩ := List.mem_map.mp member
  obtain ⟨rfl, rfl⟩ := Prod.mk.inj same
  obtain ⟨r, asked⟩ : ∃ r, (req', r) ∈ requests 0 turns := traced.replies _ _ given
  obtain ⟨before, buf, len, after, rfl, number⟩ := requests_place asked
  rw [Nat.zero_add] at number
  refine ⟨before, buf, len, after, rfl, ?_, ?_⟩
  · apply sentBy_place _ (sent _).1
    have inside : (messages before).length < clients.length := by
      rw [length, messages_append, List.length_append]
      exact Nat.lt_add_of_pos_right (Nat.succ_pos _)
    simp only [ReqInfo.rename, number, List.getD_eq_getElem?_getD, List.getElem?_eq_getElem inside, Option.getD_some]
  · exact reply_suits backend accepts created settings bounded inMode defined served given number _

theorem incr_packet : (Call.incr [65] 2).op.wire .tcp 0 (fun _ => 0) = .ok (some (frame incrBody)) := by
  decide +kernel

section

variable {m : KV} {xs : List (ReqInfo Nat × Request)}

theorem sets_defined (sets : ∀ x ∈ xs, x.2 = .set [65] [53, 0]) : NumbersDefined false m xs := by
  induction xs generalizing m with
  | nil => exact trivial
  | cons x rest ih =>
    obtain ⟨req, r⟩ := x
    obtain ⟨rfl, later⟩ := List.forall_mem_cons.mp sets
    exact ⟨trivial, ih later⟩

/- Of such requests only the one INCR counts, and it finds nothing or the text 5. -/
theorem loneIncr_defined (only : ∀ x ∈ xs, x.2 = .set [65] [53, 0] ∨ x.2 = .incr [65] 2)
    (once : xs.countP (fun x => x.2 = .incr [65] 2) ≤ 1) (value : m [65] = none ∨ m [65] = some [53, 0]) :
    NumbersDefined false m xs := by
  induction xs generalizing m with
  | nil => exact trivial
  | cons x rest ih =>
    obtain ⟨req, r⟩ := x
    obtain ⟨first, later⟩ := List.forall_mem_cons.mp only
    rcases first with rfl | rfl
    · refine ⟨trivial, ih later ?_ ?_⟩
      · rw [List.countP_cons_of_neg (by simp)] at once
        exact once
      · unfold atomicStep
        split
        case isTrue => exact value
        case isFalse => exact .inr rfl
    · rw [List.countP_cons_of_pos (by simp)] at once
      have none_left := List.countP_eq_zero.mp (Nat.le_zero.mp (Nat.le_of_succ_le_succ once))
      refine ⟨fun v held => ?_, sets_defined fun x member => ?_⟩
      · rcases value with absent | five
        · rw [absent] at held
          contradiction
        · obtain rfl := Option.some.inj (held.symm.trans five)
          exact ⟨List.cons_ne_nil _ _, fun _ => ⟨by decide, by decide⟩⟩
      · exact (later x member).resolve_right fun incr => none_left x member (decide_eq_true incr)

end

theorem mixed_requests {turns : List Event} {clients : List Client} {n : Nat}
    (length : clients.length = (messages turns).length)
    (sent : ∀ x ∈ clients.zip (messages turns), slice x.2.1 0 x.2.2 ∈ mixedMessages x.1.conn) :
    (∀ x ∈ requests n turns, x.2 = .set [65] [53, 0] ∨ x.2 = .incr [65] 2) ∧
      (requests n turns).countP (fun x => x.2 = .incr [65] 2) = (sentBy 1 clients turns).length := by
  induction turns generalizing clients n with
  | nil => exact ⟨List.forall_mem_nil _, by simp [requests, sentBy, messages]⟩
  | cons ev rest ih =>
    cases ev with
    | dequeue => exact ih length sent
    | execute => exact ih length sent
    | message buf len =>
      cases clients with
      | nil => contradiction
      | cons client clients =>
        obtain ⟨first, later⟩ := List.forall_mem_cons.mp sent
        obtain ⟨only, count⟩ := ih (n := n + 1) (Nat.succ.inj length) later
        unfold mixedMessages at first
        split at first
        case isTrue zero =>
          have other : client.conn ≠ 1 := by
            have here : client.conn = 0 := zero
            rw [here]
            decide
          have body : slice buf 0 len = setBody := by simpa using first
          have found : decoded buf len = some (.set [65] [53, 0]) := (decoded_held body).trans (by decide)
          rw [requests_message found]
          refine ⟨List.forall_mem_cons.mpr ⟨.inl rfl, only⟩, ?_⟩
          rw [List.countP_cons_of_neg (by simp), count, sentBy_message, if_neg other]
        case isFalse =>
          split at first
          case isTrue one =>
            have body : slice buf 0 len = incrBody := by simpa using first
            have found : decoded buf len = some (.incr [65] 2) := (decoded_held body).trans (by decide)
            rw [requests_message found]
            refine ⟨List.forall_mem_cons.mpr ⟨.inr rfl, only⟩, ?_⟩
            rw [List.countP_cons_of_pos (by simp), count, sentBy_message, if_pos one]
            rfl
          case isFalse => contradiction

theorem mixed_defined : AnyOrderDefined false (fun _ => none) mixedMessages := by
  intro turns clients length sent
  obtain ⟨only, count⟩ := mixed_requests (n := 0) length fun x member => (sent x.1.conn).subset
    (List.mem_map.mpr ⟨x, List.mem_filter.mpr ⟨member, decide_eq_true rfl⟩, rfl⟩)
  refine loneIncr_defined only ?_ (.inl rfl)
  rw [count]
  exact (sent 1).length_le

theorem tcp_calls_see_one_map_mixed : ∃ t turns clients,
    Runs.run (TcpServer.step mapDb) (start emptyCache ⟨false⟩ (fun _ => none) fun _ => 0) mixedStreams = .ok t ∧
    t.server.replies = [(⟨⟨6, 1⟩, 0x1000000, 0x105, 0⟩, .mini .notin)] ∧
    Runs.Along (TcpServer.step mapDb) (RepliesReach mapDb)
      (start emptyCache ⟨false⟩ (fun _ => none) fun _ => 0) mixedStreams ∧
    ∃ before buf len after, turns = before ++ .message buf len :: after ∧
      [incrBody][(sentBy 1 clients before).length]? = some (slice buf 0 len) ∧
      ∀ io : Io, io.malloc = true → io.sent = true →
        Delivered .tcp (Transport.tcp.packet (⟨⟨6, 1⟩, 0x1000000, 0x105, 0⟩ : ReqInfo Client) (.mini .notin)) io.socket →
        (Call.incr [65] 2).run .tcp io 0 =
          .ok ((Call.incr [65] 2).result false 0 (atomicRun false (fun _ => none) (requests 0 before)).1) := by
  have final : (Runs.run (TcpServer.step mapDb) (start emptyCache ⟨false⟩ (fun _ => none) fun _ => 0)
      mixedStreams >>= fun t => pure (t.accepted, t.server.replies)) =
        .ok ([5, 6], [(⟨⟨6, 1⟩, 0x1000000, 0x105, 0⟩, .mini .notin)]) := by decide +kernel
  obtain ⟨t, ran, same⟩ := bind_eq_ok.mp final
  obtain ⟨both, replies⟩ := Prod.mk.inj (Except.ok.inj same)
  obtain ⟨turns, clients, _, _, _, _, _, _, reach, told⟩ := tcp_calls_see_one_map mapDb_backend (fun _ _ _ => rfl)
    emptyCache_created ⟨false⟩ (d := fun _ => none) (fun k v held => by contradiction)
    (fun c x member => (mixedMessages_asks c x member).1) (fun c x member => (mixedMessages_asks c x member).2)
    mixed_defined (mixedStreams_arrived ran both) mixedStreams_well ran
  refine ⟨t, turns, clients, ran, replies, reach, ?_⟩
  obtain ⟨before, buf, len, after, split, place, suits⟩ := told _ _ (by rw [replies]; exact List.mem_singleton_self _)
  refine ⟨before, buf, len, after, split, place, fun io malloc isSent delivered => ?_⟩
  have body : incrBody = slice buf 0 len := List.mem_singleton.mp (List.mem_of_getElem? place) |>.symm
  have legal : (Call.incr [65] 2).op.Legal := by
    constructor
    · rintro r ⟨⟩
      decide
    · rintro key increment ⟨⟩
      exact ⟨by decide, by decide⟩
  exact suits (.incr [65] 2) 0 (fun _ => 0) legal (by decide) (by decide) (body ▸ incr_packet) io malloc isSent delivered

end Nmdb.TcpServer
