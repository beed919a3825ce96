import Nmdb.Connections
import Nmdb.Schedules

/-! The server behind its TCP connections. However the streams of the clients are cut and
mixed, what comes in at the parser is whole messages, those of each client in order, and the
server does with them what it does with any messages. -/
namespace Nmdb

open Server

variable {δ σ τ : Type}

section

variable {P : σ → ReqInfo Client → Mem → Nat → Except Fault (Bool × σ)}
  {Q : τ → ReqInfo Client → Mem → Nat → Except Fault (Bool × τ)} {S : σ → τ → Prop}

/-- A parser that does as another one does, where that one does not fault. -/
def Follows (S : σ → τ → Prop) (P : σ → ReqInfo Client → Mem → Nat → Except Fault (Bool × σ))
    (Q : τ → ReqInfo Client → Mem → Nat → Except Fault (Bool × τ)) : Prop :=
  ∀ st st' req buf len rv u, S st u → P st req buf len = .ok (rv, st') →
    ∃ u', Q u req buf len = .ok (rv, u') ∧ S st' u'

theorem processBuf_follows (follows : Follows S P Q) {ok : Bool} {fuel len : Nat} {tcpsock : TcpSocket}
    {buf buf' : Mem} {k : Option TcpSocket} {st st' : σ} {u : τ} (here : S st u)
    (done : processBuf P ok fuel tcpsock buf len st = .ok (k, buf', st')) :
    ∃ u', processBuf Q ok fuel tcpsock buf len u = .ok (k, buf', u') ∧ S st' u' := by
  induction fuel generalizing tcpsock buf len st u with
  | zero => contradiction
  | succ fuel ih =>
    unfold processBuf at done ⊢
    simp only at done ⊢
    split at done
    case isTrue refused =>
      cases done
      rw [if_pos refused]
      exact ⟨u, rfl, here⟩
    case isFalse fits =>
      rw [if_neg fits]
      split at done
      case isTrue more =>
        rw [if_pos more]
        cases own : tcpsock.buf with
        | none =>
          rw [own] at done
          cases ok with
          | false =>
            cases done
            exact ⟨u, rfl, here⟩
          | true =>
            cases done
            exact ⟨u, rfl, here⟩
        | some old =>
          rw [own] at done
          cases done
          exact ⟨u, rfl, here⟩
      case isFalse whole =>
        rw [if_neg whole]
        -- the socket, with the bytes in excess written down or not
        generalize (if totaltoget buf len < len then { tcpsock with excess := len - totaltoget buf len }
          else tcpsock) = sock at done ⊢
        obtain ⟨⟨rv, st₁⟩, parsed, done⟩ := bind_eq_ok.mp done
        obtain ⟨u₁, alike, next⟩ := follows _ _ _ _ _ _ _ here parsed
        rw [alike, ok_bind]
        simp only at done ⊢
        cases rv with
        | false =>
          cases done
          exact ⟨u₁, rfl, next⟩
        | true =>
          simp only [Bool.not_true, Bool.false_eq_true, if_false] at done ⊢
          split at done
          case isTrue excess =>
            rw [if_pos excess]
            exact ih next done
          case isFalse none =>
            rw [if_neg none]
            cases own : sock.buf with
            | none =>
              rw [own] at done
              cases done
              exact ⟨u₁, rfl, next⟩
            | some old =>
              rw [own] at done
              cases done
              exact ⟨u₁, rfl, next⟩

theorem tcpRecv_follows (follows : Follows S P Q) {ok : Bool} {tcpsock : TcpSocket}
    {static static' : Mem} {rv : Bytes} {k : Option TcpSocket} {st st' : σ} {u : τ} (here : S st u)
    (done : tcpRecv P ok static tcpsock rv st = .ok (k, static', st')) :
    ∃ u', tcpRecv Q ok static tcpsock rv u = .ok (k, static', u') ∧ S st' u' := by
  unfold tcpRecv at done ⊢
  split at done
  case isTrue closed =>
    cases done
    rw [if_pos closed]
    exact ⟨u, rfl, here⟩
  case isFalse nonempty =>
    rw [if_neg nonempty]
    cases own : tcpsock.buf with
    | none =>
      rw [own] at done
      exact processBuf_follows follows here done
    | some buf =>
      rw [own] at done
      obtain ⟨⟨k', buf', st₁⟩, ran, same⟩ := bind_eq_ok.mp done
      cases same
      obtain ⟨u', alike, next⟩ := processBuf_follows follows here ran
      simp only [alike, ok_bind, pure_ok]
      exact ⟨u', rfl, next⟩

/-- A parser that goes on where the other one faults. -/
def total (P : σ → ReqInfo Client → Mem → Nat → Except Fault (Bool × σ)) (st : σ) (req : ReqInfo Client)
    (buf : Mem) (len : Nat) : Except Fault (Bool × σ) :=
  match P st req buf len with
  | .ok x => .ok x
  | .error _ => .ok (true, st)

theorem recording_follows (P : σ → ReqInfo Client → Mem → Nat → Except Fault (Bool × σ)) :
    Follows (fun st h => h.state = st) P (recording P) := by
  rintro _ st' req buf len rv ⟨st, bodies⟩ rfl done
  exact ⟨⟨st', bodies ++ [slice buf 0 len]⟩, by simp only [recording, done, ok_bind, pure_ok], rfl⟩

theorem total_follows (P : σ → ReqInfo Client → Mem → Nat → Except Fault (Bool × σ)) :
    Follows Eq (recording P) (recording (total P)) := by
  rintro h h' req buf len rv _ rfl done
  obtain ⟨⟨rv', st'⟩, parsed, same⟩ := bind_eq_ok.mp done
  cases same
  exact ⟨_, by simp only [recording, total, parsed, ok_bind, pure_ok], rfl⟩

theorem total_accepted {x : Bytes} (understood : ∀ st req buf rv st', slice buf 0 x.length = x →
      P st req buf x.length = .ok (rv, st') → rv = true) : Accepted (total P) (fun _ => True) x := by
  intro st req buf _ held
  cases parsed : P st req buf x.length with
  | error e => exact ⟨st, by simp only [total, parsed], trivial⟩
  | ok res =>
    obtain ⟨rv, st'⟩ := res
    obtain rfl := understood _ _ _ _ _ held parsed
    exact ⟨st', by simp only [total, parsed], trivial⟩

/-- Messages parsed one after the other. -/
inductive Parsed (P : σ → ReqInfo Client → Mem → Nat → Except Fault (Bool × σ)) :
    σ → List (ReqInfo Client × Mem × Nat) → σ → Prop
  | nil (st : σ) : Parsed P st [] st
  | cons {st st' st'' : σ} {req : ReqInfo Client} {buf : Mem} {len : Nat} {rv : Bool}
      {xs : List (ReqInfo Client × Mem × Nat)} (parsed : P st req buf len = .ok (rv, st'))
      (rest : Parsed P st' xs st'') : Parsed P st ((req, buf, len) :: xs) st''

theorem Parsed.append {st st' st'' : σ} {xs ys : List (ReqInfo Client × Mem × Nat)} (first : Parsed P st xs st')
    (rest : Parsed P st' ys st'') : Parsed P st (xs ++ ys) st'' := by
  induction first with
  | nil st => exact rest
  | cons parsed _ ih => exact .cons parsed (ih rest)

def bodies (xs : List (ReqInfo Client × Mem × Nat)) : List Bytes := xs.map fun x => slice x.2.1 0 x.2.2

/-- What a socket hands to the parser bears its connection. -/
theorem tcpRecv_hands {ok : Bool} {tcpsock : TcpSocket} {static static' : Mem} {rv : Bytes}
    {k : Option TcpSocket} {h h' : Handed σ} (own : tcpsock.req.net = tcpsock.client)
    (done : tcpRecv (recording P) ok static tcpsock rv h = .ok (k, static', h')) :
    (∃ xs, (∀ x ∈ xs, x.1.net = tcpsock.client) ∧ h'.bodies = h.bodies ++ bodies xs ∧
      Parsed P h.state xs h'.state) ∧ ∀ k' ∈ k, k'.client = tcpsock.client ∧ k'.req.net = tcpsock.client := by
  apply tcpRecv_own (R := fun h h' : Handed σ => ∃ xs, (∀ x ∈ xs, x.1.net = tcpsock.client) ∧
    h'.bodies = h.bodies ++ bodies xs ∧ Parsed P h.state xs h'.state) _ _ _ rfl own done
  · intro h
    exact ⟨[], List.forall_mem_nil _, (List.append_nil _).symm, .nil _⟩
  · rintro h h' h'' ⟨xs, mine, parts, parsed⟩ ⟨ys, mine', parts', parsed'⟩
    refine ⟨xs ++ ys, fun x member => ?_, ?_, parsed.append parsed'⟩
    · exact (List.mem_append.mp member).elim (mine x) (mine' x)
    · rw [parts', parts, List.append_assoc, bodies, bodies, bodies, List.map_append]
  · intro h req buf len rv h' mine done
    obtain ⟨⟨rv', st'⟩, parsed, same⟩ := bind_eq_ok.mp done
    cases same
    refine ⟨[(req, buf, len)], fun x member => ?_, rfl, .cons parsed (.nil _)⟩
    rw [List.mem_singleton.mp member]
    exact mine

end

/-- The bytes of a request of database mode. -/
def Asks (x : Bytes) : Prop := (Event.message (Mem.ofBytes x) x.length).InMode

theorem decoded_same {buf buf' : Mem} {len : Nat} (same : SameUpTo len buf buf') :
    decoded buf len = decoded buf' len := by
  by_cases header : 8 ≤ len
  · obtain ⟨ver, cmd, _⟩ := header_same (ν := Nat) header same
    have payload : slice (buf.from 8) 0 (len - 8) = slice (buf'.from 8) 0 (len - 8) :=
      slice_same (same.from 8) (Nat.le_of_eq (Nat.zero_add _))
    simp only [decoded, ver, cmd, payload]
  · simp only [decoded, header, and_false, if_false]

theorem ofBytes_same {x : Bytes} {buf : Mem} (held : slice buf 0 x.length = x) :
    SameUpTo x.length (Mem.ofBytes x) buf := by
  intro i inside
  have byte := congrArg (fun b : Bytes => b.getD i 0) held
  simp only [slice, List.getD_eq_getElem?_getD, List.getElem?_map, List.getElem?_range inside, Option.map_some,
    Option.getD_some, Nat.zero_add] at byte
  rw [byte, Mem.ofBytes, List.getD_eq_getElem?_getD]

/-- A message is decoded from its bytes. -/
theorem decoded_held {x : Bytes} {buf : Mem} {len : Nat} (held : slice buf 0 len = x) :
    decoded buf len = decoded (Mem.ofBytes x) x.length := by
  obtain rfl : x.length = len := by rw [← held, slice_length]
  exact (decoded_same (ofBytes_same held)).symm

theorem Asks.inMode {x : Bytes} (asks : Asks x) {buf : Mem} (held : slice buf 0 x.length = x) :
    (Event.message buf x.length).InMode := by
  obtain ⟨r, found, size, mode⟩ := asks
  have same := ofBytes_same held
  have header : 8 ≤ x.length := by
    unfold decoded at found
    split at found
    case isTrue header => exact header.2
    case isFalse => contradiction
  obtain ⟨_, _, info⟩ := header_same (ν := Nat) header same
  refine ⟨r, ?_, size, ?_⟩
  · rw [← decoded_same same]
    exact found
  · rw [← info]
    exact mode

theorem tcpParse_understood {m : Mallocs} {s s' : Server Client} {req : ReqInfo Client} {buf : Mem} {len : Nat}
    {rv : Bool} (inMode : (Event.message buf len).InMode) (done : tcpParse m s req buf len = .ok (rv, s')) :
    rv = true := by
  obtain ⟨r, found, size, _⟩ := inMode
  rw [tcpParse, parseMessage_decoded found size] at done
  obtain ⟨_, _, same⟩ := bind_eq_ok.mp done
  cases same
  rfl

theorem Asks.accepted {x : Bytes} (asks : Asks x) :
    Accepted (total (tcpParse Mallocs.plenty)) (fun _ => True) x := by
  apply total_accepted
  intro st req buf rv st' held parsed
  exact tcpParse_understood (asks.inMode held) parsed

/-- What recv() returns on a connection: some bytes, cut well, or none as it ends. -/
def ReadWell (tcpsock : TcpSocket) (rv : Bytes) (ok : Bool) : Prop :=
  rv ≠ [] → rv.length ≤ tcpsock.asked ∧ (tcpsock.buf = none → ∃ rest, Aligned rv rest ∧ (rest = [] ∨ ok = true))

/-- Bytes of a stream of requests go to the parser as the next requests, and a piece is kept. -/
theorem tcpRecv_serves {ok : Bool} {tcpsock : TcpSocket} {static static' : Mem} {piece rv future : Bytes}
    {k : Option TcpSocket} {st st' : Server Client} {msgs : List Bytes} (sized : ∀ x ∈ msgs, InRange x)
    (asks : ∀ x ∈ msgs, Asks x) (holds : tcpsock.Holds piece) (own : tcpsock.req.net = tcpsock.client)
    (stream : (piece ++ rv) ++ future = msgs.flatMap frame) (nonempty : rv ≠ [])
    (well : ReadWell tcpsock rv ok)
    (done : tcpRecv (tcpParse Mallocs.plenty) ok static tcpsock rv st = .ok (k, static', st')) :
    ∃ k' xs piece' left, k = some k' ∧ k'.client = tcpsock.client ∧ k'.Holds piece' ∧
      (∀ x ∈ xs, x.1.net = tcpsock.client) ∧ Parsed (tcpParse Mallocs.plenty) st xs st' ∧
      msgs = bodies xs ++ left ∧ piece' ++ future = left.flatMap frame := by
  obtain ⟨h, recorded, rfl⟩ := tcpRecv_follows (recording_follows (tcpParse Mallocs.plenty))
    (u := (⟨st, []⟩ : Handed (Server Client))) rfl done
  obtain ⟨⟨xs, mine, handed, parsed⟩, kept⟩ := tcpRecv_hands own recorded
  obtain ⟨_, totally, rfl⟩ := tcpRecv_follows (total_follows (tcpParse Mallocs.plenty)) rfl recorded
  obtain ⟨within, clean⟩ := well nonempty
  obtain ⟨k', static'', st'', new, piece', received, holds', _, parts, newSized⟩ :=
    tcpRecv_clean (I := fun _ => True) (h := (⟨st, []⟩ : Handed (Server Client))) static sized
      (fun x member => (asks x member).accepted) holds stream nonempty within clean trivial
  rw [totally] at received
  cases received
  have same : new = bodies xs := handed
  subst same
  rw [parts, List.append_assoc] at stream
  obtain ⟨left, rest, tail⟩ := frames_cancel newSized sized stream
  exact ⟨k', xs, piece', left, rfl, (kept k' rfl).1, holds', mine, parsed, rest, tail⟩

/-- The System behind the connections: request n came from client f n. The counters are left
out, as only the one behind TCP counts its messages. -/
structure Serves (f : Nat → Client) (s : System δ) (t : TcpServer δ) : Prop where
  server : Alike (fun _ _ => True) f [] [] s.server t.server
  db : t.db = s.db
  hand : t.hand = s.hand.map (QueueEntry.rename f)

def events (xs : List (ReqInfo Client × Mem × Nat)) : List Event := xs.map fun x => .message x.2.1 x.2.2

section

variable {db : DbConn δ} {f : Nat → Client} {s : System δ} {t t' : TcpServer δ}

theorem countAlike_true : CountAlike fun _ _ => True := fun _ _ _ _ => trivial

/-- A request is no STATS request. -/
theorem route_mode {readOnly : Bool} {buf : Mem} {len : Nat} (inMode : (Event.message buf len).InMode) :
    route readOnly buf len ≠ .stats := by
  obtain ⟨r, found, _⟩ := inMode
  unfold decoded at found
  split at found
  case isTrue header =>
    obtain ⟨c, code, dec⟩ := Option.bind_eq_some_iff.mp found
    by_cases fits : SizesFit c (buf.from 8) (len - 8)
    · rw [(declared_slice c (buf.from 8) (len - 8)).1 fits] at dec
      simp only [route, header.1, ne_eq, not_true_eq_false, if_false, code, dec]
      split
      · exact Route.noConfusion
      · split
        · exact Route.noConfusion
        · exact Route.noConfusion
    · rw [(declared_slice c (buf.from 8) (len - 8)).2 fits] at dec
      contradiction
  case isFalse => contradiction

theorem message_alike (db : DbConn δ) {srv srv' : Server Client} {req : ReqInfo Client} {buf : Mem} {len : Nat} {rv : Bool}
    (alike : Alike (fun _ _ => True) f [] [] s.server srv) (inMode : (Event.message buf len).InMode)
    (own : f s.parsed = req.net) (parsed : tcpParse Mallocs.plenty srv req buf len = .ok (rv, srv')) :
    ∃ s', s.step db (.message buf len) = .ok s' ∧ Alike (fun _ _ => True) f [] [] s'.server srv' ∧
      s'.db = s.db ∧ s'.hand = s.hand ∧ s'.parsed = s.parsed + 1 := by
  have counted : Alike (fun _ _ => True) f [] [] s.server
      (srv.count fun st => { st with msgTcp := st.msgTcp + 1 }) := { alike with stats := trivial }
  have agree := parseMessage_alike (m := Mallocs.plenty) countAlike_true counted ⟨s.parsed, 0, 0, 0⟩ buf len
    fun stats => absurd stats (route_mode inMode)
  -- the request information of TCP is that of a new one, but for what the header sets
  have same : tcpParse Mallocs.plenty srv req buf len = parseMessage Mallocs.plenty
      (srv.count fun st => { st with msgTcp := st.msgTcp + 1 })
      (ReqInfo.rename f ⟨s.parsed, 0, 0, 0⟩) buf len := by
    obtain ⟨r, found, size, _⟩ := inMode
    rw [tcpParse, parseMessage_decoded found size, parseMessage_decoded found size]
    have info : headerInfo req buf = headerInfo (ReqInfo.rename f ⟨s.parsed, 0, 0, 0⟩) buf := by
      simp only [headerInfo, ReqInfo.rename, own]
    rw [info]
  rw [← same, parsed] at agree
  cases first : parseMessage Mallocs.plenty s.server ⟨s.parsed, 0, 0, 0⟩ buf len with
  | error e =>
    rw [first] at agree
    contradiction
  | ok res =>
    rw [first] at agree
    refine ⟨{ s with server := res.2, parsed := s.parsed + 1 }, ?_, agree.2, rfl, rfl, rfl⟩
    simp only [System.step, first, ok_bind, pure_ok]

theorem messages_alike {srv srv' : Server Client} {xs : List (ReqInfo Client × Mem × Nat)} {client : Client}
    (alike : Alike (fun _ _ => True) f [] [] s.server srv)
    (parsed : Parsed (tcpParse Mallocs.plenty) srv xs srv')
    (inMode : ∀ ev ∈ events xs, ev.InMode) (own : ∀ x ∈ xs, x.1.net = client)
    (numbers : ∀ i, i < xs.length → f (s.parsed + i) = client) :
    ∃ s', Runs.run (System.step db) s (events xs) = .ok s' ∧ Alike (fun _ _ => True) f [] [] s'.server srv' ∧
      s'.db = s.db ∧ s'.hand = s.hand ∧ s'.parsed = s.parsed + xs.length := by
  induction parsed generalizing s with
  | nil st => exact ⟨s, rfl, alike, rfl, rfl, rfl⟩
  | @cons st st' st'' req buf len rv xs parsed rest ih =>
    have first : f s.parsed = req.net :=
      (numbers 0 (Nat.zero_lt_succ _)).trans (own _ List.mem_cons_self).symm
    obtain ⟨s₁, taken, next, sameDb, sameHand, number⟩ :=
      message_alike db alike (inMode _ List.mem_cons_self) first parsed
    obtain ⟨s₂, ran, last, lastDb, lastHand, lastNumber⟩ := ih next
      (fun ev member => inMode ev (List.mem_cons_of_mem _ member))
      (fun x member => own x (List.mem_cons_of_mem _ member)) (fun i inside => by
        rw [number, Nat.add_assoc, Nat.add_comm 1]
        exact numbers (i + 1) (Nat.succ_lt_succ inside))
    refine ⟨s₂, (Runs.run_cons_ok taken).trans ran, last, lastDb.trans sameDb, lastHand.trans sameHand, ?_⟩
    rw [lastNumber, number, List.length_cons]
    omega

theorem Serves.dequeue (serves : Serves f s t) (taken : TcpServer.step db t .dequeue = .ok t') :
    ∃ s', s.step db .dequeue = .ok s' ∧ Serves f s' t' ∧ s'.parsed = s.parsed := by
  have queue : t.server.queue = s.server.queue.map (QueueEntry.rename f) := serves.server.queue
  have hand := serves.hand
  cases held : s.hand with
  | some e =>
    rw [held] at hand
    simp only [TcpServer.step, hand] at taken
    cases taken
    exact ⟨s, by simp only [System.step, held], serves, rfl⟩
  | none =>
    rw [held] at hand
    cases waiting : s.server.queue with
    | nil =>
      rw [waiting] at queue
      simp only [TcpServer.step, hand, queue] at taken
      cases taken
      exact ⟨s, by simp only [System.step, held, waiting], serves, rfl⟩
    | cons e rest =>
      rw [waiting] at queue
      simp only [TcpServer.step, hand, queue] at taken
      cases taken
      refine ⟨{ s with hand := some e, server := { s.server with queue := rest } },
        by simp only [System.step, held, waiting], ⟨?_, serves.db, rfl⟩, rfl⟩
      exact { serves.server with queue := rfl }

theorem Serves.execute (serves : Serves f s t) (taken : TcpServer.step db t (.execute true) = .ok t') :
    ∃ s', s.step db .execute = .ok s' ∧ Serves f s' t' ∧ s'.parsed = s.parsed := by
  have hand := serves.hand
  cases held : s.hand with
  | none =>
    rw [held] at hand
    simp only [TcpServer.step, hand] at taken
    cases taken
    exact ⟨s, by simp only [System.step, held], serves, rfl⟩
  | some e =>
    rw [held] at hand
    simp only [TcpServer.step, hand, Option.map_some, processOp_rename, serves.db] at taken
    obtain ⟨⟨d, r⟩, done, same⟩ := bind_eq_ok.mp taken
    cases same
    cases r with
    | none =>
      refine ⟨{ s with db := d, hand := none }, ?_, ⟨serves.server, rfl, rfl⟩, rfl⟩
      simp only [System.step, held, done, ok_bind, pure_ok]
    | some r =>
      refine ⟨{ s with db := d, hand := none, server := s.server.reply e.req r }, ?_,
        ⟨serves.server.reply r, rfl, rfl⟩, rfl⟩
      simp only [System.step, held, done, ok_bind, pure_ok]

end

/-- The messages of one connection, of those that were parsed. -/
def sentBy (c : Nat) (clients : List Client) (turns : List Event) : List Bytes :=
  ((clients.zip (messages turns)).filter fun x => x.1.conn = c).map fun x => slice x.2.1 0 x.2.2

theorem sentBy_append (c : Nat) {cs : List Client} {ts : List Event} (length : cs.length = (messages ts).length)
    (cs' : List Client) (ts' : List Event) :
    sentBy c (cs ++ cs') (ts ++ ts') = sentBy c cs ts ++ sentBy c cs' ts' := by
  rw [sentBy, messages_append, List.zip_append length, List.filter_append, List.map_append]
  rfl

theorem sentBy_message (c : Nat) (client : Client) (clients : List Client) (buf : Mem) (len : Nat) (rest : List Event) :
    sentBy c (client :: clients) (.message buf len :: rest) =
      if client.conn = c then slice buf 0 len :: sentBy c clients rest else sentBy c clients rest := by
  simp only [sentBy, messages, List.zip_cons_cons, List.filter_cons]
  split
  case isTrue here => simp only [if_pos (of_decide_eq_true here), List.map_cons]
  case isFalse other => rw [if_neg fun here => other (decide_eq_true here)]

theorem messages_events (xs : List (ReqInfo Client × Mem × Nat)) : messages (events xs) = xs.map Prod.snd := by
  induction xs with
  | nil => rfl
  | cons x xs ih => exact congrArg (x.2 :: ·) ih

theorem sentBy_own {c : Nat} {client : Client} {xs : List (ReqInfo Client × Mem × Nat)}
    (own : ∀ x ∈ xs, x.1.net = client) :
    sentBy c (xs.map fun x => x.1.net) (events xs) = if client.conn = c then bodies xs else [] := by
  rw [sentBy, messages_events]
  induction xs with
  | nil => split <;> rfl
  | cons x xs ih =>
    have rest := ih fun y member => own y (List.mem_cons_of_mem x member)
    have first := own x List.mem_cons_self
    simp only [List.map_cons, List.zip_cons_cons, List.filter_cons, first]
    split at rest
    case isTrue here =>
      simp only [here, decide_true, if_true, List.map_cons, rest]
      rfl
    case isFalse other =>
      simp only [other, decide_false, Bool.false_eq_true, if_false, rest]

namespace TcpServer

/-- The bytes that a step brings from a connection. -/
def brings (c : Nat) (s : TcpServer δ) : NetEvent → Bytes
  | .recv fd rv _ _ =>
    match s.socks fd with
    | some tcpsock => if tcpsock.client.conn = c then rv else []
    | none => []
  | _ => []

/-- The bytes that arrive on a connection in a run. -/
def arrived (db : DbConn δ) (c : Nat) (s : TcpServer δ) : List NetEvent → Bytes
  | [] => []
  | ev :: rest => s.brings c ev ++
    match step db s ev with
    | .ok t => arrived db c t rest
    | .error _ => []

/-- Reads are cut well, no allocation fails, and no descriptor is handed out again under a
request still to be answered on it. -/
def Well (s : TcpServer δ) : NetEvent → Prop
  | .newconnection fd => s.FreshDescriptor (.newconnection fd)
  | .recv fd rv ok mallocs => (mallocs = fun _ => Mallocs.plenty) ∧
      ∀ tcpsock, s.socks fd = some tcpsock → ReadWell tcpsock rv ok
  | .execute ok => ok = true
  | _ => True

/-- What each connection keeps of a message that has not come completely. -/
structure Keeps (pieces : Nat → Bytes) (s : TcpServer δ) : Prop where
  consistent : s.Consistent
  holds : ∀ fd k, s.socks fd = some k → k.Holds (pieces k.client.conn)
  fresh : ∀ c, s.accepted.length ≤ c → pieces c = []

/-- From one state to the other the server behind the connections gets through these turns. -/
structure Relays (db : DbConn δ) (s t : TcpServer δ) (turns : List Event) (clients : List Client) : Prop where
  length : clients.length = (messages turns).length
  inMode : ∀ ev ∈ turns, ev.InMode
  serves : ∀ f sys, Serves f sys s → (∀ i c, clients[i]? = some c → f (sys.parsed + i) = c) →
    ∃ sys', Runs.run (System.step db) sys turns = .ok sys' ∧ Serves f sys' t ∧
      sys'.parsed = sys.parsed + clients.length

section

variable {db : DbConn δ} {s t u : TcpServer δ}

theorem Relays.refl (server : t.server = s.server) (sameDb : t.db = s.db) (hand : t.hand = s.hand) :
    Relays db s t [] [] where
  length := rfl
  inMode _ none := absurd none List.not_mem_nil
  serves f sys serves _ := by
    refine ⟨sys, rfl, ⟨?_, sameDb.trans serves.db, hand.trans serves.hand⟩, rfl⟩
    rw [server]
    exact serves.server

theorem Relays.trans {turns turns' : List Event} {clients clients' : List Client}
    (first : Relays db s t turns clients) (rest : Relays db t u turns' clients') :
    Relays db s u (turns ++ turns') (clients ++ clients') where
  length := by rw [messages_append, List.length_append, List.length_append, first.length, rest.length]
  inMode ev member := (List.mem_append.mp member).elim (first.inMode ev) (rest.inMode ev)
  serves f sys serves names := by
    obtain ⟨sys₁, ran, serves₁, number⟩ := first.serves f sys serves fun i c here =>
      names i c (by rw [List.getElem?_append_left (List.getElem?_eq_some_iff.mp here).1, here])
    obtain ⟨sys₂, ran', serves₂, number'⟩ := rest.serves f sys₁ serves₁ fun i c here => by
      rw [number, Nat.add_assoc]
      apply names
      rw [List.getElem?_append_right (Nat.le_add_right _ _), Nat.add_sub_cancel_left, here]
    refine ⟨sys₂, ?_, serves₂, ?_⟩
    · rw [Runs.run_append, ran]
      exact ran'
    · rw [number', number, List.length_append, Nat.add_assoc]

theorem Relays.received {xs : List (ReqInfo Client × Mem × Nat)} {client : Client}
    (own : ∀ x ∈ xs, x.1.net = client) (inMode : ∀ ev ∈ events xs, ev.InMode)
    (parsed : Parsed (tcpParse Mallocs.plenty) s.server xs t.server) (sameDb : t.db = s.db)
    (hand : t.hand = s.hand) : Relays db s t (events xs) (xs.map fun x => x.1.net) where
  length := by rw [messages_events, List.length_map, List.length_map]
  inMode := inMode
  serves f sys serves names := by
    obtain ⟨sys', ran, alike, db', hand', number⟩ :=
      messages_alike serves.server parsed inMode own fun i inside => by
        apply names
        rw [List.getElem?_map, List.getElem?_eq_getElem inside]
        exact congrArg some (own _ (List.getElem_mem inside))
    refine ⟨sys', ran, ⟨alike, ?_, ?_⟩, ?_⟩
    · rw [sameDb, db']
      exact serves.db
    · rw [hand, hand']
      exact serves.hand
    · rw [number, List.length_map]

theorem Relays.dequeued (taken : step db s .dequeue = .ok t) : Relays db s t [.dequeue] [] where
  length := rfl
  inMode ev member := by
    rw [List.mem_singleton.mp member]
    trivial
  serves f sys serves _ := by
    obtain ⟨sys', moved, serves', number⟩ := serves.dequeue taken
    exact ⟨sys', Runs.run_cons_ok moved, serves', number⟩

theorem Relays.executed (taken : step db s (.execute true) = .ok t) : Relays db s t [.execute] [] where
  length := rfl
  inMode ev member := by
    rw [List.mem_singleton.mp member]
    trivial
  serves f sys serves _ := by
    obtain ⟨sys', moved, serves', number⟩ := serves.execute taken
    exact ⟨sys', Runs.run_cons_ok moved, serves', number⟩

end

/-- What is to come on each connection: requests, the first of them with a piece kept already. -/
structure Coming (pieces future : Nat → Bytes) (msgs : Nat → List Bytes) : Prop where
  sized : ∀ c, ∀ x ∈ msgs c, InRange x
  asks : ∀ c, ∀ x ∈ msgs c, Asks x
  stream : ∀ c, pieces c ++ future c = (msgs c).flatMap frame
  short : ∀ c, ∀ x ∈ (msgs c).head?, (pieces c).length < x.length + 4

/- A piece kept to the end of the stream would be a message cut off. -/
theorem Coming.ended {pieces future : Nat → Bytes} {msgs : Nat → List Bytes} (coming : Coming pieces future msgs)
    {c : Nat} (none : future c = []) : msgs c = [] := by
  cases left : msgs c with
  | nil => rfl
  | cons x later =>
    have stream := coming.stream c
    have short := coming.short c x (by rw [left]; rfl)
    rw [none, left, List.append_nil, List.flatMap_cons] at stream
    rw [stream, List.length_append, frame_length] at short
    omega

/- The first messages of one connection have come. -/
theorem Coming.received {pieces future future' : Nat → Bytes} {msgs : Nat → List Bytes} {conn : Nat}
    {piece : Bytes} {new left : List Bytes} {tcpsock : TcpSocket} (coming : Coming pieces future msgs)
    (others : ∀ c, c ≠ conn → future c = future' c) (split : msgs conn = new ++ left)
    (tail : piece ++ future' conn = left.flatMap frame) (holds : tcpsock.Holds piece) :
    Coming (Function.update pieces conn piece) future' (Function.update msgs conn left) := by
  have kept : ∀ c, ∀ x ∈ Function.update msgs conn left c, x ∈ msgs c := by
    intro c x member
    by_cases here : c = conn
    · subst here
      rw [Function.update_self] at member
      exact split ▸ List.mem_append_right new member
    · rw [Function.update_of_ne here] at member
      exact member
  constructor
  case sized => exact fun c x member => coming.sized c x (kept c x member)
  case asks => exact fun c x member => coming.asks c x (kept c x member)
  case stream =>
    intro c
    by_cases here : c = conn
    · subst here
      rw [Function.update_self, Function.update_self]
      exact tail
    · rw [Function.update_of_ne here, Function.update_of_ne here, ← others c here]
      exact coming.stream c
  case short =>
    intro c x first
    by_cases here : c = conn
    · subst here
      rw [Function.update_self] at first ⊢
      obtain ⟨later, rfl⟩ := List.head?_eq_some_iff.mp first
      have sized := coming.sized c x (split ▸ List.mem_append_right new List.mem_cons_self)
      exact holds_incomplete sized holds tail
    · rw [Function.update_of_ne here] at first ⊢
      exact coming.short c x first

section

variable {db : DbConn δ} {s t : TcpServer δ} {pieces future : Nat → Bytes} {msgs : Nat → List Bytes}

/- A step that leaves the connections alone, or closes one of them. -/
theorem Keeps.others (keeps : s.Keeps pieces) (consistent : t.Consistent)
    (socks : ∀ fd k, t.socks fd = some k → s.socks fd = some k) (log : t.accepted = s.accepted) :
    t.Keeps pieces where
  consistent := consistent
  holds fd k isOpen := keeps.holds fd k (socks fd k isOpen)
  fresh := log ▸ keeps.fresh

theorem Keeps.accepts {fd : Nat} (keeps : s.Keeps pieces) (consistent : t.Consistent)
    (socks : t.socks = Function.update s.socks fd (some (.new ⟨fd, s.accepted.length⟩)))
    (log : t.accepted = s.accepted ++ [fd]) : t.Keeps pieces where
  consistent := consistent
  holds fd' k isOpen := by
    by_cases here : fd' = fd
    · rw [socks, here, Function.update_self] at isOpen
      cases isOpen
      exact ⟨rfl, keeps.fresh _ (Nat.le_refl _)⟩
    · rw [socks, Function.update_of_ne here] at isOpen
      exact keeps.holds fd' k isOpen
  fresh c later := by
    apply keeps.fresh
    rw [log, List.length_append] at later
    exact Nat.le_of_succ_le later

/- The piece of the connection that was read from is replaced. -/
theorem Keeps.reads {fd : Nat} {tcpsock k : TcpSocket} {piece : Bytes} (keeps : s.Keeps pieces)
    (consistent : t.Consistent) (isOpen : s.socks fd = some tcpsock) (own : k.client = tcpsock.client)
    (socks : t.socks = Function.update s.socks fd (some k)) (log : t.accepted = s.accepted)
    (holds : k.Holds piece) : t.Keeps (Function.update pieces tcpsock.client.conn piece) where
  consistent := consistent
  holds fd' k' isOpen' := by
    obtain ⟨owner, known, _⟩ := keeps.consistent.socks fd tcpsock isOpen
    by_cases here : fd' = fd
    · rw [socks, here, Function.update_self] at isOpen'
      cases isOpen'
      rw [own, Function.update_self]
      exact holds
    · rw [socks, Function.update_of_ne here] at isOpen'
      obtain ⟨owner', known', _⟩ := keeps.consistent.socks fd' k' isOpen'
      have other : k'.client.conn ≠ tcpsock.client.conn := by
        intro same
        apply here
        rw [← owner', ← owner, known'.same known same]
      rw [Function.update_of_ne other]
      exact keeps.holds fd' k' isOpen'
  fresh c later := by
    obtain ⟨_, known, _⟩ := keeps.consistent.socks fd tcpsock isOpen
    have other : c ≠ tcpsock.client.conn := by
      rintro rfl
      rw [Known, ← log, List.getElem?_eq_none later] at known
      contradiction
    rw [Function.update_of_ne other]
    exact keeps.fresh c (log ▸ later)

/- Bytes of one connection go to the parser, as far as its messages are complete. -/
theorem Keeps.recv {fd : Nat} {rv : Bytes} {ok : Bool} {mallocs : Server Client → Mallocs} {tcpsock : TcpSocket}
    (keeps : s.Keeps pieces) (consistent : t.Consistent) (well : s.Well (.recv fd rv ok mallocs))
    (isOpen : s.socks fd = some tcpsock) (nonempty : rv ≠ [])
    (coming : Coming pieces (fun c => s.brings c (.recv fd rv ok mallocs) ++ future c) msgs)
    (taken : TcpServer.step db s (.recv fd rv ok mallocs) = .ok t) :
    ∃ turns clients pieces' left, t.Keeps pieces' ∧ Relays db s t turns clients ∧
      Coming pieces' future left ∧ ∀ c, msgs c = sentBy c clients turns ++ left c := by
  obtain ⟨rfl, cut⟩ := well
  obtain ⟨_, known, own⟩ := keeps.consistent.socks fd tcpsock isOpen
  simp only [TcpServer.step, isOpen] at taken
  obtain ⟨⟨k, static, server⟩, ran, same⟩ := bind_eq_ok.mp taken
  cases same
  have stream : (pieces tcpsock.client.conn ++ rv) ++ future tcpsock.client.conn =
      (msgs tcpsock.client.conn).flatMap frame := by
    rw [← coming.stream, List.append_assoc]
    simp only [brings, isOpen, if_true]
  obtain ⟨k', xs, piece', left, rfl, client, holds, mine, parsed, split, tail⟩ :=
    tcpRecv_serves (coming.sized _) (coming.asks _) (keeps.holds fd tcpsock isOpen) own stream nonempty
      (cut tcpsock isOpen) ran
  have inMode : ∀ ev ∈ events xs, ev.InMode := by
    intro ev member
    obtain ⟨x, handed, rfl⟩ := List.mem_map.mp member
    have body : slice x.2.1 0 x.2.2 ∈ bodies xs := List.mem_map.mpr ⟨x, handed, rfl⟩
    have asks := coming.asks tcpsock.client.conn _ (split ▸ List.mem_append_left left body)
    have held : slice x.2.1 0 (slice x.2.1 0 x.2.2).length = slice x.2.1 0 x.2.2 := by rw [slice_length]
    have inMode := asks.inMode held
    rw [slice_length] at inMode
    exact inMode
  refine ⟨events xs, xs.map fun x => x.1.net, Function.update pieces tcpsock.client.conn piece',
    Function.update msgs tcpsock.client.conn left, ?_, ?_, ?_, fun c => ?_⟩
  · exact keeps.reads consistent isOpen client rfl rfl holds
  · exact .received mine inMode parsed rfl rfl
  · refine coming.received (fun c other => ?_) split tail holds
    simp only [brings, isOpen, if_neg (Ne.symm other), List.nil_append]
  · rw [sentBy_own mine]
    by_cases here : tcpsock.client.conn = c
    · subst here
      rw [if_pos rfl, Function.update_self]
      exact split
    · rw [if_neg here, Function.update_of_ne (Ne.symm here)]
      rfl

/-- One step of the server behind the connections. -/
theorem Keeps.step {ev : NetEvent} (keeps : s.Keeps pieces) (well : s.Well ev)
    (coming : Coming pieces (fun c => s.brings c ev ++ future c) msgs) (taken : TcpServer.step db s ev = .ok t) :
    ∃ turns clients pieces' left, t.Keeps pieces' ∧ Relays db s t turns clients ∧
      Coming pieces' future left ∧ ∀ c, msgs c = sentBy c clients turns ++ left c := by
  have consistent := step_consistent keeps.consistent (step_moved taken)
  cases ev with
  | newconnection fd =>
    refine ⟨[], [], pieces, msgs, ?_, ?_, coming, fun c => rfl⟩
    · simp only [TcpServer.step] at taken
      split at taken
      case h_1 k isOpen =>
        cases taken
        exact keeps
      case h_2 free =>
        cases taken
        exact keeps.accepts consistent rfl rfl
    · simp only [TcpServer.step] at taken
      split at taken
      case h_1 => cases taken; exact .refl rfl rfl rfl
      case h_2 => cases taken; exact .refl rfl rfl rfl
  | recv fd rv ok mallocs =>
    cases isOpen : s.socks fd with
    | none =>
      have silent : (fun c => s.brings c (.recv fd rv ok mallocs) ++ future c) = future :=
        funext fun c => by simp only [brings, isOpen, List.nil_append]
      rw [silent] at coming
      simp only [TcpServer.step, isOpen] at taken
      cases taken
      exact ⟨[], [], pieces, msgs, keeps, .refl rfl rfl rfl, coming, fun c => rfl⟩
    | some tcpsock =>
      by_cases closed : rv = []
      · have silent : (fun c => s.brings c (.recv fd rv ok mallocs) ++ future c) = future :=
          funext fun c => by simp only [brings, isOpen, closed, ite_self, List.nil_append]
        rw [silent] at coming
        simp only [TcpServer.step, isOpen, tcpRecv, if_pos closed, ok_bind, pure_ok] at taken
        cases taken
        refine ⟨[], [], pieces, msgs, keeps.others consistent (fun fd' k isOpen' => ?_) rfl,
          .refl rfl rfl rfl, coming, fun c => rfl⟩
        by_cases here : fd' = fd
        · simp only [here, Function.update_self] at isOpen'
          contradiction
        · simp only [Function.update_of_ne here] at isOpen'
          exact isOpen'
      · exact keeps.recv consistent well isOpen closed coming taken
  | dequeue =>
    refine ⟨[.dequeue], [], pieces, msgs, ?_, .dequeued taken, coming, fun c => rfl⟩
    cases step_moved taken with
    | idle _ same => exact same ▸ keeps
    | dequeued socks log => exact keeps.others consistent (fun fd k => by rw [socks]; exact id) log
  | execute ok =>
    obtain rfl : ok = true := well
    refine ⟨[.execute], [], pieces, msgs, ?_, .executed taken, coming, fun c => rfl⟩
    cases step_moved taken with
    | idle _ same => exact same ▸ keeps
    | executed _ _ socks log => exact keeps.others consistent (fun fd k => by rw [socks]; exact id) log

theorem Keeps.run {evs : List NetEvent} (keeps : s.Keeps pieces) (well : Runs.Along (TcpServer.step db) Well s evs)
    (coming : Coming pieces (fun c => arrived db c s evs ++ future c) msgs)
    (ran : Runs.run (TcpServer.step db) s evs = .ok t) :
    ∃ turns clients pieces' left, t.Keeps pieces' ∧ Relays db s t turns clients ∧
      Coming pieces' future left ∧ ∀ c, msgs c = sentBy c clients turns ++ left c := by
  induction evs generalizing s pieces msgs with
  | nil =>
    cases ran
    exact ⟨[], [], pieces, msgs, keeps, .refl rfl rfl rfl, coming, fun c => rfl⟩
  | cons ev rest ih =>
    obtain ⟨u, taken, ran⟩ := Runs.run_cons_inv ran
    have parts : (fun c => arrived db c s (ev :: rest) ++ future c) =
        fun c => s.brings c ev ++ (arrived db c u rest ++ future c) :=
      funext fun c => by simp only [arrived, taken, List.append_assoc]
    rw [parts] at coming
    obtain ⟨turns, clients, pieces₁, left₁, keeps₁, relays, coming₁, split⟩ := keeps.step well.1 coming taken
    obtain ⟨turns', clients', pieces₂, left₂, keeps₂, relays', coming₂, split'⟩ :=
      ih keeps₁ (well.2 u taken) coming₁ ran
    refine ⟨turns ++ turns', clients ++ clients', pieces₂, left₂, keeps₂, relays.trans relays', coming₂, fun c => ?_⟩
    rw [split, split', sentBy_append c relays.length, List.append_assoc]

theorem step_accepted {ev : NetEvent} (moved : Moved s t ev) : s.accepted <+: t.accepted := by
  cases moved with
  | idle _ same => rw [same]
  | @accepted fd _ _ log => exact ⟨[fd], log.symm⟩
  | received _ _ log => rw [log]
  | dequeued _ log => rw [log]
  | executed _ _ _ log => rw [log]

theorem run_accepted {evs : List NetEvent} (ran : Runs.run (TcpServer.step db) s evs = .ok t) :
    s.accepted <+: t.accepted := by
  induction evs generalizing s with
  | nil =>
    cases ran
    exact List.prefix_refl _
  | cons ev rest ih =>
    obtain ⟨u, taken, ran⟩ := Runs.run_cons_inv ran
    exact (step_accepted (step_moved taken)).trans (ih ran)

/- Nothing comes from a connection that was never accepted. -/
theorem arrived_stranger {evs : List NetEvent} {c : Nat} (consistent : s.Consistent)
    (ran : Runs.run (TcpServer.step db) s evs = .ok t) (stranger : t.accepted.length ≤ c) :
    arrived db c s evs = [] := by
  induction evs generalizing s with
  | nil => rfl
  | cons ev rest ih =>
    have before := Nat.le_trans (run_accepted ran).length_le stranger
    obtain ⟨u, taken, ran⟩ := Runs.run_cons_inv ran
    have later := ih (step_consistent consistent (step_moved taken)) ran
    have now : s.brings c ev = [] := by
      cases ev with
      | recv fd rv ok mallocs =>
        cases isOpen : s.socks fd with
        | none => simp only [brings, isOpen]
        | some tcpsock =>
          obtain ⟨_, known, _⟩ := consistent.socks fd tcpsock isOpen
          have other : tcpsock.client.conn ≠ c := by
            rintro rfl
            rw [Known, List.getElem?_eq_none before] at known
            contradiction
          simp only [brings, isOpen, if_neg other]
      | _ => rfl
    simp only [arrived, taken, now, later, List.append_nil]

theorem start_keeps (cache : Cache) (settings : Settings) (d : δ) (static : Mem) :
    (start cache settings d static).Keeps fun _ => [] where
  consistent := (start_consistent cache settings d static).1
  holds _ _ none := nomatch none
  fresh _ _ := rfl

end

theorem streams_turns {db : DbConn δ} {cache : Cache} {settings : Settings} {d : δ} {static : Mem}
    {evs : List NetEvent} {t : TcpServer δ} {future : Nat → Bytes} {msgs : Nat → List Bytes}
    (sized : ∀ c, ∀ x ∈ msgs c, InRange x) (asks : ∀ c, ∀ x ∈ msgs c, Asks x)
    (streams : ∀ c, arrived db c (start cache settings d static) evs ++ future c = (msgs c).flatMap frame)
    (well : Runs.Along (TcpServer.step db) Well (start cache settings d static) evs)
    (ran : Runs.run (TcpServer.step db) (start cache settings d static) evs = .ok t) :
    ∃ turns clients sys, Runs.run (System.step db) (System.start cache settings d) turns = .ok sys ∧
      clients.length = (messages turns).length ∧ (∀ ev ∈ turns, ev.InMode) ∧
      Serves (fun n => clients.getD n ⟨0, 0⟩) sys t ∧
      ∀ c, sentBy c clients turns <+: msgs c ∧ (future c = [] → sentBy c clients turns = msgs c) := by
  have coming : Coming (fun _ => []) (fun c => arrived db c (start cache settings d static) evs ++ future c) msgs :=
    ⟨sized, asks, streams, fun _ _ _ => Nat.succ_pos _⟩
  obtain ⟨turns, clients, pieces, left, _, relays, rest, split⟩ := (start_keeps _ _ _ _).run well coming ran
  have fresh : Serves (fun n => clients.getD n ⟨0, 0⟩) (System.start cache settings d)
      (start cache settings d static) := ⟨⟨rfl, rfl, trivial, rfl, rfl⟩, rfl, rfl⟩
  obtain ⟨sys, served, serves, _⟩ := relays.serves _ _ fresh fun i c here => by
    rw [System.start, Nat.zero_add, List.getD_eq_getElem?_getD, here]
    rfl
  refine ⟨turns, clients, sys, served, relays.length, relays.inMode, serves, fun c => ⟨?_, fun ended => ?_⟩⟩
  · exact ⟨left c, (split c).symm⟩
  · rw [split, rest.ended ended, List.append_nil]

theorem Well.fresh {s : TcpServer δ} {ev : NetEvent} (well : s.Well ev) : s.FreshDescriptor ev := by
  cases ev with
  | newconnection fd => exact well
  | _ => trivial

/-- Clients that send requests over any number of connections, however these are opened and
closed and their bytes are cut and mixed, are served as if each message had come on its own:
the turns are of the server without connections, with the messages of each client in
order. Message n came from clients n, and every reply reaches the connection that asked, or
none if that has been closed. -/
theorem streams_served {db : DbConn δ} {cache : Cache} {settings : Settings} {d : δ} {static : Mem}
    {evs : List NetEvent} {t : TcpServer δ} {future : Nat → Bytes} {msgs : Nat → List Bytes}
    (sized : ∀ c, ∀ x ∈ msgs c, InRange x) (asks : ∀ c, ∀ x ∈ msgs c, Asks x)
    (streams : ∀ c, arrived db c (start cache settings d static) evs ++ future c = (msgs c).flatMap frame)
    (well : Runs.Along (TcpServer.step db) Well (start cache settings d static) evs)
    (ran : Runs.run (TcpServer.step db) (start cache settings d static) evs = .ok t) :
    ∃ turns clients sys, Runs.run (System.step db) (System.start cache settings d) turns = .ok sys ∧
      clients.length = (messages turns).length ∧ (∀ ev ∈ turns, ev.InMode) ∧
      Serves (fun n => clients.getD n ⟨0, 0⟩) sys t ∧
      (∀ c, sentBy c clients turns <+: msgs c ∧ (future c = [] → sentBy c clients turns = msgs c)) ∧
      Runs.Along (TcpServer.step db) (RepliesReach db) (start cache settings d static) evs := by
  obtain ⟨turns, clients, sys, served, length, inMode, serves, sent⟩ := streams_turns sized asks streams well ran
  have reach := fresh_reach (start_consistent cache settings d static) (well.mono fun _ _ => Well.fresh)
  exact ⟨turns, clients, sys, served, length, inMode, serves, sent, reach⟩

/-- Reads that go no further than the message they begin with, where memory does not run out
and nothing waits for an answer on a new descriptor. -/
def UpToOne (s : TcpServer δ) : NetEvent → Bool
  | .newconnection fd => s.pending.all fun e => decide (e.req.net.fd ≠ fd)
  | .recv fd rv ok _ => ok && match s.socks fd with
    | some tcpsock => decide (rv.length ≤ tcpsock.asked) && decide (4 ≤ rv.length → rv.length ≤ frameLength rv)
    | none => true
  | .execute ok => ok
  | _ => true

theorem well_upToOne {s : TcpServer δ} {ev : NetEvent} (upTo : s.UpToOne ev = true)
    (plenty : ∀ fd rv ok mallocs, ev = .recv fd rv ok mallocs → mallocs = fun _ => Mallocs.plenty) :
    s.Well ev := by
  cases ev with
  | recv fd rv ok mallocs =>
    simp only [UpToOne, Bool.and_eq_true] at upTo
    refine ⟨plenty fd rv ok mallocs rfl, fun tcpsock isOpen nonempty => ?_⟩
    simp only [isOpen, Bool.and_eq_true, decide_eq_true_eq] at upTo
    obtain ⟨room, within, first⟩ := upTo
    obtain ⟨rest, aligned⟩ := aligned_upTo nonempty first
    exact ⟨within, fun _ => ⟨rest, aligned, .inr room⟩⟩
  | execute ok => exact upTo
  | newconnection fd =>
    rw [UpToOne, List.all_eq_true] at upTo
    exact fun _ e waits _ => of_decide_eq_true (upTo e waits)
  | dequeue => trivial

/-- SET of the text 5, and INCR of it by 2. -/
def setBody : Bytes := [0x10, 0, 0, 0, 0x01, 0x02, 0, 2, 0, 0, 0, 1, 0, 0, 0, 2, 65, 53, 0]

def incrBody : Bytes := [0x10, 0, 0, 1, 0x01, 0x05, 0, 0, 0, 0, 0, 1, 65, 0, 0, 0, 0, 0, 0, 0, 2]

/-- One client sends SET in two pieces and begins another message, one sends INCR between
them. -/
def mixedStreams : List NetEvent :=
  [.newconnection 5, .newconnection 6, .recv 5 ((frame setBody).take 6) true fun _ => Mallocs.plenty,
    .recv 6 (frame incrBody) true fun _ => Mallocs.plenty,
    .recv 5 ((frame setBody).drop 6) true fun _ => Mallocs.plenty, .dequeue, .execute true,
    .recv 5 [0, 0] true fun _ => Mallocs.plenty]

/-- What the two clients send in all. -/
def mixedMessages (c : Nat) : List Bytes := if c = 0 then [setBody, setBody] else if c = 1 then [incrBody] else []

def mixedFuture (c : Nat) : Bytes := if c = 0 then (frame setBody).drop 2 else []

theorem mixedStreams_well : Runs.Along (TcpServer.step mapDb) Well
    (start emptyCache ⟨false⟩ (fun _ => none) fun _ => 0) mixedStreams := by
  have upTo : Runs.Along (TcpServer.step mapDb) (fun s ev => s.UpToOne ev = true)
      (start emptyCache ⟨false⟩ (fun _ => none) fun _ => 0) mixedStreams := by decide +kernel
  have plenty : ∀ ev ∈ mixedStreams, ∀ fd rv ok mallocs, ev = .recv fd rv ok mallocs →
      mallocs = fun _ => Mallocs.plenty := by
    simp only [mixedStreams, List.forall_mem_cons]
    exact ⟨nofun, nofun, by rintro _ _ _ _ ⟨⟩; rfl, by rintro _ _ _ _ ⟨⟩; rfl, by rintro _ _ _ _ ⟨⟩; rfl,
      nofun, nofun, by rintro _ _ _ _ ⟨⟩; rfl, List.forall_mem_nil _⟩
  exact (upTo.labels plenty).mono fun s ev both => well_upToOne both.2 both.1

theorem mixedMessages_asks (c : Nat) : ∀ x ∈ mixedMessages c, InRange x ∧ Asks x := by
  have set : InRange setBody ∧ Asks setBody :=
    ⟨⟨by decide, by decide⟩, .set [65] [53, 0], by decide, by decide, show ReqInfo.cacheOnly _ = false by decide⟩
  have incr : InRange incrBody ∧ Asks incrBody :=
    ⟨⟨by decide, by decide⟩, .incr [65] 2, by decide, by decide, show ReqInfo.cacheOnly _ = false by decide⟩
  intro x member
  unfold mixedMessages at member
  split at member
  case isTrue =>
    rcases List.mem_pair.mp member with rfl | rfl
    · exact set
    · exact set
  case isFalse =>
    split at member
    case isTrue =>
      rw [List.mem_singleton.mp member]
      exact incr
    case isFalse => contradiction

theorem mixedStreams_arrived {t : TcpServer KV}
    (ran : Runs.run (TcpServer.step mapDb) (start emptyCache ⟨false⟩ (fun _ => none) fun _ => 0) mixedStreams = .ok t)
    (both : t.accepted = [5, 6]) (c : Nat) :
    arrived mapDb c (start emptyCache ⟨false⟩ (fun _ => none) fun _ => 0) mixedStreams ++ mixedFuture c =
      (mixedMessages c).flatMap frame := by
  match c with
  | 0 => decide +kernel
  | 1 => decide +kernel
  | c + 2 =>
    have stranger : t.accepted.length ≤ c + 2 := by
      rw [both]
      exact Nat.le_add_left 2 c
    rw [arrived_stranger (start_consistent _ _ _ _).1 ran stranger]
    rfl

theorem streams_served_mixed : ∃ t turns clients sys,
    Runs.run (TcpServer.step mapDb) (start emptyCache ⟨false⟩ (fun _ => none) fun _ => 0) mixedStreams = .ok t ∧
    Runs.run (System.step mapDb) (System.start emptyCache ⟨false⟩ fun _ => none) turns = .ok sys ∧
    Serves (fun n => clients.getD n ⟨0, 0⟩) sys t ∧ sentBy 0 clients turns <+: [setBody, setBody] ∧
    sentBy 1 clients turns = [incrBody] ∧
    Runs.Along (TcpServer.step mapDb) (RepliesReach mapDb)
      (start emptyCache ⟨false⟩ (fun _ => none) fun _ => 0) mixedStreams := by
  have accepted : (Runs.run (TcpServer.step mapDb) (start emptyCache ⟨false⟩ (fun _ => none) fun _ => 0)
      mixedStreams >>= fun t => pure t.accepted) = .ok [5, 6] := by decide +kernel
  obtain ⟨t, ran, both⟩ := bind_eq_ok.mp accepted
  obtain ⟨turns, clients, sys, served, _, _, serves, sent, reach⟩ :=
    streams_served (fun c x member => (mixedMessages_asks c x member).1)
      (fun c x member => (mixedMessages_asks c x member).2) (mixedStreams_arrived ran (Except.ok.inj both))
      mixedStreams_well ran
  exact ⟨t, turns, clients, sys, ran, served, serves, (sent 0).1, (sent 1).2 rfl, reach⟩

end TcpServer

end Nmdb
