import Nmdb.Coherence
import Nmdb.Reassembly
import Nmdb.Replies

/-! The server as its TCP clients see it: connections are accepted, send and are closed on
the main thread, while the database thread replies through the request information it was
given. A queued request holds on to a descriptor, not to a connection. -/
namespace Nmdb

variable {δ σ : Type}

/-- The state of both threads, and the sockets that are open. Of every connection ever
accepted the descriptor is remembered, which the code does not do. -/
structure TcpServer (δ : Type) where
  server : Server Client
  db : δ
  hand : Option (QueueEntry Client)
  socks : Nat → Option TcpSocket
  accepted : List Nat
  static : Mem

inductive NetEvent where
  | newconnection (fd : Nat)
  | recv (fd : Nat) (rv : Bytes) (ok : Bool) (mallocs : Server Client → Mallocs)
  | dequeue
  | execute (ok : Bool)

namespace TcpServer

/-- One step of either thread. The kernel picks the descriptor of a new connection among
those that are not open. -/
def step (db : DbConn δ) (s : TcpServer δ) : NetEvent → Except Fault (TcpServer δ)
  | .newconnection fd =>
    match s.socks fd with
    | some _ => .ok s
    | none =>
      let client := ⟨fd, s.accepted.length⟩
      .ok { s with socks := Function.update s.socks fd (some (.new client)), accepted := s.accepted ++ [fd] }
  | .recv fd rv ok mallocs =>
    match s.socks fd with
    | none => .ok s
    | some tcpsock => do
      let (tcpsock, static, server) ←
        tcpRecv (fun server => tcpParse (mallocs server) server) ok s.static tcpsock rv s.server
      return { s with socks := Function.update s.socks fd tcpsock, static := static, server := server }
  | .dequeue =>
    match s.hand, s.server.queue with
    | none, e :: rest => .ok { s with hand := some e, server := { s.server with queue := rest } }
    | _, _ => .ok s
  | .execute ok =>
    match s.hand with
    | none => .ok s
    | some e => do
      let (d, r) ← processOp db ok s.db e
      let server := match r with
        | none => s.server
        | some r => s.server.reply e.req r
      return { s with server := server, db := d, hand := none }

def start (cache : Cache) (settings : Settings) (d : δ) (static : Mem) : TcpServer δ :=
  ⟨⟨cache, [], {}, settings, []⟩, d, none, fun _ => none, [], static⟩

def pending (s : TcpServer δ) : List (QueueEntry Client) := s.hand.toList ++ s.server.queue

/-- The connection send() reaches when a reply is given to a request. -/
def writtenTo (s : TcpServer δ) (req : ReqInfo Client) : Option Client :=
  (s.socks req.net.fd).map TcpSocket.client

/-- A reply given now goes to the connection the request came in on, or, if that has been
closed, to none. -/
def Reaches (s : TcpServer δ) (req : ReqInfo Client) : Prop :=
  (∀ c ∈ s.writtenTo req, c = req.net) ∧
  ∀ fd tcpsock, s.socks fd = some tcpsock → tcpsock.client.conn = req.net.conn →
    s.writtenTo req = some req.net

/-- All replies of a step reach the connection that asked. -/
def RepliesReach (db : DbConn δ) (s : TcpServer δ) (ev : NetEvent) : Prop :=
  ∀ t, step db s ev = .ok t → ∃ rs, t.server.replies = s.server.replies ++ rs ∧ ∀ x ∈ rs, s.Reaches x.1

/-- The kernel does not hand out a descriptor that a request in the queue, or in the hands
of the database thread, is still to be answered on. -/
def FreshDescriptor (s : TcpServer δ) (ev : NetEvent) : Prop :=
  match ev with
  | .newconnection fd => s.socks fd = none → ∀ e ∈ s.pending, e.owesReply = true → e.req.net.fd ≠ fd
  | _ => True

/-- The descriptor of every request still to be answered is that of its own connection, or
closed. -/
def OwnersKept (s : TcpServer δ) : Prop :=
  ∀ e ∈ s.pending, e.owesReply = true → ∀ c ∈ s.writtenTo e.req, c = e.req.net

def KeepsOwners (db : DbConn δ) (s : TcpServer δ) (ev : NetEvent) : Prop :=
  ∀ t, step db s ev = .ok t → t.OwnersKept

end TcpServer

/-- Replies and entries have been added, all for one connection. -/
def Emits (client : Client) (s s' : Server Client) : Prop :=
  ∃ rs es, s'.replies = s.replies ++ rs ∧ s'.queue = s.queue ++ es ∧ (∀ x ∈ rs, x.1.net = client) ∧
    ∀ e ∈ es, e.req.net = client

theorem Emits.refl (client : Client) (s : Server Client) : Emits client s s :=
  ⟨[], [], (List.append_nil _).symm, (List.append_nil _).symm, List.forall_mem_nil _, List.forall_mem_nil _⟩

theorem Emits.trans {client : Client} {s s' s'' : Server Client} (first : Emits client s s')
    (second : Emits client s' s'') : Emits client s s'' := by
  obtain ⟨rs, es, replies, queue, own, ownQueue⟩ := first
  obtain ⟨rs', es', replies', queue', own', ownQueue'⟩ := second
  refine ⟨rs ++ rs', es ++ es', by rw [replies', replies, List.append_assoc],
    by rw [queue', queue, List.append_assoc], fun x hx => ?_, fun e he => ?_⟩
  · exact (List.mem_append.mp hx).elim (own x) (own' x)
  · exact (List.mem_append.mp he).elim (ownQueue e) (ownQueue' e)

theorem tcpParse_emits {m : Mallocs} {s s' : Server Client} {req : ReqInfo Client} {buf : Mem} {len : Nat}
    {rv : Bool} (done : tcpParse m s req buf len = .ok (rv, s')) : Emits req.net s s' := by
  cases parseMessage_answered done with
  | @now r e replies queue own =>
    refine ⟨_, _, replies, queue, fun x hx => ?_, fun x hx => ?_⟩
    · rw [List.mem_singleton.mp hx, replyInfo_net]
    · rw [(own x (Option.mem_toList.mp hx)).1, replyInfo_net]
  | @later e replies queue own =>
    refine ⟨[], [e], replies.trans (List.append_nil _).symm, queue, List.forall_mem_nil _, fun x hx => ?_⟩
    rw [List.mem_singleton.mp hx, own.1, replyInfo_net]

section

variable {parse : σ → ReqInfo Client → Mem → Nat → Except Fault (Bool × σ)} {R : σ → σ → Prop}
  {client : Client} {ok : Bool} {fuel len : Nat} {tcpsock : TcpSocket} {buf static : Mem} {st : σ}

/- Requests handed over bear the connection they came in on. -/
theorem processBuf_own (refl : ∀ st, R st st) (trans : ∀ st st' st'', R st st' → R st' st'' → R st st'')
    (handed : ∀ st req buf len rv st', req.net = client → parse st req buf len = .ok (rv, st') → R st st')
    {res : Option TcpSocket × Mem × σ} (mine : tcpsock.client = client) (req : tcpsock.req.net = client)
    (done : processBuf parse ok fuel tcpsock buf len st = .ok res) :
    R st res.2.2 ∧ ∀ k ∈ res.1, k.client = client ∧ k.req.net = client := by
  induction fuel generalizing tcpsock buf len st with
  | zero => contradiction
  | succ fuel ih =>
    unfold processBuf at done
    simp only at done
    split at done
    · cases done
      exact ⟨refl st, fun k none => by cases none⟩
    · split at done
      · split at done
        · split at done <;> cases done
          · exact ⟨refl st, fun k none => by cases none⟩
          · exact ⟨refl st, fun k some => by cases some; exact ⟨mine, req⟩⟩
        · cases done
          exact ⟨refl st, fun k some => by cases some; exact ⟨mine, req⟩⟩
      · have both : (if totaltoget buf len < len then { tcpsock with excess := len - totaltoget buf len }
            else tcpsock).client = client ∧
            (if totaltoget buf len < len then { tcpsock with excess := len - totaltoget buf len }
              else tcpsock).req.net = client := by
          split <;> exact ⟨mine, req⟩
        -- the socket, with the bytes in excess written down or not
        generalize (if totaltoget buf len < len then { tcpsock with excess := len - totaltoget buf len }
          else tcpsock) = k at done both
        obtain ⟨⟨rv, st'⟩, parsed, done⟩ := bind_eq_ok.mp done
        have step := handed _ _ _ _ _ _ both.2 parsed
        simp only at done
        split at done
        · cases done
          exact ⟨step, fun k none => by cases none⟩
        · split at done
          · have rest : R st' res.2.2 ∧ ∀ k ∈ res.1, k.client = client ∧ k.req.net = client := by
              apply ih _ _ done
              · exact both.1
              · exact both.1
            exact ⟨trans _ _ _ step rest.1, rest.2⟩
          · split at done <;> cases done
            · exact ⟨step, fun k some => by cases some; exact both⟩
            · exact ⟨step, fun k some => by cases some; exact both⟩

theorem tcpRecv_own (refl : ∀ st, R st st) (trans : ∀ st st' st'', R st st' → R st' st'' → R st st'')
    (handed : ∀ st req buf len rv st', req.net = client → parse st req buf len = .ok (rv, st') → R st st')
    {rv : Bytes} {res : Option TcpSocket × Mem × σ} (mine : tcpsock.client = client)
    (req : tcpsock.req.net = client) (done : tcpRecv parse ok static tcpsock rv st = .ok res) :
    R st res.2.2 ∧ ∀ k ∈ res.1, k.client = client ∧ k.req.net = client := by
  unfold tcpRecv at done
  split at done
  · cases done
    exact ⟨refl st, fun k none => by cases none⟩
  · split at done
    · apply processBuf_own refl trans handed _ _ done
      · exact mine
      · exact mine
    · obtain ⟨⟨k, b, st'⟩, ran, done⟩ := bind_eq_ok.mp done
      cases done
      apply processBuf_own refl trans handed _ _ ran
      · exact mine
      · exact req

end

namespace TcpServer

/-- A connection that was accepted, under its number and descriptor. -/
def Known (s : TcpServer δ) (client : Client) : Prop := s.accepted[client.conn]? = some client.fd

/-- The numbers of connections are used consistently. -/
structure Consistent (s : TcpServer δ) : Prop where
  socks : ∀ fd k, s.socks fd = some k → k.client.fd = fd ∧ s.Known k.client ∧ k.req.net = k.client
  pending : ∀ e ∈ s.pending, s.Known e.req.net

theorem Known.same {s : TcpServer δ} {c c' : Client} (known : s.Known c) (known' : s.Known c')
    (conn : c.conn = c'.conn) : c = c' := by
  unfold Known at known known'
  rw [conn, known'] at known
  cases c
  cases c'
  cases conn
  cases known
  rfl

/-- What a step can do. -/
inductive Moved (s t : TcpServer δ) : NetEvent → Prop
  | idle {ev : NetEvent} (notFree : ∀ fd, ev = .newconnection fd → s.socks fd ≠ none) (same : t = s) :
      Moved s t ev
  | accepted {fd : Nat} (free : s.socks fd = none)
      (socks : t.socks = Function.update s.socks fd (some (.new ⟨fd, s.accepted.length⟩)))
      (log : t.accepted = s.accepted ++ [fd]) (pending : t.pending = s.pending)
      (replies : t.server.replies = s.server.replies) : Moved s t (.newconnection fd)
  | received {fd : Nat} {rv : Bytes} {ok : Bool} {mallocs : Server Client → Mallocs} {tcpsock : TcpSocket}
      {k : Option TcpSocket} (isOpen : s.socks fd = some tcpsock)
      (socks : t.socks = Function.update s.socks fd k) (log : t.accepted = s.accepted)
      (hand : t.hand = s.hand) (own : tcpsock.req.net = tcpsock.client →
        Emits tcpsock.client s.server t.server ∧
        ∀ x ∈ k, x.client = tcpsock.client ∧ x.req.net = tcpsock.client) :
      Moved s t (.recv fd rv ok mallocs)
  | dequeued (socks : t.socks = s.socks) (log : t.accepted = s.accepted) (pending : t.pending = s.pending)
      (replies : t.server.replies = s.server.replies) : Moved s t .dequeue
  | executed {ok : Bool} {e : QueueEntry Client} {r : Option Reply} (held : s.hand = some e)
      (owes : r.isSome = e.owesReply) (socks : t.socks = s.socks) (log : t.accepted = s.accepted)
      (pending : t.pending = s.server.queue)
      (replies : t.server.replies = s.server.replies ++ (r.map fun x => (e.req, x)).toList) :
      Moved s t (.execute ok)

section

variable {db : DbConn δ} {s t : TcpServer δ} {ev : NetEvent}

theorem step_moved (taken : s.step db ev = .ok t) : Moved s t ev := by
  cases ev with
  | newconnection fd =>
    simp only [step] at taken
    split at taken
    case h_1 k isOpen =>
      cases taken
      refine .idle ?_ rfl
      rintro _ ⟨⟩ free
      rw [isOpen] at free
      contradiction
    case h_2 free =>
      cases taken
      exact .accepted free rfl rfl rfl rfl
  | recv fd rv ok mallocs =>
    simp only [step] at taken
    split at taken
    case h_1 closed =>
      cases taken
      exact .idle (fun _ other => by cases other) rfl
    case h_2 tcpsock isOpen =>
      obtain ⟨⟨k, static, server⟩, ran, taken⟩ := bind_eq_ok.mp taken
      cases taken
      refine .received isOpen rfl rfl rfl fun mine => ?_
      exact tcpRecv_own (R := Emits tcpsock.client) (Emits.refl _) (fun _ _ _ => Emits.trans)
        (fun _ _ _ _ _ _ own done => by rw [← own]; exact tcpParse_emits done) rfl mine ran
  | dequeue =>
    simp only [step] at taken
    split at taken
    case h_1 e rest hand queue =>
      cases taken
      refine .dequeued rfl rfl ?_ rfl
      simp only [pending, hand, queue, Option.toList_some, Option.toList_none, List.nil_append,
        List.singleton_append]
    case h_2 =>
      cases taken
      exact .idle (fun _ other => by cases other) rfl
  | execute ok =>
    simp only [step] at taken
    split at taken
    case h_1 =>
      cases taken
      exact .idle (fun _ other => by cases other) rfl
    case h_2 e held =>
      obtain ⟨⟨d, r⟩, done, taken⟩ := bind_eq_ok.mp taken
      cases taken
      refine .executed (r := r) held (processOp_owes done) rfl rfl ?_ ?_
      · cases r <;> rfl
      · cases r with
        | none => exact (List.append_nil _).symm
        | some r => rfl

theorem Known.mono {c : Client} {more : List Nat} (known : s.Known c) (log : t.accepted = s.accepted ++ more) :
    t.Known c := by
  unfold Known at known ⊢
  rw [log, List.getElem?_append_left (List.getElem?_eq_some_iff.mp known).1]
  exact known

theorem step_consistent (consistent : s.Consistent) (moved : Moved s t ev) : t.Consistent := by
  cases moved with
  | idle notFree same => exact same ▸ consistent
  | @accepted fd free socks log pending replies =>
    refine ⟨fun fd' k isOpen => ?_, fun e waits => ?_⟩
    · by_cases here : fd' = fd
      · rw [socks, here, Function.update_self] at isOpen
        cases isOpen
        refine ⟨here.symm, ?_, rfl⟩
        rw [Known, log]
        exact List.getElem?_concat_length
      · rw [socks, Function.update_of_ne here] at isOpen
        obtain ⟨own, known, req⟩ := consistent.socks fd' k isOpen
        exact ⟨own, known.mono log, req⟩
    · exact (consistent.pending e (pending ▸ waits)).mono log
  | @received fd rv ok mallocs tcpsock k wasOpen socks log hand own =>
    have log' : t.accepted = s.accepted ++ [] := log.trans (List.append_nil _).symm
    obtain ⟨owner, known, req⟩ := consistent.socks fd tcpsock wasOpen
    obtain ⟨⟨rs, es, _, queue, _, entries⟩, kept⟩ := own req
    refine ⟨fun fd' k' isOpen => ?_, fun e waits => ?_⟩
    · by_cases here : fd' = fd
      · rw [socks, here, Function.update_self] at isOpen
        obtain ⟨client, req'⟩ := kept k' isOpen
        exact ⟨by rw [client, owner, here], by rw [client]; exact known.mono log', by rw [req', client]⟩
      · rw [socks, Function.update_of_ne here] at isOpen
        obtain ⟨own', known', req'⟩ := consistent.socks fd' k' isOpen
        exact ⟨own', known'.mono log', req'⟩
    · rw [pending, hand, queue, ← List.append_assoc] at waits
      rcases List.mem_append.mp waits with before | new
      · exact (consistent.pending e before).mono log'
      · rw [entries e new]
        exact known.mono log'
  | dequeued socks log pending replies =>
    have log' : t.accepted = s.accepted ++ [] := log.trans (List.append_nil _).symm
    refine ⟨fun fd k isOpen => ?_, fun e waits => (consistent.pending e (pending ▸ waits)).mono log'⟩
    obtain ⟨own, known, req⟩ := consistent.socks fd k (socks ▸ isOpen)
    exact ⟨own, known.mono log', req⟩
  | @executed ok e r held owes socks log pending' replies =>
    have log' : t.accepted = s.accepted ++ [] := log.trans (List.append_nil _).symm
    refine ⟨fun fd k isOpen => ?_, fun e' waits => ?_⟩
    · obtain ⟨own, known, req⟩ := consistent.socks fd k (socks ▸ isOpen)
      exact ⟨own, known.mono log', req⟩
    · exact (consistent.pending e' (List.mem_append_right _ (pending' ▸ waits))).mono log'

theorem step_owners (consistent : s.Consistent) (owners : s.OwnersKept) (moved : Moved s t ev)
    (fresh : FreshDescriptor s ev) : t.OwnersKept := by
  cases moved with
  | idle notFree same => exact same ▸ owners
  | @accepted fd free socks log pending replies =>
    intro e waits owes c reached
    rw [pending] at waits
    have other := fresh free e waits owes
    rw [writtenTo, socks, Function.update_of_ne other] at reached
    exact owners e waits owes c reached
  | @received fd rv ok mallocs tcpsock k wasOpen socks log hand own =>
    intro e waits owes c reached
    obtain ⟨owner, known, req⟩ := consistent.socks fd tcpsock wasOpen
    obtain ⟨⟨rs, es, _, queue, _, entries⟩, kept⟩ := own req
    -- a socket that stays open is still that of its connection
    have before : c ∈ s.writtenTo e.req := by
      obtain ⟨k', isOpen, rfl⟩ := Option.map_eq_some_iff.mp reached
      by_cases here : e.req.net.fd = fd
      · rw [socks, here, Function.update_self] at isOpen
        rw [(kept k' isOpen).1, writtenTo, here, wasOpen]
        rfl
      · rw [socks, Function.update_of_ne here] at isOpen
        rw [writtenTo, isOpen]
        rfl
    rw [TcpServer.pending, hand, queue, ← List.append_assoc] at waits
    rcases List.mem_append.mp waits with old | new
    · exact owners e old owes c before
    · rw [writtenTo, entries e new, owner, wasOpen] at before
      rw [entries e new]
      exact (Option.some.inj before).symm
  | dequeued socks log pending replies =>
    intro e waits owes c reached
    rw [writtenTo, socks] at reached
    exact owners e (pending ▸ waits) owes c reached
  | executed held owes socks log pending' replies =>
    intro e waits owes c reached
    rw [writtenTo, socks] at reached
    exact owners e (List.mem_append_right _ (pending' ▸ waits)) owes c reached

/- Without the condition a request is left whose descriptor leads to a new connection. -/
theorem step_fresh (consistent : s.Consistent) (moved : Moved s t ev) (owners : t.OwnersKept) :
    FreshDescriptor s ev := by
  cases moved with
  | @idle ev notFree same =>
    cases ev with
    | newconnection fd => exact fun free => absurd free (notFree fd rfl)
    | _ => trivial
  | @accepted fd free socks log pending replies =>
    intro _ e waits owes same
    have reached : (⟨fd, s.accepted.length⟩ : Client) ∈ t.writtenTo e.req := by
      rw [writtenTo, socks, same, Function.update_self]
      rfl
    have own := owners e (pending ▸ waits) owes _ reached
    have known := consistent.pending e waits
    rw [Known, ← own, List.getElem?_eq_none (Nat.le_refl _)] at known
    contradiction
  | _ => trivial

theorem reaches_own (consistent : s.Consistent) {req : ReqInfo Client} (known : s.Known req.net)
    (own : ∀ c ∈ s.writtenTo req, c = req.net) : s.Reaches req := by
  refine ⟨own, fun fd k isOpen conn => ?_⟩
  obtain ⟨fd_eq, known', _⟩ := consistent.socks fd k isOpen
  have same := known'.same known conn
  rw [writtenTo, ← same, fd_eq, isOpen]
  rfl

theorem step_replies (consistent : s.Consistent) (owners : s.OwnersKept) (moved : Moved s t ev) :
    ∃ rs, t.server.replies = s.server.replies ++ rs ∧ ∀ x ∈ rs, s.Reaches x.1 := by
  cases moved with
  | idle notFree same => exact ⟨[], by rw [same, List.append_nil], List.forall_mem_nil _⟩
  | accepted free socks log pending replies =>
    exact ⟨[], replies.trans (List.append_nil _).symm, List.forall_mem_nil _⟩
  | @received fd rv ok mallocs tcpsock k wasOpen socks log hand own =>
    obtain ⟨owner, known, req⟩ := consistent.socks fd tcpsock wasOpen
    obtain ⟨⟨rs, es, replies, _, mine, _⟩, _⟩ := own req
    refine ⟨rs, replies, fun x new => reaches_own consistent ?_ fun c reached => ?_⟩
    · rw [mine x new]
      exact known
    · rw [writtenTo, mine x new, owner, wasOpen] at reached
      rw [mine x new]
      exact (Option.some.inj reached).symm
  | dequeued socks log pending replies =>
    exact ⟨[], replies.trans (List.append_nil _).symm, List.forall_mem_nil _⟩
  | @executed ok e r held owes socks log pending' replies =>
    refine ⟨_, replies, fun x new => ?_⟩
    have waits : e ∈ s.pending := by
      rw [pending, held]
      exact List.mem_cons_self
    cases r with
    | none => contradiction
    | some r =>
      rw [List.mem_singleton.mp (show x ∈ [(e.req, r)] from new)]
      exact reaches_own consistent (consistent.pending e waits) (owners e waits owes.symm)

theorem start_consistent (cache : Cache) (settings : Settings) (d : δ) (static : Mem) :
    (start cache settings d static).Consistent ∧ (start cache settings d static).OwnersKept :=
  ⟨⟨fun _ _ => nofun, List.forall_mem_nil _⟩, List.forall_mem_nil _⟩

theorem fresh_preserves (inv : s.Consistent ∧ s.OwnersKept) (fresh : FreshDescriptor s ev)
    (taken : s.step db ev = .ok t) : t.Consistent ∧ t.OwnersKept :=
  ⟨step_consistent inv.1 (step_moved taken), step_owners inv.1 inv.2 (step_moved taken) fresh⟩

/- Under the condition all replies of a run reach the connection that asked. -/
theorem fresh_reach {evs : List NetEvent} (inv : s.Consistent ∧ s.OwnersKept)
    (fresh : Runs.Along (step db) FreshDescriptor s evs) : Runs.Along (step db) (RepliesReach db) s evs := by
  have both : Runs.Along (step db) (fun s ev => RepliesReach db s ev ∧ FreshDescriptor s ev) s evs := by
    refine (Runs.along_iff (fun s ev inv => ?_) (fun s ev t => fresh_preserves) inv evs).mpr fresh
    exact ⟨And.right, fun fresh => ⟨fun t taken => step_replies inv.1 inv.2 (step_moved taken), fresh⟩⟩
  exact both.mono fun _ _ => And.left

/-- As long as no descriptor is reused under a request that is still to be answered, and no
longer, requests keep theirs; every reply then reaches the connection that asked. -/
theorem replies_reach_asker (db : DbConn δ) (cache : Cache) (settings : Settings) (d : δ) (static : Mem)
    (events : List NetEvent) :
    (Runs.Along (step db) (KeepsOwners db) (start cache settings d static) events ↔
      Runs.Along (step db) FreshDescriptor (start cache settings d static) events) ∧
    (Runs.Along (step db) FreshDescriptor (start cache settings d static) events →
      Runs.Along (step db) (RepliesReach db) (start cache settings d static) events) := by
  have initial := start_consistent cache settings d static
  refine ⟨Runs.along_iff (fun s ev inv => ⟨fun kept => ?_, fun fresh t taken => ?_⟩)
    (fun s ev t => fresh_preserves) initial events, fresh_reach initial⟩
  · cases ev with
    | newconnection fd =>
      intro free
      have taken : s.step db (.newconnection fd) = .ok { s with
          socks := Function.update s.socks fd (some (.new ⟨fd, s.accepted.length⟩))
          accepted := s.accepted ++ [fd] } := by
        simp only [step, free]
      exact step_fresh inv.1 (step_moved taken) (kept _ taken) free
    | _ => trivial
  · exact (fresh_preserves inv fresh taken).2

end

end TcpServer

/-- GET of a one byte key. -/
def getMessage : Bytes := [0x10, 0, 0, 1, 0x01, 0x01, 0, 0, 0, 0, 0, 1, 65]

/-- A client asks and hangs up; another one is given its descriptor. -/
def hangUp : List NetEvent :=
  [.newconnection 5, .recv 5 (frame getMessage) true fun _ => Mallocs.plenty,
    .recv 5 [] true fun _ => Mallocs.plenty,
    .newconnection 5, .dequeue]

instance : DecidableEq (List (ReqInfo Client × Reply)) := inferInstance

/- What can be seen of a state: who is behind a descriptor, and the replies of the next step. -/
def TcpServer.behind (x : Except Fault (TcpServer Unit)) (fd : Nat) :
    Option (Option Client × List (ReqInfo Client × Reply) × Option (List (ReqInfo Client × Reply))) :=
  match x with
  | .ok s => some ((s.socks fd).map TcpSocket.client, s.server.replies,
      match s.step refusing (.execute true) with
      | .ok t => some t.server.replies
      | .error _ => none)
  | .error _ => none

theorem TcpServer.behind_some {x : Except Fault (TcpServer Unit)} {fd : Nat} {client : Option Client}
    {before after : List (ReqInfo Client × Reply)} (seen : behind x fd = some (client, before, some after)) :
    ∃ s t, x = .ok s ∧ s.step refusing (.execute true) = .ok t ∧ (s.socks fd).map TcpSocket.client = client ∧
      s.server.replies = before ∧ t.server.replies = after := by
  cases x with
  | error e => contradiction
  | ok s =>
    obtain ⟨behind, rest⟩ := Prod.mk.inj (Option.some.inj seen)
    obtain ⟨replies, rest⟩ := Prod.mk.inj rest
    split at rest
    case h_1 t taken => exact ⟨s, t, rfl, taken, behind, replies, Option.some.inj rest⟩
    case h_2 => contradiction

/-- The reply to the first client is written to the second. -/
theorem reply_reaches_stranger :
    ∃ s t req, Runs.run (TcpServer.step refusing) (.start emptyCache ⟨false⟩ () fun _ => 0) hangUp = .ok s ∧
      s.step refusing (.execute true) = .ok t ∧ t.server.replies = s.server.replies ++ [(req, .mini .notin)] ∧
      req.net = ⟨5, 0⟩ ∧ s.writtenTo req = some ⟨5, 1⟩ ∧
        ¬ TcpServer.RepliesReach refusing s (.execute true) := by
  have seen : TcpServer.behind (Runs.run
    (TcpServer.step refusing) (.start emptyCache ⟨false⟩ () fun _ => 0) hangUp) 5 =
      some (some ⟨5, 1⟩, [], some [(⟨⟨5, 0⟩, 0x01000000, 0x101, 0⟩, .mini .notin)]) := by decide
  obtain ⟨s, t, ran, taken, owner, before, after⟩ := TcpServer.behind_some seen
  refine ⟨s, t, ⟨⟨5, 0⟩, 0x01000000, 0x101, 0⟩, ran, taken, by rw [before, after]; rfl, rfl, owner,
    fun reach => ?_⟩
  obtain ⟨rs, replies, own⟩ := reach t taken
  rw [before, after, List.nil_append] at replies
  have new : ((⟨⟨5, 0⟩, 0x01000000, 0x101, 0⟩ : ReqInfo Client), Reply.mini .notin) ∈ rs :=
    replies ▸ List.mem_cons_self
  have stranger := (own _ new).1 ⟨5, 1⟩ owner
  exact absurd stranger (by decide)

end Nmdb
