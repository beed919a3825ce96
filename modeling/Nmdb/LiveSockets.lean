import Nmdb.BufferBalance
import Nmdb.Connections

/-! The memory of the TCP connections, from tcp_newconnection to tcp_socket_free. A connection
that is open owns its socket, its event and the buffer of a message that is not complete;
one that is closed, or was not accepted, leaves nothing behind. -/
namespace Nmdb.Live

open Ownership Runs

variable {δ σ : Type}

/-- A socket, and the addresses of it, of its event and of its buffer. -/
structure Socket where
  sock : TcpSocket
  self : Nat
  evt : Nat
  buf : Pointer

/-- What can fail for a new connection: both allocations, and accept() or fcntl(). -/
structure Accepting where
  sock : Bool
  evt : Bool
  fcntl : Bool
  deriving DecidableEq, Repr

def Accepting.done (a : Accepting) : Bool := a.sock && a.evt && a.fcntl

def tcpSocketFree (k : Socket) (h : Heap) : Except Fault Heap := do
  let h ← free (some k.evt) h
  let h ← free k.buf h
  free (some k.self) h

def tcpNewconnection (a : Accepting) (client : Client) (h : Heap) : Except Fault (Option Socket × Heap) :=
  match malloc a.sock h with
  | (none, h) => .ok (none, h)
  | (some self, h) =>
    match malloc a.evt h with
    | (none, h) => do
      let h ← free (some self) h
      return (none, h)
    | (some evt, h) =>
      if !a.fcntl then do
        let h ← free (some evt) h
        let h ← free (some self) h
        return (none, h)
      else .ok (some ⟨.new client, self, evt, none⟩, h)

abbrev Received (σ : Type) := (Option Socket × Mem × σ) × Heap

/-- The label error_exit. -/
def errorExit (k : Socket) (buf : Mem) (st : σ) (h : Heap) : Except Fault (Received σ) := do
  let h ← tcpSocketFree k h
  return ((none, buf, st), h)

def processBuf (parse : σ → ReqInfo Client → Mem → Nat → Except Fault (Bool × σ)) (ok : Bool) :
    Nat → Socket → Mem → Nat → σ → Heap → Except Fault (Received σ)
  | 0, _, _, _, _, _ => .error .diverges
  | fuel + 1, k, buf, len, st, h =>
    let total := totaltoget buf len
    if 4 ≤ len ∧ (maxPacket < total ∨ total ≤ 8) then errorExit k buf st h
    else if len < total then
      match k.buf with
      | none =>
        match malloc ok h with
        | (none, h) => errorExit k buf st h
        | (some p, h) =>
          let copy : Mem := fun i => if i < len then buf i else indeterminate
          let sock := { k.sock with buf := some copy, len := len, pktsize := total }
          .ok ((some { k with sock := sock, buf := some p }, buf, st), h)
      | some _ =>
        .ok ((some { k with sock := { k.sock with buf := some buf, len := len, pktsize := total } }, buf, st), h)
    else do
      let sock := if total < len then { k.sock with excess := len - total } else k.sock
      let len := if total < len then total else len
      let (rv, st) ← parse st sock.req (buf.from 4) (len - 4)
      if !rv then errorExit k buf st h
      else if sock.excess ≠ 0 then
        let buf := memmove buf len sock.excess
        let sock := initReq { sock with len := sock.excess, excess := 0 }
        processBuf parse ok fuel { k with sock := sock } buf len st h
      else
        match k.buf with
        | none => return ((some { k with sock := sock }, buf, st), h)
        | some p =>
          let h ← free (some p) h
          let sock := { sock with buf := none, len := 0, pktsize := 0, excess := 0 }
          return ((some { k with sock := sock, buf := none }, buf, st), h)

def tcpRecv (parse : σ → ReqInfo Client → Mem → Nat → Except Fault (Bool × σ)) (ok : Bool) (static : Mem)
    (k : Socket) (rv : Bytes) (st : σ) (h : Heap) : Except Fault (Received σ) :=
  if rv = [] then errorExit k static st h
  else
    match k.sock.buf with
    | none =>
      processBuf parse ok (rv.length + 1) { k with sock := initReq k.sock } (received static 0 rv) rv.length st h
    | some buf => do
      let buf := received buf k.sock.len rv
      let sock := { k.sock with buf := some buf, len := k.sock.len + rv.length }
      let ((k, _, st), h) ← processBuf parse ok (sock.len + 1) { k with sock := sock } buf sock.len st h
      return ((k, static, st), h)

/-- The server with its connections in memory. -/
structure Sockets (δ : Type) where
  server : Server Client
  db : δ
  hand : Option (QueueEntry Client)
  socks : Nat → Option Socket
  accepted : List Nat
  static : Mem
  heap : Heap

namespace Sockets

def plain (s : Sockets δ) : TcpServer δ :=
  ⟨s.server, s.db, s.hand, fun fd => (s.socks fd).map Socket.sock, s.accepted, s.static⟩

def step (db : DbConn δ) (s : Sockets δ) : NetEvent × Accepting → Except Fault (Sockets δ)
  | (.newconnection fd, a) =>
    match s.socks fd with
    | some _ => .ok s
    | none => do
      match ← tcpNewconnection a ⟨fd, s.accepted.length⟩ s.heap with
      | (none, h) => return { s with heap := h }
      | (some k, h) =>
        return { s with socks := Function.update s.socks fd (some k), accepted := s.accepted ++ [fd], heap := h }
  | (.recv fd rv ok mallocs, _) =>
    match s.socks fd with
    | none => .ok s
    | some k => do
      let ((k, static, server), h) ←
        tcpRecv (fun server => tcpParse (mallocs server) server) ok s.static k rv s.server s.heap
      return { s with socks := Function.update s.socks fd k, static := static, server := server, heap := h }
  | (.dequeue, _) =>
    match s.hand, s.server.queue with
    | none, e :: rest => .ok { s with hand := some e, server := { s.server with queue := rest } }
    | _, _ => .ok s
  | (.execute ok, _) =>
    match s.hand with
    | none => .ok s
    | some e => do
      let (d, r) ← Nmdb.processOp db ok s.db e
      let server := match r with
        | none => s.server
        | some r => s.server.reply e.req r
      return { s with server := server, db := d, hand := none }

def start (cache : Cache) (settings : Settings) (d : δ) (static : Mem) : Sockets δ :=
  ⟨⟨cache, [], {}, settings, []⟩, d, none, fun _ => none, [], static, Heap.empty⟩

end Sockets

/-- The events that do something for the server: a connection that cannot be had is none. -/
def effective (xs : List (NetEvent × Accepting)) : List NetEvent :=
  xs.filterMap fun x => match x.1 with
    | .newconnection fd => if x.2.done then some (.newconnection fd) else none
    | ev => some ev

/-- What a connection owns, in the order it is freed. -/
def Socket.blocks (k : Socket) : List Nat := k.evt :: (k.buf.toList ++ [k.self])

/-- What is left of a connection. -/
def kept (k : Option Socket) : List Nat := k.elim [] Socket.blocks

/-- A socket has a buffer in memory when its message is not complete. -/
def Socket.Buffered (k : Socket) : Prop := k.buf.isSome = k.sock.buf.isSome

theorem Socket.Buffered.cases {k : Socket} (buffered : k.Buffered) :
    (k.buf = none ∧ k.sock.buf = none) ∨ ∃ p b, k.buf = some p ∧ k.sock.buf = some b := by
  unfold Buffered at buffered
  cases there : k.sock.buf with
  | none =>
    rw [there] at buffered
    exact .inl ⟨Option.not_isSome_iff_eq_none.mp (by simp [buffered]), rfl⟩
  | some b =>
    rw [there] at buffered
    obtain ⟨p, here⟩ := Option.isSome_iff_exists.mp buffered
    exact .inr ⟨p, b, here, rfl⟩

/-- The end of process_buf or tcp_recv, with the memory and without. -/
structure Ends (left : List Nat) (x : Option TcpSocket × Mem × σ) (y : Received σ) : Prop where
  sock : y.1.1.map Socket.sock = x.1
  rest : y.1.2 = x.2
  buffered : ∀ k, y.1.1 = some k → k.Buffered
  owns : y.2.Owns (kept y.1.1 ++ left)

section

variable {parse : σ → ReqInfo Client → Mem → Nat → Except Fault (Bool × σ)} {ok : Bool} {left : List Nat} {k : Socket}
  {h : Heap} {buf static : Mem} {st : σ} {fuel len : Nat}

theorem tcpSocketFree_owns (owns : h.Owns (k.blocks ++ left)) : ∃ h', tcpSocketFree k h = .ok h' ∧ h'.Owns left := by
  rw [Socket.blocks, List.cons_append, List.append_assoc] at owns
  obtain ⟨h₁, evt, owns⟩ := free_owns (p := some k.evt) owns
  obtain ⟨h₂, buf, owns⟩ := free_owns owns
  obtain ⟨h', self, owns⟩ := free_owns (p := some k.self) owns
  exact ⟨h', by rw [tcpSocketFree, evt, ok_bind, buf, ok_bind, self], owns⟩

theorem errorExit_ends (owns : h.Owns (k.blocks ++ left)) (buf : Mem) (st : σ) :
    Agree (Ends left) (.ok (none, buf, st)) (errorExit k buf st h) := by
  obtain ⟨h', freed, owns⟩ := tcpSocketFree_owns owns
  rw [errorExit, freed]
  exact ⟨rfl, rfl, fun k no => absurd no.symm (Option.some_ne_none k), owns⟩

theorem processBuf_ends (buffered : k.Buffered) (owns : h.Owns (k.blocks ++ left)) :
    Agree (Ends left) (Nmdb.processBuf parse ok fuel k.sock buf len st) (processBuf parse ok fuel k buf len st h) := by
  induction fuel generalizing k buf len st h with
  | zero => rfl
  | succ fuel ih =>
    unfold Nmdb.processBuf processBuf
    simp only
    have same : (if totaltoget buf len < len then { k.sock with excess := len - totaltoget buf len }
        else k.sock).buf = k.sock.buf := by split <;> rfl
    -- the socket, with the bytes in excess written down or not
    generalize (if totaltoget buf len < len then { k.sock with excess := len - totaltoget buf len }
      else k.sock) = sock at same
    refine Agree.ite (errorExit_ends owns buf st) (Agree.ite ?_ (Agree.given ?_))
    · rcases buffered.cases with ⟨here, there⟩ | ⟨p, b, here, there⟩
      · simp only [here, there]
        cases ok with
        | false => exact errorExit_ends owns buf st
        | true =>
          refine ⟨rfl, rfl, ?_, ?_⟩
          · rintro _ ⟨⟩
            rfl
          · rw [Socket.blocks, here] at owns
            exact Heap.Owns.perm (owns_alloc owns) (List.Perm.swap ..)
      · rw [Socket.blocks, here] at owns
        simp only [here, there]
        refine ⟨rfl, rfl, ?_, owns⟩
        rintro _ ⟨⟩
        rfl
    · rintro ⟨rv, st⟩ _
      refine Agree.ite (errorExit_ends owns _ st) (Agree.ite ?_ ?_)
      · refine ih (k := { k with sock := _ }) ?_ owns
        exact buffered.trans (congrArg Option.isSome same.symm)
      · rcases buffered.cases with ⟨here, there⟩ | ⟨p, b, here, there⟩
        · rw [Socket.blocks, here] at owns
          simp only [here, same.trans there]
          refine ⟨rfl, rfl, ?_, owns⟩
          rintro _ ⟨⟩
          exact (congrArg Option.isSome (same.trans there)).symm
        · simp only [here, same.trans there]
          have owned : h.Owns (p :: ([k.evt, k.self] ++ left)) := by
            rw [Socket.blocks, here] at owns
            exact owns.perm (List.Perm.swap ..)
          obtain ⟨h', freed, owns⟩ := free_owns (p := some p) owned
          rw [freed, ok_bind]
          refine ⟨rfl, rfl, ?_, owns⟩
          rintro _ ⟨⟩
          rfl

theorem tcpRecv_ends (buffered : k.Buffered) (owns : h.Owns (k.blocks ++ left)) (rv : Bytes) :
    Agree (Ends left) (Nmdb.tcpRecv parse ok static k.sock rv st) (tcpRecv parse ok static k rv st h) := by
  unfold Nmdb.tcpRecv tcpRecv
  refine Agree.ite (errorExit_ends owns static st) ?_
  cases there : k.sock.buf with
  | none =>
    refine processBuf_ends (k := { k with sock := initReq k.sock }) ?_ owns
    exact buffered
  | some buf =>
    refine Agree.bind (P := Ends left) (processBuf_ends (k := { k with sock := _ }) ?_ owns) ?_
    · have held : k.buf.isSome = true := buffered.trans (congrArg Option.isSome there)
      exact held
    · rintro ⟨sock, b, st⟩ ⟨⟨k', b', st'⟩, h'⟩ ends
      obtain ⟨rfl, same, buffered, owns⟩ := ends
      obtain ⟨_, rfl⟩ := Prod.mk.inj same
      exact ⟨rfl, rfl, buffered, owns⟩

theorem tcpNewconnection_owns (a : Accepting) (client : Client) (owns : h.Owns left) :
    ∃ k h', tcpNewconnection a client h = .ok (k, h') ∧ h'.Owns (kept k ++ left) ∧
      (a.done = false ∧ k = none ∨ a.done = true ∧ ∃ self evt, k = some ⟨.new client, self, evt, none⟩) := by
  obtain ⟨sockOk, evtOk, fcntlOk⟩ := a
  unfold tcpNewconnection
  cases sockOk with
  | false => exact ⟨none, h, rfl, owns, .inl ⟨rfl, rfl⟩⟩
  | true =>
    have first := owns_alloc owns
    cases evtOk with
    | false =>
      obtain ⟨h', freed, owns⟩ := free_owns (p := some h.next) first
      exact ⟨none, h', by simp only [malloc, if_true, Bool.false_eq_true, if_false, freed, ok_bind, pure_ok], owns,
        .inl ⟨rfl, rfl⟩⟩
    | true =>
      have second := owns_alloc first
      cases fcntlOk with
      | false =>
        obtain ⟨h₁, freed₁, owns⟩ := free_owns (p := some h.alloc.next) second
        obtain ⟨h', freed₂, owns⟩ := free_owns (p := some h.next) owns
        refine ⟨none, h', ?_, owns, .inl ⟨rfl, rfl⟩⟩
        simp only [malloc, if_true, Bool.not_false, freed₁, freed₂, ok_bind, pure_ok]
      | true => exact ⟨_, _, rfl, second, .inr ⟨rfl, _, _, rfl⟩⟩

end

/-- An attempt to have a connection, or another event. -/
def attempt (db : DbConn δ) (s : TcpServer δ) : NetEvent × Accepting → Except Fault (TcpServer δ)
  | (.newconnection fd, a) => if a.done then s.step db (.newconnection fd) else .ok s
  | (ev, _) => s.step db ev

theorem run_effective {db : DbConn δ} {s : TcpServer δ} (xs : List (NetEvent × Accepting)) :
    Runs.run (attempt db) s xs = Runs.run (TcpServer.step db) s (effective xs) := by
  induction xs generalizing s with
  | nil => rfl
  | cons x xs ih =>
    have go : ∀ ev, attempt db s x = s.step db ev → effective (x :: xs) = ev :: effective xs →
        Runs.run (attempt db) s (x :: xs) = Runs.run (TcpServer.step db) s (effective (x :: xs)) := by
      intro ev same more
      rw [more]
      unfold Runs.run
      rw [same]
      cases s.step db ev with
      | error e => rfl
      | ok t => exact ih
    obtain ⟨ev, a⟩ := x
    cases ev with
    | newconnection fd =>
      cases had : a.done with
      | false =>
        have skipped : effective ((.newconnection fd, a) :: xs) = effective xs := by simp [effective, had]
        rw [skipped, Runs.run_cons_ok (t := s) (by simp [attempt, had])]
        exact ih
      | true => exact go (.newconnection fd) (by simp [attempt, had]) (by simp [effective, had])
    | recv fd rv ok mallocs => exact go _ rfl rfl
    | dequeue => exact go _ rfl rfl
    | execute ok => exact go _ rfl rfl

namespace Sockets

/-- What is live is what the open connections fds own. -/
structure Kept (s : Sockets δ) (fds : List Nat) : Prop where
  distinct : fds.Nodup
  isOpen : ∀ fd, fd ∈ fds ↔ (s.socks fd).isSome
  buffered : ∀ fd k, s.socks fd = some k → k.Buffered
  owns : s.heap.Owns (fds.flatMap fun fd => kept (s.socks fd))

variable {s : Sockets δ} {fds : List Nat}

theorem plain_update (fd : Nat) (k : Option Socket) :
    (fun n => (Function.update s.socks fd k n).map Socket.sock) =
      Function.update (fun n => (s.socks n).map Socket.sock) fd (k.map Socket.sock) := by
  funext n
  by_cases here : n = fd
  · subst here
    rw [Function.update_self, Function.update_self]
  · rw [Function.update_of_ne here, Function.update_of_ne here]

/-- A connection that was not open before. -/
theorem Kept.opened (kept' : s.Kept fds) {fd : Nat} (closed : s.socks fd = none) {k : Socket} (buffered : k.Buffered)
    {h : Heap} (owns : h.Owns (k.blocks ++ fds.flatMap fun fd => kept (s.socks fd))) {t : Sockets δ}
    (socks : t.socks = Function.update s.socks fd (some k)) (heap : t.heap = h) : t.Kept (fd :: fds) := by
  have fresh : fd ∉ fds := by
    rw [kept'.isOpen, closed]
    exact Bool.false_ne_true
  refine ⟨List.nodup_cons.mpr ⟨fresh, kept'.distinct⟩, fun n => ?_, fun n k' held => ?_, ?_⟩
  · rw [socks, List.mem_cons]
    by_cases here : n = fd
    · simp [here]
    · rw [Function.update_of_ne here, kept'.isOpen]
      exact ⟨fun either => either.resolve_left here, .inr⟩
  · rw [socks] at held
    by_cases here : n = fd
    · subst here
      rw [Function.update_self] at held
      exact Option.some.inj held ▸ buffered
    · rw [Function.update_of_ne here] at held
      exact kept'.buffered n k' held
  · have rest : (fds.flatMap fun n => kept (t.socks n)) = fds.flatMap fun n => kept (s.socks n) := by
      refine List.flatMap_congr fun n member => ?_
      have apart : n ≠ fd := fun here => fresh (here ▸ member)
      rw [socks, Function.update_of_ne apart]
    rw [heap, List.flatMap_cons, rest, socks, Function.update_self]
    exact owns

/-- A connection that was open, with what is left of it. -/
theorem Kept.changed (kept' : s.Kept fds) {fd : Nat} (inside : fd ∈ fds) {k : Option Socket}
    (buffered : ∀ k', k = some k' → k'.Buffered) {h : Heap}
    (owns : h.Owns (kept k ++ (fds.erase fd).flatMap fun fd => kept (s.socks fd))) {t : Sockets δ}
    (socks : t.socks = Function.update s.socks fd k) (heap : t.heap = h) : ∃ fds', t.Kept fds' := by
  have others : ((fds.erase fd).flatMap fun n => kept (t.socks n)) =
      (fds.erase fd).flatMap fun n => kept (s.socks n) := by
    refine parts_others kept'.distinct fun n apart => ?_
    rw [socks, Function.update_of_ne apart]
  have stillBuffered : ∀ n k', t.socks n = some k' → k'.Buffered := by
    intro n k' held
    rw [socks] at held
    by_cases here : n = fd
    · subst here
      rw [Function.update_self] at held
      exact buffered k' held
    · rw [Function.update_of_ne here] at held
      exact kept'.buffered n k' held
  cases k with
  | none =>
    refine ⟨fds.erase fd, kept'.distinct.erase fd, fun n => ?_, stillBuffered, ?_⟩
    · rw [socks, kept'.distinct.mem_erase_iff]
      by_cases here : n = fd
      · simp [here]
      · rw [Function.update_of_ne here, kept'.isOpen]
        exact ⟨fun both => both.2, fun there => ⟨here, there⟩⟩
    · rw [heap, others]
      exact owns
  | some k =>
    refine ⟨fds, kept'.distinct, fun n => ?_, stillBuffered, ?_⟩
    · by_cases here : n = fd
      · subst here
        rw [socks, Function.update_self]
        exact ⟨fun _ => rfl, fun _ => inside⟩
      · rw [socks, Function.update_of_ne here]
        exact kept'.isOpen n
    · have parts := parts_perm inside fun n => kept (t.socks n)
      rw [others, socks, Function.update_self] at parts
      rw [heap]
      exact owns.perm (socks ▸ parts.symm)

theorem step_agrees (db : DbConn δ) (kept' : s.Kept fds) (x : NetEvent × Accepting) :
    Agree (fun t u => u.plain = t ∧ ∃ fds, u.Kept fds) (attempt db s.plain x) (s.step db x) := by
  obtain ⟨ev, a⟩ := x
  cases ev with
  | newconnection fd =>
    cases closed : s.socks fd with
    | some k =>
      have held : s.plain.socks fd = some k.sock := congrArg (Option.map Socket.sock) closed
      simp only [attempt, TcpServer.step, step, closed, held, ite_self]
      exact ⟨rfl, fds, kept'⟩
    | none =>
      obtain ⟨k, h, made, owns, outcome⟩ := tcpNewconnection_owns a ⟨fd, s.accepted.length⟩ kept'.owns
      simp only [step, closed, made, ok_bind]
      rcases outcome with ⟨fails, rfl⟩ | ⟨done, self, evt, rfl⟩
      · simp only [attempt, fails, Bool.false_eq_true, if_false]
        exact ⟨rfl, fds, kept'.distinct, kept'.isOpen, kept'.buffered, owns⟩
      · have free : s.plain.socks fd = none := congrArg (Option.map Socket.sock) closed
        have unbuffered : Socket.Buffered ⟨.new ⟨fd, s.accepted.length⟩, self, evt, none⟩ := rfl
        simp only [attempt, done, if_true, TcpServer.step, free]
        refine ⟨?_, _, kept'.opened closed unbuffered owns rfl rfl⟩
        simp only [Sockets.plain, plain_update, Option.map_some]
  | recv fd rv ok mallocs =>
    cases there : s.socks fd with
    | none =>
      have gone : s.plain.socks fd = none := congrArg (Option.map Socket.sock) there
      simp only [attempt, TcpServer.step, step, there, gone]
      exact ⟨rfl, fds, kept'⟩
    | some k =>
      have inside : fd ∈ fds := (kept'.isOpen fd).mpr (by rw [there]; rfl)
      have owns := kept'.owns.perm (parts_perm inside _)
      rw [there] at owns
      have held : s.plain.socks fd = some k.sock := congrArg (Option.map Socket.sock) there
      simp only [attempt, TcpServer.step, step, there, held]
      refine Agree.bind (tcpRecv_ends (kept'.buffered fd k there) owns rv) ?_
      rintro ⟨sock, static, server⟩ ⟨⟨k', static', server'⟩, h⟩ ⟨rfl, same, buffered, owns⟩
      cases same
      refine ⟨?_, kept'.changed inside buffered owns rfl rfl⟩
      simp only [Sockets.plain, plain_update]
  | dequeue =>
    cases hand : s.hand with
    | some e =>
      have held : s.plain.hand = some e := hand
      simp only [attempt, TcpServer.step, step, hand, held]
      exact ⟨rfl, fds, kept'⟩
    | none =>
      have free : s.plain.hand = none := hand
      cases queue : s.server.queue with
      | nil =>
        have waiting : s.plain.server.queue = [] := queue
        simp only [attempt, TcpServer.step, step, hand, free, queue, waiting]
        exact ⟨rfl, fds, kept'⟩
      | cons e rest =>
        have waiting : s.plain.server.queue = e :: rest := queue
        simp only [attempt, TcpServer.step, step, hand, free, queue, waiting]
        exact ⟨rfl, fds, kept'.distinct, kept'.isOpen, kept'.buffered, kept'.owns⟩
  | execute ok =>
    cases hand : s.hand with
    | none =>
      have free : s.plain.hand = none := hand
      simp only [attempt, TcpServer.step, step, hand, free]
      exact ⟨rfl, fds, kept'⟩
    | some e =>
      have held : s.plain.hand = some e := hand
      simp only [attempt, TcpServer.step, step, hand, held]
      exact Agree.given fun _ _ => ⟨rfl, fds, kept'.distinct, kept'.isOpen, kept'.buffered, kept'.owns⟩

/-- The blocks of the open connections fds. -/
theorem blocks_length (buffered : ∀ fd k, s.socks fd = some k → k.Buffered)
    (opened : ∀ fd ∈ fds, (s.socks fd).isSome) :
    (fds.flatMap fun fd => kept (s.socks fd)).length =
      2 * fds.length + fds.countP fun fd => ((s.plain.socks fd).bind TcpSocket.buf).isSome := by
  induction fds with
  | nil => rfl
  | cons fd fds ih =>
    obtain ⟨k, there⟩ := Option.isSome_iff_exists.mp (opened fd List.mem_cons_self)
    have rest := ih fun n member => opened n (List.mem_cons_of_mem fd member)
    have plain : s.plain.socks fd = some k.sock := congrArg (Option.map Socket.sock) there
    rw [List.flatMap_cons, List.length_append, rest, List.length_cons, List.countP_cons, there, plain]
    rcases (buffered fd k there).cases with ⟨here, message⟩ | ⟨p, b, here, message⟩
    · simp [kept, Socket.blocks, here, message]
      omega
    · simp [kept, Socket.blocks, here, message]
      omega

theorem Kept.count (kept' : s.Kept fds) :
    s.heap.live.length = 2 * fds.length + fds.countP fun fd => ((s.plain.socks fd).bind TcpSocket.buf).isSome := by
  rw [List.Perm.length_eq kept'.owns]
  exact blocks_length kept'.buffered fun fd => (kept'.isOpen fd).mp

end Sockets

/-- Whatever fails, the server with its connections in memory does what it does without, and
what is live are two blocks for each open connection, and one more while its message is
not complete. -/
theorem connections_leak_nothing (db : DbConn δ) (cache : Cache) (settings : Settings) (d : δ) (static : Mem)
    (xs : List (NetEvent × Accepting)) :
    Agree (fun t u => u.plain = t ∧ ∃ fds : List Nat, fds.Nodup ∧ (∀ fd, fd ∈ fds ↔ (t.socks fd).isSome) ∧
        u.heap.live.length = 2 * fds.length + fds.countP fun fd => ((t.socks fd).bind TcpSocket.buf).isSome)
      (Runs.run (TcpServer.step db) (TcpServer.start cache settings d static) (effective xs))
      (Runs.run (Sockets.step db) (Sockets.start cache settings d static) xs) := by
  have initial : (Sockets.start cache settings d static).Kept [] :=
    ⟨.nil, fun fd => ⟨fun member => absurd member List.not_mem_nil, fun no => absurd no Bool.false_ne_true⟩,
      fun fd k held => absurd held.symm (Option.some_ne_none k), owns_empty⟩
  have labels : ∀ x ∈ xs, True := fun _ _ => trivial
  have run := Agree.run (R := fun (t : TcpServer δ) (u : Sockets δ) => u.plain = t ∧ ∃ fds, u.Kept fds)
    (fun t u x both _ => by
      obtain ⟨rfl, fds, kept'⟩ := both
      exact Sockets.step_agrees db kept' x) ⟨rfl, [], initial⟩ labels
  rw [run_effective] at run
  refine run.mono ?_
  rintro t u ⟨rfl, fds, kept'⟩
  refine ⟨rfl, fds, kept'.distinct, fun fd => ?_, kept'.count⟩
  rw [kept'.isOpen, Sockets.plain, Option.isSome_map]

end Nmdb.Live
