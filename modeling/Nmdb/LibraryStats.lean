import Nmdb.LibraryCopies

/-! The statistics of several servers. The size that nmdb_stats copies for each counts the length
field which it skips, so that the counters of every further server lie four bytes more behind. -/
namespace Nmdb.Library

open Wire

/-- The size of the buffer for a single reply. -/
def tmpbufSize : Nat := 32 * 8

/-- What nmdb_stats returns, what its copies put one behind the other into the buffer of the
caller, and the numbers it stores there. -/
structure StatsResult where
  rv : Int
  copied : List Bytes
  nservers : Option Nat
  nstats : Nat
  deriving DecidableEq, Repr

/-- Sends a request for statistics and frees it. Without memory TCP puts its length at NULL, and
the other transports get an error from the kernel. -/
def statsSend (t : Transport) (io : Io) : Except Fault Bool := do
  match ← statsPacket (some t) io.malloc io.fresh with
  | none => if t = .tcp then .error .nullDeref else return false
  | some (request, reqsize) =>
    let _ ← srvSend t request reqsize
    return io.sent

/-- The loop of nmdb_stats, with the room left in the buffer of the caller and *nstats. -/
def statsLoop (tmpbuf : Bytes) (bsize nstats : Nat) : List (Transport × Io) →
    Except Fault (Int × Nat × List Bytes)
  | [] => .ok (1, nstats, [])
  | (t, io) :: servers => do
    if ← statsSend t io then
      let a := getRep t tmpbuf io.socket
      if a.reply ≠ Rep.ok.code then return (-1, nstats, [])
      else
        match a.payload with
        | none => .error .uninitialised
        | some (payload, psize) =>
          if bsize < psize then return (-3, nstats, [])
          else if a.buf.length < payload + 4 + psize then .error .outOfBounds
          else
            let piece := slice (Mem.ofBytes a.buf) (payload + 4) psize
            if nstats ≠ 0 ∧ nstats ≠ psize / 8 then return (-4, nstats, [piece])
            else
              let (rv, nstats, copied) ← statsLoop a.buf (bsize - psize) (psize / 8) servers
              return (rv, nstats, piece :: copied)
    else return (-2, nstats, [])

/-- The buffer for the replies is not initialised. -/
def nmdbStats (tmpbuf : Mem) (servers : List (Transport × Io)) (bsize : Nat) : Except Fault StatsResult := do
  let (rv, nstats, copied) ← statsLoop (slice tmpbuf 0 tmpbufSize) bsize 0 servers
  return ⟨rv, copied, if rv = 1 then some servers.length else none, nstats⟩

def StatsResult.buffer (r : StatsResult) (buf : Bytes) : Bytes := overlay buf 0 r.copied.flatten

/-- Counters as they are sent. -/
def counterBytes (counters : List Nat) : Bytes := (counters.map fun c => bytes64 (htonll c)).flatten

section

variable {ν : Type}

/-- A server that replies REP_OK with so many counters. -/
structure Answers (req : ReqInfo ν) (k : Nat) (server : Transport × Io) (counters : List Nat) : Prop where
  malloc : server.2.malloc = true
  sent : server.2.sent = true
  count : counters.length = k
  words : ∀ c ∈ counters, c < 2 ^ 64
  delivered : Delivered server.1 (server.1.packet req (.long .ok (counterBytes counters))) server.2.socket

/-- The caller finds the counters one behind the other, and nothing was copied that did not
come with them. -/
structure LaidOut (req : ReqInfo ν) (servers : List (Transport × Io)) (counters : List (List Nat)) (k : Nat)
    (buf : Bytes) (r : StatsResult) : Prop where
  rv : r.rv = 1
  nstats : r.nstats = k
  nservers : r.nservers = some servers.length
  placed : ∀ i j cs c, counters[i]? = some cs → cs[j]? = some c →
    ntohll (load64 (Mem.ofBytes (r.buffer buf)) (8 * (i * r.nstats + j))) = c
  received : ∀ (i : Nat) (server : Transport × Io) (cs : List Nat) (piece : Bytes),
    servers[i]? = some server → counters[i]? = some cs → r.copied[i]? = some piece →
      piece <+: (server.1.packet req (.long .ok (counterBytes cs))).drop (server.1.idOffset + 12)

/- Pieces of one size lie at its multiples. -/
theorem drop_flatten {size : Nat} {pieces : List Bytes} (each : ∀ p ∈ pieces, p.length = size) (i : Nat) :
    pieces.flatten.drop (i * size) = (pieces.drop i).flatten := by
  induction pieces generalizing i with
  | nil => simp only [List.flatten_nil, List.drop_nil]
  | cons p ps ih =>
    cases i with
    | zero => simp only [Nat.zero_mul, List.drop_zero]
    | succ i =>
      have here : p.length = size := each p List.mem_cons_self
      have later := ih (fun q mem => each q (List.mem_cons_of_mem p mem)) i
      rw [List.flatten_cons, Nat.succ_mul, Nat.add_comm, ← here, ← List.drop_drop, List.drop_left, here, later,
        List.drop_succ_cons]

theorem flatten_piece {size i : Nat} {pieces : List Bytes} {p : Bytes} (each : ∀ q ∈ pieces, q.length = size)
    (here : pieces[i]? = some p) : p <+: pieces.flatten.drop (i * size) := by
  obtain ⟨inside, rfl⟩ := List.getElem?_eq_some_iff.mp here
  rw [drop_flatten each, List.drop_eq_getElem_cons inside, List.flatten_cons]
  exact List.prefix_append ..

theorem counterBytes_length (counters : List Nat) : (counterBytes counters).length = 8 * counters.length := by
  induction counters with
  | nil => rfl
  | cons c counters ih =>
    rw [counterBytes, List.map_cons, List.flatten_cons, List.length_append, bytes64_length, List.length_cons]
    rw [counterBytes] at ih
    omega

/- A word of a buffer. -/
theorem load64_prefix {b : Bytes} {c off : Nat} (word : bytes64 (htonll c) <+: b.drop off)
    (small : c < 2 ^ 64) :
    ntohll (load64 (Mem.ofBytes b) off) = c := by
  have inside := word.length_le
  rw [bytes64_length, List.length_drop] at inside
  have same := List.prefix_iff_eq_take.mp word
  rw [bytes64_length] at same
  rw [ntohll_load64, slice_take_drop (by omega), ← same, bigEndian_htonll small]

theorem counter_piece {counters : List Nat} {j c : Nat} (here : counters[j]? = some c) :
    bytes64 (htonll c) <+: (counterBytes counters).drop (8 * j) := by
  rw [Nat.mul_comm]
  refine flatten_piece ?_ (by rw [List.getElem?_map, here]; rfl)
  intro p mem
  obtain ⟨c, _, rfl⟩ := List.mem_map.mp mem
  exact bytes64_length _

variable {req : ReqInfo ν} {k : Nat} {server : Transport × Io} {servers : List (Transport × Io)} {cs : List Nat}
  {counters : List (List Nat)} {tmpbuf : Bytes}

theorem statsSend_sent {t : Transport} {io : Io} (malloc : io.malloc = true) (sent : io.sent = true) :
    statsSend t io = .ok true := by
  rw [statsSend, malloc, sent]
  cases t <;> rfl

theorem statsLoop_answered (id : req.id = htonl ID_CODE) (few : k ≤ 30) (answers : Answers req k server cs)
    (whole : tmpbuf.length = tmpbufSize) (servers : List (Transport × Io)) (bsize nstats : Nat) :
    ∃ next piece : Bytes, statsLoop tmpbuf bsize nstats (server :: servers) =
        (if bsize < 8 * k + 4 then .ok (-3, nstats, [])
        else if tmpbufSize < server.1.idOffset + 12 + (8 * k + 4) then .error .outOfBounds
        else if nstats ≠ 0 ∧ nstats ≠ k then .ok (-4, nstats, [piece])
        else statsLoop next (bsize - (8 * k + 4)) k servers >>= fun (rv, nstats, copied) =>
          .ok (rv, nstats, piece :: copied)) ∧
      next.length = tmpbufSize ∧ piece.length = 8 * k + 4 ∧ counterBytes cs <+: piece := by
  obtain ⟨t, io⟩ := server
  obtain ⟨malloc, sent, count, _, delivered⟩ := answers
  have bytes := counterBytes_length cs
  rw [count] at bytes
  have long := packet_length t req (.long .ok (counterBytes cs))
  have psize : (Reply.long .ok (counterBytes cs)).data.length = 8 * k + 4 := by
    rw [Reply.data, List.length_append, bytes32_length, bytes, Nat.add_comm]
  have offset : t.idOffset ≤ 4 := by cases t <;> decide
  rw [psize] at long
  have room : (t.packet req (.long .ok (counterBytes cs))).length ≤ tmpbuf.length := by
    rw [long, whole, tmpbufSize]
    omega
  have got := getRep_delivered id room (by rw [long]; omega) delivered
  have length := refill_length room
  obtain ⟨before, junk, here, held⟩ := refill_long tmpbuf t id .ok (counterBytes cs)
  refine ⟨refill tmpbuf (t.packet req (.long .ok (counterBytes cs))),
    slice (Mem.ofBytes (refill tmpbuf (t.packet req (.long .ok (counterBytes cs)))))
      (t.idOffset + 8 + 4) (8 * k + 4),
    ?_, by rw [length, whole], slice_length .., ?_⟩
  · have words : (8 * k + 4) / 8 = k := by omega
    rw [statsLoop, statsSend_sent malloc sent, ok_bind]
    simp only [got, answerOf, psize, length, whole, words, Reply.code, ne_eq, not_true_eq_false,
      if_true, if_false,
      pure_ok, Nat.add_assoc, Nat.reduceAdd]
  · have copied := slice_ofBytes (before ++ bytes32 (htonl (counterBytes cs).length)) (counterBytes cs) junk
    rw [List.append_assoc, ← held, List.length_append, here, bytes32_length, bytes] at copied
    rw [slice_append, copied]
    exact List.prefix_append ..

/-- The loop over servers that answer, with room for what it copies. -/
theorem statsLoop_room (id : req.id = htonl ID_CODE) (few : k ≤ 30)
    (short : ∀ server ∈ servers, server.1.idOffset + 12 + (8 * k + 4) ≤ tmpbufSize)
    (answers : List.Forall₂ (Answers req k) servers counters) (whole : tmpbuf.length = tmpbufSize)
    {bsize nstats : Nat}
    (room : servers.length * (8 * k + 4) ≤ bsize) (fresh : nstats = 0 ∨ nstats = k) :
    ∃ n copied, statsLoop tmpbuf bsize nstats servers = .ok (1, n, copied) ∧ (servers ≠ [] → n = k) ∧
      copied.length = servers.length ∧ (∀ p ∈ copied, p.length = 8 * k + 4) ∧
      ∀ (i : Nat) (cs : List Nat), counters[i]? = some cs →
        (∀ c ∈ cs, c < 2 ^ 64) ∧ ∃ p, copied[i]? = some p ∧ counterBytes cs <+: p := by
  induction answers generalizing tmpbuf bsize nstats with
  | nil => exact ⟨nstats, [], rfl, fun some => absurd rfl some, rfl, nofun, nofun⟩
  | @cons server cs servers counters answers others ih =>
    obtain ⟨next, piece, loop, nextWhole, length, held⟩ :=
      statsLoop_answered id few answers whole servers bsize nstats
    rw [List.length_cons, Nat.succ_mul] at room
    obtain ⟨n, copied, later, count, pieces, size, here⟩ :=
      ih (fun server mem => short server (List.mem_cons_of_mem _ mem))
      nextWhole (show servers.length * (8 * k + 4) ≤ bsize - (8 * k + 4) by omega) (.inr rfl)
    have fits := short server List.mem_cons_self
    have same : ¬ (nstats ≠ 0 ∧ nstats ≠ k) := by omega
    rw [loop, if_neg (by omega), if_neg (by omega), if_neg same, later]
    refine ⟨n, piece :: copied, rfl, ?_, ?_, ?_, ?_⟩
    · -- behind the last server it is the number of this one
      intro _
      cases others with
      | nil =>
        cases later
        rfl
      | cons _ _ => exact count (List.cons_ne_nil _ _)
    · rw [List.length_cons, pieces, List.length_cons]
    · exact List.forall_mem_cons.mpr ⟨length, size⟩
    · intro i cs' counter
      cases i with
      | zero =>
        cases counter
        exact ⟨answers.words, piece, rfl, held⟩
      | succ i => exact here i cs' counter

/-- What nmdb_stats does with enough room for it: the counters of each server are there, but
between two servers are four bytes of its own buffer. -/
theorem stats_displaced (id : req.id = htonl ID_CODE) (few : k ≤ 30)
    (short : ∀ server ∈ servers, server.1.idOffset + 12 + (8 * k + 4) ≤ tmpbufSize)
    (answers : List.Forall₂ (Answers req k) servers counters) {buf : Bytes}
    (room : servers.length * (8 * k + 4) ≤ buf.length) (mem : Mem) :
    ∃ r, nmdbStats mem servers buf.length = .ok r ∧ r.rv = 1 ∧ (servers ≠ [] → r.nstats = k) ∧
      r.nservers = some servers.length ∧
      ∀ (i j : Nat) (cs : List Nat) (c : Nat), counters[i]? = some cs → cs[j]? = some c →
        ntohll (load64 (Mem.ofBytes (r.buffer buf)) (i * (8 * k + 4) + 8 * j)) = c := by
  obtain ⟨n, copied, loop, count, pieces, size, here⟩ :=
    statsLoop_room id few short answers (slice_length mem 0 tmpbufSize) room (.inl rfl)
  refine ⟨⟨1, copied, some servers.length, n⟩, by rw [nmdbStats, loop]; rfl, rfl, count, rfl, ?_⟩
  intro i j cs c counter word
  obtain ⟨words, p, piece, held⟩ := here i cs counter
  have small : c < 2 ^ 64 := words c (List.mem_of_getElem? word)
  apply load64_prefix _ small
  -- the counter in its reply, the reply in its piece, the piece in the buffer
  have inPiece : bytes64 (htonll c) <+: p.drop (8 * j) :=
    (counter_piece word).trans (held.drop (8 * j))
  have inBuffer : p.drop (8 * j) <+: copied.flatten.drop (i * (8 * k + 4) + 8 * j) := by
    rw [← List.drop_drop]
    exact (flatten_piece size piece).drop (8 * j)
  refine (inPiece.trans inBuffer).trans (List.IsPrefix.drop ?_ _)
  exact List.prefix_append ..

/-- With servers that reply the statistics are never laid out so: for each server four bytes are
copied that were not received. -/
theorem stats_laid_out_iff (id : req.id = htonl ID_CODE) (few : k ≤ 30)
    (answers : List.Forall₂ (Answers req k) servers counters) (mem : Mem) (buf : Bytes) :
    (∃ r, nmdbStats mem servers buf.length = .ok r ∧ LaidOut req servers counters k buf r) ↔
      servers = [] ∧ k = 0 := by
  constructor
  · rintro ⟨r, done, laid⟩
    cases answers with
    | nil =>
      cases done
      exact ⟨rfl, laid.nstats.symm⟩
    | @cons server cs servers counters answers others =>
      have whole : (slice mem 0 tmpbufSize).length = tmpbufSize := slice_length ..
      obtain ⟨next, piece, loop, _, length, _⟩ := statsLoop_answered id few answers whole servers buf.length 0
      obtain ⟨⟨rv, n, copied⟩, ran, done⟩ := bind_eq_ok.mp done
      cases done
      have success : rv = 1 := laid.rv
      rw [loop] at ran
      split at ran
      · cases ran
        exact absurd success (by decide)
      · split at ran
        · cases ran
        · split at ran
          case isTrue differ => exact absurd rfl differ.1
          case isFalse =>
            obtain ⟨_, _, ran⟩ := bind_eq_ok.mp ran
            cases ran
            have inside := (laid.received 0 server cs piece rfl rfl rfl).length_le
            rw [length, List.length_drop, packet_length, Reply.data, List.length_append, bytes32_length,
              counterBytes_length, answers.count] at inside
            omega
  · rintro ⟨rfl, rfl⟩
    cases answers
    refine ⟨⟨1, [], some 0, 0⟩, rfl, rfl, rfl, rfl, ?_, ?_⟩
    · intro i j cs counter none
      contradiction
    · intro i server cs piece none
      contradiction

end

/-- The reply of a server with one counter over UDP. -/
def oneCounter (c : UInt8) : Io :=
  ⟨true, fun _ => 0, true, [some [0, 0, 0, 1, 0, 0, 8, 3, 0, 0, 0, 8, 0, 0, 0, 0, 0, 0, 0, c]]⟩

theorem oneCounter_answers :
    List.Forall₂ (Answers (⟨(), htonl ID_CODE, 0, 0⟩ : ReqInfo Unit) 1) [(.udp, oneCounter 7), (.udp, oneCounter 8)]
      [[7], [8]] :=
  .cons ⟨rfl, rfl, rfl, by decide, [], by decide⟩ (.cons ⟨rfl, rfl, rfl, by decide, [], by decide⟩ .nil)

/-- The counter of the second server is four bytes behind its place. -/
theorem stats_laid_out_iff_two :
    (∃ r, nmdbStats (fun _ => 0) [(.udp, oneCounter 7), (.udp, oneCounter 8)] 24 = .ok r ∧ r.rv = 1 ∧
      ntohll (load64 (Mem.ofBytes (r.buffer (List.replicate 24 0))) 8) ≠ 8 ∧
      ntohll (load64 (Mem.ofBytes (r.buffer (List.replicate 24 0))) 12) = 8) ∧
    ¬ ∃ r, nmdbStats (fun _ => 0) [(.udp, oneCounter 7), (.udp, oneCounter 8)] 24 = .ok r ∧
      LaidOut ⟨(), htonl ID_CODE, 0, 0⟩ [(.udp, oneCounter 7), (.udp, oneCounter 8)] [[7], [8]] 1
        (List.replicate 24 0) r := by
  constructor
  · refine ⟨⟨1, [[0, 0, 0, 0, 0, 0, 0, 7, 0, 0, 0, 0], [0, 0, 0, 0, 0, 0, 0, 8, 0, 0, 0, 0]], some 2, 1⟩, ?_, rfl, ?_, ?_⟩
    · decide +kernel
    · decide +kernel
    · decide +kernel
  · intro laid
    obtain ⟨none, _⟩ := (stats_laid_out_iff rfl (by decide) oneCounter_answers (fun _ => 0)
      (List.replicate 24 0)).mp laid
    contradiction

theorem stats_too_small :
    ¬ ∃ r, nmdbStats (fun _ => 0) [(.udp, oneCounter 7)] 8 = .ok r ∧
      LaidOut (⟨(), htonl ID_CODE, 0, 0⟩ : ReqInfo Unit) [(.udp, oneCounter 7)] [[7]] 1
        (List.replicate 8 0) r := by
  rintro ⟨r, done, laid⟩
  have refused : nmdbStats (fun _ => 0) [(.udp, oneCounter 7)] 8 = .ok ⟨-3, [], none, 0⟩ := by
    decide +kernel
  rw [refused] at done
  cases done
  exact absurd laid.rv (by decide)

end Nmdb.Library
