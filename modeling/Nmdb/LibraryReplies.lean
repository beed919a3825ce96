import Nmdb.LibraryStream

/-! The replies of the server as the library reads them: the reply code and the value are
found where they were put. -/
namespace Nmdb.Library

open Wire

/-- A reply comes whole: over TCP cut in any way, otherwise as the next datagram. -/
def Delivered (t : Transport) (packet : Bytes) (socket : Arrivals) : Prop :=
  match t with
  | .tcp => ∃ pieces : List Bytes, socket = pieces.map some ∧ (∀ p ∈ pieces, p ≠ []) ∧ pieces.flatten = packet
  | .tipc | .udp | .sctp => ∃ rest, socket = some packet :: rest

/-- What get_rep makes of a reply in the buffer of the request. -/
def answerOf {ν : Type} (t : Transport) (req : ReqInfo ν) (r : Reply) (buf : Bytes) : Answer :=
  ⟨r.code, refill buf (t.packet req r), some (t.idOffset + 8, r.data.length)⟩

section

variable {ν : Type} {t : Transport} {req : ReqInfo ν} {r : Reply} {buf : Bytes} {socket : Arrivals}

theorem packet_length (t : Transport) (req : ReqInfo ν) (r : Reply) :
    (t.packet req r).length = t.idOffset + 8 + r.data.length := by
  rw [Transport.packet_eq, List.length_append, t.lengthPrefix_length, List.length_append, bytes32_length,
    Reply.body_eq, List.length_append, bytes32_length]
  omega

/-- The buffer with the reply, field by field. -/
theorem refill_packet (id : req.id = htonl ID_CODE) : refill buf (t.packet req r) =
    t.lengthPrefix (4 + r.body.length) ++ (bytes32 (htonl ID_CODE) ++ (bytes32 (htonl r.code) ++
      (r.data ++ buf.drop (t.packet req r).length))) := by
  rw [refill]
  generalize buf.drop (t.packet req r).length = junk
  rw [Transport.packet_eq, id]
  simp only [Reply.body_eq, List.append_assoc]

theorem parseRep_packet (id : req.id = htonl ID_CODE) :
    parseRep (refill buf (t.packet req r)) t.idOffset (t.packet req r).length = answerOf t req r buf := by
  have here : t.idOffset = (t.lengthPrefix (4 + r.body.length)).length := (t.lengthPrefix_length _).symm
  have idField : ntohl (load32 (Mem.ofBytes (refill buf (t.packet req r))) t.idOffset) = ID_CODE := by
    rw [refill_packet id]
    exact load32_ofBytes here (by decide)
  have code : ntohl (load32 (Mem.ofBytes (refill buf (t.packet req r))) (t.idOffset + 4)) = r.code := by
    rw [refill_packet id, ← List.append_assoc]
    exact load32_ofBytes (by rw [List.length_append, bytes32_length, here]) r.code_lt
  have psize : sizeSub (t.packet req r).length (t.idOffset + 8) = r.data.length := by
    rw [packet_length, sizeSub, if_pos (Nat.le_add_right ..), Nat.add_sub_cancel_left]
  simp only [parseRep, idField, code, psize, ne_eq, not_true_eq_false, if_false]
  rfl

theorem udpGetRep_packet (id : req.id = htonl ID_CODE) (datagram : t.idOffset = 0)
    (room : (t.packet req r).length ≤ buf.length) (rest : Arrivals) :
    udpGetRep buf (some (t.packet req r) :: rest) = answerOf t req r buf := by
  have long : ¬ ((t.packet req r).length : Int) < 8 := by
    rw [packet_length]
    omega
  have start := overlay_refill buf [] (t.packet req r)
  rw [List.length_nil, refill_nil, List.nil_append] at start
  unfold udpGetRep
  rw [recv, if_pos room, start]
  simp only [if_neg long, Int.toNat_natCast]
  rw [← datagram]
  exact parseRep_packet id

/-- The library gets the reply that was sent to it. -/
theorem getRep_delivered (id : req.id = htonl ID_CODE) (room : (t.packet req r).length ≤ buf.length)
    (small : (t.packet req r).length < 2 ^ 32) (delivered : Delivered t (t.packet req r) socket) :
    getRep t buf socket = answerOf t req r buf := by
  cases t with
  | tcp =>
    obtain ⟨pieces, rfl, nonempty, whole⟩ := delivered
    have long := packet_length .tcp req r
    have size : (4 + (4 + r.body.length)) = (Transport.tcp.packet req r).length := by
      rw [Transport.tcp_packet, List.length_append, List.length_append, bytes32_length, bytes32_length]
    have field : bigEndian ((Transport.tcp.packet req r).take 4) = (Transport.tcp.packet req r).length := by
      rw [← size] at small ⊢
      rw [Transport.tcp_packet, List.take_left' (bytes32_length _), bigEndian_htonl small]
    have read := recvMsg_pieces nonempty whole
      (by rw [long]; exact Nat.le_add_right_of_le (by decide)) field room
    have positive : ¬ ((Transport.tcp.packet req r).length : Int) ≤ 0 := by
      rw [long]
      omega
    change tcpGetRep buf _ = _
    unfold tcpGetRep
    rw [read]
    simp only [if_neg positive, Int.toNat_natCast]
    exact parseRep_packet id
  | udp =>
    obtain ⟨rest, rfl⟩ := delivered
    exact udpGetRep_packet id rfl room rest
  | tipc =>
    obtain ⟨rest, rfl⟩ := delivered
    exact udpGetRep_packet id rfl room rest
  | sctp =>
    obtain ⟨rest, rfl⟩ := delivered
    exact udpGetRep_packet id rfl room rest

/-- The buffer with a long reply: its value lies behind the size at the payload's offset. -/
theorem refill_long (buf : Bytes) (t : Transport) (id : req.id = htonl ID_CODE) (rep : Rep) (val : Bytes) :
    ∃ before junk : Bytes, before.length = t.idOffset + 8 ∧ refill buf (t.packet req (.long rep val)) =
      before ++ (bytes32 (htonl val.length) ++ (val ++ junk)) := by
  refine ⟨t.lengthPrefix (4 + (Reply.long rep val).body.length) ++ bytes32 (htonl ID_CODE) ++
    bytes32 (htonl (Reply.long rep val).code), buf.drop (t.packet req (.long rep val)).length, ?_, ?_⟩
  · simp only [List.length_append, t.lengthPrefix_length, bytes32_length]
  · rw [refill_packet id]
    simp only [Reply.data, List.append_assoc]

/-- A value is copied where it fits. -/
theorem value_long (id : req.id = htonl ID_CODE) {rep : Rep} {val : Bytes}
    (small : val.length < 2 ^ 32) (size : Nat) :
    (answerOf t req (.long rep val) buf).value size =
      .ok (if val.length ≤ size then ((val.length : Int), some val) else (-2, none)) := by
  obtain ⟨before, junk, here, held⟩ := refill_long buf t id rep val
  have field : ntohl (load32 (Mem.ofBytes (refill buf (t.packet req (.long rep val)))) (t.idOffset + 8)) =
      val.length := by
    rw [held]
    exact load32_ofBytes here.symm small
  have copied : slice (Mem.ofBytes (refill buf (t.packet req (.long rep val)))) (t.idOffset + 8 + 4)
    val.length = val := by
    rw [held, ← here, ← List.append_assoc, ← bytes32_length (htonl val.length), ← List.length_append]
    exact slice_ofBytes _ _ _
  have psize : sizeSub (Reply.long rep val).data.length 4 = val.length := by
    rw [Reply.data, List.length_append, bytes32_length, sizeSub, if_pos (Nat.le_add_right ..),
      Nat.add_sub_cancel_left]
  have inside : t.idOffset + 8 + 4 + val.length ≤ (refill buf (t.packet req (.long rep val))).length := by
    simp only [held, List.length_append, here, bytes32_length]
    omega
  simp only [Answer.value, answerOf, field, psize, Nat.lt_irrefl, false_or, copied, if_pos inside]
  by_cases fits : val.length ≤ size
  · rw [if_pos fits, if_neg (Nat.not_lt.mpr fits)]
  · rw [if_neg fits, if_pos (Nat.lt_of_not_le fits)]

/-- The number of an increment. -/
theorem number_long (buf : Bytes) (t : Transport) (id : req.id = htonl ID_CODE) (rep : Rep)
    {n : Int} (fits : InInt64 n) :
    toInt64 (ntohll (load64 (Mem.ofBytes (refill buf (t.packet req (.long rep (bytes64 (htonll (ofInt64 n)))))))
      (t.idOffset + 8 + 4))) = n := by
  obtain ⟨before, junk, here, held⟩ := refill_long buf t id rep (bytes64 (htonll (ofInt64 n)))
  have copied := slice_ofBytes (before ++ bytes32 (htonl (bytes64 (htonll (ofInt64 n))).length))
    (bytes64 (htonll (ofInt64 n))) junk
  rw [List.append_assoc, ← held, List.length_append, here, bytes32_length, bytes64_length] at copied
  rw [ntohll_load64, copied, bigEndian_htonll (ofInt64_lt n)]
  exact wrap64_eq fits

end

/-- The replies the server can choose for an operation. -/
inductive Chosen : Operation → Reply → Prop
  | error {op : Operation} (asks : op ≠ .stats) (e : Err) : Chosen op (.err e)
  | cacheMiss (key : Bytes) : Chosen (.get key) (.mini .cacheMiss)
  | getNotin (key : Bytes) : Chosen (.get key) (.mini .notin)
  | cacheHit (key val : Bytes) : Chosen (.get key) (.long .cacheHit val)
  | getOk (key val : Bytes) : Chosen (.get key) (.long .ok val)
  | setOk (key val : Bytes) : Chosen (.set key val) (.mini .ok)
  | delOk (key : Bytes) : Chosen (.del key) (.mini .ok)
  | delNotin (key : Bytes) : Chosen (.del key) (.mini .notin)
  | casOk (key oldval newval : Bytes) : Chosen (.cas key oldval newval) (.mini .ok)
  | casNomatch (key oldval newval : Bytes) : Chosen (.cas key oldval newval) (.mini .nomatch)
  | casNotin (key oldval newval : Bytes) : Chosen (.cas key oldval newval) (.mini .notin)
  | incrNomatch (key : Bytes) (increment : Int) : Chosen (.incr key increment) (.mini .nomatch)
  | incrNotin (key : Bytes) (increment : Int) : Chosen (.incr key increment) (.mini .notin)
  | incrOk (key : Bytes) (increment : Int) {n : Int} (fits : InInt64 n) :
      Chosen (.incr key increment) (.long .ok (bytes64 (htonll (ofInt64 n))))
  | firstkeyNotin : Chosen .firstkey (.mini .notin)
  | firstkeyOk (key : Bytes) : Chosen .firstkey (.long .ok key)
  | nextkeyNotin (key : Bytes) : Chosen (.nextkey key) (.mini .notin)
  | nextkeyOk (key newkey : Bytes) : Chosen (.nextkey key) (.long .ok newkey)
  | stats (counters : Bytes) : Chosen .stats (.long .ok counters)

/-- Values and keys are at most as long as the server takes them. -/
def ShortReply (r : Reply) : Prop := ∀ rep val, r = .long rep val → val.length ≤ maxSize

section

variable {ν : Type} {op : Operation} {t : Transport} {req : ReqInfo ν} {r : Reply} {flags : Nat} {io : Io}

theorem data_length (short : ShortReply r) : r.data.length ≤ 4 + maxSize := by
  cases r with
  | mini r => exact Nat.zero_le _
  | err e =>
    rw [Reply.data, bytes32_length]
    exact Nat.le_add_right ..
  | long rep val =>
    rw [Reply.data, List.length_append, bytes32_length]
    exact Nat.add_le_add_left (short rep val rfl) 4

/-- A reply fits in the buffer the request was built in. -/
theorem chosen_fits (t : Transport) (req : ReqInfo ν) (flags : Nat) (chosen : Chosen op r)
    (asks : op ≠ .stats) (short : ShortReply r) :
    (t.packet req r).length ≤ op.bufsize t flags := by
  have long := message_length op flags
  have all := data_length short
  have offset : t.idOffset ≤ 4 := by cases t <;> decide
  rw [packet_length]
  cases op with
  | get key =>
    simp only [Operation.bufsize, SBSIZE, maxSize] at all ⊢
    omega
  | firstkey =>
    simp only [Operation.bufsize, SBSIZE, maxSize] at all ⊢
    omega
  | nextkey key =>
    simp only [Operation.bufsize, SBSIZE, maxSize] at all ⊢
    omega
  | stats => exact (asks rfl).elim
  | _ =>
    simp only [Operation.payload, List.length_append, bytes32_length, bytes64_length] at long
    change _ ≤ t.idOffset + _
    rw [long]
    cases chosen <;> simp only [Reply.data, List.length_append, bytes32_length, bytes64_length,
      List.length_nil] <;> omega

/-- An operation whose request goes out gets to its reply. -/
theorem exchange_answered (flags : Nat) (malloc : io.malloc = true) (sent : io.sent = true) (fits : op.Fits t) :
    exchange (some t) io (op.packet (some t) io.malloc flags io.fresh) =
      .ok (.answered (getRep t (op.sent t flags io.fresh) io.socket)) := by
  obtain ⟨buf, built, put⟩ := packet_sent op t flags io.fresh fits
  rw [malloc, built]
  simp only [exchange, ok_bind, put, sent, Bool.not_true, Bool.false_eq_true, if_false, pure_ok]

theorem exchange_reply (malloc : io.malloc = true) (sent : io.sent = true) (id : req.id = htonl ID_CODE)
    (fits : t.idOffset + (op.message flags).length ≤ SBSIZE) (chosen : Chosen op r) (asks : op ≠ .stats)
    (short : ShortReply r) (delivered : Delivered t (t.packet req r) io.socket) :
    ∃ buf, exchange (some t) io (op.packet (some t) io.malloc flags io.fresh) =
      .ok (.answered (answerOf t req r buf)) := by
  have answered := exchange_answered flags malloc sent (Operation.fits_of_short fits)
  have size := sent_length op t flags io.fresh (Operation.fits_of_short fits)
  have room := chosen_fits t req flags chosen asks short
  have small : (t.packet req r).length < 2 ^ 32 := by
    have all := data_length short
    have offset : t.idOffset ≤ 4 := by cases t <;> decide
    rw [packet_length]
    simp only [maxSize] at all
    omega
  rw [getRep_delivered id (size ▸ room) small delivered] at answered
  exact ⟨_, answered⟩

end

/- The documented results. -/

/-- A value with its size if it fits, -1 for a miss, -2 for an error. -/
def valueResult (size : Nat) : Reply → Int × Option Bytes
  | .long _ val => if val.length ≤ size then ((val.length : Int), some val) else (-2, none)
  | .mini _ => (-1, none)
  | .err _ => (-2, none)

def setResult : Reply → Int
  | .mini .ok => 1
  | _ => -1

def delResult : Reply → Int
  | .mini .ok => 1
  | .mini .notin => 0
  | _ => -1

def casResult : Reply → Int
  | .mini .ok => 2
  | .mini .nomatch => 1
  | .mini .notin => 0
  | _ => -1

def incrResult : Reply → Int × Option Int
  | .long _ number => (2, some (toInt64 (bigEndian number)))
  | .mini .nomatch => (1, none)
  | .mini .notin => (0, none)
  | _ => (-1, none)

theorem incrResult_number {n : Int} (fits : InInt64 n) :
    incrResult (.long .ok (bytes64 (htonll (ofInt64 n)))) = (2, some n) := by
  rw [incrResult, bigEndian_htonll (ofInt64_lt n)]
  exact congrArg (fun n => (2, some n)) (wrap64_eq fits)

section

variable {ν : Type} {t : Transport} {req : ReqInfo ν} {r : Reply} {buf : Bytes}

theorem key_answer (id : req.id = htonl ID_CODE) (short : ShortReply r) (size : Nat)
    (chosen : r = .mini .notin ∨ (∃ e, r = .err e) ∨ ∃ k, r = .long .ok k) :
    (answerOf t req r buf).key size = .ok (valueResult size r) := by
  rcases chosen with rfl | ⟨e, rfl⟩ | ⟨k, rfl⟩
  · rfl
  · rfl
  · have small : k.length < 2 ^ 32 := Nat.lt_of_le_of_lt (short _ _ rfl) (by decide)
    have hit : (answerOf t req (.long .ok k) buf).reply = Rep.ok.code := rfl
    unfold Answer.key
    rw [hit, if_neg (by decide), if_neg (by decide), if_neg (by decide)]
    exact value_long id small size

theorem found_answer (id : req.id = htonl ID_CODE) (short : ShortReply r) (size : Nat) {key : Bytes}
    (chosen : Chosen (.get key) r) : (answerOf t req r buf).found size = .ok (valueResult size r) := by
  have value : ∀ rep val, r = .long rep val → rep = .ok ∨ rep = .cacheHit →
      (answerOf t req r buf).found size = .ok (valueResult size r) := by
    rintro rep val rfl code
    have hit : (answerOf t req (.long rep val) buf).reply = rep.code := rfl
    unfold Answer.found
    rw [hit]
    rcases code with rfl | rfl
    · rw [if_neg (by decide), if_neg (by decide), if_neg (by decide)]
      exact value_long id (Nat.lt_of_le_of_lt (short _ _ rfl) (by decide)) size
    · rw [if_neg (by decide), if_neg (by decide), if_neg (by decide)]
      exact value_long id (Nat.lt_of_le_of_lt (short _ _ rfl) (by decide)) size
  cases chosen with
  | cacheHit key val => exact value _ _ rfl (.inr rfl)
  | getOk key val => exact value _ _ rfl (.inl rfl)
  | _ => rfl

variable {io : Io} {flags : Nat} {key : Bytes}

theorem doGet_reply (malloc : io.malloc = true) (sent : io.sent = true) (id : req.id = htonl ID_CODE)
    (short : ShortReply r) (delivered : Delivered t (t.packet req r) io.socket)
    (fits : t.idOffset + ((Operation.get key).message flags).length ≤ SBSIZE) (chosen : Chosen (.get key) r)
    (vsize : Nat) : doGet (some t) io key vsize flags = .ok (valueResult vsize r) := by
  obtain ⟨buf, answered⟩ := exchange_reply malloc sent id fits chosen nofun short delivered
  simp only [Operation.packet] at answered
  rw [doGet, answered, ok_bind]
  exact found_answer id short vsize chosen

theorem doSet_reply {val : Bytes} (malloc : io.malloc = true) (sent : io.sent = true)
    (id : req.id = htonl ID_CODE)
    (short : ShortReply r) (delivered : Delivered t (t.packet req r) io.socket)
    (fits : t.idOffset + ((Operation.set key val).message flags).length ≤ SBSIZE)
    (chosen : Chosen (.set key val) r) :
    doSet (some t) io key val flags = .ok (setResult r) := by
  obtain ⟨buf, answered⟩ := exchange_reply malloc sent id fits chosen nofun short delivered
  simp only [Operation.packet] at answered
  rw [doSet, answered, ok_bind]
  cases chosen <;> rfl

theorem doDel_reply (malloc : io.malloc = true) (sent : io.sent = true) (id : req.id = htonl ID_CODE)
    (short : ShortReply r) (delivered : Delivered t (t.packet req r) io.socket)
    (fits : t.idOffset + ((Operation.del key).message flags).length ≤ SBSIZE) (chosen : Chosen (.del key) r) :
    doDel (some t) io key flags = .ok (delResult r) := by
  obtain ⟨buf, answered⟩ := exchange_reply malloc sent id fits chosen nofun short delivered
  simp only [Operation.packet] at answered
  rw [doDel, answered, ok_bind]
  cases chosen <;> rfl

theorem doCas_reply {oldval newval : Bytes} (malloc : io.malloc = true) (sent : io.sent = true)
    (id : req.id = htonl ID_CODE) (short : ShortReply r) (delivered : Delivered t (t.packet req r) io.socket)
    (fits : t.idOffset + ((Operation.cas key oldval newval).message flags).length ≤ SBSIZE)
    (chosen : Chosen (.cas key oldval newval) r) :
    doCas (some t) io key oldval newval flags = .ok (casResult r) := by
  obtain ⟨buf, answered⟩ := exchange_reply malloc sent id fits chosen nofun short delivered
  simp only [Operation.packet] at answered
  rw [doCas, answered, ok_bind]
  cases chosen <;> rfl

theorem doIncr_reply {increment : Int} (malloc : io.malloc = true) (sent : io.sent = true)
    (id : req.id = htonl ID_CODE) (short : ShortReply r) (delivered : Delivered t (t.packet req r) io.socket)
    (fits : t.idOffset + ((Operation.incr key increment).message flags).length ≤ SBSIZE)
    (chosen : Chosen (.incr key increment) r) :
    doIncr (some t) io key increment flags = .ok (incrResult r) := by
  obtain ⟨buf, answered⟩ := exchange_reply malloc sent id fits chosen nofun short delivered
  simp only [Operation.packet] at answered
  rw [doIncr, answered, ok_bind]
  cases chosen with
  | @incrOk key increment n fits =>
    have number := number_long buf t id .ok fits
    have psize : (Reply.long .ok (bytes64 (htonll (ofInt64 n)))).data.length = 8 + 4 := by
      rw [Reply.data, List.length_append, bytes32_length, bytes64_length]
    rw [incrResult_number fits]
    simp only [answerOf, Reply.code, psize, if_true, number, pure_ok]
  | _ => rfl

theorem nmdbFirstkey_reply (malloc : io.malloc = true) (sent : io.sent = true) (id : req.id = htonl ID_CODE)
    (short : ShortReply r) (delivered : Delivered t (t.packet req r) io.socket) (chosen : Chosen .firstkey r)
    (ksize : Nat) : nmdbFirstkey [t] io ksize = .ok (valueResult ksize r) := by
  have fits : t.idOffset + (Operation.firstkey.message 0).length ≤ SBSIZE := by cases t <;> decide
  obtain ⟨buf, answered⟩ := exchange_reply malloc sent id fits chosen nofun short delivered
  simp only [Operation.packet] at answered
  simp only [nmdbFirstkey, answered, ok_bind]
  refine key_answer id short ksize ?_
  cases chosen with
  | error _ e => exact .inr (.inl ⟨e, rfl⟩)
  | firstkeyNotin => exact .inl rfl
  | firstkeyOk k => exact .inr (.inr ⟨k, rfl⟩)

theorem nmdbNextkey_reply (malloc : io.malloc = true) (sent : io.sent = true) (id : req.id = htonl ID_CODE)
    (short : ShortReply r) (delivered : Delivered t (t.packet req r) io.socket)
    (fits : t.idOffset + ((Operation.nextkey key).message 0).length ≤ SBSIZE) (chosen : Chosen (.nextkey key) r)
    (nksize : Nat) : nmdbNextkey [t] io key nksize = .ok (valueResult nksize r) := by
  obtain ⟨buf, answered⟩ := exchange_reply malloc sent id fits chosen nofun short delivered
  simp only [Operation.packet] at answered
  simp only [nmdbNextkey, answered, ok_bind]
  refine key_answer id short nksize ?_
  cases chosen with
  | error _ e => exact .inr (.inl ⟨e, rfl⟩)
  | nextkeyNotin _ => exact .inl rfl
  | nextkeyOk _ k => exact .inr (.inr ⟨k, rfl⟩)

end

/-- The library reads every reply back as the server meant it. -/
theorem replies_survive {ν : Type} {t : Transport} {req : ReqInfo ν} {r : Reply} {io : Io}
    (malloc : io.malloc = true)
    (sent : io.sent = true) (id : req.id = htonl ID_CODE) (short : ShortReply r)
    (delivered : Delivered t (t.packet req r) io.socket) (flags : Nat) :
    (∀ key vsize, t.idOffset + ((Operation.get key).message flags).length ≤ SBSIZE → Chosen (.get key) r →
      doGet (some t) io key vsize flags = .ok (valueResult vsize r)) ∧
    (∀ key val, t.idOffset + ((Operation.set key val).message flags).length ≤ SBSIZE → Chosen (.set key val) r →
      doSet (some t) io key val flags = .ok (setResult r)) ∧
    (∀ key, t.idOffset + ((Operation.del key).message flags).length ≤ SBSIZE → Chosen (.del key) r →
      doDel (some t) io key flags = .ok (delResult r)) ∧
    (∀ key oldval newval, t.idOffset + ((Operation.cas key oldval newval).message flags).length ≤ SBSIZE →
      Chosen (.cas key oldval newval) r →
      doCas (some t) io key oldval newval flags = .ok (casResult r)) ∧
    (∀ key increment, t.idOffset + ((Operation.incr key increment).message flags).length ≤ SBSIZE →
      Chosen (.incr key increment) r →
      doIncr (some t) io key increment flags = .ok (incrResult r)) ∧
    (∀ ksize, Chosen .firstkey r → nmdbFirstkey [t] io ksize = .ok (valueResult ksize r)) ∧
    (∀ key nksize, t.idOffset + ((Operation.nextkey key).message 0).length ≤ SBSIZE → Chosen (.nextkey key) r →
      nmdbNextkey [t] io key nksize = .ok (valueResult nksize r)) := by
  refine ⟨fun key vsize fits chosen => ?_, fun key val fits chosen => ?_, fun key fits chosen => ?_,
    fun key oldval newval fits chosen => ?_, fun key increment fits chosen => ?_, fun ksize chosen => ?_,
    fun key nksize fits chosen => ?_⟩
  · exact doGet_reply malloc sent id short delivered fits chosen vsize
  · exact doSet_reply malloc sent id short delivered fits chosen
  · exact doDel_reply malloc sent id short delivered fits chosen
  · exact doCas_reply malloc sent id short delivered fits chosen
  · exact doIncr_reply malloc sent id short delivered fits chosen
  · exact nmdbFirstkey_reply malloc sent id short delivered chosen ksize
  · exact nmdbNextkey_reply malloc sent id short delivered fits chosen nksize

/-- A get of the value 07 08 of the key A over TCP, the reply cut behind the length. -/
theorem replies_survive_get :
    doGet (some .tcp) ⟨true, fun _ => 0, true, [some [0, 0, 0, 18], some [0, 0, 0, 1, 0, 0, 8, 1, 0, 0, 0, 2, 7, 8]]⟩
      [65] 64 0 = .ok (2, some [7, 8]) := by
  have packet : Transport.tcp.packet (⟨(), htonl ID_CODE, 0, 0⟩ : ReqInfo Unit) (.long .cacheHit [7, 8]) =
      [0, 0, 0, 18, 0, 0, 0, 1, 0, 0, 8, 1, 0, 0, 0, 2, 7, 8] := by decide
  have short : ShortReply (.long .cacheHit [7, 8]) := by
    rintro rep val ⟨⟩
    decide
  have delivered : Delivered .tcp
    (Transport.tcp.packet (⟨(), htonl ID_CODE, 0, 0⟩ : ReqInfo Unit) (.long .cacheHit [7, 8]))
      [some [0, 0, 0, 18], some [0, 0, 0, 1, 0, 0, 8, 1, 0, 0, 0, 2, 7, 8]] := by
    rw [packet]
    exact ⟨[[0, 0, 0, 18], [0, 0, 0, 1, 0, 0, 8, 1, 0, 0, 0, 2, 7, 8]], rfl, by decide, rfl⟩
  exact (replies_survive rfl rfl rfl short delivered 0).1 [65] 64 (by decide) (.cacheHit [65] [7, 8])

end Nmdb.Library
