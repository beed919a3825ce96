import Nmdb.LibraryRequests

/-! Where the requests of the library are built. The library limits no argument, so a packet lies
inside its buffer exactly where the size computed for the buffer is enough. -/
namespace Nmdb.Library

section

variable {buf buf' b : Bytes} {off n : Nat}

/- A write that goes through lies inside the buffer. -/
theorem poke_ok (done : poke buf off b = .ok buf') :
    off + b.length ≤ buf.length ∧ buf'.length = buf.length := by
  unfold poke at done
  split at done
  case isTrue inside =>
    cases done
    refine ⟨inside, ?_⟩
    simp only [overlay, List.length_append, List.length_take, List.length_drop]
    omega
  · contradiction

theorem newPacket_ok {srv : Option Transport} {request flags : Nat} {payloadSize : Option Nat} {fresh : Mem}
    {x : Option (Bytes × Nat)} (done : newPacket srv request flags payloadSize true fresh = .ok x) :
    ∃ buf, x = some (buf, srvGetMsgOffset srv + 8) ∧
      buf.length = bufsize (srvGetMsgOffset srv) payloadSize := by
  simp only [newPacket, Bool.not_true, Bool.false_eq_true, if_false] at done
  obtain ⟨buf₁, first, done⟩ := bind_eq_ok.mp done
  obtain ⟨buf₂, second, done⟩ := bind_eq_ok.mp done
  obtain ⟨buf₃, third, done⟩ := bind_eq_ok.mp done
  cases done
  refine ⟨buf₃, rfl, ?_⟩
  rw [(poke_ok third).2, (poke_ok second).2, (poke_ok first).2, slice_length]

theorem append1v_ok {datum : Bytes} (done : append1v buf off datum = .ok (buf', n)) :
    n = 4 + datum.length ∧ off + n ≤ buf.length ∧ buf'.length = buf.length := by
  obtain ⟨buf₁, first, done⟩ := bind_eq_ok.mp done
  obtain ⟨buf₂, second, done⟩ := bind_eq_ok.mp done
  cases done
  have inside := poke_ok second
  have before := poke_ok first
  omega

theorem append2v_ok {datum1 datum2 : Bytes} (done : append2v buf off datum1 datum2 = .ok (buf', n)) :
    n = 8 + datum1.length + datum2.length ∧ off + n ≤ buf.length ∧ buf'.length = buf.length := by
  obtain ⟨buf₁, first, done⟩ := bind_eq_ok.mp done
  obtain ⟨buf₂, second, done⟩ := bind_eq_ok.mp done
  obtain ⟨buf₃, third, done⟩ := bind_eq_ok.mp done
  obtain ⟨buf₄, fourth, done⟩ := bind_eq_ok.mp done
  cases done
  have inside := poke_ok fourth
  have before₃ := poke_ok third
  have before₂ := poke_ok second
  have before₁ := poke_ok first
  omega

theorem append3v_ok {datum1 datum2 datum3 : Bytes}
    (done : append3v buf off datum1 datum2 datum3 = .ok (buf', n)) :
    n = 12 + datum1.length + datum2.length + datum3.length ∧ off + n ≤ buf.length ∧
      buf'.length = buf.length := by
  obtain ⟨buf₁, first, done⟩ := bind_eq_ok.mp done
  obtain ⟨buf₂, second, done⟩ := bind_eq_ok.mp done
  obtain ⟨buf₃, third, done⟩ := bind_eq_ok.mp done
  obtain ⟨buf₄, fourth, done⟩ := bind_eq_ok.mp done
  obtain ⟨buf₅, fifth, done⟩ := bind_eq_ok.mp done
  obtain ⟨buf₆, sixth, done⟩ := bind_eq_ok.mp done
  cases done
  have inside := poke_ok sixth
  have before₅ := poke_ok fifth
  have before₄ := poke_ok fourth
  have before₃ := poke_ok third
  have before₂ := poke_ok second
  have before₁ := poke_ok first
  omega

end

section

variable {srv : Option Transport} {flags : Nat} {fresh : Mem} {x : Option (Bytes × Nat)}

/- What is appended to a new packet that goes through lies inside its buffer. -/
theorem appended_ok {request : Nat} {payloadSize : Option Nat} {size : Nat}
    (append : Bytes → Nat → Except Fault (Bytes × Nat))
    (appends : ∀ buf off buf' n, append buf off = .ok (buf', n) →
      n = size ∧ off + n ≤ buf.length ∧ buf'.length = buf.length)
    (done : (newPacket srv request flags payloadSize true fresh >>= fun
        | none => pure none
        | some (buf, payloadOffset) => append buf payloadOffset >>= fun (buf, n) =>
          pure (some (buf, payloadOffset + n))) = .ok x) :
    srvGetMsgOffset srv + 8 + size ≤ bufsize (srvGetMsgOffset srv) payloadSize := by
  obtain ⟨packet, made, done⟩ := bind_eq_ok.mp done
  obtain ⟨buf, rfl, length⟩ := newPacket_ok made
  obtain ⟨⟨buf', n⟩, appended, _⟩ := bind_eq_ok.mp done
  obtain ⟨rfl, inside, _⟩ := appends _ _ _ _ appended
  rwa [length] at inside

theorem keyPacket_ok {request : Nat} {payloadSize : Option Nat} {key : Bytes}
    (done : keyPacket srv request flags payloadSize true fresh key = .ok x) :
    srvGetMsgOffset srv + 8 + (4 + key.length) ≤ bufsize (srvGetMsgOffset srv) payloadSize :=
  appended_ok (append1v · · key) (fun _ _ _ _ => append1v_ok) done

/- A buffer with room for what its size was computed from. -/
theorem fits_of_bufsize {moff payloadSize : Nat}
    (room : moff + 8 + payloadSize ≤ bufsize moff (some payloadSize)) :
    moff + (8 + payloadSize) < 2 ^ 64 := by
  simp only [bufsize] at room
  split at room
  · omega
  · omega

/- The increment is written behind the key. -/
theorem incrPacket_ok {key : Bytes} {increment : Int} (done : incrPacket srv true fresh key increment flags = .ok x) :
    srvGetMsgOffset srv + 8 + (4 + key.length + 8) ≤
      bufsize (srvGetMsgOffset srv) (some (4 + key.length + 8)) := by
  obtain ⟨packet, made, done⟩ := bind_eq_ok.mp done
  obtain ⟨buf, rfl, length⟩ := newPacket_ok made
  obtain ⟨⟨buf', n⟩, appended, done⟩ := bind_eq_ok.mp done
  obtain ⟨rfl, _, same⟩ := append1v_ok appended
  obtain ⟨buf'', written, _⟩ := bind_eq_ok.mp done
  have inside := (poke_ok written).1
  rw [same, length, bytes64_length] at inside
  omega

/- Without a server the packet is laid out as for UDP. -/
theorem packet_offset (op : Operation) (srv : Option Transport) (ok : Bool) (flags : Nat) (fresh : Mem) :
    op.packet srv ok flags fresh = op.packet (some (srv.getD .udp)) ok flags fresh := by
  cases srv with
  | none => cases op <;> rfl
  | some t => rfl

/-- A packet that was built had the room. -/
theorem fits_of_packet {op : Operation} {t : Transport} (done : op.packet (some t) true flags fresh = .ok x) :
    op.Fits t := by
  have moff := srvGetMsgOffset_some t
  have offset : t.idOffset ≤ 4 := by cases t <;> decide
  cases op with
  | get key =>
    have room := keyPacket_ok done
    simp only [moff, bufsize] at room
    simp only [Operation.Fits, Operation.payload, List.length_append, bytes32_length, SBSIZE]
    omega
  | nextkey key =>
    have room := keyPacket_ok done
    simp only [moff, bufsize] at room
    simp only [Operation.Fits, Operation.payload, List.length_append, bytes32_length, SBSIZE]
    omega
  | del key =>
    have room := fits_of_bufsize (keyPacket_ok done)
    rw [moff] at room
    simpa only [Operation.Fits, Operation.payload, List.length_append, bytes32_length] using room
  | set key val =>
    have room := fits_of_bufsize (appended_ok (append2v · · key val) (fun _ _ _ _ => append2v_ok) done)
    rw [moff] at room
    simpa only [Operation.Fits, Operation.payload, List.length_append, bytes32_length] using room
  | cas key oldval newval =>
    have room := fits_of_bufsize
      (appended_ok (append3v · · key oldval newval) (fun _ _ _ _ => append3v_ok) done)
    rw [moff] at room
    simpa only [Operation.Fits, Operation.payload, List.length_append, bytes32_length] using room
  | incr key increment =>
    have room := fits_of_bufsize (incrPacket_ok done)
    rw [moff] at room
    simpa only [Operation.Fits, Operation.payload, List.length_append, bytes32_length,
      bytes64_length] using room
  | firstkey =>
    simp only [Operation.Fits, Operation.payload, List.length_nil]
    omega
  | stats =>
    simp only [Operation.Fits, Operation.payload, List.length_nil]
    omega

end

/- Without memory nothing is written. -/
theorem packet_refused (op : Operation) (srv : Option Transport) (flags : Nat) (fresh : Mem) :
    op.packet srv false flags fresh = .ok none := by
  cases op <;> rfl

/-- A request is built inside its buffer, or refused before anything is written, exactly where
it fits. -/
theorem requests_in_bounds_iff (op : Operation) (srv : Option Transport) (flags : Nat) :
    (∀ ok fresh, ∃ x, op.packet srv ok flags fresh = .ok x) ↔ op.Fits (srv.getD .udp) := by
  constructor
  · intro inside
    obtain ⟨x, built⟩ := inside true fun _ => 0
    rw [packet_offset] at built
    exact fits_of_packet built
  · intro fits ok fresh
    cases ok with
    | false => exact ⟨none, packet_refused op srv flags fresh⟩
    | true =>
      obtain ⟨room, _, built⟩ := packet_built op (srv.getD .udp) flags fresh fits
      rw [packet_offset]
      exact ⟨_, built⟩

/-- The packet of a get whose key is longer than the buffer made for its reply is not. -/
theorem get_out_of_bounds :
    ¬ ∃ fresh x, (Operation.get (List.replicate 69621 0)).packet (some .udp) true 0 fresh = .ok x := by
  have outside : ∀ key : Bytes, key.length = 69621 → ¬ (Operation.get key).Fits .udp := by
    intro key size fits
    simp only [Operation.Fits, Operation.payload, List.length_append, bytes32_length,
      Transport.idOffset, SBSIZE] at fits
    omega
  rintro ⟨fresh, x, built⟩
  exact outside _ List.length_replicate (fits_of_packet built)

end Nmdb.Library
