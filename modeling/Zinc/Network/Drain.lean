import Zinc.Network.Session
import Zinc.Network.Standing
import Zinc.Network.Stream

/-! What one call of `onRead` takes from the input. `read` clears the flag to go on, and
of all handlers only that of Handshake sets it again, so a call handles one packet, or
two if the first one is a Handshake. Whole frames behind these stay in the input until
more data comes. -/

namespace Zinc.Network

open Throw Traced Buffer Buffer.ByteBuffer ZincConnection

variable {host : Host} {moments : ℕ → Moment} {fuel : ℕ} {online online' : ℤ}
  {c c₀ c' : ZincConnection} {packet : ZincPacket} {dispatched : List ZincPacket} {isCompressed : Bool}

/-- `onRead` with the packets that it handles. -/
def onReadDispatching (host : Host) (moments : ℕ → Moment) : ℕ → ℤ → ZincConnection →
    Except Fault (List ZincPacket × ZincConnection × ℤ)
  | 0, _, _ => .error .stuck
  | fuel + 1, online, connection => do
    let (packet, connection) ← (connection.read host.libs).result
    if packet.id.msb then return ([], connection, online)
    else
      let handled ← switch host (moments fuel) online packet connection
      let online := onlineAfter packet connection online
      if handled.returned then return ([packet], handled.connection, online)
      else
        let rest ← TCPUtil.read handled.connection.input
        if rest.size ≠ 0 ∧ handled.connection.shouldContinue then
          let (dispatched, connection, online) ←
            onReadDispatching host moments fuel online handled.connection
          return (packet :: dispatched, { connection with shouldContinue := true }, online)
        else return ([packet], { handled.connection with shouldContinue := true }, online)

/-- Without the packets it is `onRead`. -/
theorem onRead_eq_map (host : Host) (moments : ℕ → Moment) (fuel : ℕ) (online : ℤ) (c : ZincConnection) :
    onRead host moments fuel online c = (onReadDispatching host moments fuel online c).map Prod.snd := by
  induction fuel generalizing online c with
  | zero => rfl
  | succ fuel ih =>
    rw [onRead, onReadDispatching]
    cases (c.read host.libs).result with
    | error e => rfl
    | ok p =>
      simp only [ok_bind]
      split
      · rfl
      cases switch host (moments fuel) online p.1 p.2 with
      | error e => rfl
      | ok handled =>
        simp only [ok_bind]
        split
        · rfl
        cases TCPUtil.read handled.connection.input with
        | error e => rfl
        | ok rest =>
          simp only [ok_bind]
          split
          · rw [ih]
            cases onReadDispatching host moments fuel (onlineAfter p.1 p.2 online)
              handled.connection <;> rfl
          · rfl

/-! ### One packet -/

theorem size_of_read {input : Bytes} {rest : ByteBuffer} (h : TCPUtil.read input = .ok rest) :
    rest.size = input.length := by
  obtain ⟨hwrite, hfresh⟩ := writeBytes_new input
  unfold TCPUtil.read at h
  split at h
  · cases h
  · rw [hwrite] at h
    cases h
    exact hfresh.size

theorem length_le_of_read {libs : Libraries} {q : ZincPacket × ZincConnection}
    (h : (c.read libs).result = .ok q) : c.input.length ≤ maxSize := by
  by_contra hlt
  rw [read_eq, plain, if_pos (Nat.not_le.mp hlt)] at h
  cases h

/-- A packet that makes the call wait. -/
theorem dispatching_of_negative (hread : (c.read host.libs).result = .ok (packet, c₀))
    (hid : packet.id.msb = true)
    (h : onReadDispatching host moments (fuel + 1) online c = .ok (dispatched, c', online')) :
    dispatched = [] ∧ c' = c₀ := by
  rw [onReadDispatching, hread, ok_bind] at h
  dsimp only at h
  rw [if_pos hid] at h
  cases h
  exact ⟨rfl, rfl⟩

/-- A packet whose handler does not set the flag is the last one. -/
theorem dispatching_stops (hread : (c.read host.libs).result = .ok (packet, c₀))
    (hid : packet.id.msb = false) (hflag : c₀.shouldContinue = false)
    (hother : ¬ (c₀.state = .handshake ∧ packet.id = 0))
    (h : onReadDispatching host moments (fuel + 1) online c = .ok (dispatched, c', online')) :
    dispatched = [packet] ∧ c'.input = c₀.input := by
  rw [onReadDispatching, hread, ok_bind] at h
  dsimp only at h
  rw [if_neg (by simp [hid])] at h
  obtain ⟨handled, hswitch, h⟩ := bind_eq_ok.mp h
  have hstands := switch_stands online packet c₀ handled hswitch
  have hinput : handled.connection.input = c₀.input := congrArg Standing.input hstands
  have hcontinue : handled.connection.shouldContinue = false := by
    have hcontinue := congrArg Standing.shouldContinue hstands
    rw [standingAfter, if_neg hother] at hcontinue
    exact hcontinue.trans hflag
  split at h
  · cases h
    exact ⟨rfl, hinput⟩
  obtain ⟨rest, -, h⟩ := bind_eq_ok.mp h
  rw [if_neg (fun hgo => by simp [hcontinue] at hgo)] at h
  cases h
  exact ⟨rfl, hinput⟩

/-- What a Handshake leaves behind. -/
theorem handshake_eq_ok {data : ByteBuffer} (h : handshake data c = .ok c') :
    c'.state ≠ .handshake ∧ c'.input = c.input ∧ c'.isEncrypted = c.isEncrypted ∧
      c'.isCompressed = c.isCompressed ∧ c'.shouldContinue = true := by
  unfold handshake at h
  obtain ⟨⟨protocolVersion, data₁⟩, -, h⟩ := bind_eq_ok.mp h
  obtain ⟨⟨serverAddr, data₂⟩, -, h⟩ := bind_eq_ok.mp h
  obtain ⟨⟨serverPort, data₃⟩, -, h⟩ := bind_eq_ok.mp h
  obtain ⟨⟨state, data₄⟩, -, h⟩ := bind_eq_ok.mp h
  cases h
  refine ⟨?_, rfl, rfl, rfl, rfl⟩
  obtain h | h | h := handshakeState_cases state <;> simp [h]

/-- Behind a Handshake the call goes on if there is more input. -/
theorem dispatching_handshake (hread : (c.read host.libs).result = .ok (packet, c₀))
    (hid : packet.id = 0) (hstate : c₀.state = .handshake)
    (h : onReadDispatching host moments (fuel + 1) online c = .ok (dispatched, c', online')) :
    ∃ c₁ : ZincConnection, c₁.state ≠ .handshake ∧ c₁.input = c₀.input ∧
      c₁.isEncrypted = c₀.isEncrypted ∧ c₁.isCompressed = c₀.isCompressed ∧
      ((c₀.input = [] ∧ dispatched = [packet] ∧ c'.input = []) ∨
        (c₀.input ≠ [] ∧ ∃ later c'',
          onReadDispatching host moments fuel online c₁ = .ok (later, c'', online') ∧
          dispatched = packet :: later ∧ c'.input = c''.input)) := by
  rw [onReadDispatching, hread, ok_bind] at h
  dsimp only at h
  rw [if_neg (by simp [hid])] at h
  obtain ⟨handled, hswitch, h⟩ := bind_eq_ok.mp h
  unfold switch at hswitch
  rw [hstate] at hswitch
  dsimp only at hswitch
  rw [if_pos hid] at hswitch
  obtain ⟨c₁, hhandshake, hhandled⟩ := bind_eq_ok.mp hswitch
  cases hhandled
  obtain ⟨hstate₁, hinput, hencrypted, hcompressed, hcontinue⟩ := handshake_eq_ok hhandshake
  have honline : onlineAfter packet c₀ online = online := if_neg (by simp [hstate])
  refine ⟨c₁, hstate₁, hinput, hencrypted, hcompressed, ?_⟩
  dsimp only at h
  rw [if_neg Bool.false_ne_true, honline] at h
  obtain ⟨rest, hrest, h⟩ := bind_eq_ok.mp h
  rw [size_of_read hrest, hinput] at h
  split at h
  next hgo =>
    obtain ⟨⟨later, c'', online''⟩, hlater, h⟩ := bind_eq_ok.mp h
    cases h
    refine .inr ⟨?_, later, c'', hlater, rfl, rfl⟩
    rintro hnil
    rw [hnil] at hgo
    exact hgo.1 rfl
  next hstop =>
    have hnil : c₀.input = [] := by
      by_contra hne
      exact hstop ⟨List.length_pos_iff.mpr hne |>.ne', hcontinue⟩
    cases h
    exact .inl ⟨hnil, rfl, hnil⟩

/-! ### Frames -/

/-- The call on a whole frame at the front of the input. -/
theorem read_framed (packet : Framed host.libs isCompressed) {rest : Bytes}
    (hencrypted : c.isEncrypted = false) (hcompressed : c.isCompressed = isCompressed)
    (hinput : c.input = packet.frame ++ rest) (hlen : c.input.length ≤ maxSize) :
    (c.read host.libs).result = .ok (packetOf packet.id packet.data,
      { c with input := rest, shouldContinue := false }) := by
  rw [read_frame host.libs hencrypted packet.length_lt hinput hlen, hcompressed,
    result_of_frameOf packet.frameOf packet.length_lt]
  rfl

/-- A call that takes nothing from a part of a frame has waited. -/
theorem waits_of_input_eq {libs : Libraries} (hencrypted : c.isEncrypted = false)
    (hread : (c.read libs).result = .ok (packet, c₀)) (hne : c.input ≠ []) (hinput : c₀.input = c.input) :
    Waits libs c := by
  have hlen := length_le_of_read hread
  rw [waits_iff_lt libs hencrypted hlen]
  by_contra hlt
  rw [read_of_not_encrypted libs hencrypted hlen, readPlain_of_le (Nat.not_lt.mp hlt), result_bind]
    at hread
  obtain ⟨q, -, hpair⟩ := bind_eq_ok.mp hread
  have hdrop := congrArg (fun p => p.2.input.length) (Except.ok.inj hpair)
  have hpos := Base128.size_pos (varInt (memory c.input)).toNat
  have hlength := List.length_pos_iff.mpr hne
  rw [hinput] at hdrop
  simp only [List.length_drop] at hdrop
  omega

theorem read_nil_ne_ok {libs : Libraries} {q : ZincPacket × ZincConnection}
    (hencrypted : c.isEncrypted = false) (hinput : c.input = []) : (c.read libs).result ≠ .ok q := by
  intro hread
  have hpart : PartialFrame 0 [] := ⟨[], rfl, List.nil_prefix, by decide⟩
  have hzero : toSize (varInt (memory [])) = 0 := by
    rw [toSize_of_incomplete (by decide) hpart]
    split <;> rfl
  rw [read_of_not_encrypted libs hencrypted (length_le_of_read hread), hinput,
    readPlain_of_le (by rw [hzero]; exact Nat.zero_le _), result_bind, hzero, result_frameBody_zero]
    at hread
  cases hread

/-- A packet that is handled is reported. -/
theorem dispatching_ne_nil (hread : (c.read host.libs).result = .ok (packet, c₀))
    (hid : packet.id.msb = false)
    (h : onReadDispatching host moments (fuel + 1) online c = .ok (dispatched, c', online')) :
    dispatched ≠ [] := by
  rw [onReadDispatching, hread, ok_bind] at h
  dsimp only at h
  rw [if_neg (by simp [hid])] at h
  obtain ⟨handled, -, h⟩ := bind_eq_ok.mp h
  split at h
  · cases h
    exact List.cons_ne_nil _ _
  obtain ⟨rest, -, h⟩ := bind_eq_ok.mp h
  split at h
  · obtain ⟨⟨later, c'', online''⟩, -, h⟩ := bind_eq_ok.mp h
    cases h
    exact List.cons_ne_nil _ _
  · cases h
    exact List.cons_ne_nil _ _

/-! ### What is drained -/

/-- All packets were handled in order, and a given rest is left in the input. -/
def Drained (packets : List (Framed host.libs isCompressed)) (rest : Bytes)
    (dispatched : List ZincPacket) (input : Bytes) : Prop :=
  dispatched.map (fun packet => (packet.id, packet.data.getBytes)) = packets.map Framed.content ∧
    input = rest

/-- The packet is a Handshake for a connection that waits for one. -/
def IsHandshake (c : ZincConnection) (packet : Framed host.libs isCompressed) : Prop :=
  c.state = .handshake ∧ packet.id = 0

/-- One packet, or two if the first one is a Handshake; and if the last look at the input
is one at the part of a frame, then more than there is has to be missing. -/
def Drains (c : ZincConnection) (packets : List (Framed host.libs isCompressed)) (length : ℕ)
    (rest : Bytes) : Prop :=
  match packets with
  | [] => rest = [] ∨ SeesMore length rest
  | [packet] => IsHandshake c packet → rest = [] ∨ SeesMore length rest
  | [packet, _] => IsHandshake c packet
  | _ => False

variable {packets : List (Framed host.libs isCompressed)} {length : ℕ} {rest : Bytes}

theorem drained_cons {framed : Framed host.libs isCompressed} {later : List ZincPacket}
    {input : Bytes} :
    Drained (framed :: packets) rest (packetOf framed.id framed.data :: later) input ↔
      Drained packets rest later input := by
  have hbytes : (packetOf framed.id framed.data).data.getBytes = framed.data :=
    (writeBytes_new framed.data).2.getBytes
  have hhead : ((packetOf framed.id framed.data).id, framed.data) = framed.content := rfl
  rw [Drained, Drained, List.map_cons, List.map_cons, hbytes, List.cons_eq_cons, and_iff_right hhead]

/-- The call finds a part of a frame. -/
theorem drained_nil_iff (hencrypted : c.isEncrypted = false) (hmax : length < 2 ^ 31)
    (hpart : PartialFrame length rest) (hinput : c.input = rest)
    (h : onReadDispatching host moments (fuel + 1) online c = .ok (dispatched, c', online')) :
    Drained ([] : List (Framed host.libs isCompressed)) rest dispatched c'.input ↔
      rest = [] ∨ SeesMore length rest := by
  obtain ⟨⟨packet, c₀⟩, hread, -⟩ := bind_eq_ok.mp h
  rw [← hinput] at hpart ⊢
  constructor
  · rintro ⟨hnil, heq⟩
    obtain rfl := List.map_eq_nil_iff.mp hnil
    by_cases hne : c.input = []
    · exact .inl hne
    · cases hid : packet.id.msb with
      | false => exact absurd rfl (dispatching_ne_nil hread hid h)
      | true =>
        obtain ⟨-, rfl⟩ := dispatching_of_negative hread hid h
        exact .inr ((waits_iff host.libs hencrypted hmax hpart).mp
          (waits_of_input_eq hencrypted hread hne heq))
  · rintro (hnil | hmore)
    · exact absurd hread (read_nil_ne_ok hencrypted hnil)
    · have hwaits := (waits_iff host.libs hencrypted hmax hpart).mpr hmore
      obtain ⟨rfl, rfl⟩ := dispatching_of_negative hwaits rfl h
      exact ⟨rfl, rfl⟩

/-- The call handles the first packet and stops. -/
theorem drained_cons_iff_of_stops {framed : Framed host.libs isCompressed}
    (hencrypted : c.isEncrypted = false) (hcompressed : c.isCompressed = isCompressed)
    (hinput : c.input = frames (framed :: packets) ++ rest) (hother : ¬ IsHandshake c framed)
    (h : onReadDispatching host moments (fuel + 1) online c = .ok (dispatched, c', online')) :
    Drained (framed :: packets) rest dispatched c'.input ↔ packets = [] := by
  obtain ⟨q, hq, -⟩ := bind_eq_ok.mp h
  rw [frames, List.flatMap_cons, List.append_assoc] at hinput
  have hread := read_framed framed hencrypted hcompressed hinput (length_le_of_read hq)
  obtain ⟨rfl, hleft⟩ := dispatching_stops hread framed.id_nonneg rfl hother h
  rw [drained_cons, hleft]
  constructor
  · rintro ⟨hnil, -⟩
    exact List.map_eq_nil_iff.mp hnil.symm
  · rintro rfl
    exact ⟨rfl, rfl⟩

theorem frames_cons (framed : Framed host.libs isCompressed)
    (packets : List (Framed host.libs isCompressed)) :
    frames (framed :: packets) = framed.frame ++ frames packets := List.flatMap_cons

theorem frame_ne_nil (framed : Framed host.libs isCompressed) : framed.frame ≠ [] := by
  have hpos := Base128.size_pos (BitVec.ofNat 32 framed.body.length).toNat
  apply List.ne_nil_of_length_pos
  rw [Framed.frame, List.length_append, header, length_intBytes]
  omega

/-- The input behind a Handshake is empty only if nothing came with it. -/
theorem eq_nil_of_frames {input : Bytes} (hinput : frames packets ++ rest = input) (h : input = []) :
    packets = [] ∧ rest = [] := by
  rw [h] at hinput
  obtain ⟨hframes, hrest⟩ := List.append_eq_nil_iff.mp hinput
  cases packets with
  | nil => exact ⟨rfl, hrest⟩
  | cons framed packets =>
    rw [frames_cons] at hframes
    exact absurd (List.append_eq_nil_iff.mp hframes).1 (frame_ne_nil framed)

/-- A call for a connection that does not wait for a Handshake. -/
theorem drained_iff_of_state (hencrypted : c.isEncrypted = false)
    (hcompressed : c.isCompressed = isCompressed) (hmax : length < 2 ^ 31)
    (hpart : PartialFrame length rest) (hinput : c.input = frames packets ++ rest)
    (hstate : c.state ≠ .handshake)
    (h : onReadDispatching host moments fuel online c = .ok (dispatched, c', online')) :
    Drained packets rest dispatched c'.input ↔
      (packets = [] ∧ (rest = [] ∨ SeesMore length rest)) ∨ packets.length = 1 := by
  cases fuel with
  | zero => cases h
  | succ fuel =>
    cases packets with
    | nil =>
      rw [drained_nil_iff hencrypted hmax hpart hinput h]
      simp
    | cons framed packets =>
      rw [drained_cons_iff_of_stops hencrypted hcompressed hinput (fun hh => hstate hh.1) h]
      simp

/-- One call of `onRead` leaves no whole frame behind exactly if there are no more than
one packet, or two behind a Handshake. -/
theorem drained_iff (hencrypted : c.isEncrypted = false) (hcompressed : c.isCompressed = isCompressed)
    (hmax : length < 2 ^ 31) (hpart : PartialFrame length rest)
    (hinput : c.input = frames packets ++ rest)
    (h : onReadDispatching host moments fuel online c = .ok (dispatched, c', online')) :
    onRead host moments fuel online c = .ok (c', online') ∧
      (Drained packets rest dispatched c'.input ↔ Drains c packets length rest) := by
  refine ⟨by rw [onRead_eq_map, h]; rfl, ?_⟩
  cases fuel with
  | zero => cases h
  | succ fuel =>
    cases packets with
    | nil => exact drained_nil_iff hencrypted hmax hpart hinput h
    | cons framed packets =>
      by_cases hhandshake : IsHandshake c framed
      · obtain ⟨q, hq, -⟩ := bind_eq_ok.mp h
        have hinput' := hinput
        rw [frames_cons, List.append_assoc] at hinput'
        have hread := read_framed framed hencrypted hcompressed hinput' (length_le_of_read hq)
        obtain ⟨c₁, hstate₁, hinput₁, hencrypted₁, hcompressed₁, hstop | hgo⟩ :=
          dispatching_handshake hread hhandshake.2 hhandshake.1 h
        · obtain ⟨hnil, rfl, hleft⟩ := hstop
          obtain ⟨rfl, rfl⟩ := eq_nil_of_frames rfl hnil
          rw [drained_cons, hleft]
          exact iff_of_true ⟨rfl, rfl⟩ fun _ => .inl rfl
        · obtain ⟨-, later, c'', hlater, rfl, hleft⟩ := hgo
          rw [drained_cons, hleft, drained_iff_of_state (hencrypted₁.trans hencrypted)
            (hcompressed₁.trans hcompressed) hmax hpart hinput₁ hstate₁ hlater]
          match packets with
          | [] => simp [Drains, hhandshake]
          | [_] => simp [Drains, hhandshake]
          | _ :: _ :: _ => simp [Drains]
      · rw [drained_cons_iff_of_stops hencrypted hcompressed hinput hhandshake h]
        match packets with
        | [] => simp [Drains, hhandshake]
        | [_] => simp [Drains, hhandshake]
        | _ :: _ :: _ => simp [Drains]

/-! ### Two packets that come together -/

/-- A connection that ignores its packets. -/
def ignoring (input : Bytes) : ZincConnection := { waiting input with state := .transfer }

/-- One packet is handled, and the call returns. -/
theorem dispatching_ignoring (framed : Framed copying false) {rest : Bytes}
    (hlen : (framed.frame ++ rest).length ≤ maxSize) :
    onReadDispatching sampleHost (fun _ => sampleMoment []) 1 0 (ignoring (framed.frame ++ rest)) =
      .ok ([packetOf framed.id framed.data], ignoring rest, 0) := by
  have hread := @read_framed sampleHost (ignoring (framed.frame ++ rest)) false framed rest rfl rfl rfl hlen
  have hrest : rest.length ≤ maxSize := by
    rw [List.length_append] at hlen
    omega
  have htcp : TCPUtil.read rest = .ok (ofBytes rest) := by
    rw [TCPUtil.read, if_neg (Nat.not_lt.mpr hrest), (writeBytes_new rest).1]
    rfl
  have hid : ¬ (packetOf framed.id framed.data).id.msb = true := by
    rw [packetOf, framed.id_nonneg]
    exact Bool.false_ne_true
  rw [onReadDispatching, hread, ok_bind]
  dsimp only
  rw [if_neg hid]
  change (TCPUtil.read rest >>= _) = _
  rw [htcp, ok_bind, if_neg (fun hgo => Bool.false_ne_true hgo.2)]
  rfl

/-- A frame with the id 0 and no data. -/
def emptyPacket : Framed copying false := ⟨0, [], [0], .plain, rfl, by decide⟩

theorem drained_ignoring : ∃ dispatched,
    onRead sampleHost (fun _ => sampleMoment []) 1 0 (ignoring (emptyPacket.frame ++ [])) =
      .ok (ignoring [], 0) ∧ @Drained sampleHost false [emptyPacket] [] dispatched [] := by
  have hcall := dispatching_ignoring emptyPacket (show (emptyPacket.frame ++ []).length ≤ maxSize by decide)
  have hpart : PartialFrame 0 [] := ⟨[], rfl, List.nil_prefix, by decide⟩
  have hdrained := @drained_iff sampleHost _ 1 0 0 _ _ _ false [emptyPacket] 0 [] rfl rfl (by decide)
    hpart rfl hcall
  exact ⟨_, hdrained.1, hdrained.2.mpr fun _ => .inl rfl⟩

/-- Of two packets that come together the second one stays in the input. -/
theorem not_drained : ¬ ∀ (host : Host) (moments : ℕ → Moment) (fuel : ℕ) (online online' : ℤ)
    (c c' : ZincConnection) (dispatched : List ZincPacket)
    (packets : List (Framed host.libs c.isCompressed)) (length : ℕ) (rest : Bytes),
    c.isEncrypted = false → length < 2 ^ 31 → PartialFrame length rest →
    c.input = frames packets ++ rest →
    onReadDispatching host moments fuel online c = .ok (dispatched, c', online') →
    Drained packets rest dispatched c'.input := by
  intro h
  have hcall := dispatching_ignoring emptyPacket
    (show (emptyPacket.frame ++ (emptyPacket.frame ++ [])).length ≤ maxSize by decide)
  have hpart : PartialFrame 0 [] := ⟨[], rfl, List.nil_prefix, by decide⟩
  have hdrained := h sampleHost _ 1 0 0 (ignoring _) _ _ [emptyPacket, emptyPacket] 0 [] rfl (by decide) hpart rfl
    hcall
  have hlength : 1 = 2 := congrArg List.length hdrained.1
  exact absurd hlength (by decide)

end Zinc.Network
