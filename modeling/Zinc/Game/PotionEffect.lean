import Zinc.Buffer.RoundTrip

/-! Potion effects. The detail of an effect may hide another detail, in a vector that stands for
an optional value. On the wire a byte on each level says whether a hidden detail follows; only
the first one is written. A chain of details is read back level by level, by induction on the
chain in front of any suffix. -/

namespace Zinc.Game

open Throw Buffer Buffer.ByteBuffer

structure PotionEffectDetail where
  amplifier : BitVec 32
  duration : BitVec 32
  ambient : Bool
  showParticles : Bool
  showIcon : Bool
  hiddenEffect : List PotionEffectDetail

structure PotionEffect where
  type : BitVec 32
  detail : PotionEffectDetail

mutual

def PotionEffectDetail.toBytes : PotionEffectDetail → Except Fault Bytes
  | ⟨amplifier, duration, ambient, showParticles, showIcon, hiddenEffect⟩ => bytesOf do
    writeVarInt amplifier
    writeVarInt duration
    writeByte (boolByte ambient)
    writeByte (boolByte showParticles)
    writeByte (boolByte showIcon)
    writeByte (boolByte !hiddenEffect.isEmpty)
    writeHiddenEffect hiddenEffect

/-- The first hidden detail, if there is one. -/
def writeHiddenEffect : List PotionEffectDetail → Action Unit
  | [] => pure ()
  | hidden :: _ => fun buffer => do
    let bytes ← hidden.toBytes
    writeByteArray bytes buffer

end

def PotionEffect.toBytes (effect : PotionEffect) : Except Fault Bytes := bytesOf do
  writeVarInt effect.type
  fun buffer => do
    let bytes ← effect.detail.toBytes
    writeByteArray bytes buffer

/-- `operator==`. -/
def PotionEffect.equal (effect effect' : PotionEffect) : Except Fault Bool := do
  let bytes ← effect.toBytes
  let bytes' ← effect'.toBytes
  return bytes == bytes'

def writePotionEffect (effect : PotionEffect) : Action Unit := fun buffer => do
  let bytes ← effect.toBytes
  writeByteArray bytes buffer

/-- The fuel bounds the recursion. -/
def readPotionEffectDetail : ℕ → Action PotionEffectDetail
  | 0 => fail .stuck
  | n + 1 => do
    let amplifier ← readVarInt
    let duration ← readVarInt
    let ambient ← readByte
    let showParticles ← readByte
    let showIcon ← readByte
    let hasHidden ← readByte
    let detail := fun hiddenEffect => PotionEffectDetail.mk amplifier duration (ambient ≠ 0)
      (showParticles ≠ 0) (showIcon ≠ 0) hiddenEffect
    if hasHidden ≠ 0 then do
      let hidden ← readPotionEffectDetail n
      pure (detail [hidden])
    else pure (detail [])

def readPotionEffect (n : ℕ) : Action PotionEffect := do
  let type ← readVarInt
  let detail ← readPotionEffectDetail n
  pure { type, detail }

/-! ### Words -/

mutual

def PotionEffectDetail.bytes : PotionEffectDetail → Bytes
  | ⟨amplifier, duration, ambient, showParticles, showIcon, hiddenEffect⟩ =>
    varIntBytes amplifier ++ (varIntBytes duration ++ ([boolByte ambient] ++
      ([boolByte showParticles] ++ ([boolByte showIcon] ++
        ([boolByte !hiddenEffect.isEmpty] ++ hiddenBytes hiddenEffect)))))

def hiddenBytes : List PotionEffectDetail → Bytes
  | [] => []
  | hidden :: _ => hidden.bytes

end

def PotionEffect.bytes (effect : PotionEffect) : Bytes :=
  varIntBytes effect.type ++ effect.detail.bytes

variable {e : Bool} {view : ByteBuffer → Bytes → Prop}

mutual

theorem PotionEffectDetail.toBytes_eq : (detail : PotionEffectDetail) →
    detail.toBytes = .ok detail.bytes
  | ⟨amplifier, duration, ambient, showParticles, showIcon, hiddenEffect⟩ => by
    have hv := writable_fresh true
    rw [PotionEffectDetail.toBytes, PotionEffectDetail.bytes]
    exact bytesOf_eq <| (hv.writeVarInt _).bind <| (hv.writeVarInt _).bind <|
      (hv.writeByte _).bind <| (hv.writeByte _).bind <| (hv.writeByte _).bind <|
        (hv.writeByte _).bind (produces_writeHiddenEffect hiddenEffect)

theorem produces_writeHiddenEffect : (hiddenEffect : List PotionEffectDetail) →
    Produces (Fresh true) (writeHiddenEffect hiddenEffect) (hiddenBytes hiddenEffect)
  | [] => by
    rw [writeHiddenEffect, hiddenBytes]
    exact Produces.pure
  | hidden :: _ => by
    rw [writeHiddenEffect, hiddenBytes, hidden.toBytes_eq]
    exact (writable_fresh true).writeBytes _

end

theorem PotionEffect.toBytes_eq (effect : PotionEffect) : effect.toBytes = .ok effect.bytes := by
  have hv := writable_fresh true
  rw [PotionEffect.toBytes, effect.detail.toBytes_eq]
  exact bytesOf_eq ((hv.writeVarInt _).bind (hv.writeBytes effect.detail.bytes))

theorem produces_writePotionEffect (hv : Writable e view) (effect : PotionEffect) :
    Produces view (writePotionEffect effect) effect.bytes := by
  unfold writePotionEffect
  rw [effect.toBytes_eq]
  exact hv.writeBytes _

/-! ### Chains -/

/-- At most one hidden detail on each level. -/
inductive PotionEffectDetail.Chain : PotionEffectDetail → Prop
  | last (amplifier duration : BitVec 32) (ambient showParticles showIcon : Bool) :
    Chain ⟨amplifier, duration, ambient, showParticles, showIcon, []⟩
  | next (amplifier duration : BitVec 32) (ambient showParticles showIcon : Bool)
    {hidden : PotionEffectDetail} (h : Chain hidden) :
    Chain ⟨amplifier, duration, ambient, showParticles, showIcon, [hidden]⟩

/-- A level of a chain is read if what is hidden behind it is. -/
theorem consumes_level (hv : Readable e view) (amplifier duration : BitVec 32)
    (ambient showParticles showIcon : Bool) {hiddenEffect : List PotionEffectDetail} {n : ℕ}
    (h : Consumes view (if boolByte (!hiddenEffect.isEmpty) ≠ 0 then do
        let hidden ← readPotionEffectDetail n
        pure ⟨amplifier, duration, ambient, showParticles, showIcon, [hidden]⟩
      else pure ⟨amplifier, duration, ambient, showParticles, showIcon, []⟩)
      (hiddenBytes hiddenEffect)
      (⟨amplifier, duration, ambient, showParticles, showIcon, hiddenEffect⟩ :
        PotionEffectDetail)) :
    Consumes view (readPotionEffectDetail (n + 1))
      (PotionEffectDetail.bytes ⟨amplifier, duration, ambient, showParticles, showIcon, hiddenEffect⟩)
      ⟨amplifier, duration, ambient, showParticles, showIcon, hiddenEffect⟩ := by
  rw [PotionEffectDetail.bytes]
  refine (hv.readVarInt amplifier).bind <| (hv.readVarInt duration).bind <|
    (hv.readByte _).bind <| (hv.readByte _).bind <| (hv.readByte _).bind <|
      (hv.readByte _).bind ?_
  rw [boolByte_ne_zero, boolByte_ne_zero, boolByte_ne_zero]
  exact h

/-- From the number of its levels on, a chain is read from its word. -/
theorem consumes_readPotionEffectDetail (hv : Readable e view) {detail : PotionEffectDetail}
    (h : detail.Chain) :
    ∃ bound, ∀ n ≥ bound, Consumes view (readPotionEffectDetail n) detail.bytes detail := by
  induction h with
  | last amplifier duration ambient showParticles showIcon =>
    refine ⟨1, fun n hn => ?_⟩
    obtain ⟨n, rfl⟩ := Nat.exists_eq_add_of_le' hn
    refine consumes_level hv amplifier duration ambient showParticles showIcon ?_
    rw [hiddenBytes]
    exact Consumes.pure _
  | @next amplifier duration ambient showParticles showIcon hidden _ ih =>
    obtain ⟨bound, hbound⟩ := ih
    refine ⟨bound + 1, fun n hn => ?_⟩
    obtain ⟨n, rfl⟩ := Nat.exists_eq_add_of_le' (le_trans (Nat.le_add_left 1 bound) hn)
    refine consumes_level hv amplifier duration ambient showParticles showIcon ?_
    rw [hiddenBytes]
    exact (hbound n (Nat.le_of_succ_le_succ hn)).bind_pure _

theorem consumes_readPotionEffect (hv : Readable e view) {effect : PotionEffect}
    (h : effect.detail.Chain) :
    ∃ bound, ∀ n ≥ bound, Consumes view (readPotionEffect n) effect.bytes effect := by
  obtain ⟨bound, hbound⟩ := consumes_readPotionEffectDetail hv h
  exact ⟨bound, fun n hn => (hv.readVarInt effect.type).bind ((hbound n hn).bind_pure _)⟩

/-- Chains with one word are one chain. -/
theorem PotionEffect.bytes_inj {effect effect' : PotionEffect} (h : effect.detail.Chain)
    (h' : effect'.detail.Chain) : effect.bytes = effect'.bytes ↔ effect = effect' := by
  constructor
  · intro hbytes
    obtain ⟨bound, hbound⟩ := consumes_readPotionEffect (readable_stored true) h
    obtain ⟨bound', hbound'⟩ := consumes_readPotionEffect (readable_stored true) h'
    have hread := hbound (max bound bound') (le_max_left _ _)
    rw [hbytes] at hread
    exact unique_of_consumes hread (hbound' (max bound bound') (le_max_right _ _))
  · rintro rfl
    rfl

/-- An effect comes back, and `operator==` decides equality. -/
theorem PotionEffect.restores_and_equal (e : Bool) (effect : PotionEffect)
    (h : effect.detail.Chain) :
    Restores e (writePotionEffect effect) readPotionEffect (· = effect) ∧
      ∀ effect' : PotionEffect, effect'.detail.Chain →
        ∃ same, effect.equal effect' = .ok same ∧ (same = true ↔ effect = effect') := by
  constructor
  · obtain ⟨bound, hbound⟩ := consumes_readPotionEffect (readable_stored e) h
    exact restores_of_consumes (produces_writePotionEffect (writable_stored e) effect) hbound rfl
  · intro effect' h'
    refine ⟨effect.bytes == effect'.bytes, ?_, ?_⟩
    · rw [PotionEffect.equal, effect.toBytes_eq, effect'.toBytes_eq]
      rfl
    · rw [beq_iff_eq, PotionEffect.bytes_inj h h']

/-- A negative amplifier that hides an infinite duration. -/
theorem PotionEffect.restores_and_equal_two :
    let effect : PotionEffect := ⟨3, -1, 200, true, false, true, [⟨2, -1, false, true, false, []⟩]⟩
    Restores false (writePotionEffect effect) readPotionEffect (· = effect) ∧
      ∀ effect' : PotionEffect, effect'.detail.Chain →
        ∃ same, effect.equal effect' = .ok same ∧ (same = true ↔ effect = effect') :=
  PotionEffect.restores_and_equal false
    ⟨3, -1, 200, true, false, true, [⟨2, -1, false, true, false, []⟩]⟩
    (.next (-1) 200 true false true (.last 2 (-1) false true false))

end Zinc.Game
