import Zinc.Base.Cfb8
import Zinc.Buffer.Internal

/-! The library code behind a connection, with the libraries themselves as
parameters: the block cipher as the first byte of the block it computes from a
key and a register, and the two directions of zlib. `AESWrapper` keeps a key and
a register and replaces the register by the one behind each piece of data. -/

namespace Zinc.Network

open Buffer

/-- OpenSSL and zlib as the repository uses them. -/
structure Libraries where
  /-- The first byte of the encrypted register under a key. -/
  cipher : Bytes → Bytes → UInt8
  /-- `zng_compressBound`. -/
  compressBound : ℕ → ℕ
  /-- The output of `zng_compress2`, if it returns `Z_OK`. -/
  compress2 : Bytes → Option Bytes
  /-- The output of `zng_uncompress2` for a number of bytes, if it returns `Z_OK`. -/
  uncompress2 : Bytes → ℕ → Option Bytes

structure AESWrapper where
  key : Bytes
  iv : Bytes
  isKeySet : Bool
  isIVSet : Bool
  deriving DecidableEq

namespace AESWrapper

def new : AESWrapper := ⟨[], zeros 16, false, false⟩

def setKey (key : Bytes) (aes : AESWrapper) : AESWrapper :=
  if key.length = 16 ∨ key.length = 24 ∨ key.length = 32 then { aes with key, isKeySet := true }
  else aes

def setIV (iv : Bytes) (aes : AESWrapper) : AESWrapper :=
  if iv.length = 16 then { aes with iv, isIVSet := true } else aes

/-- `processCFB8` in the direction of `crypt`. The length is passed on as an
`int`, so a longer piece has no defined result. -/
def processCFB8 (crypt : (Bytes → UInt8) → Bytes → Bytes → Bytes × Bytes) (libs : Libraries)
    (data : Bytes) (aes : AESWrapper) : Except Fault (Bytes × AESWrapper) :=
  if ¬ (aes.isKeySet ∧ aes.isIVSet) then .ok ([], aes)
  else if ¬ (aes.key.length = 16 ∨ aes.key.length = 24 ∨ aes.key.length = 32) then .ok ([], aes)
  else if 2 ^ 31 ≤ data.length then .error .undefined
  else
    let (out, iv) := crypt (libs.cipher aes.key) aes.iv data
    .ok (out, { aes with iv })

def encryptCFB8 (libs : Libraries) (data : Bytes) (aes : AESWrapper) :
    Except Fault (Bytes × AESWrapper) :=
  aes.processCFB8 (fun keySymbol => Cfb8.encrypt keySymbol (· ^^^ ·)) libs data

def decryptCFB8 (libs : Libraries) (data : Bytes) (aes : AESWrapper) :
    Except Fault (Bytes × AESWrapper) :=
  aes.processCFB8 (fun keySymbol => Cfb8.decrypt keySymbol (· ^^^ ·)) libs data

theorem length_decryptCFB8 {libs : Libraries} {data out : Bytes} {aes aes' : AESWrapper}
    (h : aes.decryptCFB8 libs data = .ok (out, aes')) : out.length ≤ data.length := by
  unfold decryptCFB8 processCFB8 at h
  split at h
  · simp_all
  · split at h
    · simp_all
    · split at h
      · simp at h
      · obtain ⟨rfl, -⟩ := Prod.mk.inj (Except.ok.inj h)
        rw [Cfb8.length_decrypt]

/-! ### Keys and registers -/

/-- A key of a valid size and a register of 16 bytes are set. -/
def ready (aes : AESWrapper) : Bool :=
  aes.isKeySet && aes.isIVSet && (aes.key.length = 16 || aes.key.length = 24 || aes.key.length = 32) &&
    aes.iv.length = 16

/-- Only the register changes, and it keeps its size. -/
def Rolls (aes aes' : AESWrapper) : Prop :=
  ∃ iv, aes' = { aes with iv } ∧ (iv.length = 16 ↔ aes.iv.length = 16)

theorem Rolls.refl (aes : AESWrapper) : Rolls aes aes := ⟨aes.iv, rfl, Iff.rfl⟩

theorem Rolls.trans {aes aes' aes'' : AESWrapper} (h : Rolls aes aes') (h' : Rolls aes' aes'') :
    Rolls aes aes'' := by
  obtain ⟨iv, rfl, hiv⟩ := h
  obtain ⟨iv', rfl, hiv'⟩ := h'
  exact ⟨iv', rfl, hiv'.trans hiv⟩

theorem Rolls.ready_eq {aes aes' : AESWrapper} (h : Rolls aes aes') : aes'.ready = aes.ready := by
  obtain ⟨iv, rfl, hiv⟩ := h
  simp only [ready, hiv]

theorem processCFB8_rolls {crypt : (Bytes → UInt8) → Bytes → Bytes → Bytes × Bytes}
    (hcrypt : ∀ keySymbol iv data, (crypt keySymbol iv data).2.length = 16 ↔ iv.length = 16)
    {libs : Libraries} {data out : Bytes} {aes aes' : AESWrapper}
    (h : aes.processCFB8 crypt libs data = .ok (out, aes')) : Rolls aes aes' := by
  unfold processCFB8 at h
  split at h
  · obtain ⟨-, rfl⟩ := Prod.mk.inj (Except.ok.inj h)
    exact Rolls.refl aes
  · split at h
    · obtain ⟨-, rfl⟩ := Prod.mk.inj (Except.ok.inj h)
      exact Rolls.refl aes
    · split at h
      · simp at h
      · obtain ⟨-, rfl⟩ := Prod.mk.inj (Except.ok.inj h)
        exact ⟨_, rfl, hcrypt _ _ _⟩

theorem encryptCFB8_rolls {libs : Libraries} {data out : Bytes} {aes aes' : AESWrapper}
    (h : aes.encryptCFB8 libs data = .ok (out, aes')) : Rolls aes aes' :=
  processCFB8_rolls (fun _ _ _ => Cfb8.length_encrypt_snd_eq_iff _ _ (by decide) _ _) h

theorem decryptCFB8_rolls {libs : Libraries} {data out : Bytes} {aes aes' : AESWrapper}
    (h : aes.decryptCFB8 libs data = .ok (out, aes')) : Rolls aes aes' :=
  processCFB8_rolls (fun _ _ _ => Cfb8.length_decrypt_snd_eq_iff _ _ (by decide) _ _) h

theorem length_encryptCFB8 {libs : Libraries} {data out : Bytes} {aes aes' : AESWrapper}
    (hready : aes.ready = true) (h : aes.encryptCFB8 libs data = .ok (out, aes')) :
    out.length = data.length := by
  simp only [ready, Bool.and_eq_true, Bool.or_eq_true, decide_eq_true_eq, or_assoc] at hready
  obtain ⟨⟨⟨hkeySet, hivSet⟩, hkey⟩, -⟩ := hready
  rw [encryptCFB8, processCFB8, if_neg (not_not.mpr ⟨hkeySet, hivSet⟩), if_neg (not_not.mpr hkey)] at h
  split at h
  · simp at h
  · obtain ⟨rfl, -⟩ := Prod.mk.inj (Except.ok.inj h)
    exact Cfb8.length_encrypt ..

theorem encryptCFB8_total (libs : Libraries) {data : Bytes} (h : data.length < 2 ^ 31)
    (aes : AESWrapper) : ∃ out aes', aes.encryptCFB8 libs data = .ok (out, aes') := by
  unfold encryptCFB8 processCFB8
  split
  · exact ⟨_, _, rfl⟩
  · split
    · exact ⟨_, _, rfl⟩
    · rw [if_neg (Nat.not_le.mpr h)]
      exact ⟨_, _, rfl⟩

/-- What was set before is replaced. -/
theorem setKey_setIV {key iv : Bytes} (hkey : key.length = 16 ∨ key.length = 24 ∨ key.length = 32)
    (hiv : iv.length = 16) (aes : AESWrapper) :
    (aes.setKey key).setIV iv = ⟨key, iv, true, true⟩ := by
  simp [setKey, setIV, hkey, hiv]

theorem processCFB8_of_set (crypt : (Bytes → UInt8) → Bytes → Bytes → Bytes × Bytes)
    (libs : Libraries) {key : Bytes} (hkey : key.length = 16 ∨ key.length = 24 ∨ key.length = 32)
    (iv : Bytes) {data : Bytes} (hdata : data.length < 2 ^ 31) :
    (AESWrapper.mk key iv true true).processCFB8 crypt libs data =
      .ok ((crypt (libs.cipher key) iv data).1, ⟨key, (crypt (libs.cipher key) iv data).2, true, true⟩) := by
  rw [processCFB8, if_neg (by simp), if_neg (not_not.mpr hkey), if_neg (Nat.not_le.mpr hdata)]

theorem decryptCFB8_of_set (libs : Libraries) {key : Bytes} (hkey : key.length = 16) (iv : Bytes)
    {data : Bytes} (hdata : data.length < 2 ^ 31) :
    (AESWrapper.mk key iv true true).decryptCFB8 libs data =
      .ok ((Cfb8.decrypt (libs.cipher key) (· ^^^ ·) iv data).1,
        ⟨key, (Cfb8.decrypt (libs.cipher key) (· ^^^ ·) iv data).2, true, true⟩) :=
  processCFB8_of_set _ libs (.inl hkey) iv hdata

end AESWrapper

/-- `ZLibUtil::compress`: the vector keeps the length of the bound. -/
def compress (libs : Libraries) (buffer : Bytes) : Bytes :=
  match libs.compress2 buffer with
  | some out => (out ++ zeros (libs.compressBound buffer.length)).take (libs.compressBound buffer.length)
  | none => []

/-- `ZLibUtil::uncompress`: the vector has the announced length. -/
def uncompress (libs : Libraries) (buffer : Bytes) (decompressedSize : ℕ) : Except Fault Bytes :=
  if maxSize < decompressedSize then .error .lengthError
  else
    match libs.uncompress2 buffer decompressedSize with
    | some out => .ok ((out ++ zeros decompressedSize).take decompressedSize)
    | none => .ok []

end Zinc.Network
