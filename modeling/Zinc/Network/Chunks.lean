import Zinc.Network.Crypto

/-! Data that an `AESWrapper` is given in chunks. Every call makes a new cipher context;
all that one call leaves to the next one is the register in `m_iv`, and that is all that
the rest of a stream depends on. -/

namespace Zinc.Network

open Buffer

namespace AESWrapper

/-- The outputs for chunks that come one after another, and the wrapper behind them. -/
def inChunks (process : Bytes → AESWrapper → Except Fault (Bytes × AESWrapper)) :
    List Bytes → AESWrapper → Except Fault (Bytes × AESWrapper)
  | [], aes => .ok ([], aes)
  | chunk :: chunks, aes => do
    let (out, aes) ← process chunk aes
    let (outs, aes) ← inChunks process chunks aes
    return (out ++ outs, aes)

section Stream

variable {crypt : (Bytes → UInt8) → Bytes → Bytes → Bytes × Bytes}
  (hnil : ∀ keySymbol iv, crypt keySymbol iv [] = ([], iv))
  (happend : ∀ keySymbol iv data data', crypt keySymbol iv (data ++ data') =
    ((crypt keySymbol iv data).1 ++ (crypt keySymbol (crypt keySymbol iv data).2 data').1,
      (crypt keySymbol (crypt keySymbol iv data).2 data').2))

include hnil happend in
/-- Chunks are processed as the whole is. -/
theorem inChunks_processCFB8 (libs : Libraries) {key : Bytes}
    (hkey : key.length = 16 ∨ key.length = 24 ∨ key.length = 32) (iv : Bytes) {chunks : List Bytes}
    (hlength : chunks.flatten.length < 2 ^ 31) :
    inChunks (processCFB8 crypt libs) chunks ⟨key, iv, true, true⟩ =
      processCFB8 crypt libs chunks.flatten ⟨key, iv, true, true⟩ := by
  rw [processCFB8_of_set crypt libs hkey iv hlength]
  induction chunks generalizing iv with
  | nil =>
    rw [List.flatten_nil, hnil]
    rfl
  | cons chunk chunks ih =>
    rw [List.flatten_cons, List.length_append] at hlength
    rw [List.flatten_cons, inChunks, processCFB8_of_set crypt libs hkey iv (by omega), happend]
    change (inChunks _ chunks _ >>= _) = _
    rw [ih _ (by omega)]
    rfl

end Stream

/-- However the plaintext is split, the ciphertext is that of the whole; and however the
ciphertext is split, a wrapper with the same key and register returns the plaintext. -/
theorem decrypt_encrypt_inChunks (libs : Libraries) {key iv plaintext : Bytes}
    (hkey : key.length = 16 ∨ key.length = 24 ∨ key.length = 32) (hiv : iv.length = 16)
    (hlength : plaintext.length ≤ 2 ^ 30) (sender receiver : AESWrapper) :
    ∃ ciphertext aes, ((sender.setKey key).setIV iv).encryptCFB8 libs plaintext = .ok (ciphertext, aes) ∧
      (∀ chunks : List Bytes, chunks.flatten = plaintext →
        inChunks (encryptCFB8 libs) chunks ((sender.setKey key).setIV iv) = .ok (ciphertext, aes)) ∧
      ∀ chunks : List Bytes, chunks.flatten = ciphertext →
        inChunks (decryptCFB8 libs) chunks ((receiver.setKey key).setIV iv) = .ok (plaintext, aes) := by
  have hlt : plaintext.length < 2 ^ 31 := by omega
  have hwhole := processCFB8_of_set (fun keySymbol => Cfb8.encrypt keySymbol (· ^^^ ·)) libs hkey iv hlt
  rw [setKey_setIV hkey hiv, setKey_setIV hkey hiv]
  refine ⟨_, _, hwhole, ?_, ?_⟩
  · rintro chunks rfl
    have hsplit := inChunks_processCFB8 (fun _ _ => rfl)
      (fun keySymbol => Cfb8.encrypt_append keySymbol (· ^^^ ·)) libs hkey iv hlt
    exact hsplit.trans hwhole
  · intro chunks hchunks
    have hcipher : chunks.flatten.length < 2 ^ 31 := by
      rw [hchunks, Cfb8.length_encrypt]
      exact hlt
    have hsplit := inChunks_processCFB8 (fun _ _ => rfl)
      (fun keySymbol => Cfb8.decrypt_append keySymbol (· ^^^ ·)) libs hkey iv hcipher
    have hback := Cfb8.decrypt_encrypt (libs.cipher key) (· ^^^ ·)
      (fun k x => by rw [← UInt8.xor_assoc, UInt8.xor_self, UInt8.zero_xor]) iv plaintext
    rw [processCFB8_of_set _ libs hkey iv hcipher, hchunks, hback] at hsplit
    exact hsplit

/-- AES with a key of zeros, at the registers that three bytes go through. -/
def zeroKeyLibraries : Libraries where
  cipher _ register :=
    match register.drop 14 with
    | [0, 0] => 102
    | [0, 103] => 119
    | _ => 51
  compressBound size := size
  compress2 _ := none
  uncompress2 _ _ := none

theorem decrypt_encrypt_inChunks_zeroKey :
    ∃ aes, ((new.setKey (zeros 16)).setIV (zeros 16)).encryptCFB8 zeroKeyLibraries [1, 2, 3] =
        .ok ([103, 117, 48], aes) ∧
      inChunks (encryptCFB8 zeroKeyLibraries) [[1], [], [2, 3]]
        ((new.setKey (zeros 16)).setIV (zeros 16)) = .ok ([103, 117, 48], aes) ∧
      inChunks (decryptCFB8 zeroKeyLibraries) [[103, 117], [], [48]]
        ((new.setKey (zeros 16)).setIV (zeros 16)) = .ok ([1, 2, 3], aes) := by
  have hlength : ([1, 2, 3] : Bytes).length ≤ 2 ^ 30 := by decide
  have hzeros : (zeros 16).length = 16 := rfl
  obtain ⟨ciphertext, aes, hencrypt, hchunks, hdecrypt⟩ :=
    decrypt_encrypt_inChunks zeroKeyLibraries (.inl hzeros) hzeros hlength new new
  obtain ⟨rfl, -⟩ := Prod.mk.inj (Except.ok.inj hencrypt)
  exact ⟨aes, hencrypt, hchunks _ rfl, hdecrypt _ rfl⟩

end AESWrapper

end Zinc.Network
