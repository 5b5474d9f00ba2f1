import SecurityNoise.Framework.Hmac

/-!
# The Noise framework: ciphers, hashing and the symmetric state

Revision 34 of the framework, sections 4 and 5.1 to 5.2, over any choice of DH, AEAD
and hash functions. Nothing here depends on an implementation: an error of the
framework is the value `none`, and no state follows it.
-/

namespace SecurityNoise.Framework

/-- The functions a concrete protocol chooses: `HASH`, `DH`, `ENCRYPT` and `DECRYPT`.
`DH` may reject a public key. -/
structure Suite (Priv : Type) (dhLen hashLen blockLen : Nat) where
  hash : Bytes → Block hashLen
  dh : Priv → Block dhLen → Option (Block dhLen)
  encrypt : Block 32 → UInt64 → Bytes → Bytes → Bytes
  decrypt : Block 32 → UInt64 → Bytes → Bytes → Option Bytes
  keyLen_le : 32 ≤ hashLen

variable {Priv : Type} {dhLen hashLen blockLen : Nat}

namespace Suite

variable (su : Suite Priv dhLen hashLen blockLen)

/-- The key block of RFC 2104: a key longer than a block is hashed first, then
zeros fill the block. -/
def hmacKey (key : Bytes) : Bytes :=
  let k := if blockLen < key.length then (su.hash key).toList else key
  k ++ List.replicate (blockLen - k.length) 0

/-- `HMAC-HASH` of RFC 2104. -/
def hmac (key message : Bytes) : Block hashLen :=
  let inner := su.hash ((su.hmacKey key).map (· ^^^ 0x36) ++ message)
  su.hash ((su.hmacKey key).map (· ^^^ 0x5c) ++ inner.toList)

/-- The outputs of `HKDF` (section 4.3), the first one numbered 0: each is the HMAC
of the one before it and its own number counted from 1. -/
def hkdf (chainingKey inputKeyMaterial : Bytes) : Nat → Block hashLen
  | 0 => su.hmac (su.hmac chainingKey inputKeyMaterial).toList [1]
  | i + 1 => su.hmac (su.hmac chainingKey inputKeyMaterial).toList
      ((hkdf chainingKey inputKeyMaterial i).toList ++ [UInt8.ofNat (i + 2)])

/-- The 32-byte cipher key at the front of an `HKDF` output. -/
def cipherKey (b : Block hashLen) : Block 32 := Block.truncate su.keyLen_le b

end Suite

/-- A cipher key, possibly empty, and its nonce (section 5.1). -/
structure CipherState where
  k : Option (Block 32)
  n : UInt64
  deriving DecidableEq

namespace CipherState

variable (su : Suite Priv dhLen hashLen blockLen)

/-- `EncryptWithAd`: with an empty key the plaintext itself; the nonce `2^64 - 1` is
an error. -/
def encryptWithAd (c : CipherState) (ad plaintext : Bytes) : Option (Bytes × CipherState) :=
  match c.k with
  | none => some (plaintext, c)
  | some k =>
      if c.n = 0xFFFFFFFFFFFFFFFF then none
      else some (su.encrypt k c.n ad plaintext, { c with n := c.n + 1 })

/-- `DecryptWithAd`: a rejected ciphertext does not advance the nonce. -/
def decryptWithAd (c : CipherState) (ad ciphertext : Bytes) : Option (Bytes × CipherState) :=
  match c.k with
  | none => some (ciphertext, c)
  | some k =>
      if c.n = 0xFFFFFFFFFFFFFFFF then none
      else (su.decrypt k c.n ad ciphertext).map fun p => (p, { c with n := c.n + 1 })

/-- `InitializeKey`. -/
def initializeKey (key : Block 32) : CipherState := ⟨some key, 0⟩

end CipherState

/-- The symmetric state of section 5.2. -/
structure SymmetricState (hashLen : Nat) where
  ck : Block hashLen
  h : Block hashLen
  cipher : CipherState
  deriving DecidableEq

namespace SymmetricState

variable (su : Suite Priv dhLen hashLen blockLen)

/-- `InitializeSymmetric`: a protocol name that fits is padded with zeros, a longer
one is hashed. -/
def initializeSymmetric (name : Bytes) : SymmetricState hashLen :=
  let h := if hl : name.length ≤ hashLen then Block.pad hashLen name hl else su.hash name
  ⟨h, h, ⟨none, 0⟩⟩

def mixKey (s : SymmetricState hashLen) (ikm : Bytes) : SymmetricState hashLen :=
  { s with
    ck := su.hkdf s.ck.toList ikm 0
    cipher := CipherState.initializeKey (su.cipherKey (su.hkdf s.ck.toList ikm 1)) }

def mixHash (s : SymmetricState hashLen) (data : Bytes) : SymmetricState hashLen :=
  { s with h := su.hash (s.h.toList ++ data) }

def encryptAndHash (s : SymmetricState hashLen) (plaintext : Bytes) :
    Option (Bytes × SymmetricState hashLen) := do
  let (c, cipher) ← s.cipher.encryptWithAd su s.h.toList plaintext
  some (c, mixHash su { s with cipher := cipher } c)

def decryptAndHash (s : SymmetricState hashLen) (ciphertext : Bytes) :
    Option (Bytes × SymmetricState hashLen) := do
  let (p, cipher) ← s.cipher.decryptWithAd su s.h.toList ciphertext
  some (p, mixHash su { s with cipher := cipher } ciphertext)

/-- `Split`: the two transport ciphers. -/
def split (s : SymmetricState hashLen) : CipherState × CipherState :=
  (CipherState.initializeKey (su.cipherKey (su.hkdf s.ck.toList [] 0)),
   CipherState.initializeKey (su.cipherKey (su.hkdf s.ck.toList [] 1)))

end SymmetricState

section Hash

variable {su : Suite Priv dhLen hashLen blockLen} {H : HashFunction hashLen blockLen}

theorem Suite.hmacKey_eq (hsu : su.hash = H.hash) (key : Bytes) :
    su.hmacKey key = (H.keyBlock key).toList := by
  simp only [hmacKey, hsu, HashFunction.keyBlock, HashFunction.keyInUse, Block.pad_toList]

/-- A suite's HMAC is the one of its hash function. -/
theorem Suite.hmac_eq (hsu : su.hash = H.hash) (key message : Bytes) :
    su.hmac key message = H.hmac key message := by
  simp only [hmac, hsu, hmacKey_eq hsu, HashFunction.hmac, HashFunction.ipad,
    HashFunction.opad, Block.xor_filled_toList]

/-- A suite's HKDF is the one of its hash function. -/
theorem Suite.hkdf_eq (hsu : su.hash = H.hash) (chainingKey inputKeyMaterial : Bytes) (i : Nat) :
    su.hkdf chainingKey inputKeyMaterial i =
      H.output (H.hmac chainingKey inputKeyMaterial).toList i := by
  induction i with
  | zero => rw [hkdf, hmac_eq hsu, hmac_eq hsu, HashFunction.output]
  | succ i ih => rw [hkdf, ih, hmac_eq hsu, hmac_eq hsu, HashFunction.output]

end Hash

section Totality

/-- Below the reserved nonce a cipher encrypts, and its counter moves by at most one. -/
theorem CipherState.encryptWithAd_total (su : Suite Priv dhLen hashLen blockLen)
    {c : CipherState} (hn : c.n ≠ 0xFFFFFFFFFFFFFFFF)
    (ad p : Bytes) : ∃ out c', c.encryptWithAd su ad p = some (out, c') ∧
      c'.n.toNat ≤ c.n.toNat + 1 := by
  cases hk : c.k with
  | none => exact ⟨p, c, by simp [encryptWithAd, hk], Nat.le_succ _⟩
  | some k =>
      refine ⟨su.encrypt k c.n ad p, { c with n := c.n + 1 }, by simp [encryptWithAd, hk, hn], ?_⟩
      rw [UInt64.toNat_add]
      exact Nat.mod_le _ _

/-- Below the reserved nonce `EncryptAndHash` succeeds. -/
theorem SymmetricState.encryptAndHash_total (su : Suite Priv dhLen hashLen blockLen)
    {s : SymmetricState hashLen}
    (hn : s.cipher.n ≠ 0xFFFFFFFFFFFFFFFF) (p : Bytes) :
    ∃ out s', s.encryptAndHash su p = some (out, s') ∧
      s'.cipher.n.toNat ≤ s.cipher.n.toNat + 1 := by
  obtain ⟨out, c', hc, hle⟩ := CipherState.encryptWithAd_total su hn s.h.toList p
  refine ⟨out, mixHash su { s with cipher := c' } out, ?_, hle⟩
  simp [encryptAndHash, hc]

end Totality

section Laws

/-- What a correct AEAD promises: decryption undoes encryption, and a ciphertext is its
plaintext plus a tag of 16 bytes. -/
structure Suite.AeadLawful (su : Suite Priv dhLen hashLen blockLen) : Prop where
  decrypt_encrypt : ∀ k n ad p, su.decrypt k n ad (su.encrypt k n ad p) = some p
  encrypt_length : ∀ k n ad p, (su.encrypt k n ad p).length = p.length + 16

/-- What a correct suite promises: also that Diffie–Hellman commutes on the public
halves that `pub` computes. -/
structure Suite.Lawful (su : Suite Priv dhLen hashLen blockLen)
    (pub : Priv → Block dhLen) : Prop extends su.AeadLawful where
  dh_comm : ∀ a b, su.dh a (pub b) = su.dh b (pub a)

variable {su : Suite Priv dhLen hashLen blockLen}

/-- A cipher decrypts what an equal cipher encrypted, and both end equal. -/
theorem CipherState.decryptWithAd_encryptWithAd (laws : su.AeadLawful)
    {c c' : CipherState} {ad p out : Bytes} (h : c.encryptWithAd su ad p = some (out, c')) :
    c.decryptWithAd su ad out = some (p, c') := by
  unfold encryptWithAd at h
  unfold decryptWithAd
  cases hk : c.k with
  | none =>
      simp only [hk, Option.some.injEq, Prod.mk.injEq] at h ⊢
      exact ⟨h.1.symm, h.2⟩
  | some k =>
      simp only [hk] at h ⊢
      by_cases hn : c.n = 0xFFFFFFFFFFFFFFFF
      · simp [hn] at h
      · simp only [if_neg hn, Option.some.injEq, Prod.mk.injEq] at h ⊢
        obtain ⟨rfl, rfl⟩ := h
        simp [laws.decrypt_encrypt]

/-- The bytes a cipher adds to a plaintext. -/
def CipherState.overhead (c : CipherState) : Nat := if c.k.isSome then 16 else 0

theorem CipherState.encryptWithAd_length (laws : su.AeadLawful) {c c' : CipherState}
    {ad p out : Bytes} (h : c.encryptWithAd su ad p = some (out, c')) :
    out.length = p.length + c.overhead := by
  unfold encryptWithAd at h
  unfold overhead
  cases hk : c.k with
  | none =>
      simp only [hk, Option.some.injEq, Prod.mk.injEq] at h
      simp [← h.1]
  | some k =>
      simp only [hk] at h
      by_cases hn : c.n = 0xFFFFFFFFFFFFFFFF
      · simp [hn] at h
      · simp only [if_neg hn, Option.some.injEq, Prod.mk.injEq] at h
        simp [← h.1, laws.encrypt_length]

/-- `DecryptAndHash` undoes `EncryptAndHash` from equal states and ends in equal states. -/
theorem SymmetricState.decryptAndHash_encryptAndHash (laws : su.AeadLawful)
    {s s' : SymmetricState hashLen} {p out : Bytes}
    (h : s.encryptAndHash su p = some (out, s')) :
    s.decryptAndHash su out = some (p, s') := by
  unfold encryptAndHash at h
  unfold decryptAndHash
  cases hc : s.cipher.encryptWithAd su s.h.toList p with
  | none => simp [hc] at h
  | some r =>
      obtain ⟨c, cipher⟩ := r
      simp only [hc, Option.bind_eq_bind, Option.bind_some, Option.some.injEq,
        Prod.mk.injEq] at h
      obtain ⟨rfl, rfl⟩ := h
      simp [CipherState.decryptWithAd_encryptWithAd laws hc]

theorem SymmetricState.encryptAndHash_length (laws : su.AeadLawful)
    {s s' : SymmetricState hashLen} {p out : Bytes}
    (h : s.encryptAndHash su p = some (out, s')) :
    out.length = p.length + s.cipher.overhead := by
  unfold encryptAndHash at h
  cases hc : s.cipher.encryptWithAd su s.h.toList p with
  | none => simp [hc] at h
  | some r =>
      obtain ⟨c, cipher⟩ := r
      simp only [hc, Option.bind_eq_bind, Option.bind_some, Option.some.injEq,
        Prod.mk.injEq] at h
      rw [← h.1]
      exact CipherState.encryptWithAd_length laws hc

end Laws

end SecurityNoise.Framework
