import SecurityNoise.Cipher
import SecurityNoise.Kdf

/-!
# `SymmetricState`

Chaining key, handshake hash and cipher, as in `symmetric.cpp`.
-/

namespace SecurityNoise

structure SymmetricState where
  ck : Digest := Block.zero HASHLEN
  h : Digest := Block.zero HASHLEN
  cipher : CipherState := {}
  deriving DecidableEq

/-- The two ciphers `split` returns. -/
structure SplitPair where
  first : CipherState
  second : CipherState
  deriving DecidableEq

namespace SymmetricState

variable (X : External)

/-- `initialize`: the protocol name, padded with zeros if it fits and hashed
otherwise, is both the hash and the chaining key; the cipher has no key. -/
def initializeProtocol (name : Bytes) : SymmetricState :=
  let h := if hl : name.length ≤ HASHLEN then Block.pad HASHLEN name hl else blake2b X name
  { ck := h, h := h, cipher := {} }

def mixKey (s : SymmetricState) (inputKeyMaterial : Bytes) : SymmetricState :=
  let out := hkdf2 X s.ck.toList inputKeyMaterial
  { s with
    ck := out.output1
    cipher := CipherState.initializeKey (Block.truncate (by decide) out.output2) }

def mixHash (s : SymmetricState) (data : Bytes) : SymmetricState :=
  { s with h := blake2bPair X s.h.toList data }

def encryptAndHash (s : SymmetricState) (plaintext : Bytes) :
    Except Fatal (Bytes × SymmetricState) :=
  match s.cipher.encryptWithAd X s.h.toList plaintext with
  | .error e => .error e
  | .ok (ciphertext, cipher) =>
      .ok (ciphertext, mixHash X { s with cipher := cipher } ciphertext)

/-- `decrypt_and_hash`: the ciphertext is mixed into the hash only when it opens. -/
def decryptAndHash (s : SymmetricState) (ciphertext : Bytes) :
    Except Fatal (Option Bytes × SymmetricState) :=
  match s.cipher.decryptWithAd X s.h.toList ciphertext with
  | .error e => .error e
  | .ok (none, cipher) => .ok (none, { s with cipher := cipher })
  | .ok (some plaintext, cipher) =>
      .ok (some plaintext, mixHash X { s with cipher := cipher } ciphertext)

/-- `split`: two ciphers from the chaining key, which is wiped; the state's own cipher
and its hash stay. -/
def split (s : SymmetricState) : SplitPair × SymmetricState :=
  let out := hkdf2 X s.ck.toList []
  (⟨CipherState.initializeKey (Block.truncate (by decide) out.output1),
    CipherState.initializeKey (Block.truncate (by decide) out.output2)⟩,
   { s with ck := Block.zero HASHLEN })

variable {X}

/-- A finished encryption is one of the cipher, with the ciphertext mixed in. -/
theorem encryptAndHash_eq_ok {s s' : SymmetricState} {p out : Bytes}
    (h : s.encryptAndHash X p = .ok (out, s')) :
    ∃ cipher, s.cipher.encryptWithAd X s.h.toList p = .ok (out, cipher) ∧
      s' = mixHash X { s with cipher := cipher } out := by
  unfold encryptAndHash at h
  split at h
  · cases h
  · rename_i c cipher hc
    obtain ⟨rfl, rfl⟩ := Prod.mk.inj (Except.ok.inj h)
    exact ⟨cipher, hc, rfl⟩

/-- A rejected ciphertext leaves the whole symmetric state as it was. -/
theorem decryptAndHash_none {s s' : SymmetricState} {ct : Bytes}
    (h : s.decryptAndHash X ct = .ok (none, s')) : s' = s := by
  unfold decryptAndHash at h
  split at h
  · cases h
  · rename_i cipher hc
    obtain ⟨_, rfl⟩ := Prod.mk.inj (Except.ok.inj h)
    rw [CipherState.decryptWithAd_none hc]
  · cases h

theorem decryptAndHash_eq_error {s : SymmetricState} {ct : Bytes} {e : Fatal}
    (h : s.decryptAndHash X ct = .error e) : e = .decryptNonceWrap := by
  unfold decryptAndHash at h
  split at h
  · rename_i e' he
    obtain rfl := Except.error.inj h
    exact CipherState.decryptWithAd_eq_error he
  · cases h
  · cases h

/-- A finished, accepting decryption is one of the cipher, with the ciphertext mixed in. -/
theorem decryptAndHash_some {s s' : SymmetricState} {ct p : Bytes}
    (h : s.decryptAndHash X ct = .ok (some p, s')) :
    ∃ cipher, s.cipher.decryptWithAd X s.h.toList ct = .ok (some p, cipher) ∧
      s' = mixHash X { s with cipher := cipher } ct := by
  unfold decryptAndHash at h
  split at h
  · cases h
  · cases h
  · rename_i c cipher hc
    obtain ⟨hp, rfl⟩ := Prod.mk.inj (Except.ok.inj h)
    exact ⟨cipher, hp ▸ hc, rfl⟩

end SymmetricState

end SecurityNoise
