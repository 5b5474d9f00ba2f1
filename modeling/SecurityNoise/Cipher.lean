import SecurityNoise.External

/-!
# `CipherState`

The AEAD cipher of `cipher.cpp`: a key, a 64-bit counter and whether there is a key.
Without a key both directions pass their input through.
-/

namespace SecurityNoise

/-- Four zero bytes, then the counter in little-endian order. -/
def encodeNonce (counter : UInt64) : Block AEAD_NONCE_BYTES :=
  ⟨List.replicate 4 0 ++
    (List.range 8).map fun i => ((counter >>> UInt64.ofNat (i * 8)) &&& 0xFF).toUInt8, by simp⟩

/-- The counter value the protocol reserves for `rekey`, `2^64 - 1`. -/
def maxNonce : UInt64 := 0xFFFFFFFFFFFFFFFF

structure CipherState where
  k : CipherKey := Block.zero CIPHER_KEY_BYTES
  n : UInt64 := 0
  hasKey : Bool := false
  deriving DecidableEq

namespace CipherState

variable (X : External)

def initializeKey (k : CipherKey) : CipherState := ⟨k, 0, true⟩

def resetNonceToZero (c : CipherState) : CipherState := { c with n := 0 }

def encryptWithAd (c : CipherState) (ad plaintext : Bytes) :
    Except Fatal (Bytes × CipherState) :=
  if !c.hasKey then .ok (plaintext, c)
  else if c.n = maxNonce then .error .encryptNonceWrap
  else .ok (X.aeadEncrypt c.k (encodeNonce c.n) ad plaintext, { c with n := c.n + 1 })

def decryptWithAd (c : CipherState) (ad ciphertext : Bytes) :
    Except Fatal (Option Bytes × CipherState) :=
  if !c.hasKey then .ok (some ciphertext, c)
  else if ciphertext.length < AEAD_TAG_BYTES then .ok (none, c)
  else if c.n = maxNonce then .error .decryptNonceWrap
  else match X.aeadDecrypt c.k (encodeNonce c.n) ad ciphertext with
    | none => .ok (none, c)
    | some out => .ok (some out, { c with n := c.n + 1 })

/-- The key `rekey` derives: the first 32 bytes of the encryption of 32 zero bytes
under the reserved nonce. -/
def nextKey (k : CipherKey) : CipherKey :=
  ⟨(X.aeadEncrypt k (encodeNonce maxNonce) [] (List.replicate CIPHER_KEY_BYTES 0)).take
    CIPHER_KEY_BYTES, by simp [X.aeadEncrypt_length]⟩

def rekey (c : CipherState) : CipherState :=
  if !c.hasKey then c else { c with k := nextKey X c.k }

def zeroize (_ : CipherState) : CipherState := {}

variable {X}

theorem encryptWithAd_keyless {c : CipherState} (h : c.hasKey = false) (ad p : Bytes) :
    c.encryptWithAd X ad p = .ok (p, c) := by
  simp [encryptWithAd, h]

theorem encryptWithAd_keyed {c : CipherState} (h : c.hasKey = true) (hn : c.n ≠ maxNonce)
    (ad p : Bytes) : c.encryptWithAd X ad p =
      .ok (X.aeadEncrypt c.k (encodeNonce c.n) ad p, { c with n := c.n + 1 }) := by
  simp [encryptWithAd, h, hn]

theorem decryptWithAd_keyless {c : CipherState} (h : c.hasKey = false) (ad ct : Bytes) :
    c.decryptWithAd X ad ct = .ok (some ct, c) := by
  simp [decryptWithAd, h]

/-- With a key the length test is subsumed by the AEAD: a ciphertext without room for
a tag does not decrypt. -/
theorem decryptWithAd_keyed {c : CipherState} (h : c.hasKey = true) (hn : c.n ≠ maxNonce)
    (ad ct : Bytes) : c.decryptWithAd X ad ct =
      match X.aeadDecrypt c.k (encodeNonce c.n) ad ct with
      | none => .ok (none, c)
      | some out => .ok (some out, { c with n := c.n + 1 }) := by
  simp only [decryptWithAd, h, hn, Bool.not_true, Bool.false_eq_true, if_false]
  split
  · cases ho : X.aeadDecrypt c.k (encodeNonce c.n) ad ct with
    | none => rfl
    | some out =>
        have hlen := X.aeadDecrypt_length _ _ _ _ _ ho
        omega
  · rfl

/-- What a finished encryption did. -/
theorem encryptWithAd_eq_ok {c c' : CipherState} {ad p out : Bytes}
    (h : c.encryptWithAd X ad p = .ok (out, c')) :
    (c.hasKey = false ∧ out = p ∧ c' = c) ∨
      (c.hasKey = true ∧ c.n ≠ maxNonce ∧
        out = X.aeadEncrypt c.k (encodeNonce c.n) ad p ∧ c' = { c with n := c.n + 1 }) := by
  rcases Bool.eq_false_or_eq_true c.hasKey with hk | hk
  · by_cases hn : c.n = maxNonce
    · simp [encryptWithAd, hk, hn] at h
    · rw [encryptWithAd_keyed hk hn] at h
      obtain ⟨rfl, rfl⟩ := Prod.mk.inj (Except.ok.inj h)
      exact Or.inr ⟨hk, hn, rfl, rfl⟩
  · rw [encryptWithAd_keyless hk] at h
    obtain ⟨rfl, rfl⟩ := Prod.mk.inj (Except.ok.inj h)
    exact Or.inl ⟨hk, rfl, rfl⟩

/-- What a finished decryption did: pass through, reject without a change, or open. -/
theorem decryptWithAd_eq_ok {c c' : CipherState} {ad ct : Bytes} {r : Option Bytes}
    (h : c.decryptWithAd X ad ct = .ok (r, c')) :
    (c.hasKey = false ∧ r = some ct ∧ c' = c) ∨
      (c.hasKey = true ∧ r = none ∧ c' = c) ∨
      (c.hasKey = true ∧ c.n ≠ maxNonce ∧ c' = { c with n := c.n + 1 } ∧
        ∃ p, r = some p ∧ X.aeadDecrypt c.k (encodeNonce c.n) ad ct = some p) := by
  rcases Bool.eq_false_or_eq_true c.hasKey with hk | hk
  · refine Or.inr ?_
    by_cases hn : c.n = maxNonce
    · by_cases hl : ct.length < AEAD_TAG_BYTES
      · simp only [decryptWithAd, hk, hl, Bool.not_true, Bool.false_eq_true, if_false,
          if_true] at h
        obtain ⟨rfl, rfl⟩ := Prod.mk.inj (Except.ok.inj h)
        exact Or.inl ⟨hk, rfl, rfl⟩
      · simp [decryptWithAd, hk, hl, hn] at h
    · rw [decryptWithAd_keyed hk hn] at h
      split at h
      · obtain ⟨rfl, rfl⟩ := Prod.mk.inj (Except.ok.inj h)
        exact Or.inl ⟨hk, rfl, rfl⟩
      · rename_i p hp
        obtain ⟨rfl, rfl⟩ := Prod.mk.inj (Except.ok.inj h)
        exact Or.inr ⟨hk, hn, rfl, p, rfl, hp⟩
  · rw [decryptWithAd_keyless hk] at h
    obtain ⟨rfl, rfl⟩ := Prod.mk.inj (Except.ok.inj h)
    exact Or.inl ⟨hk, rfl, rfl⟩

/-- Decryption ends the process only on an exhausted nonce. -/
theorem decryptWithAd_eq_error {c : CipherState} {ad ct : Bytes} {e : Fatal}
    (h : c.decryptWithAd X ad ct = .error e) : e = .decryptNonceWrap := by
  unfold decryptWithAd at h
  split at h
  · cases h
  · split at h
    · cases h
    · split at h
      · exact (Except.error.inj h).symm
      · split at h <;> cases h

/-- Encryption keeps the key. -/
theorem encryptWithAd_key {c c' : CipherState} {ad p out : Bytes}
    (h : c.encryptWithAd X ad p = .ok (out, c')) : c'.k = c.k ∧ c'.hasKey = c.hasKey := by
  obtain ⟨_, _, rfl⟩ | ⟨_, _, _, rfl⟩ := encryptWithAd_eq_ok h <;> exact ⟨rfl, rfl⟩

/-- So does decryption. -/
theorem decryptWithAd_key {c c' : CipherState} {ad ct : Bytes} {r : Option Bytes}
    (h : c.decryptWithAd X ad ct = .ok (r, c')) : c'.k = c.k ∧ c'.hasKey = c.hasKey := by
  obtain ⟨_, _, rfl⟩ | ⟨_, _, rfl⟩ | ⟨_, _, rfl, _⟩ := decryptWithAd_eq_ok h <;>
    exact ⟨rfl, rfl⟩

/-- A rejected ciphertext leaves the cipher as it was. -/
theorem decryptWithAd_none {c c' : CipherState} {ad ct : Bytes}
    (h : c.decryptWithAd X ad ct = .ok (none, c')) : c' = c := by
  obtain ⟨_, hr, _⟩ | ⟨_, _, rfl⟩ | ⟨_, _, _, _, hr, _⟩ := decryptWithAd_eq_ok h
  · cases hr
  · rfl
  · cases hr

end CipherState

section NonceEncoding

/-- The `i`-th counter byte is the `i`-th base-256 digit of the counter. -/
theorem nonceByte_toNat (c : UInt64) {i : Nat} (hi : i < 8) :
    (((c >>> UInt64.ofNat (i * 8)) &&& 0xFF).toUInt8).toNat = c.toNat / 2 ^ (i * 8) % 256 := by
  have hs : (UInt64.ofNat (i * 8)).toNat % 64 = i * 8 := by
    rw [UInt64.toNat_ofNat']
    omega
  have hmask : ∀ x : Nat, x &&& 255 = x % 256 := fun x => Nat.and_two_pow_sub_one_eq_mod x 8
  simp only [UInt64.toNat_toUInt8, UInt64.toNat_and, UInt64.toNat_shiftRight, hs,
    Nat.shiftRight_eq_div_pow, UInt64.reduceToNat, hmask]
  omega

private theorem eq_of_digits {a b : Nat} (ha : a < 2 ^ 64) (hb : b < 2 ^ 64)
    (h : ∀ i < 8, a / 2 ^ (i * 8) % 256 = b / 2 ^ (i * 8) % 256) : a = b := by
  have h0 := h 0 (by omega)
  have h1 := h 1 (by omega)
  have h2 := h 2 (by omega)
  have h3 := h 3 (by omega)
  have h4 := h 4 (by omega)
  have h5 := h 5 (by omega)
  have h6 := h 6 (by omega)
  have h7 := h 7 (by omega)
  simp only [Nat.reduceMul, Nat.reducePow, Nat.pow_zero, Nat.div_one] at *
  omega

/-- The eight counter bytes determine the counter. -/
theorem encodeNonce_injective : Function.Injective encodeNonce := by
  intro a b h
  have hl := congrArg Block.toList h
  simp only [encodeNonce, List.append_cancel_left_eq, List.map_inj_left, List.mem_range] at hl
  apply UInt64.toNat_inj.mp
  refine eq_of_digits a.toNat_lt b.toNat_lt ?_
  intro i hi
  rw [← nonceByte_toNat a hi, ← nonceByte_toNat b hi, hl i hi]

end NonceEncoding

end SecurityNoise
