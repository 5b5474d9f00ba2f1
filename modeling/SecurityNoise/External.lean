import SecurityNoise.Foundation.Bytes

/-!
# What the plugin takes from outside

The libsodium calls the sources make, as functions of their input buffers, and the
size of the SDK's key struct. The two length laws are the buffer contracts the C++
allocates by; everything else a result needs of libsodium is a named assumption.
-/

namespace SecurityNoise

abbrev CIPHER_KEY_BYTES : Nat := 32
abbrev AEAD_TAG_BYTES : Nat := 16
abbrev AEAD_NONCE_BYTES : Nat := 12
abbrev DH_PUBLIC_KEY_BYTES : Nat := 32
abbrev DH_PRIVATE_KEY_BYTES : Nat := 32
abbrev DH_OUTPUT_BYTES : Nat := 32
abbrev HASHLEN : Nat := 64
abbrev BLOCKLEN : Nat := 128

abbrev CipherKey := Block CIPHER_KEY_BYTES
abbrev PublicKey := Block DH_PUBLIC_KEY_BYTES
abbrev PrivateKey := Block DH_PRIVATE_KEY_BYTES
abbrev Digest := Block HASHLEN

/-- The external functions. `none` is a nonzero return code. The BLAKE2b of the
one-shot and of the streaming interface is one function of the bytes absorbed. -/
structure External where
  /-- `crypto_generichash_blake2b`, 64 bytes of output, no key. -/
  genericHash : Bytes → Digest
  /-- `crypto_scalarmult` of a secret and a public key. -/
  scalarmult : PrivateKey → PublicKey → Option (Block DH_OUTPUT_BYTES)
  scalarmultBase : PrivateKey → PublicKey
  /-- `crypto_aead_chacha20poly1305_ietf_encrypt`: key, nonce, associated data, message. -/
  aeadEncrypt : CipherKey → Block AEAD_NONCE_BYTES → Bytes → Bytes → Bytes
  aeadDecrypt : CipherKey → Block AEAD_NONCE_BYTES → Bytes → Bytes → Option Bytes
  /-- `crypto_sign_ed25519_sk_to_curve25519`, on libsodium's 64-byte secret keys. -/
  signSkToCurve25519 : Block 64 → Option PrivateKey
  /-- `crypto_sign_ed25519_pk_to_curve25519`. -/
  signPkToCurve25519 : Block 32 → Option PublicKey
  /-- `sizeof(gn_handshake_keys_t)`. -/
  handshakeKeysSize : Nat
  aeadEncrypt_length : ∀ k n ad m, (aeadEncrypt k n ad m).length = m.length + AEAD_TAG_BYTES
  aeadDecrypt_length : ∀ k n ad c m, aeadDecrypt k n ad c = some m →
    c.length = m.length + AEAD_TAG_BYTES

namespace External

/-- X25519 commutes: either party computes the same shared secret, or both fail. -/
def DhCommutes (X : External) : Prop :=
  ∀ a b, X.scalarmult a (X.scalarmultBase b) = X.scalarmult b (X.scalarmultBase a)

/-- X25519 does not fail on the public half of a secret key. -/
def DhHonest (X : External) : Prop :=
  ∀ a b, (X.scalarmult a (X.scalarmultBase b)).isSome = true

/-- Decryption undoes encryption under the same key, nonce and associated data. -/
def AeadRoundTrip (X : External) : Prop :=
  ∀ k n ad m, X.aeadDecrypt k n ad (X.aeadEncrypt k n ad m) = some m

/-- Decryption returns a message only for its encryption. -/
def AeadExact (X : External) : Prop :=
  ∀ k n ad c m, X.aeadDecrypt k n ad c = some m → c = X.aeadEncrypt k n ad m

end External

/-- The ways a call ends the process: the two aborts on an exhausted nonce, and a
read outside a buffer. -/
inductive Fatal
  | encryptNonceWrap
  | decryptNonceWrap
  | outOfBounds
  deriving DecidableEq, Repr

end SecurityNoise
