import SecurityNoise.Provider

/-!
# A small instance of the external functions

Diffie–Hellman in the multiplicative group modulo 65521, a checksum as hash and as
authenticator, and a one-byte key stream: insecure, and small enough to be computed by
hand, but with every property the results assume of libsodium. It shows that the
assumptions can hold together, and evaluates concrete runs.
-/

namespace SecurityNoise.Miniature

/-- A polynomial checksum modulo the Mersenne prime `2^61 - 1`. -/
def checksum (l : Bytes) : Nat :=
  l.foldl (fun a b => (a * 257 + b.toNat + 1) % 2305843009213693951) 0

/-- The `w` low base-256 digits. -/
def digits (w n : Nat) : Bytes := (List.range w).map fun i => UInt8.ofNat (n / 256 ^ i)

def block (w n : Nat) : Block w := ⟨digits w n, by simp [digits]⟩

/-- The group element a public key stands for. -/
def element (pk : Block 32) : Nat := (pk.toList.getD 0 0).toNat + 256 * (pk.toList.getD 1 0).toNat

/-- The exponent a secret key stands for, never zero. -/
def exponent (sk : Block 32) : Nat := (sk.toList.getD 0 0).toNat + 1

def power (base : Nat) (sk : Block 32) : Nat := base ^ exponent sk % 65521

def mask (k : Block 32) (nonce : Block 12) : UInt8 :=
  UInt8.ofNat (checksum (k.toList ++ nonce.toList))

def tag (k : Block 32) (nonce : Block 12) (ad body : Bytes) : Bytes :=
  digits 16 (checksum (k.toList ++ nonce.toList ++ ad ++ body))

def sealBody (k : Block 32) (nonce : Block 12) (ad m : Bytes) : Bytes :=
  m.map (· ^^^ mask k nonce) ++ tag k nonce ad (m.map (· ^^^ mask k nonce))

def openBody (k : Block 32) (nonce : Block 12) (ad c : Bytes) : Option Bytes :=
  if 16 ≤ c.length ∧ c.drop (c.length - 16) = tag k nonce ad (c.take (c.length - 16)) then
    some ((c.take (c.length - 16)).map (· ^^^ mask k nonce))
  else none

theorem digits_length (w n : Nat) : (digits w n).length = w := by simp [digits]

theorem tag_length (k : Block 32) (nonce : Block 12) (ad body : Bytes) :
    (tag k nonce ad body).length = 16 := digits_length _ _

theorem openBody_sealBody (k : Block 32) (nonce : Block 12) (ad m : Bytes) :
    openBody k nonce ad (sealBody k nonce ad m) = some m := by
  have hlen : (sealBody k nonce ad m).length - 16 = (m.map (· ^^^ mask k nonce)).length := by
    simp [sealBody, tag_length]
  have htake : (sealBody k nonce ad m).take ((sealBody k nonce ad m).length - 16) =
      m.map (· ^^^ mask k nonce) := by
    rw [hlen, sealBody, List.take_left]
  have hdrop : (sealBody k nonce ad m).drop ((sealBody k nonce ad m).length - 16) =
      tag k nonce ad (m.map (· ^^^ mask k nonce)) := by
    rw [hlen, sealBody, List.drop_left]
  have hle : 16 ≤ (sealBody k nonce ad m).length := by simp [sealBody, tag_length]
  have hback : (m.map (· ^^^ mask k nonce)).map (· ^^^ mask k nonce) = m := by
    rw [List.map_map]
    refine List.map_id'' ?_ m
    intro b
    change b ^^^ mask k nonce ^^^ mask k nonce = b
    rw [UInt8.xor_assoc, UInt8.xor_self, UInt8.xor_zero]
  rw [openBody, htake, hdrop, if_pos ⟨hle, rfl⟩, hback]

theorem element_block {n : Nat} (h : n < 65536) : element (block 32 n) = n := by
  simp only [element, block, digits, List.getD_eq_getElem?_getD, List.getElem?_map,
    List.getElem?_range, Option.map_some, Option.getD_some, UInt8.toNat_ofNat', Nat.reduceLT,
    Nat.pow_zero, Nat.div_one, Nat.pow_one, Nat.reducePow]
  omega

/-- The instance. An Ed25519 key and its X25519 form differ in every bit. -/
def external : External where
  genericHash l := block 64 (checksum l)
  scalarmult sk pk :=
    let z := power (element pk) sk
    if z = 0 then none else some (block 32 z)
  scalarmultBase sk := block 32 (power 17 sk)
  aeadEncrypt := sealBody
  aeadDecrypt := openBody
  signSkToCurve25519 sk := some ⟨sk.toList.take 32, by simp⟩
  signPkToCurve25519 pk := some ⟨pk.toList.map (· ^^^ 0xff), by simp⟩
  handshakeKeysSize := 176
  aeadEncrypt_length := by
    intro k n ad m
    simp [sealBody, tag_length]
  aeadDecrypt_length := by
    intro k n ad c m h
    unfold openBody at h
    split at h
    · rename_i hc
      rw [← Option.some.inj h, List.length_map, List.length_take]
      change _ = _ + 16
      omega
    · cases h

/-- A shared secret is a power of the generator. -/
theorem power_power (a b : Block 32) :
    power (element (block 32 (power 17 b))) a = 17 ^ (exponent b * exponent a) % 65521 := by
  have hlt : power 17 b < 65536 := Nat.lt_trans (Nat.mod_lt _ (by decide)) (by decide)
  rw [element_block hlt, power, power, ← Nat.pow_mod, ← Nat.pow_mul]

theorem external_dhCommutes : external.DhCommutes := by
  intro a b
  simp only [external, power_power, Nat.mul_comm (exponent a)]

theorem external_dhHonest : external.DhHonest := by
  intro a b
  have hne : 17 ^ (exponent b * exponent a) % 65521 ≠ 0 := by
    intro hzero
    have hcop : Nat.Coprime 65521 (17 ^ (exponent b * exponent a)) :=
      Nat.Coprime.pow_right _ (by decide)
    have hone := Nat.Coprime.eq_one_of_dvd hcop (Nat.dvd_of_mod_eq_zero hzero)
    exact absurd hone (by decide)
  simp only [external, power_power]
  rw [if_neg hne]
  rfl

theorem external_aeadRoundTrip : external.AeadRoundTrip := openBody_sealBody

theorem external_aeadExact : external.AeadExact := by
  intro k nonce ad c m h
  have hopen : openBody k nonce ad c = some m := h
  rw [openBody] at hopen
  split at hopen
  · rename_i hc
    obtain ⟨hlen, htag⟩ := hc
    obtain rfl := Option.some.inj hopen
    have hback : ((c.take (c.length - 16)).map (· ^^^ mask k nonce)).map (· ^^^ mask k nonce) =
        c.take (c.length - 16) := by
      rw [List.map_map]
      refine List.map_id'' ?_ _
      intro b
      change b ^^^ mask k nonce ^^^ mask k nonce = b
      rw [UInt8.xor_assoc, UInt8.xor_self, UInt8.xor_zero]
    change c = sealBody k nonce ad _
    rw [sealBody, hback, ← htag, List.take_append_drop]
  · cases hopen

/-- An Ed25519 key pair whose seed repeats one byte: the secret key in libsodium's
layout and the public key. -/
def signKeypair (b : UInt8) : Block 64 × Block 32 :=
  let seed : Block 32 := ⟨List.replicate 32 b, by simp⟩
  let pk : Block 32 := ⟨(external.scalarmultBase seed).toList.map (· ^^^ 0xff), by simp⟩
  (⟨seed.toList ++ pk.toList, by simp⟩, pk)

/-- The secret key that repeats one byte. -/
def secretKey (b : UInt8) : Block 32 := ⟨List.replicate 32 b, by simp⟩

/-- The key pair of that secret. -/
def keypair (b : UInt8) : Keypair := generateKeypair external (secretKey b)

/-- Arguments of `handshake_open` for a party with that key pair. -/
def openArgs (role : GnRole) (b : UInt8) (remote : Option (Block 32)) : OpenArgs where
  role := role
  localStaticSk := some (signKeypair b).1
  localStaticPk := some (signKeypair b).2
  remoteStaticPk := remote

/-- A session opened for XX. -/
def xxSession (role : GnRole) (b : UInt8) : NoiseSession :=
  NoiseSession.make external .xx (role = .initiator) (keypair b) none

end SecurityNoise.Miniature
