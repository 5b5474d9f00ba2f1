import SecurityNoise.Cipher

/-!
# `TransportState`

The send and receive ciphers of the transport phase, and the two sequences in which
the provider drives them: encrypt, then rekey if needed; decrypt, then rekey if the
frame opened and a rekey is needed.
-/

namespace SecurityNoise

/-- `REKEY_INTERVAL`, `2^60`. -/
def REKEY_INTERVAL : UInt64 := (1 : UInt64) <<< 60

structure TransportState where
  send : CipherState := {}
  recv : CipherState := {}
  deriving DecidableEq

namespace TransportState

variable (X : External)

def encrypt (t : TransportState) (plaintext : Bytes) : Except Fatal (Bytes × TransportState) :=
  match t.send.encryptWithAd X [] plaintext with
  | .error e => .error e
  | .ok (c, send) => .ok (c, { t with send := send })

def decrypt (t : TransportState) (ciphertext : Bytes) :
    Except Fatal (Option Bytes × TransportState) :=
  match t.recv.decryptWithAd X [] ciphertext with
  | .error e => .error e
  | .ok (p, recv) => .ok (p, { t with recv := recv })

/-- Both keys move on and both nonces return to zero. -/
def rekey (t : TransportState) : TransportState :=
  { send := (t.send.rekey X).resetNonceToZero
    recv := (t.recv.rekey X).resetNonceToZero }

def needsRekey (t : TransportState) : Bool :=
  t.send.n ≥ REKEY_INTERVAL || t.recv.n ≥ REKEY_INTERVAL

/-- `if (needs_rekey()) rekey()`. -/
def rekeyIfNeeded (t : TransportState) : TransportState :=
  if t.needsRekey then t.rekey X else t

/-- The sequence of `noise_encrypt`. -/
def encryptThenRekey (t : TransportState) (plaintext : Bytes) :
    Except Fatal (Bytes × TransportState) :=
  match t.encrypt X plaintext with
  | .error e => .error e
  | .ok (c, t') => .ok (c, t'.rekeyIfNeeded X)

/-- The sequence of `noise_decrypt`: a rejected frame triggers nothing. -/
def decryptThenRekey (t : TransportState) (ciphertext : Bytes) :
    Except Fatal (Option Bytes × TransportState) :=
  match t.decrypt X ciphertext with
  | .error e => .error e
  | .ok (none, t') => .ok (none, t')
  | .ok (some p, t') => .ok (some p, t'.rekeyIfNeeded X)

variable {X}
variable {t t' : TransportState} {c : Bytes}

/-- A rejected frame changes nothing. -/
theorem decrypt_none (h : t.decrypt X c = .ok (none, t')) : t' = t := by
  unfold decrypt at h
  split at h
  · cases h
  · rename_i p recv hrecv
    obtain ⟨rfl, rfl⟩ := Prod.mk.inj (Except.ok.inj h)
    rw [CipherState.decryptWithAd_none hrecv]

theorem decryptThenRekey_none (h : t.decryptThenRekey X c = .ok (none, t')) :
    t.decrypt X c = .ok (none, t') := by
  unfold decryptThenRekey at h
  split at h
  · cases h
  · rename_i t₁ hdecrypt
    obtain ⟨_, rfl⟩ := Prod.mk.inj (Except.ok.inj h)
    exact hdecrypt
  · cases (Prod.mk.inj (Except.ok.inj h)).1

end TransportState

end SecurityNoise
