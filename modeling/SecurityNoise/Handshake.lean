import SecurityNoise.Foundation.EarlyExit
import SecurityNoise.Symmetric

/-!
# `HandshakeState`

The pattern state machine of `handshake.cpp`. `writeMessage` and `readMessage` keep
whatever they have changed when they return early, as the sources do; each arm of
their two switches is written out.

## Implementation notes

A call also records what it computes (key pairs drawn, DH results asked for, hash
inputs, whether the cipher had a key, messages counted). No function reads the
record; it exists so that results can speak about a call's inside.
-/

namespace SecurityNoise

structure Keypair where
  pk : PublicKey
  sk : PrivateKey
  deriving DecidableEq

/-- `generate_keypair`, given the 32 bytes the random generator returns. -/
def generateKeypair (X : External) (random : PrivateKey) : Keypair :=
  ⟨X.scalarmultBase random, random⟩

inductive Pattern
  | xx
  | ik
  deriving DecidableEq, Repr

/-- The bytes of an ASCII string. -/
def ascii (s : String) : Bytes := s.toList.map fun c => UInt8.ofNat c.toNat

def protocolName : Pattern → Bytes
  | .xx => ascii "Noise_XX_25519_ChaChaPoly_BLAKE2b"
  | .ik => ascii "Noise_IK_25519_ChaChaPoly_BLAKE2b"

def patternTotalSteps : Pattern → Nat
  | .xx => 3
  | .ik => 2

/-- `kPrologue`. -/
def prologue : Bytes := ascii "goodnet/v1/noise"

structure HandshakeState where
  pattern : Pattern
  initiator : Bool
  step : Nat := 0
  stepsTotal : Nat
  symmetric : SymmetricState
  sSk : PrivateKey := Block.zero DH_PRIVATE_KEY_BYTES
  sPk : PublicKey := Block.zero DH_PUBLIC_KEY_BYTES
  eSk : PrivateKey := Block.zero DH_PRIVATE_KEY_BYTES
  ePk : PublicKey := Block.zero DH_PUBLIC_KEY_BYTES
  rs : PublicKey := Block.zero DH_PUBLIC_KEY_BYTES
  re : PublicKey := Block.zero DH_PUBLIC_KEY_BYTES
  rsKnown : Bool := false
  stepsTotal_eq : stepsTotal = patternTotalSteps pattern
  deriving DecidableEq

/-- The two ciphers of the transport phase, by direction. -/
structure TransportPair where
  send : CipherState
  recv : CipherState
  deriving DecidableEq

/-- Whether a message is written or read. -/
inductive Direction
  | written
  | read
  deriving DecidableEq, Repr

/-- The local secret a DH uses. -/
inductive Own
  | ephemeral
  | static
  deriving DecidableEq, Repr

/-- The remote public key a DH uses. -/
inductive Peer
  | re
  | rs
  deriving DecidableEq, Repr

/-- What a call computes, besides the state it leaves. -/
inductive Event
  | drew (e : Keypair)
  | dh (dir : Direction) (own : Own) (sk : PrivateKey) (pk : PublicKey)
  | hashed (input : Bytes)
  | static (dir : Direction) (keyed : Bool)
  | payload (dir : Direction) (keyed : Bool)
  | processed (i : Nat) (dir : Direction)
  deriving DecidableEq

/-- A state and the record of the call in progress. -/
structure Traced where
  hs : HandshakeState
  log : List Event
  deriving DecidableEq

/-- A piece of `write_message` or `read_message`; `return std::nullopt` is `leave`. -/
abbrev Op := EarlyExit Fatal Traced

namespace HandshakeState

variable (X : External)

/-- The constructor. For IK both sides hash the responder's static key before any
message; an initiator without one skips that. -/
def make (pattern : Pattern) (initiator : Bool) (staticKeys : Keypair)
    (preKnownRs : Option PublicKey) : HandshakeState :=
  let symmetric :=
    (SymmetricState.initializeProtocol X (protocolName pattern)).mixHash X prologue
  let hs : HandshakeState :=
    { pattern := pattern, initiator := initiator, stepsTotal := patternTotalSteps pattern
      symmetric := symmetric, sSk := staticKeys.sk, sPk := staticKeys.pk
      stepsTotal_eq := rfl }
  if pattern = .ik then
    if initiator then
      match preKnownRs with
      | some rs =>
          { hs with rs := rs, rsKnown := true, symmetric := symmetric.mixHash X rs.toList }
      | none => hs
    else { hs with symmetric := symmetric.mixHash X staticKeys.pk.toList }
  else hs

def isComplete (hs : HandshakeState) : Bool := hs.step ≥ hs.stepsTotal

def handshakeHash (hs : HandshakeState) : Digest := hs.symmetric.h

def peerStaticPublicKey (hs : HandshakeState) : PublicKey := hs.rs

def peerStaticKnown (hs : HandshakeState) : Bool := hs.rsKnown

def secret (hs : HandshakeState) : Own → PrivateKey
  | .ephemeral => hs.eSk
  | .static => hs.sSk

def peerKey (hs : HandshakeState) : Peer → PublicKey
  | .re => hs.re
  | .rs => hs.rs

end HandshakeState

section Operations

variable (X : External)

/-- Records an event. -/
def emit (e : Event) : Op PUnit :=
  EarlyExit.update fun t => { t with log := t.log ++ [e] }

/-- Changes the handshake state. -/
def change (f : HandshakeState → HandshakeState) : Op PUnit :=
  EarlyExit.update fun t => { t with hs := f t.hs }

/-- `symmetric_.mix_hash`. -/
def mixHash (data : Bytes) : Op PUnit := do
  let t ← EarlyExit.get
  emit (.hashed (t.hs.symmetric.h.toList ++ data))
  change fun hs => { hs with symmetric := hs.symmetric.mixHash X data }

/-- `symmetric_.encrypt_and_hash`. -/
def encryptAndHash (plaintext : Bytes) : Op Bytes := do
  let t ← EarlyExit.get
  let c ← EarlyExit.lift fun t =>
    match t.hs.symmetric.encryptAndHash X plaintext with
    | .error e => .error e
    | .ok (c, symmetric) => .ok (c, { t with hs := { t.hs with symmetric := symmetric } })
  emit (.hashed (t.hs.symmetric.h.toList ++ c))
  pure c

/-- `symmetric_.decrypt_and_hash`, returning early when the ciphertext does not open. -/
def decryptAndHash (ciphertext : Bytes) : Op Bytes := do
  let t ← EarlyExit.get
  let plain ← EarlyExit.liftOption fun t =>
    match t.hs.symmetric.decryptAndHash X ciphertext with
    | .error e => .error e
    | .ok (plain, symmetric) =>
        .ok (plain, { t with hs := { t.hs with symmetric := symmetric } })
  emit (.hashed (t.hs.symmetric.h.toList ++ ciphertext))
  pure plain

/-- The lambda `write_e`: a fresh ephemeral key, its public half on the wire and in
the hash. -/
def writeE (random : PrivateKey) : Op Bytes := do
  let e := generateKeypair X random
  emit (.drew e)
  change fun hs => { hs with ePk := e.pk, eSk := e.sk }
  mixHash X e.pk.toList
  pure e.pk.toList

/-- The lambda `mix_dh`, in either function. -/
def mixDh (dir : Direction) (own : Own) (peer : Peer) : Op PUnit := do
  let t ← EarlyExit.get
  emit (.dh dir own (t.hs.secret own) (t.hs.peerKey peer))
  match X.scalarmult (t.hs.secret own) (t.hs.peerKey peer) with
  | none => EarlyExit.leave
  | some shared =>
      change fun hs => { hs with symmetric := hs.symmetric.mixKey X shared.toList }

/-- The lambda `encrypt_static`. -/
def encryptStatic : Op Bytes := do
  let t ← EarlyExit.get
  emit (.static .written t.hs.symmetric.cipher.hasKey)
  encryptAndHash X t.hs.sPk.toList

/-- The lambda `encrypt_payload`. -/
def encryptPayload (payload : Bytes) : Op Bytes := do
  let t ← EarlyExit.get
  emit (.payload .written t.hs.symmetric.cipher.hasKey)
  encryptAndHash X payload

/-- Counts a processed message, `++step_`. -/
def advance (dir : Direction) : Op PUnit := do
  let t ← EarlyExit.get
  emit (.processed t.hs.step dir)
  change fun hs => { hs with step := hs.step + 1 }

/-- The bytes of a buffer from `offset` on; reading outside it is undefined. -/
def readSpan (message : Bytes) (offset len : Nat) : Op Bytes :=
  EarlyExit.lift fun t =>
    match span message offset len with
    | none => .error .outOfBounds
    | some b => .ok (b, t)

/-- `memcpy` from a buffer into a key. -/
def readKey (message : Bytes) (offset : Nat) : Op PublicKey :=
  EarlyExit.lift fun t =>
    match spanBlock DH_PUBLIC_KEY_BYTES message offset with
    | none => .error .outOfBounds
    | some b => .ok (b, t)

/-- The lambda `read_e`; the value is the new offset. -/
def readE (message : Bytes) (offset : Nat) : Op Nat :=
  if message.length < offset + DH_PUBLIC_KEY_BYTES then EarlyExit.leave
  else do
    let re ← readKey message offset
    change fun hs => { hs with re := re }
    mixHash X re.toList
    pure (offset + DH_PUBLIC_KEY_BYTES)

/-- The lambda `read_encrypted_static`; the value is the new offset. -/
def readEncryptedStatic (message : Bytes) (offset : Nat) : Op Nat :=
  let encLen := DH_PUBLIC_KEY_BYTES + AEAD_TAG_BYTES
  if message.length < offset + encLen then EarlyExit.leave
  else do
    let enc ← readSpan message offset encLen
    let t ← EarlyExit.get
    emit (.static .read t.hs.symmetric.cipher.hasKey)
    let plain ← decryptAndHash X enc
    match Block.ofBytes? DH_PUBLIC_KEY_BYTES plain with
    | none => EarlyExit.leave
    | some rs =>
        change fun hs => { hs with rs := rs, rsKnown := true }
        pure (offset + encLen)

/-- The switch of `write_message`: the bytes written so far, without the payload, are
accumulated in `out`. -/
def writeArm (random : PrivateKey) (payload : Bytes) : Nat → Pattern → Op Bytes
  | 0, .ik => do
      let out ← writeE X random
      mixDh X .written .ephemeral .rs                     -- es
      let s ← encryptStatic X                             -- s
      mixDh X .written .static .rs                        -- ss
      let p ← encryptPayload X payload
      pure (out ++ s ++ p)
  | 0, .xx => do
      let out ← writeE X random
      let p ← encryptPayload X payload
      pure (out ++ p)
  | 1, .ik => do
      let out ← writeE X random
      mixDh X .written .ephemeral .re                     -- ee
      mixDh X .written .static .re                        -- se, says the source
      let p ← encryptPayload X payload
      pure (out ++ p)
  | 1, .xx => do
      let out ← writeE X random
      mixDh X .written .ephemeral .re                     -- ee
      let s ← encryptStatic X                             -- s
      mixDh X .written .static .re                        -- es
      let p ← encryptPayload X payload
      pure (out ++ s ++ p)
  | 2, _ => do
      let s ← encryptStatic X                             -- s
      mixDh X .written .static .re                        -- se
      let p ← encryptPayload X payload
      pure (s ++ p)
  | _, _ => EarlyExit.leave

/-- The switch of `read_message`; the value is the offset of the payload. -/
def readArm (message : Bytes) : Nat → Pattern → Op Nat
  | 0, .ik => do
      let offset ← readE X message 0
      mixDh X .read .static .re                           -- es
      let offset ← readEncryptedStatic X message offset   -- s
      mixDh X .read .static .rs                           -- ss
      pure offset
  | 0, .xx => readE X message 0
  | 1, .ik => do
      let offset ← readE X message 0
      mixDh X .read .ephemeral .re                        -- ee
      mixDh X .read .ephemeral .rs                        -- se, says the source
      pure offset
  | 1, .xx => do
      let offset ← readE X message 0
      mixDh X .read .ephemeral .re                        -- ee
      let offset ← readEncryptedStatic X message offset   -- s
      mixDh X .read .ephemeral .rs                        -- es
      pure offset
  | 2, _ => do
      let offset ← readEncryptedStatic X message 0        -- s
      mixDh X .read .ephemeral .rs                        -- se
      pure offset
  | _, _ => EarlyExit.leave

/-- The body of `write_message`. -/
def writeMessageOp (random : PrivateKey) (payload : Bytes) : Op Bytes := do
  let t ← EarlyExit.get
  if t.hs.isComplete then EarlyExit.leave
  else do
    let out ← writeArm X random payload t.hs.step t.hs.pattern
    advance .written
    pure out

/-- The body of `read_message`. -/
def readMessageOp (message : Bytes) : Op Bytes := do
  let t ← EarlyExit.get
  if t.hs.isComplete then EarlyExit.leave
  else do
    let offset ← readArm X message t.hs.step t.hs.pattern
    let rest ← readSpan message offset (message.length - offset)
    let t ← EarlyExit.get
    emit (.payload .read t.hs.symmetric.cipher.hasKey)
    let plain ← decryptAndHash X rest
    advance .read
    pure plain

end Operations

namespace HandshakeState

variable (X : External)

/-- `write_message`, given the random bytes a fresh ephemeral key would be drawn from:
the message if there is one, the state left and the record of the call. -/
def writeMessage (hs : HandshakeState) (random : PrivateKey) (payload : Bytes) :
    Except Fatal (Option Bytes × Traced) :=
  (writeMessageOp X random payload).run ⟨hs, []⟩

/-- `read_message`: the payload if the message is accepted, the state left and the
record of the call. -/
def readMessage (hs : HandshakeState) (message : Bytes) :
    Except Fatal (Option Bytes × Traced) :=
  (readMessageOp X message).run ⟨hs, []⟩

/-- `split`: the transport ciphers by role; the static and ephemeral secrets, the
ephemeral public key and the peer's ephemeral key are wiped. -/
def split (hs : HandshakeState) : TransportPair × HandshakeState :=
  let (pair, symmetric) := hs.symmetric.split X
  let tp : TransportPair :=
    if hs.initiator then ⟨pair.first, pair.second⟩ else ⟨pair.second, pair.first⟩
  (tp, { hs with
    symmetric := symmetric
    sSk := Block.zero DH_PRIVATE_KEY_BYTES
    eSk := Block.zero DH_PRIVATE_KEY_BYTES
    ePk := Block.zero DH_PUBLIC_KEY_BYTES
    re := Block.zero DH_PUBLIC_KEY_BYTES })

variable {X}

/-- What every constructed state starts with. -/
theorem make_start (p : Pattern) (initiator : Bool) (keys : Keypair) (rs : Option PublicKey) :
    (make X p initiator keys rs).pattern = p ∧
      (make X p initiator keys rs).initiator = initiator ∧
      (make X p initiator keys rs).step = 0 := by
  unfold make
  cases p <;> cases initiator <;> cases rs <;> exact ⟨rfl, rfl, rfl⟩

end HandshakeState

end SecurityNoise
