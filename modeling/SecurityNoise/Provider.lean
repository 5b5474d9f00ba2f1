import SecurityNoise.Handshake
import SecurityNoise.Transport

/-!
# The security provider

The session object and the vtable entries of `noise.cpp`. Entries take a live session;
an out argument is `none` when the caller passes a null pointer, and `alloc` is whether
the call's allocation succeeds.
-/

namespace SecurityNoise

inductive GnResult
  | ok
  | errNullArg
  | errInvalidEnvelope
  | errOutOfMemory
  | errInvalidState
  deriving DecidableEq, Repr

/-- `gn_handshake_role_t`. -/
inductive GnRole
  | initiator
  | responder
  deriving DecidableEq, Repr

/-- A release function in a buffer: the plugin's own, or whatever the caller left there. -/
inductive FreeFn
  | freeBuffer
  | foreign (address : UInt64)
  deriving DecidableEq, Repr

/-- `gn_secure_buffer_t`. -/
structure SecureBuffer where
  bytes : Option Bytes := none
  size : Nat := 0
  freeUserData : Option UInt64 := none
  freeFn : Option FreeFn := none
  deriving DecidableEq

/-- The exported hash is the first 32 bytes of the handshake hash. -/
theorem hashBytes_le : 32 ≤ HASHLEN := by decide

/-- `gn_handshake_keys_t`. -/
structure HandshakeKeys where
  apiSize : Nat
  sendCipherKey : Block 32
  recvCipherKey : Block 32
  initialSendNonce : UInt64
  initialRecvNonce : UInt64
  handshakeHash : Block 32
  peerStaticPk : Block 32
  deriving DecidableEq

structure NoiseSession where
  handshake : HandshakeState
  transport : TransportState := {}
  role : GnRole
  splitDone : Bool := false
  keysExported : Bool := false
  localPk : PublicKey
  peerPkPresent : Bool := false
  peerX25519Pk : PublicKey := Block.zero DH_PUBLIC_KEY_BYTES
  deriving DecidableEq

/-- `emit_buffer`. -/
def emitBuffer (alloc : Bool) (src : Bytes) (out : Option SecureBuffer) :
    GnResult × Option SecureBuffer :=
  match out with
  | none => (.errNullArg, none)
  | some buffer =>
      if src.isEmpty then (.ok, some {})
      else if !alloc then (.errOutOfMemory, some buffer)
      else (.ok, some { bytes := some src, size := src.length, freeFn := some .freeBuffer })

section Open

variable (X : External)

/-- The constructor of `NoiseSession`. -/
def NoiseSession.make (pattern : Pattern) (initiator : Bool) (staticKeypair : Keypair)
    (preKnownRs : Option PublicKey) : NoiseSession where
  handshake := HandshakeState.make X pattern initiator staticKeypair preKnownRs
  role := if initiator then .initiator else .responder
  localPk := staticKeypair.pk

def ed25519ToX25519 (edSk : Block 64) (edPk : Block 32) : Option Keypair :=
  match X.signSkToCurve25519 edSk with
  | none => none
  | some sk =>
      match X.signPkToCurve25519 edPk with
      | none => none
      | some pk => some ⟨pk, sk⟩

/-- The arguments of `handshake_open`; a missing key is a null pointer. -/
structure OpenArgs where
  role : GnRole
  localStaticSk : Option (Block 64)
  localStaticPk : Option (Block 32)
  remoteStaticPk : Option (Block 32) := none
  outState : Bool := true
  alloc : Bool := true

/-- The pre-known static key `noise_handshake_open_impl` pins: required for an IK
initiator, ignored otherwise. -/
def pinnedKey (pattern : Pattern) (args : OpenArgs) : Except GnResult (Option PublicKey) :=
  if pattern = .ik ∧ args.role = .initiator then
    match args.remoteStaticPk with
    | none => .error .errNullArg
    | some remote =>
        match X.signPkToCurve25519 remote with
        | none => .error .errInvalidEnvelope
        | some rs => .ok (some rs)
  else .ok none

/-- `noise_handshake_open_impl`, the body of both `handshake_open` entries. -/
def noiseHandshakeOpen (pattern : Pattern) (args : OpenArgs) :
    GnResult × Option NoiseSession :=
  match args.outState, args.localStaticSk, args.localStaticPk with
  | true, some edSk, some edPk =>
      match ed25519ToX25519 X edSk edPk with
      | none => (.errInvalidEnvelope, none)
      | some staticKp =>
          match pinnedKey X pattern args with
          | .error code => (code, none)
          | .ok rs =>
              if !args.alloc then (.errOutOfMemory, none)
              else (.ok, some (NoiseSession.make X pattern (args.role = .initiator) staticKp rs))
  | _, _, _ => (.errNullArg, none)

end Open

section Entries

variable (X : External)

/-- What `handshake_step` returns and leaves, and the record of its message calls. -/
structure StepReply where
  code : GnResult
  out : Option SecureBuffer
  session : NoiseSession
  log : List Event
  deriving DecidableEq

/-- Whether the local side writes the next message: at even steps the initiator does. -/
def NoiseSession.writerTurn (s : NoiseSession) : Bool :=
  (s.handshake.step % 2 == 0) == (s.role == .initiator)

/-- The second half of `noise_handshake_step`: write if it is the local side's turn. -/
def writeTurn (s : NoiseSession) (log : List Event) (random : PrivateKey) (alloc : Bool)
    (out : SecureBuffer) : Except Fatal StepReply :=
  if !s.writerTurn then .ok ⟨.ok, some out, s, log⟩
  else match s.handshake.writeMessage X random [] with
    | .error e => .error e
    | .ok (none, t) =>
        .ok ⟨.errInvalidEnvelope, some out, { s with handshake := t.hs }, log ++ t.log⟩
    | .ok (some produced, t) =>
        let (code, out) := emitBuffer alloc produced (some out)
        .ok ⟨code, out, { s with handshake := t.hs }, log ++ t.log⟩

/-- `noise_handshake_step`: incoming bytes are read first, whoever's turn it is. -/
def noiseHandshakeStep (s : NoiseSession) (incoming : Bytes) (random : PrivateKey)
    (alloc : Bool) (out : Option SecureBuffer) : Except Fatal StepReply :=
  match out with
  | none => .ok ⟨.errNullArg, none, s, []⟩
  | some _ =>
      let cleared : SecureBuffer := {}
      if incoming.length > 0 then
        match s.handshake.readMessage X incoming with
        | .error e => .error e
        | .ok (none, t) =>
            .ok ⟨.errInvalidEnvelope, some cleared, { s with handshake := t.hs }, t.log⟩
        | .ok (some _, t) =>
            if t.hs.isComplete then
              .ok ⟨.ok, some cleared, { s with handshake := t.hs }, t.log⟩
            else writeTurn X { s with handshake := t.hs } t.log random alloc cleared
      else writeTurn X s [] random alloc cleared

def noiseHandshakeComplete (s : NoiseSession) : Nat :=
  if s.handshake.isComplete then 1 else 0

/-- `noise_export_transport_keys`: the result, the out argument and the session left. -/
def noiseExportTransportKeys (s : NoiseSession) (out : Option HandshakeKeys) :
    GnResult × Option HandshakeKeys × NoiseSession :=
  match out with
  | none => (.errNullArg, none, s)
  | some keys =>
      if !s.handshake.isComplete then (.errInvalidState, some keys, s)
      else if s.splitDone then (.errInvalidState, some keys, s)
      else
        let (pair, handshake) := s.handshake.split X
        let peer := handshake.peerStaticPublicKey
        (.ok,
          some
            { apiSize := X.handshakeKeysSize
              sendCipherKey := pair.send.k
              recvCipherKey := pair.recv.k
              initialSendNonce := 0
              initialRecvNonce := 0
              handshakeHash := Block.truncate hashBytes_le handshake.handshakeHash
              peerStaticPk := peer },
          { s with
            handshake := handshake
            peerX25519Pk := peer
            splitDone := true
            keysExported := true })

/-- `noise_encrypt`. -/
def noiseEncrypt (s : NoiseSession) (plaintext : Bytes) (alloc : Bool)
    (out : Option SecureBuffer) :
    Except Fatal (GnResult × Option SecureBuffer × NoiseSession) :=
  if !s.splitDone then .ok (.errInvalidState, out, s)
  else if s.keysExported then .ok (.errInvalidState, out, s)
  else match s.transport.encryptThenRekey X plaintext with
    | .error e => .error e
    | .ok (cipher, transport) =>
        let (code, out) := emitBuffer alloc cipher out
        .ok (code, out, { s with transport := transport })

/-- `noise_decrypt`. -/
def noiseDecrypt (s : NoiseSession) (ciphertext : Bytes) (alloc : Bool)
    (out : Option SecureBuffer) :
    Except Fatal (GnResult × Option SecureBuffer × NoiseSession) :=
  if !s.splitDone then .ok (.errInvalidState, out, s)
  else if s.keysExported then .ok (.errInvalidState, out, s)
  else match s.transport.decryptThenRekey X ciphertext with
    | .error e => .error e
    | .ok (none, transport) =>
        .ok (.errInvalidEnvelope, out, { s with transport := transport })
    | .ok (some plain, transport) =>
        let (code, out) := emitBuffer alloc plain out
        .ok (code, out, { s with transport := transport })

/-- `noise_rekey`. -/
def noiseRekey (s : NoiseSession) : GnResult × NoiseSession :=
  if !s.splitDone then (.errInvalidState, s)
  else if s.keysExported then (.errInvalidState, s)
  else (.ok, { s with transport := s.transport.rekey X })

end Entries

section Vtable

variable (X : External)

/-- A call through the vtable with non-null arguments; out arguments carry what the
caller's memory held before. -/
inductive Call
  | handshakeStep (incoming : Bytes) (random : PrivateKey) (alloc : Bool) (out : SecureBuffer)
  | handshakeComplete
  | exportTransportKeys (out : HandshakeKeys)
  | encrypt (plaintext : Bytes) (alloc : Bool) (out : SecureBuffer)
  | decrypt (ciphertext : Bytes) (alloc : Bool) (out : SecureBuffer)
  | rekey

/-- What a call returns, with its out argument. -/
inductive Reply
  | buffer (code : GnResult) (out : Option SecureBuffer)
  | complete (answer : Nat)
  | keys (code : GnResult) (out : Option HandshakeKeys)
  | code (code : GnResult)
  deriving DecidableEq

/-- One call through the vtable. -/
def vtable (s : NoiseSession) : Call → Except Fatal (Reply × NoiseSession)
  | .handshakeStep incoming random alloc out =>
      match noiseHandshakeStep X s incoming random alloc (some out) with
      | .error e => .error e
      | .ok r => .ok (.buffer r.code r.out, r.session)
  | .handshakeComplete => .ok (.complete (noiseHandshakeComplete s), s)
  | .exportTransportKeys out =>
      let (code, out, s') := noiseExportTransportKeys X s (some out)
      .ok (.keys code out, s')
  | .encrypt plaintext alloc out =>
      match noiseEncrypt X s plaintext alloc (some out) with
      | .error e => .error e
      | .ok (code, out, s') => .ok (.buffer code out, s')
  | .decrypt ciphertext alloc out =>
      match noiseDecrypt X s ciphertext alloc (some out) with
      | .error e => .error e
      | .ok (code, out, s') => .ok (.buffer code out, s')
  | .rekey =>
      let (code, s') := noiseRekey X s
      .ok (.code code, s')

/-- The steps of a session: a call and its reply. -/
def VtableStep (s : NoiseSession) (l : Call × Reply) (s' : NoiseSession) : Prop :=
  vtable X s l.1 = .ok (l.2, s')

/-- A session that `handshake_open` returned. -/
def Opened (pattern : Pattern) (args : OpenArgs) (s : NoiseSession) : Prop :=
  noiseHandshakeOpen X pattern args = (.ok, some s)

end Vtable

end SecurityNoise
