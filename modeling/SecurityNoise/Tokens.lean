import SecurityNoise.Handshake
import SecurityNoise.Framework.Interpreter

/-!
# The switch arms as token lists

Each arm of `write_message` and of `read_message` runs the tokens of one message, with
the DH operands of the party that writes or reads that message. The second IK message
runs `e, ee, es`: its last DH is the one of `es`, although the sources call it `se`.
-/

namespace SecurityNoise

open Framework (Role Token)

/-- The tokens the arms run, by pattern and message number. -/
def armTokens : Pattern → Nat → List Token
  | .xx, 0 => [.e]
  | .xx, 1 => [.e, .ee, .s, .es]
  | .xx, 2 => [.s, .se]
  | .ik, 0 => [.e, .es, .s, .ss]
  | .ik, 1 => [.e, .ee, .es]
  | _, _ => []

/-- The role that writes message `i`. -/
def writerOf (i : Nat) : Role := if i % 2 = 0 then .initiator else .responder

/-- The role that reads message `i`. -/
def readerOf (i : Nat) : Role := (writerOf i).other

/-- Whether a role writes or reads message `i`. -/
def directionOf (role : Role) (i : Nat) : Direction :=
  if role = writerOf i then .written else .read

/-- The other party than the writer reads. -/
theorem eq_readerOf {role : Role} {i : Nat} (h : role ≠ writerOf i) : role = readerOf i := by
  rw [readerOf]
  cases role <;> cases hw : writerOf i
  · exact absurd hw.symm h
  · rfl
  · rfl
  · exact absurd hw.symm h

theorem directionOf_reader {role : Role} {i : Nat} (h : role = readerOf i) :
    directionOf role i = .read := by
  rw [h, directionOf, if_neg]
  rw [readerOf]
  cases writerOf i <;> decide

/-- The message in which a role sends its ephemeral key. -/
def ephemeralMessage : Role → Nat
  | .initiator => 0
  | .responder => 1

/-- The operands of a DH token, by the role of the party that computes it. -/
def dhOperands (role : Role) : Token → Own × Peer
  | .ee => (.ephemeral, .re)
  | .es => match role with
      | .initiator => (.ephemeral, .rs)
      | .responder => (.static, .re)
  | .se => match role with
      | .initiator => (.static, .re)
      | .responder => (.ephemeral, .rs)
  | _ => (.static, .rs)

/-- The bytes of a token on the wire, a static key being encrypted. -/
def wireSize : Token → Nat
  | .e => DH_PUBLIC_KEY_BYTES
  | .s => DH_PUBLIC_KEY_BYTES + AEAD_TAG_BYTES
  | _ => 0

theorem wireSize_of_dh {t : Token} (ht : t.isDh = true) : wireSize t = 0 := by
  cases t with
  | e => cases ht
  | s => cases ht
  | _ => rfl

/-- The bytes of a message besides its payload. -/
def overhead (p : Pattern) (i : Nat) : Nat :=
  ((armTokens p i).map wireSize).sum + if (armTokens p i).any Token.isDh then AEAD_TAG_BYTES else 0

/-- The shared secret of a DH token for a party with these keys. -/
def sharedSecret (X : External) (role : Role) (sSk eSk : PrivateKey) (rs re : PublicKey)
    (t : Token) : Option (Block DH_OUTPUT_BYTES) :=
  X.scalarmult
    (match (dhOperands role t).1 with
      | .ephemeral => eSk
      | .static => sSk)
    (match (dhOperands role t).2 with
      | .re => re
      | .rs => rs)

section Runs

variable (X : External)

/-- `mix_dh` for a DH token. -/
def mixDhOp (dir : Direction) (role : Role) (t : Token) : Op PUnit :=
  mixDh X dir (dhOperands role t).1 (dhOperands role t).2

def writeTokenOp (random : PrivateKey) (role : Role) : Token → Op Bytes
  | .e => writeE X random
  | .s => encryptStatic X
  | t => do
      mixDhOp X .written role t
      pure []

def writeTokensOp (random : PrivateKey) (role : Role) : List Token → Op Bytes
  | [] => pure []
  | t :: ts => do
      let b ← writeTokenOp X random role t
      let bs ← writeTokensOp random role ts
      pure (b ++ bs)

def readTokenOp (message : Bytes) (role : Role) (offset : Nat) : Token → Op Nat
  | .e => readE X message offset
  | .s => readEncryptedStatic X message offset
  | t => do
      mixDhOp X .read role t
      pure offset

def readTokensOp (message : Bytes) (role : Role) : Nat → List Token → Op Nat
  | offset, [] => pure offset
  | offset, t :: ts => do
      let offset' ← readTokenOp X message role offset t
      readTokensOp message role offset' ts

variable {X} in
theorem writeTokenOp_dh {random : PrivateKey} {role : Role} {t : Token} (ht : t.isDh = true) :
    writeTokenOp X random role t = (mixDhOp X .written role t >>= fun _ => pure []) := by
  cases t with
  | e => cases ht
  | s => cases ht
  | _ => rfl

variable {X} in
theorem readTokenOp_dh {message : Bytes} {role : Role} {offset : Nat} {t : Token}
    (ht : t.isDh = true) : readTokenOp X message role offset t =
      (mixDhOp X .read role t >>= fun _ => pure offset) := by
  cases t with
  | e => cases ht
  | s => cases ht
  | _ => rfl

/-- The five messages of the two patterns. -/
theorem message_cases {p : Pattern} {i : Nat} (hi : i < patternTotalSteps p) :
    (p = .xx ∧ i = 0) ∨ (p = .xx ∧ i = 1) ∨ (p = .xx ∧ i = 2) ∨
      (p = .ik ∧ i = 0) ∨ (p = .ik ∧ i = 1) := by
  cases p <;> simp [patternTotalSteps] at hi ⊢ <;> omega

/-- Every arm of `write_message` runs its tokens, then encrypts the payload. -/
theorem writeArm_eq (random : PrivateKey) (payload : Bytes) {p : Pattern} {i : Nat}
    (hi : i < patternTotalSteps p) :
    writeArm X random payload i p = (do
      let b ← writeTokensOp X random (writerOf i) (armTokens p i)
      let c ← encryptPayload X payload
      pure (b ++ c)) := by
  obtain ⟨rfl, rfl⟩ | ⟨rfl, rfl⟩ | ⟨rfl, rfl⟩ | ⟨rfl, rfl⟩ | ⟨rfl, rfl⟩ := message_cases hi <;>
    simp only [writeArm, armTokens, writerOf, writeTokensOp, writeTokenOp, mixDhOp, dhOperands,
      bind_assoc, pure_bind, List.append_assoc, List.nil_append, List.append_nil] <;> rfl

/-- Every arm of `read_message` runs its tokens from the start of the message. -/
theorem readArm_eq (message : Bytes) {p : Pattern} {i : Nat} (hi : i < patternTotalSteps p) :
    readArm X message i p = readTokensOp X message (readerOf i) 0 (armTokens p i) := by
  obtain ⟨rfl, rfl⟩ | ⟨rfl, rfl⟩ | ⟨rfl, rfl⟩ | ⟨rfl, rfl⟩ | ⟨rfl, rfl⟩ := message_cases hi <;>
    simp only [readArm, armTokens, readTokensOp, readTokenOp, mixDhOp, bind_assoc, pure_bind,
      bind_pure] <;> rfl

end Runs

end SecurityNoise
