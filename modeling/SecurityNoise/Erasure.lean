import SecurityNoise.Lifecycle

/-!
# What an export leaves behind

`split` wipes the static and ephemeral secrets, the peer's ephemeral key and the chaining
key, and the ciphers of the transport are never keyed. The cipher of the handshake's
symmetric state is not wiped: the last message of either pattern ends with a DH, so a
complete session has a key there, and keeps it.
-/

namespace SecurityNoise

open Framework (Role Token)

variable {X : External}

section Statement

/-- No secret of the handshake is left in a session. -/
structure Erased (s : NoiseSession) : Prop where
  sSk : s.handshake.sSk = Block.zero DH_PRIVATE_KEY_BYTES
  eSk : s.handshake.eSk = Block.zero DH_PRIVATE_KEY_BYTES
  ePk : s.handshake.ePk = Block.zero DH_PUBLIC_KEY_BYTES
  re : s.handshake.re = Block.zero DH_PUBLIC_KEY_BYTES
  ck : s.handshake.symmetric.ck = Block.zero HASHLEN
  cipher : s.handshake.symmetric.cipher = {}
  send : s.transport.send = {}
  recv : s.transport.recv = {}

/-- All of that but the handshake's cipher, which has a key. -/
structure ErasedButCipher (s : NoiseSession) : Prop where
  sSk : s.handshake.sSk = Block.zero DH_PRIVATE_KEY_BYTES
  eSk : s.handshake.eSk = Block.zero DH_PRIVATE_KEY_BYTES
  ePk : s.handshake.ePk = Block.zero DH_PUBLIC_KEY_BYTES
  re : s.handshake.re = Block.zero DH_PUBLIC_KEY_BYTES
  ck : s.handshake.symmetric.ck = Block.zero HASHLEN
  hasKey : s.handshake.symmetric.cipher.hasKey = true
  send : s.transport.send = {}
  recv : s.transport.recv = {}

theorem ErasedButCipher.not_erased {s : NoiseSession} (h : ErasedButCipher s) : ¬ Erased s := by
  intro he
  have hkey := h.hasKey
  rw [he.cipher] at hkey
  cases hkey

end Statement

section Keyed

variable {hs : HandshakeState} {r : Option Bytes} {t : Traced}

/-- A complete handshake has a cipher key. -/
def KeyedWhenComplete (hs : HandshakeState) : Prop :=
  hs.isComplete = true → hs.symmetric.cipher.hasKey = true

/-- The last message of a pattern has a DH. -/
theorem last_message_dh {p : Pattern} {i : Nat} (h : i + 1 = patternTotalSteps p) :
    (armTokens p i).any Token.isDh = true := by
  cases p with
  | xx =>
      obtain rfl : i = 2 := by simpa [patternTotalSteps] using h
      decide
  | ik =>
      obtain rfl : i = 1 := by simpa [patternTotalSteps] using h
      decide

/-- A call that completes the handshake accepted the last message. -/
theorem completes_last {hs' : HandshakeState} (hc : hs.isComplete = false)
    (hmoved : Moved hs hs') (hstep : hs'.step = hs.step + counts r)
    (hdone : hs'.isComplete = true) :
    hs.step + 1 = patternTotalSteps hs.pattern ∧ ∃ out, r = some out := by
  have hlt := step_lt hc
  rw [isComplete_iff, hs'.stepsTotal_eq, hmoved.pattern, hstep] at hdone
  cases r with
  | none =>
      simp only [counts, Option.isSome_none, Bool.false_eq_true, if_false] at hdone
      omega
  | some out =>
      simp only [counts, Option.isSome_some, if_true] at hdone
      exact ⟨by omega, out, rfl⟩

theorem readMessage_keyed {m : Bytes} (hkeyed : KeyedWhenComplete hs)
    (h : hs.readMessage X m = .ok (r, t)) : KeyedWhenComplete t.hs := by
  obtain ⟨hmoved, hstep⟩ := readMessage_moved h
  rcases Bool.eq_false_or_eq_true hs.isComplete with hc | hc
  · rw [hmoved.complete hc]
    exact hkeyed
  · intro hdone
    obtain ⟨hlast, out, rfl⟩ := completes_last hc hmoved (hstep hc) hdone
    obtain ⟨t₁, hrun, _, rfl⟩ := readMessage_piece hc h
    have hkey := readBody_keyed (last_message_dh hlast) hrun
    exact hkey

theorem writeMessage_keyed {random : PrivateKey} {payload : Bytes}
    (hkeyed : KeyedWhenComplete hs) (h : hs.writeMessage X random payload = .ok (r, t)) :
    KeyedWhenComplete t.hs := by
  obtain ⟨hmoved, hstep⟩ := writeMessage_moved h
  rcases Bool.eq_false_or_eq_true hs.isComplete with hc | hc
  · rw [hmoved.complete hc]
    exact hkeyed
  · intro hdone
    obtain ⟨hlast, out, rfl⟩ := completes_last hc hmoved (hstep hc) hdone
    obtain ⟨hc', _⟩ | ⟨_, t₁, hrun, rfl⟩ := writeMessage_eq_ok h
    · rw [hc] at hc'
      cases hc'
    · have hkey := writeBody_keyed (last_message_dh hlast) hrun
      exact hkey

end Keyed

section Sessions

variable {s s' : NoiseSession} {l : Call × Reply}

theorem writeTurn_keyed {log : List Event} {random : PrivateKey} {alloc : Bool}
    {out : SecureBuffer} {r : StepReply} (h : KeyedWhenComplete s.handshake)
    (hw : writeTurn X s log random alloc out = .ok r) :
    KeyedWhenComplete r.session.handshake := by
  obtain ⟨_, rfl⟩ | ⟨_, produced, t, hwrite, hsession, _⟩ := writeTurn_cases hw
  · exact h
  · rw [hsession]
    exact writeMessage_keyed h hwrite

theorem noiseHandshakeStep_keyed {incoming : Bytes} {random : PrivateKey} {alloc : Bool}
    {out : Option SecureBuffer} {r : StepReply} (h : KeyedWhenComplete s.handshake)
    (hstep : noiseHandshakeStep X s incoming random alloc out = .ok r) :
    KeyedWhenComplete r.session.handshake := by
  obtain ⟨_, rfl⟩ | ⟨_, hw⟩ | ⟨_, got, t, hread, hrest⟩ := noiseHandshakeStep_cases hstep
  · exact h
  · exact writeTurn_keyed h hw
  · have hkeyed := readMessage_keyed h hread
    obtain ⟨_, rfl⟩ | ⟨_, _, rfl⟩ | ⟨_, _, hw⟩ := hrest
    · exact hkeyed
    · exact hkeyed
    · exact writeTurn_keyed hkeyed hw

/-- The transport of a session is never keyed, its handshake is before it completes. -/
structure Latent (s : NoiseSession) : Prop where
  flags : s.splitDone = s.keysExported
  transport : s.transport = {}
  keyed : KeyedWhenComplete s.handshake

theorem Latent.step (h : Latent s) (hs : VtableStep X s l s') : Latent s' := by
  obtain ⟨_, rfl⟩ | ⟨_, _, _, _, _, r, hr, rfl⟩ | ⟨_, hc, _, rfl⟩ := hs.cases h.flags
  · exact h
  · obtain ⟨hs', heq, _⟩ := noiseHandshakeStep_session hr
    have hkeyed := noiseHandshakeStep_keyed h.keyed hr
    rw [heq] at hkeyed ⊢
    exact ⟨h.flags, h.transport, hkeyed⟩
  · exact ⟨rfl, h.transport, fun _ => h.keyed hc⟩

theorem Latent.opened {p : Pattern} {args : OpenArgs} (h : Opened X p args s) : Latent s := by
  obtain ⟨keys, rs, _, rfl⟩ := h.make
  refine ⟨rfl, rfl, fun hc => ?_⟩
  have hopen : (NoiseSession.make X p (decide (args.role = .initiator)) keys
      rs).handshake.isComplete = false := by
    unfold NoiseSession.make HandshakeState.make
    cases p <;> cases args.role <;> cases rs <;> rfl
  rw [hopen] at hc
  cases hc

theorem latent_of_run {p : Pattern} {args : OpenArgs} {s₀ : NoiseSession}
    {tr : List (Call × Reply)} (hopen : Opened X p args s₀) (run : Run (VtableStep X) s₀ tr s) :
    Latent s :=
  run.invariant (fun _ _ _ h hs => h.step hs) (Latent.opened hopen)

/-- Every successful export, of every session that a run reaches, wipes the other secrets
and leaves the handshake's cipher key in place. -/
theorem export_keeps_cipher_key {p : Pattern} {args : OpenArgs} {s₀ : NoiseSession}
    {tr : List (Call × Reply)} {out : HandshakeKeys} {keys : Option HandshakeKeys}
    (hopen : Opened X p args s₀) (run : Run (VtableStep X) s₀ tr s)
    (hexport : VtableStep X s (.exportTransportKeys out, .keys .ok keys) s') :
    ErasedButCipher s' ∧ ¬ Erased s' := by
  have h := latent_of_run hopen run
  have hbut : ErasedButCipher s' := by
    obtain ⟨_, hc, _, _, rfl⟩ | ⟨hne, _⟩ := hexport.export_cases
    · have hsend : s.transport.send = {} := by rw [h.transport]
      have hrecv : s.transport.recv = {} := by rw [h.transport]
      exact ⟨rfl, rfl, rfl, rfl, rfl, h.keyed hc, hsend, hrecv⟩
    · exact absurd rfl hne
  exact ⟨hbut, hbut.not_erased⟩

end Sessions

section Concrete

open Miniature

/-- A responder of IK, and the first message of an initiator that knows its key. -/
def smallResponder : NoiseSession := NoiseSession.make external .ik false (keypair 2) none

def smallFirstMessage : Bytes :=
  match (HandshakeState.make external .ik true (keypair 1) (some (keypair 2).pk)).writeMessage
    external (secretKey 3) [] with
  | .ok (some m, _) => m
  | _ => []

theorem smallResponder_opened :
    Opened external .ik (openArgs .responder 2 none) smallResponder := by
  unfold Opened
  decide +kernel

/-- The responder reads that message, writes the second one and is complete. -/
theorem smallResponder_completes (out : HandshakeKeys) : ∃ tr s keys s',
    Run (VtableStep external) smallResponder tr s ∧
      VtableStep external s (.exportTransportKeys out, .keys .ok keys) s' := by
  have hplay : (match noiseHandshakeStep external smallResponder smallFirstMessage (secretKey 4)
      true (some {}) with
    | .ok r => r.session.handshake.isComplete && !r.session.splitDone
    | .error _ => false) = true := by decide +kernel
  split at hplay
  · rename_i r hr
    rw [Bool.and_eq_true, Bool.not_eq_true'] at hplay
    obtain ⟨hc, hs⟩ := hplay
    have hstep : VtableStep external smallResponder
        (.handshakeStep smallFirstMessage (secretKey 4) true {}, .buffer r.code r.out)
        r.session := by
      unfold VtableStep vtable
      simp only [hr]
    have hexport : VtableStep external r.session
        (.exportTransportKeys out, .keys .ok (some (exportedKeys external r.session)))
        (r.session.exported external) := by
      unfold VtableStep vtable
      simp only [noiseExportTransportKeys_ok hc hs]
    exact ⟨_, _, _, _, Run.single hstep, hexport⟩
  · cases hplay

/-- The out argument of the small export, all zeros. -/
def smallOut : HandshakeKeys :=
  ⟨0, Block.zero 32, Block.zero 32, 0, 0, Block.zero 32, Block.zero 32⟩

theorem export_keeps_cipher_key_small : ∃ s', ErasedButCipher s' ∧ ¬ Erased s' := by
  obtain ⟨tr, s, keys, s', run, hexport⟩ := smallResponder_completes smallOut
  exact ⟨s', export_keeps_cipher_key smallResponder_opened run hexport⟩

/-- The responder's export leaves a cipher key. -/
theorem export_erases_fails : ∃ tr s keys s',
    Run (VtableStep external) smallResponder tr s ∧
      VtableStep external s (.exportTransportKeys smallOut, .keys .ok keys) s' ∧
      ¬ Erased s' := by
  obtain ⟨tr, s, keys, s', run, hexport⟩ := smallResponder_completes smallOut
  have hkeyed := latent_of_run smallResponder_opened run
  refine ⟨tr, s, keys, s', run, hexport, fun he => ?_⟩
  obtain ⟨_, hc, _, _, rfl⟩ | ⟨hne, _⟩ := hexport.export_cases
  · have hkey : s.handshake.symmetric.cipher.hasKey = true := hkeyed.keyed hc
    have hcipher : s.handshake.symmetric.cipher = {} := he.cipher
    rw [hcipher] at hkey
    cases hkey
  · exact hne rfl

end Concrete

end SecurityNoise
