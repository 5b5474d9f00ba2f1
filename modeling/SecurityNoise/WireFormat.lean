import SecurityNoise.Parsing
import SecurityNoise.Protection

/-!
# What is written fits what is read

Every message that a state writes is its ephemeral key, its sealed static key and the sealed
payload, as far as the message has them, and has the length that this makes. A reader at the
same message of the same pattern, whatever its keys, never finds such a message too short, and
a payload that it returns is as long as the one written.

## Implementation notes

A message can be too short for a token of the reader, or for the tag of its payload while the
reader has a cipher key.
-/

namespace SecurityNoise

open Framework (Role Token)
open EarlyExit

variable {X : External}

section Statement

/-- The encrypted static key in a message that is written: the own key sealed at its point, or
nothing where the message has none. -/
def OwnStaticPart (X : External) (hs : HandshakeState) (random : PrivateKey) (static : Bytes) :
    Prop :=
  (Token.s ∉ armTokens hs.pattern hs.step ∧ static = []) ∨
    ∃ pre post out t, armTokens hs.pattern hs.step = pre ++ .s :: post ∧
      WritePoint X hs random pre out t ∧ t.hs.symmetric.cipher.hasKey = true ∧
      static = t.hs.symmetric.sealed X hs.sPk.toList

/-- A message written for a payload. -/
structure WrittenExactly (X : External) (hs : HandshakeState) (random : PrivateKey)
    (payload m : Bytes) : Prop where
  length : m.length = payload.length + fixedOverhead hs.pattern hs.step
  encoding : ∃ static out t, OwnStaticPart X hs random static ∧
    WritePoint X hs random (armTokens hs.pattern hs.step) out t ∧
    m = (if draws hs.pattern hs.step then (generateKeypair X random).pk.toList else []) ++
      static ++ t.hs.symmetric.sealed X payload

/-- A `read_message` of `m` comes to a point where `m` has fewer bytes left than it needs. -/
def TooShort (X : External) (hs : HandshakeState) (m : Bytes) : Prop :=
  (∃ pre tok post offset t, armTokens hs.pattern hs.step = pre ++ tok :: post ∧
      ReadPoint X hs m pre offset t ∧ m.length - offset < wireSize tok) ∨
    ∃ offset t, ReadPoint X hs m (armTokens hs.pattern hs.step) offset t ∧
      t.hs.symmetric.cipher.hasKey = true ∧ m.length - offset < AEAD_TAG_BYTES

/-- What holds of the messages that one state writes and another is handed. -/
structure Conveys (X : External) (hs peer : HandshakeState) (random : PrivateKey)
    (payload m : Bytes) : Prop where
  written : WrittenExactly X hs random payload m
  fits : ¬ TooShort X peer m
  payload : ∀ p t, peer.readMessage X m = .ok (some p, t) → p.length = payload.length

end Statement

section Writing

variable {hs : HandshakeState} {past : List Event} {random : PrivateKey} {t : Traced}

/-- The tokens of a message write the ephemeral key and the sealed static key. -/
theorem writeTokens_encoding (h : Keying X past hs) {out : Bytes}
    (hpoint : WritePoint X hs random (armTokens hs.pattern hs.step) out t) :
    ∃ static, OwnStaticPart X hs random static ∧
      out = (if draws hs.pattern hs.step then (generateKeypair X random).pk.toList else []) ++
        static := by
  by_cases hmem : Token.s ∈ armTokens hs.pattern hs.step
  · obtain ⟨pre, post, hts⟩ := List.append_of_mem hmem
    obtain ⟨b, t₁, hpre, rfl⟩ := writeTokens_static hts hpoint
    have hkey := (h.writePoint (static_shared hts) hpre).1
    refine ⟨_, Or.inr ⟨pre, post, b, t₁, hts, hpre, hkey, rfl⟩, ?_⟩
    obtain ⟨⟨dhs, hshape, hdhs⟩, _⟩ := armTokens_split hts
    rw [WritePoint, hshape] at hpre
    rw [writeTokensOp_head hdhs hpre]
  · obtain ⟨dhs, hshape, hdhs⟩ := armTokens_plain hmem
    refine ⟨[], Or.inl ⟨hmem, rfl⟩, ?_⟩
    rw [WritePoint, hshape] at hpoint
    rw [writeTokensOp_head hdhs hpoint, List.append_nil]

/-- The tokens of a message have the ephemeral key and the sealed static key on the wire. -/
theorem wireSize_sum (p : Pattern) (i : Nat) : ((armTokens p i).map wireSize).sum =
    (if draws p i then DH_PUBLIC_KEY_BYTES else 0) +
      if Token.s ∈ armTokens p i then DH_PUBLIC_KEY_BYTES + AEAD_TAG_BYTES else 0 := by
  unfold draws armTokens
  split <;> decide

theorem OwnStaticPart.length {static : Bytes} (h : OwnStaticPart X hs random static) :
    static.length = if Token.s ∈ armTokens hs.pattern hs.step then
      DH_PUBLIC_KEY_BYTES + AEAD_TAG_BYTES else 0 := by
  obtain ⟨hmem, rfl⟩ | ⟨pre, post, out, t, hts, _, hkey, rfl⟩ := h
  · rw [if_neg hmem]
    rfl
  · have hmem : Token.s ∈ armTokens hs.pattern hs.step := by
      rw [hts]
      exact List.mem_append_right pre List.mem_cons_self
    rw [if_pos hmem, SymmetricState.sealed, if_pos hkey, X.aeadEncrypt_length,
      Block.length_toList]

/-- The sealed payload of a message that is written: only the first XX message has no tag. -/
theorem writtenPayload_length (h : Keying X past hs) (hstart : KeylessStart hs)
    (hc : hs.isComplete = false) {out : Bytes}
    (hpoint : WritePoint X hs random (armTokens hs.pattern hs.step) out t) (payload : Bytes) :
    (t.hs.symmetric.sealed X payload).length =
      payload.length + if hs.pattern = .xx ∧ hs.step = 0 then 0 else AEAD_TAG_BYTES := by
  by_cases hfirst : hs.pattern = .xx ∧ hs.step = 0
  · obtain ⟨hp, hst⟩ := hfirst
    have hrun : (writeTokensOp X random (writerOf 0) (armTokens .xx 0)).run ⟨hs, []⟩ =
        .ok (some ((generateKeypair X random).pk.toList ++ []),
          (⟨hs, []⟩ : Traced).drawing X random) := rfl
    rw [WritePoint, hp, hst, hrun] at hpoint
    obtain ⟨_, rfl⟩ := Prod.mk.inj (Except.ok.inj hpoint)
    have hkeyless : hs.symmetric.cipher.hasKey = false := hstart hp hst
    rw [if_pos ⟨hp, hst⟩, SymmetricState.sealed, if_neg]
    · rfl
    · exact Bool.eq_false_iff.mp hkeyless
  · have hkey := (h.writePoint (payload_shared (step_lt hc) hfirst) hpoint).1
    rw [if_neg hfirst, SymmetricState.sealed, if_pos hkey, X.aeadEncrypt_length]

/-- Every written message has its encoding and its length. -/
theorem writeMessage_exactly (h : Keying X past hs) (hstart : KeylessStart hs) {payload m : Bytes}
    (hwrite : hs.writeMessage X random payload = .ok (some m, t)) :
    WrittenExactly X hs random payload m := by
  obtain ⟨hc, out, t₁, hpoint, rfl⟩ := writeMessage_payload hwrite
  obtain ⟨static, hstatic, rfl⟩ := writeTokens_encoding h hpoint
  refine ⟨?_, static, _, t₁, hstatic, hpoint, rfl⟩
  rw [overhead_eq (step_lt hc), wireSize_sum, List.length_append, List.length_append,
    hstatic.length, writtenPayload_length h hstart hc hpoint]
  split
  · rw [Block.length_toList]
    omega
  · rw [List.length_nil]
    omega

end Writing

section Fitting

variable {peer : HandshakeState} {m : Bytes} {n : Nat}

/-- A reader with a key at its payload is at another message than the first of XX. -/
theorem tagged_of_hasKey (hstart : KeylessStart peer) (hc : peer.isComplete = false)
    {offset : Nat} {t : Traced}
    (hpoint : ReadPoint X peer m (armTokens peer.pattern peer.step) offset t)
    (hkey : t.hs.symmetric.cipher.hasKey = true) : ¬ (peer.pattern = .xx ∧ peer.step = 0) := by
  intro hfirst
  have hlength := payload_length hstart hc (p := []) hpoint
  rw [if_pos hfirst, SymmetricState.sealed, if_pos hkey, X.aeadEncrypt_length] at hlength
  exact absurd hlength (by decide)

/-- No message with the overhead of its place is too short. -/
theorem not_tooShort (hstart : KeylessStart peer) (hc : peer.isComplete = false)
    (hlength : m.length = n + fixedOverhead peer.pattern peer.step) : ¬ TooShort X peer m := by
  rw [overhead_eq (step_lt hc)] at hlength
  rintro (⟨pre, tok, post, offset, t, hts, hpoint, hlt⟩ | ⟨offset, t, hpoint, hkey, hlt⟩)
  · have hoffset := (readTokensOp_offset hpoint).1
    rw [hts, List.map_append, List.sum_append, List.map_cons, List.sum_cons] at hlength
    omega
  · have hoffset := (readTokensOp_offset hpoint).1
    rw [if_neg (tagged_of_hasKey hstart hc hpoint hkey)] at hlength
    omega

/-- What opens has the length of what would have been sealed. -/
theorem SymmetricState.Opens.length {s : SymmetricState} {c p : Bytes} (h : s.Opens X c p) :
    c.length = (s.sealed X p).length := by
  unfold Opens at h
  unfold sealed
  split at h
  · rename_i hk
    rw [if_pos hk, X.aeadEncrypt_length]
    exact X.aeadDecrypt_length _ _ _ _ _ h
  · rename_i hk
    rw [if_neg hk, h]

/-- An accepted message is as long as its payload and the overhead of its place. -/
theorem readMessage_length (hstart : KeylessStart peer) {p : Bytes} {t : Traced}
    (h : peer.readMessage X m = .ok (some p, t)) :
    m.length = p.length + fixedOverhead peer.pattern peer.step := by
  obtain ⟨hc, offset, t₁, symmetric, hpoint, hle, hdec, rfl⟩ := readMessage_payload h
  have hrest := (SymmetricState.decryptAndHash_opens hdec).length
  rw [List.length_drop, payload_length hstart hc hpoint] at hrest
  have hoffset := (readTokensOp_offset hpoint).1
  rw [overhead_eq (step_lt hc)]
  omega

theorem keylessStart_of_run {p : Pattern} {initiator : Bool} {keys : Keypair}
    {rs : Option PublicKey} {tr : List MessageRecord}
    (run : Run (MessageStep X) (HandshakeState.make X p initiator keys rs) tr peer) :
    KeylessStart peer :=
  run.invariant (fun _ _ _ h hstep => h.step hstep) (KeylessStart.make p initiator keys rs)

/-- What any state writes fits any reader at the same message of the same pattern, after any
calls of both. -/
theorem wire_format {hs : HandshakeState} {p p' : Pattern} {initiator initiator' : Bool}
    {keys keys' : Keypair} {rs rs' : Option PublicKey} {tr tr' : List MessageRecord}
    (run : Run (MessageStep X) (HandshakeState.make X p initiator keys rs) tr hs)
    (run' : Run (MessageStep X) (HandshakeState.make X p' initiator' keys' rs') tr' peer)
    (hplace : peer.pattern = hs.pattern ∧ peer.step = hs.step) {random : PrivateKey}
    {payload : Bytes} {t : Traced} (hwrite : hs.writeMessage X random payload = .ok (some m, t)) :
    Conveys X hs peer random payload m := by
  have hwritten := writeMessage_exactly (keying_of_run run) (keylessStart_of_run run) hwrite
  have hstart := keylessStart_of_run run'
  have hlength := hwritten.length
  rw [← hplace.1, ← hplace.2] at hlength
  have hopen : peer.isComplete = false := by
    obtain ⟨hc, _⟩ := writeMessage_payload hwrite
    rw [HandshakeState.isComplete, peer.stepsTotal_eq, hplace.1, hplace.2, ← hs.stepsTotal_eq]
    exact hc
  constructor
  · exact hwritten
  · exact not_tooShort hstart hopen hlength
  · intro q t' hread
    have hsame := readMessage_length hstart hread
    omega

/-- An IK initiator's first message, at a responder with other keys than it was written for. -/
theorem wire_format_small : ∃ m, m.length = 98 ∧ Conveys Miniature.external
    (HandshakeState.make Miniature.external .ik true (Miniature.keypair 1)
      (some (Miniature.keypair 2).pk))
    (HandshakeState.make Miniature.external .ik false (Miniature.keypair 5) none)
    (Miniature.secretKey 3) [7, 8] m := by
  have hsome : (HandshakeState.written Miniature.external
      (HandshakeState.make Miniature.external .ik true (Miniature.keypair 1)
        (some (Miniature.keypair 2).pk)) (Miniature.secretKey 3) [7, 8]).length = 98 := by
    decide +kernel
  unfold HandshakeState.written at hsome
  cases hwrite : (HandshakeState.make Miniature.external .ik true (Miniature.keypair 1)
      (some (Miniature.keypair 2).pk)).writeMessage Miniature.external (Miniature.secretKey 3)
        [7, 8] with
  | error e =>
      rw [hwrite] at hsome
      cases hsome
  | ok r =>
      obtain ⟨_ | m, t⟩ := r
      · rw [hwrite] at hsome
        cases hsome
      · rw [hwrite] at hsome
        have hwriter := @Run.nil _ _ (MessageStep Miniature.external)
          (HandshakeState.make Miniature.external .ik true (Miniature.keypair 1)
            (some (Miniature.keypair 2).pk))
        have hreader := @Run.nil _ _ (MessageStep Miniature.external)
          (HandshakeState.make Miniature.external .ik false (Miniature.keypair 5) none)
        exact ⟨m, hsome, wire_format hwriter hreader ⟨rfl, rfl⟩ hwrite⟩

end Fitting

end SecurityNoise
