import SecurityNoise.Accord
import SecurityNoise.Protection

/-!
# The context of an encrypted field

Every field a handshake encrypts is authenticated together with the handshake hash at that
point. The hash names the context: the pattern, the message, the field in it and every byte
that went before. So bytes that were encrypted in one place open in that place only, with the
same history, unless a digest was hit that should not have been.

## Implementation notes

Two hashes at different places end chains of different lengths. Where such chains meet, the
longer one came by the start of the shorter, which is a protocol name padded with zeros.
-/

namespace SecurityNoise

open Framework (Role Token)
open EarlyExit

variable {X : External}

section Model

/-- The arguments of the constructor. -/
structure Setup where
  pattern : Pattern
  initiator : Bool
  staticKeys : Keypair
  preKnownRs : Option PublicKey := none

namespace Setup

variable (X : External) (a : Setup)

def start : HandshakeState := HandshakeState.make X a.pattern a.initiator a.staticKeys a.preKnownRs

def role : Role := if a.initiator then .initiator else .responder

def preMessage : Option PublicKey :=
  SecurityNoise.preMessage a.pattern a.initiator a.staticKeys a.preKnownRs

def preFields : List Bytes :=
  SecurityNoise.preFields a.pattern a.initiator a.staticKeys a.preKnownRs

/-- An IK initiator got the responder's key, as `handshake_open` requires. -/
def Prepared : Prop := a.pattern = .ik → a.initiator = true → a.preKnownRs.isSome = true

end Setup

/-- The encrypted fields of a message. -/
inductive Field
  | static
  | payload
  deriving DecidableEq

/-- The tokens of message `i` before a field. -/
def tokensBefore (p : Pattern) (i : Nat) : Field → List Token
  | .static => (armTokens p i).takeWhile (· ≠ .s)
  | .payload => armTokens p i

/-- Whether message `i` has the field. -/
def hasField (p : Pattern) (i : Nat) : Field → Bool
  | .static => (armTokens p i).contains .s
  | .payload => true

/-- A handshake in the middle of a call, the calls before which did not fail. -/
structure Moment (X : External) where
  setup : Setup
  calls : List MessageRecord
  state : HandshakeState
  call : MessageCall
  run : Run (MessageStep X) (setup.start X) calls state
  ok : ∀ l ∈ calls, l.result.isSome = true
  isOpen : state.isComplete = false
  prepared : setup.Prepared

namespace Moment

variable (m : Moment X)

/-- The number of the message the call handles. -/
def message : Nat := m.calls.length

/-- The call has come to the field, the bytes `seen` of its message lie behind, and it stands
at `t`. -/
structure At (f : Field) (seen : Bytes) (t : Traced) : Prop where
  present : hasField m.setup.pattern m.message f = true
  point : match m.call with
    | .write random _ =>
        WritePoint X m.state random (tokensBefore m.setup.pattern m.message f) seen t
    | .read bytes => ∃ offset,
        ReadPoint X m.state bytes (tokensBefore m.setup.pattern m.message f) offset t ∧
          seen = bytes.take offset

/-- The inputs on which the handshake has evaluated BLAKE2b for its hash when it stands at
`t`. -/
def evaluated (t : Traced) : Set Bytes :=
  Evaluated X m.setup.pattern m.setup.initiator m.setup.staticKeys m.setup.preKnownRs m.calls ∪
    {x | .hashed x ∈ t.log}

/-- The handshake has made every call in turn, this one included. -/
def InTurn : Prop :=
  SecurityNoise.InTurn m.setup.role 0 m.calls ∧
    (m.call.isWrite = true ↔ m.setup.role = writerOf m.message)

end Moment

/-- Two handshakes of one pattern that hashed the same responder key exchanged the same
messages. -/
structure SameHistory (m w : Moment X) : Prop where
  pattern : m.setup.pattern = w.setup.pattern
  preMessage : m.setup.preMessage = w.setup.preMessage
  wires : m.calls.map MessageRecord.wire = w.calls.map MessageRecord.wire

/-- They also stand in one place of the next message, after the same bytes. -/
structure SameContext (m w : Moment X) (f f' : Field) (seen seen' : Bytes) : Prop
    extends SameHistory m w where
  field : f = f'
  seen : seen = seen'

/-- Some input has the digest a handshake starts with, a padded protocol name. -/
def HitsName (X : External) (S : Set Bytes) : Prop :=
  ∃ p, Hits X.genericHash S (startHash X p)

end Model

section Places

/-- What comes before a field in the chain of the handshake hash: pieces mixed in by the
constructor, in the messages before and in the message itself. -/
def piecesBefore (p : Pattern) (i : Nat) (f : Field) : Nat :=
  (if p = .ik then 2 else 1) + ((List.range' 0 i).map (messageFields p)).sum +
    fieldsOf (tokensBefore p i f)

/-- No two fields of a pattern come after equally many pieces. -/
theorem piecesBefore_inj {p : Pattern} {i i' : Nat} {f f' : Field}
    (hi : i < patternTotalSteps p) (hi' : i' < patternTotalSteps p)
    (hf : hasField p i f = true) (hf' : hasField p i' f' = true)
    (heq : piecesBefore p i f = piecesBefore p i' f') : i = i' ∧ f = f' := by
  obtain ⟨rfl, rfl⟩ | ⟨rfl, rfl⟩ | ⟨rfl, rfl⟩ | ⟨rfl, rfl⟩ | ⟨rfl, rfl⟩ := message_cases hi <;>
    obtain ⟨hp, rfl⟩ | ⟨hp, rfl⟩ | ⟨hp, rfl⟩ | ⟨hp, rfl⟩ | ⟨hp, rfl⟩ := message_cases hi' <;>
    first
      | exact absurd hp (by decide)
      | (cases f <;> cases f' <;> revert hf hf' heq <;> decide)

/-- The two patterns start from different digests. -/
theorem startHash_inj {p p' : Pattern} (h : startHash X p = startHash X p') : p = p' := by
  have hpadded : ∀ p, (startHash X p).toList = protocolName p ++ List.replicate 31 0 := by
    intro p
    cases p <;> rfl
  have hlen : (protocolName p).length = (protocolName p').length := by
    cases p <;> cases p' <;> decide
  have hboth := congrArg Block.toList h
  rw [hpadded, hpadded] at hboth
  have hname := (List.append_inj hboth hlen).1
  revert hname
  cases p <;> cases p' <;> decide

/-- A prepared handshake mixes the responder's static key in exactly for IK. -/
theorem Setup.preFields_length {a : Setup} (h : a.Prepared) :
    a.preFields.length = if a.pattern = .ik then 2 else 1 := by
  obtain ⟨p, initiator, keys, rs⟩ := a
  cases p with
  | xx => rfl
  | ik =>
      cases initiator with
      | false => rfl
      | true =>
          obtain ⟨k, hk⟩ := Option.isSome_iff_exists.mp (h rfl rfl)
          obtain rfl : rs = some k := hk
          rfl

end Places

section Chains

variable {m w : Moment X} {f f' : Field} {seen seen' : Bytes} {t t' : Traced}

/-- The state before the call has the constructor's pattern and has counted the calls. -/
theorem Moment.state_eq (m : Moment X) :
    m.state.pattern = m.setup.pattern ∧ m.state.step = m.message := by
  obtain ⟨fss, h⟩ := exchanged_of_run m.run m.ok
  obtain ⟨hp, _, hstep⟩ := HandshakeState.make_start (X := X) m.setup.pattern m.setup.initiator
    m.setup.staticKeys m.setup.preKnownRs
  refine ⟨h.pattern.trans hp, h.step.trans ?_⟩
  rw [Setup.start, hstep, Nat.zero_add]
  rfl

theorem Moment.message_lt (m : Moment X) : m.message < patternTotalSteps m.setup.pattern := by
  obtain ⟨hp, hstep⟩ := m.state_eq
  rw [← hp, ← hstep]
  exact step_lt m.isOpen

/-- The bytes that lie behind are the pieces the tokens so far have mixed in. -/
theorem Moment.At.absorbs (h : m.At f seen t) :
    ∃ fields, fields.length = fieldsOf (tokensBefore m.setup.pattern m.message f) ∧
      Absorbs X fields ⟨m.state, []⟩ t ∧ seen = fields.flatten := by
  have hpoint := h.point
  cases hc : m.call with
  | write random payload =>
      rw [hc] at hpoint
      exact writeTokensOp_absorbs hpoint
  | read bytes =>
      rw [hc] at hpoint
      obtain ⟨offset, hread, rfl⟩ := hpoint
      obtain ⟨fields, hlen, habsorbs, hdrop⟩ := readTokensOp_absorbs hread
      refine ⟨fields, hlen, habsorbs, ?_⟩
      rw [List.drop_zero] at hdrop
      have hboth : bytes.take offset ++ bytes.drop offset =
          fields.flatten ++ bytes.drop offset := by rw [List.take_append_drop, ← hdrop]
      exact List.append_cancel_right hboth

/-- The pieces of the handshake hash at a field, cut into messages. -/
structure Chained (m : Moment X) (f : Field) (seen : Bytes) (t : Traced)
    (fss : List (List Bytes)) (fields : List Bytes) : Prop where
  wires : m.calls.map MessageRecord.wire = fss.map List.flatten
  counts : fss.map List.length =
    (List.range' 0 m.message).map (messageFields m.setup.pattern)
  count : fields.length = fieldsOf (tokensBefore m.setup.pattern m.message f)
  seen : seen = fields.flatten
  hash : t.hs.symmetric.h = mixedHash X (startHash X m.setup.pattern)
    (m.setup.preFields ++ (fss.flatten ++ fields))
  recorded : mixedInputs X (startHash X m.setup.pattern)
    (m.setup.preFields ++ (fss.flatten ++ fields)) ⊆ m.evaluated t

theorem Moment.At.chained (h : m.At f seen t) : ∃ fss fields, Chained m f seen t fss fields := by
  obtain ⟨fss, hexchanged⟩ := exchanged_of_run m.run m.ok
  obtain ⟨hp, _, hstep⟩ := HandshakeState.make_start (X := X) m.setup.pattern m.setup.initiator
    m.setup.staticKeys m.setup.preKnownRs
  obtain ⟨fields, hcount, habsorbs, hseen⟩ := h.absorbs
  have hstart : (m.setup.start X).handshakeHash =
      mixedHash X (startHash X m.setup.pattern) m.setup.preFields := make_handshakeHash _ _ _ _
  have hstate : m.state.symmetric.h =
      mixedHash X (startHash X m.setup.pattern) (m.setup.preFields ++ fss.flatten) := by
    calc
      m.state.symmetric.h = mixedHash X (m.setup.start X).handshakeHash fss.flatten :=
        hexchanged.hash
      _ = mixedHash X (startHash X m.setup.pattern) (m.setup.preFields ++ fss.flatten) := by
        rw [hstart]
        exact (hashChain_append _ _ _).symm
  refine ⟨fss, fields, hexchanged.wire, ?_, hcount, hseen, ?_, ?_⟩
  · have hcounts := hexchanged.count
    rw [Setup.start, hp, hstep] at hcounts
    exact hcounts
  · rw [habsorbs.hash, ← List.append_assoc]
    change mixedHash X m.state.symmetric.h fields = _
    rw [hstate]
    exact (hashChain_append _ _ _).symm
  · intro x hx
    have hsplit : x ∈ chainInputs X.genericHash Block.toList (startHash X m.setup.pattern)
        (m.setup.preFields ++ (fss.flatten ++ fields)) := hx
    rw [← List.append_assoc, chainInputs_append, chainInputs_append, List.mem_append,
      List.mem_append] at hsplit
    obtain (hpre | hcalls) | hcall := hsplit
    · exact Or.inl (Or.inl hpre)
    · refine Or.inl (Or.inr (hexchanged.recorded x ?_))
      rw [hstart]
      exact hcalls
    · refine Or.inr (habsorbs.recorded x ?_)
      change x ∈ mixedInputs X m.state.symmetric.h fields
      rw [hstate]
      exact hcall

/-- How many pieces there are says where the handshake stands. -/
theorem Chained.length {fss : List (List Bytes)} {fields : List Bytes}
    (h : Chained m f seen t fss fields) :
    (m.setup.preFields ++ (fss.flatten ++ fields)).length =
      piecesBefore m.setup.pattern m.message f := by
  rw [List.length_append, List.length_append, List.length_flatten, h.counts, h.count,
    Setup.preFields_length m.prepared, piecesBefore, Nat.add_assoc]

theorem Setup.preMessage_eq {a b : Setup} (h : a.preFields = b.preFields) :
    a.preMessage = b.preMessage := by
  have hkeys := (List.cons.inj h).2
  change a.preMessage.toList.map Block.toList = b.preMessage.toList.map Block.toList at hkeys
  have hlists := List.map_injective_iff.mpr toList_injective hkeys
  revert hlists
  cases a.preMessage <;> cases b.preMessage <;> simp

/-- Two handshakes that stand at encrypted fields with one hash stand in one context: the
same field of the same message of the same pattern, after the same bytes. Otherwise they
evaluated BLAKE2b on two inputs with one digest, or on one whose digest is a padded protocol
name. -/
theorem field_context (h : m.At f seen t) (h' : w.At f' seen' t')
    (heq : t.hs.symmetric.h = t'.hs.symmetric.h) :
    SameContext m w f f' seen seen' ∨
      Collide X.genericHash (m.evaluated t) (w.evaluated t') ∨
      HitsName X (m.evaluated t ∪ w.evaluated t') := by
  obtain ⟨fss, fields, hchain⟩ := h.chained
  obtain ⟨fss', fields', hchain'⟩ := h'.chained
  rw [hchain.hash, hchain'.hash] at heq
  obtain ⟨hstart, hpieces⟩ | hcollide | hhits | hhits :=
    hashChain_cases toList_injective (fun a b => by simp) heq
  · left
    have hpattern := startHash_inj hstart
    have hlength := congrArg List.length hpieces
    rw [hchain.length, hchain'.length, hpattern] at hlength
    have hlt := m.message_lt
    have hpresent := h.present
    rw [hpattern] at hlt hpresent
    obtain ⟨hmessage, hfield⟩ :=
      piecesBefore_inj hlt w.message_lt hpresent h'.present hlength
    -- equal places cut the pieces alike
    have hpre : m.setup.preFields.length = w.setup.preFields.length := by
      rw [Setup.preFields_length m.prepared, Setup.preFields_length w.prepared, hpattern]
    obtain ⟨hpreFields, hrest⟩ := List.append_inj hpieces hpre
    have hcounts : fss.map List.length = fss'.map List.length := by
      rw [hchain.counts, hchain'.counts, hpattern, hmessage]
    have hflat : fss.flatten.length = fss'.flatten.length := by
      rw [List.length_flatten, List.length_flatten, hcounts]
    obtain ⟨hmessages, hfields⟩ := List.append_inj hrest hflat
    have hsame : fss = fss' := List.eq_iff_flatten_eq.mpr ⟨hmessages, hcounts⟩
    refine ⟨⟨hpattern, Setup.preMessage_eq hpreFields, ?_⟩, hfield, ?_⟩
    · rw [hchain.wires, hchain'.wires, hsame]
    · rw [hchain.seen, hchain'.seen, hfields]
  · exact Or.inr (Or.inl (hcollide.mono hchain.recorded hchain'.recorded))
  · right; right
    exact ⟨_, hhits.mono fun x hx => Or.inl (hchain.recorded hx)⟩
  · right; right
    exact ⟨_, hhits.mono fun x hx => Or.inr (hchain'.recorded hx)⟩

end Chains

section Acceptance

/-- The bytes of a field, at the start of what is left of a message. -/
def Field.cut : Field → Bytes → Bytes
  | .static, rest => rest.take (DH_PUBLIC_KEY_BYTES + AEAD_TAG_BYTES)
  | .payload, rest => rest

namespace Moment

variable (m : Moment X)

/-- What a writing call encrypts in a field. -/
def plain : Field → Bytes
  | .static => m.setup.staticKeys.pk.toList
  | .payload => m.call.payload?.getD []

/-- At `t` the call opens the field `c` of the message it reads, and finds `p`. -/
structure Opens (f : Field) (seen : Bytes) (t : Traced) (c p : Bytes) : Prop where
  place : m.At f seen t
  carried : ∃ bytes, m.call = .read bytes ∧ c = f.cut (bytes.drop seen.length)
  keyed : t.hs.symmetric.cipher.hasKey = true
  opens : X.aeadDecrypt t.hs.symmetric.cipher.k (encodeNonce t.hs.symmetric.cipher.n)
    t.hs.symmetric.h.toList c = some p

/-- At `t` the call seals the field as `c`. -/
structure Seals (f : Field) (seen : Bytes) (t : Traced) (c : Bytes) : Prop where
  place : m.At f seen t
  writes : m.call.isWrite = true
  keyed : t.hs.symmetric.cipher.hasKey = true
  bytes : c = X.aeadEncrypt t.hs.symmetric.cipher.k (encodeNonce t.hs.symmetric.cipher.n)
    t.hs.symmetric.h.toList (m.plain f)

end Moment

/-- Whatever the call opens, one of the calls `W` sealed with the same key, nonce and
associated data. -/
def Unforged (W : Set (Moment X)) (m : Moment X) : Prop :=
  ∀ f seen t c p, m.Opens f seen t c p → ∃ w ∈ W, ∃ f' seen' t', w.Seals f' seen' t' c ∧
    t'.hs.symmetric.cipher.k = t.hs.symmetric.cipher.k ∧
    t'.hs.symmetric.cipher.n = t.hs.symmetric.cipher.n ∧
    t'.hs.symmetric.h = t.hs.symmetric.h

/-- The handshake and one of the others evaluated BLAKE2b on two inputs with one digest, or
on one whose digest is a padded protocol name. -/
def HashBroken (W : Set (Moment X)) (m : Moment X) : Prop :=
  ∃ w ∈ W, ∃ f seen t f' seen' t', m.At f seen t ∧ w.At f' seen' t' ∧
    (Collide X.genericHash (m.evaluated t) (w.evaluated t') ∨
      HitsName X (m.evaluated t ∪ w.evaluated t'))

variable {m w : Moment X} {W : Set (Moment X)} {f : Field} {seen c p : Bytes} {t : Traced}

/-- What opens was sealed by a call that stands in the same context. -/
theorem Moment.Opens.sealed (h : m.Opens f seen t c p) (haead : X.AeadRoundTrip)
    (hforge : Unforged W m) :
    (∃ w ∈ W, ∃ t', SameContext m w f f seen seen ∧ w.Seals f seen t' c ∧
      t'.hs.symmetric.cipher.n = t.hs.symmetric.cipher.n ∧ p = w.plain f) ∨ HashBroken W m := by
  obtain ⟨w, hw, f', seen', t', hseals, hk, hn, hh⟩ := hforge f seen t c p h
  obtain hcontext | hbroken := field_context h.place hseals.place hh.symm
  · left
    obtain rfl := hcontext.field
    obtain rfl := hcontext.seen
    refine ⟨w, hw, t', hcontext, hseals, hn, ?_⟩
    have hopen := h.opens
    rw [← hk, ← hn, ← hh, hseals.bytes, haead] at hopen
    exact (Option.some.inj hopen).symm
  · exact Or.inr ⟨w, hw, _, _, _, _, _, _, h.place, hseals.place, hbroken⟩

/-- Of two calls in turn that handle one message, one reading and one writing, the parties
have opposite roles. -/
theorem Moment.opposite (hm : m.InTurn) (hw : w.InTurn) (hreads : m.call.isWrite = false)
    (hwrites : w.call.isWrite = true) (hcontext : SameHistory m w) :
    w.setup.role = m.setup.role.other := by
  have hmessage : m.message = w.message := by
    have hlen := congrArg List.length hcontext.wires
    rwa [List.length_map, List.length_map] at hlen
  have hwriter := hw.2.mp hwrites
  have hreader : m.setup.role = readerOf m.message :=
    eq_readerOf fun hrole => Bool.eq_false_iff.mp hreads (hm.2.mpr hrole)
  rw [hwriter, hreader, hmessage, readerOf, Role.other_other]

theorem tokensBefore_static {p : Pattern} {i : Nat} {pre post : List Token}
    (h : armTokens p i = pre ++ .s :: post) : tokensBefore p i .static = pre := by
  obtain ⟨_, _, hnot, _⟩ := armTokens_split h
  have hpre : ∀ tok ∈ pre, decide (tok ≠ .s) = true := by
    intro tok hmem
    exact decide_eq_true fun heq => hnot (heq ▸ hmem)
  rw [tokensBefore, h, List.takeWhile_append_of_pos hpre, List.takeWhile_cons_of_neg (by simp),
    List.append_nil]

/-- With the key in place the cipher that accepted a field really opened it. -/
theorem SymmetricState.opened_keyed {s s' : SymmetricState}
    (h : s.decryptAndHash X c = .ok (some p, s')) (hkey : s.cipher.hasKey = true) :
    s.cipher.n ≠ maxNonce ∧
      X.aeadDecrypt s.cipher.k (encodeNonce s.cipher.n) s.h.toList c = some p := by
  obtain ⟨_, hdec, _⟩ := SymmetricState.decryptAndHash_some h
  obtain ⟨hno, _⟩ | ⟨_, hn, _⟩ | ⟨_, hn, _, q, hq, hopen⟩ := CipherState.decryptWithAd_eq_ok hdec
  · rw [hkey] at hno
    cases hno
  · cases hn
  · obtain rfl := Option.some.inj hq
    exact ⟨hn, hopen⟩

/-- An accepted message had its payload opened. -/
theorem Moment.opens_payload {bytes : Bytes} (hcall : m.call = .read bytes)
    (hread : m.state.readMessage X bytes = .ok (some p, t))
    (hprotected : ¬ (m.setup.pattern = .xx ∧ m.message = 0)) :
    ∃ offset t₁, t₁.hs.symmetric.cipher.n ≠ maxNonce ∧
      m.Opens .payload (bytes.take offset) t₁ (bytes.drop offset) p := by
  obtain ⟨hp, hstep⟩ := m.state_eq
  obtain ⟨_, offset, t₁, symmetric, hpoint, hle, hdec, _⟩ := readMessage_payload hread
  rw [← hp, ← hstep] at hprotected
  have hkeyed := ((keying_of_run m.run).readPoint
    (payload_shared (step_lt m.isOpen) hprotected) hpoint).1
  obtain ⟨hnonce, hopen⟩ := SymmetricState.opened_keyed hdec hkeyed
  rw [hp, hstep] at hpoint
  refine ⟨offset, t₁, hnonce, ⟨rfl, ?_⟩, ⟨bytes, hcall, ?_⟩, hkeyed, hopen⟩
  · rw [hcall]
    exact ⟨offset, hpoint, rfl⟩
  · rw [List.length_take_of_le hle]
    rfl

/-- So had its static key, if it has one: the key the state then holds. -/
theorem Moment.opens_static {bytes : Bytes} (hcall : m.call = .read bytes)
    (hread : m.state.readMessage X bytes = .ok (some p, t))
    (hstatic : hasField m.setup.pattern m.message .static = true) :
    ∃ offset t₁ enc, m.Opens .static (bytes.take offset) t₁ enc t.hs.rs.toList := by
  obtain ⟨hp, hstep⟩ := m.state_eq
  have hmem : Token.s ∈ armTokens m.state.pattern m.state.step := by
    rw [hp, hstep]
    exact List.contains_iff_mem.mp hstatic
  obtain ⟨_, _, hnot⟩ | ⟨⟨pre, post, offset, t₁, enc, hts, hpoint, hspan, hkey, hopens⟩, _⟩ :=
    readMessage_rs hread
  · exact absurd hmem (hnot rfl)
  · obtain ⟨hle, henc⟩ := span_eq_some.mp hspan
    have hoffset : offset ≤ bytes.length := Nat.le_trans (Nat.le_add_right _ _) hle
    rw [hp, hstep] at hts
    refine ⟨offset, t₁, enc, ⟨hstatic, ?_⟩, ⟨bytes, hcall, ?_⟩, hkey, ?_⟩
    · rw [hcall]
      refine ⟨offset, ?_, rfl⟩
      rw [tokensBefore_static hts]
      exact hpoint
    · rw [List.length_take_of_le hoffset]
      exact henc.symm
    · rwa [SymmetricState.Opens, if_pos hkey] at hopens

/-- A call that has sealed its payload returns the message. -/
theorem Moment.Seals.writes_message {bytes : Bytes} {random : PrivateKey}
    (h : m.Seals .payload seen t c) (hcall : m.call = .write random p)
    (hnonce : t.hs.symmetric.cipher.n ≠ maxNonce) (hbytes : bytes = seen ++ c) :
    ∃ t', m.state.writeMessage X random p = .ok (some bytes, t') := by
  obtain ⟨hp, hstep⟩ := m.state_eq
  have hpoint := h.place.point
  rw [hcall, ← hp, ← hstep] at hpoint
  change (writeTokensOp X random _ (armTokens m.state.pattern m.state.step)).run _ = _ at hpoint
  have hplain : m.plain .payload = p := by
    rw [Moment.plain, hcall]
    rfl
  obtain ⟨symmetric, hseal⟩ : ∃ symmetric,
      t.hs.symmetric.encryptAndHash X p = .ok (c, symmetric) := by
    rw [SymmetricState.encryptAndHash, CipherState.encryptWithAd_keyed h.keyed hnonce,
      ← hplain, ← h.bytes]
    exact ⟨_, rfl⟩
  obtain ⟨t₁, hbody⟩ : ∃ t₁, (writeBody X random p m.state.pattern m.state.step).run
      ⟨m.state, []⟩ = .ok (some (seen ++ c), t₁) := by
    rw [writeBody, run_bind_of_some hpoint, run_bind, encryptPayload_run, encryptAndHash_run]
    simp only [Traced.push, hseal]
    exact ⟨_, rfl⟩
  rw [writeMessage_open m.isOpen, run_bind_of_some hbody, hbytes]
  exact ⟨_, rfl⟩

/-- The static key pair is the constructor's. -/
theorem Moment.state_sPk (m : Moment X) : m.state.sPk = m.setup.staticKeys.pk := by
  have hkeys : (m.setup.start X).sPk = m.setup.staticKeys.pk := by
    obtain ⟨p, initiator, keys, rs⟩ := m.setup
    cases p <;> cases initiator <;> cases rs <;> rfl
  refine m.run.invariant (I := fun hs => hs.sPk = m.setup.staticKeys.pk) ?_ hkeys
  rintro s l s' hs ⟨_, hcall, rfl⟩
  cases hc : l.call with
  | write random payload =>
      rw [hc] at hcall
      exact (writeMessage_moved hcall).1.sPk.trans hs
  | read bytes =>
      rw [hc] at hcall
      exact (readMessage_moved hcall).1.sPk.trans hs

/-- A written message other than the first of XX ends with the payload, sealed. -/
theorem Moment.seals_payload {bytes : Bytes} {random : PrivateKey}
    (hcall : m.call = .write random p)
    (hwrite : m.state.writeMessage X random p = .ok (some bytes, t))
    (hprotected : ¬ (m.setup.pattern = .xx ∧ m.message = 0)) :
    ∃ seen t₁ c, m.Seals .payload seen t₁ c ∧ bytes = seen ++ c := by
  obtain ⟨hp, hstep⟩ := m.state_eq
  obtain ⟨_, out, t₁, hpoint, rfl⟩ := writeMessage_payload hwrite
  rw [← hp, ← hstep] at hprotected
  have hkeyed := ((keying_of_run m.run).writePoint
    (payload_shared (step_lt m.isOpen) hprotected) hpoint).1
  rw [hp, hstep] at hpoint
  refine ⟨out, t₁, _, ⟨⟨rfl, ?_⟩, ?_, hkeyed, rfl⟩, ?_⟩
  · rw [hcall]
    exact hpoint
  · rw [hcall]
    rfl
  · rw [SymmetricState.sealed, if_pos hkeyed, Moment.plain, hcall]
    rfl

/-- A written message with a static key carries the own one, sealed. -/
theorem Moment.seals_static {bytes : Bytes} {random : PrivateKey}
    (hcall : m.call = .write random p)
    (hwrite : m.state.writeMessage X random p = .ok (some bytes, t))
    (hstatic : hasField m.setup.pattern m.message .static = true) :
    ∃ seen t₁ c, m.Seals .static seen t₁ c ∧ seen ++ c <+: bytes := by
  obtain ⟨hp, hstep⟩ := m.state_eq
  obtain ⟨pre, post, hts⟩ := List.append_of_mem (List.contains_iff_mem.mp hstatic)
  obtain ⟨_, out, t₁, hpoint, rfl⟩ := writeMessage_payload hwrite
  rw [← hp, ← hstep] at hts
  obtain ⟨b, t₂, hpre, rfl⟩ := writeTokens_static hts hpoint
  have hkeyed := ((keying_of_run m.run).writePoint (static_shared hts) hpre).1
  rw [hp, hstep] at hts
  refine ⟨b, t₂, _, ⟨⟨hstatic, ?_⟩, ?_, hkeyed, rfl⟩, ?_⟩
  · rw [hcall, tokensBefore_static hts]
    exact hpre
  · rw [hcall]
    rfl
  · rw [Moment.plain, ← m.state_sPk, SymmetricState.sealed, if_pos hkeyed]
    exact List.prefix_append _ _

/-- A party that accepts a message in its turn, other than the first of XX, has a partner: a
party of the opposite role that exchanged the same messages so far and wrote this very one
with this payload. A static key in it is that of such a party. Otherwise the hash was broken. -/
theorem accepted_message_matches (haead : X.AeadRoundTrip) (hforge : Unforged W m)
    (hm : m.InTurn) (hW : ∀ w ∈ W, w.InTurn) {bytes : Bytes} (hcall : m.call = .read bytes)
    (hread : m.state.readMessage X bytes = .ok (some p, t))
    (hprotected : ¬ (m.setup.pattern = .xx ∧ m.message = 0)) :
    ((∃ w ∈ W, w.setup.role = m.setup.role.other ∧ SameHistory m w ∧
        ∃ random t', w.call = .write random p ∧
          w.state.writeMessage X random p = .ok (some bytes, t')) ∧
      (hasField m.setup.pattern m.message .static = true → ∃ w ∈ W,
        w.setup.role = m.setup.role.other ∧ SameHistory m w ∧
          t.hs.rs = w.setup.staticKeys.pk)) ∨ HashBroken W m := by
  have hreads : m.call.isWrite = false := by
    rw [hcall]
    rfl
  by_cases hbroken : HashBroken W m
  · exact Or.inr hbroken
  · refine Or.inl ⟨?_, fun hstatic => ?_⟩
    · obtain ⟨offset, t₁, hnonce, hopens⟩ := Moment.opens_payload hcall hread hprotected
      obtain ⟨w, hw, t', hcontext, hseals, hn, hplain⟩ :=
        (hopens.sealed haead hforge).resolve_right hbroken
      refine ⟨w, hw, Moment.opposite hm (hW w hw) hreads hseals.writes hcontext.toSameHistory,
        hcontext.toSameHistory, ?_⟩
      cases hc : w.call with
      | read b =>
          have hwrites := hseals.writes
          rw [hc] at hwrites
          cases hwrites
      | write random payload =>
          have hp : p = payload := by
            rw [hplain, Moment.plain, hc]
            rfl
          subst hp
          obtain ⟨t'', hwrite⟩ := hseals.writes_message hc (hn ▸ hnonce)
            (List.take_append_drop offset bytes).symm
          exact ⟨random, t'', rfl, hwrite⟩
    · obtain ⟨offset, t₁, enc, hopens⟩ := Moment.opens_static hcall hread hstatic
      obtain ⟨w, hw, t', hcontext, hseals, _, hplain⟩ :=
        (hopens.sealed haead hforge).resolve_right hbroken
      exact ⟨w, hw, Moment.opposite hm (hW w hw) hreads hseals.writes hcontext.toSameHistory,
        hcontext.toSameHistory, Block.ext hplain⟩

end Acceptance

section Concrete

open Miniature

/-- An IK initiator, party 1, that writes its first message to party 2. -/
def smallWriter : Moment external where
  setup := ⟨.ik, true, keypair 1, some (keypair 2).pk⟩
  calls := []
  state := HandshakeState.make external .ik true (keypair 1) (some (keypair 2).pk)
  call := .write (secretKey 3) [9]
  run := Run.nil _
  ok l hl := by cases hl
  isOpen := rfl
  prepared _ _ := rfl

def smallHello : Bytes := smallWriter.state.written external (secretKey 3) [9]

/-- Party 2, which reads it. -/
def smallReader : Moment external where
  setup := ⟨.ik, false, keypair 2, none⟩
  calls := []
  state := HandshakeState.make external .ik false (keypair 2) none
  call := .read smallHello
  run := Run.nil _
  ok l hl := by cases hl
  isOpen := rfl
  prepared _ h := by cases h

/-- Where the writer and the reader stand at a field. -/
def writerAt (f : Field) : Option (Option Bytes × Traced) :=
  ((writeTokensOp external (secretKey 3) .initiator (tokensBefore .ik 0 f)).run
    ⟨smallWriter.state, []⟩).toOption

def readerAt (f : Field) : Option (Option Nat × Traced) :=
  ((readTokensOp external smallHello .responder 0 (tokensBefore .ik 0 f)).run
    ⟨smallReader.state, []⟩).toOption

/-- The writer seals there what the reader is given. -/
def fieldFits (f : Field) : Bool :=
  match writerAt f, readerAt f with
  | some (some _, t'), some (some offset, t) =>
      t'.hs.symmetric.cipher = t.hs.symmetric.cipher && t'.hs.symmetric.h = t.hs.symmetric.h &&
        f.cut (smallHello.drop (smallHello.take offset).length) =
          external.aeadEncrypt t'.hs.symmetric.cipher.k (encodeNonce t'.hs.symmetric.cipher.n)
            t'.hs.symmetric.h.toList (smallWriter.plain f)
  | _, _ => false

theorem fieldFits_all (f : Field) : fieldFits f = true := by
  cases f <;> decide +kernel

theorem toOption_eq_some {α : Type} {e : Except Fatal α} {a : α} (h : e.toOption = some a) :
    e = .ok a := by
  cases e with
  | error _ => cases h
  | ok b => exact congrArg Except.ok (Option.some.inj h)

/-- Both come to every field, with one cipher and one hash. -/
theorem small_at (f : Field) : ∃ seen' t' offset t, smallWriter.At f seen' t' ∧
    readerAt f = some (some offset, t) ∧ smallReader.At f (smallHello.take offset) t ∧
    t'.hs.symmetric.cipher = t.hs.symmetric.cipher ∧ t'.hs.symmetric.h = t.hs.symmetric.h ∧
    f.cut (smallHello.drop (smallHello.take offset).length) =
      external.aeadEncrypt t'.hs.symmetric.cipher.k (encodeNonce t'.hs.symmetric.cipher.n)
        t'.hs.symmetric.h.toList (smallWriter.plain f) := by
  have hpresent : hasField .ik 0 f = true := by cases f <;> decide
  have hfits := fieldFits_all f
  unfold fieldFits at hfits
  split at hfits
  · rename_i seen' t' offset t hw hr
    simp only [Bool.and_eq_true, decide_eq_true_eq] at hfits
    obtain ⟨⟨hcipher, hhash⟩, hsealed⟩ := hfits
    exact ⟨seen', t', offset, t, ⟨hpresent, toOption_eq_some hw⟩, hr,
      ⟨hpresent, offset, toOption_eq_some hr, rfl⟩, hcipher, hhash, hsealed⟩
  · cases hfits

theorem field_context_small : ∃ seen t seen' t',
    SameContext smallReader smallWriter .static .static seen seen' ∨
      Collide external.genericHash (smallReader.evaluated t) (smallWriter.evaluated t') ∨
      HitsName external (smallReader.evaluated t ∪ smallWriter.evaluated t') := by
  obtain ⟨seen', t', offset, t, hw, _, hr, _, hhash, _⟩ := small_at .static
  exact ⟨_, t, seen', t', field_context hr hw hhash.symm⟩

theorem small_unforged : Unforged {smallWriter} smallReader := by
  intro f seen t c p h
  obtain ⟨offset, hpoint, rfl⟩ := h.place.point
  obtain ⟨bytes, hbytes, rfl⟩ := h.carried
  obtain rfl : smallHello = bytes := MessageCall.read.inj hbytes
  obtain ⟨seen', t', offset', t₁, hw, hr, _, hcipher, hhash, hsealed⟩ := small_at f
  have hsame : readerAt f = some (some offset, t) := congrArg Except.toOption hpoint
  obtain ⟨hoffset, rfl⟩ := Prod.mk.inj (Option.some.inj (hr.symm.trans hsame))
  obtain rfl := Option.some.inj hoffset
  refine ⟨smallWriter, rfl, f, seen', t', ⟨hw, rfl, ?_, hsealed⟩, ?_, ?_, hhash⟩
  · rw [hcipher]
    exact h.keyed
  · rw [hcipher]
  · rw [hcipher]

theorem accepted_message_matches_small : ∃ t : Traced,
    ((∃ w ∈ ({smallWriter} : Set (Moment external)), w.setup.role = .initiator ∧
        SameHistory smallReader w ∧ ∃ random t', w.call = .write random [9] ∧
          w.state.writeMessage external random [9] = .ok (some smallHello, t')) ∧
      (hasField .ik 0 .static = true → ∃ w ∈ ({smallWriter} : Set (Moment external)),
        w.setup.role = .initiator ∧ SameHistory smallReader w ∧
          t.hs.rs = w.setup.staticKeys.pk)) ∨ HashBroken {smallWriter} smallReader := by
  have haccepts : ((smallReader.state.readMessage external smallHello).toOption.map Prod.fst) =
      some (some [9]) := by decide +kernel
  obtain ⟨⟨_, t⟩, hread, rfl⟩ := Option.map_eq_some_iff.mp haccepts
  refine ⟨t, ?_⟩
  exact accepted_message_matches external_aeadRoundTrip small_unforged ⟨trivial, by decide⟩
    (fun w hw => by rw [Set.mem_singleton_iff.mp hw]; exact ⟨trivial, by decide⟩) rfl
    (toOption_eq_some hread) (by decide)

end Concrete

end SecurityNoise
