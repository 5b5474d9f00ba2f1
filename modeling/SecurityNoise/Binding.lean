import SecurityNoise.Foundation.HashChain
import SecurityNoise.Sequences
import SecurityNoise.Miniature

/-!
# Channel binding

Every byte of a message goes through `mix_hash`, in fields whose number the message's place
in the pattern fixes. The handshake hash is the end of the chain of these fields, so two
completed handshakes with one hash exchanged the same messages, unless BLAKE2b collided on
inputs the two have evaluated.

## Implementation notes

A chain of a given number of fields is taken apart from its end. What a call absorbs is
stated between two states of the call, with the inputs in its record, so that writing and
reading a message give the same statement.
-/

namespace SecurityNoise

open Framework (Role Token)
open EarlyExit

variable {X : External}

section Statement

/-- The responder static key the constructor hashes. -/
def preMessage (p : Pattern) (initiator : Bool) (keys : Keypair) (rs : Option PublicKey) :
    Option PublicKey :=
  if p = .ik then (if initiator then rs else some keys.pk) else none

/-- What the constructor mixes into the hash. -/
def preFields (p : Pattern) (initiator : Bool) (keys : Keypair) (rs : Option PublicKey) :
    List Bytes :=
  prologue :: (preMessage p initiator keys rs).toList.map Block.toList

/-- The handshake hash after mixing in the fields. -/
def mixedHash (X : External) (h : Digest) (fields : List Bytes) : Digest :=
  hashChain X.genericHash Block.toList h fields

/-- The inputs of BLAKE2b on the way there. -/
def mixedInputs (X : External) (h : Digest) (fields : List Bytes) : Set Bytes :=
  {x | x ∈ chainInputs X.genericHash Block.toList h fields}

/-- The hash every handshake of a pattern starts with. -/
def startHash (X : External) (p : Pattern) : Digest :=
  (SymmetricState.initializeProtocol X (protocolName p)).h

/-- The inputs on which a handshake has evaluated BLAKE2b for its hash. -/
def Evaluated (X : External) (p : Pattern) (initiator : Bool) (keys : Keypair)
    (rs : Option PublicKey) (tr : List MessageRecord) : Set Bytes :=
  mixedInputs X (startHash X p) (preFields p initiator keys rs) ∪ {x | .hashed x ∈ computed tr}

end Statement

section Fields

variable {t t' t'' : Traced} {fields fields' : List Bytes}

/-- Between two states of a call the fields were mixed into the hash, and the inputs this
took are on record. -/
structure Absorbs (X : External) (fields : List Bytes) (t t' : Traced) : Prop where
  hash : t'.hs.symmetric.h = mixedHash X t.hs.symmetric.h fields
  recorded : ∀ x ∈ mixedInputs X t.hs.symmetric.h fields, .hashed x ∈ t'.log
  log : t.log ⊆ t'.log

theorem Absorbs.trans (h : Absorbs X fields t t') (h' : Absorbs X fields' t' t'') :
    Absorbs X (fields ++ fields') t t'' where
  hash := by
    rw [h'.hash, h.hash]
    exact (hashChain_append _ _ _).symm
  recorded x hx := by
    have hsplit : x ∈ chainInputs X.genericHash Block.toList t.hs.symmetric.h
        (fields ++ fields') := hx
    rw [chainInputs_append] at hsplit
    cases List.mem_append.mp hsplit with
    | inl hl => exact h'.log (h.recorded x hl)
    | inr hr =>
        apply h'.recorded x
        rw [h.hash]
        exact hr
  log := List.Subset.trans h.log h'.log

/-- Nothing is absorbed where the hash stays. -/
theorem Absorbs.quiet (hhash : t'.hs.symmetric.h = t.hs.symmetric.h) (hlog : t.log ⊆ t'.log) :
    Absorbs X [] t t' where
  hash := hhash
  recorded x hx := by cases hx
  log := hlog

theorem Absorbs.refl (t : Traced) : Absorbs X [] t t := Absorbs.quiet rfl (List.Subset.refl _)

theorem Absorbs.push (t : Traced) (e : Event) : Absorbs X [] t (t.push e) :=
  Absorbs.quiet rfl (List.subset_append_left _ _)

/-- One field is absorbed by hashing it after the present digest. -/
theorem Absorbs.single {d : Bytes}
    (hhash : t'.hs.symmetric.h = X.genericHash (t.hs.symmetric.h.toList ++ d))
    (hlog : t'.log = t.log ++ [.hashed (t.hs.symmetric.h.toList ++ d)]) :
    Absorbs X [d] t t' where
  hash := hhash
  recorded x hx := by
    rw [hlog, List.mem_singleton.mp hx]
    exact List.mem_append_right _ List.mem_cons_self
  log := by
    rw [hlog]
    exact List.subset_append_left _ _

theorem SymmetricState.mixHash_h (s : SymmetricState) (d : Bytes) :
    (s.mixHash X d).h = X.genericHash (s.h.toList ++ d) := by
  rw [SymmetricState.mixHash, blake2bPair_eq]

theorem encryptAndHash_absorbs {s' : SymmetricState} {p c : Bytes}
    (h : t.hs.symmetric.encryptAndHash X p = .ok (c, s')) :
    Absorbs X [c] t (t.hashing s' c) := by
  obtain ⟨cipher, _, rfl⟩ := SymmetricState.encryptAndHash_eq_ok h
  exact Absorbs.single (SymmetricState.mixHash_h _ c) rfl

theorem decryptAndHash_absorbs {s' : SymmetricState} {p c : Bytes}
    (h : t.hs.symmetric.decryptAndHash X c = .ok (some p, s')) :
    Absorbs X [c] t (t.hashing s' c) := by
  obtain ⟨cipher, _, rfl⟩ := SymmetricState.decryptAndHash_some h
  exact Absorbs.single (SymmetricState.mixHash_h _ c) rfl

/-- The fields of a token: keys are mixed into the hash, DHs are not. -/
def tokenFields (tok : Token) : Nat := if tok.isDh then 0 else 1

/-- A DH that went through absorbs nothing. -/
theorem mixDhOp_absorbs {dir : Direction} {role : Role} {tok : Token}
    (h : (mixDhOp X dir role tok).run t = .ok (some ⟨⟩, t')) : Absorbs X [] t t' := by
  obtain ⟨hn, _⟩ | ⟨_, _, _, rfl⟩ := mixDh_cases h
  · cases hn
  · exact Absorbs.quiet rfl (List.subset_append_left _ _)

/-- The bytes a token reads are the fields it absorbs. -/
theorem readTokenOp_absorbs {m : Bytes} {role : Role} {offset o : Nat} {tok : Token}
    (h : (readTokenOp X m role offset tok).run t = .ok (some o, t')) :
    ∃ fields, fields.length = tokenFields tok ∧ Absorbs X fields t t' ∧
      m.drop offset = fields.flatten ++ m.drop o := by
  have hpiece : ∀ {len : Nat} {b : Bytes}, span m offset len = some b →
      m.drop offset = b ++ m.drop (offset + len) := by
    intro len b hspan
    obtain ⟨_, rfl⟩ := span_eq_some.mp hspan
    rw [← List.drop_drop, List.take_append_drop]
  obtain rfl | rfl | htok := tok.kinds
  · obtain ⟨hn, _⟩ | ⟨re, hre, ho, rfl⟩ := readE_cases h
    · cases hn
    · obtain rfl := Option.some.inj ho
      refine ⟨[re.toList], rfl, Absorbs.single (SymmetricState.mixHash_h _ _) rfl, ?_⟩
      rw [List.flatten_singleton]
      exact hpiece (spanBlock_eq_some.mp hre)
  · obtain ⟨hn, _⟩ | ⟨hn, _⟩ | ⟨enc, symmetric, rs, hspan, ho, _, hdec, rfl⟩ :=
      readEncryptedStatic_cases h
    · cases hn
    · cases hn
    · obtain rfl := Option.some.inj ho
      refine ⟨[enc], rfl, ?_, ?_⟩
      · have habsorbs := (Absorbs.push t (.static .read t.hs.symmetric.cipher.hasKey)).trans
          (decryptAndHash_absorbs (X := X) hdec)
        exact ⟨habsorbs.hash, habsorbs.recorded, habsorbs.log⟩
      · rw [List.flatten_singleton]
        exact hpiece hspan
  · rw [readTokenOp_dh htok] at h
    obtain ⟨hn, _⟩ | ⟨ho, h₁⟩ := dhToken_cases h
    · cases hn
    · obtain rfl := Option.some.inj ho
      refine ⟨[], ?_, mixDhOp_absorbs h₁, rfl⟩
      rw [tokenFields, if_pos htok]
      rfl

/-- So are the bytes a token writes. -/
theorem writeTokenOp_absorbs {random : PrivateKey} {role : Role} {tok : Token} {out : Bytes}
    (h : (writeTokenOp X random role tok).run t = .ok (some out, t')) :
    ∃ fields, fields.length = tokenFields tok ∧ Absorbs X fields t t' ∧
      out = fields.flatten := by
  obtain rfl | rfl | htok := tok.kinds
  · rw [writeTokenOp, writeE_run] at h
    obtain ⟨ho, rfl⟩ := Prod.mk.inj (Except.ok.inj h)
    obtain rfl := Option.some.inj ho
    refine ⟨[(generateKeypair X random).pk.toList], rfl, ?_, ?_⟩
    · have hdrawn := Absorbs.push (X := X) t (.drew (generateKeypair X random))
      exact hdrawn.trans (Absorbs.single (SymmetricState.mixHash_h _ _) rfl)
    · rw [List.flatten_singleton]
  · rw [writeTokenOp, encryptStatic_run] at h
    obtain ⟨c, symmetric, ho, hc, rfl⟩ := encryptAndHash_cases h
    obtain rfl := Option.some.inj ho
    refine ⟨[out], rfl, ?_, ?_⟩
    · exact (Absorbs.push t (.static .written t.hs.symmetric.cipher.hasKey)).trans
        (encryptAndHash_absorbs hc)
    · rw [List.flatten_singleton]
  · rw [writeTokenOp_dh htok] at h
    obtain ⟨hn, _⟩ | ⟨ho, h₁⟩ := dhToken_cases h
    · cases hn
    · obtain rfl := Option.some.inj ho
      refine ⟨[], ?_, mixDhOp_absorbs h₁, rfl⟩
      rw [tokenFields, if_pos htok]
      rfl

/-- The fields of a token list. -/
def fieldsOf (ts : List Token) : Nat := (ts.map tokenFields).sum

theorem readTokensOp_absorbs {m : Bytes} {role : Role} {offset o : Nat} {ts : List Token}
    (h : (readTokensOp X m role offset ts).run t = .ok (some o, t')) :
    ∃ fields, fields.length = fieldsOf ts ∧ Absorbs X fields t t' ∧
      m.drop offset = fields.flatten ++ m.drop o := by
  induction ts generalizing offset t with
  | nil =>
      obtain ⟨ho, rfl⟩ := Prod.mk.inj (Except.ok.inj h)
      obtain rfl := Option.some.inj ho
      exact ⟨[], rfl, Absorbs.refl t, rfl⟩
  | cons tok ts ih =>
      obtain ⟨o₁, t₁, h₁, h₂⟩ := readTokensOp_cons h
      obtain ⟨fields, hlen, habsorbs, hdrop⟩ := readTokenOp_absorbs h₁
      obtain ⟨fields', hlen', habsorbs', hdrop'⟩ := ih h₂
      refine ⟨fields ++ fields', ?_, habsorbs.trans habsorbs', ?_⟩
      · rw [List.length_append, hlen, hlen', fieldsOf, fieldsOf, List.map_cons, List.sum_cons]
      · rw [hdrop, hdrop', List.flatten_append, List.append_assoc]

theorem writeTokensOp_absorbs {random : PrivateKey} {role : Role} {ts : List Token}
    {out : Bytes} (h : (writeTokensOp X random role ts).run t = .ok (some out, t')) :
    ∃ fields, fields.length = fieldsOf ts ∧ Absorbs X fields t t' ∧ out = fields.flatten := by
  induction ts generalizing out t with
  | nil =>
      obtain ⟨ho, rfl⟩ := Prod.mk.inj (Except.ok.inj h)
      obtain rfl := Option.some.inj ho
      exact ⟨[], rfl, Absorbs.refl t, rfl⟩
  | cons tok ts ih =>
      rw [writeTokensOp] at h
      obtain ⟨b, t₁, h₁, h₂⟩ | ⟨hn, _⟩ := run_bind_eq_ok h
      · obtain ⟨bs, t₂, h₃, h₄⟩ | ⟨hn, _⟩ := run_bind_eq_ok h₂
        · obtain ⟨ho, rfl⟩ := Prod.mk.inj (Except.ok.inj h₄)
          obtain ⟨fields, hlen, habsorbs, hout⟩ := writeTokenOp_absorbs h₁
          obtain ⟨fields', hlen', habsorbs', hout'⟩ := ih h₃
          refine ⟨fields ++ fields', ?_, habsorbs.trans habsorbs', ?_⟩
          · rw [List.length_append, hlen, hlen', fieldsOf, fieldsOf, List.map_cons,
              List.sum_cons]
          · rw [← Option.some.inj ho, hout, hout', List.flatten_append]
        · cases hn
      · cases hn

end Fields

section Messages

variable {hs hs' : HandshakeState} {t t' : Traced} {l : MessageRecord}

/-- The fields of message `i`. -/
def messageFields (p : Pattern) (i : Nat) : Nat := fieldsOf (armTokens p i) + 1

/-- A call handled message `hs.step`: it absorbed the message, cut into its fields, and
counted it. -/
structure Absorbed (X : External) (hs : HandshakeState) (wire : Bytes)
    (fields : List Bytes) (t : Traced) : Prop where
  isOpen : hs.isComplete = false
  count : fields.length = messageFields hs.pattern hs.step
  wire : wire = fields.flatten
  absorbs : Absorbs X fields ⟨hs, []⟩ t
  step : t.hs.step = hs.step + 1
  pattern : t.hs.pattern = hs.pattern

/-- The payload is the last field, after those of the tokens. -/
theorem Absorbs.payload {fields : List Bytes} {d : Bytes} {symmetric : SymmetricState}
    {dir : Direction} (h : Absorbs X fields t t')
    (hd : Absorbs X [d] (t'.atPayload dir) ((t'.atPayload dir).hashing symmetric d)) :
    Absorbs X (fields ++ [d]) t (((t'.atPayload dir).hashing symmetric d).counted dir) := by
  have hpushed := (h.trans (Absorbs.push t' _)).trans hd
  rw [List.append_nil] at hpushed
  have hcounted : Absorbs X [] ((t'.atPayload dir).hashing symmetric d)
      (((t'.atPayload dir).hashing symmetric d).counted dir) :=
    Absorbs.quiet rfl (List.subset_append_left _ _)
  have hall := hpushed.trans hcounted
  rwa [List.append_nil] at hall

/-- An accepted message is absorbed. -/
theorem readMessage_absorbed {m p : Bytes} (h : hs.readMessage X m = .ok (some p, t)) :
    ∃ fields, Absorbed X hs m fields t := by
  obtain ⟨hc, offset, t₁, symmetric, hpoint, hle, hdec, rfl⟩ := readMessage_payload h
  obtain ⟨fields, hlen, habsorbs, hdrop⟩ := readTokensOp_absorbs hpoint
  have hpiece := readTokensOp_piece m (readerOf hs.step) 0 _ _ _ _ hpoint
  refine ⟨fields ++ [m.drop offset], hc, ?_, ?_, ?_, ?_, hpiece.pattern⟩
  · rw [List.length_append, hlen]
    rfl
  · rw [List.flatten_append, List.flatten_singleton, ← hdrop, List.drop_zero]
  · exact habsorbs.payload (decryptAndHash_absorbs (t := t₁.atPayload .read) hdec)
  · exact congrArg (· + 1) hpiece.step

/-- A written message is absorbed. -/
theorem writeMessage_absorbed {random : PrivateKey} {payload m : Bytes}
    (h : hs.writeMessage X random payload = .ok (some m, t)) :
    ∃ fields, Absorbed X hs m fields t := by
  obtain ⟨_, hn, _⟩ | ⟨hc, t₂, hrun, rfl⟩ := writeMessage_eq_ok h
  · cases hn
  · obtain ⟨hp, _, hst, _⟩ := afterDrawing_frame X random hs.pattern hs.step ⟨hs, []⟩
    have hpiece := (writeBody_eq_ok hrun).1
    obtain ⟨hn, _⟩ | ⟨out, t₁, c, symmetric, htokens, hm, hseal, rfl⟩ := writeBody_cases hrun
    · cases hn
    · obtain rfl := Option.some.inj hm
      obtain ⟨fields, hlen, habsorbs, rfl⟩ := writeTokensOp_absorbs htokens
      refine ⟨fields ++ [c], hc, ?_, ?_, ?_, ?_, hpiece.pattern.trans hp⟩
      · rw [List.length_append, hlen]
        rfl
      · rw [List.flatten_append, List.flatten_singleton]
      · exact habsorbs.payload (encryptAndHash_absorbs (t := t₁.atPayload .written) hseal)
      · exact congrArg (· + 1) (hpiece.step.trans hst)

/-- Every call that did not fail absorbed its message. -/
theorem MessageStep.absorbed (h : MessageStep X hs l hs') (hsome : l.result.isSome = true) :
    ∃ fields, Absorbed X hs l.wire fields l.after := by
  obtain ⟨rfl, hcall, _⟩ := h
  obtain ⟨out, hout⟩ := Option.isSome_iff_exists.mp hsome
  rw [hout] at hcall
  cases hl : l.call with
  | write random payload =>
      rw [hl] at hcall
      have hwire : l.wire = out := by
        rw [MessageRecord.wire, hl, hout]
        rfl
      rw [hwire]
      exact writeMessage_absorbed hcall
  | read m =>
      rw [hl] at hcall
      have hwire : l.wire = m := by
        rw [MessageRecord.wire, hl]
        rfl
      rw [hwire]
      exact readMessage_absorbed hcall

end Messages

section Transcripts

variable {hs hs' : HandshakeState} {tr : List MessageRecord}

/-- Calls without a failure exchanged messages cut into the fields `fss`, and absorbed
them in order. -/
structure Exchanged (X : External) (hs : HandshakeState) (tr : List MessageRecord)
    (fss : List (List Bytes)) (hs' : HandshakeState) : Prop where
  wire : tr.map MessageRecord.wire = fss.map List.flatten
  count : fss.map List.length =
    (List.range' hs.step tr.length).map (messageFields hs.pattern)
  hash : hs'.handshakeHash = mixedHash X hs.handshakeHash fss.flatten
  recorded : ∀ x ∈ mixedInputs X hs.handshakeHash fss.flatten, .hashed x ∈ computed tr
  pattern : hs'.pattern = hs.pattern
  step : hs'.step = hs.step + tr.length
  bound : hs.step ≤ patternTotalSteps hs.pattern → hs'.step ≤ patternTotalSteps hs.pattern

theorem exchanged_of_run (run : Run (MessageStep X) hs tr hs')
    (hok : ∀ l ∈ tr, l.result.isSome = true) : ∃ fss, Exchanged X hs tr fss hs' := by
  induction run with
  | nil hs => exact ⟨[], rfl, rfl, rfl, (fun x hx => by cases hx), rfl, rfl, id⟩
  | @cons hs hs₁ hs' l tr hstep tail ih =>
      obtain ⟨fss, h⟩ := ih fun l' hmem => hok l' (List.mem_cons_of_mem l hmem)
      obtain ⟨fields, hfirst⟩ := hstep.absorbed (hok l List.mem_cons_self)
      obtain ⟨_, _, rfl⟩ := hstep
      have hchain : fields ++ fss.flatten = (fields :: fss).flatten := rfl
      refine ⟨fields :: fss, ?_, ?_, ?_, ?_, h.pattern.trans hfirst.pattern, ?_, ?_⟩
      · rw [List.map_cons, List.map_cons, h.wire, hfirst.wire]
      · rw [List.map_cons, h.count, hfirst.count, hfirst.step, hfirst.pattern,
          List.length_cons, List.range'_succ, List.map_cons]
      · rw [h.hash, ← hchain]
        refine Eq.trans ?_ (hashChain_append _ _ _).symm
        exact congrArg (mixedHash X · fss.flatten) hfirst.absorbs.hash
      · intro x hx
        have hcomputed : computed (l :: tr) = l.after.log ++ computed tr := rfl
        have hsplit : x ∈ chainInputs X.genericHash Block.toList hs.handshakeHash
            (fields ++ fss.flatten) := hx
        rw [chainInputs_append] at hsplit
        rw [hcomputed]
        cases List.mem_append.mp hsplit with
        | inl hl => exact List.mem_append_left _ (hfirst.absorbs.recorded x hl)
        | inr hr =>
            apply List.mem_append_right
            apply h.recorded x
            have hafter : l.after.hs.handshakeHash =
                hashChain X.genericHash Block.toList hs.handshakeHash fields :=
              hfirst.absorbs.hash
            rw [hafter]
            exact hr
      · rw [h.step, hfirst.step, List.length_cons]
        omega
      · intro _
        have hlt := step_lt hfirst.isOpen
        have hle := h.bound (by rw [hfirst.step, hfirst.pattern]; exact hlt)
        rwa [hfirst.pattern] at hle

/-- The chain that led to the hash of a constructed state. -/
theorem make_handshakeHash (p : Pattern) (initiator : Bool) (keys : Keypair)
    (rs : Option PublicKey) : (HandshakeState.make X p initiator keys rs).handshakeHash =
      mixedHash X (startHash X p) (preFields p initiator keys rs) := by
  unfold HandshakeState.make HandshakeState.handshakeHash
  cases p <;> cases initiator <;> cases rs <;>
    simp [SymmetricState.mixHash_h, mixedHash, preFields, preMessage, startHash]

theorem toList_injective {n : Nat} : Function.Injective (Block.toList (n := n)) :=
  fun _ _ h => Block.ext h

theorem mixedHash_inj {h h' : Digest} {fields fields' : List Bytes}
    (hcount : fields.length = fields'.length)
    (heq : mixedHash X h fields = mixedHash X h' fields') :
    (h = h' ∧ fields = fields') ∨
      Collide X.genericHash (mixedInputs X h fields) (mixedInputs X h' fields') := by
  apply hashChain_inj toList_injective _ hcount heq
  intro a b
  rw [Block.length_toList, Block.length_toList]

/-- The constructors of two parties hash one responder key, or collide; with and without a
key their last inputs differ in length. -/
theorem preMessage_inj {h : Digest} {rs rs' : Option PublicKey}
    (heq : mixedHash X h (prologue :: rs.toList.map Block.toList) =
      mixedHash X h (prologue :: rs'.toList.map Block.toList)) :
    rs = rs' ∨ Collide X.genericHash
      (mixedInputs X h (prologue :: rs.toList.map Block.toList))
      (mixedInputs X h (prologue :: rs'.toList.map Block.toList)) := by
  have hshort : ∀ (a b : Digest) (k : PublicKey), a.toList ++ prologue ≠ b.toList ++ k.toList := by
    intro a b k hsame
    have hlen := congrArg List.length hsame
    rw [List.length_append, List.length_append, Block.length_toList, Block.length_toList,
      Block.length_toList] at hlen
    exact absurd hlen (by decide)
  cases rs with
  | none =>
      cases rs' with
      | none => exact Or.inl rfl
      | some k =>
          refine Or.inr ⟨_, List.mem_cons_self, _, ?_, hshort _ _ k, heq⟩
          exact List.mem_cons_of_mem _ List.mem_cons_self
  | some k =>
      cases rs' with
      | none =>
          refine Or.inr ⟨_, List.mem_cons_of_mem _ List.mem_cons_self, _, List.mem_cons_self,
            ?_, heq⟩
          exact (hshort _ _ k).symm
      | some k' =>
          obtain ⟨_, hsame⟩ | hcollide := mixedHash_inj (by rfl) heq
          · left
            have hkey : k.toList = k'.toList := by simpa using hsame
            rw [Block.ext hkey]
          · exact Or.inr hcollide

end Transcripts

section Binding

variable {p : Pattern} {hs hs' : HandshakeState} {tr tr' : List MessageRecord}
  {initiator initiator' : Bool} {keys keys' : Keypair} {rs rs' : Option PublicKey}

/-- A completed handshake exchanged all messages of its pattern. -/
theorem exchanged_complete (run : Run (MessageStep X)
      (HandshakeState.make X p initiator keys rs) tr hs)
    (hok : ∀ l ∈ tr, l.result.isSome = true) (hdone : hs.isComplete = true) :
    ∃ fss, Exchanged X (HandshakeState.make X p initiator keys rs) tr fss hs ∧
      fss.map List.length = (List.range' 0 (patternTotalSteps p)).map (messageFields p) := by
  obtain ⟨fss, h⟩ := exchanged_of_run run hok
  obtain ⟨hp, _, hstep⟩ := HandshakeState.make_start (X := X) p initiator keys rs
  have hlen : tr.length = patternTotalSteps p := by
    have hle := h.bound (by rw [hstep]; exact Nat.zero_le _)
    have hge := isComplete_iff.mp hdone
    rw [hs.stepsTotal_eq, h.pattern] at hge
    have hcount := h.step
    rw [hp] at hle hge
    rw [hstep] at hcount
    omega
  refine ⟨fss, h, ?_⟩
  rw [h.count, hstep, hp, hlen]

/-- Two completed handshakes of one pattern with one handshake hash exchanged the same
messages and hashed the same responder key, or evaluated BLAKE2b on two inputs with one
digest. -/
theorem handshakeHash_binds
    (run : Run (MessageStep X) (HandshakeState.make X p initiator keys rs) tr hs)
    (run' : Run (MessageStep X) (HandshakeState.make X p initiator' keys' rs') tr' hs')
    (hok : ∀ l ∈ tr, l.result.isSome = true) (hok' : ∀ l ∈ tr', l.result.isSome = true)
    (hdone : hs.isComplete = true) (hdone' : hs'.isComplete = true)
    (heq : hs.handshakeHash = hs'.handshakeHash) :
    (tr.map MessageRecord.wire = tr'.map MessageRecord.wire ∧
        preMessage p initiator keys rs = preMessage p initiator' keys' rs') ∨
      Collide X.genericHash (Evaluated X p initiator keys rs tr)
        (Evaluated X p initiator' keys' rs' tr') := by
  obtain ⟨fss, h, hcount⟩ := exchanged_complete run hok hdone
  obtain ⟨fss', h', hcount'⟩ := exchanged_complete run' hok' hdone'
  have hstart := make_handshakeHash (X := X) p initiator keys rs
  have hstart' := make_handshakeHash (X := X) p initiator' keys' rs'
  have hlengths : fss.map List.length = fss'.map List.length := hcount.trans hcount'.symm
  have hflat : fss.flatten.length = fss'.flatten.length := by
    rw [List.length_flatten, List.length_flatten, hlengths]
  rw [h.hash, h'.hash] at heq
  obtain ⟨hfirst, hfields⟩ | hcollide := mixedHash_inj hflat heq
  · have hsame : fss = fss' := List.eq_iff_flatten_eq.mpr ⟨hfields, hlengths⟩
    rw [hstart, hstart'] at hfirst
    obtain hkey | hcollide := preMessage_inj hfirst
    · left
      rw [h.wire, h'.wire, hsame]
      exact ⟨rfl, hkey⟩
    · exact Or.inr (hcollide.mono Set.subset_union_left Set.subset_union_left)
  · right
    apply hcollide.mono
    · exact fun x hx => Or.inr (h.recorded x hx)
    · exact fun x hx => Or.inr (h'.recorded x hx)

open Miniature in
/-- An IK responder's side of a handshake with party 1, and its reply. -/
def smallAnswer : Except Fatal (List MessageRecord × HandshakeState) :=
  conduct external (HandshakeState.make external .ik false (keypair 2) none)
    [.read ((HandshakeState.make external .ik true (keypair 1) (some (keypair 2).pk)).written
      external (secretKey 3) []), .write (secretKey 4) []]

def smallReply : Bytes :=
  (smallAnswer.toOption.bind fun r => r.1.getLast?).elim [] MessageRecord.wire

open Miniature in
/-- The two sides of one IK handshake. -/
theorem handshakeHash_binds_small : ∃ (tr tr' : List MessageRecord) (hs hs' : HandshakeState),
    tr.length = 2 ∧ hs.handshakeHash = hs'.handshakeHash ∧
    ((tr.map MessageRecord.wire = tr'.map MessageRecord.wire ∧
        preMessage .ik true (keypair 1) (some (keypair 2).pk) =
          preMessage .ik false (keypair 2) none) ∨
      Collide external.genericHash
        (Evaluated external .ik true (keypair 1) (some (keypair 2).pk) tr)
        (Evaluated external .ik false (keypair 2) none tr')) := by
  obtain ⟨tr, hs, run, hend⟩ := exists_message_run (X := external)
    (HandshakeState.make external .ik true (keypair 1) (some (keypair 2).pk))
    [.write (secretKey 3) [], .read smallReply]
    (fun tr hs => tr.length = 2 && hs.isComplete && (tr.all fun l => l.result.isSome) &&
      smallAnswer.toOption.map (fun r => r.2.handshakeHash) = some hs.handshakeHash)
    (by decide +kernel)
  obtain ⟨tr', hs', run', hend'⟩ := exists_message_run (X := external)
    (HandshakeState.make external .ik false (keypair 2) none)
    [.read ((HandshakeState.make external .ik true (keypair 1) (some (keypair 2).pk)).written
      external (secretKey 3) []), .write (secretKey 4) []]
    (fun tr hs => hs.isComplete && (tr.all fun l => l.result.isSome) &&
      smallAnswer.toOption.map (fun r => r.2.handshakeHash) = some hs.handshakeHash)
    (by decide +kernel)
  simp only [Bool.and_eq_true, decide_eq_true_eq, List.all_eq_true] at hend hend'
  obtain ⟨⟨⟨hlen, hdone⟩, hok⟩, hhash⟩ := hend
  obtain ⟨⟨hdone', hok'⟩, hhash'⟩ := hend'
  have heq : hs.handshakeHash = hs'.handshakeHash := Option.some.inj (hhash.symm.trans hhash')
  exact ⟨tr, tr', hs, hs', hlen, heq, handshakeHash_binds run run' hok hok' hdone hdone' heq⟩

end Binding

end SecurityNoise
