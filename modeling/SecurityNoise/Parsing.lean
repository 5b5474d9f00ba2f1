import SecurityNoise.Sequences
import SecurityNoise.Miniature

/-!
# What an accepted message is

`read_message` cuts a message into at most three fields with one running offset, while the
cipher that opens them changes between the fields. It never reads outside the message, and
under an exact AEAD the message it accepts is the encoding of the ephemeral key, the static
key and the payload it returns: nothing in it is ignored, and no field has two encodings.

## Implementation notes

The encoding is stated with the symmetric states of the reader, at the points where it opens
the fields. Two messages with the same fields lead through the same points, because the
tokens before a point read only the bytes before it.
-/

namespace SecurityNoise

open Framework (Role Token)
open EarlyExit

variable {X : External}

section Statement

/-- The bytes of each message besides its payload. -/
def fixedOverhead : Pattern → Nat → Nat
  | .xx, 0 => 32
  | .xx, 1 => 96
  | .xx, 2 => 64
  | .ik, 0 => 96
  | _, _ => 48

/-- The encrypted static key in a message that is read up to `m`: the key sealed at its
point, or nothing where the message has none. -/
def StaticPart (X : External) (hs : HandshakeState) (m : Bytes) (rs : PublicKey)
    (static : Bytes) : Prop :=
  (Token.s ∉ armTokens hs.pattern hs.step ∧ static = []) ∨
    ∃ pre post offset t, armTokens hs.pattern hs.step = pre ++ .s :: post ∧
      ReadPoint X hs m pre offset t ∧ t.hs.symmetric.cipher.hasKey = true ∧
      static = t.hs.symmetric.sealed X rs.toList

/-- An accepted message, its payload and the state it leads to. -/
structure ParsedExactly (X : External) (hs : HandshakeState) (m p : Bytes) (t : Traced) :
    Prop where
  length : m.length = p.length + fixedOverhead hs.pattern hs.step
  /-- The message is the new ephemeral key, the sealed new static key and the sealed payload,
  as far as it has them. -/
  encoding : ∃ static offset t₁, StaticPart X hs m t.hs.rs static ∧
    ReadPoint X hs m (armTokens hs.pattern hs.step) offset t₁ ∧
    m = (if draws hs.pattern hs.step then t.hs.re.toList else []) ++ static ++
      t₁.hs.symmetric.sealed X p

/-- What holds of `read_message` on a state. -/
structure ParsesExactly (X : External) (hs : HandshakeState) : Prop where
  /-- It reads nothing outside the message, whose size its offset never passes. -/
  inBounds : ∀ m, hs.readMessage X m ≠ .error .outOfBounds
  offset_le : ∀ m pre post offset t, armTokens hs.pattern hs.step = pre ++ post →
    ReadPoint X hs m pre offset t → offset ≤ m.length
  exact : ∀ m p t, hs.readMessage X m = .ok (some p, t) → ParsedExactly X hs m p t
  /-- Different messages differ in what they carry. -/
  unique : ∀ m m' p t t', hs.readMessage X m = .ok (some p, t) →
    hs.readMessage X m' = .ok (some p, t') → t.hs.re = t'.hs.re → t.hs.rs = t'.hs.rs → m = m'

end Statement

section Bounds

variable {t : Traced}

theorem decryptAndHash_inBounds (c : Bytes) : (decryptAndHash X c).run t ≠ .error .outOfBounds := by
  intro h
  rw [decryptAndHash_run] at h
  split at h
  · rename_i e he
    obtain rfl := Except.error.inj h
    cases SymmetricState.decryptAndHash_eq_error he
  · cases h
  · cases h

theorem readTokenOp_inBounds {m : Bytes} {role : Role} {offset : Nat} {tok : Token} :
    (readTokenOp X m role offset tok).run t ≠ .error .outOfBounds := by
  intro h
  obtain rfl | rfl | htok := tok.kinds
  · rw [readTokenOp, readE_run] at h
    split at h <;> cases h
  · rw [readTokenOp, readEncryptedStatic_run] at h
    split at h
    · cases h
    · obtain h₁ | ⟨plain, t₁, _, h₂⟩ := run_bind_eq_error h
      · exact decryptAndHash_inBounds _ h₁
      · split at h₂ <;> cases h₂
  · rw [readTokenOp_dh htok] at h
    obtain h₁ | ⟨_, _, _, h₂⟩ := run_bind_eq_error h
    · rw [mixDhOp, mixDh_run] at h₁
      simp only at h₁
      split at h₁ <;> cases h₁
    · cases h₂

theorem readTokensOp_inBounds {m : Bytes} {role : Role} {offset : Nat} {ts : List Token} :
    (readTokensOp X m role offset ts).run t ≠ .error .outOfBounds := by
  induction ts generalizing offset t with
  | nil =>
      intro h
      cases h
  | cons tok ts ih =>
      intro h
      obtain h₁ | ⟨o, t₁, _, h₂⟩ := run_bind_eq_error h
      · exact readTokenOp_inBounds h₁
      · exact ih h₂

/-- The payload starts inside the message. -/
theorem readMessage_inBounds (hs : HandshakeState) (m : Bytes) :
    hs.readMessage X m ≠ .error .outOfBounds := by
  rcases Bool.eq_false_or_eq_true hs.isComplete with hc | hc
  · rw [readMessage_complete hc]
    intro h
    cases h
  · rw [readMessage_open hc]
    intro h
    obtain h | ⟨_, _, _, h⟩ := run_bind_eq_error h
    · obtain h₁ | ⟨offset, t₁, h₁, h₂⟩ := run_bind_eq_error h
      · exact readTokensOp_inBounds h₁
      · have hle := (readTokensOp_offset h₁).2 (Nat.zero_le _)
        have hspan : span m offset (m.length - offset) =
            some ((m.drop offset).take (m.length - offset)) :=
          span_eq_some.mpr ⟨by omega, rfl⟩
        have hread : (readSpan m offset (m.length - offset)).run t₁ =
            .ok (some ((m.drop offset).take (m.length - offset)), t₁) := by
          rw [readSpan, run_lift, hspan]
        rw [run_bind_of_some hread] at h₂
        exact decryptAndHash_inBounds _ h₂
    · cases h

end Bounds

section Encoding

variable {hs : HandshakeState} {t : Traced}

/-- Under an exact AEAD, what opens is what would have been sealed. -/
theorem SymmetricState.Opens.eq_sealed (haead : X.AeadExact) {s : SymmetricState} {c p : Bytes}
    (h : s.Opens X c p) : c = s.sealed X p := by
  unfold Opens at h
  unfold sealed
  split at h
  · rename_i hk
    rw [if_pos hk]
    exact haead _ _ _ _ _ h
  · rename_i hk
    rw [if_neg hk]
    exact h

/-- The tokens of a message cover the ephemeral key and the sealed static key they leave. -/
theorem readTokens_encoding (haead : X.AeadExact) {m : Bytes} {offset : Nat}
    (h : ReadPoint X hs m (armTokens hs.pattern hs.step) offset t) :
    ∃ static, StaticPart X hs m t.hs.rs static ∧
      m.take offset = (if draws hs.pattern hs.step then t.hs.re.toList else []) ++ static := by
  by_cases hmem : Token.s ∈ armTokens hs.pattern hs.step
  · obtain ⟨pre, post, hts⟩ := List.append_of_mem hmem
    obtain ⟨⟨dhs, hpre, hdhs⟩, hpost, hnot, _⟩ := armTokens_split hts
    have hoffset := (readTokensOp_offset h).1
    have hrun := h
    rw [ReadPoint, hts] at hrun
    obtain ⟨hn, _⟩ | ⟨o, t₁, enc, symmetric, h₁, hspan, hkey, hdec, _⟩ :=
      readTokensOp_static hnot (not_mem_of_dh hpost rfl) hrun
    · cases hn
    · have hsealed := (SymmetricState.decryptAndHash_opens hdec).eq_sealed haead
      refine ⟨enc, Or.inr ⟨pre, post, o, t₁, hts, h₁, hkey, hsealed⟩, ?_⟩
      -- the tokens after the ephemeral key keep it
      obtain ⟨o', t₂, h₂, h₃⟩ := readTokensOp_split hrun
      obtain ⟨rfl, rfl⟩ : o' = o ∧ t₂ = t₁ := by
        have hboth := h₂.symm.trans h₁
        obtain ⟨ho, ht⟩ := Prod.mk.inj (Except.ok.inj hboth)
        exact ⟨Option.some.inj ho, ht⟩
      have hre : t.hs.re = t₂.hs.re := by
        refine (readTokensOp_remote _ _ _ _ _ _ _ h₃).re ?_
        rw [List.mem_cons, not_or]
        exact ⟨by decide, not_mem_of_dh hpost rfl⟩
      have hhead := h₁
      rw [hpre] at hhead
      obtain ⟨_, htake⟩ := readTokensOp_head hdhs hhead
      obtain ⟨_, hpiece⟩ := span_eq_some.mp hspan
      have ho := (readTokensOp_offset h₁).1
      rw [hts, List.map_append, List.sum_append, List.map_cons, List.sum_cons,
        wireSize_dh hpost, wireSize] at hoffset
      have hsum : offset = o' + (DH_PUBLIC_KEY_BYTES + AEAD_TAG_BYTES) := by omega
      rw [hsum, List.take_add, htake, hpiece, hre]
  · obtain ⟨dhs, hpre, hdhs⟩ := armTokens_plain hmem
    refine ⟨[], Or.inl ⟨hmem, rfl⟩, ?_⟩
    have hhead := h
    rw [ReadPoint, hpre] at hhead
    rw [List.append_nil]
    exact (readTokensOp_head hdhs hhead).2

/-- An accepted message is the encoding of what it leaves and returns. -/
theorem readMessage_encoding (haead : X.AeadExact) {m p : Bytes}
    (h : hs.readMessage X m = .ok (some p, t)) :
    ∃ static offset t₁, StaticPart X hs m t.hs.rs static ∧
      ReadPoint X hs m (armTokens hs.pattern hs.step) offset t₁ ∧ offset ≤ m.length ∧
      m.take offset = (if draws hs.pattern hs.step then t.hs.re.toList else []) ++ static ∧
      m.drop offset = t₁.hs.symmetric.sealed X p := by
  obtain ⟨_, offset, t₁, symmetric, hpoint, hle, hdec, rfl⟩ := readMessage_payload h
  obtain ⟨static, hstatic, htake⟩ := readTokens_encoding haead hpoint
  exact ⟨static, offset, t₁, hstatic, hpoint, hle, htake,
    (SymmetricState.decryptAndHash_opens hdec).eq_sealed haead⟩

end Encoding

section Uniqueness

variable {hs : HandshakeState} {t t' : Traced} {m m' : Bytes}

/-- A token reads only the bytes up to the offset it leaves. -/
theorem readTokenOp_congr {role : Role} {offset o : Nat} {tok : Token}
    (h : (readTokenOp X m role offset tok).run t = .ok (some o, t'))
    (htake : m'.take o = m.take o) :
    (readTokenOp X m' role offset tok).run t = .ok (some o, t') := by
  obtain ⟨rfl, _⟩ := readTokenOp_offset h
  cases tok with
  | e =>
      rw [readTokenOp, readE_run] at h ⊢
      cases hb : spanBlock DH_PUBLIC_KEY_BYTES m offset with
      | none =>
          rw [hb] at h
          cases h
      | some re =>
          have hb' : spanBlock DH_PUBLIC_KEY_BYTES m' offset = some re :=
            spanBlock_eq_some.mpr (span_of_take (spanBlock_eq_some.mp hb) htake)
          rw [hb] at h
          rw [hb']
          exact h
  | s =>
      rw [readTokenOp, readEncryptedStatic_run] at h ⊢
      cases hb : span m offset (DH_PUBLIC_KEY_BYTES + AEAD_TAG_BYTES) with
      | none =>
          rw [hb] at h
          cases h
      | some enc =>
          rw [hb] at h
          rw [span_of_take hb htake]
          exact h
  | _ => exact h

theorem readTokensOp_congr {role : Role} {offset o : Nat} {ts : List Token}
    (h : (readTokensOp X m role offset ts).run t = .ok (some o, t'))
    (htake : m'.take o = m.take o) :
    (readTokensOp X m' role offset ts).run t = .ok (some o, t') := by
  induction ts generalizing offset t with
  | nil => exact h
  | cons tok ts ih =>
      obtain ⟨o₁, t₁, h₁, h₂⟩ := readTokensOp_cons h
      have hle : o₁ ≤ o := by
        have ho := (readTokensOp_offset h₂).1
        omega
      have htake₁ : m'.take o₁ = m.take o₁ := by
        have hcut := congrArg (List.take o₁) htake
        rwa [List.take_take, List.take_take, Nat.min_eq_left hle] at hcut
      rw [readTokensOp, run_bind_of_some (readTokenOp_congr h₁ htake₁)]
      exact ih h₂

/-- Two messages that agree up to a point reach it in one state. -/
theorem ReadPoint.unique {ts : List Token} {o o' : Nat} (h : ReadPoint X hs m ts o t)
    (h' : ReadPoint X hs m' ts o' t') (htake : m'.take o = m.take o) : o' = o ∧ t' = t := by
  have hboth := h'.symm.trans (readTokensOp_congr h htake)
  obtain ⟨ho, ht⟩ := Prod.mk.inj (Except.ok.inj hboth)
  exact ⟨Option.some.inj ho, ht⟩

/-- Messages with one ephemeral key seal a static key alike. -/
theorem StaticPart.unique {rs re : PublicKey} {static static' : Bytes}
    (h : StaticPart X hs m rs static) (h' : StaticPart X hs m' rs static')
    {rest rest' : Bytes}
    (hm : m = (if draws hs.pattern hs.step then re.toList else []) ++ rest)
    (hm' : m' = (if draws hs.pattern hs.step then re.toList else []) ++ rest') :
    static = static' := by
  obtain ⟨hnot, rfl⟩ | ⟨pre, post, o, t₁, hts, hpoint, _, rfl⟩ := h
  · obtain ⟨_, rfl⟩ | ⟨pre, post, _, _, hts, _⟩ := h'
    · rfl
    · rw [hts] at hnot
      exact absurd (List.mem_append_right pre List.mem_cons_self) hnot
  · obtain ⟨hnot, _⟩ | ⟨pre', post', o', t₁', hts', hpoint', _, rfl⟩ := h'
    · rw [hts] at hnot
      exact absurd (List.mem_append_right pre List.mem_cons_self) hnot
    · have hpre : pre' = pre := by
        obtain ⟨_, hpost, hnot, _⟩ := armTokens_split hts
        have hsame := hts.symm.trans hts'
        have hnot' : Token.s ∉ post := not_mem_of_dh hpost rfl
        exact ((List.append_cons_inj_of_notMem hnot hnot').mp hsame).1.symm
      subst hpre
      obtain ⟨⟨dhs, hpre, hdhs⟩, _⟩ := armTokens_split hts
      have ho : o = (if draws hs.pattern hs.step then re.toList else []).length := by
        rw [(readTokensOp_offset hpoint).1, hpre, List.map_append, List.sum_append,
          wireSize_dh hdhs]
        cases draws hs.pattern hs.step
        · rfl
        · simp [wireSize]
      have htake : m'.take o = m.take o := by
        rw [hm, hm', ho, List.take_left, List.take_left]
      obtain ⟨_, rfl⟩ := hpoint.unique hpoint' htake
      rfl

/-- A state accepts one message for each ephemeral key, static key and payload. -/
theorem readMessage_unique (haead : X.AeadExact) {p : Bytes}
    (h : hs.readMessage X m = .ok (some p, t)) (h' : hs.readMessage X m' = .ok (some p, t'))
    (hre : t.hs.re = t'.hs.re) (hrs : t.hs.rs = t'.hs.rs) : m = m' := by
  obtain ⟨static, o, t₁, hstatic, hpoint, hle, htake, hdrop⟩ := readMessage_encoding haead h
  obtain ⟨static', o', t₁', hstatic', hpoint', hle', htake', hdrop'⟩ :=
    readMessage_encoding haead h'
  rw [← hre] at htake'
  rw [← hrs] at hstatic'
  have hm := (List.take_append_drop o m).symm
  have hm' := (List.take_append_drop o' m').symm
  rw [htake, List.append_assoc] at hm
  rw [htake', List.append_assoc] at hm'
  obtain rfl := hstatic.unique hstatic' hm hm'
  have ho : o = o' := by
    rw [(readTokensOp_offset hpoint).1, (readTokensOp_offset hpoint').1]
  subst ho
  have hsame : m'.take o = m.take o := htake'.trans htake.symm
  obtain ⟨_, rfl⟩ := hpoint.unique hpoint' hsame
  rw [hm, hm', hdrop, hdrop']

end Uniqueness

section Start

variable {hs hs' : HandshakeState} {t t' : Traced} {l : MessageRecord}

/-- Before the first XX message the cipher has no key. -/
def KeylessStart (hs : HandshakeState) : Prop :=
  hs.pattern = .xx → hs.step = 0 → hs.symmetric.cipher.hasKey = false

theorem decryptAndHash_hasKey {c : Bytes} {r : Option Bytes}
    (h : (decryptAndHash X c).run t = .ok (r, t')) :
    t'.hs.symmetric.cipher.hasKey = t.hs.symmetric.cipher.hasKey := by
  obtain ⟨_, rfl⟩ | ⟨p, symmetric, _, hdec, rfl⟩ := decryptAndHash_cases h
  · rfl
  · obtain ⟨cipher, hc, rfl⟩ := SymmetricState.decryptAndHash_some hdec
    exact (CipherState.decryptWithAd_key hc).2

theorem readBody_first {m : Bytes} {r : Option Bytes}
    (h : (readBody X m .xx 0).run t = .ok (r, t')) :
    t'.hs.symmetric.cipher.hasKey = t.hs.symmetric.cipher.hasKey := by
  have he : ∀ {r t'}, (readTokensOp X m (readerOf 0) 0 (armTokens .xx 0)).run t = .ok (r, t') →
      t'.hs.symmetric.cipher.hasKey = t.hs.symmetric.cipher.hasKey := by
    intro r t' h
    have hread : ∀ {r t'}, (readE X m 0).run t = .ok (r, t') →
        t'.hs.symmetric.cipher.hasKey = t.hs.symmetric.cipher.hasKey := by
      intro r t' h
      obtain ⟨_, rfl⟩ | ⟨_, _, _, rfl⟩ := readE_cases h
      · rfl
      · rfl
    obtain ⟨o, t₁, h₁, h₂⟩ | ⟨_, h₁⟩ := run_bind_eq_ok h
    · obtain ⟨_, rfl⟩ := Prod.mk.inj (Except.ok.inj h₂)
      exact hread h₁
    · exact hread h₁
  obtain ⟨_, h₁⟩ | ⟨o, t₁, h₁, _, h₂⟩ := readBody_cases h
  · exact he h₁
  · have hkey := he h₁
    exact (decryptAndHash_hasKey h₂).trans hkey

theorem writeBody_first {random : PrivateKey} {payload : Bytes} {r : Option Bytes}
    (h : (writeBody X random payload .xx 0).run t = .ok (r, t')) :
    t'.hs.symmetric.cipher.hasKey = t.hs.symmetric.cipher.hasKey := by
  have hrun : (writeTokensOp X random (writerOf 0) (armTokens .xx 0)).run t =
      .ok (some ((generateKeypair X random).pk.toList ++ []), t.drawing X random) := rfl
  obtain ⟨_, h₁⟩ | ⟨out, t₁, c, symmetric, h₁, _, hseal, rfl⟩ := writeBody_cases h
  · rw [hrun] at h₁
    cases h₁
  · rw [hrun] at h₁
    obtain ⟨_, rfl⟩ := Prod.mk.inj (Except.ok.inj h₁)
    obtain ⟨cipher, hc, rfl⟩ := SymmetricState.encryptAndHash_eq_ok hseal
    exact (CipherState.encryptWithAd_key hc).2

theorem KeylessStart.step (h : KeylessStart hs) (hstep : MessageStep X hs l hs') :
    KeylessStart hs' := by
  obtain ⟨_, hcall, rfl⟩ := hstep
  intro hp hst
  cases hl : l.call with
  | write random payload =>
      rw [hl] at hcall
      obtain ⟨_, _, heq⟩ | ⟨_, t₁, hrun, heq⟩ := writeMessage_eq_ok hcall
      · rw [heq] at hp hst ⊢
        exact h hp hst
      · obtain ⟨hp', _, hst', _⟩ := afterDrawing_frame X random hs.pattern hs.step ⟨hs, []⟩
        have hpiece := (writeBody_eq_ok hrun).1
        cases hr : l.result with
        | some out =>
            rw [heq, hr] at hst
            cases hst
        | none =>
            rw [hr] at heq
            rw [heq] at hp hst ⊢
            have hpat : hs.pattern = .xx := ((hpiece.pattern.trans hp').symm.trans hp)
            have hzero : hs.step = 0 := (hpiece.step.trans hst').symm.trans hst
            rw [hpat, hzero] at hrun
            exact (writeBody_first hrun).trans (h hpat hzero)
  | read m =>
      rw [hl] at hcall
      obtain ⟨_, _, heq⟩ | ⟨_, t₁, hrun, hpiece, heq⟩ := readMessage_eq_ok hcall
      · rw [heq] at hp hst ⊢
        exact h hp hst
      · cases hr : l.result with
        | some out =>
            rw [heq, hr] at hst
            cases hst
        | none =>
            rw [hr] at heq
            rw [heq] at hp hst ⊢
            have hpat : hs.pattern = .xx := hpiece.pattern.symm.trans hp
            have hzero : hs.step = 0 := hpiece.step.symm.trans hst
            rw [hpat, hzero] at hrun
            exact (readBody_first hrun).trans (h hpat hzero)

theorem KeylessStart.make (p : Pattern) (initiator : Bool) (keys : Keypair)
    (rs : Option PublicKey) : KeylessStart (HandshakeState.make X p initiator keys rs) := by
  rintro hp _
  unfold HandshakeState.make at *
  cases p with
  | xx => rfl
  | ik => cases initiator <;> cases rs <;> cases hp

end Start

section Lengths

variable {hs : HandshakeState} {t : Traced}

theorem overhead_eq {p : Pattern} {i : Nat} (hi : i < patternTotalSteps p) :
    fixedOverhead p i = ((armTokens p i).map wireSize).sum +
      if p = .xx ∧ i = 0 then 0 else AEAD_TAG_BYTES := by
  obtain ⟨rfl, rfl⟩ | ⟨rfl, rfl⟩ | ⟨rfl, rfl⟩ | ⟨rfl, rfl⟩ | ⟨rfl, rfl⟩ := message_cases hi <;>
    decide

/-- The payload of the first XX message is in the clear, any other one has a tag. -/
theorem payload_length (hstart : KeylessStart hs) (hc : hs.isComplete = false) {m p : Bytes}
    {offset : Nat} (hpoint : ReadPoint X hs m (armTokens hs.pattern hs.step) offset t) :
    (t.hs.symmetric.sealed X p).length =
      p.length + if hs.pattern = .xx ∧ hs.step = 0 then 0 else AEAD_TAG_BYTES := by
  by_cases hfirst : hs.pattern = .xx ∧ hs.step = 0
  · have hkeyless : t.hs.symmetric.cipher.hasKey = false := by
      obtain ⟨hp, hst⟩ := hfirst
      have hrun := hpoint
      rw [ReadPoint, hp, hst] at hrun
      obtain ⟨o, t₁, h₁, h₂⟩ := readTokensOp_cons hrun
      obtain ⟨_, rfl⟩ := Prod.mk.inj (Except.ok.inj h₂)
      obtain ⟨hn, _⟩ | ⟨_, _, _, rfl⟩ := readE_cases h₁
      · cases hn
      · exact hstart hp hst
    rw [if_pos hfirst, SymmetricState.sealed, hkeyless]
    rfl
  · have hdh : (armTokens hs.pattern hs.step).any Token.isDh = true := by
      have hshape := message_cases (step_lt hc)
      generalize hs.pattern = p at *
      generalize hs.step = i at *
      obtain ⟨rfl, rfl⟩ | ⟨rfl, rfl⟩ | ⟨rfl, rfl⟩ | ⟨rfl, rfl⟩ | ⟨rfl, rfl⟩ := hshape
      · exact absurd ⟨rfl, rfl⟩ hfirst
      all_goals decide
    have hkey : t.hs.symmetric.cipher.hasKey = true :=
      readTokensOp_keyed false m _ 0 _ ⟨hs, []⟩ (by simp [KeyedIf]) _ _ hpoint hdh
    rw [if_neg hfirst, SymmetricState.sealed, if_pos hkey, X.aeadEncrypt_length]

/-- `read_message` parses exactly, in every state that message calls reach. -/
theorem parses_exactly (haead : X.AeadExact) {p : Pattern} {initiator : Bool} {keys : Keypair}
    {rs : Option PublicKey} {tr : List MessageRecord}
    (run : Run (MessageStep X) (HandshakeState.make X p initiator keys rs) tr hs) :
    ParsesExactly X hs := by
  have hstart : KeylessStart hs :=
    run.invariant (fun _ _ _ h hstep => h.step hstep) (KeylessStart.make p initiator keys rs)
  constructor
  · exact readMessage_inBounds hs
  · intro m pre post offset t _ hpoint
    exact (readTokensOp_offset hpoint).2 (Nat.zero_le _)
  · intro m p t h
    obtain ⟨hc, _⟩ := readMessage_payload h
    obtain ⟨static, offset, t₁, hstatic, hpoint, hle, htake, hdrop⟩ :=
      readMessage_encoding haead h
    constructor
    · have hrest := congrArg List.length hdrop
      rw [List.length_drop, payload_length hstart hc hpoint] at hrest
      rw [overhead_eq (step_lt hc)]
      have hoffset := (readTokensOp_offset hpoint).1
      omega
    · refine ⟨static, offset, t₁, hstatic, hpoint, ?_⟩
      rw [← htake, ← hdrop, List.take_append_drop]
  · intro m m' p t t' h h' hre hrs
    exact readMessage_unique haead h h' hre hrs

/-- An XX initiator that has written its first message. -/
theorem parses_exactly_small : ∃ hs, hs.step = 1 ∧ ParsesExactly Miniature.external hs := by
  obtain ⟨tr, hs, run, hend⟩ := exists_message_run (X := Miniature.external)
    (HandshakeState.make Miniature.external .xx true (Miniature.keypair 1) none)
    [.write (Miniature.secretKey 3) []] (fun _ hs => hs.step = 1) (by decide +kernel)
  exact ⟨hs, of_decide_eq_true hend, parses_exactly Miniature.external_aeadExact run⟩

end Lengths

end SecurityNoise
