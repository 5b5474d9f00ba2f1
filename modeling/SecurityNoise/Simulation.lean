import SecurityNoise.Refinement

/-!
# Messages follow their token lists

Token by token, then by induction over a list, then for `write_message` and
`read_message` as wholes: from states in the relation the code returns early exactly
when the interpreter fails, and otherwise both return the same bytes and end related.
-/

namespace SecurityNoise

open Framework (Role Token)
open EarlyExit

variable {X : External} {k : Knows} {b : Nat} {role : Role}

section Tokens

/-- A DH token. -/
theorem mixDhOp_refines {tok : Token} (dir : Direction) (hdh : tok.isDh = true)
    (hk : k.allows role tok = true) :
    Refines (Shown k b role) (mixDhOp X dir role tok)
      (Framework.HandshakeState.mixDh X.suite tok)
      (fun _ t _ r => Shown { k with keyed := true } (b + 1) role t r) := by
  intro t r h
  have hkeys := Shows.dhKeys h hdh hk
  have hrun := mixDh_run (X := X) t dir (dhOperands role tok).1 (dhOperands role tok).2
  have hmul : X.suite.dh (t.hs.secret (dhOperands role tok).1)
      (t.hs.peerKey (dhOperands role tok).2) = X.scalarmult
        (t.hs.secret (dhOperands role tok).1) (t.hs.peerKey (dhOperands role tok).2) := rfl
  rw [Framework.HandshakeState.mixDh_of_keys hkeys, hmul]
  cases hz : X.scalarmult (t.hs.secret (dhOperands role tok).1)
      (t.hs.peerKey (dhOperands role tok).2) with
  | none =>
      rw [hz] at hrun
      exact ⟨_, hrun⟩
  | some z =>
      rw [hz] at hrun
      refine ⟨_, _, hrun, ?_⟩
      have hnext := Shows.withSymmetric h (t.hs.symmetric.mixKey X z.toList)
        (fun _ => rfl) (Nat.zero_le (b + 1))
      rw [SymmetricState.view_mixKey, ← h.sym] at hnext
      exact { hnext with keyed := fun _ => rfl }

/-- `encrypt_and_hash`, for a static key or a payload. -/
theorem encryptAndHash_refines {p : Bytes} {t : Traced} {r : Reference}
    (hb : b < 2 ^ 64 - 1) (h : Shown k b role t r) :
    match r.sym.encryptAndHash X.suite p with
    | none => ∃ t', (encryptAndHash X p).run t = .ok (none, t')
    | some (out, sym) => ∃ t', (encryptAndHash X p).run t = .ok (some out, t') ∧
        Shown k (b + 1) role t' { r with sym := sym } := by
  obtain ⟨out, symmetric, hrun, href⟩ :=
    SymmetricState.encryptAndHash_view (X := X) (h.nonce_ne hb) p
  obtain ⟨hkey, hn⟩ := SymmetricState.encryptAndHash_cipher hrun
  rw [h.sym, href]
  refine ⟨t.hashing symmetric out, by rw [encryptAndHash_run, hrun], ?_⟩
  exact Shows.withSymmetric h symmetric (fun hk => hkey.trans hk)
    (Nat.le_trans hn (Nat.succ_le_succ h.nonce))

/-- `decrypt_and_hash`, for a static key or a payload. -/
theorem decryptAndHash_refines {c : Bytes} {t : Traced} {r : Reference}
    (hb : b < 2 ^ 64 - 1) (h : Shown k b role t r) :
    match r.sym.decryptAndHash X.suite c with
    | none => ∃ t', (decryptAndHash X c).run t = .ok (none, t')
    | some (p, sym) => ∃ t', (decryptAndHash X c).run t = .ok (some p, t') ∧
        Shown k (b + 1) role t' { r with sym := sym } := by
  rw [h.sym]
  rcases SymmetricState.decryptAndHash_view (X := X) (h.nonce_ne hb) c with
    ⟨hrun, href⟩ | ⟨p, symmetric, hrun, href⟩
  · rw [href]
    exact ⟨_, by rw [decryptAndHash_run, hrun]⟩
  · obtain ⟨hkey, hn⟩ := SymmetricState.decryptAndHash_cipher hrun
    rw [href]
    refine ⟨t.hashing symmetric c, by rw [decryptAndHash_run, hrun], ?_⟩
    exact Shows.withSymmetric h symmetric (fun hk => hkey.trans hk)
      (Nat.le_trans hn (Nat.succ_le_succ h.nonce))

/-- Recording an event keeps the relation. -/
theorem Shown.push {t : Traced} {r : Reference} (h : Shown k b role t r) (ev : Event) :
    Shown k b role (t.push ev) r := h

/-- One token of a written message. -/
theorem writeTokenOp_refines {tok : Token} (random : PrivateKey) (hb : b < 2 ^ 64 - 1)
    (hk : k.allows role tok = true) :
    Refines (Shown k b role) (writeTokenOp X random role tok)
      (Framework.HandshakeState.writeToken X.suite (freshKeyPair X random) tok)
      (fun out t out' r => out = out' ∧ Shown (k.after .written tok) (b + 1) role t r) := by
  obtain rfl | rfl | htok := tok.kinds
  · intro t r h
    refine ⟨_, _, writeE_run t random, rfl, ?_⟩
    have hsym := Shows.withSymmetric h
      (t.hs.symmetric.mixHash X (generateKeypair X random).pk.toList) id
      (Nat.le_succ_of_le h.nonce)
    rw [SymmetricState.view_mixHash, ← h.sym] at hsym
    exact { hsym with e := rfl }
  · intro t r h
    have henc := encryptAndHash_refines (X := X) (p := r.s.pk.toList) hb
      (h.push (.static .written t.hs.symmetric.cipher.hasKey))
    have href : (Framework.HandshakeState.writeToken X.suite (freshKeyPair X random) .s).run r =
        (r.sym.encryptAndHash X.suite r.s.pk.toList).bind
          fun o => some (o.1, { r with sym := o.2 }) := rfl
    have hspk : r.s.pk = t.hs.sPk := by rw [h.s]
    rw [href, writeTokenOp, encryptStatic_run, ← hspk]
    cases hc : r.sym.encryptAndHash X.suite r.s.pk.toList with
    | none =>
        rw [hc] at henc
        exact henc
    | some o =>
        rw [hc] at henc
        obtain ⟨t', hrun, hnext⟩ := henc
        exact ⟨o.1, t', hrun, rfl, hnext⟩
  · rw [writeTokenOp_dh htok, Framework.HandshakeState.writeToken_dh htok,
      Knows.after_dh k .written htok]
    apply Refines.bind (mixDhOp_refines .written htok hk)
    intro _ _
    exact Refines.pure fun _ _ h => ⟨rfl, h⟩

/-- The encrypted static key of a message that is read, when the cipher has a key. -/
theorem readEncryptedStatic_refines {m : Bytes} {offset : Nat} (hoff : offset ≤ m.length)
    (hb : b < 2 ^ 64 - 1) (hk : k.keyed = true) :
    Refines (Shown k b role) (readEncryptedStatic X m offset)
      (Framework.HandshakeState.readToken X.suite (m.drop offset) .s)
      (fun off t rest r => rest = m.drop off ∧ off ≤ m.length ∧
        Shown { k with rs := true } (b + 1) role t r) := by
  intro t r h
  have hlen : DH_PUBLIC_KEY_BYTES + r.sym.cipher.overhead =
      DH_PUBLIC_KEY_BYTES + AEAD_TAG_BYTES := by
    rw [h.sym, Framework.CipherState.overhead]
    simp only [SymmetricState.view, CipherState.view_keyed (h.keyed hk), Option.isSome_some,
      if_true]
  have href : (Framework.HandshakeState.readToken X.suite (m.drop offset) .s).run r =
      (span m offset (DH_PUBLIC_KEY_BYTES + AEAD_TAG_BYTES)).bind fun enc =>
        (r.sym.decryptAndHash X.suite enc).bind fun o =>
          (Block.ofBytes? DH_PUBLIC_KEY_BYTES o.1).bind fun rs =>
            some (m.drop (offset + (DH_PUBLIC_KEY_BYTES + AEAD_TAG_BYTES)),
              { r with rs := some rs, sym := o.2 }) := by
    change (span (m.drop offset) 0 (DH_PUBLIC_KEY_BYTES + r.sym.cipher.overhead)).bind _ = _
    rw [hlen, span_drop hoff]
    simp only [List.drop_drop]
    rfl
  rw [href, readEncryptedStatic_run]
  cases henc : span m offset (DH_PUBLIC_KEY_BYTES + AEAD_TAG_BYTES) with
  | none => exact ⟨t, rfl⟩
  | some enc =>
      have hdec := decryptAndHash_refines (X := X) (c := enc) hb
        (h.push (.static .read t.hs.symmetric.cipher.hasKey))
      simp only [Option.bind_some]
      cases hc : r.sym.decryptAndHash X.suite enc with
      | none =>
          rw [hc] at hdec
          obtain ⟨t', hrun⟩ := hdec
          exact ⟨t', run_bind_of_none hrun⟩
      | some o =>
          rw [hc] at hdec
          obtain ⟨t', hrun, hnext⟩ := hdec
          simp only [Option.bind_some]
          rw [run_bind_of_some hrun]
          cases hrs : Block.ofBytes? DH_PUBLIC_KEY_BYTES o.1 with
          | none => exact ⟨t', rfl⟩
          | some rs =>
              refine ⟨_, _, rfl, rfl, (span_eq_some.mp henc).1, ?_⟩
              exact { hnext with
                rs := rfl
                rs_zero := fun hz => by cases hz
                rsKnown := rfl }

/-- One token of a message that is read. -/
theorem readTokenOp_refines {m : Bytes} {offset : Nat} {tok : Token}
    (hoff : offset ≤ m.length) (hb : b < 2 ^ 64 - 1) (hk : k.allows role tok = true) :
    Refines (Shown k b role) (readTokenOp X m role offset tok)
      (Framework.HandshakeState.readToken X.suite (m.drop offset) tok)
      (fun off t rest r => rest = m.drop off ∧ off ≤ m.length ∧
        Shown (k.after .read tok) (b + 1) role t r) := by
  obtain rfl | rfl | htok := tok.kinds
  · intro t r h
    have href : (Framework.HandshakeState.readToken X.suite (m.drop offset) .e).run r =
        (spanBlock DH_PUBLIC_KEY_BYTES m offset).bind fun re =>
          some (m.drop (offset + DH_PUBLIC_KEY_BYTES),
            { r with re := some re, sym := r.sym.mixHash X.suite re.toList }) := by
      change (spanBlock DH_PUBLIC_KEY_BYTES (m.drop offset) 0).bind _ = _
      rw [spanBlock_drop hoff]
      simp only [List.drop_drop]
    rw [href, readTokenOp, readE_run]
    cases hre : spanBlock DH_PUBLIC_KEY_BYTES m offset with
    | none => exact ⟨t, rfl⟩
    | some re =>
        refine ⟨_, _, rfl, rfl, spanBlock_bound hre, ?_⟩
        have hsym := Shows.withSymmetric h (t.hs.symmetric.mixHash X re.toList) id
          (Nat.le_succ_of_le h.nonce)
        rw [SymmetricState.view_mixHash, ← h.sym] at hsym
        exact { hsym with
          re := rfl
          re_zero := fun hz => by cases hz }
  · exact readEncryptedStatic_refines hoff hb hk
  · rw [readTokenOp_dh htok, Framework.HandshakeState.readToken_dh htok,
      Knows.after_dh k .read htok]
    apply Refines.bind (mixDhOp_refines .read htok hk)
    intro _ _
    exact Refines.pure fun _ _ h => ⟨rfl, hoff, h⟩

end Tokens

section Lists

/-- The tokens of a written message. -/
theorem writeTokensOp_refines (random : PrivateKey) (ts : List Token)
    (hb : b + ts.length < 2 ^ 64) (hk : Knows.allowsAll role .written k ts = true) :
    Refines (Shown k b role) (writeTokensOp X random role ts)
      (Framework.HandshakeState.writeTokens X.suite (freshKeyPair X random) ts)
      (fun out t out' r => out = out' ∧
        Shown (k.afterAll .written ts) (b + ts.length) role t r) := by
  induction ts generalizing k b with
  | nil => exact Refines.pure fun _ _ h => ⟨rfl, h⟩
  | cons tok ts ih =>
      rw [Knows.allowsAll, Bool.and_eq_true] at hk
      rw [List.length_cons] at hb
      apply Refines.bind (writeTokenOp_refines random (by omega) hk.1)
      rintro out out' t r ⟨hout, h⟩
      subst hout
      have hrest := ih (k := k.after .written tok) (b := b + 1) (by omega) hk.2
      refine Refines.bind hrest ?_ t r h
      intro bs bs'
      refine Refines.pure ?_
      rintro t r ⟨rfl, h⟩
      refine ⟨rfl, ?_⟩
      rw [List.length_cons, Nat.add_comm ts.length 1, ← Nat.add_assoc]
      exact h

/-- The tokens of a message that is read. -/
theorem readTokensOp_refines {m : Bytes} {offset : Nat} (ts : List Token)
    (hoff : offset ≤ m.length) (hb : b + ts.length < 2 ^ 64)
    (hk : Knows.allowsAll role .read k ts = true) :
    Refines (Shown k b role) (readTokensOp X m role offset ts)
      (Framework.HandshakeState.readTokens X.suite (m.drop offset) ts)
      (fun off t rest r => rest = m.drop off ∧ off ≤ m.length ∧
        Shown (k.afterAll .read ts) (b + ts.length) role t r) := by
  induction ts generalizing k b offset with
  | nil => exact Refines.pure fun _ _ h => ⟨rfl, hoff, h⟩
  | cons tok ts ih =>
      rw [Knows.allowsAll, Bool.and_eq_true] at hk
      rw [List.length_cons] at hb
      apply Refines.bind (readTokenOp_refines hoff (by omega) hk.1)
      rintro off rest t r ⟨rfl, hoff', h⟩
      have hrest := ih (k := k.after .read tok) (b := b + 1) hoff' (by omega) hk.2
      rw [List.length_cons, Nat.add_comm ts.length 1, ← Nat.add_assoc]
      exact hrest t r h

end Lists

section Messages

open Framework.HandshakeState (writeMessage readMessage)

variable {p : Pattern} {i : Nat} {hs : HandshakeState} {r : Reference}

theorem armTokens_length (p : Pattern) (i : Nat) : (armTokens p i).length ≤ 4 := by
  unfold armTokens
  split <;> decide

/-- `write_message` without the step counter. -/
theorem writeBody_refines (random : PrivateKey) (payload : Bytes)
    (hi : i < patternTotalSteps p) (hrole : role = writerOf i) (hb : b + 5 < 2 ^ 64) :
    Refines (Shown (knowsAt p role i) b role) (writeBody X random payload p i)
      (writeMessage X.suite (freshKeyPair X random) (armTokens p i) payload)
      (fun out t out' r => out = out' ∧ Shown (knowsAt p role (i + 1)) (b + 5) role t r) := by
  have hlen := armTokens_length p i
  have hdir : directionOf role i = .written := if_pos hrole
  have hknow : knowsAt p role (i + 1) =
      (knowsAt p role i).afterAll .written (armTokens p i) := by
    rw [knowsAt, hdir]
  have hallow := knowsAt_allows p role hi
  rw [hdir] at hallow
  rw [hknow, writeBody, ← hrole]
  apply Refines.bind (writeTokensOp_refines random (armTokens p i) (by omega) hallow)
  rintro out out' t r ⟨hout, h⟩
  subst hout
  have hbound : b + (armTokens p i).length < 2 ^ 64 - 1 := by omega
  have henc := encryptAndHash_refines (X := X) (p := payload) hbound
    (h.push (.payload .written t.hs.symmetric.cipher.hasKey))
  have href : (Framework.HandshakeState.sealPayload X.suite payload >>=
      fun c => (pure (out ++ c) : StateT Reference Option Bytes)).run r =
        (r.sym.encryptAndHash X.suite payload).bind
          fun o => some (out ++ o.1, { r with sym := o.2 }) := by
    change Option.bind (Option.bind _ _) _ = _
    cases r.sym.encryptAndHash X.suite payload <;> rfl
  rw [href, run_bind, encryptPayload_run]
  cases hc : r.sym.encryptAndHash X.suite payload with
  | none =>
      rw [hc] at henc
      obtain ⟨t', hrun⟩ := henc
      exact ⟨t', by rw [hrun]⟩
  | some o =>
      rw [hc] at henc
      obtain ⟨t', hrun, hnext⟩ := henc
      refine ⟨out ++ o.1, t', by rw [hrun]; rfl, rfl, ?_⟩
      exact Shows.mono hnext (by omega)

/-- `read_message` without the step counter. -/
theorem readBody_refines (m : Bytes) (hi : i < patternTotalSteps p)
    (hrole : role = readerOf i) (hb : b + 5 < 2 ^ 64) :
    Refines (Shown (knowsAt p role i) b role) (readBody X m p i)
      (readMessage X.suite (armTokens p i) m)
      (fun out t out' r => out = out' ∧ Shown (knowsAt p role (i + 1)) (b + 5) role t r) := by
  have hlen := armTokens_length p i
  have hdir : directionOf role i = .read := directionOf_reader hrole
  have hknow : knowsAt p role (i + 1) =
      (knowsAt p role i).afterAll .read (armTokens p i) := by
    rw [knowsAt, hdir]
  have hallow := knowsAt_allows p role hi
  rw [hdir] at hallow
  rw [hknow, readBody, ← hrole]
  have hzero : 0 ≤ m.length := Nat.zero_le _
  have hbound : b + (armTokens p i).length < 2 ^ 64 := by omega
  have htokens := readTokensOp_refines (X := X) (armTokens p i) hzero hbound hallow
  rw [List.drop_zero] at htokens
  apply Refines.bind htokens
  rintro off rest t r ⟨rfl, hoff, h⟩
  have hspan : span m off (m.length - off) = some (m.drop off) := by
    rw [span_eq_some]
    refine ⟨by omega, ?_⟩
    rw [← List.length_drop, List.take_length]
  have hread : (readSpan m off (m.length - off)).run t = .ok (some (m.drop off), t) := by
    rw [readSpan, run_lift, hspan]
  rw [run_bind_of_some hread]
  have hlast : b + (armTokens p i).length < 2 ^ 64 - 1 := by omega
  have hdec := decryptAndHash_refines (X := X) (c := m.drop off) hlast
    (h.push (.payload .read t.hs.symmetric.cipher.hasKey))
  have href : (Framework.HandshakeState.openPayload X.suite (m.drop off)).run r =
      (r.sym.decryptAndHash X.suite (m.drop off)).bind
        fun o => some (o.1, { r with sym := o.2 }) := rfl
  rw [href]
  cases hc : r.sym.decryptAndHash X.suite (m.drop off) with
  | none =>
      rw [hc] at hdec
      exact hdec
  | some o =>
      rw [hc] at hdec
      obtain ⟨t', hrun, hnext⟩ := hdec
      exact ⟨o.1, t', hrun, rfl, Shows.mono hnext (by omega)⟩

/-- Between messages: the code's state of a party that has followed its pattern up to
message `i`, and the framework's. -/
structure Follows (p : Pattern) (role : Role) (i : Nat) (hs : HandshakeState)
    (r : Reference) : Prop where
  pattern : hs.pattern = p
  initiator : hs.initiator = decide (role = .initiator)
  step : hs.step = i
  reveals : Shows (knowsAt p role i) (5 * i) role hs r

theorem patternTotalSteps_le (p : Pattern) : patternTotalSteps p ≤ 3 := by
  cases p <;> decide

/-- A party with messages left is not complete. -/
theorem Follows.not_complete (h : Follows p role i hs r) (hi : i < patternTotalSteps p) :
    hs.isComplete = false := by
  rw [Bool.eq_false_iff, ne_eq, isComplete_iff, hs.stepsTotal_eq, h.pattern, h.step]
  omega

/-- One message on both sides: neither accepts it, or both return the same bytes, in
states that satisfy `next`. -/
def SameOutcome (code : Except Fatal (Option Bytes × Traced))
    (reference : Option (Bytes × Reference)) (next : HandshakeState → Reference → Prop) :
    Prop :=
  match reference with
  | none => ∃ t, code = .ok (none, t)
  | some (out, r) => ∃ t, code = .ok (some out, t) ∧ next t.hs r

theorem SameOutcome.mono {code : Except Fatal (Option Bytes × Traced)}
    {reference : Option (Bytes × Reference)} {next next' : HandshakeState → Reference → Prop}
    (h : SameOutcome code reference next) (hnext : ∀ hs r, next hs r → next' hs r) :
    SameOutcome code reference next' := by
  cases reference with
  | none => exact h
  | some o =>
      obtain ⟨t, hcode, ht⟩ := h
      exact ⟨t, hcode, hnext _ _ ht⟩

/-- A written message follows the interpreter. -/
theorem Follows.write (h : Follows p role i hs r) (hi : i < patternTotalSteps p)
    (hrole : role = writerOf i) (random : PrivateKey) (payload : Bytes) :
    SameOutcome (hs.writeMessage X random payload)
      ((writeMessage X.suite (freshKeyPair X random) (armTokens p i) payload).run r)
      (Follows p role (i + 1)) := by
  have htotal := patternTotalSteps_le p
  have hbody := writeBody_refines (X := X) random payload hi hrole (by omega) ⟨hs, []⟩ r h.reveals
  rw [writeMessage_open (h.not_complete hi), h.pattern, h.step]
  cases href : (writeMessage X.suite (freshKeyPair X random) (armTokens p i) payload).run r with
  | none =>
      rw [href] at hbody
      obtain ⟨t, hrun⟩ := hbody
      exact ⟨t, run_bind_of_none hrun⟩
  | some o =>
      rw [href] at hbody
      obtain ⟨out, t, hrun, hout, hnext⟩ := hbody
      subst hout
      refine ⟨t.counted .written, run_bind_of_some hrun, ?_⟩
      have hpiece := (writeBody_eq_ok hrun).1
      obtain ⟨hp, hin, hst, _⟩ := afterDrawing_frame X random p i ⟨hs, []⟩
      exact {
        pattern := (hpiece.pattern.trans hp).trans h.pattern
        initiator := (hpiece.initiator.trans hin).trans h.initiator
        step := congrArg (· + 1) ((hpiece.step.trans hst).trans h.step)
        reveals := hnext.withStep (t.hs.step + 1) }

/-- A message that is read follows the interpreter. -/
theorem Follows.read (h : Follows p role i hs r) (hi : i < patternTotalSteps p)
    (hrole : role = readerOf i) (m : Bytes) :
    SameOutcome (hs.readMessage X m) ((readMessage X.suite (armTokens p i) m).run r)
      (Follows p role (i + 1)) := by
  have htotal := patternTotalSteps_le p
  have hbody := readBody_refines (X := X) m hi hrole (by omega) ⟨hs, []⟩ r h.reveals
  rw [readMessage_open (h.not_complete hi), h.pattern, h.step]
  cases href : (readMessage X.suite (armTokens p i) m).run r with
  | none =>
      rw [href] at hbody
      obtain ⟨t, hrun⟩ := hbody
      exact ⟨t, run_bind_of_none hrun⟩
  | some o =>
      rw [href] at hbody
      obtain ⟨out, t, hrun, hout, hnext⟩ := hbody
      subst hout
      refine ⟨t.counted .read, run_bind_of_some hrun, ?_⟩
      have hpiece := readBody_piece _ _ _ _ _ _ hrun
      exact {
        pattern := hpiece.pattern.trans h.pattern
        initiator := hpiece.initiator.trans h.initiator
        step := congrArg (· + 1) (hpiece.step.trans h.step)
        reveals := hnext.withStep (t.hs.step + 1) }

/-- The framework's pattern of the same name. -/
def Pattern.spec : Pattern → Framework.Pattern
  | .xx => Framework.Pattern.xx
  | .ik => Framework.Pattern.ik

/-- `Initialize` of the framework for the party the constructor makes. -/
def referenceStart (X : External) (p : Pattern) (role : Role) (s : Keypair)
    (rs : Option PublicKey) : Option Reference :=
  Framework.HandshakeState.start X.suite (protocolName p) prologue p.spec role ⟨s.sk, s.pk⟩ rs

/-- The symmetric state after the prologue, on both sides. -/
theorem view_prologue (X : External) (p : Pattern) :
    (Framework.SymmetricState.initializeSymmetric X.suite (protocolName p)).mixHash X.suite
        prologue =
      ((SymmetricState.initializeProtocol X (protocolName p)).mixHash X prologue).view := by
  rw [SymmetricState.view_mixHash, SymmetricState.view_initializeProtocol]

/-- A party before its first message, with any symmetric state whose counter is zero. -/
theorem Shows.start (rs : Option PublicKey) {hs : HandshakeState} {r : Reference}
    (hrole : r.role = role) (hsym : r.sym = hs.symmetric.view)
    (hn : hs.symmetric.cipher.n = 0) (hs_keys : r.s = ⟨hs.sSk, hs.sPk⟩)
    (he : r.e = none) (hre : r.re = none ∧ hs.re = Block.zero DH_PUBLIC_KEY_BYTES)
    (hrs : r.rs = rs ∧ hs.rs = rs.getD (Block.zero DH_PUBLIC_KEY_BYTES))
    (hknown : hs.rsKnown = rs.isSome) : Shows { rs := rs.isSome } 0 role hs r where
  role := hrole
  sym := hsym
  s := hs_keys
  e := he
  re := hre.1
  rs := by
    rw [hrs.1, hrs.2]
    cases rs <;> rfl
  re_zero _ := hre.2
  rs_zero hz := by
    have hnone : rs = none := Option.isSome_eq_false_iff.mp hz |> Option.isNone_iff_eq_none.mp
    rw [hrs.2, hnone]
    rfl
  rsKnown := hknown
  keyed hk := nomatch hk
  nonce := by
    rw [hn]
    exact Nat.le_refl 0

/-- The constructor follows `Initialize`; the peer's static key is given exactly to an
initiator of IK. -/
theorem make_follows (p : Pattern) (role : Role) (s : Keypair) (rs : Option PublicKey)
    (hrs : rs.isSome = (knowsAt p role 0).rs) :
    ∃ r, referenceStart X p role s rs = some r ∧
      Follows p role 0 (HandshakeState.make X p (decide (role = .initiator)) s rs) r := by
  have hpro := view_prologue X p
  have hpre := fun d => SymmetricState.view_mixHash (X := X)
    ((SymmetricState.initializeProtocol X (protocolName p)).mixHash X prologue) d
  have hshape : (p = .ik ∧ role = .initiator ∧ ∃ pinned, rs = some pinned) ∨
      (p = .ik ∧ role = .responder ∧ rs = none) ∨ (p = .xx ∧ rs = none) := by
    cases p <;> cases role <;> cases rs <;> simp [knowsAt] at hrs ⊢
  rcases hshape with ⟨rfl, rfl, pinned, rfl⟩ | ⟨rfl, rfl, rfl⟩ | ⟨rfl, rfl⟩
  · refine ⟨_, rfl, rfl, rfl, rfl, ?_⟩
    have hview := hpre pinned.toList
    rw [← hpro] at hview
    exact Shows.start (some pinned) rfl hview.symm rfl rfl rfl ⟨rfl, rfl⟩ ⟨rfl, rfl⟩ rfl
  · refine ⟨_, rfl, rfl, rfl, rfl, ?_⟩
    have hview := hpre s.pk.toList
    rw [← hpro] at hview
    exact Shows.start none rfl hview.symm rfl rfl rfl ⟨rfl, rfl⟩ ⟨rfl, rfl⟩ rfl
  · exact ⟨_, rfl, rfl, rfl, rfl,
      Shows.start none rfl hpro rfl rfl rfl ⟨rfl, rfl⟩ ⟨rfl, rfl⟩ rfl⟩

end Messages

end SecurityNoise
