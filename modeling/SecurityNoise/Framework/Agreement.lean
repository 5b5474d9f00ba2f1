import SecurityNoise.Framework.Interpreter

/-!
# The Noise framework: a reader follows its writer

For any message pattern in which the writer uses its static key only after the reader
has it, reading the bytes that were written succeeds, returns the payload and leaves
both parties with equal symmetric states. The proof follows the token list; the
relation between the parties is kept token by token.

## Implementation notes

The relation carries two flags, one for each static key: whether the other party
knows it. Ephemeral keys need none, since every ephemeral key a party holds between
messages has been sent.
-/

namespace SecurityNoise.Framework

variable {Priv : Type} {dhLen hashLen blockLen : Nat}

/-- The tokens in which a writer's static secret enters a DH. -/
def Token.usesStatic (writer : Role) : Token → Bool
  | .es => writer = .responder
  | .se => writer = .initiator
  | .ss => true
  | _ => false

/-- The validity rule for one message: the writer's static secret enters a DH only once
the reader knows the public half. `known` says whether it does at the start. -/
def ValidTokens (writer : Role) : Bool → List Token → Bool
  | _, [] => true
  | known, t :: ts =>
      (!t.usesStatic writer || known) && ValidTokens writer (known || t = .s) ts

/-- Whether the reader knows the writer's static key after the tokens. -/
def knownAfter (known : Bool) (ts : List Token) : Bool := known || ts.contains .s

/-- Writer and reader in lockstep. -/
structure Paired (pub : Priv → Block dhLen) (knowsWriter knowsReader : Bool)
    (w r : HandshakeState Priv dhLen hashLen) : Prop where
  role : r.role = w.role.other
  sym : r.sym = w.sym
  reader_re : r.re = w.e.map KeyPair.pk
  writer_re : w.re = r.e.map KeyPair.pk
  reader_rs : ∀ pk, r.rs = some pk → pk = w.s.pk
  writer_rs : ∀ pk, w.rs = some pk → pk = r.s.pk
  reader_knows : knowsWriter = true → r.rs = some w.s.pk
  writer_knows : knowsReader = true → w.rs = some r.s.pk
  writer_s : w.s.pk = pub w.s.sk
  reader_s : r.s.pk = pub r.s.sk
  writer_e : ∀ kp, w.e = some kp → kp.pk = pub kp.sk
  reader_e : ∀ kp, r.e = some kp → kp.pk = pub kp.sk

namespace Paired

variable {pub : Priv → Block dhLen} {kw kr : Bool} {w r : HandshakeState Priv dhLen hashLen}

/-- The parties swap places for the next message. -/
theorem swap (h : Paired pub kw kr w r) : Paired pub kr kw r w where
  role := by rw [h.role]; cases w.role <;> rfl
  sym := h.sym.symm
  reader_re := h.writer_re
  writer_re := h.reader_re
  reader_rs := h.writer_rs
  writer_rs := h.reader_rs
  reader_knows := h.writer_knows
  writer_knows := h.reader_knows
  writer_s := h.reader_s
  reader_s := h.writer_s
  writer_e := h.reader_e
  reader_e := h.writer_e

/-- Equal changes of the symmetric state keep the parties in lockstep. -/
theorem withSym (h : Paired pub kw kr w r) (sym : SymmetricState hashLen) :
    Paired pub kw kr { w with sym := sym } { r with sym := sym } where
  role := h.role
  sym := rfl
  reader_re := h.reader_re
  writer_re := h.writer_re
  reader_rs := h.reader_rs
  writer_rs := h.writer_rs
  reader_knows := h.reader_knows
  writer_knows := h.writer_knows
  writer_s := h.writer_s
  reader_s := h.reader_s
  writer_e := h.writer_e
  reader_e := h.reader_e

/-- A fresh ephemeral key that the reader has taken over. -/
theorem withEphemeral (h : Paired pub kw kr w r) {fresh : KeyPair Priv dhLen}
    (hf : fresh.pk = pub fresh.sk) :
    Paired pub kw kr { w with e := some fresh } { r with re := some fresh.pk } where
  role := h.role
  sym := h.sym
  reader_re := rfl
  writer_re := h.writer_re
  reader_rs := h.reader_rs
  writer_rs := h.writer_rs
  reader_knows := h.reader_knows
  writer_knows := h.writer_knows
  writer_s := h.writer_s
  reader_s := h.reader_s
  writer_e := by
    intro kp hkp
    cases hkp
    exact hf
  reader_e := h.reader_e

/-- A static key that the reader has taken over. -/
theorem withStatic (h : Paired pub kw kr w r) :
    Paired pub true kr w { r with rs := some w.s.pk } where
  role := h.role
  sym := h.sym
  reader_re := h.reader_re
  writer_re := h.writer_re
  reader_rs := by
    intro pk hpk
    exact (Option.some.inj hpk).symm
  writer_rs := h.writer_rs
  reader_knows := fun _ => rfl
  writer_knows := h.writer_knows
  writer_s := h.writer_s
  reader_s := h.reader_s
  writer_e := h.writer_e
  reader_e := h.reader_e

variable {su : Suite Priv dhLen hashLen blockLen}

/-- The writer's remote ephemeral key is the reader's own. -/
theorem re_eq (h : Paired pub kw kr w r) {pk : Block dhLen} (hpk : w.re = some pk) :
    ∃ kp, r.e = some kp ∧ pk = pub kp.sk := by
  rw [h.writer_re, Option.map_eq_some_iff] at hpk
  obtain ⟨kp, hkp, rfl⟩ := hpk
  exact ⟨kp, hkp, h.reader_e kp hkp⟩

/-- The writer's ephemeral key is the reader's remote one. -/
theorem e_eq (h : Paired pub kw kr w r) {kp : KeyPair Priv dhLen} (hkp : w.e = some kp) :
    r.re = some (pub kp.sk) := by
  rw [h.reader_re, hkp, Option.map_some, h.writer_e kp hkp]

theorem rs_eq (h : Paired pub kw kr w r) {pk : Block dhLen} (hpk : w.rs = some pk) :
    pk = pub r.s.sk :=
  (h.writer_rs pk hpk).trans h.reader_s

theorem s_eq (h : Paired pub true kr w r) : r.rs = some (pub w.s.sk) := by
  rw [h.reader_knows rfl, h.writer_s]

/-- The writer's ephemeral against the reader's static key. -/
theorem ephemeralStatic (laws : su.Lawful pub) (h : Paired pub kw kr w r)
    {keys : Priv × Block dhLen}
    (hk : (w.e.bind fun e => w.rs.bind fun rs => some (e.sk, rs)) = some keys) :
    ∃ keys', (r.re.bind fun re => some (r.s.sk, re)) = some keys' ∧
      su.dh keys'.1 keys'.2 = su.dh keys.1 keys.2 := by
  simp only [Option.bind_eq_some_iff, Option.some.injEq] at hk
  obtain ⟨kp, hkp, pk, hpk, rfl⟩ := hk
  obtain rfl := h.rs_eq hpk
  rw [h.e_eq hkp]
  exact ⟨_, rfl, laws.dh_comm _ _⟩

/-- The writer's static against the reader's ephemeral key. -/
theorem staticEphemeral (laws : su.Lawful pub) (h : Paired pub true kr w r)
    {keys : Priv × Block dhLen} (hk : (w.re.bind fun re => some (w.s.sk, re)) = some keys) :
    ∃ keys', (r.e.bind fun e => r.rs.bind fun rs => some (e.sk, rs)) = some keys' ∧
      su.dh keys'.1 keys'.2 = su.dh keys.1 keys.2 := by
  simp only [Option.bind_eq_some_iff, Option.some.injEq] at hk
  obtain ⟨pk, hpk, rfl⟩ := hk
  obtain ⟨kp, hkp, rfl⟩ := h.re_eq hpk
  rw [hkp, h.s_eq]
  exact ⟨_, rfl, laws.dh_comm _ _⟩

/-- Whatever keys a DH token names for the writer, it names keys for the reader with
the same shared secret. -/
theorem dhKeys (laws : su.Lawful pub) (h : Paired pub kw kr w r) {t : Token}
    (hv : t.usesStatic w.role = true → kw = true) {keys : Priv × Block dhLen}
    (hk : w.dhKeys t = some keys) :
    ∃ keys', r.dhKeys t = some keys' ∧ su.dh keys'.1 keys'.2 = su.dh keys.1 keys.2 := by
  have role := h.role
  cases t with
  | e => simp [HandshakeState.dhKeys] at hk
  | s => simp [HandshakeState.dhKeys] at hk
  | ee =>
      simp only [HandshakeState.dhKeys, Option.bind_eq_bind, Option.bind_eq_some_iff,
        Option.some.injEq] at hk ⊢
      obtain ⟨kp, hkp, pk, hpk, rfl⟩ := hk
      obtain ⟨kp', hkp', rfl⟩ := h.re_eq hpk
      exact ⟨_, ⟨kp', hkp', _, h.e_eq hkp, rfl⟩, laws.dh_comm _ _⟩
  | es =>
      cases hw : w.role with
      | initiator =>
          rw [hw] at role
          simp only [HandshakeState.dhKeys, hw, role, Role.other] at hk ⊢
          exact h.ephemeralStatic laws hk
      | responder =>
          rw [hw] at role
          obtain rfl := hv (by simp [Token.usesStatic, hw])
          simp only [HandshakeState.dhKeys, hw, role, Role.other] at hk ⊢
          exact h.staticEphemeral laws hk
  | se =>
      cases hw : w.role with
      | initiator =>
          rw [hw] at role
          obtain rfl := hv (by simp [Token.usesStatic, hw])
          simp only [HandshakeState.dhKeys, hw, role, Role.other] at hk ⊢
          exact h.staticEphemeral laws hk
      | responder =>
          rw [hw] at role
          simp only [HandshakeState.dhKeys, hw, role, Role.other] at hk ⊢
          exact h.ephemeralStatic laws hk
  | ss =>
      obtain rfl := hv rfl
      simp only [HandshakeState.dhKeys, Option.bind_eq_bind, Option.bind_eq_some_iff,
        Option.some.injEq] at hk ⊢
      obtain ⟨pk, hpk, rfl⟩ := hk
      obtain rfl := h.rs_eq hpk
      exact ⟨_, ⟨_, h.s_eq, rfl⟩, laws.dh_comm _ _⟩

/-- A DH token that the writer processes, the reader processes too. -/
theorem mixDh (laws : su.Lawful pub) (h : Paired pub kw kr w r) {t : Token}
    (hv : t.usesStatic w.role = true → kw = true) {w' : HandshakeState Priv dhLen hashLen}
    (hw : (HandshakeState.mixDh su t).run w = some ((), w')) :
    ∃ r', (HandshakeState.mixDh su t).run r = some ((), r') ∧ Paired pub kw kr w' r' := by
  change (w.dhKeys t).bind (fun keys => (su.dh keys.1 keys.2).bind fun z =>
    some ((), { w with sym := w.sym.mixKey su z.toList })) = some ((), w') at hw
  obtain ⟨keys, hkeys, hw⟩ := Option.bind_eq_some_iff.mp hw
  obtain ⟨z, hz, hw⟩ := Option.bind_eq_some_iff.mp hw
  obtain ⟨_, rfl⟩ := Prod.mk.inj (Option.some.inj hw)
  obtain ⟨keys', hkeys', hdh⟩ := h.dhKeys laws hv hkeys
  refine ⟨{ r with sym := w.sym.mixKey su z.toList }, ?_, h.withSym _⟩
  change (r.dhKeys t).bind _ = _
  simp only [hkeys', hdh, hz, h.sym, Option.bind_eq_bind, Option.bind_some]

end Paired

section Lockstep

open HandshakeState

variable {pub : Priv → Block dhLen} {kw kr : Bool} {w w' r : HandshakeState Priv dhLen hashLen}
variable {su : Suite Priv dhLen hashLen blockLen} {fresh : KeyPair Priv dhLen}

/-- What one token writes, the same token reads back. -/
theorem readToken_writeToken (laws : su.Lawful pub) (hf : fresh.pk = pub fresh.sk)
    (h : Paired pub kw kr w r) {t : Token} (hv : t.usesStatic w.role = true → kw = true)
    {out : Bytes} (hw : (writeToken su fresh t).run w = some (out, w')) (rest : Bytes) :
    ∃ r', (readToken su (out ++ rest) t).run r = some (rest, r') ∧
      Paired pub (kw || t = .s) kr w' r' := by
  -- A DH token writes nothing and reads nothing.
  have hdh : ∀ {t : Token}, (t.usesStatic w.role = true → kw = true) →
      (do HandshakeState.mixDh su t; pure [] :
        StateT (HandshakeState Priv dhLen hashLen) Option Bytes).run w = some (out, w') →
      ∃ r', (do HandshakeState.mixDh su t; pure (out ++ rest) :
        StateT (HandshakeState Priv dhLen hashLen) Option Bytes).run r = some (rest, r') ∧
        Paired pub kw kr w' r' := by
    intro t hv hw
    rw [StateT.run_bind] at hw
    obtain ⟨⟨_, w₁⟩, hw₁, hw₂⟩ := Option.bind_eq_some_iff.mp hw
    obtain ⟨rfl, rfl⟩ := Prod.mk.inj (Option.some.inj hw₂)
    obtain ⟨r', hr', hp⟩ := h.mixDh laws hv hw₁
    refine ⟨r', ?_, hp⟩
    rw [StateT.run_bind, hr']
    rfl
  cases t with
  | e =>
      obtain ⟨rfl, rfl⟩ := Prod.mk.inj (Option.some.inj hw)
      refine ⟨{ r with re := some fresh.pk, sym := w.sym.mixHash su fresh.pk.toList }, ?_, ?_⟩
      · change (spanBlock dhLen (fresh.pk.toList ++ rest) 0).bind _ = _
        have hspan : spanBlock dhLen (fresh.pk.toList ++ rest) 0 = some fresh.pk := by
          simp [spanBlock_eq_some, span_eq_some]
        simp [hspan, h.sym]
      · simpa using (h.withEphemeral hf).withSym (w.sym.mixHash su fresh.pk.toList)
  | s =>
      change (w.sym.encryptAndHash su w.s.pk.toList).bind _ = _ at hw
      obtain ⟨⟨c, sym⟩, hc, hw⟩ := Option.bind_eq_some_iff.mp hw
      obtain ⟨rfl, rfl⟩ := Prod.mk.inj (Option.some.inj hw)
      refine ⟨{ r with rs := some w.s.pk, sym := sym }, ?_, ?_⟩
      · have hlen := SymmetricState.encryptAndHash_length laws.toAeadLawful hc
        rw [Block.length_toList] at hlen
        change (span (c ++ rest) 0 (dhLen + r.sym.cipher.overhead)).bind _ = _
        have hspan : span (c ++ rest) 0 (dhLen + w.sym.cipher.overhead) = some c := by
          simp [span_eq_some, ← hlen]
        have hdrop : (c ++ rest).drop (dhLen + w.sym.cipher.overhead) = rest := by
          simp [← hlen]
        simp [hspan, hdrop, h.sym,
          SymmetricState.decryptAndHash_encryptAndHash laws.toAeadLawful hc]
      · simpa using h.withStatic.withSym sym
  | ee =>
      obtain ⟨r', hr', hp⟩ := hdh hv hw
      exact ⟨r', hr', by simpa using hp⟩
  | es =>
      obtain ⟨r', hr', hp⟩ := hdh hv hw
      exact ⟨r', hr', by simpa using hp⟩
  | se =>
      obtain ⟨r', hr', hp⟩ := hdh hv hw
      exact ⟨r', hr', by simpa using hp⟩
  | ss =>
      obtain ⟨r', hr', hp⟩ := hdh hv hw
      exact ⟨r', hr', by simpa using hp⟩

/-- Writing a token leaves the role and the static key pair alone. -/
theorem writeToken_role {t : Token} {out : Bytes}
    (hw : (writeToken su fresh t).run w = some (out, w')) : w'.role = w.role := by
  have hdh : ∀ {t : Token}, (do HandshakeState.mixDh su t; pure [] :
      StateT (HandshakeState Priv dhLen hashLen) Option Bytes).run w = some (out, w') →
      w'.role = w.role := by
    intro t hw
    rw [StateT.run_bind] at hw
    obtain ⟨⟨_, w₁⟩, hw₁, hw₂⟩ := Option.bind_eq_some_iff.mp hw
    obtain ⟨_, rfl⟩ := Prod.mk.inj (Option.some.inj hw₂)
    obtain ⟨keys, _, hw₁⟩ := Option.bind_eq_some_iff.mp hw₁
    obtain ⟨z, _, hw₁⟩ := Option.bind_eq_some_iff.mp hw₁
    obtain ⟨_, rfl⟩ := Prod.mk.inj (Option.some.inj hw₁)
    rfl
  cases t with
  | e =>
      obtain ⟨_, rfl⟩ := Prod.mk.inj (Option.some.inj hw)
      rfl
  | s =>
      obtain ⟨_, _, hw⟩ := Option.bind_eq_some_iff.mp hw
      obtain ⟨_, rfl⟩ := Prod.mk.inj (Option.some.inj hw)
      rfl
  | ee => exact hdh hw
  | es => exact hdh hw
  | se => exact hdh hw
  | ss => exact hdh hw

/-- What a token list writes, the same list reads back. -/
theorem readTokens_writeTokens (laws : su.Lawful pub) (hf : fresh.pk = pub fresh.sk)
    (ts : List Token) {out : Bytes} (h : Paired pub kw kr w r)
    (hv : ValidTokens w.role kw ts = true)
    (hw : (writeTokens su fresh ts).run w = some (out, w')) (rest : Bytes) :
    ∃ r', (readTokens su (out ++ rest) ts).run r = some (rest, r') ∧
      Paired pub (knownAfter kw ts) kr w' r' := by
  induction ts generalizing w r kw out with
  | nil =>
      obtain ⟨rfl, rfl⟩ := Prod.mk.inj (Option.some.inj hw)
      refine ⟨r, rfl, ?_⟩
      simpa [knownAfter] using h
  | cons t ts ih =>
      rw [ValidTokens, Bool.and_eq_true] at hv
      obtain ⟨hvt, hvs⟩ := hv
      have hvt' : t.usesStatic w.role = true → kw = true := by
        intro ht
        simpa [ht] using hvt
      rw [writeTokens, StateT.run_bind] at hw
      obtain ⟨⟨b, w₁⟩, hb, hw⟩ := Option.bind_eq_some_iff.mp hw
      rw [StateT.run_bind] at hw
      obtain ⟨⟨bs, w₂⟩, hbs, hw⟩ := Option.bind_eq_some_iff.mp hw
      obtain ⟨rfl, rfl⟩ := Prod.mk.inj (Option.some.inj hw)
      obtain ⟨r₁, hr₁, hp₁⟩ := readToken_writeToken laws hf h hvt' hb (bs ++ rest)
      rw [← writeToken_role hb] at hvs
      obtain ⟨r₂, hr₂, hp₂⟩ := ih hp₁ hvs hbs
      refine ⟨r₂, ?_, ?_⟩
      · rw [readTokens, StateT.run_bind, List.append_assoc, hr₁]
        exact hr₂
      · have hk : knownAfter (kw || t = .s) ts = knownAfter kw (t :: ts) := by
          cases t <;> simp [knownAfter]
        exact hk ▸ hp₂

/-- A valid message, read as it was written, returns its payload and leaves the parties
paired. -/
theorem readMessage_writeMessage (laws : su.Lawful pub) (hf : fresh.pk = pub fresh.sk)
    {ts : List Token} {payload out : Bytes} (h : Paired pub kw kr w r)
    (hv : ValidTokens w.role kw ts = true)
    (hw : (writeMessage su fresh ts payload).run w = some (out, w')) :
    ∃ r', (readMessage su ts out).run r = some (payload, r') ∧
      Paired pub (knownAfter kw ts) kr w' r' := by
  rw [writeMessage, StateT.run_bind] at hw
  obtain ⟨⟨b, w₁⟩, hb, hw⟩ := Option.bind_eq_some_iff.mp hw
  rw [StateT.run_bind] at hw
  obtain ⟨⟨c, w₂⟩, hc, hw⟩ := Option.bind_eq_some_iff.mp hw
  obtain ⟨rfl, rfl⟩ := Prod.mk.inj (Option.some.inj hw)
  obtain ⟨⟨c', sym⟩, henc, hc⟩ := Option.bind_eq_some_iff.mp hc
  obtain ⟨rfl, rfl⟩ := Prod.mk.inj (Option.some.inj hc)
  obtain ⟨r₁, hr₁, hp₁⟩ := readTokens_writeTokens laws hf ts h hv hb c'
  refine ⟨{ r₁ with sym := sym }, ?_, hp₁.withSym sym⟩
  rw [readMessage, StateT.run_bind, hr₁]
  change (r₁.sym.decryptAndHash su c').bind _ = _
  simp [hp₁.sym, SymmetricState.decryptAndHash_encryptAndHash laws.toAeadLawful henc]

end Lockstep

end SecurityNoise.Framework
