import SecurityNoise.Framework.Interpreter

/-!
# The Noise framework: messages that differ in their last DH

Two messages with the same tokens but for a last DH are alike on every payload, or on
every byte string that is read, exactly when the two DHs mix to the same state. For a
reader this needs a message that it accepts; one is made by encrypting under the
reader's own key.
-/

namespace SecurityNoise.Framework

variable {Priv : Type} {dhLen hashLen blockLen : Nat}

namespace HandshakeState

variable {su : Suite Priv dhLen hashLen blockLen} {fresh : KeyPair Priv dhLen}
variable {r r' r₁ r₂ : HandshakeState Priv dhLen hashLen}

section Pieces

theorem writeTokens_append (ts ts' : List Token) :
    writeTokens su fresh (ts ++ ts') = (do
      let b ← writeTokens su fresh ts
      let b' ← writeTokens su fresh ts'
      pure (b ++ b')) := by
  induction ts with
  | nil => simp [writeTokens]
  | cons t ts ih =>
      rw [List.cons_append, writeTokens, writeTokens, ih]
      simp only [bind_assoc, pure_bind, List.append_assoc]

theorem readTokens_append (ts ts' : List Token) (m : Bytes) :
    readTokens su m (ts ++ ts') = (do
      let rest ← readTokens su m ts
      readTokens su rest ts') := by
  induction ts generalizing m with
  | nil => simp [readTokens]
  | cons t ts ih =>
      rw [List.cons_append, readTokens, readTokens, bind_assoc]
      congr 1
      funext rest
      exact ih rest

/-- A DH that succeeds mixes some secret into the symmetric state and changes nothing
else. -/
theorem mixDh_eq_some {t : Token} (h : (mixDh su t).run r = some ((), r')) :
    ∃ z : Block dhLen, r' = { r with sym := r.sym.mixKey su z.toList } := by
  obtain ⟨keys, _, h⟩ := Option.bind_eq_some_iff.mp h
  obtain ⟨z, _, h⟩ := Option.bind_eq_some_iff.mp h
  obtain ⟨_, rfl⟩ := Prod.mk.inj (Option.some.inj h)
  exact ⟨z, rfl⟩

/-- What a token reads is a prefix of the message; any bytes may follow it. -/
theorem readToken_frame {t : Token} {m rest : Bytes}
    (h : (readToken su m t).run r = some (rest, r')) :
    ∃ c, m = c ++ rest ∧ ∀ rest', (readToken su (c ++ rest') t).run r = some (rest', r') := by
  have hdh : t.isDh = true →
      ∃ c, m = c ++ rest ∧ ∀ rest', (readToken su (c ++ rest') t).run r = some (rest', r') := by
    intro ht
    rw [readToken_dh ht, StateT.run_bind] at h
    obtain ⟨⟨_, r₁⟩, h₁, h₂⟩ := Option.bind_eq_some_iff.mp h
    obtain ⟨rfl, rfl⟩ := Prod.mk.inj (Option.some.inj h₂)
    refine ⟨[], rfl, ?_⟩
    intro rest'
    rw [readToken_dh ht, StateT.run_bind, h₁]
    rfl
  cases t with
  | e =>
      obtain ⟨re, hre, h⟩ := Option.bind_eq_some_iff.mp h
      obtain ⟨rfl, rfl⟩ := Prod.mk.inj (Option.some.inj h)
      have htake : m.take dhLen = re.toList := (span_eq_some.mp (spanBlock_eq_some.mp hre)).2
      refine ⟨re.toList, by rw [← htake, List.take_append_drop], ?_⟩
      intro rest'
      change (spanBlock dhLen (re.toList ++ rest') 0).bind _ = _
      have hspan : spanBlock dhLen (re.toList ++ rest') 0 = some re := by
        simp [spanBlock_eq_some, span_eq_some]
      simp [hspan]
  | s =>
      obtain ⟨enc, henc, h⟩ := Option.bind_eq_some_iff.mp h
      obtain ⟨o, ho, h⟩ := Option.bind_eq_some_iff.mp h
      obtain ⟨rs, hrs, h⟩ := Option.bind_eq_some_iff.mp h
      obtain ⟨rfl, rfl⟩ := Prod.mk.inj (Option.some.inj h)
      have htake : m.take (dhLen + r.sym.cipher.overhead) = enc := (span_eq_some.mp henc).2
      have hlen := span_length henc
      refine ⟨enc, by rw [← htake, List.take_append_drop], ?_⟩
      intro rest'
      change (span (enc ++ rest') 0 (dhLen + r.sym.cipher.overhead)).bind _ = _
      have hspan : span (enc ++ rest') 0 (dhLen + r.sym.cipher.overhead) = some enc := by
        simp [span_eq_some, ← hlen]
      have hdrop : (enc ++ rest').drop (dhLen + r.sym.cipher.overhead) = rest' := by
        simp [← hlen]
      simp [hspan, hdrop, ho, hrs]
  | ee => exact hdh rfl
  | es => exact hdh rfl
  | se => exact hdh rfl
  | ss => exact hdh rfl

theorem readTokens_frame (ts : List Token) {m rest : Bytes}
    (h : (readTokens su m ts).run r = some (rest, r')) :
    ∃ c, m = c ++ rest ∧ ∀ rest', (readTokens su (c ++ rest') ts).run r = some (rest', r') := by
  induction ts generalizing m r with
  | nil =>
      obtain ⟨rfl, rfl⟩ := Prod.mk.inj (Option.some.inj h)
      exact ⟨[], rfl, fun _ => rfl⟩
  | cons t ts ih =>
      rw [readTokens, StateT.run_bind] at h
      obtain ⟨⟨rest₁, r₁⟩, h₁, h₂⟩ := Option.bind_eq_some_iff.mp h
      obtain ⟨c₁, rfl, hc₁⟩ := readToken_frame h₁
      obtain ⟨c₂, rfl, hc₂⟩ := ih h₂
      refine ⟨c₁ ++ c₂, (List.append_assoc _ _ _).symm, ?_⟩
      intro rest'
      rw [List.append_assoc, readTokens, StateT.run_bind, hc₁]
      exact hc₂ rest'

end Pieces

section Alike

/-- Two outcomes of one message: both fail, or both return the same bytes with the same
symmetric state. -/
def Alike (a b : Option (Bytes × HandshakeState Priv dhLen hashLen)) : Prop :=
  match a, b with
  | none, none => True
  | some (out, r), some (out', r') => out = out' ∧ r.sym = r'.sym
  | _, _ => False

theorem Alike.refl (a : Option (Bytes × HandshakeState Priv dhLen hashLen)) : Alike a a := by
  cases a with
  | none => trivial
  | some o => exact ⟨rfl, rfl⟩

/-- A cipher with a fresh key encrypts, and the state it leaves determines the one
before. -/
theorem encryptAndHash_mixKey (su : Suite Priv dhLen hashLen blockLen)
    (sym : SymmetricState hashLen) (z payload : Bytes) :
    ∃ c sym', (sym.mixKey su z).encryptAndHash su payload = some (c, sym') ∧
      sym'.ck = (sym.mixKey su z).ck ∧ sym'.cipher.k = (sym.mixKey su z).cipher.k :=
  ⟨_, _, rfl, rfl, rfl⟩

/-- Keys and chaining key of a mixed state determine it. -/
theorem mixKey_eq {sym : SymmetricState hashLen} {z z' : Bytes}
    (hck : (sym.mixKey su z).ck = (sym.mixKey su z').ck)
    (hk : (sym.mixKey su z).cipher.k = (sym.mixKey su z').cipher.k) :
    sym.mixKey su z = sym.mixKey su z' := by
  unfold SymmetricState.mixKey CipherState.initializeKey at *
  rw [SymmetricState.mk.injEq, CipherState.mk.injEq]
  exact ⟨hck, rfl, hk, rfl⟩

variable {t t' : Token}

/-- A written message whose last token is a DH. -/
theorem writeMessage_last (ht : t.isDh = true) (pre : List Token) (payload : Bytes) {b : Bytes}
    (hpre : (writeTokens su fresh pre).run r = some (b, r₂)) :
    (writeMessage su fresh (pre ++ [t]) payload).run r =
      ((mixDh su t).run r₂).bind fun o =>
        (o.2.sym.encryptAndHash su payload).map fun c => (b ++ c.1, { o.2 with sym := c.2 }) := by
  rw [writeMessage, writeTokens_append, bind_assoc, StateT.run_bind, hpre]
  simp only [writeTokens, writeToken_dh ht, bind_assoc, pure_bind, List.append_nil]
  change ((mixDh su t).run r₂).bind _ = _
  congr 1
  funext o
  change Option.bind (Option.bind _ _) _ = _
  cases o.2.sym.encryptAndHash su payload <;> rfl

/-- A message that is read and whose last token is a DH. -/
theorem readMessage_last (ht : t.isDh = true) (pre : List Token) {m rest : Bytes}
    (hpre : (readTokens su m pre).run r = some (rest, r₂)) :
    (readMessage su (pre ++ [t]) m).run r =
      ((mixDh su t).run r₂).bind fun o =>
        (o.2.sym.decryptAndHash su rest).map fun c => (c.1, { o.2 with sym := c.2 }) := by
  rw [readMessage, readTokens_append, bind_assoc, StateT.run_bind, hpre]
  simp only [readTokens, readToken_dh ht, bind_assoc, pure_bind]
  change ((mixDh su t).run r₂).bind _ = _
  congr 1
  funext o
  change Option.bind _ _ = _
  cases o.2.sym.decryptAndHash su rest <;> rfl

theorem writeMessage_early (pre : List Token) (ts : List Token) {payload : Bytes}
    (hpre : (writeTokens su fresh pre).run r = none) :
    (writeMessage su fresh (pre ++ ts) payload).run r = none := by
  rw [writeMessage, writeTokens_append, bind_assoc, StateT.run_bind, hpre]
  rfl

theorem readMessage_early (pre : List Token) (ts : List Token) {m : Bytes}
    (hpre : (readTokens su m pre).run r = none) :
    (readMessage su (pre ++ ts) m).run r = none := by
  rw [readMessage, readTokens_append, bind_assoc, StateT.run_bind, hpre]
  rfl

/-- Written messages whose last DHs do the same have the same outcome. -/
theorem writeMessage_congr_last (t t' : Token) (ht : t.isDh = true) (ht' : t'.isDh = true)
    (pre : List Token)
    (h : ∀ b r₂, (writeTokens su fresh pre).run r = some (b, r₂) →
      (mixDh su t).run r₂ = (mixDh su t').run r₂) (payload : Bytes) :
    (writeMessage su fresh (pre ++ [t]) payload).run r =
      (writeMessage su fresh (pre ++ [t']) payload).run r := by
  cases hpre : (writeTokens su fresh pre).run r with
  | none =>
      rw [writeMessage_early pre [t] hpre, writeMessage_early pre [t'] hpre]
  | some o =>
      obtain ⟨b, r₂⟩ := o
      rw [writeMessage_last ht pre payload hpre, writeMessage_last ht' pre payload hpre,
        h b r₂ hpre]

/-- Messages that are read and whose last DHs do the same have the same outcome. -/
theorem readMessage_congr_last (t t' : Token) (ht : t.isDh = true) (ht' : t'.isDh = true)
    (pre : List Token)
    (h : ∀ m rest r₂, (readTokens su m pre).run r = some (rest, r₂) →
      (mixDh su t).run r₂ = (mixDh su t').run r₂) (m : Bytes) :
    (readMessage su (pre ++ [t]) m).run r = (readMessage su (pre ++ [t']) m).run r := by
  cases hpre : (readTokens su m pre).run r with
  | none =>
      rw [readMessage_early pre [t] hpre, readMessage_early pre [t'] hpre]
  | some o =>
      obtain ⟨rest, r₂⟩ := o
      rw [readMessage_last ht pre hpre, readMessage_last ht' pre hpre, h m rest r₂ hpre]

/-- Two written messages that differ in the last DH are alike on every payload exactly
when the two DHs do the same. -/
theorem alike_write_iff (ht : t.isDh = true) (ht' : t'.isDh = true) (pre : List Token) :
    (∀ payload, Alike ((writeMessage su fresh (pre ++ [t]) payload).run r)
        ((writeMessage su fresh (pre ++ [t']) payload).run r)) ↔
      ∀ b r₂, (writeTokens su fresh pre).run r = some (b, r₂) →
        (mixDh su t).run r₂ = (mixDh su t').run r₂ := by
  constructor
  · intro h b r₂ hpre
    have halike := h []
    rw [writeMessage_last ht pre [] hpre, writeMessage_last ht' pre [] hpre] at halike
    cases hz : (mixDh su t).run r₂ with
    | none =>
        cases hz' : (mixDh su t').run r₂ with
        | none => rfl
        | some o' =>
            obtain ⟨z', ho'⟩ := mixDh_eq_some hz'
            obtain ⟨c', sym', henc', _⟩ := encryptAndHash_mixKey su r₂.sym z'.toList []
            rw [hz, hz', Option.bind_none, Option.bind_some, ho', henc'] at halike
            exact halike.elim
    | some o =>
        obtain ⟨z, ho⟩ := mixDh_eq_some hz
        obtain ⟨c, sym, henc, hck, hk⟩ := encryptAndHash_mixKey su r₂.sym z.toList []
        cases hz' : (mixDh su t').run r₂ with
        | none =>
            rw [hz, hz', Option.bind_none, Option.bind_some, ho, henc] at halike
            exact halike.elim
        | some o' =>
            obtain ⟨z', ho'⟩ := mixDh_eq_some hz'
            obtain ⟨c', sym', henc', hck', hk'⟩ :=
              encryptAndHash_mixKey su r₂.sym z'.toList []
            rw [hz, hz', Option.bind_some, Option.bind_some, ho, ho', henc, henc'] at halike
            obtain ⟨_, hsym⟩ := halike
            have hsym' : sym = sym' := hsym
            subst hsym'
            have hmix := mixKey_eq (hck.symm.trans hck') (hk.symm.trans hk')
            have hstate : o.2 = o'.2 := by rw [ho, ho', hmix]
            exact congrArg some (Prod.ext rfl hstate)
  · intro h payload
    rw [writeMessage_congr_last t t' ht ht' pre h payload]
    exact Alike.refl _

theorem decryptAndHash_mixKey {sym sym' : SymmetricState hashLen} {z c p : Bytes}
    (h : (sym.mixKey su z).decryptAndHash su c = some (p, sym')) :
    sym'.ck = (sym.mixKey su z).ck ∧ sym'.cipher.k = (sym.mixKey su z).cipher.k := by
  obtain ⟨⟨p', cipher⟩, hc, h⟩ := Option.bind_eq_some_iff.mp h
  obtain ⟨_, rfl⟩ := Prod.mk.inj (Option.some.inj h)
  obtain ⟨q, _, hq⟩ := Option.map_eq_some_iff.mp hc
  obtain ⟨_, rfl⟩ := Prod.mk.inj hq
  exact ⟨rfl, rfl⟩

/-- A reader whose last DH succeeds accepts some message that starts with the same
tokens. -/
theorem exists_accepted (laws : su.AeadLawful) (pre : List Token) {m rest : Bytes} {z : Bytes}
    (hpre : (readTokens su m pre).run r = some (rest, r₂)) :
    ∃ m' rest' sym', (readTokens su m' pre).run r = some (rest', r₂) ∧
      (r₂.sym.mixKey su z).decryptAndHash su rest' = some ([], sym') := by
  obtain ⟨c, _, hc⟩ := readTokens_frame pre hpre
  obtain ⟨enc, sym', henc, _⟩ := encryptAndHash_mixKey su r₂.sym z []
  exact ⟨c ++ enc, enc, sym', hc enc,
    SymmetricState.decryptAndHash_encryptAndHash laws henc⟩

/-- Two messages that differ in the last DH are alike for a reader on every byte string
exactly when, wherever the tokens before it lead, the two DHs do the same. -/
theorem alike_read_iff (laws : su.AeadLawful) (ht : t.isDh = true) (ht' : t'.isDh = true)
    (pre : List Token) :
    (∀ m, Alike ((readMessage su (pre ++ [t]) m).run r)
        ((readMessage su (pre ++ [t']) m).run r)) ↔
      ∀ m rest r₂, (readTokens su m pre).run r = some (rest, r₂) →
        (mixDh su t).run r₂ = (mixDh su t').run r₂ := by
  constructor
  · intro h m rest r₂ hpre
    -- A message that the first or the second reader accepts separates them.
    cases hz : (mixDh su t).run r₂ with
    | none =>
        cases hz' : (mixDh su t').run r₂ with
        | none => rfl
        | some o' =>
            obtain ⟨z', ho'⟩ := mixDh_eq_some hz'
            obtain ⟨m', rest', sym', hpre', hdec'⟩ :=
              exists_accepted laws pre (z := z'.toList) hpre
            have halike := h m'
            rw [readMessage_last ht pre hpre', readMessage_last ht' pre hpre', hz, hz',
              Option.bind_none, Option.bind_some, ho', hdec'] at halike
            exact halike.elim
    | some o =>
        obtain ⟨z, ho⟩ := mixDh_eq_some hz
        obtain ⟨m', rest', sym, hpre', hdec⟩ :=
          exists_accepted laws pre (z := z.toList) hpre
        have halike := h m'
        rw [readMessage_last ht pre hpre', readMessage_last ht' pre hpre', hz,
          Option.bind_some, ho, hdec] at halike
        cases hz' : (mixDh su t').run r₂ with
        | none =>
            rw [hz', Option.bind_none] at halike
            exact halike.elim
        | some o' =>
            obtain ⟨z', ho'⟩ := mixDh_eq_some hz'
            rw [hz', Option.bind_some, ho'] at halike
            cases hdec' : (r₂.sym.mixKey su z'.toList).decryptAndHash su rest' with
            | none =>
                rw [hdec'] at halike
                exact halike.elim
            | some p' =>
                rw [hdec'] at halike
                obtain ⟨_, hsym⟩ := halike
                have hsym' : sym = p'.2 := hsym
                obtain ⟨hck, hk⟩ := decryptAndHash_mixKey hdec
                obtain ⟨hck', hk'⟩ := decryptAndHash_mixKey hdec'
                rw [← hsym'] at hck' hk'
                have hmix := mixKey_eq (hck.symm.trans hck') (hk.symm.trans hk')
                have hstate : o.2 = o'.2 := by rw [ho, ho', hmix]
                exact congrArg some (Prod.ext rfl hstate)
  · intro h m
    rw [readMessage_congr_last t t' ht ht' pre h m]
    exact Alike.refl _

/-- Two secrets that `MixKey` cannot tell apart under a chaining key. -/
def MixAlike (su : Suite Priv dhLen hashLen blockLen) (ck : Block hashLen)
    (z z' : Block dhLen) : Prop :=
  su.hkdf ck.toList z.toList 0 = su.hkdf ck.toList z'.toList 0 ∧
    su.cipherKey (su.hkdf ck.toList z.toList 1) = su.cipherKey (su.hkdf ck.toList z'.toList 1)

theorem mixKey_eq_iff {sym : SymmetricState hashLen} {z z' : Block dhLen} :
    sym.mixKey su z.toList = sym.mixKey su z'.toList ↔ MixAlike su sym.ck z z' := by
  constructor
  · intro h
    obtain ⟨hck, _, hcipher⟩ := SymmetricState.mk.inj h
    exact ⟨hck, Option.some.inj (CipherState.mk.inj hcipher).1⟩
  · rintro ⟨hck, hk⟩
    exact mixKey_eq hck (congrArg some hk)

/-- A DH with a known secret does the same as another one exactly when the other has a
secret that mixes alike. -/
theorem mixDh_eq_iff {keys keys' : Priv × Block dhLen} {z : Block dhLen}
    (hk : r.dhKeys t = some keys) (hk' : r.dhKeys t' = some keys')
    (hz : su.dh keys.1 keys.2 = some z) :
    (mixDh su t).run r = (mixDh su t').run r ↔
      ∃ z', su.dh keys'.1 keys'.2 = some z' ∧ MixAlike su r.sym.ck z z' := by
  rw [mixDh_of_keys hk, mixDh_of_keys hk', hz, Option.map_some]
  cases su.dh keys'.1 keys'.2 with
  | none => simp
  | some z' =>
      simp only [Option.map_some, Option.some.injEq, Prod.mk.injEq, true_and, exists_eq_left']
      rw [← mixKey_eq_iff]
      constructor
      · intro h
        exact congrArg sym h
      · intro h
        rw [h]

end Alike

end HandshakeState

end SecurityNoise.Framework
