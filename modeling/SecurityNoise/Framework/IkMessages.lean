import Mathlib.Tactic.Simproc.ExistsAndEq
import SecurityNoise.Framework.LastDh

/-!
# The Noise framework: the messages of IK, spelled out

What it takes to write or read the first IK message, and the tokens `e, ee` that start
the second: the secrets that enter, the bytes, and the state that results.
-/

namespace SecurityNoise.Framework

variable {Priv : Type} {dhLen hashLen blockLen : Nat}

namespace HandshakeState

variable {su : Suite Priv dhLen hashLen blockLen} {fresh : KeyPair Priv dhLen}
variable {r r₁ r₂ : HandshakeState Priv dhLen hashLen}

theorem overhead_mixKey (sym : SymmetricState hashLen) (z : Bytes) :
    (sym.mixKey su z).cipher.overhead = 16 := rfl

theorem encryptAndHash_ck {sym sym' : SymmetricState hashLen} {p c : Bytes}
    (h : sym.encryptAndHash su p = some (c, sym')) : sym'.ck = sym.ck := by
  obtain ⟨o, _, h⟩ := Option.bind_eq_some_iff.mp h
  obtain ⟨_, rfl⟩ := Prod.mk.inj (Option.some.inj h)
  rfl

theorem decryptAndHash_ck {sym sym' : SymmetricState hashLen} {p c : Bytes}
    (h : sym.decryptAndHash su c = some (p, sym')) : sym'.ck = sym.ck := by
  obtain ⟨o, _, h⟩ := Option.bind_eq_some_iff.mp h
  obtain ⟨_, rfl⟩ := Prod.mk.inj (Option.some.inj h)
  rfl

theorem pure_apply {α : Type} (a : α) (r : HandshakeState Priv dhLen hashLen) :
    (pure a : StateT (HandshakeState Priv dhLen hashLen) Option α) r = some (a, r) := rfl

section First

/-- The initiator's first message: `e, es, s, ss`. -/
theorem writeFirst_iff {pinned : Block dhLen} {payload out : Bytes}
    (hrole : r.role = .initiator) (hrs : r.rs = some pinned) :
    (writeMessage su fresh [.e, .es, .s, .ss] payload).run r = some (out, r₁) ↔
      ∃ es ss c₁ sym₁ c₂ sym₂, su.dh fresh.sk pinned = some es ∧
        su.dh r.s.sk pinned = some ss ∧
        ((r.sym.mixHash su fresh.pk.toList).mixKey su es.toList).encryptAndHash su
          r.s.pk.toList = some (c₁, sym₁) ∧
        (sym₁.mixKey su ss.toList).encryptAndHash su payload = some (c₂, sym₂) ∧
        out = fresh.pk.toList ++ c₁ ++ c₂ ∧ r₁ = { r with e := some fresh, sym := sym₂ } := by
  simp only [StateT.run, writeMessage, bind, StateT.bind, writeTokens, writeToken, hrs, hrole,
    mixDh, dhKeys, pure_apply, Option.bind_some, List.append_nil, sealPayload,
    Option.bind_eq_some_iff, Option.some.injEq, exists_exists_and_eq_and, Prod.exists,
    Prod.mk.injEq, true_and, ↓existsAndEq, and_true, exists_const, exists_eq_right,
    List.nil_eq, exists_and_left, List.nil_append, List.append_assoc]
  constructor
  · rintro ⟨c₁, es, sym₁, ss, ⟨hes, hc₁, hss⟩, c₂, sym₂, hc₂, rfl, rfl⟩
    exact ⟨es, hes, ss, hss, c₁, sym₁, hc₁, c₂, sym₂, hc₂, rfl, rfl⟩
  · rintro ⟨es, hes, ss, hss, c₁, sym₁, hc₁, c₂, sym₂, hc₂, rfl, rfl⟩
    exact ⟨c₁, es, sym₁, ss, ⟨hes, hc₁, hss⟩, c₂, sym₂, hc₂, rfl, rfl⟩

/-- The responder reads the first message. -/
theorem readFirst_iff {m out : Bytes} (hrole : r.role = .responder) :
    (readMessage su [.e, .es, .s, .ss] m).run r = some (out, r₁) ↔
      ∃ re es enc sym₁ rs ss sym₂, spanBlock dhLen m 0 = some re ∧
        su.dh r.s.sk re = some es ∧ span (m.drop dhLen) 0 (dhLen + 16) = some enc ∧
        ((r.sym.mixHash su re.toList).mixKey su es.toList).decryptAndHash su enc =
          some (rs.toList, sym₁) ∧
        su.dh r.s.sk rs = some ss ∧
        (sym₁.mixKey su ss.toList).decryptAndHash su (m.drop (dhLen + (dhLen + 16))) =
          some (out, sym₂) ∧
        r₁ = { r with re := some re, rs := some rs, sym := sym₂ } := by
  simp only [StateT.run, readMessage, bind, StateT.bind, readTokens, readToken, hrole, mixDh,
    dhKeys, pure_apply, openPayload, Option.bind_eq_some_iff, Option.some.injEq,
    Prod.exists, Prod.mk.injEq, true_and, ↓existsAndEq, and_true, exists_const,
    exists_exists_and_eq_and, exists_eq_right, overhead_mixKey, Option.bind_some,
    List.drop_drop, exists_and_left]
  constructor
  · rintro ⟨re, es, enc, p, sym₁, rs, ss, ⟨hre, hes, ⟨henc, hp, hrs⟩, hss⟩, sym₂, hout, rfl⟩
    obtain rfl := Block.ofBytes?_eq_some.mp hrs
    exact ⟨re, hre, es, hes, enc, henc, sym₁, rs, hp, ss, hss, sym₂, hout, rfl⟩
  · rintro ⟨re, hre, es, hes, enc, henc, sym₁, rs, hp, ss, hss, sym₂, hout, rfl⟩
    exact ⟨re, es, enc, rs.toList, sym₁, rs, ss,
      ⟨hre, hes, ⟨henc, hp, Block.ofBytes?_toList rs⟩, hss⟩, sym₂, hout, rfl⟩

/-- With working DHs every payload can be written. -/
theorem exists_writeFirst (fresh : KeyPair Priv dhLen) {pinned es ss : Block dhLen}
    (hrole : r.role = .initiator) (hrs : r.rs = some pinned)
    (hes : su.dh fresh.sk pinned = some es) (hss : su.dh r.s.sk pinned = some ss)
    (payload : Bytes) :
    ∃ out r₁, (writeMessage su fresh [.e, .es, .s, .ss] payload).run r = some (out, r₁) := by
  obtain ⟨c₁, sym₁, hc₁, _⟩ := encryptAndHash_mixKey su
    (r.sym.mixHash su fresh.pk.toList) es.toList r.s.pk.toList
  obtain ⟨c₂, sym₂, hc₂, _⟩ := encryptAndHash_mixKey su sym₁ ss.toList payload
  exact ⟨_, _, (writeFirst_iff hrole hrs).mpr
    ⟨es, ss, c₁, sym₁, c₂, sym₂, hes, hss, hc₁, hc₂, rfl, rfl⟩⟩

/-- With working DHs the responder accepts some message with any given keys of an
initiator in it. -/
theorem exists_readFirst (laws : su.AeadLawful) {re rs es ss : Block dhLen}
    (hrole : r.role = .responder) (hes : su.dh r.s.sk re = some es)
    (hss : su.dh r.s.sk rs = some ss) :
    ∃ m r₁, (readMessage su [.e, .es, .s, .ss] m).run r = some ([], r₁) ∧
      r₁.re = some re ∧ r₁.rs = some rs := by
  obtain ⟨c₁, sym₁, hc₁, _⟩ := encryptAndHash_mixKey su
    (r.sym.mixHash su re.toList) es.toList rs.toList
  obtain ⟨c₂, sym₂, hc₂, _⟩ := encryptAndHash_mixKey su sym₁ ss.toList []
  have hlen : c₁.length = dhLen + 16 := by
    rw [SymmetricState.encryptAndHash_length laws hc₁, overhead_mixKey, Block.length_toList]
  have hre : spanBlock dhLen (re.toList ++ (c₁ ++ c₂)) 0 = some re := by
    simp [spanBlock_eq_some, span_eq_some]
  have hspan : span ((re.toList ++ (c₁ ++ c₂)).drop dhLen) 0 (dhLen + 16) = some c₁ := by
    simp [span_eq_some, ← hlen]
  have hdrop : (re.toList ++ (c₁ ++ c₂)).drop (dhLen + (dhLen + 16)) = c₂ := by
    rw [← List.drop_drop]
    simp [← hlen]
  refine ⟨re.toList ++ (c₁ ++ c₂), { r with re := some re, rs := some rs, sym := sym₂ },
    (readFirst_iff hrole).mpr ⟨re, es, c₁, sym₁, rs, ss, sym₂, hre, hes, hspan,
      SymmetricState.decryptAndHash_encryptAndHash laws hc₁, hss, ?_, rfl⟩, rfl, rfl⟩
  rw [hdrop]
  exact SymmetricState.decryptAndHash_encryptAndHash laws hc₂

end First

section Second

/-- The responder writes `e, ee`. -/
theorem writeEphemerals_iff {b : Bytes} :
    (writeTokens su fresh [.e, .ee]).run r = some (b, r₂) ↔
      ∃ re ee, r.re = some re ∧ su.dh fresh.sk re = some ee ∧ b = fresh.pk.toList ∧
        r₂ = { r with
          e := some fresh, sym := (r.sym.mixHash su fresh.pk.toList).mixKey su ee.toList } := by
  simp only [StateT.run, writeTokens, bind, StateT.bind, writeToken, mixDh, dhKeys,
    pure_apply, Option.bind_some, List.append_nil, Option.bind_eq_some_iff,
    Option.some.injEq, exists_exists_and_eq_and, Prod.exists, Prod.mk.injEq, true_and,
    ↓existsAndEq, and_true, exists_const, exists_eq_right, List.nil_eq,
    exists_eq_right_right, exists_and_right, exists_and_left]
  constructor
  · rintro ⟨⟨re, ee, ⟨hre, hee⟩, rfl⟩, rfl⟩
    exact ⟨re, hre, ee, hee, rfl, rfl⟩
  · rintro ⟨re, hre, ee, hee, rfl, rfl⟩
    exact ⟨⟨re, ee, ⟨hre, hee⟩, rfl⟩, rfl⟩

/-- The initiator reads `e, ee`. -/
theorem readEphemerals_iff {m rest : Bytes} :
    (readTokens su m [.e, .ee]).run r = some (rest, r₂) ↔
      ∃ e re ee, r.e = some e ∧ spanBlock dhLen m 0 = some re ∧
        su.dh e.sk re = some ee ∧ rest = m.drop dhLen ∧
        r₂ = { r with
          re := some re, sym := (r.sym.mixHash su re.toList).mixKey su ee.toList } := by
  simp only [StateT.run, readTokens, bind, StateT.bind, readToken, mixDh, dhKeys, pure_apply,
    Option.bind_eq_some_iff, Option.some.injEq,
    exists_exists_and_exists_and_eq_and, Prod.exists, Prod.mk.injEq, true_and,
    ↓existsAndEq, and_true, exists_const, exists_eq_right_right, exists_eq_right,
    exists_exists_and_eq_and, exists_and_left]
  constructor
  · rintro ⟨re, hre, e, ee, ⟨he, hee⟩, rfl, rfl⟩
    exact ⟨e, he, re, hre, ee, hee, rfl, rfl⟩
  · rintro ⟨e, he, re, hre, ee, hee, rfl, rfl⟩
    exact ⟨re, hre, e, ee, ⟨he, hee⟩, rfl, rfl⟩

end Second

end HandshakeState

end SecurityNoise.Framework
