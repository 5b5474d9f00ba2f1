import SecurityNoise.Conformance
import SecurityNoise.Framework.IkMessages

/-!
# Where IK conforms

The second IK message ends with the DH of `es` where the pattern has `se`. From any
static and ephemeral keys, a party conforms to the pattern exactly when, for every
remote key its peer can present, the two DHs mix to the same keys.
-/

namespace SecurityNoise

open Framework (Role Token)
open Framework.HandshakeState (writeMessage readMessage writeTokens readTokens Alike)

variable {X : External}

section Condition

/-- `mix_key` of a secret under a chaining key. -/
def mixed (X : External) (ck : Digest) (z : Block DH_OUTPUT_BYTES) : SymmetricState :=
  ({ ck := ck } : SymmetricState).mixKey X z.toList

/-- The chaining key of IK before any DH. -/
def ikChainingKey (X : External) : Digest :=
  (SymmetricState.initializeProtocol X (protocolName .ik)).ck

/-- After the secrets `es`, `ss` and `ee`, `mix_key` cannot tell the secret of `se`, if
there is one, from that of `es`. -/
def EndsAlike (X : External) (es ss ee : Block DH_OUTPUT_BYTES)
    (se : Option (Block DH_OUTPUT_BYTES)) : Prop :=
  ∃ z, se = some z ∧
    mixed X (mixed X (mixed X (mixed X (ikChainingKey X) es).ck ss).ck ee).ck es =
      mixed X (mixed X (mixed X (mixed X (ikChainingKey X) es).ck ss).ck ee).ck z

/-- With these keys the second IK message may end with `es` in place of `se`, if the
handshake gets there. -/
def SeLikeEs (X : External) (role : Role) (sSk eSk : PrivateKey) (rs re : PublicKey) : Prop :=
  ∀ es ss ee, sharedSecret X role sSk eSk rs re .es = some es →
    sharedSecret X role sSk eSk rs re .ss = some ss →
    sharedSecret X role sSk eSk rs re .ee = some ee →
    EndsAlike X es ss ee (sharedSecret X role sSk eSk rs re .se)

/-- The condition on a party's keys: for every key the peer is free to choose. -/
def SeLikeEsForAll (X : External) (s : Keypair) (pinned : PublicKey)
    (drawn : Nat → PrivateKey) : Role → Prop
  | .initiator => ∀ re, SeLikeEs X .initiator s.sk (drawn 0) pinned re
  | .responder => ∀ rs re, SeLikeEs X .responder s.sk (drawn 1) rs re

/-- The static key a role is given: an initiator's pinned key. -/
def pinnedFor (pinned : PublicKey) : Role → Option PublicKey
  | .initiator => some pinned
  | .responder => none

theorem mixed_ck (ck : Digest) (z : Block DH_OUTPUT_BYTES) :
    (mixed X ck z).ck = X.suite.hkdf ck.toList z.toList 0 :=
  hkdf2_output1 rfl _ _

theorem mixed_eq_iff (ck : Digest) (z z' : Block DH_OUTPUT_BYTES) :
    mixed X ck z = mixed X ck z' ↔
      Framework.HandshakeState.MixAlike X.suite ck z z' := by
  have hsu : X.suite.hash = X.genericHash := rfl
  simp only [mixed, SymmetricState.mixKey, CipherState.initializeKey,
    Framework.HandshakeState.MixAlike, ← hkdf2_output1 hsu, ← hkdf2_output2 hsu,
    Framework.Suite.cipherKey, SymmetricState.mk.injEq, CipherState.mk.injEq, true_and, and_true]

end Condition

section Second

variable {role : Role} {drawn : Nat → PrivateKey} {hs : HandshakeState} {r : Reference}
variable {code : Except Fatal (Option Bytes × Traced)}

/-- The last message is compared through the reference runs alone. -/
theorem SameOutcome.alike {a b : Option (Bytes × Reference)}
    (ha : SameOutcome code a (Follows .ik role 2))
    (hb : SameOutcome code b fun hs r => SameState hs r ∧ Conforms X role drawn 2 [] hs r) :
    Alike a b := by
  cases a with
  | none =>
      obtain ⟨t, ha⟩ := ha
      cases b with
      | none => trivial
      | some o' =>
          obtain ⟨t', hb, _⟩ := hb
          rw [ha] at hb
          cases hb
  | some o =>
      obtain ⟨t, ha, hfollows⟩ := ha
      cases b with
      | none =>
          obtain ⟨t', hb⟩ := hb
          rw [ha] at hb
          cases hb
      | some o' =>
          obtain ⟨t', hb, hsame', _⟩ := hb
          rw [ha] at hb
          obtain ⟨hout, rfl⟩ := Prod.mk.inj (Except.ok.inj hb)
          have hsame := hfollows.sameState
          refine ⟨Option.some.inj hout, ?_⟩
          rw [Framework.SymmetricState.mk.injEq, Framework.CipherState.mk.injEq]
          exact ⟨hsame.ck.symm.trans hsame'.ck, hsame.h.symm.trans hsame'.h,
            hsame.key.symm.trans hsame'.key, hsame.nonce.symm.trans hsame'.nonce⟩

theorem SameOutcome.last {a : Option (Bytes × Reference)}
    (ha : SameOutcome code a (Follows .ik role 2)) (drawn : Nat → PrivateKey) :
    SameOutcome code a fun hs r => SameState hs r ∧ Conforms X role drawn 2 [] hs r :=
  ha.mono fun _ _ hf => ⟨hf.sameState, hf.conforms (n := 0) rfl drawn⟩

/-- A responder's second message conforms exactly when its last DH can be exchanged. -/
theorem second_responder (h : Follows .ik .responder 1 hs r) :
    Conforms X .responder drawn 1 [[.e, .ee, .se]] hs r ↔
      ∀ b r₂, (writeTokens X.suite (freshKeyPair X (drawn 1)) [.e, .ee]).run r = some (b, r₂) →
        (Framework.HandshakeState.mixDh X.suite .es).run r₂ =
          (Framework.HandshakeState.mixDh X.suite .se).run r₂ := by
  have hcode := fun payload => h.write (X := X) (by decide) rfl (drawn 1) payload
  rw [Conforms, if_pos (by rfl), ← Framework.HandshakeState.alike_write_iff rfl rfl]
  constructor
  · intro hconf payload
    exact (hcode payload).alike (hconf payload)
  · intro halike payload
    have hlast := (Framework.HandshakeState.alike_write_iff rfl rfl [.e, .ee]).mp halike
    have heq := Framework.HandshakeState.writeMessage_congr_last .es .se rfl rfl [.e, .ee]
      hlast payload
    exact heq ▸ (hcode payload).last drawn

/-- An initiator's second message conforms exactly when its last DH can be exchanged. -/
theorem second_initiator (haead : X.AeadRoundTrip) (h : Follows .ik .initiator 1 hs r) :
    Conforms X .initiator drawn 1 [[.e, .ee, .se]] hs r ↔
      ∀ m rest r₂, (readTokens X.suite m [.e, .ee]).run r = some (rest, r₂) →
        (Framework.HandshakeState.mixDh X.suite .es).run r₂ =
          (Framework.HandshakeState.mixDh X.suite .se).run r₂ := by
  have hcode := fun m => h.read (X := X) (by decide) rfl m
  have laws := External.suite_aeadLawful haead
  rw [Conforms, if_neg (by decide), ← Framework.HandshakeState.alike_read_iff laws rfl rfl]
  constructor
  · intro hconf m
    exact (hcode m).alike (hconf m)
  · intro halike m
    have hlast := (Framework.HandshakeState.alike_read_iff laws rfl rfl [.e, .ee]).mp halike
    have heq := Framework.HandshakeState.readMessage_congr_last .es .se rfl rfl [.e, .ee]
      hlast m
    exact heq ▸ (hcode m).last drawn

end Second

section Exactness

variable {drawn : Nat → PrivateKey} {s : Keypair} {pinned : PublicKey}

/-- A message on which the interpreter runs the same tokens: what is compared after it
decides. -/
theorem SameOutcome.and_iff {code : Except Fatal (Option Bytes × Traced)}
    {a : Option (Bytes × Reference)} {next next' : HandshakeState → Reference → Prop}
    (ha : SameOutcome code a next) :
    SameOutcome code a next' ↔
      ∀ t out r, code = .ok (some out, t) → a = some (out, r) → next t.hs r → next' t.hs r := by
  cases a with
  | none =>
      constructor
      · intro _ t out r _ hr
        cases hr
      · intro _
        exact ha
  | some o =>
      obtain ⟨t, hcode, hnext⟩ := ha
      constructor
      · rintro ⟨t', hcode', hnext'⟩ t'' out r hcode'' hr _
        rw [hcode'] at hcode''
        obtain ⟨_, rfl⟩ := Prod.mk.inj (Except.ok.inj hcode'')
        obtain rfl : o = (out, r) := Option.some.inj hr
        exact hnext'
      · intro h
        exact ⟨t, hcode, h t o.1 o.2 hcode rfl hnext⟩

/-- A party of IK, its reference, and what is left to compare. -/
theorem ik_party (X : External) (role : Role) (s : Keypair) (pinned : PublicKey)
    (drawn : Nat → PrivateKey) :
    ∃ hs r, Follows .ik role 0 hs r ∧ r.s = ⟨s.sk, s.pk⟩ ∧ r.rs = pinnedFor pinned role ∧
      r.sym.ck = ikChainingKey X ∧
      (PatternConforms X .ik role s (pinnedFor pinned role) drawn ↔
        Conforms X role drawn 0 Framework.Pattern.ik.messages hs r) := by
  obtain ⟨r, hr, hfollows⟩ := make_follows (X := X) .ik role s (pinnedFor pinned role)
    (by cases role <;> rfl)
  obtain ⟨r', hr', hkeys, hrs, hck⟩ : ∃ r, referenceStart X .ik role s (pinnedFor pinned role) =
      some r ∧ r.s = ⟨s.sk, s.pk⟩ ∧ r.rs = pinnedFor pinned role ∧
      r.sym.ck = ikChainingKey X := by
    cases role <;> exact ⟨_, rfl, rfl, rfl, rfl⟩
  obtain rfl := Option.some.inj (hr.symm.trans hr')
  refine ⟨_, r, hfollows, hkeys, hrs, hck, ?_⟩
  constructor
  · rintro ⟨r'', hr'', _, hconf⟩
    obtain rfl := Option.some.inj (hr.symm.trans hr'')
    exact hconf
  · intro hconf
    exact ⟨r, hr, hfollows.sameState, hconf⟩

/-- Two mixed secrets with an encryption after each. -/
theorem ck_after_encryptions {sym sym₁ sym₂ : Framework.SymmetricState HASHLEN}
    {es ss : Block DH_OUTPUT_BYTES} {p₁ p₂ c₁ c₂ : Bytes}
    (h₁ : (sym.mixKey X.suite es.toList).encryptAndHash X.suite p₁ = some (c₁, sym₁))
    (h₂ : (sym₁.mixKey X.suite ss.toList).encryptAndHash X.suite p₂ = some (c₂, sym₂)) :
    sym₂.ck = (mixed X (mixed X sym.ck es).ck ss).ck := by
  have hck₁ : sym₁.ck = (mixed X sym.ck es).ck :=
    (Framework.HandshakeState.encryptAndHash_ck h₁).trans (mixed_ck sym.ck es).symm
  rw [Framework.HandshakeState.encryptAndHash_ck h₂, ← hck₁, mixed_ck]
  rfl

/-- Two mixed secrets with a decryption after each. -/
theorem ck_after_decryptions {sym sym₁ sym₂ : Framework.SymmetricState HASHLEN}
    {es ss : Block DH_OUTPUT_BYTES} {p₁ p₂ c₁ c₂ : Bytes}
    (h₁ : (sym.mixKey X.suite es.toList).decryptAndHash X.suite c₁ = some (p₁, sym₁))
    (h₂ : (sym₁.mixKey X.suite ss.toList).decryptAndHash X.suite c₂ = some (p₂, sym₂)) :
    sym₂.ck = (mixed X (mixed X sym.ck es).ck ss).ck := by
  have hck₁ : sym₁.ck = (mixed X sym.ck es).ck :=
    (Framework.HandshakeState.decryptAndHash_ck h₁).trans (mixed_ck sym.ck es).symm
  rw [Framework.HandshakeState.decryptAndHash_ck h₂, ← hck₁, mixed_ck]
  rfl

/-- After the first message: the secrets `es` and `ss` are in the chaining key. -/
structure FirstDone (X : External) (role : Role) (s : Keypair) (es ss : Block DH_OUTPUT_BYTES)
    (r₁ : Reference) : Prop where
  role : r₁.role = role
  s : r₁.s = ⟨s.sk, s.pk⟩
  ck : r₁.sym.ck = (mixed X (mixed X (ikChainingKey X) es).ck ss).ck

theorem last_dh_iff (keys keys' : PrivateKey × PublicKey) {r₂ : Reference}
    {es ss ee : Block DH_OUTPUT_BYTES}
    (hkeys : r₂.dhKeys .es = some keys) (hkeys' : r₂.dhKeys .se = some keys')
    (hes : X.scalarmult keys.1 keys.2 = some es)
    (hck : r₂.sym.ck = (mixed X (mixed X (mixed X (ikChainingKey X) es).ck ss).ck ee).ck) :
    (Framework.HandshakeState.mixDh X.suite .es).run r₂ =
        (Framework.HandshakeState.mixDh X.suite .se).run r₂ ↔
      EndsAlike X es ss ee (X.scalarmult keys'.1 keys'.2) := by
  rw [Framework.HandshakeState.mixDh_eq_iff hkeys hkeys' hes, EndsAlike, ← hck]
  simp only [mixed_eq_iff]
  rfl

theorem spanBlock_self {n : Nat} (b : Block n) : spanBlock n b.toList 0 = some b := by
  have hlen : b.toList.length = n := b.length_toList
  rw [spanBlock_eq_some, span_eq_some, List.drop_zero]
  exact ⟨by omega, List.take_of_length_le (by omega)⟩

/-- What remains of an initiator's conformance after the first message. -/
theorem initiator_last_iff {e : Framework.KeyPair PrivateKey DH_PUBLIC_KEY_BYTES}
    {es ss : Block DH_OUTPUT_BYTES} {r₁ : Reference}
    (h : FirstDone X .initiator s es ss r₁) (he : r₁.e = some e) (hrs : r₁.rs = some pinned)
    (hes : X.scalarmult e.sk pinned = some es) :
    (∀ m rest r₂, (readTokens X.suite m [.e, .ee]).run r₁ = some (rest, r₂) →
        (Framework.HandshakeState.mixDh X.suite .es).run r₂ =
          (Framework.HandshakeState.mixDh X.suite .se).run r₂) ↔
      ∀ re ee, X.scalarmult e.sk re = some ee →
        EndsAlike X es ss ee (X.scalarmult s.sk re) := by
  have hlast : ∀ (re : PublicKey) (ee : Block DH_OUTPUT_BYTES),
      (Framework.HandshakeState.mixDh X.suite .es).run { r₁ with
            re := some re
            sym := (r₁.sym.mixHash X.suite re.toList).mixKey X.suite ee.toList } =
          (Framework.HandshakeState.mixDh X.suite .se).run { r₁ with
            re := some re
            sym := (r₁.sym.mixHash X.suite re.toList).mixKey X.suite ee.toList } ↔
        EndsAlike X es ss ee (X.scalarmult s.sk re) := by
    intro re ee
    apply last_dh_iff (e.sk, pinned) (s.sk, re)
    · simp [Framework.HandshakeState.dhKeys, h.role, he, hrs]
    · simp [Framework.HandshakeState.dhKeys, h.role, h.s]
    · exact hes
    · rw [mixed_ck, ← h.ck]
      rfl
  constructor
  · intro hall re ee hee
    have hee' : X.suite.dh e.sk re = some ee := hee
    have hread := Framework.HandshakeState.readEphemerals_iff.mpr
      ⟨e, re, ee, he, spanBlock_self re, hee', rfl, rfl⟩
    exact (hlast re ee).mp (hall re.toList _ _ hread)
  · intro hall m rest r₂ hread
    obtain ⟨e', re, ee, he', _, hee, _, rfl⟩ :=
      Framework.HandshakeState.readEphemerals_iff.mp hread
    obtain rfl := Option.some.inj (he.symm.trans he')
    exact (hlast re ee).mpr (hall re ee hee)

/-- What remains of a responder's conformance after the first message. -/
theorem responder_last_iff {fresh : Framework.KeyPair PrivateKey DH_PUBLIC_KEY_BYTES}
    {es ss : Block DH_OUTPUT_BYTES} {re rs : PublicKey} {r₁ : Reference}
    (h : FirstDone X .responder s es ss r₁) (hre : r₁.re = some re) (hrs : r₁.rs = some rs)
    (hes : X.scalarmult s.sk re = some es) :
    (∀ b r₂, (writeTokens X.suite fresh [.e, .ee]).run r₁ = some (b, r₂) →
        (Framework.HandshakeState.mixDh X.suite .es).run r₂ =
          (Framework.HandshakeState.mixDh X.suite .se).run r₂) ↔
      ∀ ee, X.scalarmult fresh.sk re = some ee →
        EndsAlike X es ss ee (X.scalarmult fresh.sk rs) := by
  have hlast : ∀ ee : Block DH_OUTPUT_BYTES,
      (Framework.HandshakeState.mixDh X.suite .es).run { r₁ with
            e := some fresh
            sym := (r₁.sym.mixHash X.suite fresh.pk.toList).mixKey X.suite ee.toList } =
          (Framework.HandshakeState.mixDh X.suite .se).run { r₁ with
            e := some fresh
            sym := (r₁.sym.mixHash X.suite fresh.pk.toList).mixKey X.suite ee.toList } ↔
        EndsAlike X es ss ee (X.scalarmult fresh.sk rs) := by
    intro ee
    apply last_dh_iff (s.sk, re) (fresh.sk, rs)
    · simp [Framework.HandshakeState.dhKeys, h.role, h.s, hre]
    · simp [Framework.HandshakeState.dhKeys, h.role, hrs]
    · exact hes
    · rw [mixed_ck, ← h.ck]
      rfl
  constructor
  · intro hall ee hee
    have hee' : X.suite.dh fresh.sk re = some ee := hee
    have hwrite := Framework.HandshakeState.writeEphemerals_iff.mpr
      ⟨re, ee, hre, hee', rfl, rfl⟩
    exact (hlast ee).mp (hall fresh.pk.toList _ hwrite)
  · intro hall b r₂ hwrite
    obtain ⟨re', ee, hre', hee, _, rfl⟩ :=
      Framework.HandshakeState.writeEphemerals_iff.mp hwrite
    obtain rfl := Option.some.inj (hre.symm.trans hre')
    exact (hlast ee).mpr (hall ee hee)

/-- Where an initiator stands once it has written the first message. -/
theorem firstDone_of_write {r r₁ : Reference} (hrole : r.role = .initiator)
    (hkeys : r.s = ⟨s.sk, s.pk⟩) (hrs : r.rs = some pinned) (hck : r.sym.ck = ikChainingKey X)
    {fresh : Framework.KeyPair PrivateKey DH_PUBLIC_KEY_BYTES} {payload out : Bytes}
    (hwrite : (writeMessage X.suite fresh (armTokens .ik 0) payload).run r = some (out, r₁)) :
    ∃ es ss, X.scalarmult fresh.sk pinned = some es ∧ X.scalarmult s.sk pinned = some ss ∧
      FirstDone X .initiator s es ss r₁ ∧ r₁.e = some fresh ∧ r₁.rs = some pinned := by
  obtain ⟨es, ss, c₁, sym₁, c₂, sym₂, hes, hss, hc₁, hc₂, _, rfl⟩ :=
    (Framework.HandshakeState.writeFirst_iff hrole hrs).mp hwrite
  rw [hkeys] at hss
  have hck₂ := ck_after_encryptions hc₁ hc₂
  exact ⟨es, ss, hes, hss, ⟨hrole, hkeys, hck ▸ hck₂⟩, rfl, hrs⟩

/-- Where a responder stands once it has read the first message. -/
theorem firstDone_of_read {r r₁ : Reference} (hrole : r.role = .responder)
    (hkeys : r.s = ⟨s.sk, s.pk⟩) (hck : r.sym.ck = ikChainingKey X) {m out : Bytes}
    (hread : (readMessage X.suite (armTokens .ik 0) m).run r = some (out, r₁)) :
    ∃ re rs es ss, X.scalarmult s.sk re = some es ∧ X.scalarmult s.sk rs = some ss ∧
      FirstDone X .responder s es ss r₁ ∧ r₁.re = some re ∧ r₁.rs = some rs := by
  obtain ⟨re, es, enc, sym₁, rs, ss, sym₂, _, hes, _, hc₁, hss, hc₂, rfl⟩ :=
    (Framework.HandshakeState.readFirst_iff hrole).mp hread
  rw [hkeys] at hes hss
  have hck₂ := ck_after_decryptions hc₁ hc₂
  exact ⟨re, rs, es, ss, hes, hss, ⟨hrole, hkeys, hck ▸ hck₂⟩, rfl, rfl⟩

/-- An initiator conforms to IK exactly when `se` can stand for `es`. -/
theorem initiator_conforms_iff (haead : X.AeadRoundTrip) {hs : HandshakeState} {r : Reference}
    (h : Follows .ik .initiator 0 hs r) (hkeys : r.s = ⟨s.sk, s.pk⟩)
    (hrs : r.rs = some pinned) (hck : r.sym.ck = ikChainingKey X) :
    Conforms X .initiator drawn 0 Framework.Pattern.ik.messages hs r ↔
      ∀ re, SeLikeEs X .initiator s.sk (drawn 0) pinned re := by
  have hrole : r.role = .initiator := h.reveals.role
  have hcode := fun payload => h.write (X := X) (by decide) rfl (drawn 0) payload
  -- A first message that is written leads to the same state on both sides.
  have hfirst : Conforms X .initiator drawn 0 Framework.Pattern.ik.messages hs r ↔
      ∀ payload t out r₁, hs.writeMessage X (drawn 0) payload = .ok (some out, t) →
        (writeMessage X.suite (freshKeyPair X (drawn 0)) (armTokens .ik 0) payload).run r =
          some (out, r₁) →
        Follows .ik .initiator 1 t.hs r₁ → SameState t.hs r₁ ∧
          Conforms X .initiator drawn 1 [[.e, .ee, .se]] t.hs r₁ := by
    rw [Framework.Pattern.ik, Conforms, if_pos (by rfl)]
    exact forall_congr' fun payload => (hcode payload).and_iff
  rw [hfirst]
  constructor
  · intro hconf re es ss ee hes hss hee
    have hss' : X.suite.dh r.s.sk pinned = some ss := hkeys ▸ hss
    obtain ⟨out, r₁, hwrite⟩ := Framework.HandshakeState.exists_writeFirst
      (freshKeyPair X (drawn 0)) hrole hrs hes hss' []
    have hout := hcode []
    have hwrite' : (writeMessage X.suite (freshKeyPair X (drawn 0)) (armTokens .ik 0) []).run r =
      some (out, r₁) := hwrite
    rw [hwrite'] at hout
    obtain ⟨t, hrun, hf⟩ := hout
    obtain ⟨es', ss', hes', hss'', hfd, he, hrs'⟩ := firstDone_of_write hrole hkeys hrs hck hwrite'
    obtain rfl := Option.some.inj (hes.symm.trans hes')
    obtain rfl := Option.some.inj (hss.symm.trans hss'')
    have hsecond := (second_initiator haead hf).mp (hconf [] t out r₁ hrun hwrite' hf).2
    exact (initiator_last_iff hfd he hrs' hes).mp hsecond re ee hee
  · intro hall payload t out r₁ hrun hwrite hf
    obtain ⟨es, ss, hes, hss, hfd, he, hrs'⟩ :=
      firstDone_of_write hrole hkeys hrs hck hwrite
    refine ⟨hf.sameState, (second_initiator haead hf).mpr ?_⟩
    rw [initiator_last_iff hfd he hrs' hes]
    intro re ee hee
    exact hall re es ss ee hes hss hee

/-- A responder conforms to IK exactly when `se` can stand for `es`. -/
theorem responder_conforms_iff (haead : X.AeadRoundTrip) {hs : HandshakeState} {r : Reference}
    (h : Follows .ik .responder 0 hs r) (hkeys : r.s = ⟨s.sk, s.pk⟩)
    (hck : r.sym.ck = ikChainingKey X) :
    Conforms X .responder drawn 0 Framework.Pattern.ik.messages hs r ↔
      ∀ rs re, SeLikeEs X .responder s.sk (drawn 1) rs re := by
  have hrole : r.role = .responder := h.reveals.role
  have hcode := fun m => h.read (X := X) (by decide) rfl m
  have hfirst : Conforms X .responder drawn 0 Framework.Pattern.ik.messages hs r ↔
      ∀ m t out r₁, hs.readMessage X m = .ok (some out, t) →
        (readMessage X.suite (armTokens .ik 0) m).run r = some (out, r₁) →
        Follows .ik .responder 1 t.hs r₁ → SameState t.hs r₁ ∧
          Conforms X .responder drawn 1 [[.e, .ee, .se]] t.hs r₁ := by
    rw [Framework.Pattern.ik, Conforms, if_neg (by decide)]
    exact forall_congr' fun m => (hcode m).and_iff
  rw [hfirst]
  constructor
  · intro hconf rs re es ss ee hes hss hee
    have hes' : X.suite.dh r.s.sk re = some es := hkeys ▸ hes
    have hss' : X.suite.dh r.s.sk rs = some ss := hkeys ▸ hss
    obtain ⟨m, r₁, hread, hre, hrs⟩ := Framework.HandshakeState.exists_readFirst
      (External.suite_aeadLawful haead) hrole hes' hss'
    have hout := hcode m
    have hread' : (readMessage X.suite (armTokens .ik 0) m).run r = some ([], r₁) := hread
    rw [hread'] at hout
    obtain ⟨t, hrun, hf⟩ := hout
    obtain ⟨re', rs', es', ss', hes'', hss'', hfd, hre', hrs'⟩ :=
      firstDone_of_read hrole hkeys hck hread'
    obtain rfl := Option.some.inj (hre.symm.trans hre')
    obtain rfl := Option.some.inj (hrs.symm.trans hrs')
    obtain rfl := Option.some.inj (hes.symm.trans hes'')
    obtain rfl := Option.some.inj (hss.symm.trans hss'')
    have hsecond := second_responder hf |>.mp (hconf m t [] r₁ hrun hread' hf).2
    exact (responder_last_iff hfd hre hrs hes).mp hsecond ee hee
  · intro hall m t out r₁ hrun hread hf
    obtain ⟨re, rs, es, ss, hes, hss, hfd, hre, hrs⟩ :=
      firstDone_of_read hrole hkeys hck hread
    refine ⟨hf.sameState, (second_responder hf).mpr ?_⟩
    rw [responder_last_iff hfd hre hrs hes]
    intro ee hee
    exact hall rs re es ss ee hes hss hee

/-- A party of IK conforms to the framework exactly when, whatever keys its peer
presents, the secret of `es` can stand for that of `se`. -/
theorem ik_conforms_iff (haead : X.AeadRoundTrip) (role : Role) (s : Keypair)
    (pinned : PublicKey) (drawn : Nat → PrivateKey) :
    PatternConforms X .ik role s (pinnedFor pinned role) drawn ↔
      SeLikeEsForAll X s pinned drawn role := by
  obtain ⟨hs, r, hfollows, hkeys, hrs, hck, hparty⟩ := ik_party X role s pinned drawn
  rw [hparty]
  cases role with
  | initiator => exact initiator_conforms_iff haead hfollows hkeys hrs hck
  | responder => exact responder_conforms_iff haead hfollows hkeys hck

end Exactness

section Concrete

open Miniature (secretKey)

theorem ik_conforms_iff_small :
    PatternConforms Miniature.external .ik .responder (Miniature.keypair 1)
        (pinnedFor (Miniature.keypair 2).pk .responder) (fun _ => secretKey 3) ↔
      SeLikeEsForAll Miniature.external (Miniature.keypair 1) (Miniature.keypair 2).pk
        (fun _ => secretKey 3) .responder :=
  ik_conforms_iff Miniature.external_aeadRoundTrip _ _ _ _

/-- An initiator with honest keys does not conform: against a peer with an ordinary
ephemeral key the second message ends in another secret. -/
theorem ik_initiator_differs :
    ¬ PatternConforms Miniature.external .ik .initiator (Miniature.keypair 1)
      (some (Miniature.keypair 2).pk) (fun _ => secretKey 3) := by
  obtain ⟨hs, r, hfollows, hkeys, hrs, hck, hparty⟩ := ik_party Miniature.external .initiator
    (Miniature.keypair 1) (Miniature.keypair 2).pk (fun _ => secretKey 3)
  intro hconf
  have hall := (initiator_conforms_iff Miniature.external_aeadRoundTrip hfollows hkeys hrs
    hck).mp (hparty.mp hconf) (Miniature.keypair 4).pk
  obtain ⟨se, hse, heq⟩ := hall (Miniature.block 32 32770) (Miniature.block 32 25841)
    (Miniature.block 32 19983) (by decide +kernel) (by decide +kernel) (by decide +kernel)
  have hse' : sharedSecret Miniature.external .initiator (Miniature.keypair 1).sk (secretKey 3)
      (Miniature.keypair 2).pk (Miniature.keypair 4).pk .se = some (Miniature.block 32 4421) := by
    decide +kernel
  obtain rfl := Option.some.inj (hse'.symm.trans hse)
  exact absurd heq (by decide +kernel)

end Concrete

end SecurityNoise
