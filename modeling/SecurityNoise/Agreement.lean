import SecurityNoise.Conformance

/-!
# Handshake agreement

An initiator and a responder exchange the messages of a pattern, each delivered
unchanged. The interpreter's agreement theorem pairs their references message by
message; the refinement carries it to the code. Writing is shown to succeed from the
keys in place and the DHs they need.
-/

namespace SecurityNoise

open Framework (Role Token)
open Framework.HandshakeState (writeMessage readMessage writeTokens writeToken)

variable {X : External}

section Progress

/-- All keys of a party: its own pairs and the peer's public halves. -/
structure Keyset where
  s : Framework.KeyPair PrivateKey DH_PUBLIC_KEY_BYTES
  e : Framework.KeyPair PrivateKey DH_PUBLIC_KEY_BYTES
  rs : PublicKey
  re : PublicKey

/-- The shared secret of a token under a keyset. -/
def Keyset.secret (X : External) (ks : Keyset) (role : Role) (t : Token) :
    Option (Block DH_OUTPUT_BYTES) :=
  sharedSecret X role ks.s.sk ks.e.sk ks.rs ks.re t

/-- The keys in place are those of the keyset. -/
structure Holds (ks : Keyset) (k : Knows) (b : Nat) (role : Role) (r : Reference) : Prop where
  role : r.role = role
  s : r.s = ks.s
  e : r.e = if k.e then some ks.e else none
  re : r.re = if k.re then some ks.re else none
  rs : r.rs = if k.rs then some ks.rs else none
  nonce : r.sym.cipher.n.toNat ≤ b

variable {ks : Keyset} {k : Knows} {b : Nat} {role : Role} {r : Reference}
variable {fresh : Framework.KeyPair PrivateKey DH_PUBLIC_KEY_BYTES}

namespace Holds

/-- A DH whose keys are in place computes its shared secret. -/
theorem dhKeys (h : Holds ks k b role r) {tok : Token} (hdh : tok.isDh = true)
    (hk : k.allows role tok = true) :
    ∃ keys, r.dhKeys tok = some keys ∧
      X.scalarmult keys.1 keys.2 = ks.secret X role tok := by
  cases tok with
  | e => cases hdh
  | s => cases hdh
  | ee =>
      simp only [Knows.allows, dhOperands, Knows.own, Knows.peer, Bool.and_eq_true] at hk
      refine ⟨(ks.e.sk, ks.re), ?_, rfl⟩
      simp [Framework.HandshakeState.dhKeys, h.e, h.re, hk]
  | es =>
      cases role with
      | initiator =>
          simp only [Knows.allows, dhOperands, Knows.own, Knows.peer, Bool.and_eq_true] at hk
          refine ⟨(ks.e.sk, ks.rs), ?_, rfl⟩
          simp [Framework.HandshakeState.dhKeys, h.role, h.e, h.rs, hk]
      | responder =>
          simp only [Knows.allows, dhOperands, Knows.own, Knows.peer, Bool.and_eq_true] at hk
          refine ⟨(ks.s.sk, ks.re), ?_, rfl⟩
          simp [Framework.HandshakeState.dhKeys, h.role, h.s, h.re, hk]
  | se =>
      cases role with
      | initiator =>
          simp only [Knows.allows, dhOperands, Knows.own, Knows.peer, Bool.and_eq_true] at hk
          refine ⟨(ks.s.sk, ks.re), ?_, rfl⟩
          simp [Framework.HandshakeState.dhKeys, h.role, h.s, h.re, hk]
      | responder =>
          simp only [Knows.allows, dhOperands, Knows.own, Knows.peer, Bool.and_eq_true] at hk
          refine ⟨(ks.e.sk, ks.rs), ?_, rfl⟩
          simp [Framework.HandshakeState.dhKeys, h.role, h.e, h.rs, hk]
  | ss =>
      simp only [Knows.allows, dhOperands, Knows.own, Knows.peer, Bool.and_eq_true] at hk
      refine ⟨(ks.s.sk, ks.rs), ?_, rfl⟩
      simp [Framework.HandshakeState.dhKeys, h.s, h.rs, hk]

/-- A new symmetric state whose counter has moved by at most one. -/
theorem withSym (h : Holds ks k b role r) {sym : Framework.SymmetricState HASHLEN}
    (hn : sym.cipher.n.toNat ≤ b + 1) : Holds ks k (b + 1) role { r with sym := sym } where
  role := h.role
  s := h.s
  e := h.e
  re := h.re
  rs := h.rs
  nonce := hn

theorem nonce_ne (h : Holds ks k b role r) (hb : b < 2 ^ 64 - 1) :
    r.sym.cipher.n ≠ 0xFFFFFFFFFFFFFFFF := by
  intro he
  have hle := h.nonce
  rw [he] at hle
  exact absurd (Nat.le_trans (by decide : 2 ^ 64 - 1 ≤ (0xFFFFFFFFFFFFFFFF : UInt64).toNat) hle)
    (by omega)

/-- Below the reserved nonce encryption succeeds. -/
theorem encrypts (h : Holds ks k b role r) (hb : b < 2 ^ 64 - 1) (p : Bytes) :
    ∃ c sym, r.sym.encryptAndHash X.suite p = some (c, sym) ∧
      Holds ks k (b + 1) role { r with sym := sym } := by
  obtain ⟨c, sym, henc, hle⟩ :=
    Framework.SymmetricState.encryptAndHash_total X.suite (h.nonce_ne hb) p
  exact ⟨c, sym, henc, h.withSym (Nat.le_trans hle (Nat.succ_le_succ h.nonce))⟩

end Holds

/-- A token whose keys are in place and whose DH succeeds can be written. -/
theorem writeToken_progress {tok : Token} (h : Holds ks k b role r)
    (hk : k.allows role tok = true) (hb : b < 2 ^ 64 - 1) (he : tok = .e → fresh = ks.e)
    (hdh : tok.isDh = true → (ks.secret X role tok).isSome = true) :
    ∃ out r', (writeToken X.suite fresh tok).run r = some (out, r') ∧
      Holds ks (k.after .written tok) (b + 1) role r' := by
  obtain rfl | rfl | htok := tok.kinds
  · refine ⟨_, _, rfl, ?_⟩
    exact ⟨h.role, h.s, congrArg some (he rfl), h.re, h.rs, Nat.le_succ_of_le h.nonce⟩
  · obtain ⟨c, sym, henc, hnext⟩ := h.encrypts (X := X) hb r.s.pk.toList
    refine ⟨c, _, ?_, hnext⟩
    change Option.bind _ _ = _
    rw [henc]
    rfl
  · obtain ⟨keys, hkeys, hsecret⟩ := h.dhKeys (X := X) htok hk
    obtain ⟨z, hz⟩ := Option.isSome_iff_exists.mp (hdh htok)
    have hmul : X.suite.dh keys.1 keys.2 = some z := hsecret.trans hz
    refine ⟨[], { r with sym := r.sym.mixKey X.suite z.toList }, ?_, ?_⟩
    · rw [Framework.HandshakeState.writeToken_dh htok, StateT.run_bind,
        Framework.HandshakeState.mixDh_of_keys hkeys, hmul]
      rfl
    · rw [Knows.after_dh k .written htok]
      exact ⟨h.role, h.s, h.e, h.re, h.rs, Nat.zero_le _⟩

theorem writeTokens_progress (ts : List Token) (h : Holds ks k b role r)
    (hk : Knows.allowsAll role .written k ts = true) (hb : b + ts.length < 2 ^ 64)
    (he : .e ∈ ts → fresh = ks.e)
    (hdh : ∀ t ∈ ts, t.isDh = true → (ks.secret X role t).isSome = true) :
    ∃ out r', (writeTokens X.suite fresh ts).run r = some (out, r') ∧
      Holds ks (k.afterAll .written ts) (b + ts.length) role r' := by
  induction ts generalizing k b r with
  | nil => exact ⟨[], r, rfl, h⟩
  | cons tok ts ih =>
      rw [Knows.allowsAll, Bool.and_eq_true] at hk
      rw [List.length_cons] at hb
      obtain ⟨out, r₁, hr₁, h₁⟩ :=
        writeToken_progress h hk.1 (by omega) (fun heq => he (heq ▸ List.mem_cons_self))
          (hdh tok List.mem_cons_self)
      obtain ⟨outs, r₂, hr₂, h₂⟩ := ih h₁ hk.2 (by omega)
        (fun hmem => he (List.mem_cons_of_mem tok hmem))
        fun t ht => hdh t (List.mem_cons_of_mem tok ht)
      refine ⟨out ++ outs, r₂, ?_, ?_⟩
      · rw [writeTokens, StateT.run_bind, hr₁]
        change ((writeTokens X.suite fresh ts >>= fun bs => pure (out ++ bs)).run r₁) = _
        rw [StateT.run_bind, hr₂]
        rfl
      · rw [List.length_cons, Nat.add_comm ts.length 1, ← Nat.add_assoc]
        exact h₂

/-- A message whose keys are in place and whose DHs succeed can be written. -/
theorem writeMessage_progress (ts : List Token) (payload : Bytes) (h : Holds ks k b role r)
    (hk : Knows.allowsAll role .written k ts = true) (hb : b + ts.length < 2 ^ 64 - 1)
    (he : .e ∈ ts → fresh = ks.e)
    (hdh : ∀ t ∈ ts, t.isDh = true → (ks.secret X role t).isSome = true) :
    ∃ out r', (writeMessage X.suite fresh ts payload).run r = some (out, r') ∧
      Holds ks (k.afterAll .written ts) (b + ts.length + 1) role r' := by
  obtain ⟨out, r₁, hr₁, h₁⟩ := writeTokens_progress ts h hk (by omega) he hdh
  obtain ⟨c, sym, henc, h₂⟩ := h₁.encrypts (X := X) hb payload
  refine ⟨out ++ c, _, ?_, h₂⟩
  rw [writeMessage, StateT.run_bind, hr₁]
  change Option.bind (Option.bind _ _) _ = _
  rw [henc]
  rfl

end Progress

section Exchange

/-- The inputs of an exchange: the static key pair of each role, and the random bytes a
key drawn in message `i` comes from. -/
structure Parties where
  static : Role → Keypair
  drawn : Nat → PrivateKey

namespace Parties

variable (P : Parties)

/-- The keys of a role in an exchange. -/
def keyset (X : External) (role : Role) : Keyset where
  s := ⟨(P.static role).sk, (P.static role).pk⟩
  e := freshKeyPair X (P.drawn (ephemeralMessage role))
  rs := (P.static role.other).pk
  re := X.scalarmultBase (P.drawn (ephemeralMessage role.other))

/-- The states the constructors make; an IK initiator knows the responder's static key. -/
def start (X : External) (p : Pattern) (role : Role) : HandshakeState :=
  HandshakeState.make X p (decide (role = .initiator)) (P.static role)
    (if p = .ik ∧ role = .initiator then some (P.static .responder).pk else none)

/-- Each static public key belongs to its secret key. -/
def Consistent (X : External) : Prop :=
  ∀ role, (P.static role).pk = X.scalarmultBase (P.static role).sk

/-- The DHs of the pattern do not fail on these keys. -/
def DhSucceeds (X : External) (p : Pattern) : Prop :=
  ∀ i < patternTotalSteps p, ∀ t ∈ armTokens p i, t.isDh = true →
    ((P.keyset X .initiator).secret X .initiator t).isSome = true

end Parties

/-- What the writer of message `i` and its reader have, by role. -/
def byTurn {α : Type} (i : Nat) (writer reader : α) (role : Role) : α :=
  if role = writerOf i then writer else reader

/-- The messages from `i` on, `n` of them, each delivered unchanged: no party is complete
yet, the write succeeds, the read returns the payload, and the states after the last
message satisfy `Q`. -/
def Exchanges (X : External) (drawn : Nat → PrivateKey) (payload : Nat → Bytes)
    (Q : (Role → HandshakeState) → Prop) : Nat → Nat → (Role → HandshakeState) → Prop
  | 0, _, hs => Q hs
  | n + 1, i, hs => (∀ role, (hs role).isComplete = false) ∧ ∃ m t t',
      (hs (writerOf i)).writeMessage X (drawn i) (payload i) = .ok (some m, t) ∧
      (hs (readerOf i)).readMessage X m = .ok (some (payload i), t') ∧
      Exchanges X drawn payload Q n (i + 1) (byTurn i t.hs t'.hs)

/-- What the parties have agreed on at the end. -/
structure Agreed (X : External) (P : Parties) (hs : Role → HandshakeState) : Prop where
  complete : ∀ role, (hs role).isComplete = true
  hash : (hs .initiator).handshakeHash = (hs .responder).handshakeHash
  peer : ∀ role, (hs role).peerStaticPublicKey = (P.static role.other).pk
  toResponder : ((hs .initiator).split X).1.send = ((hs .responder).split X).1.recv
  toInitiator : ((hs .initiator).split X).1.recv = ((hs .responder).split X).1.send
  nonces : ∀ role, ((hs role).split X).1.send.n = 0 ∧ ((hs role).split X).1.recv.n = 0

end Exchange

section Lockstep

variable {P : Parties} {p : Pattern} {i : Nat} {hs : Role → HandshakeState}

@[simp] theorem byTurn_writer {α : Type} (i : Nat) (w r : α) :
    byTurn i w r (writerOf i) = w := if_pos rfl

@[simp] theorem byTurn_reader {α : Type} (i : Nat) (w r : α) :
    byTurn i w r (readerOf i) = r := by
  apply if_neg
  rw [readerOf]
  cases writerOf i <;> decide

theorem writer_or_reader (i : Nat) (role : Role) : role = writerOf i ∨ role = readerOf i :=
  or_iff_not_imp_left.mpr eq_readerOf

/-- Both roles compute the same secrets. -/
theorem secret_comm (hdh : X.DhCommutes) (hkeys : P.Consistent X) (t : Token) (role : Role) :
    (P.keyset X role).secret X role t = (P.keyset X .initiator).secret X .initiator t := by
  cases role with
  | initiator => rfl
  | responder =>
      have hi := hkeys .initiator
      have hr := hkeys .responder
      cases t <;> simp only [Keyset.secret, sharedSecret, dhOperands, Parties.keyset, Role.other,
        freshKeyPair, hi, hr] <;> exact hdh _ _

/-- A party knows the other's ephemeral key exactly when the other has sent it. -/
theorem knowsAt_dual (hi : i ≤ patternTotalSteps p) (role : Role) :
    (knowsAt p role i).re = (knowsAt p role.other i).e := by
  have hle := patternTotalSteps_le p
  have hcases : i = 0 ∨ i = 1 ∨ i = 2 ∨ i = 3 := by omega
  rcases hcases with rfl | rfl | rfl | rfl <;> cases p <;> cases role <;> decide

/-- A key drawn for message `i` is the writer's ephemeral key. -/
theorem ephemeralMessage_writerOf (hi : i < patternTotalSteps p) (he : .e ∈ armTokens p i) :
    ephemeralMessage (writerOf i) = i := by
  obtain ⟨rfl, rfl⟩ | ⟨rfl, rfl⟩ | ⟨rfl, rfl⟩ | ⟨rfl, rfl⟩ | ⟨rfl, rfl⟩ := message_cases hi
  all_goals first | rfl | exact absurd he (by decide)

/-- The patterns are valid: a writer uses its static secret after sending the public
half. -/
theorem armTokens_valid (hi : i < patternTotalSteps p) :
    Framework.ValidTokens (writerOf i) (knowsAt p (readerOf i) i).rs (armTokens p i) = true := by
  obtain ⟨rfl, rfl⟩ | ⟨rfl, rfl⟩ | ⟨rfl, rfl⟩ | ⟨rfl, rfl⟩ | ⟨rfl, rfl⟩ := message_cases hi <;>
    decide

/-- Reading teaches the static key that was sent, writing none. -/
theorem knowsAt_static (hi : i < patternTotalSteps p) :
    (knowsAt p (readerOf i) (i + 1)).rs =
        Framework.knownAfter (knowsAt p (readerOf i) i).rs (armTokens p i) ∧
      (knowsAt p (writerOf i) (i + 1)).rs = (knowsAt p (writerOf i) i).rs ∧
      (knowsAt p (readerOf i) (i + 1)).e = (knowsAt p (readerOf i) i).e := by
  obtain ⟨rfl, rfl⟩ | ⟨rfl, rfl⟩ | ⟨rfl, rfl⟩ | ⟨rfl, rfl⟩ | ⟨rfl, rfl⟩ := message_cases hi <;>
    decide

/-- The parties before message `i`: each follows its reference with its own keys, and
the references are paired. -/
structure Joint (X : External) (P : Parties) (p : Pattern) (i : Nat)
    (hs : Role → HandshakeState) (ref : Role → Reference) : Prop where
  follows : ∀ role, Follows p role i (hs role) (ref role)
  s : ∀ role, (ref role).s = (P.keyset X role).s
  e : ∀ role, (ref role).e =
    if (knowsAt p role i).e then some (P.keyset X role).e else none
  paired : ∀ role, Framework.Paired X.scalarmultBase (knowsAt p role.other i).rs
    (knowsAt p role i).rs (ref role) (ref role.other)

/-- Reading leaves the own keys of the reference alone. -/
theorem Follows.read_own {role : Role} {h : HandshakeState} {r r' : Reference} {m out : Bytes}
    {t : Traced} (hf : Follows p role i h r) (hrun : h.readMessage X m = .ok (some out, t))
    (hf' : Follows p role (i + 1) t.hs r')
    (he : (knowsAt p role (i + 1)).e = (knowsAt p role i).e) : r'.s = r.s ∧ r'.e = r.e := by
  obtain ⟨_, hn, _⟩ | ⟨_, t₁, _, hpiece, ht⟩ := readMessage_eq_ok hrun
  · cases hn
  · subst ht
    rw [hf'.reveals.s, hf.reveals.s, hf'.reveals.e, hf.reveals.e, he]
    constructor
    · exact congrArg₂ Framework.KeyPair.mk hpiece.sSk hpiece.sPk
    · have hkey : Framework.KeyPair.mk t₁.hs.eSk t₁.hs.ePk =
          Framework.KeyPair.mk h.eSk h.ePk :=
        congrArg₂ Framework.KeyPair.mk hpiece.eSk hpiece.ePk
      exact congrArg (fun kp => if (knowsAt p role i).e then some kp else none) hkey

namespace Joint

variable {ref : Role → Reference}

/-- The keys each reference holds. -/
theorem holds (h : Joint X P p i hs ref) (hi : i ≤ patternTotalSteps p) (role : Role) :
    Holds (P.keyset X role) (knowsAt p role i) (5 * i) role (ref role) where
  role := (h.follows role).reveals.role
  s := h.s role
  e := h.e role
  re := by
    rw [(h.paired role).writer_re, h.e role.other, knowsAt_dual hi role]
    cases (knowsAt p role.other i).e <;> rfl
  rs := by
    cases hk : (knowsAt p role i).rs with
    | true =>
        have hknows := (h.paired role).writer_knows hk
        rw [hknows, h.s role.other]
        rfl
    | false =>
        have hrs := (h.follows role).reveals.rs
        rw [hk] at hrs
        exact hrs
  nonce := by
    rw [(h.follows role).reveals.sym]
    exact (h.follows role).reveals.nonce

/-- One message: it is written, read back, and the parties are joint before the next. -/
theorem exchange (hdh : X.DhCommutes) (haead : X.AeadRoundTrip) (hkeys : P.Consistent X)
    (hsucc : P.DhSucceeds X p) (h : Joint X P p i hs ref) (hi : i < patternTotalSteps p)
    (payload : Bytes) :
    ∃ m t t' ref', (hs (writerOf i)).writeMessage X (P.drawn i) payload = .ok (some m, t) ∧
      (hs (readerOf i)).readMessage X m = .ok (some payload, t') ∧
      Joint X P p (i + 1) (byTurn i t.hs t'.hs) ref' := by
  have htotal := patternTotalSteps_le p
  have hlen := armTokens_length p i
  have hwrite : directionOf (writerOf i) i = .written := if_pos rfl
  have hallow := knowsAt_allows p (writerOf i) hi
  rw [hwrite] at hallow
  have hfresh : .e ∈ armTokens p i →
      freshKeyPair X (P.drawn i) = (P.keyset X (writerOf i)).e := by
    intro he
    rw [Parties.keyset, ephemeralMessage_writerOf hi he]
  have hsecret : ∀ t ∈ armTokens p i, t.isDh = true →
      ((P.keyset X (writerOf i)).secret X (writerOf i) t).isSome = true := by
    intro t ht htdh
    rw [secret_comm hdh hkeys]
    exact hsucc i hi t ht htdh
  obtain ⟨m, w', hw, hholds⟩ := writeMessage_progress (armTokens p i) payload
    (h.holds (Nat.le_of_lt hi) (writerOf i)) hallow (by omega) hfresh hsecret
  have hpaired := h.paired (writerOf i)
  have hvalid := armTokens_valid hi
  rw [← (h.follows (writerOf i)).reveals.role] at hvalid
  obtain ⟨r', hr, hpaired'⟩ := Framework.readMessage_writeMessage
    (External.suite_lawful hdh haead) rfl hpaired hvalid hw
  -- The refinement carries both sides to the code.
  have hcode := (h.follows (writerOf i)).write (X := X) hi rfl (P.drawn i) payload
  rw [hw] at hcode
  obtain ⟨t, hrun, hfollows⟩ := hcode
  have hcode' := (h.follows (readerOf i)).read (X := X) hi rfl m
  rw [readerOf, hr] at hcode'
  obtain ⟨t', hrun', hfollows'⟩ := hcode'
  obtain ⟨hrs, hws, hre⟩ := knowsAt_static hi
  obtain ⟨hs', he'⟩ := (h.follows (readerOf i)).read_own hrun' hfollows' hre
  refine ⟨m, t, t', byTurn i w' r', hrun, hrun', ?_⟩
  have hother : (readerOf i).other = writerOf i := Role.other_other _
  constructor
  · intro role
    obtain rfl | rfl := writer_or_reader i role
    · rw [byTurn_writer, byTurn_writer]
      exact hfollows
    · rw [byTurn_reader, byTurn_reader]
      exact hfollows'
  · intro role
    obtain rfl | rfl := writer_or_reader i role
    · simpa using hholds.s
    · simpa [hs'] using h.s (readerOf i)
  · intro role
    obtain rfl | rfl := writer_or_reader i role
    · have he := hholds.e
      rw [byTurn_writer, knowsAt, hwrite]
      exact he
    · simpa [he', hre] using h.e (readerOf i)
  · intro role
    obtain rfl | rfl := writer_or_reader i role
    · change Framework.Paired _ (knowsAt p (readerOf i) (i + 1)).rs _ _
        (byTurn i w' r' (readerOf i))
      rw [byTurn_writer, byTurn_reader, hrs, hws]
      exact hpaired'
    · rw [hother, byTurn_writer, byTurn_reader, hrs, hws]
      exact hpaired'.swap

/-- Two framework states as the pattern starts them are paired. -/
theorem paired_start (hkeys : P.Consistent X) {ri rr : Reference}
    (hri : referenceStart X p .initiator (P.static .initiator)
      (if p = .ik then some (P.static .responder).pk else none) = some ri)
    (hrr : referenceStart X p .responder (P.static .responder) none = some rr) :
    Framework.Paired X.scalarmultBase (knowsAt p .responder 0).rs
      (knowsAt p .initiator 0).rs ri rr := by
  have hi := hkeys .initiator
  have hr := hkeys .responder
  cases p with
  | xx =>
      obtain rfl := Option.some.inj hri
      obtain rfl := Option.some.inj hrr
      have hno : ∀ role, (knowsAt .xx role 0).rs ≠ true := by
        intro role
        cases role <;> decide
      exact ⟨rfl, rfl, rfl, rfl, by simp, by simp, fun h => absurd h (hno _),
        fun h => absurd h (hno _), hi, hr, by simp, by simp⟩
  | ik =>
      obtain rfl := Option.some.inj hri
      obtain rfl := Option.some.inj hrr
      have hno : (knowsAt .ik .responder 0).rs ≠ true := by decide
      exact ⟨rfl, rfl, rfl, rfl, by simp, fun _ h => (Option.some.inj h).symm,
        fun h => absurd h hno, fun _ => rfl, hi, hr, by simp, by simp⟩

/-- The constructors make joint parties. -/
theorem start (hkeys : P.Consistent X) (p : Pattern) :
    ∃ ref, Joint X P p 0 (P.start X p) ref := by
  obtain ⟨ri, hri, hfi⟩ := make_follows (X := X) p .initiator (P.static .initiator)
    (if p = .ik then some (P.static .responder).pk else none) (by cases p <;> rfl)
  obtain ⟨rr, hrr, hfr⟩ := make_follows (X := X) p .responder (P.static .responder) none
    (by cases p <;> rfl)
  have hpaired := paired_start hkeys hri hrr
  refine ⟨fun role => if role = .initiator then ri else rr, ?_⟩
  constructor
  · intro role
    cases role with
    | initiator => simpa [Parties.start] using hfi
    | responder => simpa [Parties.start] using hfr
  · intro role
    cases role with
    | initiator => exact hfi.reveals.s.trans (by cases p <;> rfl)
    | responder => exact hfr.reveals.s.trans (by cases p <;> rfl)
  · intro role
    cases role with
    | initiator => exact hfi.reveals.e
    | responder => exact hfr.reveals.e
  · intro role
    cases role with
    | initiator => exact hpaired
    | responder => exact hpaired.swap

/-- Joint parties after the last message agree. -/
theorem agreed (h : Joint X P p (patternTotalSteps p) hs ref) : Agreed X P hs := by
  have hsym : (ref .responder).sym = (ref .initiator).sym := (h.paired .initiator).sym
  have hh : (hs .initiator).symmetric.h = (hs .responder).symmetric.h := by
    rw [(h.follows .initiator).sameState.h, (h.follows .responder).sameState.h, hsym]
  have hck : (hs .initiator).symmetric.ck = (hs .responder).symmetric.ck := by
    rw [(h.follows .initiator).sameState.ck, (h.follows .responder).sameState.ck, hsym]
  have hinit : (hs .initiator).initiator = true := (h.follows .initiator).initiator
  have hresp : (hs .responder).initiator = false := (h.follows .responder).initiator
  have hrs : ∀ role, (knowsAt p role (patternTotalSteps p)).rs = true := by
    intro role
    cases p <;> cases role <;> decide
  constructor
  · intro role
    apply isComplete_iff.mpr
    apply Nat.le_of_eq
    rw [(hs role).stepsTotal_eq, (h.follows role).pattern, (h.follows role).step]
  · exact hh
  · intro role
    have hknows := (h.paired role).writer_knows (hrs role)
    rw [h.s role.other] at hknows
    have hview := (h.follows role).sameState.rs
    rw [hknows] at hview
    exact hview
  · simp [HandshakeState.split, SymmetricState.split, hinit, hresp, hck]
  · simp [HandshakeState.split, SymmetricState.split, hinit, hresp, hck]
  · intro role
    cases role with
    | initiator =>
        simp [HandshakeState.split, SymmetricState.split, hinit, CipherState.initializeKey]
    | responder =>
        simp [HandshakeState.split, SymmetricState.split, hresp, CipherState.initializeKey]

/-- The remaining messages, from any one on. -/
theorem exchanges (hdh : X.DhCommutes) (haead : X.AeadRoundTrip) (hkeys : P.Consistent X)
    (hsucc : P.DhSucceeds X p) (payload : Nat → Bytes) {n : Nat}
    (hn : i + n = patternTotalSteps p) (h : Joint X P p i hs ref) :
    Exchanges X P.drawn payload (Agreed X P) n i hs := by
  induction n generalizing i hs ref with
  | zero =>
      have hi : i = patternTotalSteps p := hn
      subst hi
      exact h.agreed
  | succ n ih =>
      have hi : i < patternTotalSteps p := by omega
      obtain ⟨m, t, t', ref', hwrite, hread, hnext⟩ :=
        h.exchange hdh haead hkeys hsucc hi (payload i)
      exact ⟨fun role => (h.follows role).not_complete hi, m, t, t', hwrite, hread,
        ih (by omega) hnext⟩

end Joint

/-- Two parties of either pattern that exchange its messages unchanged agree. -/
theorem handshake_agreement (hdh : X.DhCommutes) (haead : X.AeadRoundTrip) (P : Parties)
    (p : Pattern) (hkeys : P.Consistent X) (hsucc : P.DhSucceeds X p)
    (payload : Nat → Bytes) :
    Exchanges X P.drawn payload (Agreed X P) (patternTotalSteps p) 0 (P.start X p) := by
  obtain ⟨ref, h⟩ := Joint.start hkeys p
  exact h.exchanges hdh haead hkeys hsucc payload (Nat.zero_add _)

/-- Small parties: every key repeats one byte. -/
def smallParties : Parties where
  static role := Miniature.keypair (if role = .initiator then 1 else 2)
  drawn i := Miniature.secretKey (UInt8.ofNat (i + 3))

theorem handshake_agreement_small :
    Exchanges Miniature.external smallParties.drawn (fun i => List.replicate i 7)
      (Agreed Miniature.external smallParties) 2 0 (smallParties.start Miniature.external .ik) :=
  handshake_agreement Miniature.external_dhCommutes Miniature.external_aeadRoundTrip smallParties
    .ik (fun _ => rfl) (by unfold Parties.DhSucceeds; decide +kernel) _

end Lockstep

end SecurityNoise
