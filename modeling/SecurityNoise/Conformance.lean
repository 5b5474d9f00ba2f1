import SecurityNoise.Simulation
import SecurityNoise.Miniature

/-!
# Conformance to the Noise framework

A party of either role, used in pattern order, is compared with the framework's
interpreter message by message: for every payload it writes and every byte string it is
given, both return the same bytes or neither accepts, and both end in the same state.
XX conforms. IK runs `es` where its second message has `se`, so it conforms exactly
where the two name secrets that mix to the same keys.
-/

namespace SecurityNoise

open Framework (Role Token)

variable {X : External}

section Comparison

/-- The fields the code's state has in common with the interpreter's; an empty key of
the interpreter is all zeros in the code. -/
structure SameState (hs : HandshakeState) (r : Reference) : Prop where
  ck : hs.symmetric.ck = r.sym.ck
  h : hs.symmetric.h = r.sym.h
  key : (if hs.symmetric.cipher.hasKey then some hs.symmetric.cipher.k else none) =
    r.sym.cipher.k
  nonce : hs.symmetric.cipher.n = r.sym.cipher.n
  re : hs.re = r.re.getD (Block.zero DH_PUBLIC_KEY_BYTES)
  rs : hs.rs = r.rs.getD (Block.zero DH_PUBLIC_KEY_BYTES)
  rsKnown : hs.rsKnown = r.rs.isSome

/-- `split` gives the interpreter's `Split` keys; the initiator sends with the first. -/
def SplitAgrees (X : External) (role : Role) (hs : HandshakeState) (r : Reference) : Prop :=
  let pair := (hs.split X).1
  match role with
  | .initiator => (pair.send.view, pair.recv.view) = r.sym.split X.suite
  | .responder => (pair.recv.view, pair.send.view) = r.sym.split X.suite

/-- From message `i` on, with `drawn j` the random bytes for a key drawn in message `j`:
every payload and every incoming byte string has the same outcome on both sides. -/
def Conforms (X : External) (role : Role) (drawn : Nat → PrivateKey) :
    Nat → List (List Token) → HandshakeState → Reference → Prop
  | _, [], hs, r => hs.isComplete = true ∧ SplitAgrees X role hs r
  | i, tokens :: rest, hs, r =>
      if role = writerOf i then
        ∀ payload, SameOutcome (hs.writeMessage X (drawn i) payload)
          ((Framework.HandshakeState.writeMessage X.suite (freshKeyPair X (drawn i)) tokens
            payload).run r)
          (fun hs r => SameState hs r ∧ Conforms X role drawn (i + 1) rest hs r)
      else
        ∀ message, SameOutcome (hs.readMessage X message)
          ((Framework.HandshakeState.readMessage X.suite tokens message).run r)
          (fun hs r => SameState hs r ∧ Conforms X role drawn (i + 1) rest hs r)

/-- A party with static key pair `s`, and the peer's static key `rs` if the pattern
gives it one, conforms from its construction on. -/
def PatternConforms (X : External) (p : Pattern) (role : Role) (s : Keypair)
    (rs : Option PublicKey) (drawn : Nat → PrivateKey) : Prop :=
  ∃ r, referenceStart X p role s rs = some r ∧
    SameState (HandshakeState.make X p (decide (role = .initiator)) s rs) r ∧
    Conforms X role drawn 0 p.spec.messages
      (HandshakeState.make X p (decide (role = .initiator)) s rs) r

end Comparison

section Following

variable {p : Pattern} {role : Role} {i : Nat} {hs : HandshakeState} {r : Reference}

theorem Follows.sameState (h : Follows p role i hs r) : SameState hs r where
  ck := by rw [h.reveals.sym]; rfl
  h := by rw [h.reveals.sym]; rfl
  key := by rw [h.reveals.sym]; rfl
  nonce := by rw [h.reveals.sym]; rfl
  re := by
    rw [h.reveals.re]
    cases hk : (knowsAt p role i).re with
    | true => rfl
    | false => exact h.reveals.re_zero hk
  rs := by
    rw [h.reveals.rs]
    cases hk : (knowsAt p role i).rs with
    | true => rfl
    | false => exact h.reveals.rs_zero hk
  rsKnown := by
    rw [h.reveals.rs, h.reveals.rsKnown]
    cases (knowsAt p role i).rs <;> rfl

theorem Follows.splitAgrees (h : Follows p role i hs r) : SplitAgrees X role hs r := by
  have hview := SymmetricState.view_split (X := X) hs.symmetric
  unfold SplitAgrees
  rw [h.reveals.sym]
  cases role with
  | initiator => simpa [HandshakeState.split, h.initiator] using hview
  | responder => simpa [HandshakeState.split, h.initiator] using hview

/-- A party that follows its pattern conforms to the tokens its switch arms run. -/
theorem Follows.conforms {n : Nat} (hn : i + n = patternTotalSteps p)
    (h : Follows p role i hs r) (drawn : Nat → PrivateKey) :
    Conforms X role drawn i ((List.range' i n).map (armTokens p)) hs r := by
  induction n generalizing i hs r with
  | zero =>
      refine ⟨?_, h.splitAgrees⟩
      rw [isComplete_iff, hs.stepsTotal_eq, h.pattern, h.step]
      omega
  | succ n ih =>
      have hi : i < patternTotalSteps p := by omega
      rw [List.range'_succ, List.map_cons, Conforms]
      have hnext : ∀ hs r, Follows p role (i + 1) hs r → SameState hs r ∧ Conforms X role drawn
          (i + 1) ((List.range' (i + 1) n).map (armTokens p)) hs r := fun hs r hf =>
        ⟨hf.sameState, ih (by omega) hf⟩
      by_cases hrole : role = writerOf i
      · rw [if_pos hrole]
        intro payload
        exact (h.write hi hrole (drawn i) payload).mono hnext
      · rw [if_neg hrole]
        intro message
        exact (h.read hi (eq_readerOf hrole) message).mono hnext

/-- XX conforms to the framework, in either role. -/
theorem xx_conforms (X : External) (role : Role) (s : Keypair) (drawn : Nat → PrivateKey) :
    PatternConforms X .xx role s none drawn := by
  obtain ⟨r, hr, hfollows⟩ := make_follows (X := X) .xx role s none (by cases role <;> rfl)
  exact ⟨r, hr, hfollows.sameState, hfollows.conforms (n := 3) rfl drawn⟩

end Following

end SecurityNoise
