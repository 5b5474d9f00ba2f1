import SecurityNoise.Sequences
import SecurityNoise.Miniature

/-!
# When the peer's static key is authenticated

`read_message` stores the peer's static key as soon as it opens, before the DH that proves
possession of it and before the payload is checked. `peer_static_known()` speaks of an
accepted message only as long as no message is rejected after that point.
-/

namespace SecurityNoise

open Framework (Role Token)
open EarlyExit

variable {X : External}

section Statement

/-- The key an IK initiator is constructed with. -/
def preKnown (p : Pattern) (initiator : Bool) (rs : Option PublicKey) : Option PublicKey :=
  if p = .ik ∧ initiator = true then rs else none

/-- A `read_message` that carried an encrypted static key was accepted in full. -/
def CarriedStatic (l : MessageRecord) : Prop :=
  (∃ m, l.call = .read m) ∧ l.result.isSome = true ∧
    Token.s ∈ armTokens l.before.pattern l.before.step

/-- `rs` is the key of the last accepted message that carried one, or else the pre-known
key. -/
def LastAuthenticated (X : External) (start : Option PublicKey) (tr : List MessageRecord)
    (rs : PublicKey) : Prop :=
  (∃ pre l post m, tr = pre ++ l :: post ∧ l.call = .read m ∧ CarriedStatic l ∧
      OpensStatic X l.before m rs ∧ ∀ l' ∈ post, ¬ CarriedStatic l') ∨
    (start = some rs ∧ ∀ l ∈ tr, ¬ CarriedStatic l)

/-- The observables speak of accepted messages only. -/
structure AuthenticatedStatic (X : External) (start : Option PublicKey)
    (tr : List MessageRecord) (hs : HandshakeState) : Prop where
  known : hs.peerStaticKnown = true → LastAuthenticated X start tr hs.peerStaticPublicKey
  rejected : ∀ l ∈ tr, l.result = none →
    l.after.hs.peerStaticKnown = l.before.peerStaticKnown ∧
      l.after.hs.peerStaticPublicKey = l.before.peerStaticPublicKey

/-- A message whose static key opens also completes: the DHs after the key succeed and the
payload opens. -/
def CompletesStatic (X : External) (hs : HandshakeState) (l : MessageRecord) : Prop :=
  ∀ m rs, l.call = .read m → OpensStatic X hs m rs → ∃ offset t p,
    ReadPoint X hs m (armTokens hs.pattern hs.step) offset t ∧
      t.hs.symmetric.Opens X (m.drop offset) p

end Statement

section Calls

variable {hs hs' : HandshakeState} {start : Option PublicKey} {tr : List MessageRecord}
  {l : MessageRecord}

/-- What `decrypt_and_hash` refuses does not open. -/
theorem SymmetricState.not_opens {s s' : SymmetricState} {c p : Bytes}
    (h : s.decryptAndHash X c = .ok (none, s')) : ¬ s.Opens X c p := by
  intro hopens
  unfold Opens at hopens
  unfold decryptAndHash CipherState.decryptWithAd at h
  split at hopens
  · rename_i hk
    simp only [hk, Bool.not_true, Bool.false_eq_true, if_false, hopens] at h
    have hlen := X.aeadDecrypt_length _ _ _ _ _ hopens
    rw [if_neg (by omega)] at h
    split at h
    · cases h
    · rename_i hc
      split at hc <;> cases hc
    · cases h
  · rename_i hk
    rw [Bool.not_eq_true] at hk
    simp only [hk, Bool.not_false, if_true] at h
    cases h

/-- A call that reaches its payload and finds one that opens accepts the message. -/
theorem readMessage_accepts {m p : Bytes} {r : Option Bytes} {t t₁ : Traced} {offset : Nat}
    (hc : hs.isComplete = false) (h : hs.readMessage X m = .ok (r, t))
    (hpoint : ReadPoint X hs m (armTokens hs.pattern hs.step) offset t₁)
    (hopens : t₁.hs.symmetric.Opens X (m.drop offset) p) : r.isSome = true := by
  obtain ⟨hc', _⟩ | ⟨_, t₂, hrun, _⟩ := readMessage_eq_ok h
  · rw [hc] at hc'
    cases hc'
  · obtain ⟨_, htokens⟩ | ⟨o, t₃, htokens, _, hdec⟩ := readBody_cases hrun
    · cases htokens.symm.trans hpoint
    · obtain ⟨ho, rfl⟩ := Prod.mk.inj (Except.ok.inj (htokens.symm.trans hpoint))
      obtain rfl := Option.some.inj ho
      rw [decryptAndHash_run] at hdec
      split at hdec
      · cases hdec
      · rename_i symmetric hnone
        exact absurd hopens (SymmetricState.not_opens hnone)
      · obtain ⟨rfl, _⟩ := Prod.mk.inj (Except.ok.inj hdec)
        rfl

/-- What a call that meets the condition did to the observables: it left them alone, without
accepting a static key, or it accepted the key they now hold. -/
theorem MessageStep.observables (hcompletes : CompletesStatic X hs l)
    (hstep : MessageStep X hs l hs') :
    (hs'.rs = hs.rs ∧ hs'.rsKnown = hs.rsKnown ∧ ¬ CarriedStatic l) ∨
      (CarriedStatic l ∧ ∃ m, l.call = .read m ∧ OpensStatic X l.before m hs'.rs) := by
  obtain ⟨rfl, hcall, rfl⟩ := hstep
  cases hl : l.call with
  | write random payload =>
      rw [hl] at hcall
      obtain ⟨hrs, hknown⟩ := writeMessage_rs hcall
      refine Or.inl ⟨hrs, hknown, ?_⟩
      rintro ⟨⟨m, hm⟩, _⟩
      rw [hl] at hm
      cases hm
  | read m =>
      rw [hl] at hcall
      rcases Bool.eq_false_or_eq_true l.before.isComplete with hc | hc
      · have hread : l.before.readMessage X m = .ok (l.result, l.after) := hcall
        rw [readMessage_complete hc] at hread
        obtain ⟨hnone, hafter⟩ := Prod.mk.inj (Except.ok.inj hread)
        rw [← hafter]
        refine Or.inl ⟨rfl, rfl, ?_⟩
        rintro ⟨_, hsome, _⟩
        rw [← hnone] at hsome
        cases hsome
      · obtain ⟨hrs, hknown, hnot⟩ | ⟨hopens, _⟩ := readMessage_rs hcall
        · refine Or.inl ⟨hrs, hknown, ?_⟩
          rintro ⟨_, hsome, hmem⟩
          exact hnot hsome hmem
        · obtain ⟨offset, t, p, hpoint, hpayload⟩ := hcompletes m _ hl hopens
          have hsome := readMessage_accepts hc hcall hpoint hpayload
          obtain ⟨pre, post, _, _, _, hts, _⟩ := id hopens
          have hmem : Token.s ∈ armTokens l.before.pattern l.before.step := by
            rw [hts]
            exact List.mem_append_right pre List.mem_cons_self
          exact Or.inr ⟨⟨⟨m, hl⟩, hsome, hmem⟩, m, rfl, hopens⟩

/-- Calls without an accepted static key leave the last one in place. -/
theorem LastAuthenticated.snoc {rs : PublicKey} (h : LastAuthenticated X start tr rs)
    (hnot : ¬ CarriedStatic l) : LastAuthenticated X start (tr ++ [l]) rs := by
  obtain ⟨pre, l', post, m, rfl, hcall, hcarried, hopens, hpost⟩ | ⟨hstart, hnone⟩ := h
  · exact Or.inl ⟨pre, l', post ++ [l], m, by simp, hcall, hcarried, hopens,
      forall_mem_snoc hpost hnot⟩
  · exact Or.inr ⟨hstart, forall_mem_snoc hnone hnot⟩

/-- Every call that meets the condition keeps the observables authenticated. -/
theorem AuthenticatedStatic.step (h : AuthenticatedStatic X start tr hs)
    (hstep : Guarded (CompletesStatic X) (MessageStep X) hs l hs') :
    AuthenticatedStatic X start (tr ++ [l]) hs' := by
  obtain ⟨hcompletes, hstep⟩ := hstep
  have hcases := hstep.observables hcompletes
  obtain ⟨rfl, _, rfl⟩ := hstep
  constructor
  · intro hknown
    obtain ⟨hrs, hflag, hnot⟩ | ⟨hcarried, m, hcall, hopens⟩ := hcases
    · have hlast := h.known (hflag.symm.trans hknown)
      have heq : l.after.hs.peerStaticPublicKey = l.before.peerStaticPublicKey := hrs
      rw [heq]
      exact hlast.snoc hnot
    · refine Or.inl ⟨tr, l, [], m, rfl, hcall, hcarried, hopens, ?_⟩
      intro l' hmem
      cases hmem
  · apply forall_mem_snoc h.rejected
    intro hnone
    obtain ⟨hrs, hflag, _⟩ | ⟨⟨_, hsome, _⟩, _⟩ := hcases
    · exact ⟨hflag, hrs⟩
    · rw [hnone] at hsome
      cases hsome

/-- Accepted messages meet the condition. -/
theorem CompletesStatic.of_accepted (hstep : MessageStep X hs l hs')
    (hsome : l.result.isSome = true) : CompletesStatic X hs l := by
  obtain ⟨_, hcall, _⟩ := hstep
  intro m rs hl _
  obtain ⟨p, hp⟩ := Option.isSome_iff_exists.mp hsome
  rw [hl, hp] at hcall
  obtain ⟨_, offset, t, _, hpoint, _, hdec, _⟩ := readMessage_payload hcall
  exact ⟨offset, t, p, hpoint, SymmetricState.decryptAndHash_opens hdec⟩

theorem AuthenticatedStatic.make (p : Pattern) (initiator : Bool) (keys : Keypair)
    (rs : Option PublicKey) : AuthenticatedStatic X (preKnown p initiator rs) []
      (HandshakeState.make X p initiator keys rs) := by
  refine ⟨fun hknown => Or.inr ⟨?_, by simp⟩, by simp⟩
  unfold HandshakeState.make at *
  cases p <;> cases initiator <;> cases rs <;> first | rfl | cases hknown

/-- In every run in which no message is rejected after its static key has opened, the
observables are those of the last accepted message. -/
theorem peer_static_authenticated {p : Pattern} {initiator : Bool} {keys : Keypair}
    {rs : Option PublicKey}
    (run : Run (Guarded (CompletesStatic X) (MessageStep X))
      (HandshakeState.make X p initiator keys rs) tr hs) :
    AuthenticatedStatic X (preKnown p initiator rs) tr hs := by
  have h : AuthenticatedStatic X (preKnown p initiator rs) ([] ++ tr) hs :=
    run.history (fun _ _ _ _ h hstep => h.step hstep) (AuthenticatedStatic.make p initiator keys rs)
  exact h

end Calls

section Concrete

open Miniature

/-- The first message of an IK initiator for party 2. -/
def smallFirst : Bytes :=
  (HandshakeState.make external .ik true (keypair 1) (some (keypair 2).pk)).written external
    (secretKey 3) []

/-- An IK responder accepts it. -/
theorem peer_static_authenticated_small : ∃ tr hs, hs.peerStaticKnown = true ∧
    hs.peerStaticPublicKey = (keypair 1).pk ∧ AuthenticatedStatic external none tr hs := by
  obtain ⟨tr, hs, run, hend⟩ := exists_message_run (X := external)
    (HandshakeState.make external .ik false (keypair 2) none) [.read smallFirst]
    (fun tr hs => hs.peerStaticKnown && hs.peerStaticPublicKey = (keypair 1).pk &&
      tr.all fun l => l.result.isSome) (by decide +kernel)
  simp only [Bool.and_eq_true, decide_eq_true_eq, List.all_eq_true] at hend
  obtain ⟨⟨hknown, hkey⟩, haccepted⟩ := hend
  have hguarded := run.guarded fun l hl _ _ hstep =>
    CompletesStatic.of_accepted hstep (haccepted l hl)
  have hend : AuthenticatedStatic external (preKnown .ik false none) tr hs :=
    peer_static_authenticated hguarded
  exact ⟨tr, hs, hknown, hkey, hend⟩

/-- Without its last byte the responder rejects it, and from then on claims to know its
static key. -/
theorem peer_static_authenticated_fails : ∃ tr hs,
    Run (MessageStep external) (HandshakeState.make external .ik false (keypair 2) none) tr hs ∧
      ¬ AuthenticatedStatic external none tr hs := by
  obtain ⟨tr, hs, run, hend⟩ := exists_message_run (X := external)
    (HandshakeState.make external .ik false (keypair 2) none) [.read smallFirst.dropLast]
    (fun tr hs => hs.peerStaticKnown && tr.all fun l => l.result.isNone) (by decide +kernel)
  rw [Bool.and_eq_true, List.all_eq_true] at hend
  obtain ⟨hknown, hnone⟩ := hend
  refine ⟨tr, hs, run, fun h => ?_⟩
  obtain ⟨pre, l, post, m, rfl, _, ⟨_, hsome, _⟩, _⟩ | ⟨hstart, _⟩ := h.known hknown
  · have hl := hnone l (List.mem_append_right pre List.mem_cons_self)
    rw [Option.isNone_iff_eq_none] at hl
    rw [hl] at hsome
    cases hsome
  · cases hstart

end Concrete

end SecurityNoise
