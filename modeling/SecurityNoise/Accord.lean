import SecurityNoise.Binding
import SecurityNoise.Driving

/-!
# What equal handshake hashes say

Two parties that each keep to their turns but talk through a network that may change every
byte. If their handshake hashes are equal nothing was changed, so the parties are in the
lockstep that honest delivery gives: what one read is what the other wrote, and they hold
the same keys and each other's identity.

## Implementation notes

The runs are followed from the first message on. What a party draws is read off its own
calls, so the parties' draws are fixed one message at a time.
-/

namespace SecurityNoise

open Framework (Role Token)

variable {X : External}

section Statement

/-- The payload a call seals. -/
def MessageCall.payload? : MessageCall → Option Bytes
  | .write _ payload => some payload
  | .read _ => none

def MessageCall.isWrite : MessageCall → Bool
  | .write _ _ => true
  | .read _ => false

/-- From message `i` on the role writes its own messages and reads the others. -/
def InTurn (role : Role) : Nat → List MessageRecord → Prop
  | _, [] => True
  | i, l :: tr => (l.call.isWrite = true ↔ role = writerOf i) ∧ InTurn role (i + 1) tr

instance decidableInTurn (role : Role) : ∀ (i : Nat) (tr : List MessageRecord),
    Decidable (InTurn role i tr)
  | _, [] => .isTrue trivial
  | i, l :: tr =>
      have := decidableInTurn role (i + 1) tr
      inferInstanceAs (Decidable ((l.call.isWrite = true ↔ role = writerOf i) ∧ _))

/-- From message `i` on, every message read is the one the other side wrote, and gave the
payload it was written with. -/
def Delivered (i : Nat) (tr : Role → List MessageRecord) : Prop :=
  ∀ n w r, (tr (writerOf (i + n)))[n]? = some w → (tr (readerOf (i + n)))[n]? = some r →
    r.call = .read w.wire ∧ r.result = w.call.payload?

end Statement

section Lockstep

variable {P : Parties} {p : Pattern} {i : Nat} {hs hs' : Role → HandshakeState}
  {ref : Role → Reference}

/-- A writer has its ephemeral key in place if it had one or draws one. -/
theorem knowsAt_written (hi : i < patternTotalSteps p) :
    (knowsAt p (writerOf i) (i + 1)).e = (draws p i || (knowsAt p (writerOf i) i).e) := by
  obtain ⟨rfl, rfl⟩ | ⟨rfl, rfl⟩ | ⟨rfl, rfl⟩ | ⟨rfl, rfl⟩ | ⟨rfl, rfl⟩ := message_cases hi <;>
    decide

/-- Writing keeps the static key pair, and the ephemeral one unless it draws another. -/
theorem Follows.write_own {h : HandshakeState} {r r' : Reference} {random : PrivateKey}
    {payload out : Bytes} {t : Traced} (hf : Follows p (writerOf i) i h r)
    (hi : i < patternTotalSteps p) (hrun : h.writeMessage X random payload = .ok (some out, t))
    (hf' : Follows p (writerOf i) (i + 1) t.hs r') :
    r'.s = r.s ∧ r'.e = if draws p i then some (freshKeyPair X random) else r.e := by
  obtain ⟨_, hn, _⟩ | ⟨_, t₁, hbody, rfl⟩ := writeMessage_eq_ok hrun
  · cases hn
  · rw [hf.pattern, hf.step] at hbody
    have hpiece := (writeBody_eq_ok hbody).1
    obtain ⟨_, _, _, hsk, hpk⟩ := afterDrawing_frame X random p i ⟨h, []⟩
    rw [hf'.reveals.s, hf.reveals.s, hf'.reveals.e, hf.reveals.e, knowsAt_written hi]
    constructor
    · exact congrArg₂ Framework.KeyPair.mk (hpiece.sSk.trans hsk) (hpiece.sPk.trans hpk)
    · have hkey : Framework.KeyPair.mk t₁.hs.eSk t₁.hs.ePk =
          ⟨(afterDrawing X random p i ⟨h, []⟩).hs.eSk,
            (afterDrawing X random p i ⟨h, []⟩).hs.ePk⟩ :=
        congrArg₂ Framework.KeyPair.mk hpiece.eSk hpiece.ePk
      change (if _ then some (Framework.KeyPair.mk t₁.hs.eSk t₁.hs.ePk) else none) = _
      rw [hkey]
      unfold afterDrawing
      cases draws p i <;> rfl

namespace Joint

/-- A written message, delivered unchanged, is read back, and the parties are joint before
the next. -/
theorem exchange_written (hdh : X.DhCommutes) (haead : X.AeadRoundTrip)
    (h : Joint X P p i hs ref) (hi : i < patternTotalSteps p) {payload m : Bytes} {t : Traced}
    (hwrite : (hs (writerOf i)).writeMessage X (P.drawn i) payload = .ok (some m, t)) :
    ∃ t' ref', (hs (readerOf i)).readMessage X m = .ok (some payload, t') ∧
      Joint X P p (i + 1) (byTurn i t.hs t'.hs) ref' := by
  -- The writer's reference wrote the same message, and the reader's reads it.
  have hcode := (h.follows (writerOf i)).write (X := X) hi rfl (P.drawn i) payload
  cases hw : (Framework.HandshakeState.writeMessage X.suite (freshKeyPair X (P.drawn i))
      (armTokens p i) payload).run (ref (writerOf i)) with
  | none =>
      rw [hw] at hcode
      obtain ⟨t₁, hnone⟩ := hcode
      cases hnone.symm.trans hwrite
  | some o =>
      obtain ⟨out, w'⟩ := o
      rw [hw] at hcode
      obtain ⟨t₁, hsome, hfollows⟩ := hcode
      obtain ⟨hout, rfl⟩ := Prod.mk.inj (Except.ok.inj (hsome.symm.trans hwrite))
      obtain rfl := Option.some.inj hout
      have hvalid := armTokens_valid hi
      rw [← (h.follows (writerOf i)).reveals.role] at hvalid
      obtain ⟨r', hr, hpaired⟩ := Framework.readMessage_writeMessage
        (External.suite_lawful hdh haead) rfl (h.paired (writerOf i)) hvalid hw
      have hcode' := (h.follows (readerOf i)).read (X := X) hi rfl out
      rw [readerOf, hr] at hcode'
      obtain ⟨t', hread, hfollows'⟩ := hcode'
      obtain ⟨hrs, hws, hre⟩ := knowsAt_static hi
      obtain ⟨hsw, hew⟩ := (h.follows (writerOf i)).write_own hi hwrite hfollows
      obtain ⟨hsr, her⟩ := (h.follows (readerOf i)).read_own hread hfollows' hre
      refine ⟨t', byTurn i w' r', hread, ?_⟩
      have hother : (readerOf i).other = writerOf i := Role.other_other _
      constructor
      · intro role
        obtain rfl | rfl := writer_or_reader i role
        · rw [byTurn_writer, byTurn_writer]
          exact hfollows
        · rw [byTurn_reader, byTurn_reader]
          exact hfollows'
      · intro role
        obtain rfl | rfl := writer_or_reader i role
        · rw [byTurn_writer, hsw]
          exact h.s (writerOf i)
        · rw [byTurn_reader, hsr]
          exact h.s (readerOf i)
      · intro role
        obtain rfl | rfl := writer_or_reader i role
        · rw [byTurn_writer, hew, knowsAt_written hi, h.e (writerOf i)]
          by_cases hdraws : draws p i = true
          · have hmem : Token.e ∈ armTokens p i := by
              obtain ⟨_, ts, hts, _⟩ | ⟨hno, _⟩ := armTokens_shape p i
              · rw [hts]
                exact List.mem_cons_self
              · rw [hno] at hdraws
                cases hdraws
            rw [Parties.keyset, ephemeralMessage_writerOf hi hmem, hdraws]
            rfl
          · rw [Bool.eq_false_iff.mpr hdraws]
            rfl
        · rw [byTurn_reader, her, hre]
          exact h.e (readerOf i)
      · intro role
        obtain rfl | rfl := writer_or_reader i role
        · change Framework.Paired _ (knowsAt p (readerOf i) (i + 1)).rs _ _
            (byTurn i w' r' (readerOf i))
          rw [byTurn_writer, byTurn_reader, hrs, hws]
          exact hpaired
        · rw [hother, byTurn_writer, byTurn_reader, hrs, hws]
          exact hpaired.swap

end Joint

/-- What agreement says depends on the static keys alone. -/
theorem Agreed.of_static {P' : Parties} (h : Agreed X P' hs) (hkeys : P'.static = P.static) :
    Agreed X P hs where
  complete := h.complete
  hash := h.hash
  peer role := by rw [h.peer, hkeys]
  toResponder := h.toResponder
  toInitiator := h.toInitiator
  nonces := h.nonces

/-- A written and a read message of one turn with the same bytes. -/
theorem MessageStep.turn {w r : MessageRecord} {s s' : HandshakeState}
    (hw : MessageStep X s w s') (hwok : w.result.isSome = true) (hwrites : w.call.isWrite = true)
    (hreads : r.call.isWrite = false) (hwire : w.wire = r.wire) :
    ∃ random payload m, w.call = .write random payload ∧
      s.writeMessage X random payload = .ok (some m, w.after) ∧ r.call = .read m ∧
      w.wire = m := by
  obtain ⟨_, hcall, _⟩ := hw
  obtain ⟨m, hm⟩ := Option.isSome_iff_exists.mp hwok
  cases hc : w.call with
  | read m => rw [hc] at hwrites; cases hwrites
  | write random payload =>
      cases hc' : r.call with
      | write random payload => rw [hc'] at hreads; cases hreads
      | read m' =>
          rw [hc, hm] at hcall
          have hsent : w.wire = m := by
            rw [MessageRecord.wire, hc, hm]
            rfl
          have hgot : r.wire = m' := by
            rw [MessageRecord.wire, hc']
            rfl
          rw [hsent, hgot] at hwire
          exact ⟨random, payload, m, rfl, hcall, congrArg MessageCall.read hwire.symm, hsent⟩

/-- Parties that are joint before message `i`, keep to their turns from there on, fail no
call and see the same bytes, are in lockstep to the end. -/
theorem Joint.same_wires (hdh : X.DhCommutes) (haead : X.AeadRoundTrip)
    {tr : Role → List MessageRecord} {n : Nat} (h : Joint X P p i hs ref)
    (hn : i + n = patternTotalSteps p) (hlen : ∀ role, (tr role).length = n)
    (runs : ∀ role, Run (MessageStep X) (hs role) (tr role) (hs' role))
    (hturn : ∀ role, InTurn role i (tr role))
    (hok : ∀ role, ∀ l ∈ tr role, l.result.isSome = true)
    (hwires : (tr (writerOf i)).map MessageRecord.wire = (tr (readerOf i)).map MessageRecord.wire) :
    Agreed X P hs' ∧ Delivered i tr := by
  induction n generalizing i hs ref tr P with
  | zero =>
      have hsame : hs' = hs := by
        funext role
        have hrun := runs role
        rw [List.eq_nil_of_length_eq_zero (hlen role)] at hrun
        exact hrun.eq_of_nil
      have hi : i = patternTotalSteps p := hn
      subst hi
      rw [hsame]
      refine ⟨h.agreed, ?_⟩
      intro n w r hw
      rw [List.eq_nil_of_length_eq_zero (hlen _)] at hw
      cases hw
  | succ n ih =>
      have hi : i < patternTotalSteps p := by omega
      -- the calls of this turn, and the runs after it
      have hfirst : ∀ role, ∃ l tl s, tr role = l :: tl ∧ MessageStep X (hs role) l s ∧
          Run (MessageStep X) s tl (hs' role) := by
        intro role
        have hrun := runs role
        cases htr : tr role with
        | nil =>
            have hzero := hlen role
            rw [htr] at hzero
            cases hzero
        | cons l tl =>
            rw [htr] at hrun
            obtain ⟨s, hstep, tail⟩ := hrun.uncons
            exact ⟨l, tl, s, rfl, hstep, tail⟩
      choose l tl s htr hstep tail using hfirst
      have hmem : ∀ role, l role ∈ tr role := by
        intro role
        rw [htr role]
        exact List.mem_cons_self
      have hcalls : ∀ role, ((l role).call.isWrite = true ↔ role = writerOf i) ∧
          InTurn role (i + 1) (tl role) := by
        intro role
        have hin := hturn role
        rw [htr role] at hin
        exact hin
      rw [htr, htr, List.map_cons, List.map_cons] at hwires
      obtain ⟨hwire, hrest⟩ := List.cons.inj hwires
      have hreads : (l (readerOf i)).call.isWrite = false :=
        Bool.eq_false_iff.mpr fun hw => readerOf_ne i ((hcalls _).1.mp hw)
      obtain ⟨random, payload, m, hw, hwrite, hr, hsent⟩ := (hstep (writerOf i)).turn
        (hok _ _ (hmem _)) ((hcalls _).1.mpr rfl) hreads hwire
      have hdrawn : Function.update P.drawn i random i = random := Function.update_self _ _ _
      rw [← hdrawn] at hwrite
      obtain ⟨t', ref', hread, hjoint⟩ :=
        (h.redraw (Nat.le_of_lt hi) random).exchange_written hdh haead hi hwrite
      -- the reader's call is the one the lockstep names
      have hcall := (hstep (readerOf i)).2.1
      rw [hr] at hcall
      obtain ⟨hresult, hafter⟩ := Prod.mk.inj (Except.ok.inj (hcall.symm.trans hread))
      have hnext : byTurn i (l (writerOf i)).after.hs t'.hs = s := by
        funext role
        obtain rfl | rfl := writer_or_reader i role
        · rw [byTurn_writer, (hstep _).2.2]
        · rw [byTurn_reader, (hstep _).2.2, hafter]
      rw [hnext] at hjoint
      have hlens : ∀ role, (tl role).length = n := by
        intro role
        have hboth := hlen role
        rw [htr role] at hboth
        exact Nat.succ.inj hboth
      obtain ⟨hagreed, hdelivered⟩ := ih hjoint (by omega) hlens tail
        (fun role => (hcalls role).2)
        (fun role l' hl => hok role l' (by rw [htr role]; exact List.mem_cons_of_mem _ hl))
        (by rw [writerOf_succ, readerOf_succ]; exact hrest.symm)
      refine ⟨hagreed.of_static rfl, ?_⟩
      intro k w r hwk hrk
      rw [htr] at hwk hrk
      cases k with
      | zero =>
          obtain rfl := Option.some.inj hwk
          obtain rfl := Option.some.inj hrk
          rw [Nat.add_zero, hw, hr, hsent, hresult]
          exact ⟨rfl, rfl⟩
      | succ k =>
          have hindex : i + (k + 1) = i + 1 + k := by omega
          rw [hindex] at hwk hrk
          exact hdelivered k w r hwk hrk

end Lockstep

section Hashes

variable {p : Pattern} {hs hs' : HandshakeState} {tr tr' : List MessageRecord}
  {initiator initiator' : Bool} {keys keys' : Keypair} {rs rs' : Option PublicKey}

/-- Two completed handshakes whose hashes agree in some part saw the same bytes and hashed
the same responder key, or evaluated BLAKE2b on two inputs whose digests agree in it. -/
theorem wires_of_hash {γ : Type} (f : Digest → γ)
    (run : Run (MessageStep X) (HandshakeState.make X p initiator keys rs) tr hs)
    (run' : Run (MessageStep X) (HandshakeState.make X p initiator' keys' rs') tr' hs')
    (hok : ∀ l ∈ tr, l.result.isSome = true) (hok' : ∀ l ∈ tr', l.result.isSome = true)
    (hdone : hs.isComplete = true) (hdone' : hs'.isComplete = true)
    (heq : f hs.handshakeHash = f hs'.handshakeHash) :
    (tr.map MessageRecord.wire = tr'.map MessageRecord.wire ∧
        preMessage p initiator keys rs = preMessage p initiator' keys' rs') ∨
      Collide (f ∘ X.genericHash) (Evaluated X p initiator keys rs tr)
        (Evaluated X p initiator' keys' rs' tr') := by
  obtain ⟨fss, h, hcount⟩ := exchanged_complete run hok hdone
  obtain ⟨fss', h', hcount'⟩ := exchanged_complete run' hok' hdone'
  have hstart := make_handshakeHash (X := X) p initiator keys rs
  have hstart' := make_handshakeHash (X := X) p initiator' keys' rs'
  have hlengths : fss.map List.length = fss'.map List.length := hcount.trans hcount'.symm
  have hflat : fss.flatten.length = fss'.flatten.length := by
    rw [List.length_flatten, List.length_flatten, hlengths]
  have hne : fss.flatten ≠ [] := by
    apply List.ne_nil_of_length_pos
    rw [List.length_flatten, hcount]
    cases p <;> decide
  rw [h.hash, h'.hash] at heq
  obtain ⟨hfirst, hfields⟩ | hcollide :=
    hashChain_inj_image f toList_injective (fun a b => by simp) hflat hne heq
  · have hsame : fss = fss' := List.eq_iff_flatten_eq.mpr ⟨hfields, hlengths⟩
    rw [hstart, hstart'] at hfirst
    obtain hkey | hcollide := preMessage_inj hfirst
    · left
      rw [h.wire, h'.wire, hsame]
      exact ⟨rfl, hkey⟩
    · exact Or.inr ((hcollide.image f).mono Set.subset_union_left Set.subset_union_left)
  · right
    apply hcollide.mono
    · exact fun x hx => Or.inr (h.recorded x hx)
    · exact fun x hx => Or.inr (h'.recorded x hx)

/-- Where both constructors hash one responder key, they make the states of two parties
that know each other. -/
theorem Parties.start_of_preMessage {P : Parties} {rs : Role → Option PublicKey}
    (hpre : preMessage p true (P.static .initiator) (rs .initiator) =
      preMessage p false (P.static .responder) (rs .responder)) (role : Role) :
    HandshakeState.make X p (decide (role = .initiator)) (P.static role) (rs role) =
      P.start X p role := by
  cases p with
  | xx => cases role <;> cases h : rs _ <;> rfl
  | ik =>
      cases role with
      | responder => rfl
      | initiator =>
          have hpinned : rs .initiator = some (P.static .responder).pk := hpre
          rw [hpinned]
          rfl

/-- A completed handshake made one call for each message. -/
theorem complete_length (run : Run (MessageStep X)
      (HandshakeState.make X p initiator keys rs) tr hs)
    (hok : ∀ l ∈ tr, l.result.isSome = true) (hdone : hs.isComplete = true) :
    tr.length = patternTotalSteps p := by
  obtain ⟨fss, h, hcount⟩ := exchanged_complete run hok hdone
  have hwires := congrArg List.length h.wire
  have hmessages := congrArg List.length hcount
  simp only [List.length_map, List.length_range'] at hwires hmessages
  exact hwires.trans hmessages

end Hashes

section Parties

variable {P : Parties} {p : Pattern} {rs : Role → Option PublicKey}
  {tr : Role → List MessageRecord} {hs : Role → HandshakeState}

/-- The two ends of a handshake, each completed in turn and without a failed call: where their
hashes agree in some part, the ends have agreed on everything, or BLAKE2b was evaluated on two
inputs whose digests agree in it. -/
theorem agreed_of_hash {γ : Type} (f : Digest → γ) (hdh : X.DhCommutes)
    (haead : X.AeadRoundTrip) (hkeys : P.Consistent X)
    (runs : ∀ role, Run (MessageStep X)
      (HandshakeState.make X p (decide (role = .initiator)) (P.static role) (rs role))
      (tr role) (hs role))
    (hturn : ∀ role, InTurn role 0 (tr role))
    (hok : ∀ role, ∀ l ∈ tr role, l.result.isSome = true)
    (hdone : ∀ role, (hs role).isComplete = true)
    (heq : f (hs .initiator).handshakeHash = f (hs .responder).handshakeHash) :
    (Agreed X P hs ∧ Delivered 0 tr) ∨
      Collide (f ∘ X.genericHash)
        (Evaluated X p true (P.static .initiator) (rs .initiator) (tr .initiator))
        (Evaluated X p false (P.static .responder) (rs .responder) (tr .responder)) := by
  obtain ⟨hwires, hpre⟩ | hcollide := wires_of_hash f (runs .initiator) (runs .responder)
    (hok _) (hok _) (hdone _) (hdone _) heq
  · left
    obtain ⟨ref, hjoint⟩ := Joint.start hkeys p
    refine hjoint.same_wires hdh haead (Nat.zero_add _) (fun role => ?_) (fun role => ?_) hturn
      hok hwires
    · exact complete_length (runs role) (hok role) (hdone role)
    · rw [← Parties.start_of_preMessage hpre role]
      exact runs role
  · exact Or.inr hcollide

/-- Whatever the network did to the messages, two ends with one handshake hash read what the
other wrote and agree on keys and identities, unless BLAKE2b collided. -/
theorem same_hash_agrees (hdh : X.DhCommutes) (haead : X.AeadRoundTrip) (hkeys : P.Consistent X)
    (runs : ∀ role, Run (MessageStep X)
      (HandshakeState.make X p (decide (role = .initiator)) (P.static role) (rs role))
      (tr role) (hs role))
    (hturn : ∀ role, InTurn role 0 (tr role))
    (hok : ∀ role, ∀ l ∈ tr role, l.result.isSome = true)
    (hdone : ∀ role, (hs role).isComplete = true)
    (heq : (hs .initiator).handshakeHash = (hs .responder).handshakeHash) :
    (Agreed X P hs ∧ Delivered 0 tr) ∨
      Collide X.genericHash
        (Evaluated X p true (P.static .initiator) (rs .initiator) (tr .initiator))
        (Evaluated X p false (P.static .responder) (rs .responder) (tr .responder)) :=
  agreed_of_hash id hdh haead hkeys runs hturn hok hdone heq

open Miniature in
/-- The calls of the two ends of one IK handshake. -/
def smallCalls (role : Role) : List MessageCall :=
  if role = .initiator then [.write (secretKey 3) [], .read smallReply]
  else [.read ((smallParties.start external .ik .initiator).written external (secretKey 3) []),
    .write (secretKey 4) []]

open Miniature in
/-- Both ends of that handshake end with one hash. -/
theorem same_hash_agrees_small : ∃ (tr : Role → List MessageRecord) (hs : Role → HandshakeState),
    (∀ role, (tr role).length = 2) ∧
      ((Agreed external smallParties hs ∧ Delivered 0 tr) ∨
        Collide external.genericHash
          (Evaluated external .ik true (keypair 1) (some (keypair 2).pk) (tr .initiator))
          (Evaluated external .ik false (keypair 2) none (tr .responder))) := by
  have hrun : ∀ role, ∃ tr hs, Run (MessageStep external)
      (smallParties.start external .ik role) tr hs ∧
      (tr.length = 2 && hs.isComplete && (tr.all fun l => l.result.isSome) &&
        decide (InTurn role 0 tr) &&
        smallAnswer.toOption.map (fun r => r.2.handshakeHash) = some hs.handshakeHash) = true := by
    intro role
    exact exists_message_run _ (smallCalls role) _ (by cases role <;> decide +kernel)
  choose tr hs run hend using hrun
  simp only [Bool.and_eq_true, decide_eq_true_eq, List.all_eq_true] at hend
  have hlen : ∀ role, (tr role).length = 2 := fun role => (hend role).1.1.1.1
  have heq : (hs .initiator).handshakeHash = (hs .responder).handshakeHash :=
    Option.some.inj ((hend .initiator).2.symm.trans (hend .responder).2)
  have hruns : ∀ role, Run (MessageStep external)
      (HandshakeState.make external .ik (decide (role = .initiator)) (smallParties.static role)
        (if role = .initiator then some (keypair 2).pk else none)) (tr role) (hs role) := by
    intro role
    cases role <;> exact run _
  refine ⟨tr, hs, hlen, ?_⟩
  exact same_hash_agrees external_dhCommutes external_aeadRoundTrip (P := smallParties)
    (fun _ => rfl) hruns (fun role => (hend role).1.2) (fun role => (hend role).1.1.2)
    (fun role => (hend role).1.1.1.2) heq

end Parties

section Sessions

variable {s s' s'' : NoiseSession}

/-- Bytes arrive at a session only where the other side has the next message to write. -/
def ArrivesInTurn (s : NoiseSession) (l : StepCall × StepReply) : Prop :=
  l.1.incoming ≠ [] → s.writerTurn = false

/-- Between two states of a session message calls were made, each in turn, none of them
failed, and what they computed is on record. -/
structure TurnsTaken (X : External) (s : NoiseSession) (log : List Event)
    (tr : List MessageRecord) (s' : NoiseSession) : Prop where
  run : Run (MessageStep X) s.handshake tr s'.handshake
  turn : InTurn s.role.side s.handshake.step tr
  ok : ∀ l ∈ tr, l.result.isSome = true
  step : s'.handshake.step = s.handshake.step + tr.length
  log : computed tr ⊆ log
  rest : s' = { s with handshake := s'.handshake }

theorem InTurn.append {role : Role} {i : Nat} {tr tr' : List MessageRecord}
    (h : InTurn role i tr) (h' : InTurn role (i + tr.length) tr') :
    InTurn role i (tr ++ tr') := by
  induction tr generalizing i with
  | nil => exact h'
  | cons l tr ih =>
      refine ⟨h.1, ih h.2 ?_⟩
      rw [List.length_cons, Nat.add_comm tr.length, ← Nat.add_assoc] at h'
      exact h'

theorem TurnsTaken.refl (s : NoiseSession) (log : List Event) : TurnsTaken X s log [] s where
  run := Run.nil _
  turn := trivial
  ok l hl := by cases hl
  step := rfl
  log := List.nil_subset log
  rest := rfl

theorem TurnsTaken.trans {log log' : List Event} {tr tr' : List MessageRecord}
    (h : TurnsTaken X s log tr s') (h' : TurnsTaken X s' log' tr' s'') :
    TurnsTaken X s (log ++ log') (tr ++ tr') s'' where
  run := h.run.append h'.run
  turn := by
    have hturn := h'.turn
    rw [h.rest, h.step] at hturn
    exact h.turn.append hturn
  ok := List.forall_mem_append.mpr ⟨h.ok, h'.ok⟩
  step := by rw [h'.step, h.step, List.length_append, Nat.add_assoc]
  log := by
    unfold computed
    rw [List.flatMap_append]
    exact List.append_subset.mpr ⟨fun e he => List.mem_append_left _ (h.log he),
      fun e he => List.mem_append_right _ (h'.log he)⟩
  rest := by rw [h'.rest, h.rest]

/-- One message call in turn that did not fail. -/
theorem TurnsTaken.single {l : MessageRecord} {hs : HandshakeState}
    (hstep : MessageStep X s.handshake l hs) (hok : l.result.isSome = true)
    (hturn : l.call.isWrite = s.writerTurn) :
    TurnsTaken X s l.after.log [l] { s with handshake := hs } where
  run := Run.single hstep
  turn := by
    refine ⟨?_, trivial⟩
    rw [hturn]
    exact writerTurn_iff
  ok l' hl := by
    rw [List.mem_singleton.mp hl]
    exact hok
  step := by
    obtain ⟨_, habsorbed⟩ := hstep.absorbed hok
    rw [hstep.2.2]
    exact habsorbed.step
  log := by
    unfold computed
    rw [List.flatMap_singleton]
    exact List.Subset.refl _
  rest := rfl

/-- The writing half of a successful `handshake_step`. -/
theorem writeTurn_taken {log : List Event} {random : PrivateKey} {alloc : Bool}
    {out : SecureBuffer} {r : StepReply} (h : writeTurn X s log random alloc out = .ok r)
    (hok : r.code = .ok) :
    ∃ tr new, r.log = log ++ new ∧ TurnsTaken X s new tr r.session := by
  obtain ⟨_, rfl⟩ | ⟨hturn, produced, t, hw, hsession, hlog, hnone, _⟩ := writeTurn_cases h
  · exact ⟨[], [], (List.append_nil _).symm, TurnsTaken.refl s []⟩
  · cases produced with
    | none =>
        rw [(hnone rfl).1] at hok
        cases hok
    | some m =>
        rw [hsession]
        exact ⟨_, t.log, hlog, TurnsTaken.single
          (l := ⟨s.handshake, .write random [], some m, t⟩) ⟨rfl, hw, rfl⟩ rfl hturn.symm⟩

/-- A successful `handshake_step`, with bytes arriving in turn only. -/
theorem HandshakeStep.taken {l : StepCall × StepReply} (h : HandshakeStep X s l s')
    (harrives : ArrivesInTurn s l) (hok : l.2.code = .ok) :
    ∃ tr, TurnsTaken X s l.2.log tr s' := by
  obtain ⟨call, r⟩ := l
  obtain ⟨hstep, rfl⟩ := h
  obtain ⟨_, hr⟩ | ⟨_, hw⟩ | ⟨hne, got, t, hread, hrest⟩ := noiseHandshakeStep_cases hstep
  · simp only at hr
    rw [hr] at hok
    cases hok
  · obtain ⟨tr, new, hlog, htaken⟩ := writeTurn_taken hw hok
    have hall : r.log = new := hlog
    exact ⟨tr, hall.symm ▸ htaken⟩
  · cases got with
    | none =>
        obtain ⟨_, hr⟩ | ⟨hn, _⟩ | ⟨hn, _⟩ := hrest
        · simp only at hr
          rw [hr] at hok
          cases hok
        · cases hn
        · cases hn
    | some payload =>
        have hfirst : TurnsTaken X s t.log [⟨s.handshake, .read call.incoming, some payload, t⟩]
            { s with handshake := t.hs } :=
          TurnsTaken.single (l := ⟨s.handshake, .read call.incoming, some payload, t⟩)
            ⟨rfl, hread, rfl⟩ rfl (harrives hne).symm
        obtain ⟨hn, _⟩ | ⟨_, _, hr⟩ | ⟨_, _, hw⟩ := hrest
        · cases hn
        · simp only at hr
          rw [hr]
          exact ⟨_, hfirst⟩
        · obtain ⟨tr, new, hlog, htaken⟩ := writeTurn_taken hw hok
          simp only at hlog
          rw [hlog]
          exact ⟨_, hfirst.trans htaken⟩

theorem turnsTaken_of_run {calls : List (StepCall × StepReply)}
    (run : Run (Guarded ArrivesInTurn (HandshakeStep X)) s calls s')
    (hok : ∀ l ∈ calls, l.2.code = .ok) :
    ∃ tr, TurnsTaken X s (calls.flatMap fun l => l.2.log) tr s' := by
  induction run with
  | nil s => exact ⟨[], TurnsTaken.refl s _⟩
  | @cons s s₁ s' l calls hstep _ ih =>
      obtain ⟨tr, hfirst⟩ := hstep.2.taken hstep.1 (hok l List.mem_cons_self)
      obtain ⟨tr', hrest⟩ := ih fun l' hl => hok l' (List.mem_cons_of_mem l hl)
      exact ⟨tr ++ tr', hfirst.trans hrest⟩

/-- A successful export exported the keys of a completed handshake. -/
theorem noiseExportTransportKeys_eq_ok {out : Option HandshakeKeys} {keys : HandshakeKeys}
    (h : noiseExportTransportKeys X s out = (.ok, some keys, s')) :
    s.handshake.isComplete = true ∧ keys = exportedKeys X s := by
  cases out with
  | none => cases h
  | some buffer =>
      by_cases hready : s.handshake.isComplete = true ∧ s.splitDone = false
      · rw [noiseExportTransportKeys_ok hready.1 hready.2] at h
        cases h
        exact ⟨hready.1, rfl⟩
      · rw [noiseExportTransportKeys_refused (by
          rw [not_and_or, Bool.not_eq_true, Bool.not_eq_false] at hready
          exact hready)] at h
        cases h

end Sessions

section Exports

variable {p : Pattern} {args : Role → OpenArgs} {s₀ s s' : Role → NoiseSession}
  {calls : Role → List (StepCall × StepReply)} {keys : Role → HandshakeKeys}

/-- Two sessions of opposite roles, on consistent key pairs. Which key an IK initiator got is
not said. -/
structure OpenedEnds (X : External) (p : Pattern) (args : Role → OpenArgs)
    (s : Role → NoiseSession) : Prop where
  opened : ∀ role, Opened X p (args role) (s role)
  side : ∀ role, (args role).role.side = role
  consistent : ∀ role edSk edPk keys, (args role).localStaticSk = some edSk →
    (args role).localStaticPk = some edPk → ed25519ToX25519 X edSk edPk = some keys →
    keys.pk = X.scalarmultBase keys.sk

/-- The inputs on which a session has evaluated BLAKE2b for its hash, from its construction
to the last of the calls. -/
def NoiseSession.evaluated (X : External) (s₀ : NoiseSession)
    (calls : List (StepCall × StepReply)) : Set Bytes :=
  let hs := s₀.handshake
  mixedInputs X (startHash X hs.pattern) (preFields hs.pattern hs.initiator
      ⟨s₀.localPk, hs.sSk⟩ (if hs.rsKnown then some hs.rs else none)) ∪
    {x | .hashed x ∈ calls.flatMap fun l => l.2.log}

/-- The exports fit together: the cipher keys cross, and each names the other side's key. -/
structure ExportsAgree (s₀ : Role → NoiseSession) (keys : Role → HandshakeKeys) : Prop where
  ciphers : ∀ role, (keys role).sendCipherKey = (keys role.other).recvCipherKey
  peers : ∀ role, (keys role).peerStaticPk = (s₀ role.other).localPk

theorem OpenedEnds.parties (h : OpenedEnds X p args s₀) :
    ∃ (P : Parties) (rs : Role → Option PublicKey), P.Consistent X ∧
      ∀ role, s₀ role =
        NoiseSession.make X p (decide (role = .initiator)) (P.static role) (rs role) := by
  choose edSk edPk keys rs hsk hpk hkeys hrs hs using fun role => (h.opened role).keys
  refine ⟨⟨keys, fun _ => Block.zero _⟩, rs, ?_, ?_⟩
  · intro role
    exact h.consistent role _ _ _ (hsk role) (hpk role) (hkeys role)
  · intro role
    have hinit : (args role).role = .initiator ↔ role = .initiator := by
      have hside := h.side role
      cases hr : (args role).role <;> rw [hr] at hside <;> rw [← hside] <;> decide
    rw [hs role]
    simp only [hinit]

theorem NoiseSession.evaluated_make {initiator : Bool} {kp : Keypair} {rs : Option PublicKey}
    {tr : List MessageRecord} {steps : List (StepCall × StepReply)}
    (hlog : computed tr ⊆ steps.flatMap fun l => l.2.log) :
    Evaluated X p initiator kp rs tr ⊆
      (NoiseSession.make X p initiator kp rs).evaluated X steps := by
  have hpre : (NoiseSession.make X p initiator kp rs).evaluated X steps =
      mixedInputs X (startHash X p) (preFields p initiator kp rs) ∪
        {x | .hashed x ∈ steps.flatMap fun l => l.2.log} := by
    cases p <;> cases initiator <;> cases rs <;> rfl
  rw [hpre]
  exact Set.union_subset_union_right _ fun x hx => hlog hx

/-- Whatever the network did, two sessions whose exports carry one 32-byte handshake hash
export crossed cipher keys and each other's static key, unless BLAKE2b was evaluated on two
inputs whose digests start with the same 32 bytes. -/
theorem same_export_agrees (hdh : X.DhCommutes) (haead : X.AeadRoundTrip)
    (hends : OpenedEnds X p args s₀)
    (runs : ∀ role, Run (Guarded ArrivesInTurn (HandshakeStep X)) (s₀ role) (calls role)
      (s role))
    (hok : ∀ role, ∀ l ∈ calls role, l.2.code = .ok) {out : Role → Option HandshakeKeys}
    (hexport : ∀ role, noiseExportTransportKeys X (s role) (out role) =
      (.ok, some (keys role), s' role))
    (heq : (keys .initiator).handshakeHash = (keys .responder).handshakeHash) :
    ExportsAgree s₀ keys ∨ Collide (Block.truncate hashBytes_le ∘ X.genericHash)
      ((s₀ .initiator).evaluated X (calls .initiator))
      ((s₀ .responder).evaluated X (calls .responder)) := by
  obtain ⟨P, rs, hkeys, hmake⟩ := hends.parties
  choose tr htaken using fun role => turnsTaken_of_run (runs role) (hok role)
  choose hdone hexported using fun role => noiseExportTransportKeys_eq_ok (hexport role)
  have hstart : ∀ role, (s₀ role).role.side = role ∧ (s₀ role).handshake.step = 0 := by
    intro role
    rw [hmake role]
    refine ⟨?_, (HandshakeState.make_start _ _ _ _).2.2⟩
    cases role <;> rfl
  have hruns : ∀ role, Run (MessageStep X)
      (HandshakeState.make X p (decide (role = .initiator)) (P.static role) (rs role))
      (tr role) (s role).handshake := by
    intro role
    have hrun := (htaken role).run
    rw [hmake role] at hrun
    exact hrun
  have hturn : ∀ role, InTurn role 0 (tr role) := by
    intro role
    have hturn := (htaken role).turn
    rwa [(hstart role).1, (hstart role).2] at hturn
  have hhash : Block.truncate hashBytes_le (s .initiator).handshake.handshakeHash =
      Block.truncate hashBytes_le (s .responder).handshake.handshakeHash := by
    rw [hexported, hexported] at heq
    exact heq
  obtain ⟨hagreed, _⟩ | hcollide := agreed_of_hash
    (Block.truncate hashBytes_le) hdh haead hkeys hruns hturn (fun role => (htaken role).ok)
    hdone hhash
  · refine Or.inl ⟨?_, ?_⟩
    · intro role
      rw [hexported, hexported]
      cases role with
      | initiator => exact congrArg CipherState.k hagreed.toResponder
      | responder => exact (congrArg CipherState.k hagreed.toInitiator).symm
    · intro role
      rw [hexported, hmake role.other]
      exact hagreed.peer role
  · right
    rw [hmake .initiator, hmake .responder]
    exact hcollide.mono (NoiseSession.evaluated_make (htaken .initiator).log)
      (NoiseSession.evaluated_make (htaken .responder).log)

end Exports

section Concrete

open Miniature

instance (s : NoiseSession) (l : StepCall × StepReply) : Decidable (ArrivesInTurn s l) :=
  inferInstanceAs (Decidable (l.1.incoming ≠ [] → s.writerTurn = false))

/-- Whether bytes arrive in turn in every one of the calls. -/
def allInTurn : NoiseSession → List (StepCall × StepReply) → Bool
  | _, [] => true
  | s, l :: calls => decide (ArrivesInTurn s l) && allInTurn l.2.session calls

theorem guarded_of_allInTurn {s s' : NoiseSession} {calls : List (StepCall × StepReply)}
    (run : Run (HandshakeStep X) s calls s') (h : allInTurn s calls = true) :
    Run (Guarded ArrivesInTurn (HandshakeStep X)) s calls s' := by
  induction run with
  | nil s => exact Run.nil s
  | cons hstep _ ih =>
      rw [allInTurn, Bool.and_eq_true, decide_eq_true_eq, ← hstep.2] at h
      exact Run.cons ⟨h.1, hstep⟩ (ih h.2)

/-- The messages of an XX handshake between parties 1 and 2. -/
def smallMessages : List Bytes :=
  (schedule external (Link.start smallSessions) smallSchedule).elim [] fun end_ =>
    end_.1.filterMap fun l => l.2.emitted

/-- The calls of its two ends. -/
def smallStepCalls (role : Role) : List StepCall :=
  if role = .initiator then
    [⟨[], secretKey 4, true, some {}⟩, ⟨smallMessages.getD 1 [], secretKey 8, true, some {}⟩]
  else
    [⟨smallMessages.getD 0 [], secretKey 6, true, some {}⟩,
      ⟨smallMessages.getD 2 [], secretKey 9, true, some {}⟩]

/-- What both ends export there carries one hash. -/
def smallExportedHash : Option (Block 32) :=
  (schedule external (Link.start smallSessions) smallSchedule).map fun end_ =>
    (exportedKeys external (end_.2.session .initiator)).handshakeHash

theorem same_export_agrees_small : ∃ (keys : Role → HandshakeKeys)
    (calls : Role → List (StepCall × StepReply)), (∀ role, (calls role).length = 2) ∧
      (ExportsAgree smallSessions keys ∨
        Collide (Block.truncate hashBytes_le ∘ external.genericHash)
        ((smallSessions .initiator).evaluated external (calls .initiator))
        ((smallSessions .responder).evaluated external (calls .responder))) := by
  have hrun : ∀ role, ∃ calls s, Run (HandshakeStep external) (smallSessions role) calls s ∧
      (calls.length = 2 && s.handshake.isComplete && !s.splitDone &&
        (calls.all fun l => l.2.code = .ok) && allInTurn (smallSessions role) calls &&
        smallExportedHash = some (exportedKeys external s).handshakeHash) = true := by
    intro role
    exact exists_run _ (smallStepCalls role) _ (by cases role <;> decide +kernel)
  choose calls s run hend using hrun
  simp only [Bool.and_eq_true, Bool.not_eq_true', decide_eq_true_eq, List.all_eq_true] at hend
  refine ⟨fun role => exportedKeys external (s role), calls, fun role => (hend role).1.1.1.1.1, ?_⟩
  have hends : OpenedEnds external .xx smallArgs smallSessions :=
    ⟨smallSessions_pair.opened, smallSessions_pair.side, smallSessions_pair.consistent⟩
  have hexport : ∀ role, noiseExportTransportKeys external (s role)
      (some (exportedKeys external (s role))) =
        (.ok, some (exportedKeys external (s role)), (s role).exported external) := fun role =>
    noiseExportTransportKeys_ok (hend role).1.1.1.1.2 (hend role).1.1.1.2 _
  exact same_export_agrees external_dhCommutes external_aeadRoundTrip hends
    (fun role => guarded_of_allInTurn (run role) (hend role).1.2) (fun role => (hend role).1.1.2)
    hexport (Option.some.inj ((hend .initiator).2.symm.trans (hend .responder).2))

end Concrete

end SecurityNoise
