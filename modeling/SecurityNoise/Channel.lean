import SecurityNoise.Accord
import SecurityNoise.HostileLink

/-!
# From the handshake to the last frame

Two ends complete a handshake through a network that may replace every message, compare their
handshake hashes, and use the ciphers of their splits over a network that may do anything to
the frames. If the hashes agree, every payload of the handshake was delivered and the two ends
have a hostile link with crossed keys.
-/

namespace SecurityNoise

open Framework (Role)

variable {X : External} {P : Parties} {p : Pattern} {rs : Role → Option PublicKey}
  {tr : Role → List MessageRecord} {hs : Role → HandshakeState} {ltr : List LinkEvent}
  {s : Role → Endpoint} {limit : Nat}

/-- The key that an end sends with after its split. -/
def splitKey (X : External) (hs : Role → HandshakeState) (side : Role) : CipherKey :=
  ((hs side).split X).1.send.k

/-- The transports made of the two splits. -/
def channelStart (X : External) (hs : Role → HandshakeState) (side : Role) : Endpoint :=
  ⟨⟨((hs side).split X).1.send, ((hs side).split X).1.recv⟩, 0⟩

/-- A split hands out freshly keyed ciphers. -/
theorem HandshakeState.split_fresh (hs : HandshakeState) :
    (hs.split X).1.send = CipherState.initializeKey (hs.split X).1.send.k ∧
      (hs.split X).1.recv = CipherState.initializeKey (hs.split X).1.recv.k := by
  unfold HandshakeState.split
  cases hs.initiator <;> exact ⟨rfl, rfl⟩

/-- Splits whose keys cross make the two ends of a link. -/
theorem channelStart_eq (h : ∀ side, ((hs side).split X).1.recv.k = splitKey X hs side.other) :
    channelStart X hs = linkStart (splitKey X hs) := by
  funext side
  obtain ⟨hsend, hrecv⟩ := (hs side).split_fresh (X := X)
  unfold channelStart linkStart Endpoint.start
  rw [hsend, hrecv, h]
  rfl

/-- The keys of ends that have agreed cross. -/
theorem Agreed.crossed (h : Agreed X P hs) (side : Role) :
    ((hs side).split X).1.recv.k = splitKey X hs side.other := by
  cases side with
  | initiator => exact congrArg CipherState.k h.toInitiator
  | responder => exact congrArg CipherState.k h.toResponder.symm

/-- Whatever the network did to the messages and the frames, two ends with one handshake hash
read every payload the other wrote, know each other, and accept in order what the other seals,
unless BLAKE2b collided. -/
theorem channel_order (hdh : X.DhCommutes) (haead : X.AeadRoundTrip) (hkeys : P.Consistent X)
    (runs : ∀ role, Run (MessageStep X)
      (HandshakeState.make X p (decide (role = .initiator)) (P.static role) (rs role))
      (tr role) (hs role))
    (hturn : ∀ role, InTurn role 0 (tr role))
    (hok : ∀ role, ∀ l ∈ tr role, l.result.isSome = true)
    (hdone : ∀ role, (hs role).isComplete = true)
    (heq : (hs .initiator).handshakeHash = (hs .responder).handshakeHash)
    (run : Run (LinkStep X) (channelStart X hs) ltr s) (hideal : IdealLink ltr)
    (hdistinct : LinkKeys X (splitKey X hs) limit) (hlimit : ∀ side, (s side).generation ≤ limit) :
    (Agreed X P hs ∧ Delivered 0 tr ∧ LinkOrder X ltr s) ∨
      Collide X.genericHash
        (Evaluated X p true (P.static .initiator) (rs .initiator) (tr .initiator))
        (Evaluated X p false (P.static .responder) (rs .responder) (tr .responder)) := by
  obtain ⟨hagreed, hdelivered⟩ | hcollide :=
    agreed_of_hash id hdh haead hkeys runs hturn hok hdone heq
  · left
    rw [channelStart_eq hagreed.crossed] at run
    have hlinked := linked_of_run haead run hideal hdistinct hlimit
    exact ⟨hagreed, hdelivered, hlinked.order haead⟩
  · exact Or.inr hcollide

/-- The initiator's first frame reaches the responder. -/
theorem exists_first_delivery (haead : X.AeadRoundTrip) (key : Role → CipherKey) (p : Bytes) :
    ∃ ltr s, Run (LinkStep X) (linkStart key) ltr s ∧ IdealLink ltr ∧
      acceptedBy .responder ltr = [⟨0, p⟩] ∧ ∀ side, (s side).generation = 0 := by
  have hready : ∀ side, Ready X (key side) (key side.other) (linkStart key side) :=
    fun _ => Ready.start _ _
  let frame := X.aeadEncrypt (key .initiator) (encodeNonce 0) [] p
  have hsealed : LinkStep X (linkStart key) (.sealed .initiator 0 (key .initiator) 0 p frame) _ :=
    ⟨rfl, rfl, rfl, _, (hready .initiator).encrypt p, rfl⟩
  have hopens := @Ready.opens _ _ _ _ (hready .responder) frame p (haead ..)
  have hopened : LinkStep X (Function.update (linkStart key) .initiator
      ((linkStart key .initiator).sent X))
      (.handed .responder 0 (key .initiator) 0 frame (some p)) _ :=
    ⟨rfl, rfl, rfl, _, hopens, rfl⟩
  have hideal : IdealLink ([] ++ [.sealed .initiator 0 (key .initiator) 0 p frame] ++
      [.handed .responder 0 (key .initiator) 0 frame (some p)]) := by
    apply IdealLink.snoc
    · apply IdealLink.snoc
      · exact IdealLink.nil
      · intro side g k n c q heq
        cases heq
    · intro side g k n c q heq
      obtain ⟨_, _, rfl, rfl, rfl, _⟩ := LinkEvent.handed.inj heq
      exact ⟨.initiator, 0, p, List.mem_singleton_self _⟩
  refine ⟨_, _, Run.cons hsealed (Run.single hopened), hideal, rfl, ?_⟩
  have hzero : (0 : UInt64).toNat + 1 < 2 ^ 60 := by decide
  intro side
  cases side with
  | initiator => exact ((hready .initiator).sent.2.next hzero).1
  | responder => exact ((hready .responder).received.2.next hzero).1

open Miniature in
/-- The send keys of the two ends of a small IK handshake. -/
def smallKeys : Option (Role → CipherKey) :=
  smallAnswer.toOption.map fun r role =>
    if role = .initiator then (r.2.split external).1.recv.k else (r.2.split external).1.send.k

open Miniature in
/-- A small IK handshake and the first frame after it. -/
theorem channel_order_small : ∃ (tr : Role → List MessageRecord) (hs : Role → HandshakeState)
    (ltr : List LinkEvent) (s : Role → Endpoint), acceptedBy .responder ltr = [⟨0, [7]⟩] ∧
      ((Agreed external smallParties hs ∧ Delivered 0 tr ∧ LinkOrder external ltr s) ∨
        Collide external.genericHash
          (Evaluated external .ik true (keypair 1) (some (keypair 2).pk) (tr .initiator))
          (Evaluated external .ik false (keypair 2) none (tr .responder))) := by
  have hrun : ∀ role, ∃ tr hs, Run (MessageStep external)
      (smallParties.start external .ik role) tr hs ∧
      (hs.isComplete && (tr.all fun l => l.result.isSome) && decide (InTurn role 0 tr) &&
        decide (smallAnswer.toOption.map (fun r => r.2.handshakeHash) = some hs.handshakeHash) &&
        decide (smallKeys.map (fun key => (key role, key role.other)) =
          some ((hs.split external).1.send.k, (hs.split external).1.recv.k))) = true := by
    intro role
    exact exists_message_run _ (smallCalls role) _ (by cases role <;> decide +kernel)
  choose tr hs run hend using hrun
  simp only [Bool.and_eq_true, decide_eq_true_eq, List.all_eq_true] at hend
  have heq : (hs .initiator).handshakeHash = (hs .responder).handshakeHash :=
    Option.some.inj ((hend .initiator).1.2.symm.trans (hend .responder).1.2)
  obtain ⟨key, hkey, _⟩ := Option.map_eq_some_iff.mp (hend .initiator).2
  have hkeys : ∀ side, key side = splitKey external hs side ∧
      key side.other = ((hs side).split external).1.recv.k := by
    intro side
    have hside := (hend side).2
    rw [hkey, Option.map_some] at hside
    exact Prod.mk.inj (Option.some.inj hside)
  have hcrossed : ∀ side,
      ((hs side).split external).1.recv.k = splitKey external hs side.other := by
    intro side
    rw [← (hkeys side).2, (hkeys side.other).1]
  have hne : key .initiator ≠ key .responder := by
    have hsmall : smallKeys.map (fun key => decide (key .initiator = key .responder)) =
        some false := by decide +kernel
    rw [hkey, Option.map_some] at hsmall
    exact of_decide_eq_false (Option.some.inj hsmall)
  rw [(hkeys _).1, (hkeys _).1] at hne
  have hdistinct : LinkKeys external (splitKey external hs) 0 := by
    intro side i hi side' j hj hsame
    obtain rfl := Nat.le_zero.mp hi
    obtain rfl := Nat.le_zero.mp hj
    refine ⟨?_, rfl⟩
    cases side <;> cases side'
    · rfl
    · exact absurd hsame hne
    · exact absurd hsame.symm hne
    · rfl
  obtain ⟨ltr, s, lrun, hideal, haccepted, hzero⟩ :=
    exists_first_delivery external_aeadRoundTrip (splitKey external hs) [7]
  rw [← channelStart_eq hcrossed] at lrun
  have hruns : ∀ role, Run (MessageStep external)
      (HandshakeState.make external .ik (decide (role = .initiator)) (smallParties.static role)
        (if role = .initiator then some (keypair 2).pk else none)) (tr role) (hs role) := by
    intro role
    cases role <;> exact run _
  refine ⟨tr, hs, ltr, s, haccepted, ?_⟩
  exact channel_order external_dhCommutes external_aeadRoundTrip (P := smallParties)
    (fun _ => rfl) hruns (fun role => (hend role).1.1.2) (fun role => (hend role).1.1.1.2)
    (fun role => (hend role).1.1.1.1) heq lrun hideal hdistinct
    (fun side => Nat.le_of_eq (hzero side))

end SecurityNoise
