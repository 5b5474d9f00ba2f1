import Mathlib.Logic.Function.Iterate
import SecurityNoise.Duplex

/-!
# Half-duplex traffic

Two endpoints with crossed ciphers, of which an end encrypts only when nothing is on its way
to it. Bursts may cross any number of rekeys: the sender runs ahead, and the receiver follows
it frame by frame through the same keys and nonces. Whenever the links are empty the two ends
mirror each other again.

## Implementation notes

A direction's cipher is a function of the index of the next frame, so the ciphers a sender has
had after its frames and those a receiver has after them are compared as lists.
-/

namespace SecurityNoise

open Framework (Role)

variable {X : External}

section Statement

/-- Crossed ciphers with keys and equal counters below the rekey interval. -/
structure Crossed (t : Role → TransportState) : Prop where
  keyed : ∀ side, (t side).send.hasKey = true
  mirrored : ∀ side, (t side).send = (t side.other).recv
  below : ∀ side, (t side).send.n < REKEY_INTERVAL

/-- Two ends before any rekey, with nothing in flight. -/
def Duplex.opened (t : Role → TransportState) : Duplex where
  endpoint side := ⟨t side, 0⟩
  inbox _ := []

/-- A step that encrypts only where nothing is on its way to the sender; the label has the
state it leads to. -/
def HalfDuplexStep (X : External) (d : Duplex) (l : DuplexEvent × Duplex) (d' : Duplex) : Prop :=
  (∀ side, l.1.sender = some side → d.inbox side = []) ∧ DuplexStep X d l.1 d' ∧ l.2 = d'

/-- The send ciphers a side has had after the frames it encrypted, in order. -/
def sentCiphers (side : Role) (tr : List (DuplexEvent × Duplex)) : List CipherState :=
  (tr.filter fun l => l.1.sender = some side).map fun l => (l.2.endpoint side).transport.send

/-- The receive ciphers a side has had after the frames delivered to it, in order. -/
def receivedCiphers (side : Role) (tr : List (DuplexEvent × Duplex)) : List CipherState :=
  (tr.filter fun l => l.1.receiver = some side).map fun l => (l.2.endpoint side).transport.recv

/-- Both directions of an end hold the initial keys after `g` rekeys. -/
structure Rotated (X : External) (t : TransportState) (g : Nat) (t' : TransportState) : Prop where
  send : t'.send.k = ((CipherState.rekey X)^[g] t.send).k
  recv : t'.recv.k = ((CipherState.rekey X)^[g] t.recv).k

/-- What holds after a half-duplex run from the transports `t`. -/
structure Mirrors (X : External) (t : Role → TransportState) (tr : List (DuplexEvent × Duplex))
    (d : Duplex) : Prop where
  /-- Encryption succeeds where it is allowed, and every frame opens. -/
  encrypts : ∀ side p, d.inbox side = [] →
    ∃ frame e, (d.endpoint side).call X (.encrypt p) = .ok (some frame, e)
  opens : Delivers X (tr.map Prod.fst) d
  /-- Frame by frame the receiver has the key and nonce the sender had just after it. -/
  follows : ∀ side, receivedCiphers side tr <+: sentCiphers side.other tr
  /-- With nothing in flight the ends have rekeyed equally often and mirror each other. -/
  quiescent : (∀ side, d.inbox side = []) → ∀ side,
    (d.endpoint side).generation = (d.endpoint side.other).generation ∧
    (d.endpoint side).transport.send = (d.endpoint side.other).transport.recv ∧
    Rotated X (t side) (d.endpoint side).generation (d.endpoint side).transport

end Statement

section Ciphers

/-- Rekeying a cipher moves its key on. -/
theorem rekey_iterate {c : CipherState} (h : c.hasKey = true) (g : Nat) :
    (CipherState.rekey X)^[g] c = { c with k := generationKey X c.k g } := by
  induction g with
  | zero => rfl
  | succ g ih =>
      rw [Function.iterate_succ_apply', ih, CipherState.rekey, h]
      rfl

end Ciphers

section Lanes

variable {k ks kr : CipherKey} {key : Role → CipherKey} {sender receiver : Endpoint}
  {t : Role → TransportState} {d : Duplex} {side : Role}

/-- The ends of an empty lane agree, unless the sender is behind. -/
theorem Lane.idle (h : Lane X k sender receiver []) (hsender : Ready X k kr sender)
    (hreceiver : Ready X ks k receiver) :
    (sender.generation = receiver.generation ∧
        sender.transport.send = receiver.transport.recv) ∨
      sender.generation < receiver.generation := by
  obtain ⟨_, hindex⟩ | ⟨hlt, _⟩ := h
  · have hsame : receiver.recvIndex = sender.sendIndex := hindex
    have hs := (below_iff _).mp hsender.sendBelow
    have hr := (below_iff _).mp hreceiver.recvBelow
    left
    constructor
    · unfold Endpoint.recvIndex Endpoint.sendIndex at hsame
      omega
    · calc sender.transport.send = cipherAt X k sender.sendIndex := hsender.send_cipher
        _ = cipherAt X k receiver.recvIndex := by rw [hsame]
        _ = receiver.transport.recv := hreceiver.recv_cipher.symm
  · exact Or.inr hlt

/-- An end with nothing on its way to it may encrypt. -/
theorem InOrder.keepsStep (h : InOrder X key d) (hempty : d.inbox side = []) (p : Bytes) :
    KeepsStep d (.sent side p) := by
  have hlane := h.lane side
  rw [hempty] at hlane
  refine ⟨?_, fun _ => hempty⟩
  obtain ⟨hsame, _⟩ | hlt := hlane.idle (h.readyOther side) (h.ready side)
  · exact Nat.le_of_eq hsame
  · exact Nat.le_of_lt hlt

/-- With nothing in flight neither end is behind, so they mirror each other. -/
theorem InOrder.quiescent (h : InOrder X key d) (hempty : ∀ side, d.inbox side = [])
    (side : Role) : (d.endpoint side).generation = (d.endpoint side.other).generation ∧
      (d.endpoint side).transport.send = (d.endpoint side.other).transport.recv := by
  have hlane := h.lane side
  have hback := h.back side
  rw [hempty] at hlane hback
  have hforth := hlane.idle (h.readyOther side) (h.ready side)
  obtain hmirror | hlt := hback.idle (h.ready side) (h.readyOther side)
  · exact hmirror
  · omega

theorem InOrder.opened (h : Crossed t) :
    InOrder X (fun side => (t side).send.k) (Duplex.opened t) := by
  have hkeyed : ∀ side, (t side).send = ⟨(t side).send.k, (t side).send.n, true⟩ := by
    intro side
    rw [← h.keyed side]
  have hrecv : ∀ side, (t side).recv = (t side.other).send := by
    intro side
    have hmirror := h.mirrored side.other
    rw [Role.other_other] at hmirror
    exact hmirror.symm
  constructor
  · intro side
    refine ⟨⟨hkeyed side, ?_⟩, h.below side, ?_⟩
    · change (t side).recv = ⟨(t side.other).send.k, (t side).recv.n, true⟩
      rw [hrecv]
      exact hkeyed side.other
    · change (t side).recv.n < REKEY_INTERVAL
      rw [hrecv]
      exact h.below side.other
  · intro side
    refine Or.inl ⟨Nat.le_refl _, ?_⟩
    change 0 * 2 ^ 60 + (t side).recv.n.toNat = 0 * 2 ^ 60 + (t side.other).send.n.toNat
    rw [hrecv]

end Lanes

section Runs

variable {key : Role → CipherKey} {t : Role → TransportState}
  {tr : List (DuplexEvent × Duplex)} {l : DuplexEvent × Duplex} {d d' : Duplex}

theorem sentCiphers_snoc (side : Role) (tr : List (DuplexEvent × Duplex))
    (l : DuplexEvent × Duplex) : sentCiphers side (tr ++ [l]) = sentCiphers side tr ++
      if l.1.sender = some side then [(l.2.endpoint side).transport.send] else [] := by
  unfold sentCiphers
  by_cases h : l.1.sender = some side <;> simp [h]

theorem receivedCiphers_snoc (side : Role) (tr : List (DuplexEvent × Duplex))
    (l : DuplexEvent × Duplex) : receivedCiphers side (tr ++ [l]) = receivedCiphers side tr ++
      if l.1.receiver = some side then [(l.2.endpoint side).transport.recv] else [] := by
  unfold receivedCiphers
  by_cases h : l.1.receiver = some side <;> simp [h]

/-- The ciphers a receiver will have after the frames on their way to it. -/
def ahead (X : External) (key : Role → CipherKey) (d : Duplex) (side : Role) :
    List CipherState :=
  (List.range' ((d.endpoint side).recvIndex + 1) (d.inbox side).length).map
    (cipherAt X (key side.other))

/-- The invariant of a half-duplex run: what a sender has had is what the receiver has had,
then what is ahead of it. -/
structure Following (X : External) (key : Role → CipherKey) (tr : List (DuplexEvent × Duplex))
    (d : Duplex) : Prop where
  inOrder : InOrder X key d
  accepted : ∀ side p r, .delivered side p r ∈ tr.map Prod.fst → r = some p
  ciphers : ∀ side, sentCiphers side.other tr = receivedCiphers side tr ++ ahead X key d side

/-- Encrypting puts one more cipher ahead of the receiver. -/
theorem Following.sent (h : Following X key tr d) {side : Role} {p : Bytes}
    (hempty : d.inbox side = []) (hstep : DuplexStep X d (.sent side p) d') (s : Role) :
    sentCiphers s.other (tr ++ [(.sent side p, d')]) =
      receivedCiphers s (tr ++ [(.sent side p, d')]) ++ ahead X key d' s := by
  obtain ⟨hsent, hother, hinbox, hmail⟩ := h.inOrder.sent_state hstep
  have hready := h.inOrder.ready side
  have hreceived : receivedCiphers s (tr ++ [(.sent side p, d')]) = receivedCiphers s tr := by
    rw [receivedCiphers_snoc, if_neg (fun hnone => by cases hnone), List.append_nil]
  rw [hreceived, sentCiphers_snoc]
  obtain rfl | rfl := eq_or_other side s
  · -- nothing is on its way to the sender
    have hnot : ¬ (DuplexEvent.sent s p).sender = some s.other :=
      fun heq => other_ne s (Option.some.inj heq).symm
    have hlength : (d'.inbox s).length = 0 := by rw [hinbox, hempty]; rfl
    rw [if_neg hnot, List.append_nil, h.ciphers, ahead, ahead, hempty, hlength]
    simp only [List.length_nil, List.range'_zero, List.map_nil]
  · have hboth : (DuplexEvent.sent side p).sender = some side.other.other :=
      congrArg some (Role.other_other side).symm
    have hlane := (h.inOrder.back side)
    have hkeeps := (h.inOrder.keepsStep hempty p).1
    have hcount : (d.endpoint side.other).recvIndex + (d.inbox side.other).length =
        (d.endpoint side).sendIndex := by
      obtain ⟨_, hflight⟩ | ⟨hlt, _⟩ := hlane
      · exact hflight.length_eq
      · exact absurd hkeeps (Nat.not_le.mpr hlt)
    have hindex : ((d.endpoint side).sent X).sendIndex =
        (d.endpoint side.other).recvIndex + 1 + (d.inbox side.other).length := by
      have hnext := hready.sent_index.1
      omega
    have hcipher : (d'.endpoint side.other.other).transport.send = cipherAt X (key side)
        ((d.endpoint side.other).recvIndex + 1 + (d.inbox side.other).length) :=
      calc (d'.endpoint side.other.other).transport.send =
          ((d.endpoint side).sent X).transport.send := by rw [Role.other_other, hsent]
        _ = cipherAt X (key side) ((d.endpoint side).sent X).sendIndex :=
          hready.sent.1.send_cipher
        _ = cipherAt X (key side) _ := by rw [hindex]
    rw [if_pos hboth, h.ciphers, hcipher, ahead, ahead, hother, hmail, List.length_append,
      List.length_singleton, List.range'_1_concat, List.map_append, List.append_assoc,
      Role.other_other, List.map_singleton]

/-- A delivery gives the receiver the cipher that was next. -/
theorem Following.delivered (h : Following X key tr d) (haead : X.AeadRoundTrip) {side : Role}
    {p : Bytes} {r : Option Bytes} (hstep : DuplexStep X d (.delivered side p r) d') (s : Role) :
    sentCiphers s.other (tr ++ [(.delivered side p r, d')]) =
      receivedCiphers s (tr ++ [(.delivered side p r, d')]) ++ ahead X key d' s := by
  obtain ⟨_, hreceived, hother, hmail, frame, hinbox⟩ := h.inOrder.delivered_state haead hstep
  have hready := h.inOrder.ready side
  have hsent : sentCiphers s.other (tr ++ [(.delivered side p r, d')]) =
      sentCiphers s.other tr := by
    rw [sentCiphers_snoc, if_neg (fun hnone => by cases hnone), List.append_nil]
  rw [hsent, receivedCiphers_snoc, h.ciphers]
  obtain rfl | rfl := eq_or_other side s
  · have hcipher : (d'.endpoint s).transport.recv =
        cipherAt X (key s.other) ((d.endpoint s).recvIndex + 1) :=
      calc (d'.endpoint s).transport.recv = ((d.endpoint s).received X).transport.recv := by
            rw [hreceived]
        _ = cipherAt X (key s.other) ((d.endpoint s).received X).recvIndex :=
          hready.received.1.recv_cipher
        _ = cipherAt X (key s.other) _ := by rw [hready.received_index.1]
    have hboth : (DuplexEvent.delivered s p r).receiver = some s := rfl
    rw [if_pos hboth, hcipher, ahead, ahead, hinbox, List.length_cons, List.range'_succ,
      List.map_cons, hreceived, hready.received_index.1, List.append_assoc,
      List.singleton_append]
  · have hnot : ¬ (DuplexEvent.delivered side p r).receiver = some side.other :=
      fun heq => other_ne side (Option.some.inj heq).symm
    rw [if_neg hnot, List.append_nil, ahead, ahead, hother, hmail]

theorem Following.step (h : Following X key tr d) (haead : X.AeadRoundTrip)
    (hstep : HalfDuplexStep X d l d') : Following X key (tr ++ [l]) d' := by
  obtain ⟨ev, d₁⟩ := l
  obtain ⟨hempty, hstep, heq⟩ := hstep
  obtain rfl : d₁ = d' := heq
  cases ev with
  | sent side p =>
      have hidle := hempty side rfl
      refine ⟨h.inOrder.sent (h.inOrder.keepsStep hidle p) hstep, ?_, h.sent hidle hstep⟩
      intro s q r hmem
      rw [List.map_append] at hmem
      cases List.mem_append.mp hmem with
      | inl hpast => exact h.accepted s q r hpast
      | inr hlast => cases List.mem_singleton.mp hlast
  | delivered side p r =>
      obtain ⟨hopens, hnext⟩ := h.inOrder.delivered haead hstep
      refine ⟨hnext, ?_, h.delivered haead hstep⟩
      intro s q r' hmem
      rw [List.map_append] at hmem
      cases List.mem_append.mp hmem with
      | inl hpast => exact h.accepted s q r' hpast
      | inr hlast =>
          obtain ⟨rfl, rfl, rfl⟩ := DuplexEvent.delivered.inj (List.mem_singleton.mp hlast)
          exact hopens

theorem Following.start (h : Crossed t) :
    Following X (fun side => (t side).send.k) [] (Duplex.opened t) where
  inOrder := InOrder.opened h
  accepted _ _ _ hmem := by cases hmem
  ciphers _ := rfl

/-- The invariant holds after every half-duplex run. -/
theorem following_of_run (haead : X.AeadRoundTrip) (h : Crossed t)
    (run : Run (HalfDuplexStep X) (Duplex.opened t) tr d) :
    Following X (fun side => (t side).send.k) tr d := by
  have hend : Following X (fun side => (t side).send.k) ([] ++ tr) d :=
    run.history (fun _ _ _ _ h hstep => h.step haead hstep) (Following.start h)
  exact hend

/-- A ready endpoint holds the initial keys, moved on once for each of its rekeys. -/
theorem Following.rotated (h : Following X (fun side => (t side).send.k) tr d) (ht : Crossed t)
    (side : Role) :
    Rotated X (t side) (d.endpoint side).generation (d.endpoint side).transport := by
  have hready := h.inOrder.ready side
  have hkeyed := ht.keyed side.other
  rw [ht.mirrored, Role.other_other] at hkeyed
  have hkey : (t side).recv.k = (t side.other).send.k := by
    rw [ht.mirrored side.other, Role.other_other]
  constructor
  · rw [rekey_iterate (ht.keyed side), hready.send]
  · rw [rekey_iterate hkeyed, hkey, hready.recv]

/-- In every half-duplex run the receiver follows the sender frame by frame, and the two ends
mirror each other whenever nothing is in flight. -/
theorem half_duplex_mirrors (haead : X.AeadRoundTrip) (ht : Crossed t)
    (run : Run (HalfDuplexStep X) (Duplex.opened t) tr d) : Mirrors X t tr d := by
  have h := following_of_run haead ht run
  constructor
  · intro side p hempty
    exact ⟨_, _, (h.inOrder.ready side).encrypt p⟩
  · exact ⟨h.accepted, fun side f rest hinbox => h.inOrder.next haead side hinbox⟩
  · intro side
    rw [h.ciphers side]
    exact List.prefix_append _ _
  · intro hempty side
    obtain ⟨hgeneration, hmirror⟩ := h.inOrder.quiescent hempty side
    exact ⟨hgeneration, hmirror, h.rotated ht side⟩

/-- Transports one frame short of a rekey in both directions. -/
def smallTransport (_ : Role) : TransportState where
  send := ⟨Miniature.secretKey 1, REKEY_INTERVAL - 1, true⟩
  recv := ⟨Miniature.secretKey 1, REKEY_INTERVAL - 1, true⟩

/-- One frame rekeys the initiator, and on arrival the responder. -/
theorem half_duplex_mirrors_small : ∃ tr d, tr.length = 2 ∧
    (d.endpoint .responder).generation = 1 ∧
    Mirrors Miniature.external smallTransport tr d := by
  have ht : Crossed smallTransport := by
    constructor
    · exact fun _ => rfl
    · exact fun _ => rfl
    · have hbelow : REKEY_INTERVAL - 1 < REKEY_INTERVAL := by decide
      exact fun _ => hbelow
  have hstart := Following.start (X := Miniature.external) ht
  have hsent : DuplexStep Miniature.external (Duplex.opened smallTransport)
      (.sent .initiator [7]) _ := ⟨_, _, (hstart.inOrder.ready .initiator).encrypt [7], rfl⟩
  have hfirst : HalfDuplexStep Miniature.external (Duplex.opened smallTransport)
      (.sent .initiator [7], _) _ := ⟨fun _ _ => rfl, hsent, rfl⟩
  have hnext := hstart.step Miniature.external_aeadRoundTrip hfirst
  have hlane := hnext.inOrder.lane .responder
  have hopen := hlane.opens Miniature.external_aeadRoundTrip (hnext.inOrder.ready .responder)
  have hdelivered : DuplexStep Miniature.external _ (.delivered .responder [7] (some [7])) _ :=
    ⟨_, _, _, rfl, hopen, rfl⟩
  have hsecond : HalfDuplexStep Miniature.external _
      (.delivered .responder [7] (some [7]), _) _ := ⟨(fun _ h => by cases h), hdelivered, rfl⟩
  have hlaws := half_duplex_mirrors Miniature.external_aeadRoundTrip ht
    (Run.cons hfirst (Run.single hsecond))
  exact ⟨_, _, rfl, by decide +kernel, hlaws⟩

end Runs

end SecurityNoise
