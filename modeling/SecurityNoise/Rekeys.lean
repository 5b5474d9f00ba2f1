import SecurityNoise.Stream

/-!
# Explicit rekeys between two endpoints

The peer of an end that rekeys is expected to rekey at the same point of its own counters. Two
ends connected by reliable queues do so without stopping the traffic that is on its way to the
end that rekeys second: an end rekeys with nothing on its way to it, the other drains what was
sent before and rekeys too, and nothing is encrypted in between. Automatic rekeys may fall into
the same run.

## Implementation notes

The state counts the explicit rekeys of each end, only for the condition. While the counts
differ, the lane from the end that is ahead ends where its counter stood before the rekey.
-/

namespace SecurityNoise

open Framework (Role)

variable {X : External}

section Statement

/-- One side with another endpoint. -/
def Duplex.withEndpoint (d : Duplex) (side : Role) (e : Endpoint) : Duplex :=
  { d with endpoint := Function.update d.endpoint side e }

/-- Two endpoints, the frames between them, and the explicit rekeys of each. -/
structure RekeyDuplex extends Duplex where
  rekeys : Role → Nat

/-- A frame was sent or delivered, or a side rekeyed. -/
inductive RekeyEvent
  | exchanged (ev : DuplexEvent)
  | rekeyed (side : Role)

def RekeyStep (X : External) (d : RekeyDuplex) (ev : RekeyEvent) (d' : RekeyDuplex) : Prop :=
  match ev with
  | .exchanged ev => DuplexStep X d.toDuplex ev d'.toDuplex ∧ d'.rekeys = d.rekeys
  | .rekeyed side => ∃ e, (d.endpoint side).call X .rekey = .ok (none, e) ∧
      d' = ⟨d.withEndpoint side e, Function.update d.rekeys side (d.rekeys side + 1)⟩

/-- A side rekeys when nothing is on its way to it and it is no explicit rekey ahead; nothing is
sent before the other has rekeyed too. -/
def RekeysTogether (d : RekeyDuplex) (ev : RekeyEvent) : Prop :=
  match ev with
  | .exchanged ev => KeepsStep d.toDuplex ev ∧
      ∀ side, ev.sender = some side → d.rekeys side = d.rekeys side.other
  | .rekeyed side => d.inbox side = [] ∧ d.rekeys side ≤ d.rekeys side.other

/-- Crossed keys, zero nonces, nothing in flight and no rekey. -/
def RekeyDuplex.start (key : Role → CipherKey) : RekeyDuplex := ⟨Duplex.start key, fun _ => 0⟩

/-- What holds after a run. -/
structure RekeyDelivers (X : External) (tr : List RekeyEvent) (d : RekeyDuplex) : Prop where
  delivered : ∀ side p r, .exchanged (.delivered side p r) ∈ tr → r = some p
  next : ∀ side f rest, d.inbox side = f :: rest →
    ∃ e, (d.endpoint side).call X (.decrypt f.frame) = .ok (some f.plaintext, e)
  /-- At rest, with as many explicit rekeys on both sides, the ciphers mirror each other. -/
  mirrored : ∀ side, d.rekeys side = d.rekeys side.other → (∀ s, d.inbox s = []) →
    (d.endpoint side).transport.send = (d.endpoint side.other).transport.recv

end Statement

section Pausing

variable {key : Role → CipherKey} {d d' : Duplex} {side : Role}

/-- A frame in flight opens where it is expected. -/
theorem InFlight.opens {k k' : CipherKey} {e : Endpoint} {f : Flight} {rest : List Flight}
    {j : Nat} (h : InFlight X k e.recvIndex (f :: rest) j) (haead : X.AeadRoundTrip)
    (hready : Ready X k' k e) :
    e.call X (.decrypt f.frame) = .ok (some f.plaintext, e.received X) := by
  apply hready.opens
  have hframe := frameAt_index (X := X) k e.generation ((below_iff _).mp hready.recvBelow)
    f.plaintext
  rw [h.1, Endpoint.recvIndex, hframe, haead]

/-- A side has rekeyed, and the other still receives what was sent before. -/
structure Paused (X : External) (key : Role → CipherKey) (side : Role) (d : Duplex) : Prop where
  ready : ∀ s, Ready X (key s) (key s.other) (d.endpoint s)
  empty : d.inbox side = []
  zero : (d.endpoint side).transport.send.n = 0 ∧ (d.endpoint side).transport.recv.n = 0
  pending : ∃ j, InFlight X (key side) (d.endpoint side.other).recvIndex (d.inbox side.other) j ∧
    (d.endpoint side).generation = j / 2 ^ 60 + 1

/-- A side towards which nothing is on its way is not behind. -/
theorem InOrder.not_behind (h : InOrder X key d) (hempty : d.inbox side = []) :
    (d.endpoint side.other).generation ≤ (d.endpoint side).generation := by
  have hlane := h.lane side
  rw [hempty] at hlane
  obtain ⟨_, hindex⟩ | ⟨hlt, _⟩ := hlane
  · have hown := (below_iff _).mp (h.ready side).recvBelow
    have hpeer := (below_iff _).mp (h.readyOther side).sendBelow
    change (d.endpoint side).recvIndex = (d.endpoint side.other).sendIndex at hindex
    unfold Endpoint.recvIndex Endpoint.sendIndex at hindex
    omega
  · exact hlt.le

/-- The sides of a duplex in which one has paused. -/
theorem Paused.of_sides {e e' : Endpoint} {j : Nat} (hside : d.endpoint side = e)
    (hother : d.endpoint side.other = e') (hready : Ready X (key side) (key side.other) e)
    (hready' : Ready X (key side.other) (key side) e') (hempty : d.inbox side = [])
    (hzero : e.transport.send.n = 0 ∧ e.transport.recv.n = 0)
    (hflight : InFlight X (key side) e'.recvIndex (d.inbox side.other) j)
    (hgeneration : e.generation = j / 2 ^ 60 + 1) : Paused X key side d where
  ready s := by
    obtain rfl | rfl := eq_or_other side s
    · rwa [hside]
    · rwa [hother, Role.other_other]
  empty := hempty
  zero := by rwa [hside]
  pending := by
    rw [hside, hother]
    exact ⟨j, hflight, hgeneration⟩

theorem Paused.readyOther (h : Paused X key side d) :
    Ready X (key side.other) (key side) (d.endpoint side.other) := by
  have hready := h.ready side.other
  rwa [Role.other_other] at hready

/-- Where nothing is on its way to a side, it may rekey. -/
theorem InOrder.paused (h : InOrder X key d) (hempty : d.inbox side = []) :
    Paused X key side (d.withEndpoint side ((d.endpoint side).rekeyed X)) := by
  obtain ⟨_, hflight⟩ | ⟨hlt, _⟩ := h.back side
  · have hready := h.ready side
    apply Paused.of_sides (Function.update_self ..) (Function.update_of_ne (other_ne side) ..)
    · exact hready.toKeyed.rekeyed
    · exact h.readyOther side
    · exact hempty
    · exact ⟨rfl, rfl⟩
    · exact hflight
    · rw [hready.sendIndex_div]
      rfl
  · exact absurd hlt (Nat.not_lt.mpr (h.not_behind hempty))

/-- The side that is behind receives what was sent before the rekey. -/
theorem Paused.delivered (h : Paused X key side d) (haead : X.AeadRoundTrip) {s : Role}
    {p : Bytes} {r : Option Bytes} (hstep : DuplexStep X d (.delivered s p r) d') :
    r = some p ∧ Paused X key side d' := by
  obtain ⟨frame, rest, e, hinbox, hcall, rfl⟩ := hstep
  obtain rfl | rfl := eq_or_other side s
  · rw [h.empty] at hinbox
    cases hinbox
  · obtain ⟨j, hflight, hgeneration⟩ := h.pending
    have hready := h.readyOther
    rw [hinbox] at hflight
    rw [hflight.opens haead hready] at hcall
    obtain ⟨hr, rfl⟩ := Prod.mk.inj (Except.ok.inj hcall)
    refine ⟨hr.symm, ?_⟩
    apply Paused.of_sides (Function.update_of_ne (other_ne side).symm ..) (Function.update_self ..)
    · exact h.ready side
    · exact hready.received.1
    · exact (Function.update_of_ne (other_ne side).symm ..).trans h.empty
    · exact h.zero
    · change InFlight X _ _ (Function.update d.inbox side.other rest side.other) j
      rw [hready.received_index.1, Function.update_self]
      exact hflight.2
    · exact hgeneration

/-- Ends at the start of one generation are in order. -/
theorem InOrder.of_empty {g : Nat} (hready : ∀ s, Ready X (key s) (key s.other) (d.endpoint s))
    (hempty : ∀ s, d.inbox s = []) (hstart : ∀ s, (d.endpoint s).generation = g ∧
      (d.endpoint s).transport.send.n = 0 ∧ (d.endpoint s).transport.recv.n = 0) :
    InOrder X key d where
  ready := hready
  lane s := by
    obtain ⟨hown, _, hrecv⟩ := hstart s
    obtain ⟨hpeer, hsend, _⟩ := hstart s.other
    left
    rw [hempty, Endpoint.recvIndex, Endpoint.sendIndex, hown, hpeer, hrecv, hsend]
    exact ⟨Nat.le_refl g, rfl⟩

/-- When the other side has received everything and rekeys too, both are in order again. -/
theorem Paused.resumed (h : Paused X key side d) (hempty : d.inbox side.other = []) :
    InOrder X key (d.withEndpoint side.other ((d.endpoint side.other).rekeyed X)) := by
  obtain ⟨j, hflight, hgeneration⟩ := h.pending
  rw [hempty] at hflight
  have hready := h.readyOther
  have hsame : (d.endpoint side.other).generation + 1 = (d.endpoint side).generation := by
    have hbelow := (below_iff _).mp hready.recvBelow
    change (d.endpoint side.other).recvIndex = j at hflight
    unfold Endpoint.recvIndex at hflight
    omega
  apply InOrder.of_empty
  · apply (Function.forall_update_iff d.endpoint fun s e => Ready X (key s) (key s.other) e).mpr
    exact ⟨(h.ready side.other).toKeyed.rekeyed, fun s _ => h.ready s⟩
  · intro s
    obtain rfl | rfl := eq_or_other side s
    · exact h.empty
    · exact hempty
  · apply (Function.forall_update_iff d.endpoint fun _ e =>
      e.generation = (d.endpoint side).generation ∧ e.transport.send.n = 0 ∧
        e.transport.recv.n = 0).mpr
    refine ⟨⟨hsame, rfl, rfl⟩, ?_⟩
    intro s hne
    obtain rfl | rfl := eq_or_other side s
    · exact ⟨rfl, h.zero⟩
    · exact absurd rfl hne

/-- A frame on its way opens while a side has paused. -/
theorem Paused.next (h : Paused X key side d) (haead : X.AeadRoundTrip) {s : Role} {f : Flight}
    {rest : List Flight} (hinbox : d.inbox s = f :: rest) :
    ∃ e, (d.endpoint s).call X (.decrypt f.frame) = .ok (some f.plaintext, e) := by
  obtain rfl | rfl := eq_or_other side s
  · rw [h.empty] at hinbox
    cases hinbox
  · obtain ⟨j, hflight, _⟩ := h.pending
    rw [hinbox] at hflight
    exact ⟨_, hflight.opens haead h.readyOther⟩

/-- In order and with nothing in flight, the ciphers of a direction are equal. -/
theorem InOrder.mirrored (h : InOrder X key d) (hempty : ∀ s, d.inbox s = []) (side : Role) :
    (d.endpoint side).transport.send = (d.endpoint side.other).transport.recv := by
  have hle := h.not_behind (hempty side)
  obtain ⟨_, hflight⟩ | ⟨hlt, _⟩ := h.back side
  · rw [hempty] at hflight
    have hindex : (d.endpoint side.other).recvIndex = (d.endpoint side).sendIndex := hflight
    rw [(h.ready side).send_cipher, (h.readyOther side).recv_cipher, hindex]
  · exact absurd hlt (Nat.not_lt.mpr hle)

end Pausing

section Rekeying

variable {key : Role → CipherKey} {d d' : RekeyDuplex} {ev : RekeyEvent}
  {tr : List RekeyEvent}

/-- The invariant: with as many explicit rekeys on both sides the lanes are in order, else one
side has paused. -/
def Rekeying (X : External) (key : Role → CipherKey) (d : RekeyDuplex) : Prop :=
  ((∀ side, d.rekeys side = d.rekeys side.other) ∧ InOrder X key d.toDuplex) ∨
    ∃ side, d.rekeys side = d.rekeys side.other + 1 ∧ Paused X key side d.toDuplex

/-- Sends and deliveries, in order or while one side has paused. -/
theorem Rekeying.exchanged (h : Rekeying X key d) (haead : X.AeadRoundTrip) {ev : DuplexEvent}
    (hguard : RekeysTogether d (.exchanged ev)) (hstep : RekeyStep X d (.exchanged ev) d') :
    Rekeying X key d' ∧ ∀ side p r, ev = .delivered side p r → r = some p := by
  obtain ⟨hkeeps, htogether⟩ := hguard
  obtain ⟨hstep, hrekeys⟩ := hstep
  unfold Rekeying
  rw [hrekeys]
  obtain ⟨heven, horder⟩ | ⟨side, hahead, hpaused⟩ := h
  · obtain ⟨hnext, hresult⟩ := horder.step haead ⟨hkeeps, hstep⟩
    exact ⟨Or.inl ⟨heven, hnext⟩, hresult⟩
  · cases ev with
    | sent s p =>
        have hs := htogether s rfl
        obtain rfl | rfl := eq_or_other side s
        · omega
        · rw [Role.other_other] at hs
          omega
    | delivered s p r =>
        obtain ⟨hr, hnext⟩ := hpaused.delivered haead hstep
        refine ⟨Or.inr ⟨side, hahead, hnext⟩, ?_⟩
        rintro _ _ _ ⟨⟩
        exact hr

/-- The first explicit rekey of a pair pauses its side, the second puts both in order. -/
theorem Rekeying.rekeyed (h : Rekeying X key d) {s : Role}
    (hguard : RekeysTogether d (.rekeyed s)) (hstep : RekeyStep X d (.rekeyed s) d') :
    Rekeying X key d' := by
  obtain ⟨hempty, hle⟩ := hguard
  obtain ⟨e, hcall, rfl⟩ := hstep
  obtain ⟨_, rfl⟩ := Prod.mk.inj (Except.ok.inj hcall)
  obtain ⟨heven, horder⟩ | ⟨side, hahead, hpaused⟩ := h
  · right
    refine ⟨s, ?_, horder.paused hempty⟩
    change Function.update d.rekeys s _ s = Function.update d.rekeys s _ s.other + 1
    rw [Function.update_self, Function.update_of_ne (other_ne s), heven s]
  · obtain rfl | rfl := eq_or_other side s
    · omega
    · left
      refine ⟨?_, hpaused.resumed hempty⟩
      have hown : Function.update d.rekeys side.other (d.rekeys side.other + 1) side.other =
          d.rekeys side.other + 1 := Function.update_self ..
      have hother : Function.update d.rekeys side.other (d.rekeys side.other + 1) side =
          d.rekeys side := Function.update_of_ne (other_ne side).symm ..
      intro s
      obtain rfl | rfl := eq_or_other side s
      · exact hother.trans (hahead.trans hown.symm)
      · rw [Role.other_other]
        exact hown.trans (hahead.symm.trans hother.symm)

theorem Rekeying.step (h : Rekeying X key d) (haead : X.AeadRoundTrip)
    (hstep : Guarded RekeysTogether (RekeyStep X) d ev d') :
    Rekeying X key d' ∧ ∀ side p r, ev = .exchanged (.delivered side p r) → r = some p := by
  obtain ⟨hguard, hstep⟩ := hstep
  cases ev with
  | exchanged ev =>
      obtain ⟨hnext, hresult⟩ := h.exchanged haead hguard hstep
      refine ⟨hnext, ?_⟩
      rintro side p r ⟨⟩
      exact hresult side p r rfl
  | rekeyed s =>
      refine ⟨h.rekeyed hguard hstep, ?_⟩
      rintro _ _ _ ⟨⟩

/-- Explicit rekeys, made in pairs and each with nothing on its way to its side, lose no frame,
and leave the ends mirrored. -/
theorem rekeys_deliver (haead : X.AeadRoundTrip) (key : Role → CipherKey)
    (run : Run (Guarded RekeysTogether (RekeyStep X)) (RekeyDuplex.start key) tr d) :
    RekeyDelivers X tr d := by
  have hstart : Rekeying X key (RekeyDuplex.start key) :=
    Or.inl ⟨fun _ => rfl, InOrder.start X key⟩
  have hend : Rekeying X key d := by
    refine run.invariant ?_ hstart
    intro d ev d' h hstep
    exact (h.step haead hstep).1
  have hlabels := run.forall_labels (fun _ _ _ h hstep => Rekeying.step h haead hstep) hstart
  constructor
  · intro side p r hmem
    exact hlabels _ hmem side p r rfl
  · intro side f rest hinbox
    obtain ⟨_, horder⟩ | ⟨_, _, hpaused⟩ := hend
    · exact horder.next haead side hinbox
    · exact hpaused.next haead hinbox
  · intro side heven hempty
    obtain ⟨_, horder⟩ | ⟨s, hahead, _⟩ := hend
    · exact horder.mirrored hempty side
    · obtain rfl | rfl := eq_or_other side s
      · omega
      · rw [Role.other_other] at hahead
        omega

/-- The initiator sends a frame and rekeys before it arrives; the responder follows. -/
theorem rekeys_deliver_small : ∃ tr d, RekeyDelivers Miniature.external tr d ∧
    tr = [.exchanged (.sent .initiator [7]), .rekeyed .initiator,
      .exchanged (.delivered .responder [7] (some [7])), .rekeyed .responder] := by
  let key : Role → CipherKey := fun _ => Miniature.secretKey 1
  let frame := Miniature.external.aeadEncrypt (Miniature.secretKey 1) (encodeNonce 0) [] [7]
  let start := RekeyDuplex.start key
  have hready := (InOrder.start Miniature.external key).ready
  let d₁ : RekeyDuplex :=
    { endpoint := Function.update start.endpoint .initiator
        ((start.endpoint .initiator).sent Miniature.external)
      inbox := Function.update start.inbox .responder [⟨[7], frame⟩]
      rekeys := start.rekeys }
  let d₂ : RekeyDuplex :=
    ⟨d₁.withEndpoint .initiator ((d₁.endpoint .initiator).rekeyed Miniature.external),
      Function.update d₁.rekeys .initiator 1⟩
  let d₃ : RekeyDuplex :=
    { endpoint := Function.update d₂.endpoint .responder
        ((d₂.endpoint .responder).received Miniature.external)
      inbox := Function.update d₂.inbox .responder []
      rekeys := d₂.rekeys }
  have hsent : Guarded RekeysTogether (RekeyStep Miniature.external) start
      (.exchanged (.sent .initiator [7])) d₁ :=
    ⟨⟨⟨Nat.le_refl _, fun _ => rfl⟩, fun _ _ => rfl⟩,
      ⟨frame, _, (hready .initiator).encrypt [7], rfl⟩, rfl⟩
  have hfirst : Guarded RekeysTogether (RekeyStep Miniature.external) d₁
      (.rekeyed .initiator) d₂ := ⟨⟨rfl, Nat.le_refl _⟩, _, rfl, rfl⟩
  have hopens := @Ready.opens _ _ _ _ (hready .responder) frame [7]
    (Miniature.external_aeadRoundTrip ..)
  have hdelivered : Guarded RekeysTogether (RekeyStep Miniature.external) d₂
      (.exchanged (.delivered .responder [7] (some [7]))) d₃ :=
    ⟨⟨trivial, fun _ h => by cases h⟩, ⟨frame, [], _, rfl, hopens, rfl⟩, rfl⟩
  have hsecond : Guarded RekeysTogether (RekeyStep Miniature.external) d₃
      (.rekeyed .responder) _ := ⟨⟨rfl, Nat.zero_le _⟩, _, rfl, rfl⟩
  have hlaws := rekeys_deliver Miniature.external_aeadRoundTrip key
    (Run.cons hsent (Run.cons hfirst (Run.cons hdelivered (Run.single hsecond))))
  exact ⟨_, _, hlaws, rfl⟩

end Rekeying

end SecurityNoise
