import SecurityNoise.Foundation.Runs
import SecurityNoise.Framework.Interpreter
import SecurityNoise.Generations
import SecurityNoise.Miniature

/-!
# Two endpoints and the frames between them

Both ends encrypt and rekey as the provider does, and two reliable queues carry the frames
in order. A rekey rotates both directions at once, but is triggered by either counter, so
an end that rekeys can no longer open the frames already on their way to it. Frames are
delivered intact as long as no end rekeys over frames in flight and none encrypts while it
is a rekey behind.

## Implementation notes

A frame's index counts the frames of its direction over all generations. A lane holds
consecutive indices between its two ends, or its sender is behind and the lane is empty.
-/

namespace SecurityNoise

open Framework (Role)

variable {X : External}

section Statement

/-- A frame on its way, and the plaintext it was made from. -/
structure Flight where
  plaintext : Bytes
  frame : Bytes

/-- Two endpoints, and for each the frames on their way to it, the next one first. -/
structure Duplex where
  endpoint : Role → Endpoint
  inbox : Role → List Flight

/-- Crossed keys, zero nonces and nothing in flight. -/
def Duplex.start (key : Role → CipherKey) : Duplex where
  endpoint side := Endpoint.start (key side) (key side.other)
  inbox _ := []

/-- A frame was sent, or one was delivered with the result of its decryption. -/
inductive DuplexEvent
  | sent (side : Role) (plaintext : Bytes)
  | delivered (side : Role) (plaintext : Bytes) (result : Option Bytes)

def DuplexStep (X : External) (d : Duplex) (ev : DuplexEvent) (d' : Duplex) : Prop :=
  match ev with
  | .sent side p => ∃ frame e, (d.endpoint side).call X (.encrypt p) = .ok (some frame, e) ∧
      d' = { endpoint := Function.update d.endpoint side e
             inbox := Function.update d.inbox side.other (d.inbox side.other ++ [⟨p, frame⟩]) }
  | .delivered side p r => ∃ frame rest e, d.inbox side = ⟨p, frame⟩ :: rest ∧
      (d.endpoint side).call X (.decrypt frame) = .ok (r, e) ∧
      d' = { endpoint := Function.update d.endpoint side e
             inbox := Function.update d.inbox side rest }

/-- The side that sent a frame. -/
def DuplexEvent.sender : DuplexEvent → Option Role
  | .sent side _ => some side
  | .delivered _ _ _ => none

/-- The side that a frame was delivered to. -/
def DuplexEvent.receiver : DuplexEvent → Option Role
  | .sent _ _ => none
  | .delivered side _ _ => some side

/-- Every frame delivered so far decrypted to its plaintext, and so does the next frame of
either side. -/
structure Delivers (X : External) (tr : List DuplexEvent) (d : Duplex) : Prop where
  delivered : ∀ side p r, .delivered side p r ∈ tr → r = some p
  next : ∀ side f rest, d.inbox side = f :: rest →
    ∃ e, (d.endpoint side).call X (.decrypt f.frame) = .ok (some f.plaintext, e)

/-- A side encrypts only while it is no rekey behind the other, and encrypts the frame that
makes it rekey only when no frame is on its way to it. -/
def KeepsStep (d : Duplex) (ev : DuplexEvent) : Prop :=
  match ev with
  | .sent side _ => (d.endpoint side.other).generation ≤ (d.endpoint side).generation ∧
      ((d.endpoint side).transport.send.n + 1 = REKEY_INTERVAL → d.inbox side = [])
  | .delivered _ _ _ => True

end Statement

section Lanes

/-- The number of frames an endpoint has sent over all generations. -/
def Endpoint.sendIndex (e : Endpoint) : Nat :=
  e.generation * 2 ^ 60 + e.transport.send.n.toNat

/-- The index of the frame an endpoint can open next. -/
def Endpoint.recvIndex (e : Endpoint) : Nat :=
  e.generation * 2 ^ 60 + e.transport.recv.n.toNat

/-- The frame of an index: its generation's key and its counter. -/
def frameAt (X : External) (k : CipherKey) (i : Nat) (p : Bytes) : Bytes :=
  X.aeadEncrypt (generationKey X k (i / 2 ^ 60)) (encodeNonce (UInt64.ofNat (i % 2 ^ 60))) [] p

theorem frameAt_index (k : CipherKey) (g : Nat) {n : UInt64} (h : n.toNat < 2 ^ 60)
    (p : Bytes) : frameAt X k (g * 2 ^ 60 + n.toNat) p =
      X.aeadEncrypt (generationKey X k g) (encodeNonce n) [] p := by
  have hdiv : (g * 2 ^ 60 + n.toNat) / 2 ^ 60 = g := by omega
  have hmod : (g * 2 ^ 60 + n.toNat) % 2 ^ 60 = n.toNat := by omega
  rw [frameAt, hdiv, hmod, UInt64.ofNat_toNat]

/-- The cipher of a direction when the next frame has index `i`. -/
def cipherAt (X : External) (k : CipherKey) (i : Nat) : CipherState :=
  ⟨generationKey X k (i / 2 ^ 60), UInt64.ofNat (i % 2 ^ 60), true⟩

theorem cipherAt_index (k : CipherKey) (g : Nat) {n : UInt64} (h : n < REKEY_INTERVAL) :
    cipherAt X k (g * 2 ^ 60 + n.toNat) = ⟨generationKey X k g, n, true⟩ := by
  have hlt := (below_iff n).mp h
  have hdiv : (g * 2 ^ 60 + n.toNat) / 2 ^ 60 = g := by omega
  have hmod : (g * 2 ^ 60 + n.toNat) % 2 ^ 60 = n.toNat := by omega
  rw [cipherAt, hdiv, hmod, UInt64.ofNat_toNat]

/-- The frames in flight are those from index `i` on, up to `j`. -/
def InFlight (X : External) (k : CipherKey) : Nat → List Flight → Nat → Prop
  | i, [], j => i = j
  | i, f :: fs, j => f.frame = frameAt X k i f.plaintext ∧ InFlight X k (i + 1) fs j

variable {k : CipherKey} {i j : Nat} {fs : List Flight}

theorem InFlight.le (h : InFlight X k i fs j) : i ≤ j := by
  induction fs generalizing i with
  | nil => exact Nat.le_of_eq h
  | cons f fs ih => exact Nat.le_of_succ_le (ih h.2)

theorem InFlight.length_eq (h : InFlight X k i fs j) : i + fs.length = j := by
  induction fs generalizing i with
  | nil => exact h
  | cons f fs ih =>
      have hrest := ih h.2
      rw [List.length_cons]
      omega

/-- The next frame joins the end. -/
theorem InFlight.append (h : InFlight X k i fs j) (p : Bytes) :
    InFlight X k i (fs ++ [⟨p, frameAt X k j p⟩]) (j + 1) := by
  induction fs generalizing i with
  | nil =>
      obtain rfl : i = j := h
      exact ⟨rfl, rfl⟩
  | cons f fs ih => exact ⟨h.1, ih h.2⟩

/-- The frames from a sender to a receiver: consecutive, or none while the sender is
behind. -/
def Lane (X : External) (k : CipherKey) (sender receiver : Endpoint) (inbox : List Flight) :
    Prop :=
  (receiver.generation ≤ sender.generation ∧
      InFlight X k receiver.recvIndex inbox sender.sendIndex) ∨
    (sender.generation < receiver.generation ∧ inbox = [] ∧ receiver.transport.recv.n = 0)

end Lanes

section Counting

variable {ks kr : CipherKey} {e : Endpoint}

/-- A ready endpoint's ciphers are those of its indices. -/
theorem Ready.send_cipher (h : Ready X ks kr e) :
    e.transport.send = cipherAt X ks e.sendIndex := by
  rw [Endpoint.sendIndex, cipherAt_index ks e.generation h.sendBelow]
  exact h.send

theorem Ready.recv_cipher (h : Ready X ks kr e) :
    e.transport.recv = cipherAt X kr e.recvIndex := by
  rw [Endpoint.recvIndex, cipherAt_index kr e.generation h.recvBelow]
  exact h.recv

/-- Sending a frame: the next index, and the receiving direction as it was, or reset by the
rekey. -/
theorem Ready.sent_index (h : Ready X ks kr e) : (e.sent X).sendIndex = e.sendIndex + 1 ∧
    ((e.transport.send.n + 1 ≠ REKEY_INTERVAL ∧ (e.sent X).generation = e.generation ∧
        (e.sent X).transport.recv.n = e.transport.recv.n) ∨
      (e.transport.send.n + 1 = REKEY_INTERVAL ∧ (e.sent X).generation = e.generation + 1 ∧
        (e.sent X).transport.recv.n = 0)) := by
  have hcounted := h.sent.2
  have hlt := (below_iff _).mp h.sendBelow
  have hsucc := succ_toNat h.sendBelow
  unfold Endpoint.sendIndex
  by_cases hlast : e.transport.send.n.toNat + 1 = 2 ^ 60
  · obtain ⟨hg, hs, hr⟩ := hcounted.last hlast
    refine ⟨?_, Or.inr ⟨?_, hg, hr⟩⟩
    · rw [hg, hs, UInt64.toNat_zero]
      omega
    · apply UInt64.toNat_inj.mp
      rw [hsucc, hlast, rekeyInterval_toNat]
  · obtain ⟨hg, hs, hr⟩ := hcounted.next (by omega)
    refine ⟨?_, Or.inl ⟨?_, hg, hr⟩⟩
    · rw [hg, hs]
      omega
    · intro heq
      rw [heq, rekeyInterval_toNat] at hsucc
      exact hlast hsucc.symm

/-- Receiving a frame, likewise. -/
theorem Ready.received_index (h : Ready X ks kr e) :
    (e.received X).recvIndex = e.recvIndex + 1 ∧
      (((e.received X).generation = e.generation ∧
          (e.received X).transport.send.n = e.transport.send.n) ∨
        (e.recvIndex + 1 = (e.generation + 1) * 2 ^ 60 ∧
          (e.received X).generation = e.generation + 1 ∧
          (e.received X).transport.send.n = 0)) := by
  have hcounted := h.received.2
  have hlt := (below_iff _).mp h.recvBelow
  unfold Endpoint.recvIndex
  by_cases hlast : e.transport.recv.n.toNat + 1 = 2 ^ 60
  · obtain ⟨hg, hr, hs⟩ := hcounted.last hlast
    refine ⟨?_, Or.inr ⟨by omega, hg, hs⟩⟩
    rw [hg, hr, UInt64.toNat_zero]
    omega
  · obtain ⟨hg, hr, hs⟩ := hcounted.next (by omega)
    refine ⟨?_, Or.inl ⟨hg, hs⟩⟩
    rw [hg, hr]
    omega

end Counting

section Lanes

variable {k k' kr : CipherKey} {e other : Endpoint} {inbox rest : List Flight} {f : Flight}

/-- The frame an endpoint encrypts goes to the end of its lane. -/
theorem Lane.send (h : Lane X k e other inbox) (hready : Ready X k kr e)
    (hle : other.generation ≤ e.generation) (p : Bytes) :
    Lane X k (e.sent X) other (inbox ++ [⟨p, X.aeadEncrypt (generationKey X k e.generation)
      (encodeNonce e.transport.send.n) [] p⟩]) := by
  obtain ⟨_, hflight⟩ | ⟨hlt, _⟩ := h
  · obtain ⟨hindex, hgen⟩ := hready.sent_index
    left
    constructor
    · obtain ⟨_, hg, _⟩ | ⟨_, hg, _⟩ := hgen <;> omega
    · rw [hindex, ← frameAt_index k e.generation ((below_iff _).mp hready.sendBelow)]
      exact hflight.append p
  · exact absurd hle (Nat.not_le.mpr hlt)

/-- The lane towards an endpoint that encrypts is empty if the endpoint rekeys. -/
theorem Lane.sentBack (h : Lane X k other e inbox) (hready : Ready X k' kr e)
    (hle : other.generation ≤ e.generation)
    (hempty : e.transport.send.n + 1 = REKEY_INTERVAL → inbox = []) :
    Lane X k other (e.sent X) inbox := by
  obtain ⟨_, hgen⟩ := hready.sent_index
  obtain ⟨_, hg, hr⟩ | ⟨hlast, hg, hr⟩ := hgen
  · rwa [Lane, Endpoint.recvIndex, hg, hr]
  · right
    exact ⟨by omega, hempty hlast, hr⟩

/-- The next frame in a lane opens. -/
theorem Lane.opens (h : Lane X k other e (f :: rest)) (haead : X.AeadRoundTrip)
    (hready : Ready X k' k e) :
    e.call X (.decrypt f.frame) = .ok (some f.plaintext, e.received X) := by
  obtain ⟨_, hframe, _⟩ | ⟨_, hnil, _⟩ := h
  · rw [hready.decrypt, hframe, Endpoint.recvIndex,
      frameAt_index k e.generation ((below_iff _).mp hready.recvBelow), haead]
  · cases hnil

/-- A frame that completes a generation was sent by an endpoint of the next one. -/
theorem Lane.reached (h : Lane X k other e (f :: rest)) (hother : Ready X k kr other)
    (hlast : e.recvIndex + 1 = (e.generation + 1) * 2 ^ 60) :
    e.generation + 1 ≤ other.generation := by
  have hlt := (below_iff _).mp hother.sendBelow
  obtain ⟨_, _, hflight⟩ | ⟨_, hnil, _⟩ := h
  · have hle := hflight.le
    rw [hlast, Endpoint.sendIndex] at hle
    omega
  · cases hnil

/-- The frame an endpoint accepts leaves its lane. -/
theorem Lane.receive (h : Lane X k other e (f :: rest)) (hready : Ready X k' k e)
    (hother : Ready X k kr other) : Lane X k other (e.received X) rest := by
  obtain ⟨hindex, hgen⟩ := hready.received_index
  have hreached := h.reached hother
  obtain ⟨hle, _, hflight⟩ | ⟨_, hnil, _⟩ := h
  · left
    constructor
    · obtain ⟨hg, _⟩ | ⟨hlast, hg, _⟩ := hgen
      · rwa [hg]
      · rw [hg]
        exact hreached hlast
    · rwa [hindex]
  · cases hnil

/-- The lane of the endpoint that accepts: a rekey on the last frame of a generation finds
it empty, because the peer is ahead. -/
theorem Lane.receivedBack (h : Lane X k' e other inbox) (hready : Ready X k' k e)
    (hreached : e.recvIndex + 1 = (e.generation + 1) * 2 ^ 60 →
      e.generation + 1 ≤ other.generation) : Lane X k' (e.received X) other inbox := by
  obtain ⟨_, hgen⟩ := hready.received_index
  obtain ⟨hg, hs⟩ | ⟨hlast, hg, hs⟩ := hgen
  · rwa [Lane, Endpoint.sendIndex, hg, hs]
  · have hahead := hreached hlast
    obtain ⟨hle, _⟩ | ⟨_, hnil, hzero⟩ := h
    · omega
    · by_cases hsame : other.generation = e.generation + 1
      · left
        refine ⟨by omega, ?_⟩
        rw [hnil, Endpoint.recvIndex, Endpoint.sendIndex, hg, hs, hzero, hsame]
        rfl
      · right
        exact ⟨by omega, hnil, hzero⟩

end Lanes

section Delivery

variable {key : Role → CipherKey} {d d' : Duplex} {ev : DuplexEvent} {side : Role}

theorem eq_or_other (side s : Role) : s = side ∨ s = side.other := by
  cases side <;> cases s <;> decide

theorem other_ne (side : Role) : side.other ≠ side := by cases side <;> decide

/-- Both endpoints are ready and both lanes in order. -/
structure InOrder (X : External) (key : Role → CipherKey) (d : Duplex) : Prop where
  ready : ∀ side, Ready X (key side) (key side.other) (d.endpoint side)
  lane : ∀ side, Lane X (key side.other) (d.endpoint side.other) (d.endpoint side)
    (d.inbox side)

theorem InOrder.start (X : External) (key : Role → CipherKey) :
    InOrder X key (Duplex.start key) where
  ready side := Ready.start (key side) (key side.other)
  lane _ := Or.inl ⟨Nat.le_refl _, rfl⟩

/-- The lane towards the other side, by its own name. -/
theorem InOrder.back (h : InOrder X key d) (side : Role) : Lane X (key side)
    (d.endpoint side) (d.endpoint side.other) (d.inbox side.other) := by
  have hlane := h.lane side.other
  rwa [Role.other_other] at hlane

theorem InOrder.readyOther (h : InOrder X key d) (side : Role) :
    Ready X (key side.other) (key side) (d.endpoint side.other) := by
  have hready := h.ready side.other
  rwa [Role.other_other] at hready

/-- The sides of a duplex after one of them made a call. -/
theorem InOrder.of_sides {e : Endpoint} {inbox inbox' : List Flight}
    (h : InOrder X key d) (hside : d'.endpoint side = e)
    (hother : d'.endpoint side.other = d.endpoint side.other)
    (hinbox : d'.inbox side = inbox) (hinbox' : d'.inbox side.other = inbox')
    (hready : Ready X (key side) (key side.other) e)
    (hlane : Lane X (key side.other) (d.endpoint side.other) e inbox)
    (hback : Lane X (key side) e (d.endpoint side.other) inbox') : InOrder X key d' where
  ready s := by
    obtain rfl | rfl := eq_or_other side s
    · rwa [hside]
    · rw [hother]
      exact h.ready side.other
  lane s := by
    obtain rfl | rfl := eq_or_other side s
    · rwa [hside, hother, hinbox]
    · rwa [Role.other_other, hside, hother, hinbox']

/-- The state a send leads to. -/
theorem InOrder.sent_state (h : InOrder X key d) {p : Bytes}
    (hstep : DuplexStep X d (.sent side p) d') :
    d'.endpoint side = (d.endpoint side).sent X ∧
      d'.endpoint side.other = d.endpoint side.other ∧ d'.inbox side = d.inbox side ∧
      d'.inbox side.other = d.inbox side.other ++ [⟨p, X.aeadEncrypt
        (generationKey X (key side) (d.endpoint side).generation)
        (encodeNonce (d.endpoint side).transport.send.n) [] p⟩] := by
  obtain ⟨frame, e, hcall, rfl⟩ := hstep
  rw [(h.ready side).encrypt] at hcall
  obtain ⟨hframe, rfl⟩ := Prod.mk.inj (Except.ok.inj hcall)
  obtain rfl := Option.some.inj hframe
  refine ⟨?_, ?_, ?_, ?_⟩
  · exact Function.update_self ..
  · exact Function.update_of_ne (other_ne side) ..
  · exact Function.update_of_ne (other_ne side).symm ..
  · exact Function.update_self ..

/-- The state a delivery leads to, and its result: the frame was the next one and opens. -/
theorem InOrder.delivered_state (h : InOrder X key d) (haead : X.AeadRoundTrip) {p : Bytes}
    {r : Option Bytes} (hstep : DuplexStep X d (.delivered side p r) d') :
    r = some p ∧ d'.endpoint side = (d.endpoint side).received X ∧
      d'.endpoint side.other = d.endpoint side.other ∧
      d'.inbox side.other = d.inbox side.other ∧
      ∃ frame, d.inbox side = ⟨p, frame⟩ :: d'.inbox side := by
  obtain ⟨frame, rest, e, hinbox, hcall, rfl⟩ := hstep
  have hlane := h.lane side
  rw [hinbox] at hlane
  rw [hlane.opens haead (h.ready side)] at hcall
  obtain ⟨hr, rfl⟩ := Prod.mk.inj (Except.ok.inj hcall)
  refine ⟨hr.symm, ?_, ?_, ?_, frame, ?_⟩
  · exact Function.update_self ..
  · exact Function.update_of_ne (other_ne side) ..
  · exact Function.update_of_ne (other_ne side) ..
  · change d.inbox side = ⟨p, frame⟩ :: Function.update d.inbox side rest side
    rw [Function.update_self, hinbox]

/-- Encrypting where the condition allows it keeps both lanes in order. -/
theorem InOrder.sent (h : InOrder X key d) {p : Bytes} (hkeeps : KeepsStep d (.sent side p))
    (hstep : DuplexStep X d (.sent side p) d') : InOrder X key d' := by
  obtain ⟨hside, hother, hinbox, hmail⟩ := h.sent_state hstep
  obtain ⟨hle, hempty⟩ := hkeeps
  have hready := h.ready side
  apply h.of_sides hside hother hinbox hmail
  · exact hready.sent.1
  · exact (h.lane side).sentBack hready hle hempty
  · exact (h.back side).send hready hle p

/-- Delivering the next frame returns its plaintext and keeps both lanes in order. -/
theorem InOrder.delivered (h : InOrder X key d) (haead : X.AeadRoundTrip) {p : Bytes}
    {r : Option Bytes} (hstep : DuplexStep X d (.delivered side p r) d') :
    r = some p ∧ InOrder X key d' := by
  obtain ⟨hr, hside, hother, hmail, frame, hinbox⟩ := h.delivered_state haead hstep
  have hready := h.ready side
  have hpeer := h.readyOther side
  have hlane := h.lane side
  rw [hinbox] at hlane
  refine ⟨hr, ?_⟩
  apply h.of_sides hside hother rfl hmail
  · exact hready.received.1
  · exact hlane.receive hready hpeer
  · exact (h.back side).receivedBack hready (hlane.reached hpeer)

theorem InOrder.step (h : InOrder X key d) (haead : X.AeadRoundTrip)
    (hstep : Guarded KeepsStep (DuplexStep X) d ev d') :
    InOrder X key d' ∧ ∀ side p r, ev = .delivered side p r → r = some p := by
  obtain ⟨hkeeps, hstep⟩ := hstep
  cases ev with
  | sent side p =>
      refine ⟨h.sent hkeeps hstep, ?_⟩
      rintro _ _ _ ⟨⟩
  | delivered side p r =>
      obtain ⟨hr, hnext⟩ := h.delivered haead hstep
      refine ⟨hnext, ?_⟩
      rintro _ _ _ ⟨⟩
      exact hr

/-- In order, the next frame of either side decrypts. -/
theorem InOrder.next (h : InOrder X key d) (haead : X.AeadRoundTrip) (side : Role) {f : Flight}
    {rest : List Flight} (hinbox : d.inbox side = f :: rest) :
    ∃ e, (d.endpoint side).call X (.decrypt f.frame) = .ok (some f.plaintext, e) := by
  have hlane := h.lane side
  rw [hinbox] at hlane
  exact ⟨_, hlane.opens haead (h.ready side)⟩

end Delivery

section Delivery

variable {d : Duplex}

/-- Every frame decrypts to the plaintext it was made from, in every interleaving whose
sends keep step with the rekeys. -/
theorem duplex_delivery (haead : X.AeadRoundTrip) (key : Role → CipherKey)
    {tr : List DuplexEvent}
    (run : Run (Guarded KeepsStep (DuplexStep X)) (Duplex.start key) tr d) :
    Delivers X tr d := by
  have hstart := InOrder.start X key
  have hend : InOrder X key d := by
    refine run.invariant ?_ hstart
    intro s ev s' h hstep
    exact (h.step haead hstep).1
  have hlabels := run.forall_labels (fun s ev s' h hstep => InOrder.step h haead hstep) hstart
  constructor
  · intro side p r hmem
    exact hlabels _ hmem side p r rfl
  · intro side f rest hinbox
    exact hend.next haead side hinbox

/-- The initiator sends and the responder receives one frame. -/
theorem duplex_delivery_small : ∃ tr d, Delivers Miniature.external tr d ∧
    tr = [.sent .initiator [7], .delivered .responder [7] (some [7])] := by
  let key : Role → CipherKey := fun _ => Miniature.secretKey 1
  have hready := InOrder.start Miniature.external key
  have hsend := (hready.ready .initiator).encrypt [7]
  have hkeeps : KeepsStep (Duplex.start key) (.sent .initiator [7]) :=
    ⟨Nat.le_refl _, fun _ => rfl⟩
  have hsent : Guarded KeepsStep (DuplexStep Miniature.external) (Duplex.start key)
      (.sent .initiator [7]) _ := ⟨hkeeps, _, _, hsend, rfl⟩
  have horder := hready.sent hkeeps hsent.2
  obtain ⟨e, hopen⟩ := horder.next Miniature.external_aeadRoundTrip .responder rfl
  have hdelivered : Guarded KeepsStep (DuplexStep Miniature.external) _
      (.delivered .responder [7] (some [7])) _ := ⟨trivial, _, _, _, rfl, hopen, rfl⟩
  have hlaws := duplex_delivery Miniature.external_aeadRoundTrip key
    (Run.cons hsent (Run.single hdelivered))
  exact ⟨_, _, hlaws, rfl⟩

end Delivery

section Crossing

variable {d : Duplex}

/-- One side sends `n` frames while it receives none. -/
theorem exists_run_sends (key : Role → CipherKey) (side : Role) (p : Bytes) (n : Nat)
    (hready : Ready X (key side) (key side.other) (d.endpoint side))
    (hrecv : (d.endpoint side).transport.recv.n = 0) :
    ∃ d', Run (DuplexStep X) d (List.replicate n (.sent side p)) d' ∧
      Ready X (key side) (key side.other) (d'.endpoint side) ∧
      (d'.endpoint side).transport.recv.n = 0 ∧
      (d'.endpoint side).sendIndex = (d.endpoint side).sendIndex + n ∧
      d'.inbox side = d.inbox side := by
  induction n generalizing d with
  | zero => exact ⟨d, Run.nil d, hready, hrecv, (Nat.add_zero _).symm, rfl⟩
  | succ n ih =>
      obtain ⟨hindex, hgen⟩ := hready.sent_index
      have hzero : ((d.endpoint side).sent X).transport.recv.n = 0 := by
        obtain ⟨_, _, hr⟩ | ⟨_, _, hr⟩ := hgen
        · exact hr.trans hrecv
        · exact hr
      let frame := X.aeadEncrypt (generationKey X (key side) (d.endpoint side).generation)
        (encodeNonce (d.endpoint side).transport.send.n) [] p
      let d₁ : Duplex :=
        { endpoint := Function.update d.endpoint side ((d.endpoint side).sent X)
          inbox := Function.update d.inbox side.other (d.inbox side.other ++ [⟨p, frame⟩]) }
      have hside : d₁.endpoint side = (d.endpoint side).sent X := Function.update_self ..
      have hinbox : d₁.inbox side = d.inbox side :=
        Function.update_of_ne (other_ne side).symm ..
      have hstep : DuplexStep X d (.sent side p) d₁ := ⟨_, _, hready.encrypt p, rfl⟩
      rw [← hside] at hindex hzero
      obtain ⟨d', run, hready', hrecv', hindex', hinbox'⟩ :=
        ih (hside ▸ hready.sent.1) hzero
      refine ⟨d', Run.cons hstep run, hready', hrecv', ?_, hinbox'.trans hinbox⟩
      omega

theorem Endpoint.start_sendIndex (ks kr : CipherKey) : (Endpoint.start ks kr).sendIndex = 0 := by
  rw [Endpoint.sendIndex, Endpoint.start, CipherState.initializeKey, UInt64.toNat_zero,
    Nat.zero_mul]

/-- The responder's first frame, still on its way when the initiator rekeys after `2^60`
frames of its own, is rejected. -/
theorem duplex_delivery_fails : ¬ ∀ (key : Role → CipherKey) tr d,
    Run (DuplexStep Miniature.external) (Duplex.start key) tr d →
      Delivers Miniature.external tr d := by
  intro hclaim
  let k := Miniature.secretKey 1
  let frame := Miniature.external.aeadEncrypt k (encodeNonce 0) [] [7]
  let start : Duplex := Duplex.start fun _ => k
  let d₁ : Duplex :=
    { endpoint := Function.update start.endpoint .responder
        ((start.endpoint .responder).sent Miniature.external)
      inbox := Function.update start.inbox .initiator [⟨[7], frame⟩] }
  have hready := (InOrder.start Miniature.external fun _ => k).ready
  have hsent : DuplexStep Miniature.external start (.sent .responder [7]) d₁ :=
    ⟨_, _, (hready .responder).encrypt [7], rfl⟩
  have hinitiator : d₁.endpoint .initiator = Endpoint.start k k := rfl
  obtain ⟨d, run, hready', hrecv, hindex, hinbox⟩ :=
    exists_run_sends (d := d₁) (fun _ => k) .initiator [] (2 ^ 60) (hready .initiator) rfl
  have hgen : (d.endpoint .initiator).generation = 1 := by
    have hlt := (below_iff _).mp hready'.sendBelow
    rw [hinitiator, Endpoint.start_sendIndex, Endpoint.sendIndex] at hindex
    omega
  have hrejected : Miniature.external.aeadDecrypt (generationKey Miniature.external k 1)
      (encodeNonce 0) [] frame = none := by
    decide +kernel
  obtain ⟨e, hopen⟩ := (hclaim _ _ d (Run.cons hsent run)).next .initiator ⟨[7], frame⟩ [] hinbox
  have hcall := hready'.decrypt frame
  rw [hgen, hrecv, hrejected] at hcall
  rw [hcall] at hopen
  cases hopen

end Crossing

end SecurityNoise
