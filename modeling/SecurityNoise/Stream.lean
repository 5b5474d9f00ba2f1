import SecurityNoise.Duplex

/-!
# One direction over a hostile link

A sender encrypts a stream of plaintexts, and the network hands the receiver whatever byte
strings it likes. The receiver's counter moves only with a frame it accepts, so under an ideal
AEAD what it has accepted is always the beginning of the stream, across any number of rekeys.

## Implementation notes

The AEAD is ideal in a run: each frame the receiver accepts in it was produced in it before.
Keys have 32 bytes, so only those of the generations that the run reaches can be assumed
distinct. The opposite direction may be used too, short of a rekey of its own.
-/

namespace SecurityNoise

variable {X : External}

section Statement

/-- The sender and the receiver of a direction. -/
structure Stream where
  sender : Endpoint
  receiver : Endpoint

/-- Two transports before any rekey. -/
def Stream.opened (a b : TransportState) : Stream := ⟨⟨a, 0⟩, ⟨b, 0⟩⟩

/-- The send cipher of `a` is the receive cipher of `b`; all counters are below the rekey
interval. -/
structure Facing (a b : TransportState) : Prop where
  mirrored : a.send = b.recv
  keyed : a.send.hasKey = true ∧ a.recv.hasKey = true ∧ b.send.hasKey = true
  below : a.send.n < REKEY_INTERVAL ∧ a.recv.n < REKEY_INTERVAL ∧ b.send.n < REKEY_INTERVAL

/-- The sender encrypted a plaintext under a key and nonce, or the receiver was handed a byte
string under one; in the opposite direction the receiver encrypted, or the sender was handed a
byte string. -/
inductive StreamEvent
  | encrypted (k : CipherKey) (n : UInt64) (plaintext frame : Bytes)
  | handed (k : CipherKey) (n : UInt64) (frame : Bytes) (result : Option Bytes)
  | answered (plaintext frame : Bytes)
  | returned (frame : Bytes) (result : Option Bytes)

/-- Each end makes the provider's calls; the counters of the opposite direction do not reach
the rekey interval. -/
def StreamStep (X : External) (s : Stream) (ev : StreamEvent) (s' : Stream) : Prop :=
  match ev with
  | .encrypted k n p c => k = s.sender.transport.send.k ∧ n = s.sender.transport.send.n ∧
      ∃ e, s.sender.call X (.encrypt p) = .ok (some c, e) ∧ s' = ⟨e, s.receiver⟩
  | .handed k n c r => k = s.receiver.transport.recv.k ∧ n = s.receiver.transport.recv.n ∧
      ∃ e, s.receiver.call X (.decrypt c) = .ok (r, e) ∧ s' = ⟨s.sender, e⟩
  | .answered p c => s.receiver.transport.send.n + 1 ≠ REKEY_INTERVAL ∧
      ∃ e, s.receiver.call X (.encrypt p) = .ok (some c, e) ∧ s' = ⟨s.sender, e⟩
  | .returned c r => (r.isSome = true → s.sender.transport.recv.n + 1 ≠ REKEY_INTERVAL) ∧
      ∃ e, s.sender.call X (.decrypt c) = .ok (r, e) ∧ s' = ⟨e, s.receiver⟩

def StreamEvent.plaintext? : StreamEvent → Option Bytes
  | .encrypted _ _ p _ => some p
  | _ => none

def StreamEvent.accepted? : StreamEvent → Option Bytes
  | .handed _ _ _ r => r
  | _ => none

/-- The receiver was handed a byte string and rejected it. -/
def StreamEvent.rejected : StreamEvent → Bool
  | .handed _ _ _ r => r.isNone
  | _ => false

def sentPlaintexts (tr : List StreamEvent) : List Bytes := tr.filterMap StreamEvent.plaintext?

def acceptedPlaintexts (tr : List StreamEvent) : List Bytes := tr.filterMap StreamEvent.accepted?

/-- What the receiver accepts under a key and nonce, the sender has produced under them. -/
def IdealAead (tr : List StreamEvent) : Prop :=
  ∀ pre k n c p post, tr = pre ++ .handed k n c (some p) :: post → ∃ q, .encrypted k n q c ∈ pre

/-- The keys up to generation `g` are distinct. -/
def DistinctKeys (X : External) (k : CipherKey) (g : Nat) : Prop :=
  ∀ i ≤ g, ∀ j ≤ g, generationKey X k i = generationKey X k j → i = j

/-- What holds after a run from `start`. -/
structure StreamIntegrity (X : External) (start : Stream) (tr : List StreamEvent) (s : Stream) :
    Prop where
  /-- No call ends the process. -/
  encrypts : ∀ p, ∃ c e, s.sender.call X (.encrypt p) = .ok (some c, e)
  decrypts : ∀ c, ∃ r e, s.receiver.call X (.decrypt c) = .ok (r, e)
  accepted : acceptedPlaintexts tr <+: sentPlaintexts tr
  /-- A rejected byte string leaves the receiver as it was, and can be left out. -/
  rejected : ∀ c e, s.receiver.call X (.decrypt c) = .ok (none, e) → e = s.receiver
  deletable : Run (StreamStep X) start (tr.filter fun ev => !ev.rejected) s

end Statement

section Calls

variable {e e' : Endpoint}

/-- Calls only add to the number of rekeys. -/
theorem Endpoint.call_generation {c : TransportCall} {r : Option Bytes}
    (h : e.call X c = .ok (r, e')) : e.generation ≤ e'.generation := by
  unfold Endpoint.call at h
  split at h
  · cases h
  · obtain ⟨_, rfl⟩ := Prod.mk.inj (Except.ok.inj h)
    exact Nat.le_add_right _ _

/-- A rejected byte string changes nothing. -/
theorem Endpoint.call_rejected {c : Bytes} (h : e.call X (.decrypt c) = .ok (none, e')) :
    e' = e := by
  unfold Endpoint.call at h
  split at h
  · cases h
  · rename_i r t ht
    obtain ⟨rfl, rfl⟩ := Prod.mk.inj (Except.ok.inj h)
    have hdecrypt := TransportState.decryptThenRekey_none ht
    have hzero : e.transport.rekeysIn X (.decrypt c) = 0 := by
      rw [TransportState.rekeysIn, hdecrypt]
    rw [hzero, TransportState.decrypt_none hdecrypt]
    rfl

end Calls

section Histories

theorem sentPlaintexts_snoc (tr : List StreamEvent) (ev : StreamEvent) :
    sentPlaintexts (tr ++ [ev]) = sentPlaintexts tr ++ ev.plaintext?.toList := by
  unfold sentPlaintexts
  rw [List.filterMap_append]
  cases hp : ev.plaintext? <;> simp only [List.filterMap_cons, List.filterMap_nil, hp] <;> rfl

theorem acceptedPlaintexts_snoc (tr : List StreamEvent) (ev : StreamEvent) :
    acceptedPlaintexts (tr ++ [ev]) = acceptedPlaintexts tr ++ ev.accepted?.toList := by
  unfold acceptedPlaintexts
  rw [List.filterMap_append]
  cases hp : ev.accepted? <;> simp only [List.filterMap_cons, List.filterMap_nil, hp] <;> rfl

variable {tr : List StreamEvent} {ev : StreamEvent} {k : CipherKey} {g g' : Nat}

/-- What is ideal in a run is ideal in its beginnings. -/
theorem IdealAead.init (h : IdealAead (tr ++ [ev])) : IdealAead tr := by
  intro pre k n c p post htr
  apply h pre k n c p (post ++ [ev])
  rw [htr, List.append_assoc, List.cons_append]

theorem DistinctKeys.mono (h : DistinctKeys X k g') (hle : g ≤ g') : DistinctKeys X k g := by
  intro i hi j hj
  exact h i (Nat.le_trans hi hle) j (Nat.le_trans hj hle)

/-- Distinct keys make distinct ciphers, though counters restart. -/
theorem DistinctKeys.cipherAt_inj (h : DistinctKeys X k g) {i j : Nat} (hi : i / 2 ^ 60 ≤ g)
    (hj : j / 2 ^ 60 ≤ g) (heq : cipherAt X k i = cipherAt X k j) : i = j := by
  have hdiv : i / 2 ^ 60 = j / 2 ^ 60 := h _ hi _ hj (congrArg CipherState.k heq)
  have hmod : UInt64.ofNat (i % 2 ^ 60) = UInt64.ofNat (j % 2 ^ 60) := congrArg CipherState.n heq
  have hnat := congrArg UInt64.toNat hmod
  rw [UInt64.toNat_ofNat', UInt64.toNat_ofNat'] at hnat
  omega

end Histories

section Integrity

variable {k ka kb : CipherKey} {start : Nat} {tr : List StreamEvent} {s s' : Stream}

/-- The invariant: both indices count the plaintexts of their end, and a frame was sealed under
the cipher of its plaintext's place in the stream. -/
structure Synced (X : External) (k ka kb : CipherKey) (start : Nat) (tr : List StreamEvent)
    (s : Stream) : Prop where
  sender : Ready X k ka s.sender
  receiver : Ready X kb k s.receiver
  sent : s.sender.sendIndex = start + (sentPlaintexts tr).length
  received : s.receiver.recvIndex = start + (acceptedPlaintexts tr).length
  produced : ∀ key n p c, .encrypted key n p c ∈ tr → ∃ i, (sentPlaintexts tr)[i]? = some p ∧
    cipherAt X k (start + i) = ⟨key, n, true⟩ ∧ c = X.aeadEncrypt key (encodeNonce n) [] p
  accepted : acceptedPlaintexts tr <+: sentPlaintexts tr

theorem Ready.sendIndex_div {ks kr : CipherKey} {e : Endpoint} (h : Ready X ks kr e) :
    e.sendIndex / 2 ^ 60 = e.generation := by
  have hlt := (below_iff _).mp h.sendBelow
  unfold Endpoint.sendIndex
  omega

/-- A frame that opens is the next of the stream: an old one shares at most the nonce. -/
theorem Synced.next (h : Synced X k ka kb start tr s) (haead : X.AeadRoundTrip)
    (hdistinct : DistinctKeys X k s.sender.generation) {key : CipherKey} {n : UInt64}
    {p q c : Bytes} (hcipher : s.receiver.transport.recv = ⟨key, n, true⟩)
    (hproduced : .encrypted key n q c ∈ tr)
    (hopen : X.aeadDecrypt key (encodeNonce n) [] c = some p) :
    (sentPlaintexts tr)[(acceptedPlaintexts tr).length]? = some p := by
  obtain ⟨i, hget, hat, rfl⟩ := h.produced key n q c hproduced
  obtain ⟨hi, _⟩ := List.getElem?_eq_some_iff.mp hget
  have hsent := h.sent
  have hle := h.accepted.length_le
  have hgeneration := h.sender.sendIndex_div
  have hsame : cipherAt X k (start + i) =
      cipherAt X k (start + (acceptedPlaintexts tr).length) :=
    calc cipherAt X k (start + i) = ⟨key, n, true⟩ := hat
      _ = s.receiver.transport.recv := hcipher.symm
      _ = cipherAt X k s.receiver.recvIndex := h.receiver.recv_cipher
      _ = cipherAt X k (start + (acceptedPlaintexts tr).length) := by rw [h.received]
  have hindex : start + i = start + (acceptedPlaintexts tr).length := by
    apply hdistinct.cipherAt_inj
    · omega
    · omega
    · exact hsame
  have hplace : i = (acceptedPlaintexts tr).length := Nat.add_left_cancel hindex
  rw [haead] at hopen
  rwa [← hplace, ← hopen]

/-- What the plaintext that was next does to the accepted ones. -/
theorem prefix_next {xs ys : List Bytes} {p : Bytes} (h : xs <+: ys)
    (hnext : ys[xs.length]? = some p) : xs ++ [p] <+: ys := by
  obtain ⟨rest, rfl⟩ := h
  rw [List.getElem?_append_right (Nat.le_refl _), Nat.sub_self] at hnext
  cases rest with
  | nil => cases hnext
  | cons q rest =>
      obtain rfl : q = p := Option.some.inj hnext
      exact ⟨rest, List.append_assoc ..⟩

/-- An event that adds to neither list, at ends whose indices stay. -/
theorem Synced.quiet (h : Synced X k ka kb start tr s) {ev : StreamEvent}
    (hplaintext : ev.plaintext? = none) (haccepted : ev.accepted? = none)
    (hsender : Ready X k ka s'.sender) (hreceiver : Ready X kb k s'.receiver)
    (hsend : s'.sender.sendIndex = s.sender.sendIndex)
    (hrecv : s'.receiver.recvIndex = s.receiver.recvIndex) :
    Synced X k ka kb start (tr ++ [ev]) s' := by
  have hp : sentPlaintexts (tr ++ [ev]) = sentPlaintexts tr := by
    rw [sentPlaintexts_snoc, hplaintext, Option.toList_none, List.append_nil]
  have ha : acceptedPlaintexts (tr ++ [ev]) = acceptedPlaintexts tr := by
    rw [acceptedPlaintexts_snoc, haccepted, Option.toList_none, List.append_nil]
  constructor
  · exact hsender
  · exact hreceiver
  · rw [hsend, hp, h.sent]
  · rw [hrecv, ha, h.received]
  · intro key n p c hmem
    rw [hp]
    cases List.mem_append.mp hmem with
    | inl hpast => exact h.produced key n p c hpast
    | inr hlast =>
        obtain rfl := List.mem_singleton.mp hlast
        cases hplaintext
  · rw [hp, ha]
    exact h.accepted

/-- A frame is sealed under the cipher of the next place in the stream. -/
theorem Synced.encrypted (h : Synced X k ka kb start tr s) {key : CipherKey} {n : UInt64}
    {p c : Bytes} (hstep : StreamStep X s (.encrypted key n p c) s') :
    Synced X k ka kb start (tr ++ [.encrypted key n p c]) s' := by
  obtain ⟨hkey, hn, e, hcall, rfl⟩ := hstep
  rw [h.sender.encrypt] at hcall
  obtain ⟨hframe, rfl⟩ := Prod.mk.inj (Except.ok.inj hcall)
  have hgeneration : s.sender.transport.send.k = generationKey X k s.sender.generation :=
    congrArg CipherState.k h.sender.send
  have hcipher : cipherAt X k (start + (sentPlaintexts tr).length) = ⟨key, n, true⟩ :=
    calc cipherAt X k (start + (sentPlaintexts tr).length) =
        cipherAt X k s.sender.sendIndex := by rw [h.sent]
      _ = s.sender.transport.send := h.sender.send_cipher.symm
      _ = ⟨generationKey X k s.sender.generation, s.sender.transport.send.n, true⟩ :=
        h.sender.send
      _ = ⟨key, n, true⟩ := by rw [hkey, hn, hgeneration]
  have hp : sentPlaintexts (tr ++ [.encrypted key n p c]) = sentPlaintexts tr ++ [p] :=
    sentPlaintexts_snoc ..
  have ha : acceptedPlaintexts (tr ++ [.encrypted key n p c]) = acceptedPlaintexts tr := by
    rw [acceptedPlaintexts_snoc]
    exact List.append_nil _
  constructor
  · exact h.sender.sent.1
  · exact h.receiver
  · have hindex := h.sender.sent_index.1
    have hsent := h.sent
    rw [hp, List.length_append, List.length_singleton]
    change (s.sender.sent X).sendIndex = _
    omega
  · rw [ha]
    exact h.received
  · intro key' n' p' c' hmem
    rw [hp]
    cases List.mem_append.mp hmem with
    | inl hpast =>
        obtain ⟨i, hget, hrest⟩ := h.produced key' n' p' c' hpast
        obtain ⟨hi, _⟩ := List.getElem?_eq_some_iff.mp hget
        refine ⟨i, ?_, hrest⟩
        rw [List.getElem?_append_left hi, hget]
    | inr hlast =>
        obtain ⟨rfl, rfl, rfl, rfl⟩ := StreamEvent.encrypted.inj (List.mem_singleton.mp hlast)
        refine ⟨(sentPlaintexts tr).length, ?_, hcipher, ?_⟩
        · rw [List.getElem?_append_right (Nat.le_refl _), Nat.sub_self]
          rfl
        · rw [hkey, hn, hgeneration]
          exact (Option.some.inj hframe).symm
  · rw [hp, ha]
    exact h.accepted.trans (List.prefix_append _ _)

/-- A byte string handed to the receiver is the stream's next frame, or changes nothing. -/
theorem Synced.handed (h : Synced X k ka kb start tr s) (haead : X.AeadRoundTrip)
    (hdistinct : DistinctKeys X k s.sender.generation) {key : CipherKey} {n : UInt64}
    {c : Bytes} {r : Option Bytes} (hideal : IdealAead (tr ++ [.handed key n c r]))
    (hstep : StreamStep X s (.handed key n c r) s') :
    Synced X k ka kb start (tr ++ [.handed key n c r]) s' := by
  obtain ⟨hkey, hn, e, hcall, rfl⟩ := hstep
  have hgeneration : s.receiver.transport.recv.k = generationKey X k s.receiver.generation :=
    congrArg CipherState.k h.receiver.recv
  have hcipher : s.receiver.transport.recv = ⟨key, n, true⟩ := by
    rw [hkey, hn, hgeneration]
    exact h.receiver.recv
  rw [h.receiver.decrypt, ← hgeneration, ← hkey, ← hn] at hcall
  cases hopen : X.aeadDecrypt key (encodeNonce n) [] c with
  | none =>
      rw [hopen] at hcall
      obtain ⟨rfl, rfl⟩ := Prod.mk.inj (Except.ok.inj hcall)
      exact h.quiet rfl rfl h.sender h.receiver rfl rfl
  | some p =>
      rw [hopen] at hcall
      obtain ⟨rfl, rfl⟩ := Prod.mk.inj (Except.ok.inj hcall)
      obtain ⟨q, hproduced⟩ := hideal tr key n c p [] rfl
      have hnext := h.next haead hdistinct hcipher hproduced hopen
      have hp : sentPlaintexts (tr ++ [.handed key n c (some p)]) = sentPlaintexts tr := by
        rw [sentPlaintexts_snoc]
        exact List.append_nil _
      have ha : acceptedPlaintexts (tr ++ [.handed key n c (some p)]) =
          acceptedPlaintexts tr ++ [p] := acceptedPlaintexts_snoc ..
      constructor
      · exact h.sender
      · exact h.receiver.received.1
      · rw [hp]
        exact h.sent
      · have hindex := h.receiver.received_index.1
        have hreceived := h.received
        rw [ha, List.length_append, List.length_singleton]
        change (s.receiver.received X).recvIndex = _
        omega
      · intro key' n' p' c' hmem
        rw [hp]
        cases List.mem_append.mp hmem with
        | inl hpast => exact h.produced key' n' p' c' hpast
        | inr hlast => cases List.mem_singleton.mp hlast
      · rw [hp, ha]
        exact prefix_next h.accepted hnext

/-- What the receiver encrypts without a rekey leaves both indices. -/
theorem Synced.answered (h : Synced X k ka kb start tr s) {p c : Bytes}
    (hstep : StreamStep X s (.answered p c) s') :
    Synced X k ka kb start (tr ++ [.answered p c]) s' := by
  obtain ⟨hbelow, e, hcall, rfl⟩ := hstep
  rw [h.receiver.encrypt] at hcall
  obtain ⟨_, rfl⟩ := Prod.mk.inj (Except.ok.inj hcall)
  have hindex : (s.receiver.sent X).recvIndex = s.receiver.recvIndex := by
    obtain ⟨_, ⟨_, hg, hr⟩ | ⟨hlast, _⟩⟩ := h.receiver.sent_index
    · rw [Endpoint.recvIndex, hg, hr, Endpoint.recvIndex]
    · exact absurd hlast hbelow
  apply h.quiet
  · rfl
  · rfl
  · exact h.sender
  · exact h.receiver.sent.1
  · rfl
  · exact hindex

/-- So does what the sender is handed, accepted without a rekey or rejected. -/
theorem Synced.returned (h : Synced X k ka kb start tr s) {c : Bytes} {r : Option Bytes}
    (hstep : StreamStep X s (.returned c r) s') :
    Synced X k ka kb start (tr ++ [.returned c r]) s' := by
  obtain ⟨hbelow, e, hcall, rfl⟩ := hstep
  rw [h.sender.decrypt] at hcall
  split at hcall
  · obtain ⟨rfl, rfl⟩ := Prod.mk.inj (Except.ok.inj hcall)
    exact h.quiet rfl rfl h.sender h.receiver rfl rfl
  · obtain ⟨rfl, rfl⟩ := Prod.mk.inj (Except.ok.inj hcall)
    have hindex : (s.sender.received X).sendIndex = s.sender.sendIndex := by
      obtain ⟨_, ⟨hg, hs⟩ | ⟨hlast, _⟩⟩ := h.sender.received_index
      · rw [Endpoint.sendIndex, hg, hs, Endpoint.sendIndex]
      · have hsucc := succ_toNat h.sender.recvBelow
        have heq : s.sender.transport.recv.n + 1 = REKEY_INTERVAL := by
          apply UInt64.toNat_inj.mp
          rw [hsucc, rekeyInterval_toNat]
          unfold Endpoint.recvIndex at hlast
          omega
        exact absurd heq (hbelow rfl)
    apply h.quiet
    · rfl
    · rfl
    · exact h.sender.received.1
    · exact h.receiver
    · exact hindex
    · rfl

theorem Synced.step (h : Synced X k ka kb start tr s) (haead : X.AeadRoundTrip)
    (hdistinct : DistinctKeys X k s.sender.generation) {ev : StreamEvent}
    (hideal : IdealAead (tr ++ [ev])) (hstep : StreamStep X s ev s') :
    Synced X k ka kb start (tr ++ [ev]) s' := by
  cases ev with
  | encrypted key n p c => exact h.encrypted hstep
  | handed key n c r => exact h.handed haead hdistinct hideal hstep
  | answered p c => exact h.answered hstep
  | returned c r => exact h.returned hstep

/-- Generations of the sender only grow. -/
theorem StreamStep.generation {ev : StreamEvent} (hstep : StreamStep X s ev s') :
    s.sender.generation ≤ s'.sender.generation := by
  cases ev with
  | encrypted key n p c =>
      obtain ⟨_, _, e, hcall, rfl⟩ := hstep
      exact Endpoint.call_generation hcall
  | handed key n c r =>
      obtain ⟨_, _, e, _, rfl⟩ := hstep
      exact Nat.le_refl _
  | answered p c =>
      obtain ⟨_, e, _, rfl⟩ := hstep
      exact Nat.le_refl _
  | returned c r =>
      obtain ⟨_, e, hcall, rfl⟩ := hstep
      exact Endpoint.call_generation hcall

/-- Any byte string can be handed to the receiver. -/
theorem StreamStep.hand {c : Bytes} {r : Option Bytes} {e : Endpoint}
    (h : s.receiver.call X (.decrypt c) = .ok (r, e)) :
    StreamStep X s (.handed s.receiver.transport.recv.k s.receiver.transport.recv.n c r)
      ⟨s.sender, e⟩ :=
  ⟨rfl, rfl, e, h, rfl⟩

/-- A rejected byte string is a step that changes nothing. -/
theorem StreamStep.unchanged {ev : StreamEvent} (hstep : StreamStep X s ev s')
    (hrejected : ev.rejected = true) : s' = s := by
  cases ev with
  | handed key n c r =>
      obtain ⟨_, _, e, hcall, rfl⟩ := hstep
      obtain rfl : r = none := Option.isNone_iff_eq_none.mp hrejected
      rw [Endpoint.call_rejected hcall]
  | encrypted key n p c => cases hrejected
  | answered p c => cases hrejected
  | returned c r => cases hrejected

variable {a b : TransportState}

theorem Synced.opened (h : Facing a b) :
    Synced X a.send.k a.recv.k b.send.k a.send.n.toNat [] (Stream.opened a b) := by
  have hsend : a.send = ⟨a.send.k, a.send.n, true⟩ := by rw [← h.keyed.1]
  have hrecv : a.recv = ⟨a.recv.k, a.recv.n, true⟩ := by rw [← h.keyed.2.1]
  have hback : b.send = ⟨b.send.k, b.send.n, true⟩ := by rw [← h.keyed.2.2]
  have hfront : b.recv = ⟨a.send.k, b.recv.n, true⟩ := by
    rw [← h.mirrored]
    exact hsend
  have hbelow : b.recv.n < REKEY_INTERVAL := by
    rw [← h.mirrored]
    exact h.below.1
  constructor
  · exact ⟨⟨hsend, hrecv⟩, h.below.1, h.below.2.1⟩
  · exact ⟨⟨hback, hfront⟩, h.below.2.2, hbelow⟩
  · change 0 * 2 ^ 60 + a.send.n.toNat = a.send.n.toNat + 0
    omega
  · change 0 * 2 ^ 60 + b.recv.n.toNat = a.send.n.toNat + 0
    rw [← h.mirrored]
    omega
  · intro key n p c hmem
    cases hmem
  · exact List.nil_prefix

/-- The invariant holds after every ideal run. -/
theorem synced_of_run (haead : X.AeadRoundTrip) (h : Facing a b)
    (run : Run (StreamStep X) (Stream.opened a b) tr s) (hideal : IdealAead tr)
    (hdistinct : DistinctKeys X a.send.k s.sender.generation) :
    Synced X a.send.k a.recv.k b.send.k a.send.n.toNat tr s := by
  let J : List StreamEvent → Stream → Prop := fun tr s =>
    IdealAead tr → DistinctKeys X a.send.k s.sender.generation →
      Synced X a.send.k a.recv.k b.send.k a.send.n.toNat tr s
  have hend : J ([] ++ tr) s := by
    apply run.history
    · intro pre s ev s' hpast hstep hideal hdistinct
      have hbefore := hdistinct.mono hstep.generation
      exact (hpast hideal.init hbefore).step haead hbefore hideal hstep
    · intro _ _
      exact Synced.opened h
  exact hend hideal hdistinct

/-- Whatever the network hands it, the receiver has accepted a prefix of what the sender has
encrypted, and what it rejects might as well not have arrived. -/
theorem stream_integrity (haead : X.AeadRoundTrip) (hfacing : Facing a b)
    (run : Run (StreamStep X) (Stream.opened a b) tr s) (hideal : IdealAead tr)
    (hdistinct : DistinctKeys X a.send.k s.sender.generation) :
    StreamIntegrity X (Stream.opened a b) tr s := by
  have h := synced_of_run haead hfacing run hideal hdistinct
  constructor
  · intro p
    exact ⟨_, _, h.sender.encrypt p⟩
  · intro c
    rw [h.receiver.decrypt]
    split
    · exact ⟨_, _, rfl⟩
    · exact ⟨_, _, rfl⟩
  · exact h.accepted
  · intro c e hcall
    exact Endpoint.call_rejected hcall
  · apply run.filter
    intro s ev s' hstep hkept
    exact hstep.unchanged (by rwa [Bool.not_eq_false'] at hkept)

/-- A run is ideal if each of its acceptances is. -/
theorem IdealAead.snoc {ev : StreamEvent} (h : IdealAead tr)
    (hev : ∀ key n c p, ev = .handed key n c (some p) → ∃ q, .encrypted key n q c ∈ tr) :
    IdealAead (tr ++ [ev]) := by
  intro pre key n c p post htr
  rcases List.eq_nil_or_concat post with rfl | ⟨post, z, rfl⟩
  · obtain ⟨rfl, hlast⟩ := List.append_inj' htr rfl
    exact hev key n c p (List.cons.inj hlast).1
  · rw [List.concat_eq_append, ← List.cons_append, ← List.append_assoc] at htr
    exact h pre key n c p post (List.append_inj' htr rfl).1

/-- A sender one frame short of a rekey. -/
def streamSender : TransportState where
  send := ⟨Miniature.secretKey 1, REKEY_INTERVAL - 1, true⟩
  recv := ⟨Miniature.secretKey 2, 0, true⟩

/-- The receiver of its frames. -/
def streamReceiver : TransportState where
  send := ⟨Miniature.secretKey 2, 0, true⟩
  recv := ⟨Miniature.secretKey 1, REKEY_INTERVAL - 1, true⟩

/-- The last frame of their first generation. -/
def streamFrame : Bytes := Miniature.external.aeadEncrypt (Miniature.secretKey 1)
  (encodeNonce (REKEY_INTERVAL - 1)) [] [7]

/-- The last frame of a generation is accepted once, and not again after the rekey. -/
theorem stream_integrity_small : ∃ tr s, acceptedPlaintexts tr = [[7]] ∧
    s.receiver.generation = 1 ∧ tr.countP StreamEvent.rejected = 1 ∧
    StreamIntegrity Miniature.external (Stream.opened streamSender streamReceiver) tr s := by
  have hbelow : REKEY_INTERVAL - 1 < REKEY_INTERVAL := by decide
  have hfacing : Facing streamSender streamReceiver :=
    ⟨rfl, ⟨rfl, rfl, rfl⟩, hbelow, zero_below, zero_below⟩
  have hstart := Synced.opened (X := Miniature.external) hfacing
  let a := (Stream.opened streamSender streamReceiver).sender.sent Miniature.external
  let b := (Stream.opened streamSender streamReceiver).receiver.received Miniature.external
  have hsent : StreamStep Miniature.external (Stream.opened streamSender streamReceiver)
      (.encrypted (Miniature.secretKey 1) (REKEY_INTERVAL - 1) [7] streamFrame) ⟨a, _⟩ :=
    ⟨rfl, rfl, _, hstart.sender.encrypt [7], rfl⟩
  have hopen := @Ready.opens _ _ _ _ hstart.receiver streamFrame [7] (by decide +kernel)
  have haccepted := StreamStep.hand (s := ⟨a, ⟨streamReceiver, 0⟩⟩) hopen
  have hreject := @Ready.rejects _ _ _ _ hstart.receiver.received.1 streamFrame
    (by decide +kernel)
  have hrejected := StreamStep.hand (s := ⟨a, b⟩) hreject
  have hideal : IdealAead ([] ++ [.encrypted (Miniature.secretKey 1) (REKEY_INTERVAL - 1) [7]
      streamFrame] ++ [.handed (Miniature.secretKey 1) (REKEY_INTERVAL - 1) streamFrame
      (some [7])] ++ [.handed b.transport.recv.k b.transport.recv.n streamFrame none]) := by
    apply IdealAead.snoc
    · apply IdealAead.snoc
      · apply IdealAead.snoc
        · intro pre key n c p post htr
          cases pre <;> cases htr
        · intro key n c p heq
          cases heq
      · intro key n c p heq
        obtain ⟨rfl, rfl, rfl, _⟩ := StreamEvent.handed.inj heq
        exact ⟨[7], List.mem_singleton_self _⟩
    · intro key n c p heq
      cases heq
  have hdistinct : DistinctKeys Miniature.external streamSender.send.k 1 := by
    unfold DistinctKeys
    decide +kernel
  have hlaws := stream_integrity Miniature.external_aeadRoundTrip hfacing
    (Run.cons hsent (Run.cons haccepted (Run.single hrejected))) hideal hdistinct
  exact ⟨_, _, rfl, by decide +kernel, rfl, hlaws⟩

end Integrity

end SecurityNoise
