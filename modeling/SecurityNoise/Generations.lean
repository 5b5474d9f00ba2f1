import SecurityNoise.Transport

/-!
# Key generations of a transport

An endpoint is a transport with the number of rekeys it has performed. While both counters
are below the rekey interval, a key is the initial key moved on once for each rekey, every
operation finishes, and a frame uses its direction's counter under the key of the current
generation.
-/

namespace SecurityNoise

variable {X : External}

/-- The calls of the provider on a transport. -/
inductive TransportCall
  | encrypt (plaintext : Bytes)
  | decrypt (frame : Bytes)
  | rekey

section Model

variable (X : External)

/-- A call as the provider makes it, and the bytes it returns if any. -/
def TransportState.call (t : TransportState) :
    TransportCall → Except Fatal (Option Bytes × TransportState)
  | .encrypt plaintext =>
      match t.encryptThenRekey X plaintext with
      | .error e => .error e
      | .ok (frame, t') => .ok (some frame, t')
  | .decrypt frame => t.decryptThenRekey X frame
  | .rekey => .ok (none, t.rekey X)

/-- The rekeys a call performs. -/
def TransportState.rekeysIn (t : TransportState) : TransportCall → Nat
  | .encrypt plaintext =>
      match t.encrypt X plaintext with
      | .error _ => 0
      | .ok (_, t') => if t'.needsRekey then 1 else 0
  | .decrypt frame =>
      match t.decrypt X frame with
      | .error _ => 0
      | .ok (none, _) => 0
      | .ok (some _, t') => if t'.needsRekey then 1 else 0
  | .rekey => 1

/-- A transport and the number of its rekeys. -/
structure Endpoint where
  transport : TransportState
  generation : Nat

/-- Two freshly keyed ciphers. -/
def Endpoint.start (sendKey recvKey : CipherKey) : Endpoint :=
  ⟨⟨CipherState.initializeKey sendKey, CipherState.initializeKey recvKey⟩, 0⟩

def Endpoint.call (e : Endpoint) (c : TransportCall) : Except Fatal (Option Bytes × Endpoint) :=
  match e.transport.call X c with
  | .error f => .error f
  | .ok (r, t) => .ok (r, ⟨t, e.generation + e.transport.rekeysIn X c⟩)

/-- The key of a generation. -/
def generationKey (k : CipherKey) : Nat → CipherKey
  | 0 => k
  | g + 1 => CipherState.nextKey X (generationKey k g)

/-- Both keys moved on, both counters at zero. -/
def Endpoint.rekeyed (e : Endpoint) : Endpoint := ⟨e.transport.rekey X, e.generation + 1⟩

/-- The endpoint with `t` for a transport, after the rekey that `t` needs. -/
def Endpoint.settled (e : Endpoint) (t : TransportState) : Endpoint :=
  if t.needsRekey then Endpoint.rekeyed X ⟨t, e.generation⟩ else ⟨t, e.generation⟩

/-- The endpoint after it encrypted a frame. -/
def Endpoint.sent (e : Endpoint) : Endpoint :=
  e.settled X { e.transport with send := { e.transport.send with n := e.transport.send.n + 1 } }

/-- The endpoint after it accepted a frame. -/
def Endpoint.received (e : Endpoint) : Endpoint :=
  e.settled X { e.transport with recv := { e.transport.recv with n := e.transport.recv.n + 1 } }

end Model

section Ready

/-- Both ciphers hold the keys of the generation. -/
structure Keyed (X : External) (sendKey recvKey : CipherKey) (e : Endpoint) : Prop where
  send : e.transport.send =
    ⟨generationKey X sendKey e.generation, e.transport.send.n, true⟩
  recv : e.transport.recv =
    ⟨generationKey X recvKey e.generation, e.transport.recv.n, true⟩

/-- Between calls the counters are also below the rekey interval. -/
structure Ready (X : External) (sendKey recvKey : CipherKey) (e : Endpoint) : Prop
    extends Keyed X sendKey recvKey e where
  sendBelow : e.transport.send.n < REKEY_INTERVAL
  recvBelow : e.transport.recv.n < REKEY_INTERVAL

/-- What using one frame of a direction does to the counters: `used` is the counter of that
direction and `other` of the opposite one. The last frame of a generation starts the next,
in both directions. -/
structure Counted (g g' : Nat) (used used' other other' : UInt64) : Prop where
  next : used.toNat + 1 < 2 ^ 60 → g' = g ∧ used'.toNat = used.toNat + 1 ∧ other' = other
  last : used.toNat + 1 = 2 ^ 60 → g' = g + 1 ∧ used' = 0 ∧ other' = 0

theorem rekeyInterval_toNat : REKEY_INTERVAL.toNat = 2 ^ 60 := by decide

theorem below_iff (n : UInt64) : n < REKEY_INTERVAL ↔ n.toNat < 2 ^ 60 := by
  rw [UInt64.lt_iff_toNat_lt, rekeyInterval_toNat]

/-- Below the interval a counter does not wrap. -/
theorem succ_toNat {n : UInt64} (h : n < REKEY_INTERVAL) : (n + 1).toNat = n.toNat + 1 := by
  have hlt := (below_iff n).mp h
  rw [UInt64.toNat_add, UInt64.toNat_one, Nat.mod_eq_of_lt (by omega)]

theorem ne_maxNonce {n : UInt64} (h : n < REKEY_INTERVAL) : n ≠ maxNonce := by
  rintro rfl
  exact absurd h (by decide)

theorem zero_below : (0 : UInt64) < REKEY_INTERVAL := by decide

theorem needsRekey_iff (t : TransportState) :
    t.needsRekey = true ↔ 2 ^ 60 ≤ t.send.n.toNat ∨ 2 ^ 60 ≤ t.recv.n.toNat := by
  simp only [TransportState.needsRekey, Bool.or_eq_true, decide_eq_true_eq, ge_iff_le,
    UInt64.le_iff_toNat_le, rekeyInterval_toNat]

variable {ks kr : CipherKey} {e : Endpoint}

theorem Ready.start (ks kr : CipherKey) : Ready X ks kr (Endpoint.start ks kr) :=
  ⟨⟨rfl, rfl⟩, zero_below, zero_below⟩

/-- A rekey moves both keys on and resets both counters. -/
theorem Keyed.rekeyed (h : Keyed X ks kr e) : Ready X ks kr (e.rekeyed X) := by
  have hsend : (e.rekeyed X).transport.send =
      ⟨generationKey X ks (e.generation + 1), 0, true⟩ := by
    change (e.transport.send.rekey X).resetNonceToZero = _
    rw [h.send]
    rfl
  have hrecv : (e.rekeyed X).transport.recv =
      ⟨generationKey X kr (e.generation + 1), 0, true⟩ := by
    change (e.transport.recv.rekey X).resetNonceToZero = _
    rw [h.recv]
    rfl
  refine ⟨⟨?_, ?_⟩, ?_, ?_⟩
  · rw [hsend]
    rfl
  · rw [hrecv]
    rfl
  · rw [hsend]
    exact zero_below
  · rw [hrecv]
    exact zero_below

/-- Settling leaves an endpoint ready. -/
theorem Keyed.settled {t : TransportState} (h : Keyed X ks kr ⟨t, e.generation⟩) :
    Ready X ks kr (e.settled X t) := by
  unfold Endpoint.settled
  by_cases hn : t.needsRekey = true
  · rw [if_pos hn]
    exact h.rekeyed
  · rw [if_neg hn]
    rw [needsRekey_iff, not_or, Nat.not_le, Nat.not_le] at hn
    exact ⟨h, (below_iff _).mpr hn.1, (below_iff _).mpr hn.2⟩

/-- Settling is the provider's rekey, counted. -/
theorem settled_eq (e : Endpoint) (t : TransportState) : e.settled X t =
    ⟨t.rekeyIfNeeded X, e.generation + if t.needsRekey then 1 else 0⟩ := by
  unfold Endpoint.settled TransportState.rekeyIfNeeded
  split <;> rfl

namespace Ready

/-- A frame uses the send counter. -/
theorem sent (h : Ready X ks kr e) : Ready X ks kr (e.sent X) ∧
    Counted e.generation (e.sent X).generation e.transport.send.n (e.sent X).transport.send.n
      e.transport.recv.n (e.sent X).transport.recv.n := by
  have hsucc := succ_toNat h.sendBelow
  have hs := (below_iff _).mp h.sendBelow
  have hr := (below_iff _).mp h.recvBelow
  let t : TransportState :=
    { e.transport with send := { e.transport.send with n := e.transport.send.n + 1 } }
  have hkeyed : Keyed X ks kr ⟨t, e.generation⟩ := by
    refine ⟨?_, h.recv⟩
    change { e.transport.send with n := e.transport.send.n + 1 } = _
    rw [h.send]
  have hneeds : t.needsRekey = true ↔ e.transport.send.n.toNat + 1 = 2 ^ 60 := by
    rw [needsRekey_iff]
    change 2 ^ 60 ≤ (e.transport.send.n + 1).toNat ∨ 2 ^ 60 ≤ e.transport.recv.n.toNat ↔ _
    omega
  refine ⟨hkeyed.settled, ?_, ?_⟩
  · intro hlt
    have hsame : e.sent X = ⟨t, e.generation⟩ := if_neg (by rw [hneeds]; omega)
    rw [hsame]
    exact ⟨rfl, hsucc, rfl⟩
  · intro hlast
    have hrolled : e.sent X = Endpoint.rekeyed X ⟨t, e.generation⟩ := if_pos (hneeds.mpr hlast)
    rw [hrolled]
    exact ⟨rfl, rfl, rfl⟩

/-- An accepted frame uses the receive counter. -/
theorem received (h : Ready X ks kr e) : Ready X ks kr (e.received X) ∧
    Counted e.generation (e.received X).generation e.transport.recv.n
      (e.received X).transport.recv.n e.transport.send.n (e.received X).transport.send.n := by
  have hsucc := succ_toNat h.recvBelow
  have hs := (below_iff _).mp h.sendBelow
  have hr := (below_iff _).mp h.recvBelow
  let t : TransportState :=
    { e.transport with recv := { e.transport.recv with n := e.transport.recv.n + 1 } }
  have hkeyed : Keyed X ks kr ⟨t, e.generation⟩ := by
    refine ⟨h.send, ?_⟩
    change { e.transport.recv with n := e.transport.recv.n + 1 } = _
    rw [h.recv]
  have hneeds : t.needsRekey = true ↔ e.transport.recv.n.toNat + 1 = 2 ^ 60 := by
    rw [needsRekey_iff]
    change 2 ^ 60 ≤ e.transport.send.n.toNat ∨ 2 ^ 60 ≤ (e.transport.recv.n + 1).toNat ↔ _
    omega
  refine ⟨hkeyed.settled, ?_, ?_⟩
  · intro hlt
    have hsame : e.received X = ⟨t, e.generation⟩ := if_neg (by rw [hneeds]; omega)
    rw [hsame]
    exact ⟨rfl, hsucc, rfl⟩
  · intro hlast
    have hrolled : e.received X = Endpoint.rekeyed X ⟨t, e.generation⟩ :=
      if_pos (hneeds.mpr hlast)
    rw [hrolled]
    exact ⟨rfl, rfl, rfl⟩

/-- Encryption never aborts; the frame is sealed under the key of the generation and the
send counter. -/
theorem encrypt (h : Ready X ks kr e) (plaintext : Bytes) :
    e.call X (.encrypt plaintext) =
      .ok (some (X.aeadEncrypt (generationKey X ks e.generation)
        (encodeNonce e.transport.send.n) [] plaintext), e.sent X) := by
  have hkey : e.transport.send.k = generationKey X ks e.generation :=
    congrArg CipherState.k h.send
  have hhas : e.transport.send.hasKey = true := congrArg CipherState.hasKey h.send
  have hseal := CipherState.encryptWithAd_keyed (X := X) hhas (ne_maxNonce h.sendBelow) [] plaintext
  have henc : e.transport.encrypt X plaintext = .ok (X.aeadEncrypt
      (generationKey X ks e.generation) (encodeNonce e.transport.send.n) [] plaintext,
      { e.transport with
        send := { e.transport.send with n := e.transport.send.n + 1 } }) := by
    simp only [TransportState.encrypt, hseal, hkey]
  simp only [Endpoint.call, TransportState.call, TransportState.encryptThenRekey,
    TransportState.rekeysIn, henc, Endpoint.sent, settled_eq]

/-- Decryption never aborts; a frame that opens does so under the key of the generation and
the receive counter, any other changes nothing. -/
theorem decrypt (h : Ready X ks kr e) (frame : Bytes) :
    e.call X (.decrypt frame) =
      match X.aeadDecrypt (generationKey X kr e.generation) (encodeNonce e.transport.recv.n) []
        frame with
      | none => .ok (none, e)
      | some plaintext => .ok (some plaintext, e.received X) := by
  have hkey : e.transport.recv.k = generationKey X kr e.generation :=
    congrArg CipherState.k h.recv
  have hhas : e.transport.recv.hasKey = true := congrArg CipherState.hasKey h.recv
  have hopen := CipherState.decryptWithAd_keyed (X := X) hhas (ne_maxNonce h.recvBelow) [] frame
  cases hp : X.aeadDecrypt (generationKey X kr e.generation) (encodeNonce e.transport.recv.n)
      [] frame with
  | none =>
      rw [hkey, hp] at hopen
      have hdec : e.transport.decrypt X frame = .ok (none, e.transport) := by
        rw [TransportState.decrypt, hopen]
      simp only [Endpoint.call, TransportState.call, TransportState.decryptThenRekey,
        TransportState.rekeysIn, hdec, Nat.add_zero]
  | some plaintext =>
      have hdec : e.transport.decrypt X frame = .ok (some plaintext, { e.transport with
          recv := { e.transport.recv with n := e.transport.recv.n + 1 } }) := by
        simp only [TransportState.decrypt, hopen, hkey, hp]
      simp only [Endpoint.call, TransportState.call, TransportState.decryptThenRekey,
        TransportState.rekeysIn, hdec, Endpoint.received, settled_eq]

/-- A frame that opens. -/
theorem opens (h : Ready X ks kr e) {frame plaintext : Bytes}
    (hopen : X.aeadDecrypt (generationKey X kr e.generation) (encodeNonce e.transport.recv.n) []
      frame = some plaintext) :
    e.call X (.decrypt frame) = .ok (some plaintext, e.received X) := by
  rw [h.decrypt, hopen]

/-- A frame that does not. -/
theorem rejects (h : Ready X ks kr e) {frame : Bytes}
    (hopen : X.aeadDecrypt (generationKey X kr e.generation) (encodeNonce e.transport.recv.n) []
      frame = none) :
    e.call X (.decrypt frame) = .ok (none, e) := by
  rw [h.decrypt, hopen]

theorem rekey (e : Endpoint) : e.call X .rekey = .ok (none, e.rekeyed X) := rfl

end Ready

end Ready

end SecurityNoise
