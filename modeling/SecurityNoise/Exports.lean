import SecurityNoise.Foundation.Threads
import SecurityNoise.Erasure

/-!
# Exports that overlap

Any number of `export_transport_keys` calls on one session, step by step and in any order.
Nothing keeps a second export out between the check of `split_done` and its store, so several
can succeed. Each then writes the session's keys, or the keys of an all-zero chaining key,
which anybody can compute; the first to read the chaining key has the session's. Exports that
do not overlap succeed once.

## Implementation notes

The wipes inside `split` are steps of their own: another export may read the chaining key
before the first has wiped it. One read or wipe of a buffer is a single step.
-/

namespace SecurityNoise

variable {X : External}

section Model

variable (X : External)

/-- The transport ciphers of a split, by role. -/
def HandshakeState.assign (hs : HandshakeState) (pair : SplitPair) : TransportPair :=
  if hs.initiator then ⟨pair.first, pair.second⟩ else ⟨pair.second, pair.first⟩

/-- The lambda `eager_wipe` of `split`. -/
def HandshakeState.eagerWipe (hs : HandshakeState) : HandshakeState :=
  { hs with
    sSk := Block.zero DH_PRIVATE_KEY_BYTES
    eSk := Block.zero DH_PRIVATE_KEY_BYTES
    ePk := Block.zero DH_PUBLIC_KEY_BYTES
    re := Block.zero DH_PUBLIC_KEY_BYTES }

/-- The lambda `wipe_chaining_key`. -/
def SymmetricState.wipeChainingKey (s : SymmetricState) : SymmetricState :=
  { s with ck := Block.zero HASHLEN }

/-- What an export does next. `keys` is what it has written to its out argument. -/
inductive ExportPoint
  | checkNull (out : Option HandshakeKeys)
  | checkComplete (out : HandshakeKeys)
  | checkSplit (out : HandshakeKeys)
  | derive
  | wipeChainingKey (pair : SplitPair)
  | eagerWipe (pair : SplitPair)
  | storePeer (keys : HandshakeKeys)
  | storeSplitDone (keys : HandshakeKeys)
  | storeKeysExported (keys : HandshakeKeys)
  | returned (code : GnResult) (out : Option HandshakeKeys)

/-- The next step of `noise_export_transport_keys`, the steps of `split` among them. -/
def exportStep (s : NoiseSession) : ExportPoint → ExportPoint × NoiseSession
  | .checkNull none => (.returned .errNullArg none, s)
  | .checkNull (some out) => (.checkComplete out, s)
  | .checkComplete out =>
      if !s.handshake.isComplete then (.returned .errInvalidState (some out), s)
      else (.checkSplit out, s)
  | .checkSplit out =>
      if s.splitDone then (.returned .errInvalidState (some out), s) else (.derive, s)
  | .derive => (.wipeChainingKey (s.handshake.symmetric.split X).1, s)
  | .wipeChainingKey pair =>
      (.eagerWipe pair,
        { s with handshake :=
          { s.handshake with symmetric := s.handshake.symmetric.wipeChainingKey } })
  | .eagerWipe pair =>
      (.storePeer
        { apiSize := X.handshakeKeysSize
          sendCipherKey := (s.handshake.assign pair).send.k
          recvCipherKey := (s.handshake.assign pair).recv.k
          initialSendNonce := 0
          initialRecvNonce := 0
          handshakeHash := Block.zero 32
          peerStaticPk := Block.zero 32 },
        { s with handshake := s.handshake.eagerWipe })
  | .storePeer keys =>
      let peer := s.handshake.peerStaticPublicKey
      (.storeSplitDone
        { keys with
          peerStaticPk := peer
          handshakeHash := Block.truncate hashBytes_le s.handshake.handshakeHash },
        { s with peerX25519Pk := peer })
  | .storeSplitDone keys => (.storeKeysExported keys, { s with splitDone := true })
  | .storeKeysExported keys => (.returned .ok (some keys), { s with keysExported := true })
  | .returned code out => (.returned code out, s)

/-- A session and the exports on it. -/
abbrev Exports := Threads NoiseSession ExportPoint

/-- No export has begun; `outs` are their out arguments. -/
def Exports.start (s : NoiseSession) (outs : Nat → Option HandshakeKeys) : Exports where
  shared := s
  pcs i := .checkNull (outs i)

/-- Export number `i` takes a step. -/
abbrev ExportsStep (g : Exports) (i : Nat) (g' : Exports) : Prop :=
  Threads.Step (exportStep X) g i g'

/-- An export that has begun and not returned. -/
def ExportPoint.busy : ExportPoint → Prop
  | .checkNull _ => False
  | .returned _ _ => False
  | _ => True

/-- Nobody else is in the middle of an export. -/
abbrev OneByOne : Exports → Nat → Prop := Threads.Alone ExportPoint.busy

end Model

section Statement

/-- The session with its chaining key wiped. -/
def NoiseSession.blanked (s : NoiseSession) : NoiseSession :=
  { s with handshake := { s.handshake with symmetric := s.handshake.symmetric.wipeChainingKey } }

/-- What an export writes that finds the chaining key wiped: the cipher keys are those of 64
zero bytes. -/
def blankKeys (X : External) (s : NoiseSession) : HandshakeKeys := exportedKeys X s.blanked

/-- What holds of exports on the session `s` in any order of their steps. -/
structure ExportsLaw (X : External) (s : NoiseSession) (outs : Nat → Option HandshakeKeys)
    (g : Exports) : Prop where
  /-- An export that succeeds has written the session's keys or the blank ones. -/
  written : ∀ i keys, g.pcs i = .returned .ok keys →
    keys = some (exportedKeys X s) ∨ keys = some (blankKeys X s)
  /-- Any other leaves its out argument. -/
  refused : ∀ i code out, g.pcs i = .returned code out → code ≠ .ok → out = outs i
  /-- If one has succeeded and all are back, one of them has the session's keys, and the
  session is as one export leaves it. -/
  settled : (∃ i keys, g.pcs i = .returned .ok keys) → (∀ i, ¬ (g.pcs i).busy) →
    (∃ i, g.pcs i = .returned .ok (some (exportedKeys X s))) ∧ g.shared = s.exported X

/-- What holds of the exports on a session that is complete and not split. -/
structure ExportsOverlap (X : External) (s : NoiseSession) : Prop where
  /-- An export that nobody interrupts is the entry. -/
  alone : ∀ s' out, (fun e => exportStep X e.2 e.1)^[9] (.checkNull out, s') =
    (.returned (noiseExportTransportKeys X s' out).1 (noiseExportTransportKeys X s' out).2.1,
      (noiseExportTransportKeys X s' out).2.2)
  law : ∀ outs tr g, Run (ExportsStep X) (Exports.start s outs) tr g → ExportsLaw X s outs g
  /-- One by one, they succeed once and with the session's keys. -/
  once : ∀ outs tr g, Run (Guarded OneByOne (ExportsStep X)) (Exports.start s outs) tr g →
    ∀ i keys, g.pcs i = .returned .ok keys → keys = some (exportedKeys X s) ∧
      ∀ j keys', g.pcs j = .returned .ok keys' → j = i
  /-- Otherwise two of them can both get the session's keys. -/
  twice : ∀ out out', ∃ tr g, Run (ExportsStep X)
    (Exports.start s fun i => if i = 0 then some out else some out') tr g ∧
      g.pcs 0 = .returned .ok (some (exportedKeys X s)) ∧
      g.pcs 1 = .returned .ok (some (exportedKeys X s))
  /-- Or the second can get the blank ones. -/
  blank : ∀ out out', ∃ tr g, Run (ExportsStep X)
    (Exports.start s fun i => if i = 0 then some out else some out') tr g ∧
      g.pcs 0 = .returned .ok (some (exportedKeys X s)) ∧
      g.pcs 1 = .returned .ok (some (blankKeys X s))

end Statement

section Alone

variable {s : NoiseSession}

/-- The checks let a complete session pass that is not split. -/
theorem exportStep_checks (hc : s.handshake.isComplete = true) (hs : s.splitDone = false)
    (out : HandshakeKeys) : (fun e => exportStep X e.2 e.1)^[4] (.checkNull (some out), s) =
      (.wipeChainingKey (s.handshake.symmetric.split X).1, s) := by
  simp [Function.iterate_succ_apply, exportStep, hc, hs]

/-- The keys of a pair, when the rest of the export is not interrupted. -/
def keysOf (X : External) (s : NoiseSession) (pair : SplitPair) : HandshakeKeys where
  apiSize := X.handshakeKeysSize
  sendCipherKey := (s.handshake.assign pair).send.k
  recvCipherKey := (s.handshake.assign pair).recv.k
  initialSendNonce := 0
  initialRecvNonce := 0
  handshakeHash := Block.truncate hashBytes_le s.handshake.handshakeHash
  peerStaticPk := s.handshake.peerStaticPublicKey

theorem exportStep_rest (s : NoiseSession) (pair : SplitPair) :
    (fun e => exportStep X e.2 e.1)^[5] (.wipeChainingKey pair, s) =
      (.returned .ok (some (keysOf X s pair)), s.exported X) := rfl

theorem exportStep_returned (n : Nat) (code : GnResult) (out : Option HandshakeKeys) :
    (fun e => exportStep X e.2 e.1)^[n] (.returned code out, s) = (.returned code out, s) := by
  induction n with
  | zero => rfl
  | succ n ih => exact ih

/-- Nine steps are the entry. -/
theorem exportStep_entry (s : NoiseSession) (out : Option HandshakeKeys) :
    (fun e => exportStep X e.2 e.1)^[9] (.checkNull out, s) =
      (.returned (noiseExportTransportKeys X s out).1 (noiseExportTransportKeys X s out).2.1,
        (noiseExportTransportKeys X s out).2.2) := by
  cases out with
  | none => rfl
  | some out =>
      cases hc : s.handshake.isComplete with
      | false =>
          rw [noiseExportTransportKeys_refused (Or.inl hc)]
          have hchecks : (fun e => exportStep X e.2 e.1)^[2] (.checkNull (some out), s) =
              (.returned .errInvalidState (some out), s) := by
            simp [Function.iterate_succ_apply, exportStep, hc]
          rw [show 9 = 7 + 2 from rfl, Function.iterate_add_apply, hchecks, exportStep_returned]
      | true =>
          cases hs : s.splitDone with
          | false =>
              rw [noiseExportTransportKeys_ok hc hs, show 9 = 5 + 4 from rfl,
                Function.iterate_add_apply, exportStep_checks hc hs]
              rfl
          | true =>
              rw [noiseExportTransportKeys_refused (Or.inr hs)]
              have hchecks : (fun e => exportStep X e.2 e.1)^[3] (.checkNull (some out), s) =
                  (.returned .errInvalidState (some out), s) := by
                simp [Function.iterate_succ_apply, exportStep, hc, hs]
              rw [show 9 = 6 + 3 from rfl, Function.iterate_add_apply, hchecks,
                exportStep_returned]

end Alone

section Invariant

/-- Which of the writes of an export some export has made. -/
structure Writes where
  ck : Bool := false
  secrets : Bool := false
  peer : Bool := false
  split : Bool := false
  exported : Bool := false

/-- The session with these writes made. -/
def NoiseSession.after (s : NoiseSession) (w : Writes) : NoiseSession :=
  let s := if w.ck then s.blanked else s
  let s := if w.secrets then { s with handshake := s.handshake.eagerWipe } else s
  { s with
    peerX25519Pk := if w.peer then s.handshake.peerStaticPublicKey else s.peerX25519Pk
    splitDone := w.split || s.splitDone
    keysExported := w.exported || s.keysExported }

variable (X : External) (s : NoiseSession)

/-- The ciphers of the session's chaining key, or of the wiped one. -/
def pairOf (genuine : Bool) : SplitPair :=
  (if genuine then s.handshake.symmetric.split X else s.blanked.handshake.symmetric.split X).1

/-- The keys that go with them. -/
def keysFor (genuine : Bool) : HandshakeKeys := keysOf X s (pairOf X s genuine)

/-- What an export has copied so far: neither the hash nor the peer's key. -/
def cipherKeysFor (genuine : Bool) : HandshakeKeys :=
  { keysFor X s genuine with handshakeHash := Block.zero 32, peerStaticPk := Block.zero 32 }

/-- The export holds these keys. -/
def ExportPoint.Holds (genuine : Bool) : ExportPoint → Prop
  | .wipeChainingKey pair => pair = pairOf X s genuine
  | .eagerWipe pair => pair = pairOf X s genuine
  | .storePeer keys => keys = cipherKeysFor X s genuine
  | .storeSplitDone keys => keys = keysFor X s genuine
  | .storeKeysExported keys => keys = keysFor X s genuine
  | .returned .ok keys => keys = some (keysFor X s genuine)
  | _ => False

/-- The writes an export at this point has made. -/
def ExportPoint.Made (w : Writes) : ExportPoint → Prop
  | .eagerWipe _ => w.ck = true
  | .storePeer _ => w.ck = true ∧ w.secrets = true
  | .storeSplitDone _ => w.ck = true ∧ w.secrets = true ∧ w.peer = true
  | .storeKeysExported _ => w.ck = true ∧ w.secrets = true ∧ w.peer = true ∧ w.split = true
  | .returned .ok _ =>
      w.ck = true ∧ w.secrets = true ∧ w.peer = true ∧ w.split = true ∧ w.exported = true
  | _ => True

/-- The export holds no keys, and has not written to its out argument. -/
def ExportPoint.Waits (out : Option HandshakeKeys) : ExportPoint → Prop
  | .checkNull keys => keys = out
  | .checkComplete keys => some keys = out
  | .checkSplit keys => some keys = out
  | .derive => True
  | .returned code keys => code ≠ .ok ∧ keys = out
  | _ => False

/-- Where one export stands. -/
structure ExportPoint.Sound (out : Option HandshakeKeys) (w : Writes) (pt : ExportPoint) :
    Prop where
  keys : pt.Waits out ∨ ∃ genuine, pt.Holds X s genuine ∧ (w.ck = false → genuine = true)
  made : pt.Made w

/-- Where they all stand: the session has had some of the writes made, and once the chaining
key is wiped an export holds what it gave. -/
structure Underway (outs : Nat → Option HandshakeKeys) (g : Exports) (w : Writes) : Prop where
  session : g.shared = s.after w
  sound : ∀ i, (g.pcs i).Sound X s (outs i) w
  genuine : w.ck = true → ∃ i, (g.pcs i).Holds X s true

variable {X s}
variable {w : Writes} {out : Option HandshakeKeys} {pt : ExportPoint}

/-- More writes. -/
structure Writes.Le (w w' : Writes) : Prop where
  ck : w.ck = true → w'.ck = true
  secrets : w.secrets = true → w'.secrets = true
  peer : w.peer = true → w'.peer = true
  split : w.split = true → w'.split = true
  exported : w.exported = true → w'.exported = true

theorem ExportPoint.Made.mono {w' : Writes} (h : pt.Made w) (hle : w.Le w') : pt.Made w' := by
  cases pt with
  | eagerWipe pair => exact hle.ck h
  | storePeer keys => exact ⟨hle.ck h.1, hle.secrets h.2⟩
  | storeSplitDone keys => exact ⟨hle.ck h.1, hle.secrets h.2.1, hle.peer h.2.2⟩
  | storeKeysExported keys =>
      exact ⟨hle.ck h.1, hle.secrets h.2.1, hle.peer h.2.2.1, hle.split h.2.2.2⟩
  | returned code keys =>
      cases code with
      | ok => exact ⟨hle.ck h.1, hle.secrets h.2.1, hle.peer h.2.2.1, hle.split h.2.2.2.1,
          hle.exported h.2.2.2.2⟩
      | _ => trivial
  | _ => trivial

theorem ExportPoint.Sound.mono {w' : Writes} (h : pt.Sound X s out w) (hle : w.Le w') :
    pt.Sound X s out w' := by
  constructor
  · obtain hwaits | ⟨genuine, hholds, hfirst⟩ := h.keys
    · exact Or.inl hwaits
    · refine Or.inr ⟨genuine, hholds, fun hno => hfirst ?_⟩
      cases hck : w.ck with
      | false => rfl
      | true =>
          rw [hle.ck hck] at hno
          cases hno
  · exact h.made.mono hle

theorem Writes.Le.refl (w : Writes) : w.Le w := ⟨id, id, id, id, id⟩

/-- A step of an export that has made some of the writes. -/
theorem ExportPoint.Made.step (h : pt.Made w) : ∃ w', w.Le w' ∧
    (exportStep X (s.after w) pt).2 = s.after w' ∧ (exportStep X (s.after w) pt).1.Made w' ∧
      (w'.ck = true → w.ck = true ∨ ∃ pair, pt = .wipeChainingKey pair) := by
  have hquiet : ∀ {p : ExportPoint}, p.Made w → exportStep X (s.after w) pt = (p, s.after w) →
      ∃ w', w.Le w' ∧ (exportStep X (s.after w) pt).2 = s.after w' ∧
        (exportStep X (s.after w) pt).1.Made w' ∧
          (w'.ck = true → w.ck = true ∨ ∃ pair, pt = .wipeChainingKey pair) := by
    intro p hmade heq
    rw [heq]
    exact ⟨w, Writes.Le.refl w, rfl, hmade, Or.inl⟩
  cases pt with
  | checkNull out =>
      cases out with
      | none => exact hquiet (p := .returned .errNullArg none) trivial rfl
      | some keys => exact hquiet (p := .checkComplete keys) trivial rfl
  | checkComplete keys =>
      cases hc : (s.after w).handshake.isComplete with
      | false =>
          exact hquiet (p := .returned .errInvalidState (some keys)) trivial
            (by simp [exportStep, hc])
      | true => exact hquiet (p := .checkSplit keys) trivial (by simp [exportStep, hc])
  | checkSplit keys =>
      cases hs : (s.after w).splitDone with
      | false => exact hquiet (p := .derive) trivial (by simp [exportStep, hs])
      | true =>
          exact hquiet (p := .returned .errInvalidState (some keys)) trivial
            (by simp [exportStep, hs])
  | derive => exact hquiet (p := .wipeChainingKey _) trivial rfl
  | returned code keys => exact hquiet h rfl
  | wipeChainingKey pair =>
      refine ⟨{ w with ck := true }, ⟨fun _ => rfl, id, id, id, id⟩, ?_, rfl,
        fun _ => Or.inr ⟨pair, rfl⟩⟩
      obtain ⟨ck, secrets, peer, split, exported⟩ := w
      cases ck <;> cases secrets <;> rfl
  | eagerWipe pair =>
      refine ⟨{ w with secrets := true }, ⟨id, fun _ => rfl, id, id, id⟩, ?_, ⟨h, rfl⟩, Or.inl⟩
      obtain ⟨ck, secrets, peer, split, exported⟩ := w
      cases ck <;> cases secrets <;> rfl
  | storePeer keys =>
      refine ⟨{ w with peer := true }, ⟨id, id, fun _ => rfl, id, id⟩, ?_, ⟨h.1, h.2, rfl⟩, Or.inl⟩
      obtain ⟨ck, secrets, peer, split, exported⟩ := w
      cases ck <;> cases secrets <;> rfl
  | storeSplitDone keys =>
      refine ⟨{ w with split := true }, ⟨id, id, id, fun _ => rfl, id⟩, ?_,
        ⟨h.1, h.2.1, h.2.2, rfl⟩, Or.inl⟩
      obtain ⟨ck, secrets, peer, split, exported⟩ := w
      cases ck <;> cases secrets <;> rfl
  | storeKeysExported keys =>
      refine ⟨{ w with exported := true }, ⟨id, id, id, id, fun _ => rfl⟩, ?_,
        ⟨h.1, h.2.1, h.2.2.1, h.2.2.2, rfl⟩, Or.inl⟩
      obtain ⟨ck, secrets, peer, split, exported⟩ := w
      cases ck <;> cases secrets <;> rfl

/-- Keys that are held stay held. -/
theorem ExportPoint.Holds.step {genuine : Bool} (h : pt.Holds X s genuine) (w : Writes) :
    (exportStep X (s.after w) pt).1.Holds X s genuine := by
  have hframe : (s.after w).handshake.initiator = s.handshake.initiator ∧
      (s.after w).handshake.handshakeHash = s.handshake.handshakeHash ∧
      (s.after w).handshake.peerStaticPublicKey = s.handshake.peerStaticPublicKey := by
    obtain ⟨ck, secrets, peer, split, exported⟩ := w
    cases ck <;> cases secrets <;> exact ⟨rfl, rfl, rfl⟩
  cases pt with
  | wipeChainingKey pair => exact h
  | eagerWipe pair =>
      obtain rfl : pair = pairOf X s genuine := h
      simp only [exportStep, Holds, cipherKeysFor, keysFor, keysOf, HandshakeState.assign,
        hframe.1]
  | storePeer keys =>
      obtain rfl : keys = cipherKeysFor X s genuine := h
      simp only [exportStep, Holds, cipherKeysFor, hframe.2.1, hframe.2.2]
      rfl
  | storeSplitDone keys => exact h
  | storeKeysExported keys => exact congrArg some h
  | returned code keys => exact h
  | _ => exact h.elim

/-- An export without keys goes on without, or reads the chaining key. -/
theorem ExportPoint.Waits.step (h : pt.Waits out) (w : Writes) :
    (exportStep X (s.after w) pt).1.Waits out ∨
      (exportStep X (s.after w) pt).1.Holds X s (!w.ck) := by
  cases pt with
  | checkNull keys =>
      left
      cases keys with
      | none => exact ⟨by decide, h⟩
      | some keys => exact h
  | checkComplete keys =>
      left
      cases hc : (s.after w).handshake.isComplete with
      | false => simpa [exportStep, hc, Waits] using h
      | true => simpa [exportStep, hc, Waits] using h
  | checkSplit keys =>
      left
      cases hs : (s.after w).splitDone with
      | false => simp [exportStep, hs, Waits]
      | true => simpa [exportStep, hs, Waits] using h
  | derive =>
      right
      change ((s.after w).handshake.symmetric.split X).1 = pairOf X s (!w.ck)
      obtain ⟨ck, secrets, peer, split, exported⟩ := w
      cases ck <;> cases secrets <;> rfl
  | returned code keys => exact Or.inl h
  | _ => exact h.elim

variable {outs : Nat → Option HandshakeKeys} {g g' : Exports} {i : Nat}

/-- A step of any export keeps them all sound. -/
theorem Underway.step (h : Underway X s outs g w) (hstep : ExportsStep X g i g') :
    ∃ w', w.Le w' ∧ Underway X s outs g' w' := by
  obtain rfl := hstep
  have hi := h.sound i
  obtain ⟨w', hle, hsession, hmade, hfirst⟩ := hi.made.step (X := X) (s := s)
  have hck : w'.ck = false → w.ck = false := by
    intro hno
    cases hck : w.ck with
    | false => rfl
    | true =>
        rw [hle.ck hck] at hno
        cases hno
  refine ⟨w', hle, ?_, ?_, ?_⟩
  · rw [← hsession, ← h.session]
    rfl
  · apply Threads.forall_stepped (L := fun j (pt : ExportPoint) => pt.Sound X s (outs j) w')
    · rw [h.session]
      refine ⟨?_, hmade⟩
      obtain hwaits | ⟨genuine, hholds, hgenuine⟩ := hi.keys
      · obtain hwaits' | hholds' := hwaits.step (X := X) (s := s) w
        · exact Or.inl hwaits'
        · refine Or.inr ⟨!w.ck, hholds', fun hno => ?_⟩
          rw [hck hno]
          rfl
      · exact Or.inr ⟨genuine, hholds.step w, fun hno => hgenuine (hck hno)⟩
    · exact fun j _ => (h.sound j).mono hle
  · intro hwiped
    -- the export that held the session's keys still does, or this one is the first to wipe
    have hkeeps : ∀ j, (g.pcs j).Holds X s true →
        ∃ j, ((g.stepped (exportStep X) i).pcs j).Holds X s true := by
      intro j hholds
      refine ⟨j, ?_⟩
      by_cases hj : j = i
      · rw [hj] at hholds ⊢
        rw [Threads.stepped_pcs_self, h.session]
        exact hholds.step w
      · rw [Threads.stepped_pcs_of_ne g hj]
        exact hholds
    cases hck : w.ck with
    | true =>
        obtain ⟨j, hholds⟩ := h.genuine hck
        exact hkeeps j hholds
    | false =>
        obtain hno | ⟨pair, hpt⟩ := hfirst hwiped
        · rw [hck] at hno
          cases hno
        · obtain hwaits | ⟨genuine, hholds, hgenuine⟩ := hi.keys
          · rw [hpt] at hwaits
            exact hwaits.elim
          · rw [hgenuine hck] at hholds
            exact hkeeps i hholds

theorem Underway.start (s : NoiseSession) (outs : Nat → Option HandshakeKeys) :
    Underway X s outs (Exports.start s outs) {} :=
  ⟨rfl, fun _ => ⟨Or.inl rfl, trivial⟩, nofun⟩

theorem underway_of_run {tr : List Nat} (run : Run (ExportsStep X) (Exports.start s outs) tr g) :
    ∃ w, Underway X s outs g w := by
  apply run.invariant (I := fun g => ∃ w, Underway X s outs g w)
  · rintro g i g' ⟨w, h⟩ hstep
    obtain ⟨w', _, h'⟩ := h.step hstep
    exact ⟨w', h'⟩
  · exact ⟨_, Underway.start s outs⟩

end Invariant

section Results

variable {s : NoiseSession} {w : Writes} {outs : Nat → Option HandshakeKeys} {g g' : Exports}
  {i : Nat}

/-- A successful export holds the keys it returned, and has made every write. -/
theorem Underway.returned (h : Underway X s outs g w) {keys : Option HandshakeKeys}
    (hi : g.pcs i = .returned .ok keys) :
    (∃ genuine, keys = some (keysFor X s genuine)) ∧ w = ⟨true, true, true, true, true⟩ := by
  have hsound := h.sound i
  rw [hi] at hsound
  constructor
  · obtain hwaits | ⟨genuine, hholds, _⟩ := hsound.keys
    · exact absurd rfl hwaits.1
    · exact ⟨genuine, hholds⟩
  · obtain ⟨hck, hsecrets, hpeer, hsplit, hexported⟩ := hsound.made
    obtain ⟨ck, secrets, peer, split, exported⟩ := w
    simp only at hck hsecrets hpeer hsplit hexported
    rw [hck, hsecrets, hpeer, hsplit, hexported]

/-- Keys that are held by an export that is not busy were returned. -/
theorem ExportPoint.Holds.settled {genuine : Bool} {pt : ExportPoint}
    (h : pt.Holds X s genuine) (hidle : ¬ pt.busy) :
    pt = .returned .ok (some (keysFor X s genuine)) := by
  cases pt with
  | checkNull out => exact h.elim
  | returned code keys =>
      cases code with
      | ok => exact congrArg (ExportPoint.returned .ok) h
      | _ => exact h.elim
  | _ => exact absurd trivial hidle

theorem Underway.law (h : Underway X s outs g w) : ExportsLaw X s outs g := by
  constructor
  · intro i keys hi
    obtain ⟨genuine, rfl⟩ := (h.returned hi).1
    cases genuine with
    | true => exact Or.inl rfl
    | false => exact Or.inr rfl
  · intro i code out hi hne
    have hsound := h.sound i
    rw [hi] at hsound
    obtain hwaits | ⟨genuine, hholds, _⟩ := hsound.keys
    · exact hwaits.2
    · cases code with
      | ok => exact absurd rfl hne
      | _ => exact hholds.elim
  · rintro ⟨i, keys, hi⟩ hidle
    obtain rfl := (h.returned hi).2
    obtain ⟨j, hholds⟩ := h.genuine rfl
    exact ⟨⟨j, hholds.settled (hidle j)⟩, h.session⟩

/-- An export that got through its checks, and has not been refused since. -/
def ExportPoint.Claims : ExportPoint → Prop
  | .checkNull _ => False
  | .checkComplete _ => False
  | .checkSplit _ => False
  | .returned code _ => code = .ok
  | _ => True

theorem ExportPoint.Holds.claims {genuine : Bool} {pt : ExportPoint}
    (h : pt.Holds X s genuine) : pt.Claims := by
  cases pt with
  | returned code keys =>
      cases code with
      | ok => rfl
      | _ => exact h.elim
  | checkNull out => exact h.elim
  | checkComplete out => exact h.elim
  | checkSplit out => exact h.elim
  | _ => trivial

/-- One by one, at most one export gets through the checks: `split_done` keeps the others
out. -/
theorem claims_unique_of_run {tr : List Nat}
    (run : Run (Guarded OneByOne (ExportsStep X)) (Exports.start s outs) tr g) :
    ∃ w, Underway X s outs g w ∧ ∀ j k, (g.pcs j).Claims → (g.pcs k).Claims → j = k := by
  apply run.invariant (I := fun g =>
    ∃ w, Underway X s outs g w ∧ ∀ j k, (g.pcs j).Claims → (g.pcs k).Claims → j = k)
  · rintro g i g' ⟨w, h, hunique⟩ ⟨halone, hstep⟩
    obtain ⟨w', _, h'⟩ := h.step hstep
    refine ⟨w', h', ?_⟩
    obtain rfl := hstep
    apply Threads.unique_of_alone _ hunique
    intro j hj hclaims hnext
    -- the other has returned, so the session is split
    have hsplit : g.shared.splitDone = true := by
      have hidle := halone j hj
      cases hpt : g.pcs j with
      | returned code keys =>
          rw [hpt] at hclaims
          obtain rfl : code = .ok := hclaims
          rw [h.session, (h.returned hpt).2]
          rfl
      | checkNull out =>
          rw [hpt] at hclaims
          exact hclaims.elim
      | _ =>
          rw [hpt] at hidle
          exact absurd trivial hidle
    cases hpt : g.pcs i with
    | checkNull out =>
        rw [hpt] at hnext
        cases out <;> cases hnext
    | checkComplete out =>
        rw [hpt, exportStep] at hnext
        split at hnext <;> cases hnext
    | checkSplit out =>
        rw [hpt, exportStep, if_pos hsplit] at hnext
        cases hnext
    | returned code keys =>
        rw [hpt] at hnext
        exact hnext
    | _ => trivial
  · exact ⟨_, Underway.start s outs, fun j k hj => hj.elim⟩

/-- An export passes its checks and reads the chaining key. -/
theorem run_begins (out : HandshakeKeys) (hpc : g.pcs i = .checkNull (some out))
    (hc : g.shared.handshake.isComplete = true) (hs : g.shared.splitDone = false) :
    Run (ExportsStep X) g (List.replicate 4 i) ⟨g.shared, Function.update g.pcs i
      (.wipeChainingKey (g.shared.handshake.symmetric.split X).1)⟩ := by
  apply Threads.run_alone
  rw [hpc]
  exact exportStep_checks hc hs out

/-- It does the rest. -/
theorem run_finishes {pair : SplitPair} (hpc : g.pcs i = .wipeChainingKey pair) :
    Run (ExportsStep X) g (List.replicate 5 i) ⟨g.shared.exported X, Function.update g.pcs i
      (.returned .ok (some (keysOf X g.shared pair)))⟩ := by
  apply Threads.run_alone
  rw [hpc]
  exact exportStep_rest g.shared pair

/-- Both exports read the chaining key before either wipes it. -/
theorem exports_twice (hc : s.handshake.isComplete = true) (hs : s.splitDone = false)
    (out out' : HandshakeKeys) : ∃ tr g, Run (ExportsStep X)
      (Exports.start s fun i => if i = 0 then some out else some out') tr g ∧
        g.pcs 0 = .returned .ok (some (exportedKeys X s)) ∧
        g.pcs 1 = .returned .ok (some (exportedKeys X s)) := by
  have hfirst := run_begins (X := X) (i := 0)
    (g := Exports.start s fun i => if i = 0 then some out else some out') out rfl hc hs
  have hsecond := hfirst.append (run_begins (i := 1) out' rfl hc hs)
  have hreturns := hsecond.append (run_finishes (i := 0) rfl)
  have hagain := hreturns.append (run_finishes (i := 1) rfl)
  exact ⟨_, _, hagain, rfl, rfl⟩

/-- The second export reads the chaining key once the first has wiped it. -/
theorem exports_blank (hc : s.handshake.isComplete = true) (hs : s.splitDone = false)
    (out out' : HandshakeKeys) : ∃ tr g, Run (ExportsStep X)
      (Exports.start s fun i => if i = 0 then some out else some out') tr g ∧
        g.pcs 0 = .returned .ok (some (exportedKeys X s)) ∧
        g.pcs 1 = .returned .ok (some (blankKeys X s)) := by
  have hfirst := run_begins (X := X) (i := 0)
    (g := Exports.start s fun i => if i = 0 then some out else some out') out rfl hc hs
  have hwipes := hfirst.append (Run.single (l := 0) rfl)
  have hsecond := hwipes.append (run_begins (i := 1) out' rfl hc hs)
  have hreturns := hsecond.append (Threads.run_alone (n := 4) (i := 0) rfl)
  have hagain := hreturns.append (run_finishes (i := 1) rfl)
  exact ⟨_, _, hagain, rfl, rfl⟩

/-- Exports in any order: whatever one of them writes is genuine or blank; one by one they
succeed once, and otherwise both ways of going wrong are possible. -/
theorem exports_overlap (hc : s.handshake.isComplete = true) (hs : s.splitDone = false) :
    ExportsOverlap X s := by
  constructor
  · exact exportStep_entry
  · intro outs tr g run
    obtain ⟨w, h⟩ := underway_of_run run
    exact h.law
  · intro outs tr g run i keys hi
    obtain ⟨w, h, hunique⟩ := claims_unique_of_run run
    have hclaims : (g.pcs i).Claims := by
      rw [hi]
      rfl
    have hwiped : w.ck = true := by rw [(h.returned hi).2]
    obtain ⟨j, hholds⟩ := h.genuine hwiped
    obtain rfl := hunique i j hclaims hholds.claims
    refine ⟨?_, fun k keys' hk => hunique k i (by rw [hk]; rfl) hclaims⟩
    rw [hi] at hholds
    exact hholds
  · exact exports_twice hc hs
  · exact exports_blank hc hs

open Miniature in
/-- The small responder's exports may overlap. -/
theorem exports_overlap_small : ∃ s : NoiseSession, ExportsOverlap external s := by
  obtain ⟨_, s, _, _, _, hexport⟩ := smallResponder_completes smallOut
  obtain ⟨_, hc, hs, _⟩ | ⟨hne, _⟩ := hexport.export_cases
  · exact ⟨s, exports_overlap hc hs⟩
  · exact absurd rfl hne

end Results

end SecurityNoise
