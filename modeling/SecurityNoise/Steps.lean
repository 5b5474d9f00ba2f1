import SecurityNoise.Foundation.Runs
import SecurityNoise.CipherKeys
import SecurityNoise.Provider

/-!
# Handshake steps of a session

What a message call and a `handshake_step` can do, told once: an inversion lemma for each
entry, and the frame that both message calls keep. The results about sessions start from
these and unfold no entry.
-/

namespace SecurityNoise

open Framework (Role Token)

variable {X : External}

section Moves

/-- The frame of message calls: what they leave alone, and how they count. -/
structure Moved (hs hs' : HandshakeState) : Prop where
  pattern : hs'.pattern = hs.pattern
  initiator : hs'.initiator = hs.initiator
  sSk : hs'.sSk = hs.sSk
  sPk : hs'.sPk = hs.sPk
  step_le : hs.step ≤ hs'.step
  bound : hs.step ≤ hs.stepsTotal → hs'.step ≤ hs'.stepsTotal
  complete : hs.isComplete = true → hs' = hs

variable {hs hs' hs'' : HandshakeState} {r : Option Bytes} {t : Traced}

namespace Moved

theorem refl (hs : HandshakeState) : Moved hs hs :=
  ⟨rfl, rfl, rfl, rfl, Nat.le_refl _, id, fun _ => rfl⟩

theorem trans (h : Moved hs hs') (h' : Moved hs' hs'') : Moved hs hs'' where
  pattern := h'.pattern.trans h.pattern
  initiator := h'.initiator.trans h.initiator
  sSk := h'.sSk.trans h.sSk
  sPk := h'.sPk.trans h.sPk
  step_le := Nat.le_trans h.step_le h'.step_le
  bound hle := h'.bound (h.bound hle)
  complete hc := by
    have heq := h.complete hc
    subst heq
    exact h'.complete hc

theorem stepsTotal (h : Moved hs hs') : hs'.stepsTotal = hs.stepsTotal := by
  rw [hs'.stepsTotal_eq, hs.stepsTotal_eq, h.pattern]

/-- A state with messages left may change and count one of them. -/
theorem of_open {counted : Nat} (hc : hs.isComplete = false) (hp : hs'.pattern = hs.pattern)
    (hi : hs'.initiator = hs.initiator) (hsk : hs'.sSk = hs.sSk) (hpk : hs'.sPk = hs.sPk)
    (hstep : hs'.step = hs.step + counted) (hle : counted ≤ 1) : Moved hs hs' where
  pattern := hp
  initiator := hi
  sSk := hsk
  sPk := hpk
  step_le := hstep ▸ Nat.le_add_right _ _
  bound _ := by
    have hlt := step_lt hc
    rw [hstep, hs'.stepsTotal_eq, hp]
    omega
  complete h := by
    rw [hc] at h
    cases h

end Moved

/-- The messages a call counts. -/
def counts (r : Option Bytes) : Nat := if r.isSome then 1 else 0

theorem counts_le (r : Option Bytes) : counts r ≤ 1 := by
  unfold counts
  split <;> omega

/-- A `read_message` with messages left: a piece, counted if it is accepted. -/
theorem readMessage_piece {m : Bytes} (hc : hs.isComplete = false)
    (h : hs.readMessage X m = .ok (r, t)) :
    ∃ t₁, (readBody X m hs.pattern hs.step).run ⟨hs, []⟩ = .ok (r, t₁) ∧
      Piece .read ⟨hs, []⟩ t₁ ∧ t = if r.isSome then t₁.counted .read else t₁ := by
  obtain ⟨hc', _⟩ | ⟨_, h⟩ := readMessage_eq_ok h
  · rw [hc] at hc'
    cases hc'
  · exact h

/-- A `write_message` with messages left: a piece from the drawn key on, counted if it
succeeds. -/
theorem writeMessage_piece {random : PrivateKey} {payload : Bytes}
    (hc : hs.isComplete = false) (h : hs.writeMessage X random payload = .ok (r, t)) :
    ∃ t₁, Piece .written (afterDrawing X random hs.pattern hs.step ⟨hs, []⟩) t₁ ∧
      t = (if r.isSome then t₁.counted .written else t₁) ∧
      (draws hs.pattern hs.step = true → ∀ out, r = some out →
        (generateKeypair X random).pk.toList <+: out) := by
  obtain ⟨hc', _⟩ | ⟨_, t₁, hrun, ht⟩ := writeMessage_eq_ok h
  · rw [hc] at hc'
    cases hc'
  · exact ⟨t₁, (writeBody_eq_ok hrun).1, ht, (writeBody_eq_ok hrun).2⟩

theorem readMessage_moved {m : Bytes} (h : hs.readMessage X m = .ok (r, t)) :
    Moved hs t.hs ∧ (hs.isComplete = false → t.hs.step = hs.step + counts r) := by
  rcases Bool.eq_false_or_eq_true hs.isComplete with hc | hc
  · rw [readMessage_complete hc] at h
    obtain ⟨_, rfl⟩ := Prod.mk.inj (Except.ok.inj h)
    refine ⟨Moved.refl hs, fun hopen => ?_⟩
    rw [hc] at hopen
    cases hopen
  · obtain ⟨t₁, _, hpiece, rfl⟩ := readMessage_piece hc h
    have hstep : (if r.isSome then t₁.counted .read else t₁).hs.step =
        hs.step + counts r := by
      have hs₁ := hpiece.step
      unfold counts
      cases r with
      | none => exact hs₁
      | some out => exact congrArg (· + 1) hs₁
    refine ⟨?_, fun _ => hstep⟩
    cases r with
    | none =>
        exact Moved.of_open hc hpiece.pattern hpiece.initiator hpiece.sSk hpiece.sPk hstep
          (counts_le _)
    | some out =>
        exact Moved.of_open hc hpiece.pattern hpiece.initiator hpiece.sSk hpiece.sPk hstep
          (counts_le _)

theorem writeMessage_moved {random : PrivateKey} {payload : Bytes}
    (h : hs.writeMessage X random payload = .ok (r, t)) :
    Moved hs t.hs ∧ (hs.isComplete = false → t.hs.step = hs.step + counts r) := by
  rcases Bool.eq_false_or_eq_true hs.isComplete with hc | hc
  · rw [writeMessage_complete hc] at h
    obtain ⟨_, rfl⟩ := Prod.mk.inj (Except.ok.inj h)
    refine ⟨Moved.refl hs, fun hopen => ?_⟩
    rw [hc] at hopen
    cases hopen
  · obtain ⟨t₁, hpiece, rfl, _⟩ := writeMessage_piece hc h
    obtain ⟨hp, hi, hst, hsk, hpk⟩ :=
      afterDrawing_frame X random hs.pattern hs.step ⟨hs, []⟩
    have hstep : (if r.isSome then t₁.counted .written else t₁).hs.step =
        hs.step + counts r := by
      have hs₁ := hpiece.step.trans hst
      unfold counts
      cases r with
      | none => exact hs₁
      | some out => exact congrArg (· + 1) hs₁
    refine ⟨?_, fun _ => hstep⟩
    cases r with
    | none =>
        exact Moved.of_open hc (hpiece.pattern.trans hp) (hpiece.initiator.trans hi)
          (hpiece.sSk.trans hsk) (hpiece.sPk.trans hpk) hstep (counts_le _)
    | some out =>
        exact Moved.of_open hc (hpiece.pattern.trans hp) (hpiece.initiator.trans hi)
          (hpiece.sSk.trans hsk) (hpiece.sPk.trans hpk) hstep (counts_le _)

end Moves

section Entries

variable {s : NoiseSession} {r : StepReply} {random : PrivateKey} {alloc : Bool}

/-- What the writing half of `handshake_step` did: nothing out of turn, else one
`write_message` without a payload. -/
theorem writeTurn_cases {log : List Event} {out : SecureBuffer}
    (h : writeTurn X s log random alloc out = .ok r) :
    (s.writerTurn = false ∧ r = ⟨.ok, some out, s, log⟩) ∨
      (s.writerTurn = true ∧ ∃ produced t,
        s.handshake.writeMessage X random [] = .ok (produced, t) ∧
        r.session = { s with handshake := t.hs } ∧ r.log = log ++ t.log ∧
        (produced = none → r.code = .errInvalidEnvelope ∧ r.out = some out) ∧
        ∀ m, produced = some m → (r.code, r.out) = emitBuffer alloc m (some out)) := by
  unfold writeTurn at h
  rcases Bool.eq_false_or_eq_true s.writerTurn with hturn | hturn
  · refine Or.inr ⟨hturn, ?_⟩
    rw [hturn] at h
    simp only [Bool.not_true, Bool.false_eq_true, if_false] at h
    split at h
    · cases h
    · rename_i t ht
      obtain rfl := Except.ok.inj h
      exact ⟨none, t, ht, rfl, rfl, fun _ => ⟨rfl, rfl⟩, nofun⟩
    · rename_i m t ht
      obtain rfl := Except.ok.inj h
      refine ⟨some m, t, ht, rfl, rfl, nofun, ?_⟩
      rintro m ⟨⟩
      rfl
  · rw [hturn] at h
    exact Or.inl ⟨hturn, (Except.ok.inj h).symm⟩

/-- What a `handshake_step` did: rejected a null argument, wrote in turn, or read the
incoming bytes and then, unless the handshake was over, wrote in turn. -/
theorem noiseHandshakeStep_cases {incoming : Bytes} {out : Option SecureBuffer}
    (h : noiseHandshakeStep X s incoming random alloc out = .ok r) :
    (out = none ∧ r = ⟨.errNullArg, none, s, []⟩) ∨
      (incoming = [] ∧ writeTurn X s [] random alloc {} = .ok r) ∨
      (incoming ≠ [] ∧ ∃ got t, s.handshake.readMessage X incoming = .ok (got, t) ∧
        ((got = none ∧
            r = ⟨.errInvalidEnvelope, some {}, { s with handshake := t.hs }, t.log⟩) ∨
          (got.isSome = true ∧ t.hs.isComplete = true ∧
            r = ⟨.ok, some {}, { s with handshake := t.hs }, t.log⟩) ∨
          (got.isSome = true ∧ t.hs.isComplete = false ∧
            writeTurn X { s with handshake := t.hs } t.log random alloc {} = .ok r))) := by
  cases out with
  | none => exact Or.inl ⟨rfl, (Except.ok.inj h).symm⟩
  | some buffer =>
      refine Or.inr ?_
      unfold noiseHandshakeStep at h
      cases incoming with
      | nil => exact Or.inl ⟨rfl, h⟩
      | cons b bs =>
          refine Or.inr ⟨List.cons_ne_nil b bs, ?_⟩
          simp only [List.length_cons, Nat.succ_pos, if_true] at h
          split at h
          · cases h
          · rename_i t ht
            exact ⟨none, t, ht, Or.inl ⟨rfl, (Except.ok.inj h).symm⟩⟩
          · rename_i plain t ht
            refine ⟨some plain, t, ht, Or.inr ?_⟩
            rcases Bool.eq_false_or_eq_true t.hs.isComplete with hc | hc
            · rw [if_pos hc] at h
              exact Or.inl ⟨rfl, hc, (Except.ok.inj h).symm⟩
            · rw [if_neg (Bool.eq_false_iff.mp hc)] at h
              exact Or.inr ⟨rfl, hc, h⟩

theorem writeTurn_session {log : List Event} {out : SecureBuffer}
    (h : writeTurn X s log random alloc out = .ok r) :
    ∃ hs, r.session = { s with handshake := hs } ∧ Moved s.handshake hs := by
  obtain ⟨_, rfl⟩ | ⟨_, produced, t, hw, hsession, _⟩ := writeTurn_cases h
  · exact ⟨s.handshake, rfl, Moved.refl _⟩
  · exact ⟨t.hs, hsession, (writeMessage_moved hw).1⟩

/-- A `handshake_step` changes nothing of the session but the handshake state. -/
theorem noiseHandshakeStep_session {incoming : Bytes} {out : Option SecureBuffer}
    (h : noiseHandshakeStep X s incoming random alloc out = .ok r) :
    ∃ hs, r.session = { s with handshake := hs } ∧ Moved s.handshake hs := by
  obtain ⟨_, rfl⟩ | ⟨_, hw⟩ | ⟨_, got, t, hread, hrest⟩ := noiseHandshakeStep_cases h
  · exact ⟨s.handshake, rfl, Moved.refl _⟩
  · exact writeTurn_session hw
  · have hmoved := (readMessage_moved hread).1
    obtain ⟨_, rfl⟩ | ⟨_, _, rfl⟩ | ⟨_, _, hw⟩ := hrest
    · exact ⟨t.hs, rfl, hmoved⟩
    · exact ⟨t.hs, rfl, hmoved⟩
    · obtain ⟨hs, hsession, hmoved'⟩ := writeTurn_session hw
      exact ⟨hs, hsession, hmoved.trans hmoved'⟩

/-- The keys a successful export writes. -/
def exportedKeys (X : External) (s : NoiseSession) : HandshakeKeys where
  apiSize := X.handshakeKeysSize
  sendCipherKey := (s.handshake.split X).1.send.k
  recvCipherKey := (s.handshake.split X).1.recv.k
  initialSendNonce := 0
  initialRecvNonce := 0
  handshakeHash := Block.truncate hashBytes_le (s.handshake.split X).2.handshakeHash
  peerStaticPk := (s.handshake.split X).2.peerStaticPublicKey

/-- The session a successful export leaves. -/
def NoiseSession.exported (X : External) (s : NoiseSession) : NoiseSession :=
  { s with
    handshake := (s.handshake.split X).2
    peerX25519Pk := (s.handshake.split X).2.peerStaticPublicKey
    splitDone := true
    keysExported := true }

/-- Export succeeds on a complete session that has not been split. -/
theorem noiseExportTransportKeys_ok (hc : s.handshake.isComplete = true)
    (hs : s.splitDone = false) (out : HandshakeKeys) :
    noiseExportTransportKeys X s (some out) =
      (.ok, some (exportedKeys X s), s.exported X) := by
  simp only [noiseExportTransportKeys, hc, hs, Bool.not_true, Bool.false_eq_true, if_false]
  rfl

/-- On any other session it changes nothing. -/
theorem noiseExportTransportKeys_refused
    (h : s.handshake.isComplete = false ∨ s.splitDone = true) (out : HandshakeKeys) :
    noiseExportTransportKeys X s (some out) = (.errInvalidState, some out, s) := by
  unfold noiseExportTransportKeys
  rcases Bool.eq_false_or_eq_true s.handshake.isComplete with hc | hc
  · have hs : s.splitDone = true := h.resolve_left (by simp [hc])
    simp [hc, hs]
  · simp [hc]

/-- The sessions `handshake_open` returns are freshly constructed, from the converted keys. -/
theorem Opened.keys {p : Pattern} {args : OpenArgs} (h : Opened X p args s) :
    ∃ edSk edPk keys rs, args.localStaticSk = some edSk ∧ args.localStaticPk = some edPk ∧
      ed25519ToX25519 X edSk edPk = some keys ∧ pinnedKey X p args = .ok rs ∧
      s = NoiseSession.make X p (args.role = .initiator) keys rs := by
  unfold Opened noiseHandshakeOpen at h
  split at h
  · rename_i edSk edPk _ hsk hpk
    split at h
    · cases h
    · rename_i keys hkeys
      split at h
      · cases h
      · rename_i rs hrs
        split at h
        · cases h
        · exact ⟨edSk, edPk, keys, rs, hsk, hpk, hkeys, hrs,
            (Option.some.inj (Prod.mk.inj h).2).symm⟩
  · cases h

theorem Opened.make {p : Pattern} {args : OpenArgs} (h : Opened X p args s) :
    ∃ keys rs, pinnedKey X p args = .ok rs ∧
      s = NoiseSession.make X p (args.role = .initiator) keys rs := by
  obtain ⟨_, _, keys, rs, _, _, _, hrs, hs⟩ := h.keys
  exact ⟨keys, rs, hrs, hs⟩

end Entries

section Calls

/-- The arguments of `handshake_step`, with the random bytes it would draw. -/
structure StepCall where
  incoming : Bytes
  random : PrivateKey
  alloc : Bool := true
  out : Option SecureBuffer := some {}

/-- The steps of a session driven by `handshake_step` alone: a call and its reply. -/
def HandshakeStep (X : External) (s : NoiseSession) (l : StepCall × StepReply)
    (s' : NoiseSession) : Prop :=
  noiseHandshakeStep X s l.1.incoming l.1.random l.1.alloc l.1.out = .ok l.2 ∧
    s' = l.2.session

/-- Makes the calls one after the other: the replies and the session they lead to. -/
def play (X : External) : NoiseSession → List StepCall →
    Except Fatal (List (StepCall × StepReply) × NoiseSession)
  | s, [] => .ok ([], s)
  | s, call :: calls =>
      match noiseHandshakeStep X s call.incoming call.random call.alloc call.out with
      | .error e => .error e
      | .ok r =>
          match play X r.session calls with
          | .error e => .error e
          | .ok (tr, s') => .ok ((call, r) :: tr, s')

/-- Calls made one after the other are a run. -/
theorem run_of_play {s s' : NoiseSession} {calls : List StepCall}
    {tr : List (StepCall × StepReply)} (h : play X s calls = .ok (tr, s')) :
    Run (HandshakeStep X) s tr s' := by
  induction calls generalizing s tr with
  | nil =>
      obtain ⟨rfl, rfl⟩ := Prod.mk.inj (Except.ok.inj h)
      exact Run.nil s
  | cons call calls ih =>
      unfold play at h
      split at h
      · cases h
      · rename_i r hr
        split at h
        · cases h
        · rename_i tr' s'' hplay
          obtain ⟨rfl, rfl⟩ := Prod.mk.inj (Except.ok.inj h)
          exact Run.cons ⟨hr, rfl⟩ (ih hplay)

/-- Where the calls play to an end that passes the test `f`, a run leads there. -/
theorem exists_run (s : NoiseSession) (calls : List StepCall)
    (f : List (StepCall × StepReply) → NoiseSession → Bool)
    (h : (match play X s calls with
      | .ok (tr, s') => f tr s'
      | .error _ => false) = true) :
    ∃ tr s', Run (HandshakeStep X) s tr s' ∧ f tr s' = true := by
  split at h
  · rename_i tr s' hplay
    exact ⟨tr, s', run_of_play hplay, h⟩
  · cases h

end Calls

end SecurityNoise
