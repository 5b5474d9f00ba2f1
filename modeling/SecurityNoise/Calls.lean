import SecurityNoise.Tokens

/-!
# What a message call does

One equation for each piece of `write_message` and `read_message`, then the frame: a
piece never touches the pattern, the step or the local keys, and records only its own
kind of event. Token lists inherit the frame by induction, and the two calls get one
inversion lemma each; later modules use these and unfold nothing.
-/

namespace SecurityNoise

open Framework (Role Token)

variable {X : External}

section Equations

variable (t : Traced)

/-- The record of a call grows. -/
def Traced.push (t : Traced) (e : Event) : Traced := { t with log := t.log ++ [e] }

/-- A new symmetric state, with the hash input that led to it. -/
def Traced.hashing (t : Traced) (symmetric : SymmetricState) (data : Bytes) : Traced :=
  { hs := { t.hs with symmetric := symmetric }
    log := t.log ++ [.hashed (t.hs.symmetric.h.toList ++ data)] }

/-- The state after `write_e`. -/
def Traced.drawing (X : External) (random : PrivateKey) (t : Traced) : Traced :=
  let e := generateKeypair X random
  { hs := { t.hs with
      ePk := e.pk, eSk := e.sk, symmetric := t.hs.symmetric.mixHash X e.pk.toList }
    log := t.log ++ [.drew e] ++ [.hashed (t.hs.symmetric.h.toList ++ e.pk.toList)] }

/-- The state after `++step_`. -/
def Traced.counted (t : Traced) (dir : Direction) : Traced :=
  { hs := { t.hs with step := t.hs.step + 1 }, log := t.log ++ [.processed t.hs.step dir] }

theorem encryptAndHash_run (p : Bytes) : (encryptAndHash X p).run t =
    match t.hs.symmetric.encryptAndHash X p with
    | .error e => .error e
    | .ok (c, symmetric) => .ok (some c, t.hashing symmetric c) := by
  simp only [encryptAndHash, EarlyExit.run_bind, EarlyExit.run_get, EarlyExit.run_lift]
  cases t.hs.symmetric.encryptAndHash X p with
  | error e => rfl
  | ok r => rfl

theorem decryptAndHash_run (c : Bytes) : (decryptAndHash X c).run t =
    match t.hs.symmetric.decryptAndHash X c with
    | .error e => .error e
    | .ok (none, symmetric) => .ok (none, { t with hs := { t.hs with symmetric := symmetric } })
    | .ok (some p, symmetric) => .ok (some p, t.hashing symmetric c) := by
  simp only [decryptAndHash, EarlyExit.run_bind, EarlyExit.run_get, EarlyExit.run_liftOption]
  cases t.hs.symmetric.decryptAndHash X c with
  | error e => rfl
  | ok r =>
      obtain ⟨p, symmetric⟩ := r
      cases p <;> rfl

theorem writeE_run (random : PrivateKey) : (writeE X random).run t =
    .ok (some (generateKeypair X random).pk.toList, t.drawing X random) := rfl

theorem mixDh_run (dir : Direction) (own : Own) (peer : Peer) : (mixDh X dir own peer).run t =
    let t' := t.push (.dh dir own (t.hs.secret own) (t.hs.peerKey peer))
    match X.scalarmult (t.hs.secret own) (t.hs.peerKey peer) with
    | none => .ok (none, t')
    | some shared => .ok (some ⟨⟩,
        { t' with hs := { t.hs with symmetric := t.hs.symmetric.mixKey X shared.toList } }) := by
  simp only [mixDh, EarlyExit.run_bind, EarlyExit.run_get, emit, EarlyExit.run_update]
  cases X.scalarmult (t.hs.secret own) (t.hs.peerKey peer) with
  | none => rfl
  | some shared => rfl

theorem encryptStatic_run : (encryptStatic X).run t =
    (encryptAndHash X t.hs.sPk.toList).run
      (t.push (.static .written t.hs.symmetric.cipher.hasKey)) := rfl

theorem encryptPayload_run (payload : Bytes) : (encryptPayload X payload).run t =
    (encryptAndHash X payload).run
      (t.push (.payload .written t.hs.symmetric.cipher.hasKey)) := rfl

/-- `read_e` never reads outside its buffer. -/
theorem readE_run (message : Bytes) (offset : Nat) : (readE X message offset).run t =
    match spanBlock DH_PUBLIC_KEY_BYTES message offset with
    | none => .ok (none, t)
    | some re => .ok (some (offset + DH_PUBLIC_KEY_BYTES),
        { t.hashing (t.hs.symmetric.mixHash X re.toList) re.toList with
          hs := { t.hs with re := re, symmetric := t.hs.symmetric.mixHash X re.toList } }) := by
  unfold readE
  by_cases h : message.length < offset + DH_PUBLIC_KEY_BYTES
  · have hn : spanBlock DH_PUBLIC_KEY_BYTES message offset = none := dif_neg (by omega)
    rw [if_pos h, hn, EarlyExit.run_leave]
  · have hs : ∃ re, spanBlock DH_PUBLIC_KEY_BYTES message offset = some re :=
      ⟨_, dif_pos (by omega)⟩
    obtain ⟨re, hre⟩ := hs
    rw [if_neg h, EarlyExit.run_bind, readKey, EarlyExit.run_lift, hre]
    rfl

/-- `read_encrypted_static` never reads outside its buffer. -/
theorem readEncryptedStatic_run (message : Bytes) (offset : Nat) :
    (readEncryptedStatic X message offset).run t =
      match span message offset (DH_PUBLIC_KEY_BYTES + AEAD_TAG_BYTES) with
      | none => .ok (none, t)
      | some enc =>
          (decryptAndHash X enc >>= fun plain =>
            match Block.ofBytes? DH_PUBLIC_KEY_BYTES plain with
            | none => EarlyExit.leave
            | some rs => change (fun hs => { hs with rs := rs, rsKnown := true }) >>= fun _ =>
                pure (offset + (DH_PUBLIC_KEY_BYTES + AEAD_TAG_BYTES))).run
            (t.push (.static .read t.hs.symmetric.cipher.hasKey)) := by
  unfold readEncryptedStatic
  by_cases h : message.length < offset + (DH_PUBLIC_KEY_BYTES + AEAD_TAG_BYTES)
  · have hn : span message offset (DH_PUBLIC_KEY_BYTES + AEAD_TAG_BYTES) = none :=
      if_neg (by omega)
    simp only [if_pos h, hn, EarlyExit.run_leave]
  · have hs : ∃ enc, span message offset (DH_PUBLIC_KEY_BYTES + AEAD_TAG_BYTES) = some enc :=
      ⟨_, if_pos (by omega)⟩
    obtain ⟨enc, henc⟩ := hs
    simp only [if_neg h, henc, EarlyExit.run_bind, readSpan, EarlyExit.run_lift]
    rfl

end Equations

section Inversions

open EarlyExit

variable {t t' : Traced}

/-- A DH in a call failed and left the state alone, or mixed its result in. -/
theorem mixDh_cases {dir : Direction} {own : Own} {peer : Peer} {r : Option PUnit}
    (h : (mixDh X dir own peer).run t = .ok (r, t')) :
    (r = none ∧ X.scalarmult (t.hs.secret own) (t.hs.peerKey peer) = none ∧
        t' = t.push (.dh dir own (t.hs.secret own) (t.hs.peerKey peer))) ∨
      ∃ shared, r = some ⟨⟩ ∧
        X.scalarmult (t.hs.secret own) (t.hs.peerKey peer) = some shared ∧
        t' = { t.push (.dh dir own (t.hs.secret own) (t.hs.peerKey peer)) with
          hs := { t.hs with symmetric := t.hs.symmetric.mixKey X shared.toList } } := by
  rw [mixDh_run] at h
  simp only at h
  split at h
  · rename_i hnone
    obtain ⟨rfl, rfl⟩ := Prod.mk.inj (Except.ok.inj h)
    exact Or.inl ⟨rfl, hnone, rfl⟩
  · rename_i shared hshared
    obtain ⟨rfl, rfl⟩ := Prod.mk.inj (Except.ok.inj h)
    exact Or.inr ⟨shared, rfl, hshared, rfl⟩

/-- A decryption in a call refused its bytes and changed nothing, or opened them. -/
theorem decryptAndHash_cases {c : Bytes} {r : Option Bytes}
    (h : (decryptAndHash X c).run t = .ok (r, t')) :
    (r = none ∧ t' = t) ∨ ∃ p symmetric, r = some p ∧
      t.hs.symmetric.decryptAndHash X c = .ok (some p, symmetric) ∧
      t' = t.hashing symmetric c := by
  rw [decryptAndHash_run] at h
  split at h
  · cases h
  · rename_i symmetric hs
    obtain ⟨rfl, rfl⟩ := Prod.mk.inj (Except.ok.inj h)
    obtain rfl := SymmetricState.decryptAndHash_none hs
    exact Or.inl ⟨rfl, rfl⟩
  · rename_i p symmetric hp
    obtain ⟨rfl, rfl⟩ := Prod.mk.inj (Except.ok.inj h)
    exact Or.inr ⟨p, symmetric, rfl, hp, rfl⟩

theorem encryptAndHash_cases {p : Bytes} {r : Option Bytes}
    (h : (encryptAndHash X p).run t = .ok (r, t')) :
    ∃ c symmetric, r = some c ∧ t.hs.symmetric.encryptAndHash X p = .ok (c, symmetric) ∧
      t' = t.hashing symmetric c := by
  rw [encryptAndHash_run] at h
  split at h
  · cases h
  · rename_i c symmetric hc
    obtain ⟨rfl, rfl⟩ := Prod.mk.inj (Except.ok.inj h)
    exact ⟨c, symmetric, rfl, hc, rfl⟩

/-- A DH token yields what it was given, unless its DH fails. -/
theorem dhToken_cases {α : Type} {x : α} {o : Option α} {dir : Direction} {role : Role}
    {tok : Token} (h : (mixDhOp X dir role tok >>= fun _ => (pure x : Op α)).run t = .ok (o, t')) :
    (o = none ∧ (mixDhOp X dir role tok).run t = .ok (none, t')) ∨
      (o = some x ∧ (mixDhOp X dir role tok).run t = .ok (some ⟨⟩, t')) := by
  obtain ⟨_, t₁, h₁, h₂⟩ | ⟨rfl, h₁⟩ := run_bind_eq_ok h
  · obtain ⟨rfl, rfl⟩ := Prod.mk.inj (Except.ok.inj h₂)
    exact Or.inr ⟨rfl, h₁⟩
  · exact Or.inl ⟨rfl, h₁⟩

/-- `read_e` found too few bytes, or mixed the key in. -/
theorem readE_cases {m : Bytes} {offset : Nat} {o : Option Nat}
    (h : (readE X m offset).run t = .ok (o, t')) :
    (o = none ∧ t' = t) ∨
      ∃ re, spanBlock DH_PUBLIC_KEY_BYTES m offset = some re ∧
        o = some (offset + DH_PUBLIC_KEY_BYTES) ∧
        t' = { t.hashing (t.hs.symmetric.mixHash X re.toList) re.toList with
          hs := { t.hs with re := re, symmetric := t.hs.symmetric.mixHash X re.toList } } := by
  rw [readE_run] at h
  split at h
  · obtain ⟨rfl, rfl⟩ := Prod.mk.inj (Except.ok.inj h)
    exact Or.inl ⟨rfl, rfl⟩
  · rename_i re hre
    obtain ⟨rfl, rfl⟩ := Prod.mk.inj (Except.ok.inj h)
    exact Or.inr ⟨re, hre, rfl, rfl⟩

end Inversions

section Frame

open EarlyExit

/-- The events a piece records, when `eSk` is the ephemeral secret it starts with. -/
def PieceEvent (dir : Direction) (eSk : PrivateKey) : Event → Prop
  | .dh d own sk _ => d = dir ∧ (own = .ephemeral → sk = eSk)
  | .static d _ => d = dir
  | .payload d _ => d = dir
  | .hashed _ => True
  | .drew _ => False
  | .processed _ _ => False

/-- The frame of a piece other than `write_e`. Only reading changes the peer's keys. -/
structure Piece (dir : Direction) (t t' : Traced) : Prop where
  pattern : t'.hs.pattern = t.hs.pattern
  initiator : t'.hs.initiator = t.hs.initiator
  step : t'.hs.step = t.hs.step
  sSk : t'.hs.sSk = t.hs.sSk
  sPk : t'.hs.sPk = t.hs.sPk
  eSk : t'.hs.eSk = t.hs.eSk
  ePk : t'.hs.ePk = t.hs.ePk
  remote : dir = .written →
    t'.hs.re = t.hs.re ∧ t'.hs.rs = t.hs.rs ∧ t'.hs.rsKnown = t.hs.rsKnown
  log : ∃ l, t'.log = t.log ++ l ∧ ∀ ev ∈ l, PieceEvent dir t.hs.eSk ev

variable {dir : Direction} {t t' t'' : Traced}

theorem Piece.refl (t : Traced) : Piece dir t t where
  pattern := rfl
  initiator := rfl
  step := rfl
  sSk := rfl
  sPk := rfl
  eSk := rfl
  ePk := rfl
  remote _ := ⟨rfl, rfl, rfl⟩
  log := ⟨[], by simp⟩

theorem Piece.trans (h : Piece dir t t') (h' : Piece dir t' t'') : Piece dir t t'' where
  pattern := h'.pattern.trans h.pattern
  initiator := h'.initiator.trans h.initiator
  step := h'.step.trans h.step
  sSk := h'.sSk.trans h.sSk
  sPk := h'.sPk.trans h.sPk
  eSk := h'.eSk.trans h.eSk
  ePk := h'.ePk.trans h.ePk
  remote hd := by
    obtain ⟨h₁, h₂, h₃⟩ := h.remote hd
    obtain ⟨h₁', h₂', h₃'⟩ := h'.remote hd
    exact ⟨h₁'.trans h₁, h₂'.trans h₂, h₃'.trans h₃⟩
  log := by
    obtain ⟨l, hl, hev⟩ := h.log
    obtain ⟨l', hl', hev'⟩ := h'.log
    refine ⟨l ++ l', by rw [hl', hl, List.append_assoc], ?_⟩
    intro ev hmem
    rcases List.mem_append.mp hmem with hm | hm
    · exact hev ev hm
    · exact h.eSk ▸ hev' ev hm

/-- A piece that changes the symmetric state and records its own kind of event. -/
theorem Piece.of_symmetric (t : Traced) (symmetric : SymmetricState) {l : List Event}
    (hl : ∀ ev ∈ l, PieceEvent dir t.hs.eSk ev) :
    Piece dir t { hs := { t.hs with symmetric := symmetric }, log := t.log ++ l } where
  pattern := rfl
  initiator := rfl
  step := rfl
  sSk := rfl
  sPk := rfl
  eSk := rfl
  ePk := rfl
  remote _ := ⟨rfl, rfl, rfl⟩
  log := ⟨l, rfl, hl⟩

/-- Recording one event of the piece's own kind. -/
theorem Piece.push (t : Traced) {ev : Event} (hev : PieceEvent dir t.hs.eSk ev) :
    Piece dir t (t.push ev) :=
  Piece.of_symmetric t t.hs.symmetric (by simpa using hev)

theorem Piece.hashing (t : Traced) (symmetric : SymmetricState) (data : Bytes) :
    Piece dir t (t.hashing symmetric data) :=
  Piece.of_symmetric t symmetric (by simp [PieceEvent])

/-- Pieces compose. -/
theorem Piece.bind {α β : Type} {x : Op α} {f : α → Op β} (hx : Within (Piece dir) x)
    (hf : ∀ a, Within (Piece dir) (f a)) : Within (Piece dir) (x >>= f) :=
  Within.bind (fun _ _ _ h h' => h.trans h') hx hf

theorem encryptAndHash_piece (p : Bytes) : Within (Piece dir) (encryptAndHash X p) := by
  intro t r t' h
  obtain ⟨_, _, _, _, rfl⟩ := encryptAndHash_cases h
  exact Piece.hashing t _ _

theorem decryptAndHash_piece (c : Bytes) : Within (Piece dir) (decryptAndHash X c) := by
  intro t r t' h
  obtain ⟨_, rfl⟩ | ⟨_, _, _, _, rfl⟩ := decryptAndHash_cases h
  · exact Piece.refl _
  · exact Piece.hashing t _ _

theorem mixDh_piece (own : Own) (peer : Peer) :
    Within (Piece dir) (mixDh X dir own peer) := by
  intro t r t' h
  have hevent : PieceEvent dir t.hs.eSk
      (.dh dir own (t.hs.secret own) (t.hs.peerKey peer)) := by
    refine ⟨rfl, ?_⟩
    rintro rfl
    rfl
  obtain ⟨_, _, rfl⟩ | ⟨_, _, _, rfl⟩ := mixDh_cases h
  · exact Piece.push t hevent
  · apply Piece.of_symmetric
    intro ev hev
    rw [List.mem_singleton.mp hev]
    exact hevent

theorem encryptStatic_piece : Within (Piece .written) (encryptStatic X) := by
  intro t r t' h
  rw [encryptStatic_run] at h
  have hpush : Piece .written t
      (t.push (.static .written t.hs.symmetric.cipher.hasKey)) := Piece.push t rfl
  exact hpush.trans (encryptAndHash_piece _ _ _ _ h)

theorem encryptPayload_piece (payload : Bytes) :
    Within (Piece .written) (encryptPayload X payload) := by
  intro t r t' h
  rw [encryptPayload_run] at h
  have hpush : Piece .written t
      (t.push (.payload .written t.hs.symmetric.cipher.hasKey)) := Piece.push t rfl
  exact hpush.trans (encryptAndHash_piece _ _ _ _ h)

theorem readE_piece (message : Bytes) (offset : Nat) :
    Within (Piece .read) (readE X message offset) := by
  intro t r t' h
  obtain ⟨_, rfl⟩ | ⟨re, _, _, rfl⟩ := readE_cases h
  · exact Piece.refl _
  · exact ⟨rfl, rfl, rfl, rfl, rfl, rfl, rfl, nofun, _, rfl, by simp [PieceEvent]⟩

theorem readEncryptedStatic_piece (message : Bytes) (offset : Nat) :
    Within (Piece .read) (readEncryptedStatic X message offset) := by
  intro t r t' h
  rw [readEncryptedStatic_run] at h
  split at h
  · obtain ⟨_, rfl⟩ := Prod.mk.inj (Except.ok.inj h)
    exact Piece.refl t
  · have hpush : Piece .read t
        (t.push (.static .read t.hs.symmetric.cipher.hasKey)) := Piece.push t rfl
    refine hpush.trans (Piece.bind (decryptAndHash_piece _) ?_ _ _ _ h)
    intro plain
    split
    · exact Within.leave Piece.refl
    · refine Piece.bind (Within.update ?_) fun _ => Within.pure Piece.refl _
      intro t
      exact ⟨rfl, rfl, rfl, rfl, rfl, rfl, rfl, nofun, [], by simp⟩

/-- A read inside the buffer changes nothing. -/
theorem readSpan_eq_ok {message : Bytes} {offset len : Nat} {r : Option Bytes}
    (h : (readSpan message offset len).run t = .ok (r, t')) :
    ∃ b, span message offset len = some b ∧ r = some b ∧ t' = t := by
  rw [readSpan, run_lift] at h
  cases hs : span message offset len with
  | none => simp [hs] at h
  | some b =>
      simp only [hs] at h
      obtain ⟨rfl, rfl⟩ := Prod.mk.inj (Except.ok.inj h)
      exact ⟨b, rfl, rfl, rfl⟩

theorem readSpan_piece (message : Bytes) (offset len : Nat) :
    Within (Piece .read) (readSpan message offset len) := by
  intro t r t' h
  obtain ⟨b, _, _, rfl⟩ := readSpan_eq_ok h
  exact Piece.refl _

theorem writeTokenOp_piece (random : PrivateKey) (role : Role) {tok : Token} (h : tok ≠ .e) :
    Within (Piece .written) (writeTokenOp X random role tok) := by
  cases tok with
  | e => exact absurd rfl h
  | s => exact encryptStatic_piece
  | _ => exact Piece.bind (mixDh_piece _ _) fun _ => Within.pure Piece.refl _

theorem readTokenOp_piece (message : Bytes) (role : Role) (offset : Nat) (tok : Token) :
    Within (Piece .read) (readTokenOp X message role offset tok) := by
  cases tok with
  | e => exact readE_piece _ _
  | s => exact readEncryptedStatic_piece _ _
  | _ => exact Piece.bind (mixDh_piece _ _) fun _ => Within.pure Piece.refl _

/-- Tokens after the ephemeral key keep the frame of writing. -/
theorem writeTokensOp_piece (random : PrivateKey) (role : Role) {ts : List Token}
    (h : Token.e ∉ ts) : Within (Piece .written) (writeTokensOp X random role ts) := by
  induction ts with
  | nil => exact Within.pure Piece.refl _
  | cons tok ts ih =>
      rw [List.mem_cons, not_or] at h
      apply Piece.bind (writeTokenOp_piece random role (Ne.symm h.1))
      intro b
      exact Piece.bind (ih h.2) fun bs => Within.pure Piece.refl _

theorem readTokensOp_piece (message : Bytes) (role : Role) (offset : Nat) (ts : List Token) :
    Within (Piece .read) (readTokensOp X message role offset ts) := by
  induction ts generalizing offset with
  | nil => exact Within.pure Piece.refl _
  | cons tok ts ih => exact Piece.bind (readTokenOp_piece message role offset tok) ih

end Frame

section Messages

open EarlyExit

variable {hs : HandshakeState} {r : Option Bytes} {t : Traced}

theorem isComplete_iff : hs.isComplete = true ↔ hs.stepsTotal ≤ hs.step := by
  simp [HandshakeState.isComplete]

/-- A state with messages left is at one of its pattern's messages. -/
theorem step_lt (h : hs.isComplete = false) : hs.step < patternTotalSteps hs.pattern := by
  rw [← hs.stepsTotal_eq]
  simpa [HandshakeState.isComplete] using h

theorem readMessage_complete (h : hs.isComplete = true) (m : Bytes) :
    hs.readMessage X m = .ok (none, ⟨hs, []⟩) := by
  simp [HandshakeState.readMessage, readMessageOp, run_bind, h]

theorem writeMessage_complete (h : hs.isComplete = true) (random : PrivateKey) (p : Bytes) :
    hs.writeMessage X random p = .ok (none, ⟨hs, []⟩) := by
  simp [HandshakeState.writeMessage, writeMessageOp, run_bind, h]

/-- The part of `read_message` before the step counter. -/
def readBody (X : External) (message : Bytes) (p : Pattern) (i : Nat) : Op Bytes := do
  let offset ← readTokensOp X message (readerOf i) 0 (armTokens p i)
  let rest ← readSpan message offset (message.length - offset)
  let t ← EarlyExit.get
  emit (.payload .read t.hs.symmetric.cipher.hasKey)
  decryptAndHash X rest

/-- The part of `write_message` before the step counter. -/
def writeBody (X : External) (random : PrivateKey) (payload : Bytes) (p : Pattern) (i : Nat) :
    Op Bytes := do
  let b ← writeTokensOp X random (writerOf i) (armTokens p i)
  let c ← encryptPayload X payload
  pure (b ++ c)

theorem readMessage_open (h : hs.isComplete = false) (m : Bytes) :
    hs.readMessage X m = (do
      let plain ← readBody X m hs.pattern hs.step
      advance .read
      pure plain : Op Bytes).run ⟨hs, []⟩ := by
  rw [HandshakeState.readMessage, readMessageOp, run_bind, run_get]
  simp only [h, Bool.false_eq_true, if_false, readBody, readArm_eq X m (step_lt h), bind_assoc]

theorem writeMessage_open (h : hs.isComplete = false) (random : PrivateKey) (p : Bytes) :
    hs.writeMessage X random p = (do
      let out ← writeBody X random p hs.pattern hs.step
      advance .written
      pure out : Op Bytes).run ⟨hs, []⟩ := by
  rw [HandshakeState.writeMessage, writeMessageOp, run_bind, run_get]
  simp only [h, Bool.false_eq_true, if_false, writeBody, writeArm_eq X random p (step_lt h)]

theorem readBody_piece (m : Bytes) (p : Pattern) (i : Nat) :
    Within (Piece .read) (readBody X m p i) := by
  apply Piece.bind (readTokensOp_piece _ _ _ _)
  intro offset
  apply Piece.bind (readSpan_piece _ _ _)
  intro rest t r t' h
  have hpush : Piece .read t (t.push (.payload .read t.hs.symmetric.cipher.hasKey)) :=
    Piece.push t rfl
  exact hpush.trans (decryptAndHash_piece rest _ _ _ h)

/-- Everything a finished `read_message` can have done. -/
theorem readMessage_eq_ok {m : Bytes} (h : hs.readMessage X m = .ok (r, t)) :
    (hs.isComplete = true ∧ r = none ∧ t = ⟨hs, []⟩) ∨
      (hs.isComplete = false ∧ ∃ t₁, (readBody X m hs.pattern hs.step).run ⟨hs, []⟩ = .ok (r, t₁) ∧
        Piece .read ⟨hs, []⟩ t₁ ∧ t = if r.isSome then t₁.counted .read else t₁) := by
  rcases Bool.eq_false_or_eq_true hs.isComplete with hc | hc
  · rw [readMessage_complete hc] at h
    obtain ⟨rfl, rfl⟩ := Prod.mk.inj (Except.ok.inj h)
    exact Or.inl ⟨hc, rfl, rfl⟩
  · refine Or.inr ⟨hc, ?_⟩
    rw [readMessage_open hc] at h
    obtain ⟨plain, t₁, h₁, h₂⟩ | ⟨rfl, h₁⟩ := run_bind_eq_ok h
    · obtain ⟨rfl, rfl⟩ := Prod.mk.inj (Except.ok.inj h₂)
      exact ⟨t₁, h₁, readBody_piece _ _ _ _ _ _ h₁, rfl⟩
    · exact ⟨t, h₁, readBody_piece _ _ _ _ _ _ h₁, rfl⟩

/-- Whether writing message `i` draws an ephemeral key. -/
def draws (p : Pattern) (i : Nat) : Bool := (armTokens p i).head? = some .e

/-- The state in which the tokens after the ephemeral key start. -/
def afterDrawing (X : External) (random : PrivateKey) (p : Pattern) (i : Nat) (t : Traced) :
    Traced :=
  if draws p i then t.drawing X random else t

/-- Drawing an ephemeral key leaves the rest of the state alone. -/
theorem afterDrawing_frame (X : External) (random : PrivateKey) (p : Pattern) (i : Nat)
    (t : Traced) :
    (afterDrawing X random p i t).hs.pattern = t.hs.pattern ∧
      (afterDrawing X random p i t).hs.initiator = t.hs.initiator ∧
      (afterDrawing X random p i t).hs.step = t.hs.step ∧
      (afterDrawing X random p i t).hs.sSk = t.hs.sSk ∧
      (afterDrawing X random p i t).hs.sPk = t.hs.sPk := by
  unfold afterDrawing
  split <;> exact ⟨rfl, rfl, rfl, rfl, rfl⟩

/-- An ephemeral key, if a message has one, comes first. -/
theorem armTokens_shape (p : Pattern) (i : Nat) :
    (draws p i = true ∧ ∃ ts, armTokens p i = .e :: ts ∧ Token.e ∉ ts) ∨
      (draws p i = false ∧ Token.e ∉ armTokens p i) := by
  unfold draws armTokens
  split <;> simp

/-- Sealing the payload after the tokens keeps the frame of writing. -/
theorem writeRest_piece (random : PrivateKey) (payload : Bytes) (role : Role) {ts : List Token}
    (h : Token.e ∉ ts) : Within (Piece .written) (do
      let b ← writeTokensOp X random role ts
      let c ← encryptPayload X payload
      pure (b ++ c) : Op Bytes) := by
  apply Piece.bind (writeTokensOp_piece random role h)
  intro b
  exact Piece.bind (encryptPayload_piece payload) fun c => Within.pure Piece.refl _

/-- The tokens of a finished `write_message` ran from the freshly drawn key, which its
output starts with. -/
theorem writeBody_eq_ok {random : PrivateKey} {payload : Bytes} {p : Pattern} {i : Nat}
    {t t₁ : Traced} (h : (writeBody X random payload p i).run t = .ok (r, t₁)) :
    Piece .written (afterDrawing X random p i t) t₁ ∧
      (draws p i = true → ∀ out, r = some out →
        (generateKeypair X random).pk.toList <+: out) := by
  rw [writeBody] at h
  rcases armTokens_shape p i with ⟨hd, ts, hts, he⟩ | ⟨hd, he⟩
  · rw [afterDrawing, if_pos hd]
    rw [hts, writeTokensOp, bind_assoc, writeTokenOp,
      run_bind_of_some (writeE_run t random), bind_assoc] at h
    simp only [pure_bind, List.append_assoc] at h
    obtain ⟨b, t₂, h₁, h₂⟩ | ⟨rfl, h₁⟩ := run_bind_eq_ok h
    · have hpiece := writeTokensOp_piece random (writerOf i) he _ _ _ h₁
      obtain ⟨c, t₃, h₃, h₄⟩ | ⟨rfl, h₃⟩ := run_bind_eq_ok h₂
      · obtain ⟨rfl, rfl⟩ := Prod.mk.inj (Except.ok.inj h₄)
        refine ⟨hpiece.trans (encryptPayload_piece payload _ _ _ h₃), ?_⟩
        rintro _ out ⟨⟩
        exact List.prefix_append _ _
      · exact ⟨hpiece.trans (encryptPayload_piece payload _ _ _ h₃), fun _ _ ho => by cases ho⟩
    · exact ⟨writeTokensOp_piece random (writerOf i) he _ _ _ h₁, fun _ _ ho => by cases ho⟩
  · have hnot : draws p i ≠ true := by simp [hd]
    rw [afterDrawing, if_neg hnot]
    exact ⟨writeRest_piece random payload _ he _ _ _ h, fun hd' => absurd hd' hnot⟩

/-- Everything a finished `write_message` can have done. -/
theorem writeMessage_eq_ok {random : PrivateKey} {payload : Bytes}
    (h : hs.writeMessage X random payload = .ok (r, t)) :
    (hs.isComplete = true ∧ r = none ∧ t = ⟨hs, []⟩) ∨
      (hs.isComplete = false ∧ ∃ t₁,
        (writeBody X random payload hs.pattern hs.step).run ⟨hs, []⟩ = .ok (r, t₁) ∧
        t = if r.isSome then t₁.counted .written else t₁) := by
  rcases Bool.eq_false_or_eq_true hs.isComplete with hc | hc
  · rw [writeMessage_complete hc] at h
    obtain ⟨rfl, rfl⟩ := Prod.mk.inj (Except.ok.inj h)
    exact Or.inl ⟨hc, rfl, rfl⟩
  · refine Or.inr ⟨hc, ?_⟩
    rw [writeMessage_open hc] at h
    obtain ⟨out, t₁, h₁, h₂⟩ | ⟨rfl, h₁⟩ := run_bind_eq_ok h
    · obtain ⟨rfl, rfl⟩ := Prod.mk.inj (Except.ok.inj h₂)
      exact ⟨t₁, h₁, rfl⟩
    · exact ⟨t, h₁, rfl⟩

end Messages

section Records

open EarlyExit

/-- A call added events to its record, each of the kind `P`. -/
def Records (P : Event → Prop) (t t' : Traced) : Prop :=
  ∃ l, t'.log = t.log ++ l ∧ ∀ ev ∈ l, P ev

variable {P : Event → Prop}

theorem Records.refl (t : Traced) : Records P t t := ⟨[], by simp⟩

theorem Records.trans {t t' t'' : Traced} (h : Records P t t') (h' : Records P t' t'') :
    Records P t t'' := by
  obtain ⟨l, hl, hP⟩ := h
  obtain ⟨l', hl', hP'⟩ := h'
  refine ⟨l ++ l', by rw [hl', hl, List.append_assoc], ?_⟩
  intro ev hev
  rcases List.mem_append.mp hev with hm | hm
  · exact hP ev hm
  · exact hP' ev hm

theorem Records.bind {α β : Type} {x : Op α} {f : α → Op β} (hx : Within (Records P) x)
    (hf : ∀ a, Within (Records P) (f a)) : Within (Records P) (x >>= f) :=
  Within.bind (fun _ _ _ h h' => h.trans h') hx hf

variable (hhashed : ∀ input, P (.hashed input)) (hstatic : ∀ keyed, P (.static .read keyed))
  (hpayload : ∀ keyed, P (.payload .read keyed))

include hhashed

theorem decryptAndHash_records (c : Bytes) : Within (Records P) (decryptAndHash X c) := by
  intro t r t' h
  obtain ⟨_, rfl⟩ | ⟨_, _, _, _, rfl⟩ := decryptAndHash_cases h
  · exact Records.refl _
  · refine ⟨_, rfl, ?_⟩
    intro ev hev
    rw [List.mem_singleton.mp hev]
    exact hhashed _

include hstatic

/-- What reading a token records: hash inputs, an encrypted static key, and the DH the
token names. -/
theorem readTokenOp_records {m : Bytes} {role : Role} {offset : Nat} {tok : Token}
    (hdh : tok.isDh = true → ∀ sk pk, P (.dh .read (dhOperands role tok).1 sk pk)) :
    Within (Records P) (readTokenOp X m role offset tok) := by
  intro t r t' h
  obtain rfl | rfl | htok := tok.kinds
  · obtain ⟨_, rfl⟩ | ⟨re, _, _, rfl⟩ := readE_cases h
    · exact Records.refl _
    · refine ⟨_, rfl, ?_⟩
      intro ev hev
      rw [List.mem_singleton.mp hev]
      exact hhashed _
  · rw [readTokenOp, readEncryptedStatic_run] at h
    split at h
    · obtain ⟨_, rfl⟩ := Prod.mk.inj (Except.ok.inj h)
      exact Records.refl t
    · have hpush : Records P t (t.push (.static .read t.hs.symmetric.cipher.hasKey)) :=
        ⟨_, rfl, by simpa using hstatic _⟩
      refine hpush.trans (Records.bind (decryptAndHash_records hhashed _) ?_ _ _ _ h)
      intro plain
      split
      · exact Within.leave Records.refl
      · refine Records.bind (Within.update ?_) fun _ => Within.pure Records.refl _
        exact fun t => ⟨[], by simp⟩
  · have hevent := hdh htok (t.hs.secret (dhOperands role tok).1)
      (t.hs.peerKey (dhOperands role tok).2)
    have hmixed : ∀ {o}, (mixDhOp X .read role tok).run t = .ok (o, t') → Records P t t' := by
      intro o h
      obtain ⟨_, _, rfl⟩ | ⟨_, _, _, rfl⟩ := mixDh_cases h
      · exact ⟨_, rfl, by simpa using hevent⟩
      · exact ⟨_, rfl, by simpa using hevent⟩
    rw [readTokenOp_dh htok] at h
    obtain ⟨_, h⟩ | ⟨_, h⟩ := dhToken_cases h
    · exact hmixed h
    · exact hmixed h

theorem readTokensOp_records {m : Bytes} {role : Role} {ts : List Token} (offset : Nat)
    (hdh : ∀ tok ∈ ts, tok.isDh = true →
      ∀ sk pk, P (.dh .read (dhOperands role tok).1 sk pk)) :
    Within (Records P) (readTokensOp X m role offset ts) := by
  induction ts generalizing offset with
  | nil => exact Within.pure Records.refl _
  | cons tok ts ih =>
      apply Records.bind
      · exact readTokenOp_records hhashed hstatic (hdh tok List.mem_cons_self)
      · intro offset'
        exact ih offset' fun tok' hmem => hdh tok' (List.mem_cons_of_mem tok hmem)

include hpayload

/-- What reading a message records, besides counting it. -/
theorem readBody_records {m : Bytes} {p : Pattern} {i : Nat}
    (hdh : ∀ tok ∈ armTokens p i, tok.isDh = true →
      ∀ sk pk, P (.dh .read (dhOperands (readerOf i) tok).1 sk pk)) :
    Within (Records P) (readBody X m p i) := by
  apply Records.bind (readTokensOp_records hhashed hstatic 0 hdh)
  intro offset
  apply Records.bind (Within.of_refl Records.refl ?_)
  · intro rest t r t' h
    have hpush : Records P t (t.push (.payload .read t.hs.symmetric.cipher.hasKey)) :=
      ⟨_, rfl, by simpa using hpayload _⟩
    exact hpush.trans (decryptAndHash_records hhashed rest _ _ _ h)
  · intro t r t' h
    obtain ⟨_, _, _, rfl⟩ := readSpan_eq_ok h
    rfl

end Records

section Accepted

open EarlyExit

variable {t t' : Traced}

theorem spanBlock_bound {n : Nat} {l : Bytes} {offset : Nat} {b : Block n}
    (h : spanBlock n l offset = some b) : offset + n ≤ l.length :=
  (span_eq_some.mp (spanBlock_eq_some.mp h)).1

/-- An accepted token moves the offset by its size and stays inside the message. -/
theorem readTokenOp_offset {m : Bytes} {role : Role} {offset offset' : Nat} {tok : Token}
    (h : (readTokenOp X m role offset tok).run t = .ok (some offset', t')) :
    offset' = offset + wireSize tok ∧ (offset ≤ m.length → offset' ≤ m.length) := by
  obtain rfl | rfl | htok := tok.kinds
  · obtain ⟨hn, _⟩ | ⟨re, hre, ho, _⟩ := readE_cases h
    · cases hn
    · obtain rfl := Option.some.inj ho
      exact ⟨rfl, fun _ => spanBlock_bound hre⟩
  · rw [readTokenOp, readEncryptedStatic_run] at h
    split at h
    · cases h
    · rename_i enc henc
      obtain ⟨plain, t₁, _, h₂⟩ | ⟨hn, _⟩ := run_bind_eq_ok h
      · split at h₂
        · cases h₂
        · obtain ⟨ho, _⟩ := Prod.mk.inj (Except.ok.inj h₂)
          obtain rfl := Option.some.inj ho
          exact ⟨rfl, fun _ => (span_eq_some.mp henc).1⟩
      · cases hn
  · rw [readTokenOp_dh htok] at h
    obtain ⟨hn, _⟩ | ⟨ho, _⟩ := dhToken_cases h
    · cases hn
    · obtain rfl := Option.some.inj ho
      rw [wireSize_of_dh htok]
      exact ⟨rfl, id⟩

theorem readTokensOp_offset {m : Bytes} {role : Role} {offset offset' : Nat} {ts : List Token}
    (h : (readTokensOp X m role offset ts).run t = .ok (some offset', t')) :
    offset' = offset + (ts.map wireSize).sum ∧ (offset ≤ m.length → offset' ≤ m.length) := by
  induction ts generalizing offset t with
  | nil =>
      obtain ⟨ho, _⟩ := Prod.mk.inj (Except.ok.inj h)
      obtain rfl := Option.some.inj ho
      exact ⟨by simp, id⟩
  | cons tok ts ih =>
      obtain ⟨o₁, t₁, h₁, h₂⟩ | ⟨hn, _⟩ := run_bind_eq_ok h
      · obtain ⟨rfl, hle₁⟩ := readTokenOp_offset h₁
        obtain ⟨rfl, hle₂⟩ := ih h₂
        refine ⟨?_, fun ho => hle₂ (hle₁ ho)⟩
        simp only [List.map_cons, List.sum_cons]
        omega
      · cases hn

end Accepted

end SecurityNoise
