import SecurityNoise.Steps
import SecurityNoise.Miniature

/-!
# Turn discipline

Which message a session counts, in which direction, and which ephemeral keys its DHs use,
over any sequence of `handshake_step` calls. The entry reads incoming bytes before it asks
whose turn it is, so the discipline needs a limit on what arrives in the local turn: too
short to be read as the message the session would write.

## Implementation notes

In message 1 a byte string long enough for an ephemeral key already reaches a DH with the
local ephemeral secret, which at that point is empty or not yet sent; the other messages
have to be as long as their overhead.
-/

namespace SecurityNoise

open Framework (Role Token)

variable {X : External}

/-- The role of a session in the framework. -/
def GnRole.side : GnRole → Role
  | .initiator => .initiator
  | .responder => .responder

section Statement

/-- The messages a record counts, each with the direction it was handled in. -/
def processedOf (log : List Event) : List (Nat × Direction) :=
  log.filterMap fun
    | .processed i dir => some (i, dir)
    | _ => none

/-- The bytes a successful call hands to its caller. -/
def StepReply.emitted (r : StepReply) : Option Bytes :=
  if r.code = .ok then r.out.bind SecureBuffer.bytes else none

/-- A call draws the key pair and emits a message that starts with its public half. -/
def Carries (r : StepReply) (e : Keypair) : Prop :=
  .drew e ∈ r.log ∧ ∃ m, r.emitted = some m ∧ e.pk.toList <+: m

/-- Some call drew the key and sent its public half. -/
def Sent (calls : List (StepCall × StepReply)) (sk : PrivateKey) : Prop :=
  ∃ l ∈ calls, ∃ e, Carries l.2 e ∧ e.sk = sk

/-- The ephemeral keys of a call's DHs: a message that is read meets a key sent before,
one that is written may also use the key it draws and, unless the call fails, carries. -/
structure UsesSentKeys (before : List (StepCall × StepReply)) (r : StepReply) : Prop where
  read : ∀ sk pk, .dh .read .ephemeral sk pk ∈ r.log → Sent before sk
  written : ∀ sk pk, .dh .written .ephemeral sk pk ∈ r.log →
    Sent before sk ∨ ∃ e, e.sk = sk ∧ .drew e ∈ r.log ∧ (r.code = .ok → Carries r e)

/-- Every call uses sent keys, in the light of the calls before it. -/
inductive KeysSent : List (StepCall × StepReply) → Prop
  | nil : KeysSent []
  | snoc {before : List (StepCall × StepReply)} {l : StepCall × StepReply}
      (h : KeysSent before) (uses : UsesSentKeys before l.2) : KeysSent (before ++ [l])

/-- The calls led to a session whose step counter counts exactly the messages processed,
each in the direction the pattern assigns to the role. -/
structure TurnDiscipline (role : Role) (calls : List (StepCall × StepReply))
    (s : NoiseSession) : Prop where
  counted : processedOf (calls.flatMap fun l => l.2.log) =
    (List.range s.handshake.step).map fun i => (i, directionOf role i)
  keys : KeysSent calls

/-- What may arrive in the local turn before message `i`: fewer bytes than this. -/
def turnLimit (p : Pattern) (i : Nat) : Nat :=
  if i = 1 then DH_PUBLIC_KEY_BYTES else overhead p i

/-- In the local turn only short byte strings arrive, and no allocation fails before the
own ephemeral key has been sent. -/
def InLimits (s : NoiseSession) (l : StepCall × StepReply) : Prop :=
  (s.handshake.isComplete = false → s.writerTurn = true →
    l.1.incoming.length < turnLimit s.handshake.pattern s.handshake.step) ∧
  (s.handshake.step ≤ ephemeralMessage s.role.side → l.1.alloc = true)

end Statement

section Messages

variable {hs : HandshakeState} {r : Option Bytes} {t : Traced} {dir : Direction}

theorem processedOf_append (l l' : List Event) :
    processedOf (l ++ l') = processedOf l ++ processedOf l' :=
  List.filterMap_append

/-- A piece counts nothing. -/
theorem processedOf_piece {eSk : PrivateKey} {l : List Event}
    (h : ∀ ev ∈ l, PieceEvent dir eSk ev) : processedOf l = [] := by
  rw [processedOf, List.filterMap_eq_nil_iff]
  intro ev hev
  have hkind := h ev hev
  cases ev with
  | processed i d => exact hkind.elim
  | _ => rfl

/-- What a message call records of its messages and its ephemeral DHs, when it handles
message `hs.step` with the ephemeral secret `eSk`. -/
structure Handled (dir : Direction) (hs : HandshakeState) (eSk : PrivateKey)
    (r : Option Bytes) (t : Traced) : Prop where
  counted : processedOf t.log = List.replicate (counts r) (hs.step, dir)
  key : t.hs.eSk = eSk
  dh : ∀ d sk pk, .dh d .ephemeral sk pk ∈ t.log → d = dir ∧ sk = eSk

/-- The record of a piece from a record without messages and DHs, counted if `r` is a
value. -/
theorem Handled.of_piece (hs : HandshakeState) (start : Traced) {t₁ : Traced}
    (hstep : start.hs.step = hs.step)
    (hquiet : processedOf start.log = []) (hdh : ∀ d own sk pk, .dh d own sk pk ∉ start.log)
    (hpiece : Piece dir start t₁) :
    Handled dir hs start.hs.eSk r (if r.isSome then t₁.counted dir else t₁) := by
  obtain ⟨l, hl, hev⟩ := hpiece.log
  have hlog : processedOf t₁.log = [] := by
    rw [hl, processedOf_append, hquiet, processedOf_piece hev]
    rfl
  have hkeys : ∀ d sk pk, .dh d .ephemeral sk pk ∈ t₁.log → d = dir ∧ sk = start.hs.eSk := by
    intro d sk pk hmem
    rw [hl] at hmem
    rcases List.mem_append.mp hmem with hm | hm
    · exact absurd hm (hdh d _ sk pk)
    · obtain ⟨hd, hsk⟩ := hev _ hm
      exact ⟨hd, hsk rfl⟩
  cases r with
  | none => exact ⟨hlog, hpiece.eSk, hkeys⟩
  | some out =>
      refine ⟨?_, hpiece.eSk, ?_⟩
      · change processedOf (t₁.log ++ [.processed t₁.hs.step dir]) = _
        rw [processedOf_append, hlog, hpiece.step, hstep]
        rfl
      · intro d sk pk hmem
        have hmem' : .dh d .ephemeral sk pk ∈ t₁.log ++ [.processed t₁.hs.step dir] := hmem
        rcases List.mem_append.mp hmem' with hm | hm
        · exact hkeys d sk pk hm
        · exact nomatch List.mem_singleton.mp hm

/-- Reading handles its message with the ephemeral secret in place. -/
theorem readMessage_handled {m : Bytes} (hc : hs.isComplete = false)
    (h : hs.readMessage X m = .ok (r, t)) : Handled .read hs hs.eSk r t := by
  obtain ⟨t₁, _, hpiece, rfl⟩ := readMessage_piece hc h
  exact Handled.of_piece hs ⟨hs, []⟩ rfl rfl (by simp) hpiece

/-- Reading the first message uses no ephemeral secret. -/
theorem readMessage_first {m : Bytes} (hc : hs.isComplete = false) (hstep : hs.step = 0)
    (h : hs.readMessage X m = .ok (r, t)) (d : Direction) (sk : PrivateKey) (pk : PublicKey) :
    .dh d .ephemeral sk pk ∉ t.log := by
  obtain ⟨t₁, hrun, _, ht⟩ := readMessage_piece hc h
  have hrec : Records (fun ev => ∀ d sk pk, ev ≠ .dh d .ephemeral sk pk) ⟨hs, []⟩ t₁ := by
    refine readBody_records (fun _ _ _ _ h => nomatch h) (fun _ _ _ _ h => nomatch h)
      (fun _ _ _ _ h => nomatch h) ?_ _ _ _ hrun
    have hstatic : ∀ p, ∀ tok ∈ armTokens p 0, tok.isDh = true →
        (dhOperands (readerOf 0) tok).1 = .static := by
      intro p
      cases p <;> decide
    rw [hstep]
    intro tok htok hdh sk pk d sk' pk' heq
    rw [hstatic _ tok htok hdh] at heq
    cases heq
  obtain ⟨l, hl, hev⟩ := hrec
  have hnot : .dh d .ephemeral sk pk ∉ t₁.log := by
    rw [hl]
    exact fun hmem => hev _ hmem d sk pk rfl
  intro hmem
  subst ht
  cases r with
  | none => exact hnot hmem
  | some out =>
      have hmem' : .dh d .ephemeral sk pk ∈ t₁.log ++ [.processed t₁.hs.step .read] := hmem
      rcases List.mem_append.mp hmem' with hm | hm
      · exact hnot hm
      · exact nomatch List.mem_singleton.mp hm

/-- Bytes too short for the second message's ephemeral key are rejected at once. -/
theorem readMessage_short {m : Bytes} (hc : hs.isComplete = false) (hstep : hs.step = 1)
    (hm : m.length < DH_PUBLIC_KEY_BYTES) : hs.readMessage X m = .ok (none, ⟨hs, []⟩) := by
  have hnone : spanBlock DH_PUBLIC_KEY_BYTES m 0 = none := dif_neg (by omega)
  have harm : ∃ ts, armTokens hs.pattern 1 = .e :: ts := by
    cases hs.pattern <;> exact ⟨_, rfl⟩
  obtain ⟨ts, hts⟩ := harm
  rw [readMessage_open hc, readBody, hstep, hts, readTokensOp, readTokenOp]
  have hread : (readE X m 0).run ⟨hs, []⟩ = .ok (none, ⟨hs, []⟩) := by
    rw [readE_run, hnone]
  rw [EarlyExit.run_bind_of_none]
  rw [EarlyExit.run_bind_of_none]
  rw [EarlyExit.run_bind_of_none hread]

/-- Writing handles its message with the key it draws, or else with the one in place. -/
theorem writeMessage_handled {random : PrivateKey} {payload : Bytes}
    (hc : hs.isComplete = false) (h : hs.writeMessage X random payload = .ok (r, t)) :
    (draws hs.pattern hs.step = false ∧ Handled .written hs hs.eSk r t) ∨
      (draws hs.pattern hs.step = true ∧
        Handled .written hs (generateKeypair X random).sk r t ∧
        .drew (generateKeypair X random) ∈ t.log ∧
        ∀ out, r = some out → (generateKeypair X random).pk.toList <+: out) := by
  obtain ⟨t₁, hpiece, ht, hout⟩ := writeMessage_piece hc h
  subst ht
  rcases Bool.eq_false_or_eq_true (draws hs.pattern hs.step) with hd | hd
  · rw [afterDrawing, if_pos hd] at hpiece
    refine Or.inr ⟨hd, Handled.of_piece hs _ rfl rfl (by simp [Traced.drawing]) hpiece, ?_,
      hout hd⟩
    obtain ⟨l, hl, _⟩ := hpiece.log
    have hmem : .drew (generateKeypair X random) ∈ t₁.log := by
      rw [hl]
      simp [Traced.drawing]
    cases r with
    | none => exact hmem
    | some out => exact List.mem_append_left _ hmem
  · rw [afterDrawing, if_neg (by simp [hd])] at hpiece
    exact Or.inl ⟨hd, Handled.of_piece hs ⟨hs, []⟩ rfl rfl (by simp) hpiece⟩

/-- A role draws its key for the one message it sends it in. -/
theorem draws_iff {p : Pattern} {i : Nat} {role : Role} (hi : i < patternTotalSteps p)
    (hrole : role = writerOf i) : draws p i = true ↔ i = ephemeralMessage role := by
  subst hrole
  obtain ⟨rfl, rfl⟩ | ⟨rfl, rfl⟩ | ⟨rfl, rfl⟩ | ⟨rfl, rfl⟩ | ⟨rfl, rfl⟩ := message_cases hi <;>
    decide

/-- A writer that draws no key sent its own with an earlier message. -/
theorem ephemeralMessage_lt_of_draws {p : Pattern} {i : Nat} {role : Role}
    (hi : i < patternTotalSteps p) (hrole : role = writerOf i) (hd : draws p i = false) :
    ephemeralMessage role < i := by
  subst hrole
  obtain ⟨rfl, rfl⟩ | ⟨rfl, rfl⟩ | ⟨rfl, rfl⟩ | ⟨rfl, rfl⟩ | ⟨rfl, rfl⟩ := message_cases hi <;>
    revert hd <;> decide

/-- Up to the message a role sends its own key in, there is the first one and, for the
responder, the second. -/
theorem step_of_unsent {i : Nat} {role : Role} (h : ¬ ephemeralMessage role < i) :
    i = 0 ∨ (i = 1 ∧ role = .responder) := by
  cases role with
  | initiator =>
      simp only [ephemeralMessage] at h
      exact Or.inl (by omega)
  | responder =>
      simp only [ephemeralMessage] at h
      by_cases h0 : i = 0
      · exact Or.inl h0
      · exact Or.inr ⟨by omega, rfl⟩

/-- A role reads no message it sends its own key in. -/
theorem ephemeralMessage_ne {i : Nat} {role : Role} (hrole : role = readerOf i) :
    i ≠ ephemeralMessage role := by
  rintro rfl
  cases role <;> exact absurd hrole (by decide)

end Messages

section Steps

variable {role : Role} {s s' : NoiseSession} {before : List (StepCall × StepReply)}

theorem writerTurn_iff : s.writerTurn = true ↔ s.role.side = writerOf s.handshake.step := by
  unfold NoiseSession.writerTurn writerOf
  by_cases h : s.handshake.step % 2 = 0 <;> cases hr : s.role <;> simp [h, GnRole.side]

/-- The calls so far, and the session they led to: the discipline, and that an own
ephemeral key whose message is counted has been sent. -/
structure Disciplined (role : Role) (before : List (StepCall × StepReply))
    (s : NoiseSession) : Prop extends TurnDiscipline role before s where
  side : s.role.side = role
  sent : ephemeralMessage role < s.handshake.step → Sent before s.handshake.eSk

/-- What one half of a call, reading or writing, adds to the record. -/
structure Half (role : Role) (hs hs' : HandshakeState) (log : List Event) : Prop where
  counted : processedOf log =
    (List.range' hs.step (hs'.step - hs.step)).map fun i => (i, directionOf role i)
  step_le : hs.step ≤ hs'.step

theorem Half.refl (role : Role) (hs : HandshakeState) : Half role hs hs [] :=
  ⟨by simp [processedOf], Nat.le_refl _⟩

/-- The half that handled its message in the assigned direction. -/
theorem Half.of_handled {hs : HandshakeState} {eSk : PrivateKey} {r : Option Bytes}
    {t : Traced} {dir : Direction} (h : Handled dir hs eSk r t)
    (hstep : t.hs.step = hs.step + counts r)
    (hdir : r.isSome = true → dir = directionOf role hs.step) : Half role hs t.hs t.log where
  counted := by
    rw [h.counted, hstep, Nat.add_sub_cancel_left]
    cases r with
    | none => rfl
    | some out => rw [hdir rfl]; rfl
  step_le := hstep ▸ Nat.le_add_right _ _

theorem Half.trans {hs hs' hs'' : HandshakeState} {l l' : List Event} (h : Half role hs hs' l)
    (h' : Half role hs' hs'' l') : Half role hs hs'' (l ++ l') where
  counted := by
    obtain ⟨n, hn⟩ := Nat.exists_eq_add_of_le h.step_le
    obtain ⟨n', hn'⟩ := Nat.exists_eq_add_of_le h'.step_le
    rw [processedOf_append, h.counted, h'.counted, hn', hn, Nat.add_assoc,
      Nat.add_sub_cancel_left, Nat.add_sub_cancel_left, ← Nat.add_assoc, Nat.add_sub_cancel_left,
      ← List.map_append, List.range'_append_1]
  step_le := Nat.le_trans h.step_le h'.step_le

/-- A limit of the local turn keeps its message from being accepted. -/
theorem turnLimit_le {p : Pattern} {i : Nat} (hi : i < patternTotalSteps p) :
    turnLimit p i ≤ overhead p i := by
  obtain ⟨rfl, rfl⟩ | ⟨rfl, rfl⟩ | ⟨rfl, rfl⟩ | ⟨rfl, rfl⟩ | ⟨rfl, rfl⟩ := message_cases hi <;>
    decide

/-- Reading adds no message out of turn and no DH with an unsent key. -/
theorem Disciplined.read {m : Bytes} {got : Option Bytes} {t : Traced}
    (h : Disciplined role before s)
    (hlimit : s.handshake.isComplete = false → s.writerTurn = true →
      m.length < turnLimit s.handshake.pattern s.handshake.step)
    (hread : s.handshake.readMessage X m = .ok (got, t)) :
    Half role s.handshake t.hs t.log ∧
      (∀ d sk pk, .dh d .ephemeral sk pk ∈ t.log → d = .read ∧ Sent before sk) ∧
      (ephemeralMessage role < t.hs.step → Sent before t.hs.eSk) := by
  rcases Bool.eq_false_or_eq_true s.handshake.isComplete with hc | hc
  · rw [readMessage_complete hc] at hread
    obtain ⟨_, rfl⟩ := Prod.mk.inj (Except.ok.inj hread)
    exact ⟨Half.refl role _, by simp, h.sent⟩
  have hhandled := readMessage_handled hc hread
  have hstep := (readMessage_moved hread).2 hc
  have hturn : role = writerOf s.handshake.step →
      m.length < turnLimit s.handshake.pattern s.handshake.step := fun hrole =>
    hlimit hc (writerTurn_iff.mpr (h.side.trans hrole))
  -- A message is accepted only when the other side writes it.
  have hreader : got.isSome = true → role = readerOf s.handshake.step := by
    intro hgot
    apply eq_readerOf
    intro hrole
    obtain ⟨t₁, hrun, _⟩ := readMessage_piece hc hread
    obtain ⟨plain, rfl⟩ := Option.isSome_iff_exists.mp hgot
    have hlen := readBody_overhead hrun
    have hle := turnLimit_le (step_lt hc)
    have hlt := hturn hrole
    omega
  refine ⟨Half.of_handled hhandled hstep ?_, ?_, ?_⟩
  · exact fun hgot => (directionOf_reader (hreader hgot)).symm
  · intro d sk pk hmem
    obtain ⟨hd, hsk⟩ := hhandled.dh d sk pk hmem
    subst hsk
    refine ⟨hd, ?_⟩
    by_cases hsent : ephemeralMessage role < s.handshake.step
    · exact h.sent hsent
    · -- Too early for the own key: the first message uses none, the second is too short.
      exfalso
      obtain h0 | ⟨h1, rfl⟩ := step_of_unsent hsent
      · exact readMessage_first hc h0 hread d _ pk hmem
      · have hlt : m.length < DH_PUBLIC_KEY_BYTES := by
          have hlt := hturn (by rw [h1]; rfl)
          rwa [turnLimit, if_pos h1] at hlt
        rw [readMessage_short hc h1 hlt] at hread
        obtain ⟨_, rfl⟩ := Prod.mk.inj (Except.ok.inj hread)
        cases hmem
  · rw [hhandled.key, hstep]
    cases got with
    | none => exact h.sent
    | some plain =>
        have hne := ephemeralMessage_ne (hreader rfl)
        intro hlt
        apply h.sent
        simp only [counts, Option.isSome_some, if_true] at hlt
        omega

/-- A successful call emits what its write produced. -/
theorem emitted_of_ok {r : StepReply} {alloc : Bool} {m : Bytes} {out : SecureBuffer}
    (h : (r.code, r.out) = emitBuffer alloc m (some out)) (hm : m ≠ []) (hok : r.code = .ok) :
    r.emitted = some m := by
  have hempty : m.isEmpty = false := by simpa using hm
  cases alloc with
  | false =>
      simp only [emitBuffer, hempty, Bool.not_false, if_true, Bool.false_eq_true, if_false,
        Prod.mk.injEq] at h
      rw [hok] at h
      cases h.1
  | true =>
      simp only [emitBuffer, hempty, Bool.not_true, Bool.false_eq_true, if_false,
        Prod.mk.injEq] at h
      simp [StepReply.emitted, h.1, h.2]

theorem code_of_alloc {r : StepReply} {m : Bytes} {out : SecureBuffer}
    (h : (r.code, r.out) = emitBuffer true m (some out)) : r.code = .ok := by
  unfold emitBuffer at h
  cases hm : m.isEmpty <;> simp [hm] at h <;> exact h.1

/-- A message that starts with a drawn key carries it. -/
theorem carries_of_ok {r : StepReply} {alloc : Bool} {e : Keypair} {m : Bytes}
    {out : SecureBuffer} (hdrew : .drew e ∈ r.log)
    (h : (r.code, r.out) = emitBuffer alloc m (some out)) (hcarried : e.pk.toList <+: m)
    (hok : r.code = .ok) : Carries r e := by
  have hm : m ≠ [] := by
    rintro rfl
    have hlen := e.pk.length_toList
    rw [List.prefix_nil.mp hcarried] at hlen
    cases hlen
  exact ⟨hdrew, m, emitted_of_ok h hm hok, hcarried⟩

/-- Writing in turn adds the local message and no DH with another key than the one it
draws or one sent before. -/
theorem writeTurn_disciplined {log : List Event} {random : PrivateKey} {alloc : Bool}
    {r : StepReply} (hside : s.role.side = role)
    (hsent : ephemeralMessage role < s.handshake.step → Sent before s.handshake.eSk)
    (halloc : s.handshake.step ≤ ephemeralMessage role → alloc = true)
    (hw : writeTurn X s log random alloc {} = .ok r) :
    ∃ l, r.log = log ++ l ∧ Half role s.handshake r.session.handshake l ∧
      (∀ d sk pk, .dh d .ephemeral sk pk ∈ l → d = .written ∧ (Sent before sk ∨
        ∃ e, e.sk = sk ∧ .drew e ∈ r.log ∧ (r.code = .ok → Carries r e))) ∧
      (ephemeralMessage role < r.session.handshake.step →
        Sent before r.session.handshake.eSk ∨
          ∃ e, Carries r e ∧ e.sk = r.session.handshake.eSk) := by
  obtain ⟨_, rfl⟩ | ⟨hturn, produced, t, hwrite, hsession, hlog, hnone, hsome⟩ :=
    writeTurn_cases hw
  · exact ⟨[], (List.append_nil _).symm, Half.refl role _, by simp, fun hlt => Or.inl (hsent hlt)⟩
  have hrole : role = writerOf s.handshake.step := hside ▸ writerTurn_iff.mp hturn
  have hhs : r.session.handshake = t.hs := by rw [hsession]
  rcases Bool.eq_false_or_eq_true s.handshake.isComplete with hc | hc
  · rw [writeMessage_complete hc] at hwrite
    obtain ⟨_, rfl⟩ := Prod.mk.inj (Except.ok.inj hwrite)
    rw [hhs]
    exact ⟨[], hlog, Half.refl role _, by simp, fun hlt => Or.inl (hsent hlt)⟩
  have hstep := (writeMessage_moved hwrite).2 hc
  have hdir : produced.isSome = true → .written = directionOf role s.handshake.step :=
    fun _ => (if_pos hrole).symm
  rw [hhs]
  obtain ⟨hd, hhandled⟩ | ⟨hd, hhandled, hdrew, hcarried⟩ := writeMessage_handled hc hwrite
  · have hlt := ephemeralMessage_lt_of_draws (step_lt hc) hrole hd
    refine ⟨t.log, hlog, Half.of_handled hhandled hstep hdir, ?_, ?_⟩
    · intro d sk pk hmem
      obtain ⟨hd, rfl⟩ := hhandled.dh d sk pk hmem
      exact ⟨hd, Or.inl (hsent hlt)⟩
    · intro _
      rw [hhandled.key]
      exact Or.inl (hsent hlt)
  · have hat : s.handshake.step = ephemeralMessage role :=
      (draws_iff (step_lt hc) hrole).mp hd
    have hmem : .drew (generateKeypair X random) ∈ r.log := by
      rw [hlog]
      exact List.mem_append_right _ hdrew
    have hcarries : r.code = .ok → Carries r (generateKeypair X random) := by
      intro hok
      cases produced with
      | none =>
          rw [(hnone rfl).1] at hok
          cases hok
      | some m => exact carries_of_ok hmem (hsome m rfl) (hcarried m rfl) hok
    refine ⟨t.log, hlog, Half.of_handled hhandled hstep hdir, ?_, ?_⟩
    · intro d sk pk hdh
      obtain ⟨hd, rfl⟩ := hhandled.dh d sk pk hdh
      exact ⟨hd, Or.inr ⟨_, rfl, hmem, hcarries⟩⟩
    · intro hlt
      rw [hhandled.key]
      cases produced with
      | none =>
          rw [hstep, hat] at hlt
          exact absurd hlt (by simp [counts])
      | some m =>
          have hall := hsome m rfl
          rw [halloc (Nat.le_of_eq hat)] at hall
          exact Or.inr ⟨_, hcarries (code_of_alloc hall), rfl⟩

theorem Sent.mono {sk : PrivateKey} (h : Sent before sk) (l : StepCall × StepReply) :
    Sent (before ++ [l]) sk := by
  obtain ⟨l', hl', he⟩ := h
  exact ⟨l', List.mem_append_left _ hl', he⟩

/-- A call whose halves are in turn extends a disciplined history. -/
theorem Disciplined.extend {l : StepCall × StepReply} (h : Disciplined role before s)
    (hside : s'.role.side = role) (half : Half role s.handshake s'.handshake l.2.log)
    (uses : UsesSentKeys before l.2)
    (hsent : ephemeralMessage role < s'.handshake.step → Sent before s'.handshake.eSk ∨
      ∃ e, Carries l.2 e ∧ e.sk = s'.handshake.eSk) : Disciplined role (before ++ [l]) s' where
  counted := by
    obtain ⟨n, hn⟩ := Nat.exists_eq_add_of_le half.step_le
    rw [List.flatMap_append, processedOf_append, h.counted, List.flatMap_singleton, half.counted,
      hn, Nat.add_sub_cancel_left, List.range_eq_range', List.range_eq_range', ← List.map_append,
      ← List.range'_append_1, Nat.zero_add]
  keys := h.keys.snoc uses
  side := hside
  sent hlt := by
    obtain hbefore | ⟨e, hcarries, he⟩ := hsent hlt
    · exact hbefore.mono l
    · exact ⟨l, by simp, e, hcarries, he⟩

/-- One call within the limits keeps the discipline. -/
theorem Disciplined.step {l : StepCall × StepReply} (h : Disciplined role before s)
    (hl : InLimits s l) (hs : HandshakeStep X s l s') : Disciplined role (before ++ [l]) s' := by
  obtain ⟨call, r⟩ := l
  obtain ⟨hstep, rfl⟩ := hs
  obtain ⟨hlimit, halloc⟩ := hl
  rw [h.side] at halloc
  obtain ⟨_, hr⟩ | ⟨_, hw⟩ | ⟨_, got, t, hread, hrest⟩ := noiseHandshakeStep_cases hstep
  · subst hr
    apply h.extend h.side
    · exact Half.refl role _
    · constructor <;> exact fun _ _ hmem => nomatch hmem
    · exact fun hlt => Or.inl (h.sent hlt)
  · obtain ⟨log, hlog, half, hdh, hsent⟩ := writeTurn_disciplined h.side h.sent halloc hw
    obtain ⟨hs, hsession, _⟩ := writeTurn_session hw
    rw [List.nil_append] at hlog
    refine h.extend ?_ (hlog ▸ half) ⟨?_, ?_⟩ hsent
    · rw [hsession]
      exact h.side
    · intro sk pk hmem
      rw [hlog] at hmem
      cases (hdh _ sk pk hmem).1
    · intro sk pk hmem
      rw [hlog] at hmem
      exact (hdh _ sk pk hmem).2
  · obtain ⟨half, hdh, hsent⟩ := h.read hlimit hread
    have huses : ∀ r : StepReply, r.log = t.log → UsesSentKeys before r := by
      intro r hr
      constructor
      · exact fun sk pk hmem => (hdh _ sk pk (hr ▸ hmem)).2
      · intro sk pk hmem
        rw [hr] at hmem
        cases (hdh _ sk pk hmem).1
    obtain ⟨_, hr⟩ | ⟨_, _, hr⟩ | ⟨_, _, hw⟩ := hrest
    · subst hr
      exact h.extend h.side half (huses _ rfl) fun hlt => Or.inl (hsent hlt)
    · subst hr
      exact h.extend h.side half (huses _ rfl) fun hlt => Or.inl (hsent hlt)
    · have hle := half.step_le
      obtain ⟨log, hlog, half', hdh', hsent'⟩ := writeTurn_disciplined
        (s := { s with handshake := t.hs }) h.side hsent
        (fun hat => halloc (Nat.le_trans hle hat)) hw
      obtain ⟨hs, hsession, _⟩ := writeTurn_session hw
      refine h.extend ?_ (hlog ▸ half.trans half') ⟨?_, ?_⟩ hsent'
      · rw [hsession]
        exact h.side
      · intro sk pk hmem
        rw [hlog] at hmem
        rcases List.mem_append.mp hmem with hm | hm
        · exact (hdh _ sk pk hm).2
        · cases (hdh' _ sk pk hm).1
      · intro sk pk hmem
        rw [hlog] at hmem
        rcases List.mem_append.mp hmem with hm | hm
        · cases (hdh _ sk pk hm).1
        · exact (hdh' _ sk pk hm).2

/-- A session that was just opened. -/
theorem Disciplined.opened {p : Pattern} {args : OpenArgs} (h : Opened X p args s) :
    Disciplined args.role.side [] s := by
  obtain ⟨keys, rs, _, rfl⟩ := h.make
  have hstep : (NoiseSession.make X p (decide (args.role = .initiator)) keys rs).handshake.step =
      0 := (HandshakeState.make_start _ _ _ _).2.2
  refine ⟨⟨?_, KeysSent.nil⟩, ?_, ?_⟩
  · rw [hstep]
    rfl
  · cases args.role <;> rfl
  · intro hlt
    rw [hstep] at hlt
    cases hlt

end Steps

end SecurityNoise
