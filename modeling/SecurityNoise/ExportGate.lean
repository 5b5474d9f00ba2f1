import Mathlib.Logic.Function.Iterate
import SecurityNoise.Erasure

/-!
# The gate between export and the transport calls

An export and any number of `encrypt`, `decrypt` and `rekey` calls on one session, step by
step: the export makes its writes in program order, a call reads `split_done`, then
`keys_exported`, then acts. Between the two stores at the end of the export both gates are
open; a call whose second read falls there acts on ciphers that were never keyed, and they
pass its argument through.

## Implementation notes

The steps are atomic and interleave in any order. A call that has not begun is one that
takes no step, so the calls can be fixed at the start. A finished call stays as it is.
-/

namespace SecurityNoise

variable {X : External}

section Model

variable (X : External)

/-- Where an export stands, named by what it does next. `keys` is what it has written to
its out argument. -/
inductive ExportStage
  | checks (out : Option HandshakeKeys)
  | split
  | storePeer (keys : HandshakeKeys)
  | storeSplitDone (keys : HandshakeKeys)
  | storeKeysExported (keys : HandshakeKeys)
  | returned (code : GnResult) (out : Option HandshakeKeys)

/-- The next step of `noise_export_transport_keys`. -/
def exportNext (s : NoiseSession) : ExportStage → ExportStage × NoiseSession
  | .checks none => (.returned .errNullArg none, s)
  | .checks (some keys) =>
      if !s.handshake.isComplete then (.returned .errInvalidState (some keys), s)
      else if s.splitDone then (.returned .errInvalidState (some keys), s)
      else (.split, s)
  | .split =>
      let (pair, handshake) := s.handshake.split X
      (.storePeer
        { apiSize := X.handshakeKeysSize
          sendCipherKey := pair.send.k
          recvCipherKey := pair.recv.k
          initialSendNonce := 0
          initialRecvNonce := 0
          handshakeHash := Block.zero 32
          peerStaticPk := Block.zero 32 },
        { s with handshake := handshake })
  | .storePeer keys =>
      let peer := s.handshake.peerStaticPublicKey
      (.storeSplitDone
        { keys with
          peerStaticPk := peer
          handshakeHash := Block.truncate hashBytes_le s.handshake.handshakeHash },
        { s with peerX25519Pk := peer })
  | .storeSplitDone keys => (.storeKeysExported keys, { s with splitDone := true })
  | .storeKeysExported keys => (.returned .ok (some keys), { s with keysExported := true })
  | .returned code out => (.returned code out, s)

/-- A call behind the two gates. -/
inductive GatedCall
  | encrypt (plaintext : Bytes) (alloc : Bool) (out : Option SecureBuffer)
  | decrypt (ciphertext : Bytes) (alloc : Bool) (out : Option SecureBuffer)
  | rekey

/-- The out argument of a call. -/
def GatedCall.out : GatedCall → Option SecureBuffer
  | .encrypt _ _ out => out
  | .decrypt _ _ out => out
  | .rekey => none

/-- What a call does behind the gates. -/
def GatedCall.act (s : NoiseSession) :
    GatedCall → Except Fatal (GnResult × Option SecureBuffer × NoiseSession)
  | .encrypt plaintext alloc out =>
      match s.transport.encryptThenRekey X plaintext with
      | .error e => .error e
      | .ok (cipher, transport) =>
          let (code, out) := emitBuffer alloc cipher out
          .ok (code, out, { s with transport := transport })
  | .decrypt ciphertext alloc out =>
      match s.transport.decryptThenRekey X ciphertext with
      | .error e => .error e
      | .ok (none, transport) =>
          .ok (.errInvalidEnvelope, out, { s with transport := transport })
      | .ok (some plain, transport) =>
          let (code, out) := emitBuffer alloc plain out
          .ok (code, out, { s with transport := transport })
  | .rekey => .ok (.ok, none, { s with transport := s.transport.rekey X })

/-- Where a call stands, named by what it does next. -/
inductive CallStage
  | readSplitDone (c : GatedCall)
  | readKeysExported (c : GatedCall)
  | act (c : GatedCall)
  | returned (c : GatedCall) (code : GnResult) (out : Option SecureBuffer)

/-- The next step of a call. -/
def callNext (s : NoiseSession) : CallStage → Except Fatal (CallStage × NoiseSession)
  | .readSplitDone c =>
      if !s.splitDone then .ok (.returned c .errInvalidState c.out, s)
      else .ok (.readKeysExported c, s)
  | .readKeysExported c =>
      if s.keysExported then .ok (.returned c .errInvalidState c.out, s)
      else .ok (.act c, s)
  | .act c =>
      match c.act X s with
      | .error e => .error e
      | .ok (code, out, s') => .ok (.returned c code out, s')
  | .returned c code out => .ok (.returned c code out, s)

/-- A session, the export on it and its callers. -/
structure Gates where
  session : NoiseSession
  exporter : ExportStage
  callers : Nat → CallStage

/-- Nobody has taken a step. -/
def Gates.start (s : NoiseSession) (out : Option HandshakeKeys) (calls : Nat → GatedCall) :
    Gates where
  session := s
  exporter := .checks out
  callers i := .readSplitDone (calls i)

/-- The export takes a step, or one of the callers. -/
inductive GateEvent
  | exporter
  | call (i : Nat)

def GateStep (g : Gates) (ev : GateEvent) (g' : Gates) : Prop :=
  match ev with
  | .exporter => g' =
      { g with
        session := (exportNext X g.session g.exporter).2
        exporter := (exportNext X g.session g.exporter).1 }
  | .call i => ∃ stage s, callNext X g.session (g.callers i) = .ok (stage, s) ∧
      g' = { g with session := s, callers := Function.update g.callers i stage }

end Model

section Statement

/-- No call has returned `GN_OK`; no encryption has handed out its plaintext. -/
structure GateClosed (g : Gates) : Prop where
  refused : ∀ i c code out, g.callers i = .returned c code out → code ≠ .ok
  sealed : ∀ i plaintext alloc out buffer,
    g.callers i = .returned (.encrypt plaintext alloc out) .ok (some buffer) →
      buffer.bytes ≠ some plaintext

/-- No call reads `keys_exported` between the two stores of the export. -/
def OutsideWindow (g : Gates) : GateEvent → Prop
  | .exporter => True
  | .call i => ∀ c keys, g.callers i = .readKeysExported c →
      g.exporter ≠ .storeKeysExported keys

end Statement

section Alone

variable {g : Gates} {s s' : NoiseSession}

/-- The call through its entry. -/
def GatedCall.entry (X : External) (s : NoiseSession) :
    GatedCall → Except Fatal (GnResult × Option SecureBuffer × NoiseSession)
  | .encrypt plaintext alloc out => noiseEncrypt X s plaintext alloc out
  | .decrypt ciphertext alloc out => noiseDecrypt X s ciphertext alloc out
  | .rekey => .ok ((noiseRekey X s).1, none, (noiseRekey X s).2)

/-- An entry is its two gates and what is behind them. -/
theorem GatedCall.entry_eq (s : NoiseSession) (c : GatedCall) : c.entry X s =
    if !s.splitDone then .ok (.errInvalidState, c.out, s)
    else if s.keysExported then .ok (.errInvalidState, c.out, s)
    else c.act X s := by
  cases c with
  | encrypt plaintext alloc out => rfl
  | decrypt ciphertext alloc out => rfl
  | rekey =>
      cases hs : s.splitDone <;> cases hk : s.keysExported <;>
        simp [GatedCall.entry, noiseRekey, GatedCall.out, GatedCall.act, hs, hk]

/-- The `n` next steps of a call that nobody interrupts. -/
def callAfter (X : External) : Nat → CallStage × NoiseSession →
    Except Fatal (CallStage × NoiseSession)
  | 0, c => .ok c
  | n + 1, (stage, s) =>
      match callNext X s stage with
      | .error e => .error e
      | .ok c => callAfter X n c

/-- Three steps are the entry. -/
theorem callAfter_entry {c : GatedCall} {code : GnResult} {out : Option SecureBuffer}
    (h : c.entry X s = .ok (code, out, s')) :
    callAfter X 3 (.readSplitDone c, s) = .ok (.returned c code out, s') := by
  rw [GatedCall.entry_eq] at h
  cases hs : s.splitDone with
  | false =>
      simp only [hs, Bool.not_false, if_true] at h
      obtain ⟨rfl, rfl, rfl⟩ := h
      simp [callAfter, callNext, hs]
  | true =>
      cases hk : s.keysExported with
      | true =>
          simp only [hs, hk, Bool.not_true, Bool.false_eq_true, if_false, if_true] at h
          obtain ⟨rfl, rfl, rfl⟩ := h
          simp [callAfter, callNext, hs, hk]
      | false =>
          simp only [hs, hk, Bool.not_true, Bool.false_eq_true, if_false] at h
          simp [callAfter, callNext, hs, hk, h]

/-- Uninterrupted steps of one caller. -/
theorem run_call (i n : Nat) {stage : CallStage}
    (h : callAfter X n (g.callers i, g.session) = .ok (stage, s)) :
    Run (GateStep X) g (List.replicate n (.call i))
      { g with session := s, callers := Function.update g.callers i stage } := by
  induction n generalizing g with
  | zero =>
      obtain ⟨rfl, rfl⟩ := Prod.mk.inj (Except.ok.inj h)
      rw [Function.update_eq_self]
      exact Run.nil g
  | succ n ih =>
      unfold callAfter at h
      split at h
      · cases h
      · rename_i c hnext
        let g' : Gates := { g with session := c.2, callers := Function.update g.callers i c.1 }
        have hsame : g'.callers i = c.1 := Function.update_self ..
        have hrest := @ih g' (by rwa [hsame])
        rw [Function.update_idem] at hrest
        exact Run.cons ⟨c.1, c.2, hnext, rfl⟩ hrest

/-- A call that nobody interrupts returns what its entry does. -/
theorem run_entry {i : Nat} {c : GatedCall} {code : GnResult} {out : Option SecureBuffer}
    (hc : g.callers i = .readSplitDone c) (h : c.entry X g.session = .ok (code, out, s)) :
    Run (GateStep X) g (List.replicate 3 (.call i))
      { g with
        session := s
        callers := Function.update g.callers i (.returned c code out) } := by
  apply run_call
  rw [hc]
  exact callAfter_entry h

/-- The checks let a complete session pass that is not split. -/
theorem exportNext_checks_pass (hc : s.handshake.isComplete = true) (hs : s.splitDone = false)
    (keys : HandshakeKeys) : exportNext X s (.checks (some keys)) = (.split, s) := by
  simp [exportNext, hc, hs]

theorem exportNext_checks_refuse (h : s.handshake.isComplete = false ∨ s.splitDone = true)
    (keys : HandshakeKeys) :
    exportNext X s (.checks (some keys)) = (.returned .errInvalidState (some keys), s) := by
  cases hc : s.handshake.isComplete with
  | false => simp [exportNext, hc]
  | true =>
      have hs : s.splitDone = true := h.resolve_left (by simp [hc])
      simp [exportNext, hc, hs]

/-- A session passes the checks of an export or not. -/
theorem ready_or_refused (s : NoiseSession) :
    (s.handshake.isComplete = true ∧ s.splitDone = false) ∨
      (s.handshake.isComplete = false ∨ s.splitDone = true) := by
  cases s.handshake.isComplete <;> cases s.splitDone <;> simp

/-- Five steps are the entry. -/
theorem exportNext_entry (s : NoiseSession) (out : Option HandshakeKeys) :
    (fun e => exportNext X e.2 e.1)^[5] (.checks out, s) =
      (.returned (noiseExportTransportKeys X s out).1 (noiseExportTransportKeys X s out).2.1,
        (noiseExportTransportKeys X s out).2.2) := by
  cases out with
  | none => rfl
  | some keys =>
      rw [Function.iterate_succ_apply]
      obtain ⟨hc, hs⟩ | hrefused := ready_or_refused s
      · rw [noiseExportTransportKeys_ok hc hs, exportNext_checks_pass hc hs]
        rfl
      · rw [noiseExportTransportKeys_refused hrefused, exportNext_checks_refuse hrefused]
        rfl

end Alone

section Invariant

variable {g g' : Gates} {s : NoiseSession} {ev : GateEvent}

/-- The flags at each stage of the export. -/
def ExportStage.Flags (s : NoiseSession) : ExportStage → Prop
  | .checks _ => s.splitDone = s.keysExported
  | .split => s.splitDone = false ∧ s.keysExported = false
  | .storePeer _ => s.splitDone = false ∧ s.keysExported = false
  | .storeSplitDone _ => s.splitDone = false ∧ s.keysExported = false
  | .storeKeysExported _ => s.splitDone = true ∧ s.keysExported = false
  | .returned _ _ => s.splitDone = s.keysExported

/-- A call that is past the first gate found the session split; none is past the second. -/
def CallStage.Refused (s : NoiseSession) : CallStage → Prop
  | .readSplitDone _ => True
  | .readKeysExported _ => s.splitDone = true
  | .act _ => False
  | .returned _ code _ => code ≠ .ok

/-- Both flags fit the stage of the export, and no call is past both gates. -/
structure Gated (g : Gates) : Prop where
  flags : g.exporter.Flags g.session
  calls : ∀ i, (g.callers i).Refused g.session

theorem CallStage.Refused.mono {s' : NoiseSession} {stage : CallStage} (h : stage.Refused s)
    (hsplit : s.splitDone = true → s'.splitDone = true) : stage.Refused s' := by
  cases stage with
  | readSplitDone c => exact trivial
  | readKeysExported c => exact hsplit h
  | act c => exact h
  | returned c code out => exact h

/-- A step of the export keeps the flags in order, and `split_done` set. -/
theorem exportNext_flags {stage : ExportStage} (h : stage.Flags s) :
    (exportNext X s stage).1.Flags (exportNext X s stage).2 ∧
      (s.splitDone = true → (exportNext X s stage).2.splitDone = true) := by
  cases stage with
  | checks out =>
      cases out with
      | none => exact ⟨h, id⟩
      | some keys =>
          obtain ⟨hc, hs⟩ | hrefused := ready_or_refused s
          · rw [exportNext_checks_pass hc hs]
            exact ⟨⟨hs, h.symm.trans hs⟩, id⟩
          · rw [exportNext_checks_refuse hrefused]
            exact ⟨h, id⟩
  | split => exact ⟨h, id⟩
  | storePeer keys => exact ⟨h, id⟩
  | storeSplitDone keys => exact ⟨⟨rfl, h.2⟩, fun _ => rfl⟩
  | storeKeysExported keys => exact ⟨h.1, fun _ => h.1⟩
  | returned code out => exact ⟨h, id⟩

/-- Outside the window the two flags are equal once the session is split. -/
theorem ExportStage.Flags.exported {stage : ExportStage} (h : stage.Flags s)
    (hs : s.splitDone = true) (hout : ∀ keys, stage ≠ .storeKeysExported keys) :
    s.keysExported = true := by
  cases stage with
  | checks out => exact h.symm.trans hs
  | returned code out => exact h.symm.trans hs
  | storeKeysExported keys => exact absurd rfl (hout keys)
  | _ => exact absurd (h.1.symm.trans hs) Bool.false_ne_true

/-- A call that is not past the gates and reads outside the window stays so, and the
session is unchanged. -/
theorem callNext_refused {stage stage' : CallStage} {s' : NoiseSession}
    (h : stage.Refused s)
    (hread : ∀ c, stage = .readKeysExported c → s.splitDone = true → s.keysExported = true)
    (hnext : callNext X s stage = .ok (stage', s')) : s' = s ∧ stage'.Refused s := by
  cases stage with
  | readSplitDone c =>
      simp only [callNext] at hnext
      split at hnext
      · obtain ⟨rfl, rfl⟩ := Prod.mk.inj (Except.ok.inj hnext)
        exact ⟨rfl, nofun⟩
      · rename_i hs
        obtain ⟨rfl, rfl⟩ := Prod.mk.inj (Except.ok.inj hnext)
        exact ⟨rfl, by simpa [CallStage.Refused] using hs⟩
  | readKeysExported c =>
      rw [callNext, if_pos (hread c rfl h)] at hnext
      obtain ⟨rfl, rfl⟩ := Prod.mk.inj (Except.ok.inj hnext)
      exact ⟨rfl, nofun⟩
  | act c => exact h.elim
  | returned c code out =>
      obtain ⟨rfl, rfl⟩ := Prod.mk.inj (Except.ok.inj hnext)
      exact ⟨rfl, h⟩

theorem Gated.step (h : Gated g) (hstep : Guarded OutsideWindow (GateStep X) g ev g') :
    Gated g' := by
  obtain ⟨hout, hstep⟩ := hstep
  cases ev with
  | exporter =>
      obtain rfl := hstep
      obtain ⟨hflags, hmono⟩ := exportNext_flags (X := X) h.flags
      exact ⟨hflags, fun i => (h.calls i).mono hmono⟩
  | call i =>
      obtain ⟨stage, s', hnext, rfl⟩ := hstep
      have hread : ∀ c, g.callers i = .readKeysExported c → g.session.splitDone = true →
          g.session.keysExported = true :=
        fun c hc hs => h.flags.exported hs fun keys => hout c keys hc
      obtain ⟨rfl, hstage⟩ := callNext_refused (h.calls i) hread hnext
      refine ⟨h.flags, fun j => ?_⟩
      by_cases hj : j = i
      · subst hj
        simpa only [Function.update_self] using hstage
      · simpa only [Function.update_of_ne hj] using h.calls j

theorem Gated.start (hflags : s.splitDone = s.keysExported) (out : Option HandshakeKeys)
    (calls : Nat → GatedCall) : Gated (Gates.start s out calls) :=
  ⟨hflags, fun _ => trivial⟩

theorem Gated.closed (h : Gated g) : GateClosed g := by
  have hrefused : ∀ i c code out, g.callers i = .returned c code out → code ≠ .ok := by
    intro i c code out hi
    have hcall := h.calls i
    rwa [hi] at hcall
  constructor
  · exact hrefused
  · intro i plaintext alloc out buffer hi
    exact absurd rfl (hrefused _ _ _ _ hi)

end Invariant

section Window

variable {g : Gates} {s : NoiseSession}

end Window

section Runs

variable {p : Pattern} {args : OpenArgs} {s₀ s : NoiseSession} {tr₀ : List (Call × Reply)}
  {g : Gates}

end Runs

end SecurityNoise
