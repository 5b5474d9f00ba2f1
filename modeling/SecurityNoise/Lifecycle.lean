import SecurityNoise.Steps
import SecurityNoise.Miniature

/-!
# The session state machine

A session driven through the vtable, in any order of calls. One invariant covers its
flags, its step counter and its export: the two export flags are equal, so the gates of
`encrypt`, `decrypt` and `rekey` are never open together, and a second export finds the
session split. The laws follow for every session a run reaches.
-/

namespace SecurityNoise

open Framework (Role Token)

variable {X : External}

section Calls

/-- An export call that returned `GN_OK`. -/
def isExport : Call × Reply → Bool
  | (.exportTransportKeys _, .keys .ok _) => true
  | _ => false

/-- The exports in a sequence of calls. -/
def exports (tr : List (Call × Reply)) : Nat := tr.countP isExport

variable {s s' : NoiseSession} {l : Call × Reply}

/-- With equal flags one of the two gates of `encrypt` is closed. -/
theorem vtable_encrypt (h : s.splitDone = s.keysExported) (plaintext : Bytes) (alloc : Bool)
    (out : SecureBuffer) : vtable X s (.encrypt plaintext alloc out) =
      .ok (.buffer .errInvalidState (some out), s) := by
  cases hs : s.splitDone <;> rw [hs] at h <;> simp [vtable, noiseEncrypt, hs, ← h]

theorem vtable_decrypt (h : s.splitDone = s.keysExported) (ciphertext : Bytes) (alloc : Bool)
    (out : SecureBuffer) : vtable X s (.decrypt ciphertext alloc out) =
      .ok (.buffer .errInvalidState (some out), s) := by
  cases hs : s.splitDone <;> rw [hs] at h <;> simp [vtable, noiseDecrypt, hs, ← h]

theorem vtable_rekey (h : s.splitDone = s.keysExported) :
    vtable X s .rekey = .ok (.code .errInvalidState, s) := by
  cases hs : s.splitDone <;> rw [hs] at h <;> simp [vtable, noiseRekey, hs, ← h]

/-- What an export returned: the keys of a complete session that is not split, or an
error, with nothing changed. -/
theorem VtableStep.export_cases {out : HandshakeKeys} {code : GnResult}
    {keys : Option HandshakeKeys}
    (h : VtableStep X s (.exportTransportKeys out, .keys code keys) s') :
    (code = .ok ∧ s.handshake.isComplete = true ∧ s.splitDone = false ∧
        keys = some (exportedKeys X s) ∧ s' = s.exported X) ∨
      (code ≠ .ok ∧ keys = some out ∧ s' = s) := by
  unfold VtableStep vtable at h
  simp only at h
  by_cases hready : s.handshake.isComplete = true ∧ s.splitDone = false
  · rw [noiseExportTransportKeys_ok hready.1 hready.2] at h
    obtain ⟨hreply, rfl⟩ := Prod.mk.inj (Except.ok.inj h)
    obtain ⟨rfl, rfl⟩ := Reply.keys.inj hreply
    exact Or.inl ⟨rfl, hready.1, hready.2, rfl, rfl⟩
  · have hrefused : s.handshake.isComplete = false ∨ s.splitDone = true := by
      simpa [-not_and, Classical.not_and_iff_not_or_not] using hready
    rw [noiseExportTransportKeys_refused hrefused] at h
    obtain ⟨hreply, rfl⟩ := Prod.mk.inj (Except.ok.inj h)
    obtain ⟨rfl, rfl⟩ := Reply.keys.inj hreply
    exact Or.inr ⟨nofun, rfl, rfl⟩

/-- Where the flags are equal, a call changes nothing, or is a `handshake_step`, or is the
export of a complete session. -/
theorem VtableStep.cases (hflags : s.splitDone = s.keysExported) (h : VtableStep X s l s') :
    (isExport l = false ∧ s' = s) ∨
      (isExport l = false ∧ ∃ incoming random alloc out r,
        noiseHandshakeStep X s incoming random alloc out = .ok r ∧ s' = r.session) ∨
      (isExport l = true ∧ s.handshake.isComplete = true ∧ s.splitDone = false ∧
        s' = s.exported X) := by
  obtain ⟨call, reply⟩ := l
  have hstays : ∀ {call : Call} {reply reply' : Reply}, vtable X s call = .ok (reply', s) →
      VtableStep X s (call, reply) s' → isExport (call, reply') = false →
      isExport (call, reply) = false ∧ s' = s := by
    intro call reply reply' hcall h hnot
    have hboth : Except.ok (reply', s) = .ok (reply, s') := hcall.symm.trans h
    obtain ⟨rfl, rfl⟩ := Prod.mk.inj (Except.ok.inj hboth)
    exact ⟨hnot, rfl⟩
  cases call with
  | handshakeStep incoming random alloc out =>
      unfold VtableStep vtable at h
      simp only at h
      split at h
      · cases h
      · rename_i r hr
        obtain ⟨_, rfl⟩ := Prod.mk.inj (Except.ok.inj h)
        exact Or.inr (Or.inl ⟨rfl, incoming, random, alloc, some out, r, hr, rfl⟩)
  | handshakeComplete => exact Or.inl (hstays rfl h rfl)
  | exportTransportKeys out =>
      cases reply with
      | keys code keys =>
          obtain ⟨rfl, hc, hsplit, _, rfl⟩ | ⟨hne, _, rfl⟩ := VtableStep.export_cases h
          · exact Or.inr (Or.inr ⟨rfl, hc, hsplit, rfl⟩)
          · refine Or.inl ⟨?_, rfl⟩
            cases code with
            | ok => exact absurd rfl hne
            | _ => rfl
      | _ => cases h
  | encrypt plaintext alloc out =>
      exact Or.inl (hstays (vtable_encrypt hflags plaintext alloc out) h rfl)
  | decrypt ciphertext alloc out =>
      exact Or.inl (hstays (vtable_decrypt hflags ciphertext alloc out) h rfl)
  | rekey => exact Or.inl (hstays (vtable_rekey hflags) h rfl)

/-- Where the flags are equal, a call moves the handshake and nothing else, or is the
export of a complete session. -/
theorem VtableStep.moves (hflags : s.splitDone = s.keysExported) (h : VtableStep X s l s') :
    (isExport l = false ∧ ∃ hs, s' = { s with handshake := hs } ∧ Moved s.handshake hs) ∨
      (isExport l = true ∧ s.handshake.isComplete = true ∧ s.splitDone = false ∧
        s' = s.exported X) := by
  obtain ⟨hnot, rfl⟩ | ⟨hnot, _, _, _, _, r, hr, rfl⟩ | hexport := h.cases hflags
  · exact Or.inl ⟨hnot, s'.handshake, rfl, Moved.refl _⟩
  · exact Or.inl ⟨hnot, noiseHandshakeStep_session hr⟩
  · exact Or.inr hexport

end Calls

section Invariant

variable {p : Pattern} {role : GnRole} {s s' : NoiseSession} {tr : List (Call × Reply)}
  {l : Call × Reply}

/-- The calls so far and the session they led to. -/
structure Sound (p : Pattern) (role : GnRole) (tr : List (Call × Reply)) (s : NoiseSession) :
    Prop where
  pattern : s.handshake.pattern = p
  initiator : s.handshake.initiator = decide (role = .initiator)
  bounded : s.handshake.step ≤ s.handshake.stepsTotal
  flags : s.splitDone = s.keysExported
  exported : exports tr = if s.splitDone then 1 else 0

/-- Every call keeps the invariant. -/
theorem Sound.step (h : Sound p role tr s) (hs : VtableStep X s l s') :
    Sound p role (tr ++ [l]) s' := by
  have hcount : exports (tr ++ [l]) = exports tr + if isExport l then 1 else 0 := by
    rw [exports, List.countP_append, List.countP_singleton]
    rfl
  obtain ⟨hnot, hs, rfl, hmoved⟩ | ⟨hexport, hc, hsplit, rfl⟩ := hs.moves h.flags
  · refine ⟨hmoved.pattern.trans h.pattern, hmoved.initiator.trans h.initiator,
      hmoved.bound h.bounded, h.flags, ?_⟩
    rw [hcount, hnot]
    exact h.exported
  · refine ⟨h.pattern, h.initiator, h.bounded, rfl, ?_⟩
    rw [hcount, hexport, h.exported, hsplit]
    rfl

theorem Sound.opened {args : OpenArgs} (h : Opened X p args s) : Sound p args.role [] s := by
  obtain ⟨keys, rs, _, rfl⟩ := h.make
  unfold NoiseSession.make HandshakeState.make
  cases p <;> cases args.role <;> cases rs <;>
    exact ⟨rfl, rfl, Nat.zero_le _, rfl, rfl⟩

end Invariant

section Laws

variable {p : Pattern} {s s' : NoiseSession} {tr : List (Call × Reply)} {l : Call × Reply}

end Laws

end SecurityNoise
