import SecurityNoise.Provider
import SecurityNoise.Miniature

/-!
# Transport calls that fail

`noise_encrypt` and `noise_decrypt` move the ciphers before they hand their result to
`emit_buffer`, which then may refuse a null argument or fail to allocate. A frame that does
not open is refused before anything moves. The results say exactly when an error leaves the
ciphers as they were.
-/

namespace SecurityNoise

variable {X : External}

section Statement

/-- Unless the call returns `GN_OK`, it leaves both ciphers as they were. -/
def AtomicOnError (s : NoiseSession)
    (result : Except Fatal (GnResult × Option SecureBuffer × NoiseSession)) : Prop :=
  ∀ code out s', result = .ok (code, out, s') → code ≠ .ok →
    s'.transport.send = s.transport.send ∧ s'.transport.recv = s.transport.recv

/-- The out argument can take the bytes: it is not null, and a buffer for them is allocated
unless there are none. -/
def CanEmit (alloc : Bool) (src : Bytes) (out : Option SecureBuffer) : Prop :=
  out ≠ none ∧ (src = [] ∨ alloc = true)

end Statement

section Buffers

variable {alloc : Bool} {src : Bytes} {out : Option SecureBuffer}

theorem emitBuffer_ok_iff : (emitBuffer alloc src out).1 = .ok ↔ CanEmit alloc src out := by
  cases out with
  | none => simp [emitBuffer, CanEmit]
  | some buffer =>
      cases src with
      | nil => simp [emitBuffer, CanEmit]
      | cons b bs => cases alloc <;> simp [emitBuffer, CanEmit]

end Buffers

section Counters

variable {t t' : TransportState}

/-- A frame uses one counter and leaves the opposite one. -/
def UsedFrame (t t' : TransportState) : Prop :=
  (t'.send.n = t.send.n + 1 ∧ t'.recv.n = t.recv.n) ∨
    (t'.send.n = t.send.n ∧ t'.recv.n = t.recv.n + 1)

theorem succ_ne (n : UInt64) : n + 1 ≠ n := by
  intro h
  have hnat := congrArg UInt64.toNat h
  rw [UInt64.toNat_add, UInt64.toNat_one] at hnat
  have hlt := n.toNat_lt
  omega

/-- No rekey restores the counters of a transport that used a frame: it resets both, and
two counters at zero need no rekey after one frame. -/
theorem UsedFrame.rekeyIfNeeded_ne (h : UsedFrame t t') :
    ¬ ((t'.rekeyIfNeeded X).send = t.send ∧ (t'.rekeyIfNeeded X).recv = t.recv) := by
  rintro ⟨hsend, hrecv⟩
  unfold TransportState.rekeyIfNeeded at hsend hrecv
  by_cases hneeds : t'.needsRekey = true
  · rw [if_pos hneeds] at hsend hrecv
    have hs : t.send.n = 0 := (congrArg CipherState.n hsend).symm
    have hr : t.recv.n = 0 := (congrArg CipherState.n hrecv).symm
    rw [UsedFrame, hs, hr] at h
    unfold TransportState.needsRekey at hneeds
    obtain ⟨hs', hr'⟩ | ⟨hs', hr'⟩ := h
    · rw [hs', hr'] at hneeds
      exact absurd hneeds (by decide)
    · rw [hs', hr'] at hneeds
      exact absurd hneeds (by decide)
  · rw [if_neg hneeds] at hsend hrecv
    obtain ⟨hs, _⟩ | ⟨_, hr⟩ := h
    · rw [hsend] at hs
      exact succ_ne _ hs.symm
    · rw [hrecv] at hr
      exact succ_ne _ hr.symm

end Counters

section Calls

variable {t : TransportState}

/-- A keyed transport seals what it is given, unless its send counter is exhausted. -/
theorem encryptThenRekey_keyed (hkey : t.send.hasKey = true) (plaintext : Bytes) :
    (t.send.n = maxNonce ∧ t.encryptThenRekey X plaintext = .error .encryptNonceWrap) ∨
      (t.send.n ≠ maxNonce ∧ ∃ frame t', frame ≠ [] ∧ UsedFrame t t' ∧
        t.encryptThenRekey X plaintext = .ok (frame, t'.rekeyIfNeeded X)) := by
  by_cases hn : t.send.n = maxNonce
  · refine Or.inl ⟨hn, ?_⟩
    simp [TransportState.encryptThenRekey, TransportState.encrypt, CipherState.encryptWithAd,
      hkey, hn]
  · refine Or.inr ⟨hn, X.aeadEncrypt t.send.k (encodeNonce t.send.n) [] plaintext,
      { t with send := { t.send with n := t.send.n + 1 } }, ?_, Or.inl ⟨rfl, rfl⟩, ?_⟩
    · apply List.ne_nil_of_length_pos
      rw [X.aeadEncrypt_length]
      exact Nat.add_pos_right _ (by decide)
    · simp only [TransportState.encryptThenRekey, TransportState.encrypt,
        CipherState.encryptWithAd_keyed hkey hn]

/-- What a decryption with a key did: refuse the frame without a change, or open it. -/
theorem decryptThenRekey_keyed (hkey : t.recv.hasKey = true) {frame : Bytes}
    {r : Option Bytes} {t'' : TransportState}
    (h : t.decryptThenRekey X frame = .ok (r, t'')) :
    (r = none ∧ t'' = t) ∨
      (∃ plain t', r = some plain ∧ t.recv.n ≠ maxNonce ∧
        X.aeadDecrypt t.recv.k (encodeNonce t.recv.n) [] frame = some plain ∧
        UsedFrame t t' ∧ t'' = t'.rekeyIfNeeded X) := by
  unfold TransportState.decryptThenRekey TransportState.decrypt at h
  cases hd : t.recv.decryptWithAd X [] frame with
  | error e => simp [hd] at h
  | ok res =>
      obtain ⟨plain, recv⟩ := res
      obtain ⟨hf, _⟩ | ⟨_, rfl, rfl⟩ | ⟨_, hn, rfl, p, rfl, hp⟩ :=
        CipherState.decryptWithAd_eq_ok hd
      · rw [hkey] at hf
        cases hf
      · simp only [hd] at h
        obtain ⟨rfl, rfl⟩ := Prod.mk.inj (Except.ok.inj h)
        exact Or.inl ⟨rfl, rfl⟩
      · simp only [hd] at h
        obtain ⟨rfl, rfl⟩ := Prod.mk.inj (Except.ok.inj h)
        exact Or.inr ⟨p, { t with recv := { t.recv with n := t.recv.n + 1 } }, rfl, hn, hp,
          Or.inr ⟨rfl, rfl⟩, rfl⟩

/-- A frame that opens below the last counter is accepted. -/
theorem decryptThenRekey_opens (hkey : t.recv.hasKey = true) {frame plain : Bytes}
    (hn : t.recv.n ≠ maxNonce)
    (hopen : X.aeadDecrypt t.recv.k (encodeNonce t.recv.n) [] frame = some plain) :
    ∃ t', UsedFrame t t' ∧
      t.decryptThenRekey X frame = .ok (some plain, t'.rekeyIfNeeded X) := by
  refine ⟨{ t with recv := { t.recv with n := t.recv.n + 1 } }, Or.inr ⟨rfl, rfl⟩, ?_⟩
  simp only [TransportState.decryptThenRekey, TransportState.decrypt,
    CipherState.decryptWithAd_keyed hkey hn, hopen]

end Calls

section Entries

variable {s : NoiseSession}

/-- A call that has moved the transport reports no error exactly when its bytes can be
emitted. -/
theorem atomicOnError_emit {alloc : Bool} {src : Bytes} {out : Option SecureBuffer}
    {t' : TransportState} (hused : UsedFrame s.transport t') :
    AtomicOnError s (.ok ((emitBuffer alloc src out).1, (emitBuffer alloc src out).2,
      { s with transport := t'.rekeyIfNeeded X })) ↔ CanEmit alloc src out := by
  rw [← emitBuffer_ok_iff]
  constructor
  · intro h
    by_contra hcode
    exact hused.rekeyIfNeeded_ne (h _ _ _ rfl hcode)
  · intro hok code out' s' h hne
    obtain ⟨rfl, _⟩ := Prod.mk.inj (Except.ok.inj h)
    exact absurd hok hne

section Gates

variable (hsplit : s.splitDone = true) (hexp : s.keysExported = false)
  {alloc : Bool} {out : Option SecureBuffer} {input : Bytes} {e : Fatal} {t : TransportState}

include hsplit hexp

/-- Past its gates `noise_encrypt` is the transport's sequence, then `emit_buffer`. -/
theorem noiseEncrypt_error (h : s.transport.encryptThenRekey X input = .error e) :
    noiseEncrypt X s input alloc out = .error e := by
  simp only [noiseEncrypt, hsplit, hexp, h, Bool.not_true, Bool.false_eq_true, if_false]

theorem noiseEncrypt_ok {frame : Bytes}
    (h : s.transport.encryptThenRekey X input = .ok (frame, t)) :
    noiseEncrypt X s input alloc out = .ok ((emitBuffer alloc frame out).1,
      (emitBuffer alloc frame out).2, { s with transport := t }) := by
  simp only [noiseEncrypt, hsplit, hexp, h, Bool.not_true, Bool.false_eq_true, if_false]

/-- Past its gates `noise_decrypt` refuses a frame that does not open, and hands any other
plaintext to `emit_buffer`. -/
theorem noiseDecrypt_error (h : s.transport.decryptThenRekey X input = .error e) :
    noiseDecrypt X s input alloc out = .error e := by
  simp only [noiseDecrypt, hsplit, hexp, h, Bool.not_true, Bool.false_eq_true, if_false]

theorem noiseDecrypt_none (h : s.transport.decryptThenRekey X input = .ok (none, t)) :
    noiseDecrypt X s input alloc out =
      .ok (.errInvalidEnvelope, out, { s with transport := t }) := by
  simp only [noiseDecrypt, hsplit, hexp, h, Bool.not_true, Bool.false_eq_true, if_false]

theorem noiseDecrypt_some {plain : Bytes}
    (h : s.transport.decryptThenRekey X input = .ok (some plain, t)) :
    noiseDecrypt X s input alloc out = .ok ((emitBuffer alloc plain out).1,
      (emitBuffer alloc plain out).2, { s with transport := t }) := by
  simp only [noiseDecrypt, hsplit, hexp, h, Bool.not_true, Bool.false_eq_true, if_false]

end Gates

theorem atomicOnError_error (s : NoiseSession) (e : Fatal) : AtomicOnError s (.error e) := by
  intro code out s' h
  cases h

/-- `noise_encrypt` leaves the ciphers alone on every error if and only if it aborts or can
emit the frame; `noise_decrypt`, if and only if it aborts, does not open the frame, or can
emit the plaintext. -/
theorem transport_calls_atomic_iff (hsplit : s.splitDone = true)
    (hexp : s.keysExported = false) (hsend : s.transport.send.hasKey = true)
    (hrecv : s.transport.recv.hasKey = true) (alloc : Bool) (out : Option SecureBuffer) :
    (∀ plaintext, AtomicOnError s (noiseEncrypt X s plaintext alloc out) ↔
      s.transport.send.n = maxNonce ∨ (out ≠ none ∧ alloc = true)) ∧
    (∀ frame, AtomicOnError s (noiseDecrypt X s frame alloc out) ↔
      s.transport.recv.n = maxNonce ∨
        ∀ plain, X.aeadDecrypt s.transport.recv.k (encodeNonce s.transport.recv.n) [] frame =
          some plain → CanEmit alloc plain out) := by
  constructor
  · intro plaintext
    obtain ⟨hn, herr⟩ | ⟨hn, frame, t', hframe, hused, hok⟩ :=
      encryptThenRekey_keyed (X := X) hsend plaintext
    · rw [noiseEncrypt_error hsplit hexp herr]
      exact iff_of_true (atomicOnError_error s _) (Or.inl hn)
    · rw [noiseEncrypt_ok hsplit hexp hok]
      refine (atomicOnError_emit hused).trans ?_
      simp only [CanEmit, hframe, false_or, hn]
  · intro frame
    constructor
    · intro hatomic
      by_cases hn : s.transport.recv.n = maxNonce
      · exact Or.inl hn
      · refine Or.inr fun plain hopen => ?_
        obtain ⟨t', hused, hok⟩ := decryptThenRekey_opens hrecv hn hopen
        rw [noiseDecrypt_some hsplit hexp hok] at hatomic
        exact (atomicOnError_emit hused).mp hatomic
    · intro hcond
      cases hd : s.transport.decryptThenRekey X frame with
      | error e =>
          rw [noiseDecrypt_error hsplit hexp hd]
          exact atomicOnError_error s e
      | ok res =>
          obtain ⟨r, t''⟩ := res
          obtain ⟨rfl, rfl⟩ | ⟨plain, t', rfl, hn, hopen, hused, rfl⟩ :=
            decryptThenRekey_keyed hrecv hd
          · rw [noiseDecrypt_none hsplit hexp hd]
            intro code out' s' h _
            obtain ⟨_, h'⟩ := Prod.mk.inj (Except.ok.inj h)
            obtain ⟨_, rfl⟩ := Prod.mk.inj h'
            exact ⟨rfl, rfl⟩
          · rw [noiseDecrypt_some hsplit hexp hd]
            exact (atomicOnError_emit hused).mpr (hcond.resolve_left hn plain hopen)

end Entries

section Concrete

open Miniature

/-- A session past both gates, with fresh transport keys. -/
def smallOpenSession : NoiseSession :=
  { xxSession .initiator 1 with
    transport :=
      ⟨CipherState.initializeKey (secretKey 1), CipherState.initializeKey (secretKey 2)⟩
    splitDone := true }

/-- With a null out argument an empty frame is still counted. -/
theorem transport_calls_atomic_iff_small :
    ¬ AtomicOnError smallOpenSession (noiseEncrypt external smallOpenSession [] true none) := by
  intro h
  have hiff := transport_calls_atomic_iff (X := external) (s := smallOpenSession) rfl rfl rfl rfl
    true none
  obtain hn | ⟨hnone, _⟩ := (hiff.1 []).mp h
  · exact absurd hn (by decide)
  · exact hnone rfl

/-- The encryption of `[7]` fails for want of memory, and so does the decryption of the frame
that carries it; both have used their counters. -/
theorem transport_calls_atomic_fails :
    ¬ AtomicOnError smallOpenSession
        (noiseEncrypt external smallOpenSession [7] false (some {})) ∧
      ¬ AtomicOnError smallOpenSession (noiseDecrypt external smallOpenSession
        (external.aeadEncrypt (secretKey 2) (encodeNonce 0) [] [7]) false (some {})) := by
  constructor
  · intro h
    obtain ⟨hn, _⟩ | ⟨_, frame, t', hframe, hused, hok⟩ :=
      encryptThenRekey_keyed (X := external) (t := smallOpenSession.transport) rfl [7]
    · exact absurd hn (by decide)
    · rw [noiseEncrypt_ok rfl rfl hok] at h
      have hemit := (atomicOnError_emit hused).mp h
      exact absurd hemit.2 (by simp [hframe])
  · intro h
    have hopen := external_aeadRoundTrip (secretKey 2) (encodeNonce 0) [] [7]
    have hn : smallOpenSession.transport.recv.n ≠ maxNonce := by decide
    have hkey : smallOpenSession.transport.recv = CipherState.initializeKey (secretKey 2) := rfl
    obtain ⟨t', hused, hok⟩ := decryptThenRekey_opens (X := external)
      (t := smallOpenSession.transport) (by rw [hkey]; rfl) hn (by rw [hkey]; exact hopen)
    rw [noiseDecrypt_some rfl rfl hok] at h
    have hemit := (atomicOnError_emit hused).mp h
    exact absurd hemit.2 (by decide)

end Concrete

end SecurityNoise
