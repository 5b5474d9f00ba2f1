import SecurityNoise.Sequences
import SecurityNoise.Miniature

/-!
# Nothing secret passes a cipher without a key

A cipher without a key passes its input through. Over any sequence of message calls, failed
ones included, the cipher holds a key that a DH installed whenever a static key is encrypted
or opened, and whenever a payload is, except in the first XX message. The third XX message
encrypts its static key before any DH of its own, so the key of an earlier message has to
have survived every way of reaching it.
-/

namespace SecurityNoise

open Framework (Role Token)
open EarlyExit

variable {X : External}

section Statement

/-- The cipher's key was installed by mixing in the result of a DH that was computed. -/
def InstalledByDh (X : External) (past : List Event) (c : CipherState) : Prop :=
  c.hasKey = true ∧ ∃ dir own sk pk shared s, .dh dir own sk pk ∈ past ∧
    X.scalarmult sk pk = some shared ∧
    c.k = (SymmetricState.mixKey X s shared.toList).cipher.k

/-- The AEAD encryption under the key, nonce and hash of a state. -/
def SymmetricState.aead (X : External) (s : SymmetricState) (p : Bytes) : Bytes :=
  X.aeadEncrypt s.cipher.k (encodeNonce s.cipher.n) s.h.toList p

/-- The AEAD opens `c` to `p` under the key, nonce and hash of a state. -/
def SymmetricState.Verifies (X : External) (s : SymmetricState) (c p : Bytes) : Prop :=
  X.aeadDecrypt s.cipher.k (encodeNonce s.cipher.n) s.h.toList c = some p

/-- What holds of the next call on a state with messages left, after calls that computed
`past`. -/
structure Protected (X : External) (past : List Event) (hs : HandshakeState) : Prop where
  /-- A static key is encrypted with a key. -/
  staticWritten : ∀ random pre post out t, armTokens hs.pattern hs.step = pre ++ .s :: post →
    WritePoint X hs random pre out t → InstalledByDh X (past ++ t.log) t.hs.symmetric.cipher
  /-- One is opened with a key. -/
  staticRead : ∀ m pre post offset t, armTokens hs.pattern hs.step = pre ++ .s :: post →
    ReadPoint X hs m pre offset t → InstalledByDh X (past ++ t.log) t.hs.symmetric.cipher
  /-- So are payloads, but for the first XX message. -/
  payloadWritten : ¬ (hs.pattern = .xx ∧ hs.step = 0) → ∀ random out t,
    WritePoint X hs random (armTokens hs.pattern hs.step) out t →
      InstalledByDh X (past ++ t.log) t.hs.symmetric.cipher
  payloadRead : ¬ (hs.pattern = .xx ∧ hs.step = 0) → ∀ m offset t,
    ReadPoint X hs m (armTokens hs.pattern hs.step) offset t →
      InstalledByDh X (past ++ t.log) t.hs.symmetric.cipher
  /-- An emitted message carries the local static key under the AEAD, between the ephemeral
  key and the payload. -/
  staticEmitted : ∀ random payload m t, hs.writeMessage X random payload = .ok (some m, t) →
    ∀ pre post, armTokens hs.pattern hs.step = pre ++ .s :: post → ∃ out out' t₁ t₂,
      WritePoint X hs random pre out t₁ ∧
      WritePoint X hs random (armTokens hs.pattern hs.step) out' t₂ ∧
      m = (if draws hs.pattern hs.step then (generateKeypair X random).pk.toList else []) ++
        t₁.hs.symmetric.aead X hs.sPk.toList ++ t₂.hs.symmetric.aead X payload
  /-- A call, accepted or not, that leaves another static key of the peer has verified it. -/
  staticVerified : ∀ m r t, hs.readMessage X m = .ok (r, t) →
    (t.hs.rs = hs.rs ∧ t.hs.rsKnown = hs.rsKnown ∧
        (r.isSome = true → Token.s ∉ armTokens hs.pattern hs.step)) ∨
      ∃ pre post offset t₁ enc, armTokens hs.pattern hs.step = pre ++ .s :: post ∧
        ReadPoint X hs m pre offset t₁ ∧
        span m offset (DH_PUBLIC_KEY_BYTES + AEAD_TAG_BYTES) = some enc ∧
        t₁.hs.symmetric.Verifies X enc t.hs.rs.toList
  /-- An accepted payload was verified. -/
  payloadVerified : ¬ (hs.pattern = .xx ∧ hs.step = 0) → ∀ m p t,
    hs.readMessage X m = .ok (some p, t) → ∃ offset t₁,
      ReadPoint X hs m (armTokens hs.pattern hs.step) offset t₁ ∧
      t₁.hs.symmetric.Verifies X (m.drop offset) p

end Statement

section Keys

variable {t : Traced} {past : List Event}

theorem keyFact_installed (past : List Event) :
    KeyFact X fun t => InstalledByDh X (past ++ t.log) t.hs.symmetric.cipher where
  keep t t' hk hhas hlog ht := by
    obtain ⟨hkey, dir, own, sk, pk, shared, s, hmem, hdh, heq⟩ := ht
    obtain ⟨l, hl⟩ := hlog
    refine ⟨hhas.trans hkey, dir, own, sk, pk, shared, s, ?_, hdh, hk.trans heq⟩
    rw [← hl, ← List.append_assoc]
    exact List.mem_append_left l hmem
  install t dir own peer shared hdh := by
    refine ⟨rfl, dir, own, _, _, shared, t.hs.symmetric, ?_, hdh, rfl⟩
    apply List.mem_append_right
    exact List.mem_append_right _ List.mem_cons_self

/-- One of the messages before message `n` has a DH. -/
def sharedBefore (p : Pattern) (n : Nat) : Bool :=
  (List.range n).any fun i => (armTokens p i).any Token.isDh

theorem sharedBefore_succ (p : Pattern) (n : Nat) :
    sharedBefore p (n + 1) = (sharedBefore p n || (armTokens p n).any Token.isDh) := by
  rw [sharedBefore, List.range_succ, List.any_append, List.any_cons, List.any_nil,
    Bool.or_false]
  rfl

/-- Once a message with a DH has been processed, the cipher's key is one that a DH
installed. -/
def Keying (X : External) (past : List Event) (hs : HandshakeState) : Prop :=
  sharedBefore hs.pattern hs.step = true → InstalledByDh X past hs.symmetric.cipher

/-- Every payload but that of the first XX message comes after a DH. -/
theorem payload_shared {p : Pattern} {i : Nat} (hi : i < patternTotalSteps p)
    (h : ¬ (p = .xx ∧ i = 0)) :
    (sharedBefore p i || (armTokens p i).any Token.isDh) = true := by
  obtain ⟨rfl, rfl⟩ | ⟨rfl, rfl⟩ | ⟨rfl, rfl⟩ | ⟨rfl, rfl⟩ | ⟨rfl, rfl⟩ := message_cases hi
  · exact absurd ⟨rfl, rfl⟩ h
  all_goals decide

/-- So does every static key. -/
theorem static_shared {p : Pattern} {i : Nat} {pre post : List Token}
    (h : armTokens p i = pre ++ .s :: post) :
    (sharedBefore p i || pre.any Token.isDh) = true := by
  obtain ⟨_, _, _, hany | ⟨rfl, rfl⟩⟩ := armTokens_split h
  · rw [hany, Bool.or_true]
  · rw [show sharedBefore .xx 2 = true by decide, Bool.true_or]

end Keys

section Runs

variable {hs hs' : HandshakeState} {past : List Event} {l : MessageRecord}

/-- The state a call leaves is keyed, when its body kept the key and, once through, has run
the message's DHs. -/
theorem Keying.of_body (h : Keying X past hs) {body : Op Bytes} {r : Option Bytes} {t : Traced}
    {dir : Direction}
    (hbody : Triple
      (Given (sharedBefore hs.pattern hs.step)
        fun t => InstalledByDh X (past ++ t.log) t.hs.symmetric.cipher) body
      (fun _ => Given (sharedBefore hs.pattern hs.step ||
          (armTokens hs.pattern hs.step).any Token.isDh)
        fun t => InstalledByDh X (past ++ t.log) t.hs.symmetric.cipher)
      (Given (sharedBefore hs.pattern hs.step)
        fun t => InstalledByDh X (past ++ t.log) t.hs.symmetric.cipher))
    (hrun : body.run ⟨hs, []⟩ = .ok (r, t)) (hp : t.hs.pattern = hs.pattern)
    (hstep : t.hs.step = hs.step) :
    Keying X (past ++ (if r.isSome then t.counted dir else t).log)
      (if r.isSome then t.counted dir else t).hs := by
  have hstart : Given (sharedBefore hs.pattern hs.step)
      (fun t => InstalledByDh X (past ++ t.log) t.hs.symmetric.cipher) ⟨hs, []⟩ := by
    intro hb
    rw [List.append_nil]
    exact h hb
  have hend := hbody ⟨hs, []⟩ hstart r t hrun
  cases r with
  | none =>
      intro hb
      apply hend
      rw [← hp, ← hstep]
      exact hb
  | some out =>
      intro hb
      have hshared : sharedBefore t.hs.pattern (t.hs.step + 1) = true := hb
      rw [sharedBefore_succ, hp, hstep] at hshared
      have hkey := hend hshared
      exact (keyFact_installed past).keep t (t.counted dir) rfl rfl (List.prefix_append _ _) hkey

/-- Every call, failed or not, keeps the invariant. -/
theorem Keying.step (h : Keying X past hs) (hs_step : MessageStep X hs l hs') :
    Keying X (past ++ l.after.log) hs' := by
  obtain ⟨_, hcall, rfl⟩ := hs_step
  cases hl : l.call with
  | write random payload =>
      rw [hl] at hcall
      obtain ⟨_, _, heq⟩ | ⟨hc, t₁, hrun, heq⟩ := writeMessage_eq_ok hcall
      · rw [heq, List.append_nil]
        exact h
      · rw [heq]
        obtain ⟨hp, _, hst, _⟩ := afterDrawing_frame X random hs.pattern hs.step ⟨hs, []⟩
        have hpiece := (writeBody_eq_ok hrun).1
        exact h.of_body (writeBody_fact (keyFact_installed past) _ random payload _ _) hrun
          (hpiece.pattern.trans hp) (hpiece.step.trans hst)
  | read m =>
      rw [hl] at hcall
      obtain ⟨_, _, heq⟩ | ⟨hc, t₁, hrun, hpiece, heq⟩ := readMessage_eq_ok hcall
      · rw [heq, List.append_nil]
        exact h
      · rw [heq]
        exact h.of_body (readBody_fact (keyFact_installed past) _ m _ _) hrun hpiece.pattern
          hpiece.step

theorem Keying.make (p : Pattern) (initiator : Bool) (keys : Keypair) (rs : Option PublicKey) :
    Keying X [] (HandshakeState.make X p initiator keys rs) := by
  intro hb
  rw [(HandshakeState.make_start p initiator keys rs).2.2] at hb
  cases hb

theorem computed_append (tr : List MessageRecord) (l : MessageRecord) :
    computed (tr ++ [l]) = computed tr ++ l.after.log := by
  simp [computed]

/-- The invariant holds after every sequence of calls. -/
theorem keying_of_run {p : Pattern} {initiator : Bool} {keys : Keypair} {rs : Option PublicKey}
    {tr : List MessageRecord}
    (run : Run (MessageStep X) (HandshakeState.make X p initiator keys rs) tr hs) :
    Keying X (computed tr) hs := by
  have h : Keying X (computed ([] ++ tr)) hs := by
    refine run.history (J := fun tr hs => Keying X (computed tr) hs) ?_
      (Keying.make p initiator keys rs)
    intro tr hs l hs' h hstep
    rw [computed_append]
    exact h.step hstep
  exact h

end Runs

section Points

variable {hs : HandshakeState} {past : List Event}

/-- Where the tokens up to a point, or a message before, have a DH, the point is keyed. -/
theorem Keying.writePoint (h : Keying X past hs) {random : PrivateKey} {pre : List Token}
    {out : Bytes} {t : Traced}
    (hshared : (sharedBefore hs.pattern hs.step || pre.any Token.isDh) = true)
    (hpoint : WritePoint X hs random pre out t) :
    InstalledByDh X (past ++ t.log) t.hs.symmetric.cipher := by
  have hfact := writeTokensOp_fact (keyFact_installed (X := X) past)
    (sharedBefore hs.pattern hs.step) random (writerOf hs.step) pre ⟨hs, []⟩ ?_ _ _ hpoint
  · exact hfact hshared
  · intro hb
    rw [List.append_nil]
    exact h hb

theorem Keying.readPoint (h : Keying X past hs) {m : Bytes} {pre : List Token} {offset : Nat}
    {t : Traced} (hshared : (sharedBefore hs.pattern hs.step || pre.any Token.isDh) = true)
    (hpoint : ReadPoint X hs m pre offset t) :
    InstalledByDh X (past ++ t.log) t.hs.symmetric.cipher := by
  have hfact := readTokensOp_fact (keyFact_installed (X := X) past)
    (sharedBefore hs.pattern hs.step) m (readerOf hs.step) 0 pre ⟨hs, []⟩ ?_ _ _ hpoint
  · exact hfact hshared
  · intro hb
    rw [List.append_nil]
    exact h hb

theorem SymmetricState.sealed_keyed {s : SymmetricState} (h : s.cipher.hasKey = true)
    (p : Bytes) : s.sealed X p = s.aead X p := if_pos h

theorem SymmetricState.Opens.verifies {s : SymmetricState} {c p : Bytes}
    (h : s.Opens X c p) (hk : s.cipher.hasKey = true) : s.Verifies X c p := by
  rwa [Opens, if_pos hk] at h

/-- After any sequence of message calls on a constructed state, accepted, rejected or failed,
static keys and later payloads meet only ciphers that a DH has keyed. -/
theorem protected_of_run {p : Pattern} {initiator : Bool} {keys : Keypair}
    {rs : Option PublicKey} {tr : List MessageRecord}
    (run : Run (MessageStep X) (HandshakeState.make X p initiator keys rs) tr hs)
    (hopen : hs.isComplete = false) : Protected X (computed tr) hs := by
  have h := keying_of_run run
  have hpayload : ¬ (hs.pattern = .xx ∧ hs.step = 0) →
      (sharedBefore hs.pattern hs.step ||
        (armTokens hs.pattern hs.step).any Token.isDh) = true :=
    payload_shared (step_lt hopen)
  constructor
  · intro random pre post out t hts hpoint
    exact h.writePoint (static_shared hts) hpoint
  · intro m pre post offset t hts hpoint
    exact h.readPoint (static_shared hts) hpoint
  · intro hfirst random out t hpoint
    exact h.writePoint (hpayload hfirst) hpoint
  · intro hfirst m offset t hpoint
    exact h.readPoint (hpayload hfirst) hpoint
  · intro random payload m t hwrite pre post hts
    obtain ⟨_, out', t₂, hpoint₂, hm⟩ := writeMessage_payload hwrite
    obtain ⟨out, t₁, hpoint₁, hout⟩ := writeTokens_static hts hpoint₂
    obtain ⟨⟨dhs, hpre, hdhs⟩, _⟩ := armTokens_split hts
    have hhead : out = if draws hs.pattern hs.step then (generateKeypair X random).pk.toList
        else [] := by
      rw [WritePoint, hpre] at hpoint₁
      exact writeTokensOp_head hdhs hpoint₁
    have hkey₁ := h.writePoint (static_shared hts) hpoint₁
    have hfirst : ¬ (hs.pattern = .xx ∧ hs.step = 0) := by
      rintro ⟨hp, hst⟩
      rw [hp, hst] at hts
      simp [armTokens, List.cons_eq_append_iff] at hts
    have hkey₂ := h.writePoint (hpayload hfirst) hpoint₂
    refine ⟨out, out', t₁, t₂, hpoint₁, hpoint₂, ?_⟩
    rw [hm, hout, hhead, SymmetricState.sealed_keyed hkey₁.1, SymmetricState.sealed_keyed hkey₂.1]
  · intro m r t hread
    obtain hsame | ⟨⟨pre, post, offset, t₁, enc, hts, hpoint, hspan, hkey, hopens⟩, _⟩ :=
      readMessage_rs hread
    · exact Or.inl hsame
    · exact Or.inr ⟨pre, post, offset, t₁, enc, hts, hpoint, hspan, hopens.verifies hkey⟩
  · intro hfirst m p' t hread
    obtain ⟨_, offset, t₁, symmetric, hpoint, _, hdec, _⟩ := readMessage_payload hread
    have hkey := h.readPoint (hpayload hfirst) hpoint
    exact ⟨offset, t₁, hpoint, (SymmetricState.decryptAndHash_opens hdec).verifies hkey.1⟩

/-- An XX initiator that has written its first message and rejected a second one, at the tag
of its static key. -/
theorem protected_of_run_small : ∃ tr hs, tr.length = 2 ∧ hs.step = 1 ∧
    hs.symmetric.cipher.hasKey = true ∧ Protected Miniature.external (computed tr) hs := by
  obtain ⟨tr, hs, run, hend⟩ := exists_message_run (X := Miniature.external)
    (HandshakeState.make Miniature.external .xx true (Miniature.keypair 1) none)
    [.write (Miniature.secretKey 3) [], .read ((Miniature.keypair 4).pk.toList ++
      List.replicate 68 0)]
    (fun tr hs => tr.length = 2 && hs.step = 1 && hs.symmetric.cipher.hasKey &&
      !hs.isComplete) (by decide +kernel)
  simp only [Bool.and_eq_true, decide_eq_true_eq, Bool.not_eq_true'] at hend
  obtain ⟨⟨⟨hlen, hstep⟩, hkey⟩, hopen⟩ := hend
  exact ⟨tr, hs, hlen, hstep, hkey, protected_of_run run hopen⟩

end Points

end SecurityNoise
