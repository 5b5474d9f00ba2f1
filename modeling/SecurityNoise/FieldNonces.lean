import SecurityNoise.Contexts
import SecurityNoise.Nonces

/-!
# The nonces of a handshake

The handshake's cipher gets a new key with every DH and counts the fields it seals or opens.
In any sequence of message calls, failed ones included, each field is sealed or opened under
a key and nonce that come after all those used before. A call moves the counter by two at
most, so the process is not ended for want of nonces before some `2^63` calls.

## Implementation notes

A field that is rejected uses no nonce: the next one may stand at the same place. What a call
did before it failed counts, since nothing is rolled back.
-/

namespace SecurityNoise

open Framework (Role Token)
open EarlyExit

variable {X : External}

section Statement

/-- Whether a computation gave the cipher a new key: a DH that did not fail. -/
def Event.installs (X : External) : Event → Bool
  | .dh _ _ sk pk => (X.scalarmult sk pk).isSome
  | _ => false

def installed (X : External) (log : List Event) : Nat := log.countP (Event.installs X)

/-- The number of keys installed, with `past` before the call, and the nonce that is next. -/
def Traced.stamp (X : External) (past : List Event) (t : Traced) : Nat × UInt64 :=
  (installed X (past ++ t.log), t.hs.symmetric.cipher.n)

/-- The bytes of a field that starts at `offset`. -/
def Field.carried (message : Bytes) (offset : Nat) : Field → Option Bytes
  | .static => span message offset (DH_PUBLIC_KEY_BYTES + AEAD_TAG_BYTES)
  | .payload => some (message.drop offset)

/-- A call that stands at `t` seals the field under the cipher's key, or opens it. -/
structure FieldUse (X : External) (l : MessageRecord) (f : Field) (t : Traced) : Prop where
  isOpen : l.before.isComplete = false
  present : hasField l.before.pattern l.before.step f = true
  keyed : t.hs.symmetric.cipher.hasKey = true
  used : match l.call with
    | .write random _ => ∃ seen,
        WritePoint X l.before random (tokensBefore l.before.pattern l.before.step f) seen t
    | .read message => ∃ offset c p,
        ReadPoint X l.before message (tokensBefore l.before.pattern l.before.step f) offset t ∧
          f.carried message offset = some c ∧ t.hs.symmetric.Opens X c p

/-- One use of the cipher comes before another: more keys were installed between them, or the
same key was used under a smaller nonce. -/
structure UsedBefore (X : External) (past : List Event) (t : Traced) (past' : List Event)
    (t' : Traced) : Prop where
  earlier : Earlier (t.stamp X past) (t'.stamp X past')
  key : installed X (past ++ t.log) = installed X (past' ++ t'.log) →
    t'.hs.symmetric.cipher.k = t.hs.symmetric.cipher.k

/-- What holds after the calls `tr`. -/
structure HandshakeNonces (X : External) (tr : List MessageRecord) (hs : HandshakeState) :
    Prop where
  within : ∀ pre l post t t', tr = pre ++ l :: post →
    FieldUse X l .static t → FieldUse X l .payload t' →
      UsedBefore X (computed pre) t (computed pre) t'
  across : ∀ pre l mid l' post f f' t t', tr = pre ++ l :: (mid ++ l' :: post) →
    FieldUse X l f t → FieldUse X l' f' t' →
      UsedBefore X (computed pre) t (computed (pre ++ l :: mid)) t'
  /-- The encrypted fields of a message that was written or accepted are such uses: all but
  the payload of the first XX message. -/
  covers : ∀ l ∈ tr, l.result.isSome = true → ¬ (l.before.pattern = .xx ∧ l.before.step = 0) →
    ∀ f, hasField l.before.pattern l.before.step f = true → ∃ t, FieldUse X l f t
  /-- The nonce that ends the process is not used. -/
  reserved : ∀ l ∈ tr, ∀ f t, FieldUse X l f t → t.hs.symmetric.cipher.n ≠ maxNonce
  counted : hs.symmetric.cipher.n.toNat ≤ 2 * tr.length
  /-- Nor is it reached in less than `2^63 - 1` calls. -/
  finishes : tr.length < 2 ^ 63 - 1 → ∀ call, ∃ r t, hs.call X call = .ok (r, t)

end Statement

section Progress

variable {past : List Event} {t t' t'' : Traced}

theorem installed_append (log log' : List Event) :
    installed X (log ++ log') = installed X log + installed X log' := by
  rw [installed, List.countP_append]
  rfl

/-- Between two states of a call the stamp does not go back, and the key changes only with the
number of keys installed. -/
structure Progress (X : External) (past : List Event) (t t' : Traced) : Prop where
  order : t.stamp X past = t'.stamp X past ∨ Earlier (t.stamp X past) (t'.stamp X past)
  key : installed X (past ++ t.log) = installed X (past ++ t'.log) →
    t'.hs.symmetric.cipher.k = t.hs.symmetric.cipher.k

theorem Progress.refl (t : Traced) : Progress X past t t := ⟨Or.inl rfl, fun _ => rfl⟩

/-- Earlier stamps have at most as many keys. -/
theorem Progress.installed_le (h : Progress X past t t') :
    installed X (past ++ t.log) ≤ installed X (past ++ t'.log) := by
  obtain heq | hlt | ⟨heq, _⟩ := h.order
  · exact Nat.le_of_eq (congrArg Prod.fst heq)
  · exact Nat.le_of_lt hlt
  · exact Nat.le_of_eq heq

theorem Progress.trans (h : Progress X past t t') (h' : Progress X past t' t'') :
    Progress X past t t'' := by
  constructor
  · obtain heq | hlt := h.order
    · rw [heq]
      exact h'.order
    · obtain heq' | hlt' := h'.order
      · exact Or.inr (heq' ▸ hlt)
      · exact Or.inr (hlt.trans hlt')
  · intro heq
    have hle := h.installed_le
    have hle' := h'.installed_le
    rw [h'.key (by omega), h.key (by omega)]

/-- Strict progress, followed by more. -/
theorem UsedBefore.progress (h : UsedBefore X past t past t') (h' : Progress X past t' t'') :
    UsedBefore X past t past t'' := by
  have hstep : Progress X past t t' := ⟨Or.inr h.earlier, h.key⟩
  constructor
  · obtain heq | hlt := h'.order
    · rw [← heq]
      exact h.earlier
    · exact h.earlier.trans hlt
  · exact (hstep.trans h').key

theorem UsedBefore.toProgress (h : UsedBefore X past t past t') : Progress X past t t' :=
  ⟨Or.inr h.earlier, h.key⟩

/-- What keeps the cipher and installs no key. -/
theorem Progress.of_cipher {log : List Event} (hlog : t'.log = t.log ++ log)
    (hnone : installed X log = 0)
    (hcipher : t'.hs.symmetric.cipher = t.hs.symmetric.cipher) : Progress X past t t' := by
  have hsame : installed X (past ++ t'.log) = installed X (past ++ t.log) := by
    rw [hlog, ← List.append_assoc, installed_append, hnone, Nat.add_zero]
  constructor
  · left
    rw [Traced.stamp, Traced.stamp, hsame, hcipher]
  · intro _
    rw [hcipher]

theorem Progress.push {ev : Event} (hev : ev.installs X = false) :
    Progress X past t (t.push ev) :=
  Progress.of_cipher rfl (by simp [installed, hev]) rfl

/-- A key that was used counts up. -/
theorem usedBefore_of_next {log : List Event} (hlog : t'.log = t.log ++ log)
    (hnone : installed X log = 0) (hn : t.hs.symmetric.cipher.n ≠ maxNonce)
    (hcipher : t'.hs.symmetric.cipher =
      { t.hs.symmetric.cipher with n := t.hs.symmetric.cipher.n + 1 }) :
    UsedBefore X past t past t' := by
  have hsame : installed X (past ++ t'.log) = installed X (past ++ t.log) := by
    rw [hlog, ← List.append_assoc, installed_append, hnone, Nat.add_zero]
  have hmax : t.hs.symmetric.cipher.n.toNat ≠ 2 ^ 64 - 1 :=
    fun heq => hn (UInt64.toNat_inj.mp heq)
  have hlt := t.hs.symmetric.cipher.n.toNat_lt
  constructor
  · right
    refine ⟨hsame.symm, ?_⟩
    change t.hs.symmetric.cipher.n < t'.hs.symmetric.cipher.n
    rw [hcipher, UInt64.lt_iff_toNat_lt, UInt64.toNat_add, UInt64.toNat_one]
    omega
  · intro _
    rw [hcipher]

end Progress

section Calls

variable {past : List Event} {t t' : Traced}

theorem Progress.bind {α β : Type} {x : Op α} {f : α → Op β} (hx : Within (Progress X past) x)
    (hf : ∀ a, Within (Progress X past) (f a)) : Within (Progress X past) (x >>= f) :=
  Within.bind (fun _ _ _ h h' => h.trans h') hx hf

/-- A field that is sealed under a key uses its nonce. -/
theorem encryptAndHash_uses {p : Bytes} {r : Option Bytes}
    (h : (encryptAndHash X p).run t = .ok (r, t')) : Progress X past t t' ∧
      (t.hs.symmetric.cipher.hasKey = true →
        t.hs.symmetric.cipher.n ≠ maxNonce ∧ UsedBefore X past t past t') := by
  obtain ⟨c, symmetric, rfl, hc, rfl⟩ := encryptAndHash_cases h
  obtain ⟨cipher, hcipher, rfl⟩ := SymmetricState.encryptAndHash_eq_ok hc
  obtain ⟨hno, _, rfl⟩ | ⟨_, hn, _, rfl⟩ := CipherState.encryptWithAd_eq_ok hcipher
  · refine ⟨Progress.of_cipher rfl rfl rfl, fun hk => ?_⟩
    rw [hno] at hk
    cases hk
  · constructor
    · exact (usedBefore_of_next rfl rfl hn rfl).toProgress
    · exact fun _ => ⟨hn, usedBefore_of_next rfl rfl hn rfl⟩

/-- So does one that is opened; a rejected one changes nothing. -/
theorem decryptAndHash_uses {c : Bytes} {r : Option Bytes}
    (h : (decryptAndHash X c).run t = .ok (r, t')) : Progress X past t t' ∧
      (t.hs.symmetric.cipher.hasKey = true → r.isSome = true →
        t.hs.symmetric.cipher.n ≠ maxNonce ∧ UsedBefore X past t past t') := by
  obtain ⟨rfl, rfl⟩ | ⟨p, symmetric, rfl, hp, rfl⟩ := decryptAndHash_cases h
  · exact ⟨Progress.refl _, fun _ hsome => absurd hsome (by simp)⟩
  · obtain ⟨cipher, hcipher, rfl⟩ := SymmetricState.decryptAndHash_some hp
    obtain ⟨hno, _, rfl⟩ | ⟨_, hnone, _⟩ | ⟨_, hn, rfl, _⟩ :=
      CipherState.decryptWithAd_eq_ok hcipher
    · refine ⟨Progress.of_cipher rfl rfl rfl, fun hk => ?_⟩
      rw [hno] at hk
      cases hk
    · cases hnone
    · constructor
      · exact (usedBefore_of_next rfl rfl hn rfl).toProgress
      · exact fun _ _ => ⟨hn, usedBefore_of_next rfl rfl hn rfl⟩

theorem encryptAndHash_progress (p : Bytes) : Within (Progress X past) (encryptAndHash X p) :=
  fun _ _ _ h => (encryptAndHash_uses h).1

theorem decryptAndHash_progress (c : Bytes) : Within (Progress X past) (decryptAndHash X c) :=
  fun _ _ _ h => (decryptAndHash_uses h).1

/-- A DH that does not fail installs a key. -/
theorem mixDh_progress (dir : Direction) (own : Own) (peer : Peer) :
    Within (Progress X past) (mixDh X dir own peer) := by
  intro t r t' h
  obtain ⟨_, hfail, rfl⟩ | ⟨shared, _, hshared, rfl⟩ := mixDh_cases h
  · exact Progress.push (by simp [Event.installs, hfail])
  · have hone : installed X (past ++ (t.log ++
        [.dh dir own (t.hs.secret own) (t.hs.peerKey peer)])) =
        installed X (past ++ t.log) + 1 := by
      rw [← List.append_assoc, installed_append]
      simp [installed, Event.installs, hshared]
    constructor
    · right; left
      change installed X (past ++ t.log) < installed X (past ++ (t.log ++ _))
      rw [hone]
      exact Nat.lt_succ_self _
    · intro heq
      exact absurd (heq.trans hone) (Nat.ne_of_lt (Nat.lt_succ_self _))

/-- What `read_encrypted_static` does with a key it has opened. -/
theorem learn_progress (past : List Event) (plain : Bytes) (next : Nat) :
    Within (Progress X past) (match Block.ofBytes? DH_PUBLIC_KEY_BYTES plain with
      | none => EarlyExit.leave
      | some rs => change (fun hs => { hs with rs := rs, rsKnown := true }) >>= fun _ =>
          pure next) := by
  split
  · exact Within.leave Progress.refl
  · apply Progress.bind
    · apply Within.update
      intro t
      exact Progress.of_cipher (List.append_nil _).symm rfl rfl
    · intro _
      exact Within.pure Progress.refl _

theorem readEncryptedStatic_progress (m : Bytes) (offset : Nat) :
    Within (Progress X past) (readEncryptedStatic X m offset) := by
  intro t r t' h
  rw [readEncryptedStatic_run] at h
  split at h
  · obtain ⟨_, rfl⟩ := Prod.mk.inj (Except.ok.inj h)
    exact Progress.refl t
  · have hpush : Progress X past t (t.push (.static .read t.hs.symmetric.cipher.hasKey)) :=
      Progress.push rfl
    apply hpush.trans
    apply Progress.bind (decryptAndHash_progress _) _ _ _ _ h
    exact fun plain => learn_progress past plain _

theorem readTokenOp_progress (m : Bytes) (role : Role) (offset : Nat) (tok : Token) :
    Within (Progress X past) (readTokenOp X m role offset tok) := by
  obtain rfl | rfl | htok := tok.kinds
  · intro t r t' h
    obtain ⟨_, rfl⟩ | ⟨re, _, _, rfl⟩ := readE_cases h
    · exact Progress.refl _
    · exact Progress.of_cipher rfl rfl rfl
  · exact readEncryptedStatic_progress m offset
  · rw [readTokenOp_dh htok]
    exact Progress.bind (mixDh_progress _ _ _) fun _ => Within.pure Progress.refl _

theorem writeTokenOp_progress (random : PrivateKey) (role : Role) (tok : Token) :
    Within (Progress X past) (writeTokenOp X random role tok) := by
  obtain rfl | rfl | htok := tok.kinds
  · intro t r t' h
    rw [writeTokenOp, writeE_run] at h
    obtain ⟨_, rfl⟩ := Prod.mk.inj (Except.ok.inj h)
    exact Progress.of_cipher (List.append_assoc ..) rfl rfl
  · intro t r t' h
    rw [writeTokenOp, encryptStatic_run] at h
    have hpush : Progress X past t (t.push (.static .written t.hs.symmetric.cipher.hasKey)) :=
      Progress.push rfl
    exact hpush.trans (encryptAndHash_progress _ _ _ _ h)
  · rw [writeTokenOp_dh htok]
    exact Progress.bind (mixDh_progress _ _ _) fun _ => Within.pure Progress.refl _

theorem readTokensOp_progress (m : Bytes) (role : Role) (offset : Nat) (ts : List Token) :
    Within (Progress X past) (readTokensOp X m role offset ts) := by
  induction ts generalizing offset with
  | nil => exact Within.pure Progress.refl _
  | cons tok ts ih => exact Progress.bind (readTokenOp_progress m role offset tok) ih

theorem writeTokensOp_progress (random : PrivateKey) (role : Role) (ts : List Token) :
    Within (Progress X past) (writeTokensOp X random role ts) := by
  induction ts with
  | nil => exact Within.pure Progress.refl _
  | cons tok ts ih =>
      apply Progress.bind (writeTokenOp_progress random role tok)
      intro b
      exact Progress.bind ih fun _ => Within.pure Progress.refl _

end Calls

section Fields

variable {past : List Event} {t₀ t t' : Traced} {role : Role} {pre post : List Token}

/-- A use of the cipher, and whatever follows it. -/
theorem UsedBefore.bind {α β : Type} {x : Op α} {g : α → Op β} {r : Option β}
    (h : (x >>= g).run t = .ok (r, t'))
    (hx : ∀ a t₁, x.run t = .ok (a, t₁) →
      t.hs.symmetric.cipher.n ≠ maxNonce ∧ UsedBefore X past t past t₁)
    (hg : ∀ a, Within (Progress X past) (g a)) :
    t.hs.symmetric.cipher.n ≠ maxNonce ∧ UsedBefore X past t past t' := by
  obtain ⟨a, t₁, h₁, h₂⟩ | ⟨_, h₁⟩ := run_bind_eq_ok h
  · obtain ⟨hn, hused⟩ := hx _ _ h₁
    exact ⟨hn, hused.progress (hg a _ _ _ h₂)⟩
  · exact hx _ _ h₁

/-- Recording an event before a use does not matter. -/
theorem UsedBefore.of_push {ev : Event} (h : UsedBefore X past (t.push ev) past t')
    (hev : ev.installs X = false) : UsedBefore X past t past t' := by
  have hnone : installed X [ev] = 0 := by simp [installed, hev]
  have hsame : installed X (past ++ (t.push ev).log) = installed X (past ++ t.log) := by
    rw [Traced.push, ← List.append_assoc, installed_append, hnone, Nat.add_zero]
  constructor
  · have hstamp : (t.push ev).stamp X past = t.stamp X past := congrArg₂ Prod.mk hsame rfl
    rw [← hstamp]
    exact h.earlier
  · rw [← hsame]
    exact h.key

/-- With a key in place, what opens is not refused. -/
theorem decryptAndHash_opens {c p : Bytes} {r : Option Bytes}
    (hk : t.hs.symmetric.cipher.hasKey = true) (hopen : t.hs.symmetric.Opens X c p)
    (h : (decryptAndHash X c).run t = .ok (r, t')) :
    t.hs.symmetric.cipher.n ≠ maxNonce ∧ UsedBefore X past t past t' := by
  rw [SymmetricState.Opens, if_pos hk] at hopen
  refine (decryptAndHash_uses h).2 hk ?_
  have hlen : ¬ c.length < AEAD_TAG_BYTES := by
    rw [X.aeadDecrypt_length _ _ _ _ _ hopen]
    omega
  rw [decryptAndHash_run, SymmetricState.decryptAndHash, CipherState.decryptWithAd] at h
  simp only [hk, hlen, Bool.not_true, Bool.false_eq_true, if_false, hopen] at h
  by_cases hn : t.hs.symmetric.cipher.n = maxNonce
  · simp only [hn, if_true] at h
    cases h
  · simp only [hn, if_false] at h
    obtain ⟨rfl, _⟩ := Prod.mk.inj (Except.ok.inj h)
    rfl

theorem encryptStatic_uses {r : Option Bytes} (hk : t.hs.symmetric.cipher.hasKey = true)
    (h : (encryptStatic X).run t = .ok (r, t')) :
    t.hs.symmetric.cipher.n ≠ maxNonce ∧ UsedBefore X past t past t' := by
  rw [encryptStatic_run] at h
  obtain ⟨hn, hused⟩ := (encryptAndHash_uses h).2 hk
  exact ⟨hn, hused.of_push rfl⟩

theorem readEncryptedStatic_uses {m c p : Bytes} {offset : Nat} {r : Option Nat}
    (hk : t.hs.symmetric.cipher.hasKey = true)
    (hc : Field.carried m offset .static = some c) (hopen : t.hs.symmetric.Opens X c p)
    (h : (readEncryptedStatic X m offset).run t = .ok (r, t')) :
    t.hs.symmetric.cipher.n ≠ maxNonce ∧ UsedBefore X past t past t' := by
  rw [Field.carried] at hc
  rw [readEncryptedStatic_run, hc] at h
  obtain ⟨hn, hused⟩ := UsedBefore.bind h (fun r t₁ hr => decryptAndHash_opens hk hopen hr)
    fun plain => learn_progress past plain _
  exact ⟨hn, hused.of_push rfl⟩

/-- Tokens with a static key, whatever follows them: the key is sealed on the way. -/
theorem writeTokensOp_uses {β : Type} {random : PrivateKey} {seen : Bytes} {k : Bytes → Op β}
    {r : Option β}
    (hpoint : (writeTokensOp X random role pre).run t₀ = .ok (some seen, t))
    (hk : t.hs.symmetric.cipher.hasKey = true) (hrest : ∀ b, Within (Progress X past) (k b))
    (h : (writeTokensOp X random role (pre ++ .s :: post) >>= k).run t₀ = .ok (r, t')) :
    t.hs.symmetric.cipher.n ≠ maxNonce ∧ UsedBefore X past t past t' := by
  rw [writeTokensOp_append, bind_assoc, run_bind_of_some hpoint, writeTokensOp] at h
  simp only [bind_assoc] at h
  apply UsedBefore.bind h
  · exact fun a t₁ ha => encryptStatic_uses hk ha
  · intro a
    apply Progress.bind (writeTokensOp_progress random role post)
    intro b
    simpa only [pure_bind] using hrest _

/-- Or opened. -/
theorem readTokensOp_uses {β : Type} {m c p : Bytes} {offset : Nat} {k : Nat → Op β}
    {r : Option β} (hpoint : (readTokensOp X m role 0 pre).run t₀ = .ok (some offset, t))
    (hk : t.hs.symmetric.cipher.hasKey = true)
    (hc : Field.carried m offset .static = some c) (hopen : t.hs.symmetric.Opens X c p)
    (hrest : ∀ o, Within (Progress X past) (k o))
    (h : (readTokensOp X m role 0 (pre ++ .s :: post) >>= k).run t₀ = .ok (r, t')) :
    t.hs.symmetric.cipher.n ≠ maxNonce ∧ UsedBefore X past t past t' := by
  rw [readTokensOp_append, bind_assoc, run_bind_of_some hpoint, readTokensOp, bind_assoc] at h
  apply UsedBefore.bind h
  · exact fun a t₁ ha => readEncryptedStatic_uses hk hc hopen ha
  · intro o
    exact Progress.bind (readTokensOp_progress m role o post) hrest

/-- A message that has a static key has it after the tokens before it. -/
theorem armTokens_static {p : Pattern} {i : Nat} (h : hasField p i .static = true) :
    ∃ post, armTokens p i = tokensBefore p i .static ++ .s :: post := by
  obtain ⟨pre, post, hts⟩ := List.append_of_mem (List.contains_iff_mem.mp h)
  rw [tokensBefore_static hts]
  exact ⟨post, hts⟩

end Fields

section Messages

variable {past : List Event} {hs hs' : HandshakeState} {l : MessageRecord} {t t' : Traced}
  {f : Field}

theorem readPayload_progress (past : List Event) (m : Bytes) (offset : Nat) :
    Within (Progress X past) (do
      let rest ← readSpan m offset (m.length - offset)
      let t ← EarlyExit.get
      emit (.payload .read t.hs.symmetric.cipher.hasKey)
      decryptAndHash X rest) := by
  apply Progress.bind
  · apply Within.of_refl Progress.refl
    intro t r t' h
    obtain ⟨_, _, _, rfl⟩ := readSpan_eq_ok h
    rfl
  · intro rest t r t' h
    have hpush : Progress X past t (t.atPayload .read) := Progress.push rfl
    exact hpush.trans (decryptAndHash_progress rest _ _ _ h)

theorem writePayload_progress (past : List Event) (payload b : Bytes) :
    Within (Progress X past) (do
      let c ← encryptPayload X payload
      pure (b ++ c)) := by
  apply Progress.bind
  · intro t r t' h
    rw [encryptPayload_run] at h
    have hpush : Progress X past t (t.atPayload .written) := Progress.push rfl
    exact hpush.trans (encryptAndHash_progress payload _ _ _ h)
  · exact fun _ => Within.pure Progress.refl _

theorem counted_progress (past : List Event) (t : Traced) (dir : Direction) (b : Bool) :
    Progress X past t (if b then t.counted dir else t) := by
  cases b with
  | false => exact Progress.refl t
  | true => exact Progress.of_cipher rfl rfl rfl

/-- A call with messages left runs its body, and counts the message if that succeeds. -/
theorem MessageStep.body (hstep : MessageStep X hs l hs') (hopen : hs.isComplete = false)
    (past : List Event) : match l.call with
      | .write random payload => ∃ r t₁,
          (writeBody X random payload hs.pattern hs.step).run ⟨hs, []⟩ = .ok (r, t₁) ∧
            Progress X past t₁ l.after
      | .read m => ∃ r t₁, (readBody X m hs.pattern hs.step).run ⟨hs, []⟩ = .ok (r, t₁) ∧
            Progress X past t₁ l.after := by
  obtain ⟨_, hcall, _⟩ := hstep
  cases hc : l.call with
  | write random payload =>
      rw [hc] at hcall
      obtain ⟨hdone, _⟩ | ⟨_, t₁, hrun, hafter⟩ := writeMessage_eq_ok hcall
      · rw [hopen] at hdone
        cases hdone
      · refine ⟨_, t₁, hrun, ?_⟩
        rw [hafter]
        exact counted_progress past t₁ _ _
  | read m =>
      rw [hc] at hcall
      obtain ⟨hdone, _⟩ | ⟨_, t₁, hrun, _, hafter⟩ := readMessage_eq_ok hcall
      · rw [hopen] at hdone
        cases hdone
      · refine ⟨_, t₁, hrun, ?_⟩
        rw [hafter]
        exact counted_progress past t₁ _ _

/-- No call takes the stamp back. -/
theorem MessageStep.progress (hstep : MessageStep X hs l hs') (past : List Event) :
    Progress X past ⟨hs, []⟩ l.after := by
  rcases Bool.eq_false_or_eq_true hs.isComplete with hdone | hopen
  · have hsame : l.after = ⟨hs, []⟩ := by
      obtain ⟨_, hcall, _⟩ := hstep
      cases hc : l.call with
      | write random payload =>
          rw [hc] at hcall
          have h := (writeMessage_complete (X := X) hdone random payload).symm.trans hcall
          exact (Prod.mk.inj (Except.ok.inj h)).2.symm
      | read m =>
          rw [hc] at hcall
          have h := (readMessage_complete (X := X) hdone m).symm.trans hcall
          exact (Prod.mk.inj (Except.ok.inj h)).2.symm
    rw [hsame]
    exact Progress.refl _
  · have hbody := hstep.body hopen past
    cases hc : l.call with
    | write random payload =>
        rw [hc] at hbody
        obtain ⟨r, t₁, hrun, hafter⟩ := hbody
        have hwrite : Within (Progress X past) (writeBody X random payload hs.pattern hs.step) :=
          Progress.bind (writeTokensOp_progress _ _ _) (writePayload_progress past payload)
        exact (hwrite _ _ _ hrun).trans hafter
    | read m =>
        rw [hc] at hbody
        obtain ⟨r, t₁, hrun, hafter⟩ := hbody
        have hread : Within (Progress X past) (readBody X m hs.pattern hs.step) :=
          Progress.bind (readTokensOp_progress _ _ _ _) (readPayload_progress past m)
        exact (hread _ _ _ hrun).trans hafter

/-- From the start of the call to the field. -/
theorem FieldUse.before (h : FieldUse X l f t) (past : List Event) :
    Progress X past ⟨l.before, []⟩ t := by
  have hused := h.used
  cases hc : l.call with
  | write random payload =>
      rw [hc] at hused
      obtain ⟨seen, hpoint⟩ := hused
      exact writeTokensOp_progress _ _ _ _ _ _ hpoint
  | read m =>
      rw [hc] at hused
      obtain ⟨offset, c, p, hpoint, _⟩ := hused
      exact readTokensOp_progress _ _ _ _ _ _ _ hpoint

/-- The static key of a message is used before its payload. -/
theorem FieldUse.payload_later (h : FieldUse X l .static t) (h' : FieldUse X l .payload t')
    (past : List Event) : UsedBefore X past t past t' := by
  obtain ⟨post, hts⟩ := armTokens_static h.present
  have hused := h.used
  have hused' := h'.used
  cases hc : l.call with
  | write random payload =>
      rw [hc] at hused hused'
      obtain ⟨seen, hpoint⟩ := hused
      obtain ⟨seen', hpoint'⟩ := hused'
      rw [WritePoint, tokensBefore, hts, ← bind_pure (writeTokensOp _ _ _ _)] at hpoint'
      exact (writeTokensOp_uses hpoint h.keyed (fun b => Within.pure Progress.refl b) hpoint').2
  | read m =>
      rw [hc] at hused hused'
      obtain ⟨offset, c, p, hpoint, hcarried, hopens⟩ := hused
      obtain ⟨offset', c', p', hpoint', _⟩ := hused'
      rw [ReadPoint, tokensBefore, hts, ← bind_pure (readTokensOp _ _ _ _ _)] at hpoint'
      exact (readTokensOp_uses hpoint h.keyed hcarried hopens
        (fun o => Within.pure Progress.refl o) hpoint').2

/-- A call that uses the cipher leaves it with a later stamp. -/
theorem FieldUse.after (h : FieldUse X l f t) (hstep : MessageStep X hs l hs')
    (past : List Event) :
    t.hs.symmetric.cipher.n ≠ maxNonce ∧ UsedBefore X past t past l.after := by
  have hbefore : l.before = hs := hstep.1
  have hbody := hstep.body (hbefore ▸ h.isOpen) past
  have hused := h.used
  have hpresent := h.present
  rw [hbefore] at hused hpresent
  cases hc : l.call with
  | write random payload =>
      rw [hc] at hbody hused
      obtain ⟨r, t₁, hrun, hafter⟩ := hbody
      obtain ⟨seen, hpoint⟩ := hused
      cases f with
      | static =>
          obtain ⟨post, hts⟩ := armTokens_static hpresent
          rw [writeBody, hts] at hrun
          obtain ⟨hn, hlater⟩ := writeTokensOp_uses hpoint h.keyed
            (writePayload_progress past payload) hrun
          exact ⟨hn, hlater.progress hafter⟩
      | payload =>
          have hpoint' : (writeTokensOp X random (writerOf hs.step)
              (armTokens hs.pattern hs.step)).run ⟨hs, []⟩ = .ok (some seen, t) := hpoint
          rw [writeBody, run_bind_of_some hpoint'] at hrun
          have hseal : ∀ a t₂, (encryptPayload X payload).run t = .ok (a, t₂) →
              t.hs.symmetric.cipher.n ≠ maxNonce ∧ UsedBefore X past t past t₂ := by
            intro a t₂ ha
            rw [encryptPayload_run] at ha
            obtain ⟨hn, hlater⟩ := (encryptAndHash_uses ha).2 h.keyed
            exact ⟨hn, hlater.of_push rfl⟩
          obtain ⟨hn, hlater⟩ := UsedBefore.bind hrun hseal fun _ => Within.pure Progress.refl _
          exact ⟨hn, hlater.progress hafter⟩
  | read m =>
      rw [hc] at hbody hused
      obtain ⟨r, t₁, hrun, hafter⟩ := hbody
      obtain ⟨offset, c, p, hpoint, hcarried, hopens⟩ := hused
      cases f with
      | static =>
          obtain ⟨post, hts⟩ := armTokens_static hpresent
          rw [readBody, hts] at hrun
          obtain ⟨hn, hlater⟩ := readTokensOp_uses hpoint h.keyed hcarried hopens
            (readPayload_progress past m) hrun
          exact ⟨hn, hlater.progress hafter⟩
      | payload =>
          obtain ⟨_, hnone⟩ | ⟨offset', t₂, hpoint', _, hdecrypt⟩ := readBody_cases hrun
          · cases hnone.symm.trans hpoint
          · obtain ⟨ho, rfl⟩ := Prod.mk.inj (Except.ok.inj (hpoint'.symm.trans hpoint))
            obtain rfl := Option.some.inj ho
            obtain rfl := Option.some.inj hcarried
            have huse : (t₂.atPayload .read).hs.symmetric.cipher.n ≠ maxNonce ∧
                UsedBefore X past (t₂.atPayload .read) past t₁ :=
              decryptAndHash_opens h.keyed hopens hdecrypt
            exact ⟨huse.1, (huse.2.of_push rfl).progress hafter⟩

end Messages

section Costs

/-- A piece of a call that takes at most `b` nonces finishes while there are so many left. -/
def Costs {α : Type} (b : Nat) (x : Op α) : Prop :=
  ∀ a t, a + b < 2 ^ 64 - 1 → t.hs.symmetric.cipher.n.toNat ≤ a →
    ∃ r t', x.run t = .ok (r, t') ∧ t'.hs.symmetric.cipher.n.toNat ≤ a + b

variable {α β : Type} {b b' : Nat}

theorem Costs.bind {x : Op α} {f : α → Op β} (hx : Costs b x) (hf : ∀ a, Costs b' (f a)) :
    Costs (b + b') (x >>= f) := by
  intro a t hlt hn
  obtain ⟨r, t₁, h₁, hn₁⟩ := hx a t (by omega) hn
  cases r with
  | none => exact ⟨none, t₁, run_bind_of_none h₁, by omega⟩
  | some y =>
      obtain ⟨r', t₂, h₂, hn₂⟩ := hf y (a + b) t₁ (by omega) hn₁
      exact ⟨r', t₂, (run_bind_of_some h₁).trans h₂, by omega⟩

theorem Costs.mono {x : Op α} (h : Costs b x) (hle : b ≤ b') : Costs b' x := by
  intro a t hlt hn
  obtain ⟨r, t', hrun, hn'⟩ := h a t (by omega) hn
  exact ⟨r, t', hrun, by omega⟩

/-- What keeps the nonce costs nothing. -/
theorem Costs.free {x : Op α} (h : ∀ t, ∃ r t', x.run t = .ok (r, t') ∧
    t'.hs.symmetric.cipher.n.toNat ≤ t.hs.symmetric.cipher.n.toNat) : Costs 0 x := by
  intro a t _ hn
  obtain ⟨r, t', hrun, hle⟩ := h t
  exact ⟨r, t', hrun, Nat.le_trans hle hn⟩

theorem Costs.pure (y : α) : Costs 0 (Pure.pure y : Op α) :=
  Costs.free fun t => ⟨_, t, rfl, Nat.le_refl _⟩

/-- Recording an event first. -/
theorem Costs.push {x : Op α} {y : Traced → Op α} {ev : Traced → Event}
    (heq : ∀ t, x.run t = (y t).run (t.push (ev t))) (h : ∀ t, Costs b (y t)) : Costs b x := by
  intro a t hlt hn
  rw [heq]
  exact h t a (t.push (ev t)) hlt hn

theorem next_toNat {n : UInt64} {a : Nat} (hlt : a + 1 < 2 ^ 64 - 1) (hn : n.toNat ≤ a) :
    n ≠ maxNonce ∧ (n + 1).toNat ≤ a + 1 := by
  constructor
  · rintro rfl
    have hmax : maxNonce.toNat = 2 ^ 64 - 1 := rfl
    omega
  · rw [UInt64.toNat_add, UInt64.toNat_one]
    omega

theorem encryptAndHash_costs (p : Bytes) : Costs 1 (encryptAndHash X p) := by
  intro a t hlt hn
  obtain ⟨hmax, hnext⟩ := next_toNat hlt hn
  rw [encryptAndHash_run, SymmetricState.encryptAndHash]
  cases hk : t.hs.symmetric.cipher.hasKey with
  | false =>
      rw [CipherState.encryptWithAd_keyless hk]
      exact ⟨_, _, rfl, Nat.le_succ_of_le hn⟩
  | true =>
      rw [CipherState.encryptWithAd_keyed hk hmax]
      exact ⟨_, _, rfl, hnext⟩

theorem decryptAndHash_costs (c : Bytes) : Costs 1 (decryptAndHash X c) := by
  intro a t hlt hn
  obtain ⟨hmax, hnext⟩ := next_toNat hlt hn
  rw [decryptAndHash_run, SymmetricState.decryptAndHash]
  cases hk : t.hs.symmetric.cipher.hasKey with
  | false =>
      rw [CipherState.decryptWithAd_keyless hk]
      exact ⟨_, _, rfl, Nat.le_succ_of_le hn⟩
  | true =>
      rw [CipherState.decryptWithAd_keyed hk hmax]
      cases X.aeadDecrypt t.hs.symmetric.cipher.k (encodeNonce t.hs.symmetric.cipher.n)
          t.hs.symmetric.h.toList c with
      | none => exact ⟨_, _, rfl, Nat.le_succ_of_le hn⟩
      | some p => exact ⟨_, _, rfl, hnext⟩

theorem mixDh_costs (dir : Direction) (own : Own) (peer : Peer) :
    Costs 0 (mixDh X dir own peer) := by
  apply Costs.free
  intro t
  rw [mixDh_run]
  cases X.scalarmult (t.hs.secret own) (t.hs.peerKey peer) with
  | none => exact ⟨_, _, rfl, Nat.le_refl _⟩
  | some shared => exact ⟨_, _, rfl, Nat.zero_le _⟩

theorem readEncryptedStatic_costs (m : Bytes) (offset : Nat) :
    Costs 1 (readEncryptedStatic X m offset) := by
  intro a t hlt hn
  rw [readEncryptedStatic_run]
  split
  · exact ⟨_, _, rfl, Nat.le_succ_of_le hn⟩
  · rename_i enc _
    have hlength : ∀ plain : Bytes, Costs 0 (match Block.ofBytes? DH_PUBLIC_KEY_BYTES plain with
        | none => EarlyExit.leave
        | some rs => change (fun hs => { hs with rs := rs, rsKnown := true }) >>= fun _ =>
            pure (offset + (DH_PUBLIC_KEY_BYTES + AEAD_TAG_BYTES))) := by
      intro plain
      split
      · exact Costs.free fun t => ⟨_, t, rfl, Nat.le_refl _⟩
      · exact Costs.free fun t => ⟨_, _, rfl, Nat.le_refl _⟩
    exact (decryptAndHash_costs enc).bind hlength a (t.push _) hlt hn

/-- Only a static key takes a nonce among the tokens. -/
theorem readTokenOp_costs (m : Bytes) (role : Role) (offset : Nat) (tok : Token) :
    Costs ([tok].count .s) (readTokenOp X m role offset tok) := by
  obtain rfl | rfl | htok := tok.kinds
  · apply Costs.free
    intro t
    rw [readTokenOp, readE_run]
    split
    · exact ⟨_, _, rfl, Nat.le_refl _⟩
    · exact ⟨_, _, rfl, Nat.le_refl _⟩
  · exact readEncryptedStatic_costs m offset
  · rw [readTokenOp_dh htok]
    exact ((mixDh_costs _ _ _).bind fun _ => Costs.pure _).mono (Nat.zero_le _)

theorem writeTokenOp_costs (random : PrivateKey) (role : Role) (tok : Token) :
    Costs ([tok].count .s) (writeTokenOp X random role tok) := by
  obtain rfl | rfl | htok := tok.kinds
  · exact Costs.free fun t => ⟨_, _, writeE_run t random, Nat.le_refl _⟩
  · exact Costs.push encryptStatic_run fun t => encryptAndHash_costs _
  · rw [writeTokenOp_dh htok]
    exact ((mixDh_costs _ _ _).bind fun _ => Costs.pure _).mono (Nat.zero_le _)

theorem readTokensOp_costs (m : Bytes) (role : Role) (offset : Nat) (ts : List Token) :
    Costs (ts.count .s) (readTokensOp X m role offset ts) := by
  induction ts generalizing offset with
  | nil => exact Costs.pure _
  | cons tok ts ih =>
      rw [← List.singleton_append, List.count_append]
      exact (readTokenOp_costs m role offset tok).bind ih

theorem writeTokensOp_costs (random : PrivateKey) (role : Role) (ts : List Token) :
    Costs (ts.count .s) (writeTokensOp X random role ts) := by
  induction ts with
  | nil => exact Costs.pure _
  | cons tok ts ih =>
      rw [← List.singleton_append, List.count_append]
      apply (writeTokenOp_costs random role tok).bind
      intro b
      exact ih.bind fun _ => Costs.pure _

/-- A message has at most one static key. -/
theorem static_count (p : Pattern) (i : Nat) : (armTokens p i).count .s ≤ 1 := by
  unfold armTokens
  split <;> decide

theorem writeBody_costs (random : PrivateKey) (payload : Bytes) (p : Pattern) (i : Nat) :
    Costs 2 (writeBody X random payload p i) := by
  have hpayload : Costs 1 (encryptPayload X payload) :=
    Costs.push (fun t => encryptPayload_run t payload) fun _ => encryptAndHash_costs payload
  have hbody := (writeTokensOp_costs (X := X) random (writerOf i) (armTokens p i)).bind
    fun b => hpayload.bind fun c => Costs.pure (b ++ c)
  exact hbody.mono (Nat.succ_le_succ (static_count p i))

/-- Reading stays inside the message, so it finishes as well. -/
theorem readBody_costs (m : Bytes) (p : Pattern) (i : Nat) : Costs 2 (readBody X m p i) := by
  intro a t hlt hn
  have hone := static_count p i
  obtain ⟨r, t₁, h₁, hn₁⟩ :=
    readTokensOp_costs (X := X) m (readerOf i) 0 (armTokens p i) a t (by omega) hn
  cases r with
  | none => exact ⟨none, t₁, run_bind_of_none h₁, by omega⟩
  | some offset =>
      have hle := (readTokensOp_offset h₁).2 (Nat.zero_le _)
      have hspan : span m offset (m.length - offset) =
          some ((m.drop offset).take (m.length - offset)) :=
        span_eq_some.mpr ⟨by omega, rfl⟩
      have hrest : (readSpan m offset (m.length - offset)).run t₁ =
          .ok (some ((m.drop offset).take (m.length - offset)), t₁) := by
        rw [readSpan, run_lift, hspan]
      obtain ⟨r, t₂, h₂, hn₂⟩ := decryptAndHash_costs (X := X)
        ((m.drop offset).take (m.length - offset)) (a + 1) (t₁.atPayload .read) (by omega)
        (Nat.le_trans hn₁ (by omega))
      refine ⟨r, t₂, ?_, hn₂⟩
      rw [readBody, run_bind_of_some h₁, run_bind_of_some hrest]
      exact h₂

variable {hs hs' : HandshakeState} {l : MessageRecord}

theorem advance_costs (dir : Direction) : Costs 0 (advance dir) :=
  Costs.free fun t => ⟨_, t.counted dir, rfl, Nat.le_refl _⟩

/-- A call takes at most two nonces. -/
theorem call_costs (hs : HandshakeState) (call : MessageCall) {a : Nat} (hlt : a + 2 < 2 ^ 64 - 1)
    (hn : hs.symmetric.cipher.n.toNat ≤ a) : ∃ r t, hs.call X call = .ok (r, t) ∧
      t.hs.symmetric.cipher.n.toNat ≤ a + 2 := by
  rcases Bool.eq_false_or_eq_true hs.isComplete with hdone | hopen
  · cases call with
    | write random payload =>
        exact ⟨_, _, writeMessage_complete hdone random payload, Nat.le_trans hn (by omega)⟩
    | read m => exact ⟨_, _, readMessage_complete hdone m, Nat.le_trans hn (by omega)⟩
  · cases call with
    | write random payload =>
        rw [HandshakeState.call, writeMessage_open hopen]
        exact (writeBody_costs random payload _ _).bind
          (fun out => (advance_costs .written).bind fun _ => Costs.pure out) a ⟨hs, []⟩ hlt hn
    | read m =>
        rw [HandshakeState.call, readMessage_open hopen]
        exact (readBody_costs m _ _).bind
          (fun out => (advance_costs .read).bind fun _ => Costs.pure out) a ⟨hs, []⟩ hlt hn

end Costs

section Runs

variable {hs₀ hs hs' : HandshakeState} {tr : List MessageRecord} {l : MessageRecord}

/-- What came before a call may as well be part of its record. -/
theorem Progress.rebase {past : List Event} {t : Traced} (h : Progress X past ⟨hs, []⟩ t) :
    Progress X [] ⟨hs, past⟩ ⟨t.hs, past ++ t.log⟩ := by
  obtain ⟨horder, hkey⟩ := h
  rw [Traced.stamp, List.append_nil] at horder
  rw [List.append_nil] at hkey
  exact ⟨horder, hkey⟩

/-- The stamp does not go back in a run either. -/
theorem progress_of_run (run : Run (MessageStep X) hs tr hs') (log : List Event) :
    Progress X [] ⟨hs, log⟩ ⟨hs', log ++ computed tr⟩ := by
  induction run generalizing log with
  | nil s =>
      have hlog : (⟨s, log ++ computed []⟩ : Traced).log = (⟨s, log⟩ : Traced).log ++ [] := rfl
      exact Progress.of_cipher hlog rfl rfl
  | @cons s s' s'' l tr hstep _ ih =>
      have hcall := (hstep.progress log).rebase
      have hrest := ih (log ++ l.after.log)
      rw [hstep.2.2, List.append_assoc] at hrest
      exact hcall.trans hrest

/-- A use in one call comes before a use in a later call. -/
theorem usedBefore_of_run {pre mid post : List MessageRecord} {l' : MessageRecord} {f f' : Field}
    {t t' : Traced} (run : Run (MessageStep X) hs₀ (pre ++ l :: (mid ++ l' :: post)) hs)
    (h : FieldUse X l f t) (h' : FieldUse X l' f' t') :
    UsedBefore X (computed pre) t (computed (pre ++ l :: mid)) t' := by
  obtain ⟨s₁, _, hrest⟩ := run.split
  obtain ⟨s₂, hstep, hrest⟩ := hrest.uncons
  obtain ⟨s₃, hmid, hrest⟩ := hrest.split
  obtain ⟨s₄, hstep', _⟩ := hrest.uncons
  have hlog : computed (pre ++ l :: mid) = computed pre ++ l.after.log ++ computed mid := by
    simp [computed]
  have huse := (h.after hstep (computed pre)).2
  have hbetween := progress_of_run hmid (computed pre ++ l.after.log)
  have hinside := (h'.before (computed (pre ++ l :: mid))).rebase
  rw [hstep.2.2] at hbetween
  rw [hlog, hstep'.1] at hinside
  have hcall : UsedBefore X [] ⟨t.hs, computed pre ++ t.log⟩ []
      ⟨l.after.hs, computed pre ++ l.after.log⟩ := ⟨huse.earlier, huse.key⟩
  have hend := (hcall.progress hbetween).progress hinside
  rw [hlog]
  exact ⟨hend.earlier, hend.key⟩

/-- A written message has sealed its fields. -/
theorem Keying.seals {past : List Event} (h : Keying X past hs) {random : PrivateKey}
    {payload m : Bytes} {t : Traced} (hprotected : ¬ (hs.pattern = .xx ∧ hs.step = 0))
    (hwrite : hs.writeMessage X random payload = .ok (some m, t)) (f : Field)
    (hpresent : hasField hs.pattern hs.step f = true) :
    ∃ t', FieldUse X ⟨hs, .write random payload, some m, t⟩ f t' := by
  obtain ⟨hopen, out, t₁, hpoint, _⟩ := writeMessage_payload hwrite
  cases f with
  | payload =>
      have hkey := (h.writePoint (payload_shared (step_lt hopen) hprotected) hpoint).1
      exact ⟨t₁, hopen, hpresent, hkey, out, hpoint⟩
  | static =>
      obtain ⟨post, hts⟩ := armTokens_static hpresent
      obtain ⟨b, t₂, hbefore, _⟩ := writeTokens_static hts hpoint
      have hkey := (h.writePoint (static_shared hts) hbefore).1
      exact ⟨t₂, hopen, hpresent, hkey, b, hbefore⟩

/-- An accepted one has had them opened. -/
theorem Keying.opens {past : List Event} (h : Keying X past hs) {m p : Bytes} {t : Traced}
    (hprotected : ¬ (hs.pattern = .xx ∧ hs.step = 0))
    (hread : hs.readMessage X m = .ok (some p, t)) (f : Field)
    (hpresent : hasField hs.pattern hs.step f = true) :
    ∃ t', FieldUse X ⟨hs, .read m, some p, t⟩ f t' := by
  cases f with
  | payload =>
      obtain ⟨hopen, offset, t₁, symmetric, hpoint, _, hdec, _⟩ := readMessage_payload hread
      have hkey := (h.readPoint (payload_shared (step_lt hopen) hprotected) hpoint).1
      exact ⟨t₁, hopen, hpresent, hkey, offset, m.drop offset, p, hpoint, rfl,
        SymmetricState.decryptAndHash_opens hdec⟩
  | static =>
      have hopen := (readMessage_payload hread).1
      obtain ⟨_, _, hnot⟩ | ⟨⟨pre, post, offset, t₁, enc, hts, hpoint, hspan, hkey, hopens⟩, _⟩ :=
        readMessage_rs hread
      · exact absurd (List.contains_iff_mem.mp hpresent) (hnot rfl)
      · rw [← tokensBefore_static hts] at hpoint
        exact ⟨t₁, hopen, hpresent, hkey, offset, enc, _, hpoint, hspan, hopens⟩

/-- Every call takes at most two nonces, whatever key they are of. -/
theorem counted_of_run (run : Run (MessageStep X) hs₀ tr hs)
    (hstart : hs₀.symmetric.cipher.n.toNat = 0) :
    hs.symmetric.cipher.n.toNat ≤ 2 * tr.length := by
  let J : List MessageRecord → HandshakeState → Prop := fun tr hs =>
    hs.symmetric.cipher.n.toNat ≤ 2 * tr.length
  have hend : J ([] ++ tr) hs := by
    apply run.history
    · intro pre s l s' hpast hstep
      have hlen : (pre ++ [l]).length = pre.length + 1 := List.length_append
      have hsmall := s'.symmetric.cipher.n.toNat_lt
      by_cases hlt : 2 * pre.length + 2 < 2 ^ 64 - 1
      · obtain ⟨r, t, hcall, hn⟩ := call_costs (X := X) s l.call hlt hpast
        obtain ⟨_, hrecord, rfl⟩ := hstep
        obtain ⟨_, rfl⟩ := Prod.mk.inj (Except.ok.inj (hrecord.symm.trans hcall))
        change l.after.hs.symmetric.cipher.n.toNat ≤ 2 * (pre ++ [l]).length
        omega
      · change s'.symmetric.cipher.n.toNat ≤ 2 * (pre ++ [l]).length
        omega
    · exact Nat.le_of_eq hstart
  exact hend

/-- No nonce of a handshake is used twice under one key, by whatever calls, and the process is
not ended. -/
theorem handshake_nonces {p : Pattern} {initiator : Bool} {keys : Keypair}
    {rs : Option PublicKey}
    (run : Run (MessageStep X) (HandshakeState.make X p initiator keys rs) tr hs) :
    HandshakeNonces X tr hs := by
  have hstart : (HandshakeState.make X p initiator keys rs).symmetric.cipher.n.toNat = 0 := by
    cases p <;> cases initiator <;> cases rs <;> rfl
  have hcounted := counted_of_run run hstart
  constructor
  · intro pre l post t t' _ h h'
    exact h.payload_later h' (computed pre)
  · intro pre l mid l' post f f' t t' htr h h'
    rw [htr] at run
    exact usedBefore_of_run run h h'
  · intro l hl hok hprotected f hpresent
    obtain ⟨pre, post, rfl⟩ := List.append_of_mem hl
    obtain ⟨s, hpast, hrest⟩ := run.split
    obtain ⟨s', ⟨rfl, hcall, _⟩, _⟩ := hrest.uncons
    have hkeying := keying_of_run hpast
    obtain ⟨before, call, result, after⟩ := l
    obtain ⟨out, rfl⟩ := Option.isSome_iff_exists.mp hok
    cases call with
    | write random payload => exact hkeying.seals hprotected hcall f hpresent
    | read m => exact hkeying.opens hprotected hcall f hpresent
  · intro l hl f t h
    obtain ⟨pre, post, rfl⟩ := List.append_of_mem hl
    obtain ⟨s, _, hrest⟩ := run.split
    obtain ⟨s', hstep, _⟩ := hrest.uncons
    exact (h.after hstep []).1
  · exact hcounted
  · intro hlt call
    obtain ⟨r, t, hcall, _⟩ := call_costs (X := X) hs call (by omega) hcounted
    exact ⟨r, t, hcall⟩

/-- The calls of an IK initiator. -/
theorem handshake_nonces_small : ∃ tr hs, tr.length = 2 ∧ hs.isComplete = true ∧
    HandshakeNonces Miniature.external tr hs := by
  obtain ⟨tr, hs, run, hend⟩ := exists_message_run (X := Miniature.external)
    (smallParties.start Miniature.external .ik .initiator) (smallCalls .initiator)
    (fun tr hs => decide (tr.length = 2) && hs.isComplete) (by decide +kernel)
  rw [Bool.and_eq_true, decide_eq_true_eq] at hend
  exact ⟨tr, hs, hend.1, hend.2, handshake_nonces run⟩

end Runs

end SecurityNoise
