import SecurityNoise.Foundation.Runs
import SecurityNoise.CipherKeys

/-!
# Sequences of message calls

The calls of `write_message` and `read_message` on one handshake state, in any order, and
the points a call passes on its way: the states between its tokens. What a message carries
is stated at these points, with the symmetric state the code has there.

## Implementation notes

A point is a finished run of the first tokens. It exists whether or not the call that passes
it finishes, so what is said of points covers calls that fail later.
-/

namespace SecurityNoise

open Framework (Role Token)
open EarlyExit

section Model

variable (X : External)

/-- A call on a handshake state; a write gets the random bytes it would draw. -/
inductive MessageCall
  | write (random : PrivateKey) (payload : Bytes)
  | read (message : Bytes)
  deriving DecidableEq

def HandshakeState.call (hs : HandshakeState) : MessageCall → Except Fatal (Option Bytes × Traced)
  | .write random payload => hs.writeMessage X random payload
  | .read message => hs.readMessage X message

/-- The bytes a call sends or takes in, when it returns `result`. -/
def MessageCall.wire (result : Option Bytes) : MessageCall → Bytes
  | .write _ _ => result.getD []
  | .read message => message

/-- A call that returned: the state before it, its result, and the state and record it left. -/
structure MessageRecord where
  before : HandshakeState
  call : MessageCall
  result : Option Bytes
  after : Traced
  deriving DecidableEq

def MessageRecord.wire (l : MessageRecord) : Bytes := l.call.wire l.result

def MessageStep (hs : HandshakeState) (l : MessageRecord) (hs' : HandshakeState) : Prop :=
  l.before = hs ∧ hs.call X l.call = .ok (l.result, l.after) ∧ hs' = l.after.hs

/-- Everything a sequence of calls computed. -/
def computed (tr : List MessageRecord) : List Event := tr.flatMap fun l => l.after.log

/-- A `write_message` on `hs` has run the tokens `pre`, written `out`, and is at `t`. -/
def WritePoint (hs : HandshakeState) (random : PrivateKey) (pre : List Token) (out : Bytes)
    (t : Traced) : Prop :=
  (writeTokensOp X random (writerOf hs.step) pre).run ⟨hs, []⟩ = .ok (some out, t)

/-- A `read_message` of `m` on `hs` has run the tokens `pre`, come to `offset`, and is at
`t`. -/
def ReadPoint (hs : HandshakeState) (m : Bytes) (pre : List Token) (offset : Nat)
    (t : Traced) : Prop :=
  (readTokensOp X m (readerOf hs.step) 0 pre).run ⟨hs, []⟩ = .ok (some offset, t)

namespace SymmetricState

/-- What `encrypt_and_hash` returns: the bytes themselves while there is no key. -/
def sealed (s : SymmetricState) (p : Bytes) : Bytes :=
  if s.cipher.hasKey then X.aeadEncrypt s.cipher.k (encodeNonce s.cipher.n) s.h.toList p else p

/-- What `decrypt_and_hash` accepts. -/
def Opens (s : SymmetricState) (c p : Bytes) : Prop :=
  if s.cipher.hasKey then X.aeadDecrypt s.cipher.k (encodeNonce s.cipher.n) s.h.toList c = some p
  else c = p

variable {X}

theorem encryptAndHash_sealed {s s' : SymmetricState} {p c : Bytes}
    (h : s.encryptAndHash X p = .ok (c, s')) : c = s.sealed X p := by
  obtain ⟨cipher, hc, _⟩ := encryptAndHash_eq_ok h
  obtain ⟨hk, rfl, _⟩ | ⟨hk, _, rfl, _⟩ := CipherState.encryptWithAd_eq_ok hc
  · simp [sealed, hk]
  · simp [sealed, hk]

theorem decryptAndHash_opens {s s' : SymmetricState} {p c : Bytes}
    (h : s.decryptAndHash X c = .ok (some p, s')) : s.Opens X c p := by
  obtain ⟨cipher, hc, _⟩ := decryptAndHash_some h
  obtain ⟨hk, hp, _⟩ | ⟨_, hn, _⟩ | ⟨hk, _, _, q, hq, hopen⟩ :=
    CipherState.decryptWithAd_eq_ok hc
  · obtain rfl := Option.some.inj hp
    simp [Opens, hk]
  · cases hn
  · obtain rfl := Option.some.inj hq
    simp [Opens, hk, hopen]

end SymmetricState

end Model

variable {X : External}

section Split

variable {t t' : Traced} {role : Role}

theorem readTokensOp_append (m : Bytes) (role : Role) (offset : Nat) (ts ts' : List Token) :
    readTokensOp X m role offset (ts ++ ts') =
      readTokensOp X m role offset ts >>= fun o => readTokensOp X m role o ts' := by
  induction ts generalizing offset with
  | nil => simp only [List.nil_append, readTokensOp, pure_bind]
  | cons tok ts ih => simp only [List.cons_append, readTokensOp, bind_assoc, ih]

theorem writeTokensOp_append (random : PrivateKey) (role : Role) (ts ts' : List Token) :
    writeTokensOp X random role (ts ++ ts') = (do
      let b ← writeTokensOp X random role ts
      let b' ← writeTokensOp X random role ts'
      pure (b ++ b')) := by
  induction ts with
  | nil => simp only [List.nil_append, writeTokensOp, pure_bind, bind_pure]
  | cons tok ts ih =>
      simp only [List.cons_append, writeTokensOp, bind_assoc, pure_bind, ih, List.append_assoc]

/-- Tokens that all ran, ran in two parts. -/
theorem readTokensOp_split {m : Bytes} {offset offset' : Nat} {ts ts' : List Token}
    (h : (readTokensOp X m role offset (ts ++ ts')).run t = .ok (some offset', t')) :
    ∃ o t₁, (readTokensOp X m role offset ts).run t = .ok (some o, t₁) ∧
      (readTokensOp X m role o ts').run t₁ = .ok (some offset', t') := by
  rw [readTokensOp_append] at h
  obtain ⟨o, t₁, h₁, h₂⟩ | ⟨hn, _⟩ := run_bind_eq_ok h
  · exact ⟨o, t₁, h₁, h₂⟩
  · cases hn

theorem writeTokensOp_split {random : PrivateKey} {out : Bytes} {ts ts' : List Token}
    (h : (writeTokensOp X random role (ts ++ ts')).run t = .ok (some out, t')) :
    ∃ b b' t₁, (writeTokensOp X random role ts).run t = .ok (some b, t₁) ∧
      (writeTokensOp X random role ts').run t₁ = .ok (some b', t') ∧ out = b ++ b' := by
  rw [writeTokensOp_append] at h
  obtain ⟨b, t₁, h₁, h₂⟩ | ⟨hn, _⟩ := run_bind_eq_ok h
  · obtain ⟨b', t₂, h₃, h₄⟩ | ⟨hn, _⟩ := run_bind_eq_ok h₂
    · obtain ⟨ho, rfl⟩ := Prod.mk.inj (Except.ok.inj h₄)
      exact ⟨b, b', t₁, h₁, h₃, (Option.some.inj ho).symm⟩
    · cases hn
  · cases hn

/-- The first token of a list that ran, and the rest. -/
theorem readTokensOp_cons {m : Bytes} {offset offset' : Nat} {tok : Token} {ts : List Token}
    (h : (readTokensOp X m role offset (tok :: ts)).run t = .ok (some offset', t')) :
    ∃ o t₁, (readTokenOp X m role offset tok).run t = .ok (some o, t₁) ∧
      (readTokensOp X m role o ts).run t₁ = .ok (some offset', t') := by
  rw [readTokensOp] at h
  obtain ⟨o, t₁, h₁, h₂⟩ | ⟨hn, _⟩ := run_bind_eq_ok h
  · exact ⟨o, t₁, h₁, h₂⟩
  · cases hn

end Split

section Statics

variable {t t' : Traced} {r : Option Nat}

/-- The state after an encrypted static key was accepted. -/
def Traced.learning (t : Traced) (symmetric : SymmetricState) (enc : Bytes) (rs : PublicKey) :
    Traced :=
  { t.hashing symmetric enc with
    hs := { t.hs with symmetric := symmetric, rs := rs, rsKnown := true } }

/-- What reading an encrypted static key did: it found too few bytes, or bytes that do not
open, and left the state alone; or it passed bytes of the wrong length through a cipher
without a key; or it opened the key. -/
theorem readEncryptedStatic_cases {m : Bytes} {offset : Nat}
    (h : (readEncryptedStatic X m offset).run t = .ok (r, t')) :
    (r = none ∧ t'.hs = t.hs) ∨
      (r = none ∧ t.hs.symmetric.cipher.hasKey = false ∧ ∃ symmetric,
        t'.hs = { t.hs with symmetric := symmetric }) ∨
      (∃ enc symmetric rs, span m offset (DH_PUBLIC_KEY_BYTES + AEAD_TAG_BYTES) = some enc ∧
        r = some (offset + (DH_PUBLIC_KEY_BYTES + AEAD_TAG_BYTES)) ∧
        t.hs.symmetric.cipher.hasKey = true ∧
        t.hs.symmetric.decryptAndHash X enc = .ok (some rs.toList, symmetric) ∧
        t' = (t.push (.static .read t.hs.symmetric.cipher.hasKey)).learning symmetric enc rs) := by
  rw [readEncryptedStatic_run] at h
  split at h
  · obtain ⟨rfl, rfl⟩ := Prod.mk.inj (Except.ok.inj h)
    exact Or.inl ⟨rfl, rfl⟩
  · rename_i enc henc
    obtain ⟨plain, t₁, h₁, h₂⟩ | ⟨rfl, h₁⟩ := run_bind_eq_ok h
    · obtain ⟨hn, _⟩ | ⟨p, symmetric, ho, hp, rfl⟩ := decryptAndHash_cases h₁
      · cases hn
      · obtain rfl := Option.some.inj ho
        split at h₂
        · rename_i hnone
          obtain ⟨rfl, rfl⟩ := Prod.mk.inj (Except.ok.inj h₂)
          refine Or.inr (Or.inl ⟨rfl, ?_, symmetric, rfl⟩)
          -- with a key, 48 bytes open to 32
          rw [Block.ofBytes?_eq_none] at hnone
          obtain ⟨cipher, hc, _⟩ := SymmetricState.decryptAndHash_some hp
          obtain ⟨hk, _⟩ | ⟨_, hn, _⟩ | ⟨_, _, _, q, hq, hopen⟩ :=
            CipherState.decryptWithAd_eq_ok hc
          · exact hk
          · cases hn
          · obtain rfl := Option.some.inj hq
            have hlen := X.aeadDecrypt_length _ _ _ _ _ hopen
            rw [span_length henc] at hlen
            exact absurd (by omega) hnone
        · rename_i rs hrs
          rw [Block.ofBytes?_eq_some] at hrs
          obtain ⟨rfl, rfl⟩ := Prod.mk.inj (Except.ok.inj h₂)
          have hp' : t.hs.symmetric.decryptAndHash X enc = .ok (some rs.toList, symmetric) := by
            rw [hrs]
            exact hp
          refine Or.inr (Or.inr ⟨enc, symmetric, rs, henc, rfl, ?_, hp', rfl⟩)
          -- without a key, 48 bytes stay 48
          obtain ⟨cipher, hc, _⟩ := SymmetricState.decryptAndHash_some hp'
          obtain ⟨hk, hq, _⟩ | ⟨hk, _⟩ | ⟨hk, _⟩ := CipherState.decryptWithAd_eq_ok hc
          · have hlen := span_length henc
            rw [← Option.some.inj hq, Block.length_toList] at hlen
            cases hlen
          · exact hk
          · exact hk
    · obtain ⟨_, rfl⟩ | ⟨_, _, hn, _⟩ := decryptAndHash_cases h₁
      · exact Or.inl ⟨rfl, rfl⟩
      · cases hn

end Statics

section Pieces

variable {t t' : Traced}

/-- Before its payload is handled. -/
def Traced.atPayload (t : Traced) (dir : Direction) : Traced :=
  t.push (.payload dir t.hs.symmetric.cipher.hasKey)

/-- The body of `read_message` left among its tokens, or came to the rest of the message and
tried to open it. -/
theorem readBody_cases {m : Bytes} {p : Pattern} {i : Nat} {r : Option Bytes}
    (h : (readBody X m p i).run t = .ok (r, t')) :
    (r = none ∧
        (readTokensOp X m (readerOf i) 0 (armTokens p i)).run t = .ok (none, t')) ∨
      ∃ offset t₁,
        (readTokensOp X m (readerOf i) 0 (armTokens p i)).run t = .ok (some offset, t₁) ∧
        offset ≤ m.length ∧
        (decryptAndHash X (m.drop offset)).run (t₁.atPayload .read) = .ok (r, t') := by
  obtain ⟨offset, t₁, h₁, h₂⟩ | ⟨rfl, h₁⟩ := run_bind_eq_ok h
  · have hle := (readTokensOp_offset h₁).2 (Nat.zero_le _)
    obtain ⟨rest, t₂, h₃, h₄⟩ | ⟨rfl, h₃⟩ := run_bind_eq_ok h₂
    · obtain ⟨b, hspan, hrest, rfl⟩ := readSpan_eq_ok h₃
      obtain rfl := Option.some.inj hrest
      obtain ⟨_, hdrop⟩ := span_eq_some.mp hspan
      rw [List.take_of_length_le (by rw [List.length_drop])] at hdrop
      rw [← hdrop] at h₄
      exact Or.inr ⟨offset, t₂, h₁, hle, h₄⟩
    · obtain ⟨_, _, hnone, _⟩ := readSpan_eq_ok h₃
      cases hnone
  · exact Or.inl ⟨rfl, h₁⟩

/-- The body of `write_message` left among its tokens, or sealed the payload after them. -/
theorem writeBody_cases {random : PrivateKey} {payload : Bytes} {p : Pattern} {i : Nat}
    {r : Option Bytes} (h : (writeBody X random payload p i).run t = .ok (r, t')) :
    (r = none ∧
        (writeTokensOp X random (writerOf i) (armTokens p i)).run t = .ok (none, t')) ∨
      ∃ out t₁ c symmetric,
        (writeTokensOp X random (writerOf i) (armTokens p i)).run t = .ok (some out, t₁) ∧
        r = some (out ++ c) ∧ t₁.hs.symmetric.encryptAndHash X payload = .ok (c, symmetric) ∧
        t' = (t₁.atPayload .written).hashing symmetric c := by
  obtain ⟨out, t₁, h₁, h₂⟩ | ⟨rfl, h₁⟩ := run_bind_eq_ok h
  · rw [run_bind, encryptPayload_run] at h₂
    obtain ⟨c, t₂, h₃, h₄⟩ | ⟨_, h₃⟩ := run_bind_eq_ok h₂
    · obtain ⟨c', symmetric, hc, hseal, rfl⟩ := encryptAndHash_cases h₃
      obtain rfl := Option.some.inj hc
      obtain ⟨rfl, rfl⟩ := Prod.mk.inj (Except.ok.inj h₄)
      exact Or.inr ⟨out, t₁, c, symmetric, h₁, rfl, hseal, rfl⟩
    · obtain ⟨_, _, hnone, _⟩ := encryptAndHash_cases h₃
      cases hnone
  · exact Or.inl ⟨rfl, h₁⟩

end Pieces

section Frames

variable {t t' t'' : Traced}

/-- Reading tokens replaces the peer's ephemeral key at most at an `e` and its static key at
most at an `s`. -/
structure RemoteFrame (ts : List Token) (t t' : Traced) : Prop where
  re : Token.e ∉ ts → t'.hs.re = t.hs.re
  rs : Token.s ∉ ts → t'.hs.rs = t.hs.rs ∧ t'.hs.rsKnown = t.hs.rsKnown

theorem RemoteFrame.trans {ts ts' : List Token} (h : RemoteFrame ts t t')
    (h' : RemoteFrame ts' t' t'') : RemoteFrame (ts ++ ts') t t'' where
  re hnot := by
    rw [List.mem_append, not_or] at hnot
    exact (h'.re hnot.2).trans (h.re hnot.1)
  rs hnot := by
    rw [List.mem_append, not_or] at hnot
    obtain ⟨h₁, h₂⟩ := h.rs hnot.1
    obtain ⟨h₁', h₂'⟩ := h'.rs hnot.2
    exact ⟨h₁'.trans h₁, h₂'.trans h₂⟩

theorem readTokenOp_remote (m : Bytes) (role : Role) (offset : Nat) (tok : Token) :
    Within (RemoteFrame [tok]) (readTokenOp X m role offset tok) := by
  intro t r t' h
  obtain rfl | rfl | htok := tok.kinds
  · obtain ⟨_, rfl⟩ | ⟨_, _, _, rfl⟩ := readE_cases h
    · exact ⟨fun _ => rfl, fun _ => ⟨rfl, rfl⟩⟩
    · exact ⟨fun hnot => absurd List.mem_cons_self hnot, fun _ => ⟨rfl, rfl⟩⟩
  · refine ⟨fun _ => ?_, fun hnot => absurd List.mem_cons_self hnot⟩
    obtain ⟨_, heq⟩ | ⟨_, _, _, heq⟩ | ⟨_, _, _, _, _, _, _, rfl⟩ :=
      readEncryptedStatic_cases h
    · rw [heq]
    · rw [heq]
    · rfl
  · have hmixed : ∀ {o}, (mixDhOp X .read role tok).run t = .ok (o, t') →
        RemoteFrame [tok] t t' := by
      intro o h
      obtain ⟨_, _, rfl⟩ | ⟨_, _, _, rfl⟩ := mixDh_cases h
      · exact ⟨fun _ => rfl, fun _ => ⟨rfl, rfl⟩⟩
      · exact ⟨fun _ => rfl, fun _ => ⟨rfl, rfl⟩⟩
    rw [readTokenOp_dh htok] at h
    obtain ⟨_, h⟩ | ⟨_, h⟩ := dhToken_cases h
    · exact hmixed h
    · exact hmixed h

theorem readTokensOp_remote (m : Bytes) (role : Role) (offset : Nat) (ts : List Token) :
    Within (RemoteFrame ts) (readTokensOp X m role offset ts) := by
  induction ts generalizing offset with
  | nil =>
      rintro t r t' ⟨⟩
      exact ⟨fun _ => rfl, fun _ => ⟨rfl, rfl⟩⟩
  | cons tok ts ih =>
      intro t r t'' h
      obtain ⟨o, t₁, h₁, h₂⟩ | ⟨_, h₁⟩ := run_bind_eq_ok h
      · exact (readTokenOp_remote m role offset tok t _ t₁ h₁).trans (ih o t₁ r t'' h₂)
      · have hfirst := readTokenOp_remote m role offset tok t _ t'' h₁
        refine ⟨fun hnot => hfirst.re ?_, fun hnot => hfirst.rs ?_⟩
        · exact fun hmem => hnot (List.mem_append_left ts hmem)
        · exact fun hmem => hnot (List.mem_append_left ts hmem)

/-- Writing tokens keeps the local static key. -/
theorem writeTokensOp_sPk (random : PrivateKey) (role : Role) (ts : List Token) :
    Within (fun t t' => t'.hs.sPk = t.hs.sPk) (writeTokensOp X random role ts) := by
  induction ts with
  | nil =>
      rintro t r t' ⟨⟩
      rfl
  | cons tok ts ih =>
      have htrans : ∀ t t' t'' : Traced, t'.hs.sPk = t.hs.sPk → t''.hs.sPk = t'.hs.sPk →
          t''.hs.sPk = t.hs.sPk := fun _ _ _ h h' => h'.trans h
      apply Within.bind htrans
      · by_cases he : tok = .e
        · subst he
          rintro t r t' ⟨⟩
          rfl
        · exact (writeTokenOp_piece random role he).mono fun _ _ h => h.sPk
      · intro b
        refine Within.bind htrans ih fun bs => ?_
        rintro t r t' ⟨⟩
        rfl

end Frames

section Layout

variable {hs : HandshakeState} {t t' : Traced}

/-- Around an encrypted static key a message has at most an ephemeral key, and DHs; only the
third XX message has no DH before it. -/
theorem armTokens_split {p : Pattern} {i : Nat} {pre post : List Token}
    (h : armTokens p i = pre ++ .s :: post) :
    (∃ dhs, pre = (if draws p i then [.e] else []) ++ dhs ∧ dhs.all Token.isDh = true) ∧
      post.all Token.isDh = true ∧ Token.s ∉ pre ∧
        (pre.any Token.isDh = true ∨ (p = .xx ∧ i = 2)) := by
  unfold draws
  unfold armTokens at *
  split at h <;> simp [List.cons_eq_append_iff] at h <;> simp [h, Token.isDh]

/-- A message without a static key has at most an ephemeral key, and DHs. -/
theorem armTokens_plain {p : Pattern} {i : Nat} (h : Token.s ∉ armTokens p i) :
    ∃ dhs, armTokens p i = (if draws p i then [.e] else []) ++ dhs ∧
      dhs.all Token.isDh = true := by
  unfold draws
  unfold armTokens at *
  split at h <;> simp [Token.isDh] at *

theorem not_mem_of_dh {ts : List Token} {tok : Token} (h : ts.all Token.isDh = true)
    (htok : tok.isDh = false) : tok ∉ ts := by
  intro hmem
  rw [List.all_eq_true.mp h tok hmem] at htok
  cases htok

theorem wireSize_dh {ts : List Token} (h : ts.all Token.isDh = true) :
    (ts.map wireSize).sum = 0 := by
  rw [List.sum_eq_zero_iff_forall_eq_nat]
  intro n hn
  obtain ⟨tok, hmem, rfl⟩ := List.mem_map.mp hn
  exact wireSize_of_dh (List.all_eq_true.mp h tok hmem)

/-- DHs write nothing. -/
theorem writeTokensOp_dh {random : PrivateKey} {role : Role} {ts : List Token} {out : Bytes}
    (hts : ts.all Token.isDh = true)
    (h : (writeTokensOp X random role ts).run t = .ok (some out, t')) : out = [] := by
  induction ts generalizing t out with
  | nil =>
      obtain ⟨ho, _⟩ := Prod.mk.inj (Except.ok.inj h)
      exact (Option.some.inj ho).symm
  | cons tok ts ih =>
      rw [List.all_cons, Bool.and_eq_true] at hts
      change (writeTokensOp X random role ([tok] ++ ts)).run t = _ at h
      obtain ⟨b, b', t₁, h₁, h₂, rfl⟩ := writeTokensOp_split h
      rw [ih hts.2 h₂, List.append_nil]
      obtain ⟨b₁, t₂, h₃, h₄⟩ | ⟨hn, _⟩ := run_bind_eq_ok h₁
      · obtain ⟨hb, _⟩ := Prod.mk.inj (Except.ok.inj h₄)
        rw [← Option.some.inj hb, List.append_nil]
        cases tok with
        | e => cases hts.1
        | s => cases hts.1
        | _ =>
            obtain ⟨_, t₃, _, h₅⟩ | ⟨hn, _⟩ := run_bind_eq_ok h₃
            · obtain ⟨hb₁, _⟩ := Prod.mk.inj (Except.ok.inj h₅)
              exact (Option.some.inj hb₁).symm
            · cases hn
      · cases hn

/-- The part of a message before its static key is the ephemeral key, if it has one. -/
theorem writeTokensOp_head {random : PrivateKey} {role : Role} {dhs : List Token} {b : Bool}
    {out : Bytes} (hdhs : dhs.all Token.isDh = true)
    (h : (writeTokensOp X random role ((if b then [.e] else []) ++ dhs)).run t =
      .ok (some out, t')) :
    out = if b then (generateKeypair X random).pk.toList else [] := by
  cases b with
  | false => exact writeTokensOp_dh hdhs h
  | true =>
      obtain ⟨b, b', t₁, h₁, h₂, rfl⟩ := writeTokensOp_split h
      rw [writeTokensOp_dh hdhs h₂, List.append_nil]
      have hrun : (writeTokensOp X random role [.e]).run t =
          .ok (some ((generateKeypair X random).pk.toList ++ []), t.drawing X random) := rfl
      simp only [if_true] at h₁ ⊢
      rw [hrun] at h₁
      obtain ⟨hb, _⟩ := Prod.mk.inj (Except.ok.inj h₁)
      rw [← Option.some.inj hb, List.append_nil]

theorem readTokensOp_head {m : Bytes} {role : Role} {dhs : List Token} {b : Bool}
    {offset : Nat} (hdhs : dhs.all Token.isDh = true)
    (h : (readTokensOp X m role 0 ((if b then [.e] else []) ++ dhs)).run t =
      .ok (some offset, t')) :
    offset ≤ m.length ∧ m.take offset = if b then t'.hs.re.toList else [] := by
  obtain ⟨hoff, hle⟩ := readTokensOp_offset h
  refine ⟨hle (Nat.zero_le _), ?_⟩
  obtain ⟨o, t₁, h₁, h₂⟩ := readTokensOp_split h
  have hre := (readTokensOp_remote m role o dhs t₁ _ t' h₂).re (not_mem_of_dh hdhs rfl)
  rw [List.map_append, List.sum_append, wireSize_dh hdhs, Nat.add_zero, Nat.zero_add] at hoff
  cases b with
  | false =>
      obtain rfl : offset = 0 := hoff
      rfl
  | true =>
      obtain rfl : offset = DH_PUBLIC_KEY_BYTES := hoff
      simp only [if_true] at h₁ ⊢
      obtain ⟨o', t₂, h₃, h₄⟩ := readTokensOp_cons h₁
      obtain ⟨_, rfl⟩ := Prod.mk.inj (Except.ok.inj h₄)
      obtain ⟨hn, _⟩ | ⟨re, hspan, _, rfl⟩ := readE_cases h₃
      · cases hn
      · rw [hre]
        exact (span_eq_some.mp (spanBlock_eq_some.mp hspan)).2

/-- An accepted message came to its payload and opened it. -/
theorem readMessage_payload {m p : Bytes} (h : hs.readMessage X m = .ok (some p, t)) :
    hs.isComplete = false ∧ ∃ offset t₁ symmetric,
      ReadPoint X hs m (armTokens hs.pattern hs.step) offset t₁ ∧ offset ≤ m.length ∧
      t₁.hs.symmetric.decryptAndHash X (m.drop offset) = .ok (some p, symmetric) ∧
      t = ((t₁.atPayload .read).hashing symmetric (m.drop offset)).counted .read := by
  obtain ⟨_, hn, _⟩ | ⟨hc, t₂, hrun, _, rfl⟩ := readMessage_eq_ok h
  · cases hn
  · refine ⟨hc, ?_⟩
    obtain ⟨hn, _⟩ | ⟨offset, t₁, htokens, hle, hopen⟩ := readBody_cases hrun
    · cases hn
    · obtain ⟨hn, _⟩ | ⟨q, symmetric, hq, hdec, rfl⟩ := decryptAndHash_cases hopen
      · cases hn
      · obtain rfl := Option.some.inj hq
        exact ⟨offset, t₁, symmetric, htokens, hle, hdec, rfl⟩

/-- Tokens with a static key left the peer's alone and stopped, or opened the one they
leave. -/
theorem readTokensOp_static {m : Bytes} {role : Role} {pre post : List Token}
    {r : Option Nat} (hpre : Token.s ∉ pre) (hpost : Token.s ∉ post)
    (h : (readTokensOp X m role 0 (pre ++ .s :: post)).run t = .ok (r, t')) :
    (r = none ∧ t'.hs.rs = t.hs.rs ∧ t'.hs.rsKnown = t.hs.rsKnown) ∨
      ∃ offset t₁ enc symmetric,
        (readTokensOp X m role 0 pre).run t = .ok (some offset, t₁) ∧
        span m offset (DH_PUBLIC_KEY_BYTES + AEAD_TAG_BYTES) = some enc ∧
        t₁.hs.symmetric.cipher.hasKey = true ∧
        t₁.hs.symmetric.decryptAndHash X enc = .ok (some t'.hs.rs.toList, symmetric) ∧
        t'.hs.rsKnown = true := by
  rw [readTokensOp_append] at h
  obtain ⟨o, t₁, h₁, h₂⟩ | ⟨rfl, h₁⟩ := run_bind_eq_ok h
  · obtain ⟨hrs₁, hknown₁⟩ := (readTokensOp_remote m role 0 pre t _ t₁ h₁).rs hpre
    obtain ⟨o', t₂, h₃, h₄⟩ | ⟨rfl, h₃⟩ := run_bind_eq_ok h₂
    · obtain ⟨hn, _⟩ | ⟨hn, _⟩ | ⟨enc, symmetric, rs, hspan, _, hkey, hdec, rfl⟩ :=
        readEncryptedStatic_cases h₃
      · cases hn
      · cases hn
      · obtain ⟨hrs, hknown⟩ := (readTokensOp_remote m role o' post _ _ t' h₄).rs hpost
        have heq : t'.hs.rs = rs := hrs
        rw [← heq] at hdec
        exact Or.inr ⟨o, t₁, enc, symmetric, h₁, hspan, hkey, hdec, hknown⟩
    · obtain ⟨_, heq⟩ | ⟨_, _, _, heq⟩ | ⟨_, _, _, _, hn, _⟩ := readEncryptedStatic_cases h₃
      · rw [heq]
        exact Or.inl ⟨rfl, hrs₁, hknown₁⟩
      · rw [heq]
        exact Or.inl ⟨rfl, hrs₁, hknown₁⟩
      · cases hn
  · obtain ⟨hrs, hknown⟩ := (readTokensOp_remote m role 0 pre t _ t' h₁).rs hpre
    exact Or.inl ⟨rfl, hrs, hknown⟩

/-- The static key of message `m` opens, with the cipher that the tokens before it leave. -/
def OpensStatic (X : External) (hs : HandshakeState) (m : Bytes) (rs : PublicKey) : Prop :=
  ∃ pre post offset t enc, armTokens hs.pattern hs.step = pre ++ .s :: post ∧
    ReadPoint X hs m pre offset t ∧
    span m offset (DH_PUBLIC_KEY_BYTES + AEAD_TAG_BYTES) = some enc ∧
    t.hs.symmetric.cipher.hasKey = true ∧ t.hs.symmetric.Opens X enc rs.toList

/-- The tokens of a message leave the peer's static key alone, or leave one that opened. -/
theorem readTokens_rs {m : Bytes} {r : Option Nat}
    (h : (readTokensOp X m (readerOf hs.step) 0 (armTokens hs.pattern hs.step)).run ⟨hs, []⟩ =
      .ok (r, t)) :
    (t.hs.rs = hs.rs ∧ t.hs.rsKnown = hs.rsKnown ∧
        (r.isSome = true → Token.s ∉ armTokens hs.pattern hs.step)) ∨
      (OpensStatic X hs m t.hs.rs ∧ t.hs.rsKnown = true) := by
  by_cases hmem : Token.s ∈ armTokens hs.pattern hs.step
  · obtain ⟨pre, post, hts⟩ := List.append_of_mem hmem
    obtain ⟨_, hpost, hpre, _⟩ := armTokens_split hts
    rw [hts] at h
    obtain ⟨rfl, hrs, hknown⟩ | ⟨offset, t₁, enc, symmetric, h₁, hspan, hkey, hdec, hknown⟩ :=
      readTokensOp_static hpre (not_mem_of_dh hpost rfl) h
    · refine Or.inl ⟨hrs, hknown, ?_⟩
      intro hn
      cases hn
    · exact Or.inr ⟨⟨pre, post, offset, t₁, enc, hts, h₁, hspan, hkey,
        SymmetricState.decryptAndHash_opens hdec⟩, hknown⟩
  · obtain ⟨hrs, hknown⟩ := (readTokensOp_remote _ _ _ _ _ _ _ h).rs hmem
    exact Or.inl ⟨hrs, hknown, fun _ => hmem⟩

/-- A finished `read_message` leaves the peer's static key alone, or leaves one that it
opened; it opened one if it accepted a message with a static key. -/
theorem readMessage_rs {m : Bytes} {r : Option Bytes} (h : hs.readMessage X m = .ok (r, t)) :
    (t.hs.rs = hs.rs ∧ t.hs.rsKnown = hs.rsKnown ∧
        (r.isSome = true → Token.s ∉ armTokens hs.pattern hs.step)) ∨
      (OpensStatic X hs m t.hs.rs ∧ t.hs.rsKnown = true) := by
  obtain ⟨_, rfl, rfl⟩ | ⟨_, t₂, hrun, _, ht⟩ := readMessage_eq_ok h
  · refine Or.inl ⟨rfl, rfl, ?_⟩
    intro hn
    cases hn
  · have hremote : t.hs.rs = t₂.hs.rs ∧ t.hs.rsKnown = t₂.hs.rsKnown := by
      rw [ht]
      split <;> exact ⟨rfl, rfl⟩
    rw [hremote.1, hremote.2]
    obtain ⟨rfl, htokens⟩ | ⟨offset, t₁, htokens, _, hopen⟩ := readBody_cases hrun
    · obtain ⟨hrs, hknown, _⟩ | hopens := readTokens_rs htokens
      · refine Or.inl ⟨hrs, hknown, ?_⟩
        intro hn
        cases hn
      · exact Or.inr hopens
    · have hkeep : t₂.hs.rs = t₁.hs.rs ∧ t₂.hs.rsKnown = t₁.hs.rsKnown := by
        obtain ⟨_, rfl⟩ | ⟨_, _, _, _, rfl⟩ := decryptAndHash_cases hopen <;> exact ⟨rfl, rfl⟩
      rw [hkeep.1, hkeep.2]
      obtain ⟨hrs, hknown, hnot⟩ | hopens := readTokens_rs htokens
      · exact Or.inl ⟨hrs, hknown, fun _ => hnot rfl⟩
      · exact Or.inr hopens

/-- Writing leaves the peer's static key alone. -/
theorem writeMessage_rs {random : PrivateKey} {payload : Bytes} {r : Option Bytes} {t : Traced}
    (h : hs.writeMessage X random payload = .ok (r, t)) :
    t.hs.rs = hs.rs ∧ t.hs.rsKnown = hs.rsKnown := by
  obtain ⟨_, _, rfl⟩ | ⟨_, t₁, hrun, rfl⟩ := writeMessage_eq_ok h
  · exact ⟨rfl, rfl⟩
  · obtain ⟨_, hrs, hknown⟩ := (writeBody_eq_ok hrun).1.remote rfl
    have hdrawn : (afterDrawing X random hs.pattern hs.step ⟨hs, []⟩).hs.rs = hs.rs ∧
        (afterDrawing X random hs.pattern hs.step ⟨hs, []⟩).hs.rsKnown = hs.rsKnown := by
      unfold afterDrawing
      split <;> exact ⟨rfl, rfl⟩
    rw [hdrawn.1] at hrs
    rw [hdrawn.2] at hknown
    cases r <;> exact ⟨hrs, hknown⟩

/-- A written message came to its payload and sealed it. -/
theorem writeMessage_payload {random : PrivateKey} {payload m : Bytes}
    (h : hs.writeMessage X random payload = .ok (some m, t)) :
    hs.isComplete = false ∧ ∃ out t₁,
      WritePoint X hs random (armTokens hs.pattern hs.step) out t₁ ∧
      m = out ++ t₁.hs.symmetric.sealed X payload := by
  obtain ⟨_, hn, _⟩ | ⟨hc, t₂, hrun, _⟩ := writeMessage_eq_ok h
  · cases hn
  · refine ⟨hc, ?_⟩
    obtain ⟨hn, _⟩ | ⟨out, t₁, c, symmetric, htokens, hm, hseal, _⟩ := writeBody_cases hrun
    · cases hn
    · rw [Option.some.inj hm, SymmetricState.encryptAndHash_sealed hseal]
      exact ⟨out, t₁, htokens, rfl⟩

/-- The tokens of a message with a static key write it sealed, at its point. -/
theorem writeTokens_static {random : PrivateKey} {out : Bytes} {pre post : List Token}
    (hts : armTokens hs.pattern hs.step = pre ++ .s :: post)
    (h : WritePoint X hs random (armTokens hs.pattern hs.step) out t) :
    ∃ b t₁, WritePoint X hs random pre b t₁ ∧
      out = b ++ t₁.hs.symmetric.sealed X hs.sPk.toList := by
  obtain ⟨_, hpost, _⟩ := armTokens_split hts
  rw [WritePoint, hts] at h
  obtain ⟨b, b', t₁, h₁, h₂, rfl⟩ := writeTokensOp_split h
  change (writeTokensOp X random (writerOf hs.step) ([.s] ++ post)).run t₁ = _ at h₂
  obtain ⟨c, c', t₂, h₃, h₄, rfl⟩ := writeTokensOp_split h₂
  refine ⟨b, t₁, h₁, ?_⟩
  rw [writeTokensOp_dh hpost h₄, List.append_nil]
  obtain ⟨c₁, t₃, h₅, h₆⟩ | ⟨hn, _⟩ := run_bind_eq_ok h₃
  · obtain ⟨hc, _⟩ := Prod.mk.inj (Except.ok.inj h₆)
    rw [← Option.some.inj hc, List.append_nil]
    rw [writeTokenOp, encryptStatic_run] at h₅
    obtain ⟨c₂, symmetric, hc₂, hseal, _⟩ := encryptAndHash_cases h₅
    obtain rfl := Option.some.inj hc₂
    have hpk : t₁.hs.sPk = hs.sPk := writeTokensOp_sPk _ _ _ _ _ _ h₁
    rw [SymmetricState.encryptAndHash_sealed hseal, hpk]
    rfl
  · cases hn

end Layout

section Conduct

/-- The message a state writes, or nothing if it cannot. -/
def HandshakeState.written (X : External) (hs : HandshakeState) (random : PrivateKey)
    (payload : Bytes) : Bytes :=
  ((hs.writeMessage X random payload).toOption.bind Prod.fst).getD []

/-- Makes message calls one after the other: their records and the state they lead to. -/
def conduct (X : External) : HandshakeState → List MessageCall →
    Except Fatal (List MessageRecord × HandshakeState)
  | hs, [] => .ok ([], hs)
  | hs, call :: calls =>
      match hs.call X call with
      | .error e => .error e
      | .ok (r, t) =>
          match conduct X t.hs calls with
          | .error e => .error e
          | .ok (tr, hs') => .ok (⟨hs, call, r, t⟩ :: tr, hs')

/-- Calls made one after the other are a run. -/
theorem run_of_conduct {hs hs' : HandshakeState} {calls : List MessageCall}
    {tr : List MessageRecord} (h : conduct X hs calls = .ok (tr, hs')) :
    Run (MessageStep X) hs tr hs' := by
  induction calls generalizing hs tr with
  | nil =>
      obtain ⟨rfl, rfl⟩ := Prod.mk.inj (Except.ok.inj h)
      exact Run.nil hs
  | cons call calls ih =>
      unfold conduct at h
      split at h
      · cases h
      · rename_i r t hr
        split at h
        · cases h
        · rename_i tr' hs'' hconduct
          obtain ⟨rfl, rfl⟩ := Prod.mk.inj (Except.ok.inj h)
          exact Run.cons ⟨rfl, hr, rfl⟩ (ih hconduct)

/-- Where the calls lead to an end that passes the test `f`, a run leads there. -/
theorem exists_message_run (hs : HandshakeState) (calls : List MessageCall)
    (f : List MessageRecord → HandshakeState → Bool)
    (h : (match conduct X hs calls with
      | .ok (tr, hs') => f tr hs'
      | .error _ => false) = true) :
    ∃ tr hs', Run (MessageStep X) hs tr hs' ∧ f tr hs' = true := by
  split at h
  · rename_i tr hs' hconduct
    exact ⟨tr, hs', run_of_conduct hconduct, h⟩
  · cases h

end Conduct

end SecurityNoise
