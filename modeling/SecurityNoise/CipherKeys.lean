import SecurityNoise.Calls

/-!
# The cipher key through a message call

Within a call the cipher's key is only ever replaced by a DH. A fact about the key that
survives everything else is therefore kept by every piece of a call, finished or not, and
holds after every DH that succeeds. One family of rules over such facts serves them all.
-/

namespace SecurityNoise

open Framework (Role Token)
open EarlyExit

variable {X : External}

section Facts

/-- A fact about the cipher's key: what keeps the key and extends the record keeps the fact,
and a DH that succeeds establishes it. -/
structure KeyFact (X : External) (I : Traced → Prop) : Prop where
  keep : ∀ t t' : Traced, t'.hs.symmetric.cipher.k = t.hs.symmetric.cipher.k →
    t'.hs.symmetric.cipher.hasKey = t.hs.symmetric.cipher.hasKey → t.log <+: t'.log →
    I t → I t'
  install : ∀ (t : Traced) dir own peer shared,
    X.scalarmult (t.hs.secret own) (t.hs.peerKey peer) = some shared →
    I { t.push (.dh dir own (t.hs.secret own) (t.hs.peerKey peer)) with
        hs := { t.hs with symmetric := t.hs.symmetric.mixKey X shared.toList } }

/-- The fact, provided `b`. -/
def Given (b : Bool) (I : Traced → Prop) (t : Traced) : Prop := b = true → I t

theorem Given.of_or {b b' : Bool} {I : Traced → Prop} {t : Traced}
    (h : Given (b || b') I t) : Given b I t := by
  intro hb
  apply h
  rw [hb, Bool.true_or]

end Facts

section Rules

variable {I : Traced → Prop} (hI : KeyFact X I) (b : Bool)

include hI

theorem KeyFact.push {t : Traced} {ev : Event} (h : Given b I t) : Given b I (t.push ev) :=
  fun hb => hI.keep t _ rfl rfl (List.prefix_append _ _) (h hb)

theorem encryptAndHash_fact (p : Bytes) :
    Triple (Given b I) (encryptAndHash X p) (fun _ => Given b I) (Given b I) := by
  intro t ht r t' h
  obtain ⟨c, symmetric, rfl, hc, rfl⟩ := encryptAndHash_cases h
  obtain ⟨cipher, hcipher, rfl⟩ := SymmetricState.encryptAndHash_eq_ok hc
  obtain ⟨hk, hhas⟩ := CipherState.encryptWithAd_key hcipher
  exact fun hb => hI.keep t _ hk hhas (List.prefix_append _ _) (ht hb)

theorem decryptAndHash_fact (c : Bytes) :
    Triple (Given b I) (decryptAndHash X c) (fun _ => Given b I) (Given b I) := by
  intro t ht r t' h
  obtain ⟨rfl, rfl⟩ | ⟨p, symmetric, rfl, hp, rfl⟩ := decryptAndHash_cases h
  · exact ht
  · obtain ⟨cipher, hcipher, rfl⟩ := SymmetricState.decryptAndHash_some hp
    obtain ⟨hk, hhas⟩ := CipherState.decryptWithAd_key hcipher
    exact fun hb => hI.keep t _ hk hhas (List.prefix_append _ _) (ht hb)

/-- A DH that succeeds establishes the fact; one that fails only records itself. -/
theorem mixDh_fact (dir : Direction) (own : Own) (peer : Peer) :
    Triple (Given b I) (mixDh X dir own peer) (fun _ => Given true I) (Given b I) := by
  intro t ht r t' h
  obtain ⟨rfl, _, rfl⟩ | ⟨shared, rfl, hshared, rfl⟩ := mixDh_cases h
  · exact hI.push b ht
  · exact fun _ => hI.install t dir own peer shared hshared

theorem writeE_fact (random : PrivateKey) :
    Triple (Given b I) (writeE X random) (fun _ => Given b I) (Given b I) := by
  intro t ht r t' h
  rw [writeE_run] at h
  obtain ⟨rfl, rfl⟩ := Prod.mk.inj (Except.ok.inj h)
  refine fun hb => hI.keep t _ rfl rfl ?_ (ht hb)
  rw [Traced.drawing, List.append_assoc]
  exact List.prefix_append _ _

theorem readE_fact (m : Bytes) (offset : Nat) :
    Triple (Given b I) (readE X m offset) (fun _ => Given b I) (Given b I) := by
  intro t ht r t' h
  obtain ⟨rfl, rfl⟩ | ⟨re, _, rfl, rfl⟩ := readE_cases h
  · exact ht
  · exact fun hb => hI.keep t _ rfl rfl (List.prefix_append _ _) (ht hb)

theorem readEncryptedStatic_fact (m : Bytes) (offset : Nat) :
    Triple (Given b I) (readEncryptedStatic X m offset) (fun _ => Given b I) (Given b I) := by
  intro t ht r t' h
  rw [readEncryptedStatic_run] at h
  split at h
  · obtain ⟨rfl, rfl⟩ := Prod.mk.inj (Except.ok.inj h)
    exact ht
  · refine Triple.bind (decryptAndHash_fact hI b _) ?_ (t.push _) (hI.push b ht) r t' h
    intro plain
    split
    · exact Triple.leave fun _ ht => ht
    · refine Triple.bind (Q := fun _ => Given b I) ?_ fun _ => Triple.pure fun _ ht => ht
      exact Triple.update fun t ht hb => hI.keep t _ rfl rfl (List.prefix_refl _) (ht hb)

theorem encryptStatic_fact :
    Triple (Given b I) (encryptStatic X) (fun _ => Given b I) (Given b I) := by
  intro t ht r t' h
  rw [encryptStatic_run] at h
  exact encryptAndHash_fact hI b _ (t.push _) (hI.push b ht) r t' h

theorem encryptPayload_fact (payload : Bytes) :
    Triple (Given b I) (encryptPayload X payload) (fun _ => Given b I) (Given b I) := by
  intro t ht r t' h
  rw [encryptPayload_run] at h
  exact encryptAndHash_fact hI b _ (t.push _) (hI.push b ht) r t' h

/-- A token keeps the fact, and one that is a DH establishes it. -/
theorem readTokenOp_fact (m : Bytes) (role : Role) (offset : Nat) (tok : Token) :
    Triple (Given b I) (readTokenOp X m role offset tok) (fun _ => Given (b || tok.isDh) I)
      (Given b I) := by
  obtain rfl | rfl | htok := tok.kinds
  · exact (Bool.or_false b).symm ▸ readE_fact hI b m offset
  · exact (Bool.or_false b).symm ▸ readEncryptedStatic_fact hI b m offset
  · rw [readTokenOp_dh htok, htok, Bool.or_true]
    exact Triple.bind (mixDh_fact hI b _ _ _) fun _ => Triple.pure fun _ ht => ht

theorem writeTokenOp_fact (random : PrivateKey) (role : Role) (tok : Token) :
    Triple (Given b I) (writeTokenOp X random role tok) (fun _ => Given (b || tok.isDh) I)
      (Given b I) := by
  obtain rfl | rfl | htok := tok.kinds
  · exact (Bool.or_false b).symm ▸ writeE_fact hI b random
  · exact (Bool.or_false b).symm ▸ encryptStatic_fact hI b
  · rw [writeTokenOp_dh htok, htok, Bool.or_true]
    exact Triple.bind (mixDh_fact hI b _ _ _) fun _ => Triple.pure fun _ ht => ht

theorem readTokensOp_fact (m : Bytes) (role : Role) (offset : Nat) (ts : List Token) :
    Triple (Given b I) (readTokensOp X m role offset ts)
      (fun _ => Given (b || ts.any Token.isDh) I) (Given b I) := by
  induction ts generalizing b offset with
  | nil => exact Triple.pure fun _ ht => by simpa using ht
  | cons tok ts ih =>
      apply Triple.bind (readTokenOp_fact hI b m role offset tok)
      intro offset'
      rw [List.any_cons, ← Bool.or_assoc]
      exact (ih _ offset').weaken (fun _ ht => ht) (fun _ _ ht => ht) fun _ => Given.of_or

theorem writeTokensOp_fact (random : PrivateKey) (role : Role) (ts : List Token) :
    Triple (Given b I) (writeTokensOp X random role ts)
      (fun _ => Given (b || ts.any Token.isDh) I) (Given b I) := by
  induction ts generalizing b with
  | nil => exact Triple.pure fun _ ht => by simpa using ht
  | cons tok ts ih =>
      apply Triple.bind (writeTokenOp_fact hI b random role tok)
      intro out
      rw [List.any_cons, ← Bool.or_assoc]
      refine Triple.bind (Q := fun _ => Given (b || tok.isDh || ts.any Token.isDh) I) ?_
        fun _ => Triple.pure fun _ ht => ht
      exact (ih _).weaken (fun _ ht => ht) (fun _ _ ht => ht) fun _ => Given.of_or

/-- A message keeps the fact, and one with a DH establishes it. -/
theorem readBody_fact (m : Bytes) (p : Pattern) (i : Nat) :
    Triple (Given b I) (readBody X m p i)
      (fun _ => Given (b || (armTokens p i).any Token.isDh) I) (Given b I) := by
  apply Triple.bind (readTokensOp_fact hI b m _ 0 _)
  intro offset
  apply Triple.bind (Q := fun _ => Given (b || (armTokens p i).any Token.isDh) I)
  · intro t ht r t' hrun
    obtain ⟨_, _, rfl, rfl⟩ := readSpan_eq_ok hrun
    exact ht
  · intro rest t ht r t' hrun
    have hout := decryptAndHash_fact hI _ rest (t.push _) (hI.push _ ht) r t' hrun
    cases r with
    | some out => exact hout
    | none => exact hout.of_or

theorem writeBody_fact (random : PrivateKey) (payload : Bytes) (p : Pattern) (i : Nat) :
    Triple (Given b I) (writeBody X random payload p i)
      (fun _ => Given (b || (armTokens p i).any Token.isDh) I) (Given b I) := by
  apply Triple.bind (writeTokensOp_fact hI b random _ _)
  intro out
  refine Triple.bind (Q := fun _ => Given (b || (armTokens p i).any Token.isDh) I) ?_
    fun _ => Triple.pure fun _ ht => ht
  exact (encryptPayload_fact hI _ payload).weaken (fun _ ht => ht) (fun _ _ ht => ht)
    fun _ => Given.of_or

end Rules

section Keyed

variable {t t' : Traced}

/-- The cipher has a key, provided `b`. -/
def KeyedIf (b : Bool) (t : Traced) : Prop := b = true → t.hs.symmetric.cipher.hasKey = true

theorem keyFact_hasKey : KeyFact X fun t => t.hs.symmetric.cipher.hasKey = true where
  keep _ _ _ hhas _ ht := hhas.trans ht
  install _ _ _ _ _ _ := rfl

theorem readTokensOp_keyed (b : Bool) (m : Bytes) (role : Role) (offset : Nat)
    (ts : List Token) : Triple (KeyedIf b) (readTokensOp X m role offset ts)
      (fun _ => KeyedIf (b || ts.any Token.isDh)) (KeyedIf b) :=
  readTokensOp_fact keyFact_hasKey b m role offset ts

/-- After an accepted message with a DH the cipher has a key. -/
theorem readBody_keyed {m : Bytes} {p : Pattern} {i : Nat} {out : Bytes}
    (hdh : (armTokens p i).any Token.isDh = true)
    (h : (readBody X m p i).run t = .ok (some out, t')) :
    t'.hs.symmetric.cipher.hasKey = true :=
  readBody_fact keyFact_hasKey false m p i t (by simp [Given]) _ _ h hdh

/-- After a written message with a DH the cipher has a key. -/
theorem writeBody_keyed {random : PrivateKey} {payload : Bytes} {p : Pattern} {i : Nat}
    {out : Bytes} (hdh : (armTokens p i).any Token.isDh = true)
    (h : (writeBody X random payload p i).run t = .ok (some out, t')) :
    t'.hs.symmetric.cipher.hasKey = true :=
  writeBody_fact keyFact_hasKey false random payload p i t (by simp [Given]) _ _ h hdh

/-- With a key, what opens is at least a tag long. -/
theorem decryptAndHash_tagged {c out : Bytes} (hk : t.hs.symmetric.cipher.hasKey = true)
    (h : (decryptAndHash X c).run t = .ok (some out, t')) : AEAD_TAG_BYTES ≤ c.length := by
  obtain ⟨hnone, _⟩ | ⟨p, symmetric, _, hp, _⟩ := decryptAndHash_cases h
  · cases hnone
  · obtain ⟨cipher, hcipher, _⟩ := SymmetricState.decryptAndHash_some hp
    obtain ⟨hf, _⟩ | ⟨_, hn, _⟩ | ⟨_, _, _, q, _, hq⟩ := CipherState.decryptWithAd_eq_ok hcipher
    · rw [hk] at hf
      cases hf
    · cases hn
    · rw [X.aeadDecrypt_length _ _ _ _ _ hq]
      exact Nat.le_add_left _ _

/-- An accepted message is at least as long as its overhead. -/
theorem readBody_overhead {m : Bytes} {p : Pattern} {i : Nat} {out : Bytes}
    (h : (readBody X m p i).run t = .ok (some out, t')) : overhead p i ≤ m.length := by
  obtain ⟨offset, t₁, h₁, h₂⟩ | ⟨hn, _⟩ := run_bind_eq_ok h
  · obtain ⟨hoff, hle⟩ := readTokensOp_offset h₁
    have hkey := readTokensOp_keyed false m _ 0 _ t (by simp [KeyedIf]) _ _ h₁
    obtain ⟨rest, t₂, h₃, h₄⟩ | ⟨hn, _⟩ := run_bind_eq_ok h₂
    · obtain ⟨_, hspan, hrest, rfl⟩ := readSpan_eq_ok h₃
      obtain rfl := Option.some.inj hrest
      have hlen := span_length hspan
      have h₅ : (decryptAndHash X rest).run
          (t₂.push (.payload .read t₂.hs.symmetric.cipher.hasKey)) = .ok (some out, t') := h₄
      rw [overhead, ← Nat.zero_add (List.sum _), ← hoff]
      have hoffset : offset ≤ m.length := hle (Nat.zero_le _)
      cases hdh : (armTokens p i).any Token.isDh with
      | false => simpa using hoffset
      | true =>
          rw [Bool.false_or, hdh] at hkey
          have hkey' : KeyedIf true
              (t₂.push (.payload .read t₂.hs.symmetric.cipher.hasKey)) := hkey
          have htag := decryptAndHash_tagged (hkey' rfl) h₅
          simp only [if_true]
          omega
    · cases hn
  · cases hn

end Keyed

end SecurityNoise
