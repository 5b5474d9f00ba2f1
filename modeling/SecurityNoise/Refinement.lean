import SecurityNoise.Calls
import SecurityNoise.Framework.Agreement

/-!
# The handshake state refines the Noise interpreter

The framework's state is an abstraction of the code's: a cipher without its key flag
has no key, and a key that the pattern has not put in place yet is empty. Every piece
of a message then follows its token, so a whole message follows its token list.

## Implementation notes

The code stores all-zero arrays where the framework has empty keys. Which of them mean
something depends on the pattern, the role and the message alone; `Knows` computes it.
The counter bound keeps the code's abort on an exhausted nonce out of reach.
-/

namespace SecurityNoise

open Framework (Role Token)

/-- The concrete suite: X25519, ChaCha20-Poly1305 and BLAKE2b as the plugin calls them. -/
def External.suite (X : External) :
    Framework.Suite PrivateKey DH_PUBLIC_KEY_BYTES HASHLEN BLOCKLEN where
  hash := X.genericHash
  dh := X.scalarmult
  encrypt k n := X.aeadEncrypt k (encodeNonce n)
  decrypt k n := X.aeadDecrypt k (encodeNonce n)
  keyLen_le := by decide

theorem External.suite_aeadLawful {X : External} (haead : X.AeadRoundTrip) :
    X.suite.AeadLawful where
  decrypt_encrypt k n ad p := haead k (encodeNonce n) ad p
  encrypt_length k n ad p := X.aeadEncrypt_length k (encodeNonce n) ad p

/-- The assumptions on the external functions make the suite lawful. -/
theorem External.suite_lawful {X : External} (hdh : X.DhCommutes) (haead : X.AeadRoundTrip) :
    X.suite.Lawful X.scalarmultBase where
  toAeadLawful := External.suite_aeadLawful haead
  dh_comm := hdh

variable {X : External}

section Symmetric

/-- A cipher without the key flag has an empty key. -/
def CipherState.view (c : CipherState) : Framework.CipherState :=
  ⟨if c.hasKey then some c.k else none, c.n⟩

def SymmetricState.view (s : SymmetricState) : Framework.SymmetricState HASHLEN :=
  ⟨s.ck, s.h, s.cipher.view⟩

theorem CipherState.view_keyless {c : CipherState} (h : c.hasKey = false) :
    c.view.k = none := by
  simp [view, h]

theorem CipherState.view_keyed {c : CipherState} (h : c.hasKey = true) :
    c.view.k = some c.k := by
  simp [view, h]

/-- Below the reserved nonce an encryption is the framework's. -/
theorem CipherState.encryptWithAd_view {c : CipherState} (hn : c.n ≠ maxNonce)
    (ad p : Bytes) : ∃ out c', c.encryptWithAd X ad p = .ok (out, c') ∧
      c.view.encryptWithAd X.suite ad p = some (out, c'.view) := by
  have hn' : c.n ≠ 0xFFFFFFFFFFFFFFFF := hn
  rcases Bool.eq_false_or_eq_true c.hasKey with hk | hk
  · refine ⟨_, _, encryptWithAd_keyed hk hn ad p, ?_⟩
    rw [Framework.CipherState.encryptWithAd, view_keyed hk]
    simp only [view, hk, if_true]
    rw [if_neg hn']
    rfl
  · refine ⟨_, _, encryptWithAd_keyless hk ad p, ?_⟩
    rw [Framework.CipherState.encryptWithAd, view_keyless hk]

/-- Below the reserved nonce a decryption is the framework's. -/
theorem CipherState.decryptWithAd_view {c : CipherState} (hn : c.n ≠ maxNonce)
    (ad ct : Bytes) :
    (c.decryptWithAd X ad ct = .ok (none, c) ∧ c.view.decryptWithAd X.suite ad ct = none) ∨
      ∃ p c', c.decryptWithAd X ad ct = .ok (some p, c') ∧
        c.view.decryptWithAd X.suite ad ct = some (p, c'.view) := by
  have hn' : c.n ≠ 0xFFFFFFFFFFFFFFFF := hn
  rcases Bool.eq_false_or_eq_true c.hasKey with hk | hk
  · have hview : c.view.decryptWithAd X.suite ad ct =
        (X.aeadDecrypt c.k (encodeNonce c.n) ad ct).map
          fun p => (p, { c.view with n := c.n + 1 }) := by
      rw [Framework.CipherState.decryptWithAd, view_keyed hk]
      simp only [view, hk, if_true]
      rw [if_neg hn']
      rfl
    rw [decryptWithAd_keyed hk hn, hview]
    cases X.aeadDecrypt c.k (encodeNonce c.n) ad ct with
    | none => exact Or.inl ⟨rfl, rfl⟩
    | some p => exact Or.inr ⟨p, _, rfl, rfl⟩
  · refine Or.inr ⟨ct, c, decryptWithAd_keyless hk ad ct, ?_⟩
    rw [Framework.CipherState.decryptWithAd, view_keyless hk]

@[simp] theorem SymmetricState.view_mixHash (s : SymmetricState) (d : Bytes) :
    (s.mixHash X d).view = s.view.mixHash X.suite d := by
  simp only [view, mixHash, Framework.SymmetricState.mixHash, blake2bPair_eq]
  rfl

@[simp] theorem SymmetricState.view_mixKey (s : SymmetricState) (z : Bytes) :
    (s.mixKey X z).view = s.view.mixKey X.suite z := by
  have hsu : X.suite.hash = X.genericHash := rfl
  simp only [view, mixKey, Framework.SymmetricState.mixKey, hkdf2_output1 hsu,
    hkdf2_output2 hsu]
  rfl

/-- `split` gives the framework's two ciphers. -/
theorem SymmetricState.view_split (s : SymmetricState) :
    ((s.split X).1.first.view, (s.split X).1.second.view) = s.view.split X.suite := by
  have hsu : X.suite.hash = X.genericHash := rfl
  simp only [split, view, Framework.SymmetricState.split, hkdf2_output1 hsu, hkdf2_output2 hsu]
  rfl

theorem SymmetricState.view_initializeProtocol (name : Bytes) :
    (initializeProtocol X name).view =
      Framework.SymmetricState.initializeSymmetric X.suite name := rfl

/-- Below the reserved nonce `encrypt_and_hash` is the framework's. -/
theorem SymmetricState.encryptAndHash_view {s : SymmetricState} (hn : s.cipher.n ≠ maxNonce)
    (p : Bytes) : ∃ out s', s.encryptAndHash X p = .ok (out, s') ∧
      s.view.encryptAndHash X.suite p = some (out, s'.view) := by
  obtain ⟨out, c', hc, hview⟩ := CipherState.encryptWithAd_view (X := X) hn s.h.toList p
  refine ⟨out, mixHash X { s with cipher := c' } out, ?_, ?_⟩
  · rw [encryptAndHash, hc]
  · change (s.cipher.view.encryptWithAd X.suite s.h.toList p).bind _ = _
    rw [hview, view_mixHash]
    rfl

/-- Below the reserved nonce `decrypt_and_hash` is the framework's. -/
theorem SymmetricState.decryptAndHash_view {s : SymmetricState} (hn : s.cipher.n ≠ maxNonce)
    (ct : Bytes) :
    (s.decryptAndHash X ct = .ok (none, s) ∧ s.view.decryptAndHash X.suite ct = none) ∨
      ∃ p s', s.decryptAndHash X ct = .ok (some p, s') ∧
        s.view.decryptAndHash X.suite ct = some (p, s'.view) := by
  rcases CipherState.decryptWithAd_view (X := X) hn s.h.toList ct with
    ⟨hc, hview⟩ | ⟨p, c', hc, hview⟩
  · refine Or.inl ⟨?_, ?_⟩
    · rw [decryptAndHash, hc]
    · change (s.cipher.view.decryptWithAd X.suite s.h.toList ct).bind _ = _
      rw [hview]
      rfl
  · refine Or.inr ⟨p, mixHash X { s with cipher := c' } ct, ?_, ?_⟩
    · rw [decryptAndHash, hc]
    · change (s.cipher.view.decryptWithAd X.suite s.h.toList ct).bind _ = _
      rw [hview, view_mixHash]
      rfl

theorem CipherState.succ_nonce_le (n : UInt64) : (n + 1).toNat ≤ n.toNat + 1 := by
  rw [UInt64.toNat_add]
  exact Nat.mod_le _ _

theorem SymmetricState.encryptAndHash_cipher {s s' : SymmetricState} {p out : Bytes}
    (h : s.encryptAndHash X p = .ok (out, s')) :
    s'.cipher.hasKey = s.cipher.hasKey ∧ s'.cipher.n.toNat ≤ s.cipher.n.toNat + 1 := by
  obtain ⟨cipher, hc, rfl⟩ := encryptAndHash_eq_ok h
  obtain ⟨_, _, rfl⟩ | ⟨_, _, _, rfl⟩ := CipherState.encryptWithAd_eq_ok hc
  · exact ⟨rfl, Nat.le_succ _⟩
  · exact ⟨rfl, CipherState.succ_nonce_le _⟩

theorem SymmetricState.decryptAndHash_cipher {s s' : SymmetricState} {ct p : Bytes}
    (h : s.decryptAndHash X ct = .ok (some p, s')) :
    s'.cipher.hasKey = s.cipher.hasKey ∧ s'.cipher.n.toNat ≤ s.cipher.n.toNat + 1 := by
  obtain ⟨cipher, hc, rfl⟩ := decryptAndHash_some h
  obtain ⟨_, _, rfl⟩ | ⟨_, hn, _⟩ | ⟨_, _, rfl, _⟩ := CipherState.decryptWithAd_eq_ok hc
  · exact ⟨rfl, Nat.le_succ _⟩
  · cases hn
  · exact ⟨rfl, CipherState.succ_nonce_le _⟩

end Symmetric

section Knowledge

/-- Which keys of a party are in place: its ephemeral key, the peer's two keys, and the
key of the symmetric cipher. -/
structure Knows where
  e : Bool := false
  re : Bool := false
  rs : Bool := false
  keyed : Bool := false
  deriving DecidableEq

namespace Knows

def own (k : Knows) : Own → Bool
  | .ephemeral => k.e
  | .static => true

def peer (k : Knows) : Peer → Bool
  | .re => k.re
  | .rs => k.rs

/-- Whether everything a token uses is in place. -/
def allows (k : Knows) (role : Role) : Token → Bool
  | .e => true
  | .s => k.keyed
  | t => k.own (dhOperands role t).1 && k.peer (dhOperands role t).2

/-- What is in place after a token. -/
def after (k : Knows) (dir : Direction) : Token → Knows
  | .e => match dir with
      | .written => { k with e := true }
      | .read => { k with re := true }
  | .s => match dir with
      | .written => k
      | .read => { k with rs := true }
  | _ => { k with keyed := true }

theorem after_dh (k : Knows) (dir : Direction) {t : Token} (ht : t.isDh = true) :
    k.after dir t = { k with keyed := true } := by
  cases t with
  | e => cases ht
  | s => cases ht
  | _ => rfl

def afterAll (k : Knows) (dir : Direction) (ts : List Token) : Knows :=
  ts.foldl (fun k t => k.after dir t) k

def allowsAll (role : Role) (dir : Direction) : Knows → List Token → Bool
  | _, [] => true
  | k, t :: ts => k.allows role t && allowsAll role dir (k.after dir t) ts

end Knows

/-- What a party that follows its pattern has in place before message `i`. An IK
initiator starts with the peer's static key. -/
def knowsAt (p : Pattern) (role : Role) : Nat → Knows
  | 0 => { rs := p = .ik && role = .initiator }
  | i + 1 => (knowsAt p role i).afterAll (directionOf role i) (armTokens p i)

/-- In pattern order every token finds what it uses. -/
theorem knowsAt_allows (p : Pattern) (role : Role) {i : Nat} (hi : i < patternTotalSteps p) :
    Knows.allowsAll role (directionOf role i) (knowsAt p role i) (armTokens p i) = true := by
  obtain ⟨rfl, rfl⟩ | ⟨rfl, rfl⟩ | ⟨rfl, rfl⟩ | ⟨rfl, rfl⟩ | ⟨rfl, rfl⟩ := message_cases hi <;>
    cases role <;> decide

end Knowledge

section Relation

/-- A party's state in the framework. -/
abbrev Reference := Framework.HandshakeState PrivateKey DH_PUBLIC_KEY_BYTES HASHLEN

/-- The key pair `GENERATE_KEYPAIR` makes of the random bytes. -/
def freshKeyPair (X : External) (random : PrivateKey) :
    Framework.KeyPair PrivateKey DH_PUBLIC_KEY_BYTES := ⟨random, X.scalarmultBase random⟩

/-- The code's state shows the framework's: `k` is in place, what is not is all zeros,
and the counter of the symmetric cipher is at most `b`. -/
structure Shows (k : Knows) (b : Nat) (role : Role) (hs : HandshakeState) (r : Reference) :
    Prop where
  role : r.role = role
  sym : r.sym = hs.symmetric.view
  s : r.s = ⟨hs.sSk, hs.sPk⟩
  e : r.e = if k.e then some ⟨hs.eSk, hs.ePk⟩ else none
  re : r.re = if k.re then some hs.re else none
  rs : r.rs = if k.rs then some hs.rs else none
  re_zero : k.re = false → hs.re = Block.zero DH_PUBLIC_KEY_BYTES
  rs_zero : k.rs = false → hs.rs = Block.zero DH_PUBLIC_KEY_BYTES
  rsKnown : hs.rsKnown = k.rs
  keyed : k.keyed = true → hs.symmetric.cipher.hasKey = true
  nonce : hs.symmetric.cipher.n.toNat ≤ b

/-- `Shows` of a call in progress. -/
def Shown (k : Knows) (b : Nat) (role : Role) (t : Traced) (r : Reference) : Prop :=
  Shows k b role t.hs r

variable {k : Knows} {b : Nat} {role : Role} {hs : HandshakeState} {r : Reference}

namespace Shows

theorem nonce_ne (h : Shows k b role hs r) (hb : b < 2 ^ 64 - 1) :
    hs.symmetric.cipher.n ≠ maxNonce := by
  intro he
  have hle := h.nonce
  rw [he] at hle
  exact absurd (Nat.le_trans (by decide : 2 ^ 64 - 1 ≤ maxNonce.toNat) hle) (by omega)

/-- Keys in place are the ones the code uses. -/
theorem dhKeys (h : Shows k b role hs r) {tok : Token} (hdh : tok.isDh = true)
    (hk : k.allows role tok = true) :
    r.dhKeys tok =
      some (hs.secret (dhOperands role tok).1, hs.peerKey (dhOperands role tok).2) := by
  cases tok with
  | e => cases hdh
  | s => cases hdh
  | ee =>
      simp only [Knows.allows, dhOperands, Knows.own, Knows.peer, Bool.and_eq_true] at hk
      simp [Framework.HandshakeState.dhKeys, h.e, h.re, hk, HandshakeState.secret,
        HandshakeState.peerKey, dhOperands]
  | es =>
      cases role <;>
        simp only [Knows.allows, dhOperands, Knows.own, Knows.peer, Bool.and_eq_true] at hk <;>
        simp [Framework.HandshakeState.dhKeys, h.e, h.re, h.rs, h.s, h.role, hk,
          HandshakeState.secret, HandshakeState.peerKey, dhOperands]
  | se =>
      cases role <;>
        simp only [Knows.allows, dhOperands, Knows.own, Knows.peer, Bool.and_eq_true] at hk <;>
        simp [Framework.HandshakeState.dhKeys, h.e, h.re, h.rs, h.s, h.role, hk,
          HandshakeState.secret, HandshakeState.peerKey, dhOperands]
  | ss =>
      simp only [Knows.allows, dhOperands, Knows.own, Knows.peer, Bool.and_eq_true] at hk
      simp [Framework.HandshakeState.dhKeys, h.rs, h.s, hk, HandshakeState.secret,
        HandshakeState.peerKey, dhOperands]

/-- Equal changes of the symmetric states. -/
theorem withSymmetric (h : Shows k b role hs r) (symmetric : SymmetricState) {b' : Nat}
    (hkey : hs.symmetric.cipher.hasKey = true → symmetric.cipher.hasKey = true)
    (hn : symmetric.cipher.n.toNat ≤ b') :
    Shows k b' role { hs with symmetric := symmetric } { r with sym := symmetric.view } where
  role := h.role
  sym := rfl
  s := h.s
  e := h.e
  re := h.re
  rs := h.rs
  re_zero := h.re_zero
  rs_zero := h.rs_zero
  rsKnown := h.rsKnown
  keyed := fun hk => hkey (h.keyed hk)
  nonce := hn

/-- The framework's state does not count messages. -/
theorem withStep (h : Shows k b role hs r) (n : Nat) :
    Shows k b role { hs with step := n } r :=
  ⟨h.role, h.sym, h.s, h.e, h.re, h.rs, h.re_zero, h.rs_zero, h.rsKnown, h.keyed, h.nonce⟩

theorem mono (h : Shows k b role hs r) {b' : Nat} (hle : b ≤ b') : Shows k b' role hs r :=
  { h with nonce := Nat.le_trans h.nonce hle }

end Shows

end Relation

end SecurityNoise
