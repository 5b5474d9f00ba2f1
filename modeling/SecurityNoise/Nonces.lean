import SecurityNoise.Foundation.Runs
import SecurityNoise.Generations
import SecurityNoise.Miniature

/-!
# No nonce is used twice

Over any sequence of encryptions, decryptions of arbitrary bytes and rekeys, the pairs of
generation and counter under which frames are encrypted increase, and so do those under
which frames are accepted. The counters stay below the rekey interval, so neither abort is
ever reached and no frame uses the nonce of the rekey itself.
-/

namespace SecurityNoise

variable {X : External}

section Statement

/-- A call that was made: its result, and the generation and nonce it worked under. -/
structure CallRecord where
  call : TransportCall
  result : Option Bytes
  generation : Nat
  nonce : UInt64

/-- The nonce a call works under; a rekey uses the reserved one. -/
def Endpoint.nonceFor (e : Endpoint) : TransportCall → UInt64
  | .encrypt _ => e.transport.send.n
  | .decrypt _ => e.transport.recv.n
  | .rekey => maxNonce

def TransportStep (X : External) (e : Endpoint) (l : CallRecord) (e' : Endpoint) : Prop :=
  e.call X l.call = .ok (l.result, e') ∧ l.generation = e.generation ∧
    l.nonce = e.nonceFor l.call

/-- The lexicographic order of generation and nonce. -/
def Earlier (a b : Nat × UInt64) : Prop := a.1 < b.1 ∨ (a.1 = b.1 ∧ a.2 < b.2)

/-- Where a call encrypted a frame. -/
def CallRecord.encryptedAt (l : CallRecord) : Option (Nat × UInt64) :=
  match l.call with
  | .encrypt _ => some (l.generation, l.nonce)
  | _ => none

/-- Where a call accepted a frame. -/
def CallRecord.acceptedAt (l : CallRecord) : Option (Nat × UInt64) :=
  match l.call, l.result with
  | .decrypt _, some _ => some (l.generation, l.nonce)
  | _, _ => none

def encryptedUnder (tr : List CallRecord) : List (Nat × UInt64) :=
  tr.filterMap CallRecord.encryptedAt

def acceptedUnder (tr : List CallRecord) : List (Nat × UInt64) :=
  tr.filterMap CallRecord.acceptedAt

/-- The pairs increase; within a generation the AEAD nonces differ, and none is the one a
rekey uses. -/
structure FreshNonces (used : List (Nat × UInt64)) : Prop where
  increasing : used.Pairwise Earlier
  distinct : used.Pairwise fun a b => a.1 = b.1 → encodeNonce a.2 ≠ encodeNonce b.2
  reserved : ∀ u ∈ used, encodeNonce u.2 ≠ encodeNonce maxNonce

/-- What holds after the calls `tr` on a transport that started with fresh keys. -/
structure TransportLaws (X : External) (sendKey recvKey : CipherKey) (tr : List CallRecord)
    (e : Endpoint) : Prop where
  encrypted : FreshNonces (encryptedUnder tr)
  accepted : FreshNonces (acceptedUnder tr)
  /-- A frame is sealed under the key of its generation and its nonce. -/
  sealed : ∀ l ∈ tr, ∀ p, l.call = .encrypt p → l.result = some
    (X.aeadEncrypt (generationKey X sendKey l.generation) (encodeNonce l.nonce) [] p)
  /-- An accepted frame opened under the key of its generation and its nonce. -/
  opened : ∀ l ∈ tr, ∀ c p, l.call = .decrypt c → l.result = some p →
    X.aeadDecrypt (generationKey X recvKey l.generation) (encodeNonce l.nonce) [] c = some p
  sendBelow : e.transport.send.n < REKEY_INTERVAL
  recvBelow : e.transport.recv.n < REKEY_INTERVAL
  /-- No call aborts. -/
  finishes : ∀ c, ∃ r e', e.call X c = .ok (r, e')

theorem encryptedUnder_snoc (tr : List CallRecord) (l : CallRecord) :
    encryptedUnder (tr ++ [l]) = encryptedUnder tr ++ l.encryptedAt.toList := by
  cases h : l.encryptedAt <;> simp [encryptedUnder, h]

theorem acceptedUnder_snoc (tr : List CallRecord) (l : CallRecord) :
    acceptedUnder (tr ++ [l]) = acceptedUnder tr ++ l.acceptedAt.toList := by
  cases h : l.acceptedAt <;> simp [acceptedUnder, h]

end Statement

section Pairs

variable {used : List (Nat × UInt64)} {now now' : Nat × UInt64}

theorem Earlier.trans {a b c : Nat × UInt64} (h : Earlier a b) (h' : Earlier b c) :
    Earlier a c := by
  obtain hg | ⟨hg, hn⟩ := h
  · obtain hg' | ⟨hg', _⟩ := h'
    · exact Or.inl (Nat.lt_trans hg hg')
    · exact Or.inl (hg' ▸ hg)
  · obtain hg' | ⟨hg', hn'⟩ := h'
    · exact Or.inl (hg ▸ hg')
    · exact Or.inr ⟨hg.trans hg', UInt64.lt_trans hn hn'⟩

/-- What a call does to the next pair of one direction, and the pair it used: it used the
next one and moved on, or it used none and the pair stayed or moved on as well. -/
inductive Advances (now : Nat × UInt64) : Option (Nat × UInt64) → Nat × UInt64 → Prop
  | used {now' : Nat × UInt64} (below : now.2 < REKEY_INTERVAL) (later : Earlier now now') :
      Advances now (some now) now'
  | stayed : Advances now none now
  | passed {now' : Nat × UInt64} (later : Earlier now now') : Advances now none now'

/-- The pairs used so far, when the next one is `now`. -/
structure Spent (used : List (Nat × UInt64)) (now : Nat × UInt64) : Prop where
  increasing : used.Pairwise Earlier
  below : ∀ u ∈ used, u.2 < REKEY_INTERVAL
  before : ∀ u ∈ used, Earlier u now

namespace Spent

theorem nil (now : Nat × UInt64) : Spent [] now :=
  ⟨List.Pairwise.nil, by simp, by simp⟩

/-- Time passes without a use. -/
theorem later (h : Spent used now) (hlt : Earlier now now') : Spent used now' where
  increasing := h.increasing
  below := h.below
  before u hu := (h.before u hu).trans hlt

/-- The next pair is used. -/
theorem use (h : Spent used now) (hbelow : now.2 < REKEY_INTERVAL) (hlt : Earlier now now') :
    Spent (used ++ [now]) now' where
  increasing := by
    rw [List.pairwise_append]
    refine ⟨h.increasing, List.pairwise_singleton _ _, ?_⟩
    intro u hu v hv
    rw [List.mem_singleton.mp hv]
    exact h.before u hu
  below := forall_mem_snoc h.below hbelow
  before := forall_mem_snoc (fun u hu => (h.before u hu).trans hlt) hlt

/-- A call is made. -/
theorem call (h : Spent used now) {pair : Option (Nat × UInt64)} (hcall : Advances now pair now') :
    Spent (used ++ pair.toList) now' := by
  cases hcall with
  | used hbelow hlt => exact h.use hbelow hlt
  | stayed => simpa using h
  | passed hlt => simpa using h.later hlt

theorem fresh (h : Spent used now) : FreshNonces used where
  increasing := h.increasing
  distinct := by
    apply h.increasing.imp
    intro a b hlt hg hn
    obtain hg' | ⟨_, hn'⟩ := hlt
    · omega
    · rw [encodeNonce_injective hn] at hn'
      exact UInt64.lt_irrefl _ hn'
  reserved u hu hn := ne_maxNonce (h.below u hu) (encodeNonce_injective hn)

end Spent

/-- A used counter moves on, within its generation or into the next. -/
theorem Counted.used_earlier {g g' : Nat} {n n' o o' : UInt64} (h : Counted g g' n n' o o')
    (hlt : n < REKEY_INTERVAL) : Earlier (g, n) (g', n') := by
  have hn := (below_iff n).mp hlt
  by_cases hlast : n.toNat + 1 = 2 ^ 60
  · obtain ⟨rfl, _⟩ := h.last hlast
    exact Or.inl (Nat.lt_succ_self g)
  · obtain ⟨rfl, hn', _⟩ := h.next (by omega)
    refine Or.inr ⟨rfl, UInt64.lt_iff_toNat_lt.mpr ?_⟩
    change n.toNat < n'.toNat
    omega

/-- The opposite counter stays, or moves into the next generation. -/
theorem Counted.other_later {g g' : Nat} {n n' o o' : UInt64} (h : Counted g g' n n' o o')
    (hlt : n < REKEY_INTERVAL) : Advances (g, o) none (g', o') := by
  have hn := (below_iff n).mp hlt
  by_cases hlast : n.toNat + 1 = 2 ^ 60
  · obtain ⟨rfl, _⟩ := h.last hlast
    exact .passed (Or.inl (Nat.lt_succ_self g))
  · obtain ⟨rfl, _, rfl⟩ := h.next (by omega)
    exact .stayed

end Pairs

section Runs

variable {ks kr : CipherKey} {e e' : Endpoint} {tr : List CallRecord} {l : CallRecord}

/-- The calls so far, on a ready endpoint. -/
structure Metered (X : External) (sendKey recvKey : CipherKey) (tr : List CallRecord)
    (e : Endpoint) : Prop where
  ready : Ready X sendKey recvKey e
  encrypted : Spent (encryptedUnder tr) (e.generation, e.transport.send.n)
  accepted : Spent (acceptedUnder tr) (e.generation, e.transport.recv.n)
  sealed : ∀ l ∈ tr, ∀ p, l.call = .encrypt p → l.result = some
    (X.aeadEncrypt (generationKey X sendKey l.generation) (encodeNonce l.nonce) [] p)
  opened : ∀ l ∈ tr, ∀ c p, l.call = .decrypt c → l.result = some p →
    X.aeadDecrypt (generationKey X recvKey l.generation) (encodeNonce l.nonce) [] c = some p

theorem Metered.start (ks kr : CipherKey) : Metered X ks kr [] (Endpoint.start ks kr) :=
  ⟨Ready.start ks kr, Spent.nil _, Spent.nil _, by simp, by simp⟩

/-- A call that leaves a ready endpoint, advances both pairs and sealed or opened what it
returned extends the account. -/
theorem Metered.extend (h : Metered X ks kr tr e) (hready : Ready X ks kr e')
    (hsend : Advances (e.generation, e.transport.send.n) l.encryptedAt
      (e'.generation, e'.transport.send.n))
    (hrecv : Advances (e.generation, e.transport.recv.n) l.acceptedAt
      (e'.generation, e'.transport.recv.n))
    (hsealed : ∀ p, l.call = .encrypt p → l.result = some
      (X.aeadEncrypt (generationKey X ks l.generation) (encodeNonce l.nonce) [] p))
    (hopened : ∀ c p, l.call = .decrypt c → l.result = some p →
      X.aeadDecrypt (generationKey X kr l.generation) (encodeNonce l.nonce) [] c = some p) :
    Metered X ks kr (tr ++ [l]) e' where
  ready := hready
  encrypted := encryptedUnder_snoc tr l ▸ h.encrypted.call hsend
  accepted := acceptedUnder_snoc tr l ▸ h.accepted.call hrecv
  sealed := forall_mem_snoc h.sealed hsealed
  opened := forall_mem_snoc h.opened hopened

/-- Every call keeps the account. -/
theorem Metered.step (h : Metered X ks kr tr e) (hs : TransportStep X e l e') :
    Metered X ks kr (tr ++ [l]) e' := by
  obtain ⟨call, result, generation, nonce⟩ := l
  obtain ⟨hcall, hg, hn⟩ := hs
  simp only at hcall hg hn
  subst hg hn
  cases call with
  | encrypt p =>
      rw [h.ready.encrypt] at hcall
      obtain ⟨rfl, rfl⟩ := Prod.mk.inj (Except.ok.inj hcall)
      obtain ⟨hready, hcounted⟩ := h.ready.sent
      apply h.extend hready
      · exact .used h.ready.sendBelow (hcounted.used_earlier h.ready.sendBelow)
      · exact hcounted.other_later h.ready.sendBelow
      · rintro p ⟨⟩
        rfl
      · rintro c p ⟨⟩
  | decrypt c =>
      rw [h.ready.decrypt] at hcall
      split at hcall
      · obtain ⟨rfl, rfl⟩ := Prod.mk.inj (Except.ok.inj hcall)
        apply h.extend h.ready .stayed .stayed
        · rintro p ⟨⟩
        · rintro c p _ ⟨⟩
      · rename_i p hopen
        obtain ⟨rfl, rfl⟩ := Prod.mk.inj (Except.ok.inj hcall)
        obtain ⟨hready, hcounted⟩ := h.ready.received
        apply h.extend hready
        · exact hcounted.other_later h.ready.recvBelow
        · exact .used h.ready.recvBelow (hcounted.used_earlier h.ready.recvBelow)
        · rintro p ⟨⟩
        · rintro c p ⟨⟩ ⟨⟩
          exact hopen
  | rekey =>
      rw [Ready.rekey] at hcall
      obtain ⟨rfl, rfl⟩ := Prod.mk.inj (Except.ok.inj hcall)
      have hnext : ∀ n, Earlier (e.generation, n) ((e.rekeyed X).generation, 0) :=
        fun n => Or.inl (Nat.lt_succ_self _)
      apply h.extend h.ready.toKeyed.rekeyed (.passed (hnext _)) (.passed (hnext _))
      · rintro p ⟨⟩
      · rintro c p ⟨⟩

/-- No call on a ready endpoint aborts. -/
theorem Ready.finishes (h : Ready X ks kr e) (c : TransportCall) :
    ∃ r e', e.call X c = .ok (r, e') := by
  cases c with
  | encrypt p => exact ⟨_, _, h.encrypt p⟩
  | decrypt frame =>
      rw [h.decrypt]
      split
      · exact ⟨_, _, rfl⟩
      · exact ⟨_, _, rfl⟩
  | rekey => exact ⟨_, _, Ready.rekey e⟩

/-- From two freshly keyed ciphers on, whatever calls are made in whatever order, no nonce
is used twice, and no call aborts. -/
theorem no_nonce_reuse
    (run : Run (TransportStep X) (Endpoint.start ks kr) tr e) : TransportLaws X ks kr tr e := by
  have h : Metered X ks kr ([] ++ tr) e :=
    run.history (fun _ _ _ _ h hs => h.step hs) (Metered.start ks kr)
  rw [List.nil_append] at h
  exact ⟨h.encrypted.fresh, h.accepted.fresh, h.sealed, h.opened, h.ready.sendBelow,
    h.ready.recvBelow, h.ready.finishes⟩

/-- A frame, then a rekey. -/
theorem no_nonce_reuse_small : ∃ tr e, tr.length = 2 ∧
    TransportLaws Miniature.external (Miniature.secretKey 1) (Miniature.secretKey 2) tr e :=
  ⟨[⟨.encrypt [7], _, _, _⟩, ⟨.rekey, none, _, _⟩], _, rfl,
    no_nonce_reuse (Run.cons ⟨(Ready.start _ _).encrypt [7], rfl, rfl⟩
      (Run.single ⟨Ready.rekey _, rfl, rfl⟩))⟩

end Runs

end SecurityNoise
