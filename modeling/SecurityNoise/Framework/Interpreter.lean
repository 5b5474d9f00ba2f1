import SecurityNoise.Framework.Symmetric

/-!
# The Noise framework: the handshake interpreter

Section 5.3 of the framework: `Initialize`, `WriteMessage` and `ReadMessage` process
the tokens of a message pattern one by one. A key that a token needs and the party
does not have is an error.
-/

namespace SecurityNoise.Framework

inductive Role
  | initiator
  | responder
  deriving DecidableEq, Repr

/-- The other party's role. -/
def Role.other : Role → Role
  | .initiator => .responder
  | .responder => .initiator

@[simp] theorem Role.other_other (r : Role) : r.other.other = r := by cases r <;> rfl

/-- The tokens of a message pattern. -/
inductive Token
  | e
  | s
  | ee
  | es
  | se
  | ss
  deriving DecidableEq, Repr

/-- Whether a token is a DH. -/
def Token.isDh : Token → Bool
  | .e => false
  | .s => false
  | _ => true

theorem Token.kinds (t : Token) : t = .e ∨ t = .s ∨ t.isDh = true := by
  cases t with
  | e => exact Or.inl rfl
  | s => exact Or.inr (Or.inl rfl)
  | _ => exact Or.inr (Or.inr rfl)

structure KeyPair (Priv : Type) (dhLen : Nat) where
  sk : Priv
  pk : Block dhLen
  deriving DecidableEq

/-- The handshake state: `e`, `rs` and `re` may be empty. -/
structure HandshakeState (Priv : Type) (dhLen hashLen : Nat) where
  sym : SymmetricState hashLen
  s : KeyPair Priv dhLen
  e : Option (KeyPair Priv dhLen)
  rs : Option (Block dhLen)
  re : Option (Block dhLen)
  role : Role

/-- A handshake pattern: the static keys known beforehand, by owner, and the tokens of
each message, the initiator's first. -/
structure Pattern where
  preStatics : List Role
  messages : List (List Token)

/-- `XX`: `-> e`, `<- e, ee, s, es`, `-> s, se`. -/
def Pattern.xx : Pattern := ⟨[], [[.e], [.e, .ee, .s, .es], [.s, .se]]⟩

/-- `IK`: pre-message `<- s`, then `-> e, es, s, ss`, `<- e, ee, se`. -/
def Pattern.ik : Pattern := ⟨[.responder], [[.e, .es, .s, .ss], [.e, .ee, .se]]⟩

variable {Priv : Type} {dhLen hashLen blockLen : Nat}

namespace HandshakeState

/-- The own secret key and the remote public key a DH token combines: `ee = (e, re)`;
`es` and `se` name the initiator's key first; `ss = (s, rs)`. -/
def dhKeys (hs : HandshakeState Priv dhLen hashLen) : Token → Option (Priv × Block dhLen)
  | .ee => do
      let e ← hs.e
      let re ← hs.re
      some (e.sk, re)
  | .es =>
      match hs.role with
      | .initiator => do
          let e ← hs.e
          let rs ← hs.rs
          some (e.sk, rs)
      | .responder => do
          let re ← hs.re
          some (hs.s.sk, re)
  | .se =>
      match hs.role with
      | .initiator => do
          let re ← hs.re
          some (hs.s.sk, re)
      | .responder => do
          let e ← hs.e
          let rs ← hs.rs
          some (e.sk, rs)
  | .ss => do
      let rs ← hs.rs
      some (hs.s.sk, rs)
  | .e => none
  | .s => none

variable (su : Suite Priv dhLen hashLen blockLen)

/-- `MixKey` of the DH a token names. -/
def mixDh (t : Token) : StateT (HandshakeState Priv dhLen hashLen) Option Unit := fun hs => do
  let keys ← hs.dhKeys t
  let z ← su.dh keys.1 keys.2
  some ((), { hs with sym := hs.sym.mixKey su z.toList })

/-- One token of `WriteMessage`; `fresh` is the key pair `GENERATE_KEYPAIR` returns. -/
def writeToken (fresh : KeyPair Priv dhLen) :
    Token → StateT (HandshakeState Priv dhLen hashLen) Option Bytes
  | .e => fun hs => some (fresh.pk.toList,
      { hs with e := some fresh, sym := hs.sym.mixHash su fresh.pk.toList })
  | .s => fun hs => do
      let r ← hs.sym.encryptAndHash su hs.s.pk.toList
      some (r.1, { hs with sym := r.2 })
  | t => do
      mixDh su t
      pure []

def writeTokens (fresh : KeyPair Priv dhLen) :
    List Token → StateT (HandshakeState Priv dhLen hashLen) Option Bytes
  | [] => pure []
  | t :: ts => do
      let b ← writeToken su fresh t
      let bs ← writeTokens fresh ts
      pure (b ++ bs)

def sealPayload (payload : Bytes) :
    StateT (HandshakeState Priv dhLen hashLen) Option Bytes := fun hs => do
  let r ← hs.sym.encryptAndHash su payload
  some (r.1, { hs with sym := r.2 })

/-- `WriteMessage`. -/
def writeMessage (fresh : KeyPair Priv dhLen) (tokens : List Token) (payload : Bytes) :
    StateT (HandshakeState Priv dhLen hashLen) Option Bytes := do
  let b ← writeTokens su fresh tokens
  let c ← sealPayload su payload
  pure (b ++ c)

/-- One token of `ReadMessage`, on the bytes not yet consumed; the value is what it
leaves of them. An encrypted static carries a tag when the cipher has a key. -/
def readToken (rest : Bytes) :
    Token → StateT (HandshakeState Priv dhLen hashLen) Option Bytes
  | .e => fun hs => do
      let re ← spanBlock dhLen rest 0
      some (rest.drop dhLen, { hs with re := some re, sym := hs.sym.mixHash su re.toList })
  | .s => fun hs => do
      let len := dhLen + hs.sym.cipher.overhead
      let b ← span rest 0 len
      let r ← hs.sym.decryptAndHash su b
      let rs ← Block.ofBytes? dhLen r.1
      some (rest.drop len, { hs with rs := some rs, sym := r.2 })
  | t => do
      mixDh su t
      pure rest

def readTokens :
    Bytes → List Token → StateT (HandshakeState Priv dhLen hashLen) Option Bytes
  | rest, [] => pure rest
  | rest, t :: ts => do
      let rest' ← readToken su rest t
      readTokens rest' ts

def openPayload (rest : Bytes) :
    StateT (HandshakeState Priv dhLen hashLen) Option Bytes := fun hs => do
  let r ← hs.sym.decryptAndHash su rest
  some (r.1, { hs with sym := r.2 })

/-- `ReadMessage`. -/
def readMessage (tokens : List Token) (message : Bytes) :
    StateT (HandshakeState Priv dhLen hashLen) Option Bytes := do
  let rest ← readTokens su message tokens
  openPayload su rest

/-- The static public key of a role, as the party knows it. -/
def staticOf (hs : HandshakeState Priv dhLen hashLen) (r : Role) : Option (Block dhLen) :=
  if r = hs.role then some hs.s.pk else hs.rs

/-- `MixHash` of the pre-message keys, in order. -/
def mixPreStatics :
    List Role → HandshakeState Priv dhLen hashLen → Option (HandshakeState Priv dhLen hashLen)
  | [], hs => some hs
  | r :: roles, hs => do
      let pk ← hs.staticOf r
      mixPreStatics roles { hs with sym := hs.sym.mixHash su pk.toList }

/-- `Initialize` for a party with the static key pair `s` that may know `rs`. -/
def start (name prologue : Bytes) (p : Pattern) (role : Role)
    (s : KeyPair Priv dhLen) (rs : Option (Block dhLen)) :
    Option (HandshakeState Priv dhLen hashLen) :=
  mixPreStatics su p.preStatics
    { sym := (SymmetricState.initializeSymmetric su name).mixHash su prologue
      s := s, e := none, rs := rs, re := none, role := role }

section Pieces

variable {su} {fresh : KeyPair Priv dhLen} {r : HandshakeState Priv dhLen hashLen}

theorem writeToken_dh {t : Token} (ht : t.isDh = true) :
    writeToken su fresh t = (mixDh su t >>= fun _ => pure []) := by
  cases t with
  | e => cases ht
  | s => cases ht
  | _ => rfl

theorem readToken_dh {t : Token} (ht : t.isDh = true) (rest : Bytes) :
    readToken su rest t = (mixDh su t >>= fun _ => pure rest) := by
  cases t with
  | e => cases ht
  | s => cases ht
  | _ => rfl

/-- What a DH does once its keys are known. -/
theorem mixDh_of_keys {t : Token} {keys : Priv × Block dhLen} (hk : r.dhKeys t = some keys) :
    (mixDh su t).run r = (su.dh keys.1 keys.2).map
      fun z => ((), { r with sym := r.sym.mixKey su z.toList }) := by
  change (r.dhKeys t).bind _ = _
  rw [hk, Option.bind_some]
  cases hz : su.dh keys.1 keys.2 <;> rfl

end Pieces

end HandshakeState

end SecurityNoise.Framework
