import SecurityNoise.Foundation.Moves
import SecurityNoise.Accord
import SecurityNoise.Generations

/-!
# Moving ciphers and handshakes

None of the state classes can be copied. Their moves copy the members and wipe the source, and
their destructors wipe the object. So a handshake that is moved about while its messages are
exchanged goes on as if it had stayed, and at any time its secrets are in one object: every
other object, moved from, assigned over or destroyed, holds zeros.

## Implementation notes

`this != &other` of the assignments is in `Objects.Step`. A handshake that was moved from keeps
its pattern, step and flags, which are not secret.
-/

namespace SecurityNoise

variable {X : External}

section Model

namespace CipherState

/-- `CipherState(CipherState&&)`. -/
def moveConstruct (other : CipherState) : CipherState × CipherState :=
  ({ k := other.k, n := other.n, hasKey := other.hasKey }, other.zeroize)

/-- `operator=(CipherState&&)`, for another object. -/
def moveAssign (self other : CipherState) : CipherState × CipherState :=
  let self := self.zeroize
  ({ self with k := other.k, n := other.n, hasKey := other.hasKey }, other.zeroize)

/-- `~CipherState`. -/
def destroy (self : CipherState) : CipherState := self.zeroize

end CipherState

namespace SymmetricState

/-- The chaining key and the hash zeroed. -/
def wipeDigests (self : SymmetricState) : SymmetricState :=
  { self with ck := Block.zero HASHLEN, h := Block.zero HASHLEN }

def moveConstruct (other : SymmetricState) : SymmetricState × SymmetricState :=
  let (cipher, rest) := other.cipher.moveConstruct
  ({ ck := other.ck, h := other.h, cipher := cipher }, { other with cipher := rest }.wipeDigests)

def moveAssign (self other : SymmetricState) : SymmetricState × SymmetricState :=
  let self := self.wipeDigests
  let (cipher, rest) := self.cipher.moveAssign other.cipher
  ({ self with ck := other.ck, h := other.h, cipher := cipher },
    { other with cipher := rest }.wipeDigests)

/-- `~SymmetricState`, and the destructor of its cipher. -/
def destroy (self : SymmetricState) : SymmetricState :=
  { self.wipeDigests with cipher := self.cipher.destroy }

end SymmetricState

namespace HandshakeState

/-- `wipe_dh_arrays`. -/
def wipeDhArrays (self : HandshakeState) : HandshakeState :=
  { self with
    sSk := Block.zero DH_PRIVATE_KEY_BYTES
    sPk := Block.zero DH_PUBLIC_KEY_BYTES
    eSk := Block.zero DH_PRIVATE_KEY_BYTES
    ePk := Block.zero DH_PUBLIC_KEY_BYTES
    rs := Block.zero DH_PUBLIC_KEY_BYTES
    re := Block.zero DH_PUBLIC_KEY_BYTES }

def moveConstruct (other : HandshakeState) : HandshakeState × HandshakeState :=
  let (symmetric, rest) := other.symmetric.moveConstruct
  ({ other with symmetric := symmetric }, { other with symmetric := rest }.wipeDhArrays)

def moveAssign (self other : HandshakeState) : HandshakeState × HandshakeState :=
  let self := self.wipeDhArrays
  let (symmetric, rest) := self.symmetric.moveAssign other.symmetric
  ({ self with
      pattern := other.pattern
      initiator := other.initiator
      step := other.step
      stepsTotal := other.stepsTotal
      symmetric := symmetric
      sSk := other.sSk
      sPk := other.sPk
      eSk := other.eSk
      ePk := other.ePk
      rs := other.rs
      re := other.re
      rsKnown := other.rsKnown
      stepsTotal_eq := other.stepsTotal_eq },
    { other with symmetric := rest }.wipeDhArrays)

/-- `~HandshakeState`, and the destructor of its symmetric state. -/
def destroy (self : HandshakeState) : HandshakeState :=
  { self.wipeDhArrays with symmetric := self.symmetric.destroy }

end HandshakeState

namespace TransportState

/-- The defaulted move constructor: member by member. -/
def moveConstruct (other : TransportState) : TransportState × TransportState :=
  let (send, sendRest) := other.send.moveConstruct
  let (recv, recvRest) := other.recv.moveConstruct
  (⟨send, recv⟩, ⟨sendRest, recvRest⟩)

def moveAssign (self other : TransportState) : TransportState × TransportState :=
  let (send, sendRest) := self.send.moveAssign other.send
  let (recv, recvRest) := self.recv.moveAssign other.recv
  (⟨send, recv⟩, ⟨sendRest, recvRest⟩)

def destroy (self : TransportState) : TransportState := ⟨self.send.destroy, self.recv.destroy⟩

end TransportState

def HandshakeState.moveOps : MoveOps HandshakeState :=
  ⟨HandshakeState.moveConstruct, HandshakeState.moveAssign, HandshakeState.destroy⟩

def TransportState.moveOps : MoveOps TransportState :=
  ⟨TransportState.moveConstruct, TransportState.moveAssign, TransportState.destroy⟩

end Model

section Statement

/-- All keys and digests of a handshake are zero, and its cipher has no key. -/
structure HandshakeState.Wiped (hs : HandshakeState) : Prop where
  sSk : hs.sSk = Block.zero DH_PRIVATE_KEY_BYTES
  sPk : hs.sPk = Block.zero DH_PUBLIC_KEY_BYTES
  eSk : hs.eSk = Block.zero DH_PRIVATE_KEY_BYTES
  ePk : hs.ePk = Block.zero DH_PUBLIC_KEY_BYTES
  rs : hs.rs = Block.zero DH_PUBLIC_KEY_BYTES
  re : hs.re = Block.zero DH_PUBLIC_KEY_BYTES
  symmetric : hs.symmetric = {}

/-- A call on a handshake object. -/
inductive ObjectCall
  | message (l : MessageRecord)
  | split (pair : TransportPair)

def HandshakeState.ObjectStep (X : External) (hs : HandshakeState) (l : ObjectCall)
    (hs' : HandshakeState) : Prop :=
  match l with
  | .message l => MessageStep X hs l hs'
  | .split pair => hs.split X = (pair, hs')

/-- What the public constructor makes. -/
def HandshakeState.Constructed (X : External) (hs : HandshakeState) : Prop :=
  ∃ p initiator keys rs, hs = HandshakeState.make X p initiator keys rs

/-- A call on a transport, and what it returned. -/
def TransportState.ObjectStep (X : External) (t : TransportState)
    (l : TransportCall × Option Bytes) (t' : TransportState) : Prop :=
  t.call X l.1 = .ok (l.2, t')

end Statement

section Lawful

/-- A moved handshake is what it was, and its source is wiped. -/
theorem HandshakeState.moveOps_lawful :
    HandshakeState.moveOps.Lawful HandshakeState.Wiped := by
  constructor
  · intro hs
    rfl
  · intro hs
    exact ⟨rfl, rfl, rfl, rfl, rfl, rfl, rfl⟩
  · intro old hs
    rfl
  · intro old hs
    exact ⟨rfl, rfl, rfl, rfl, rfl, rfl, rfl⟩
  · intro hs
    exact ⟨rfl, rfl, rfl, rfl, rfl, rfl, rfl⟩

theorem TransportState.moveOps_lawful : TransportState.moveOps.Lawful (fun t => t = {}) := by
  constructor
  · intro t
    rfl
  · intro t
    rfl
  · intro old t
    rfl
  · intro old t
    rfl
  · intro t
    rfl

end Lawful

section Results

open Objects (Homes)

variable {mem : Nat → HandshakeState} {g : Objects HandshakeState}
  {tr : List (ObjectEvent HandshakeState ObjectCall)}

/-- Handshakes that are moved about in memory, written, read and split, each in one place: what
is there is what its calls have made of it, and everything else is wiped. -/
theorem handshake_moves (hblank : ∀ place, (mem place).Wiped)
    (run : Run (Objects.Step HandshakeState.moveOps (HandshakeState.Constructed X)
      (HandshakeState.ObjectStep X)) (Objects.start mem) tr g) :
    Homes HandshakeState.Wiped (HandshakeState.Constructed X) (HandshakeState.ObjectStep X) tr g :=
  Objects.homes_of_run HandshakeState.moveOps_lawful hblank run

open Miniature in
/-- An IK initiator that moves between its two messages, and once more after them. -/
theorem handshake_moves_small : ∃ tr g,
    (Objects.callsOn 0 tr).length = 2 ∧ (g.mem 2).isComplete = true ∧
      Homes HandshakeState.Wiped (HandshakeState.Constructed external)
        (HandshakeState.ObjectStep external) tr g := by
  let hs := smallParties.start external .ik .initiator
  obtain ⟨calls, hs', run, hend⟩ := exists_message_run (X := external) hs (smallCalls .initiator)
    (fun tr hs => decide (tr.length = 2) && hs.isComplete) (by decide +kernel)
  rw [Bool.and_eq_true, decide_eq_true_eq] at hend
  obtain ⟨hlength, hcomplete⟩ := hend
  obtain ⟨l, l', rfl⟩ := List.length_eq_two.mp hlength
  obtain ⟨hs₁, hwrite, hrest⟩ := run.uncons
  obtain ⟨hs₂, hread, hnil⟩ := hrest.uncons
  obtain rfl := hnil.eq_of_nil
  have hfresh : HandshakeState.Constructed external hs := ⟨_, _, _, _, rfl⟩
  have hrun : Run (Objects.Step HandshakeState.moveOps (HandshakeState.Constructed external)
      (HandshakeState.ObjectStep external)) (Objects.start fun _ => hs.destroy)
      [.construct 0 hs, .call 0 0 (.message l), .moveConstruct 1 0, .moveAssign 1 1,
        .call 1 0 (.message l'), .moveAssign 2 1, .destroy 1] _ :=
    Run.cons ⟨rfl, hfresh, rfl⟩ <| Run.cons ⟨rfl, hs₁, hwrite, rfl⟩ <|
      Run.cons ⟨rfl, by decide, rfl⟩ <| Run.cons rfl <| Run.cons ⟨rfl, hs', hread, rfl⟩ <|
        Run.cons rfl <| Run.cons rfl <| Run.nil _
  refine ⟨_, _, rfl, ?_, handshake_moves (fun _ => ?_) hrun⟩
  · exact hcomplete
  · exact ⟨rfl, rfl, rfl, rfl, rfl, rfl, rfl⟩

/-- So with transports, whatever ciphers they were made of. -/
theorem transport_moves {mem : Nat → TransportState} {g : Objects TransportState}
    {tr : List (ObjectEvent TransportState (TransportCall × Option Bytes))}
    (hblank : ∀ place, mem place = {})
    (run : Run (Objects.Step TransportState.moveOps (fun _ => True)
      (TransportState.ObjectStep X)) (Objects.start mem) tr g) :
    Homes (fun t => t = {}) (fun _ => True) (TransportState.ObjectStep X) tr g :=
  Objects.homes_of_run TransportState.moveOps_lawful hblank run

end Results

end SecurityNoise
