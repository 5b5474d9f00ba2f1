import SecurityNoise.Sequences
import SecurityNoise.Steps
import SecurityNoise.Miniature

/-!
# The pinned key of an IK initiator

An IK initiator is opened with the static key of the peer it wants. The field that holds
it is also where a static key from the wire is stored, and the entry reads whatever
arrives in its first turn as the first message. As long as nothing that long arrives
there, no sequence of calls changes the key.
-/

namespace SecurityNoise

open Framework (Role Token)
open EarlyExit

variable {X : External}

section Reading

variable {m : Bytes}

/-- From `offset` on, the bytes end before the static key the tokens would read. -/
def EndsBeforeStatic (m : Bytes) : Nat → List Token → Prop
  | _, [] => True
  | offset, .s :: _ => m.length < offset + (DH_PUBLIC_KEY_BYTES + AEAD_TAG_BYTES)
  | offset, t :: ts => EndsBeforeStatic m (offset + wireSize t) ts

/-- The peer's static key stays. -/
def KeepsStatic (t t' : Traced) : Prop := t'.hs.rs = t.hs.rs

/-- Bytes that end before a static key end before its last byte. -/
theorem EndsBeforeStatic.length_lt {offset : Nat} {pre post : List Token}
    (hpre : Token.s ∉ pre) (h : EndsBeforeStatic m offset (pre ++ .s :: post)) :
    m.length < offset + (pre.map wireSize).sum + (DH_PUBLIC_KEY_BYTES + AEAD_TAG_BYTES) := by
  induction pre generalizing offset with
  | nil => exact h
  | cons tok pre ih =>
      rw [List.mem_cons, not_or] at hpre
      have hrest : EndsBeforeStatic m (offset + wireSize tok) (pre ++ .s :: post) := by
        cases tok with
        | s => exact absurd rfl hpre.1
        | _ => exact h
      have hlt := ih hpre.2 hrest
      rw [List.map_cons, List.sum_cons]
      omega

/-- No static key opens in them. -/
theorem EndsBeforeStatic.not_opens {hs : HandshakeState} {rs : PublicKey}
    (h : EndsBeforeStatic m 0 (armTokens hs.pattern hs.step)) : ¬ OpensStatic X hs m rs := by
  rintro ⟨pre, post, offset, t, enc, hts, hpoint, hspan, _⟩
  have hpre : Token.s ∉ pre := (armTokens_split hts).2.2.1
  rw [hts] at h
  have hlt := h.length_lt hpre
  have hoffset := (readTokensOp_offset hpoint).1
  have hle := (span_eq_some.mp hspan).1
  omega

end Reading

section Messages

variable {hs : HandshakeState} {r : Option Bytes} {t : Traced}

/-- A `read_message` that ends before a static key keeps the peer's. -/
theorem readMessage_static {m : Bytes}
    (hshort : hs.isComplete = false → EndsBeforeStatic m 0 (armTokens hs.pattern hs.step))
    (h : hs.readMessage X m = .ok (r, t)) : KeepsStatic ⟨hs, []⟩ t := by
  rcases Bool.eq_false_or_eq_true hs.isComplete with hc | hc
  · rw [readMessage_complete hc] at h
    obtain ⟨_, rfl⟩ := Prod.mk.inj (Except.ok.inj h)
    rfl
  · obtain ⟨hrs, _⟩ | ⟨hopens, _⟩ := readMessage_rs h
    · exact hrs
    · exact absurd hopens (hshort hc).not_opens

end Messages

section Sessions

variable {s s' : NoiseSession} {pinned : PublicKey}

/-- Before the first message, what arrives is shorter than an ephemeral key and an
encrypted static key. -/
def ShortAtStart (s : NoiseSession) (l : StepCall × StepReply) : Prop :=
  s.handshake.step = 0 →
    l.1.incoming.length < 2 * DH_PUBLIC_KEY_BYTES + AEAD_TAG_BYTES

/-- An IK session that holds the pinned key. -/
structure Pinned (pinned : PublicKey) (s : NoiseSession) : Prop where
  pattern : s.handshake.pattern = .ik
  rs : s.handshake.rs = pinned

/-- The static key in the first IK message is the only one on the wire. -/
theorem ik_endsBeforeStatic {m : Bytes} {i : Nat}
    (h : i = 0 → m.length < 2 * DH_PUBLIC_KEY_BYTES + AEAD_TAG_BYTES) :
    EndsBeforeStatic m 0 (armTokens .ik i) := by
  match i with
  | 0 => exact h rfl
  | 1 => trivial
  | i + 2 => trivial

theorem writeTurn_pinned {log : List Event} {random : PrivateKey} {alloc : Bool}
    {out : SecureBuffer} {r : StepReply} (h : Pinned pinned s)
    (hw : writeTurn X s log random alloc out = .ok r) : Pinned pinned r.session := by
  obtain ⟨_, rfl⟩ | ⟨_, produced, t, hwrite, hsession, _⟩ := writeTurn_cases hw
  · exact h
  · rw [hsession]
    exact ⟨(writeMessage_moved hwrite).1.pattern.trans h.pattern,
      (writeMessage_rs hwrite).1.trans h.rs⟩

/-- A call that meets the length bound keeps the key. -/
theorem Pinned.step {l : StepCall × StepReply} (h : Pinned pinned s) (hl : ShortAtStart s l)
    (hs : HandshakeStep X s l s') : Pinned pinned s' := by
  obtain ⟨call, r⟩ := l
  obtain ⟨hstep, rfl⟩ := hs
  obtain ⟨_, hr⟩ | ⟨_, hw⟩ | ⟨_, got, t, hread, hrest⟩ := noiseHandshakeStep_cases hstep
  · subst hr
    exact h
  · exact writeTurn_pinned h hw
  · have hkeep : Pinned pinned { s with handshake := t.hs } := by
      refine ⟨(readMessage_moved hread).1.pattern.trans h.pattern, ?_⟩
      refine (readMessage_static ?_ hread).trans h.rs
      intro _
      rw [h.pattern]
      exact ik_endsBeforeStatic hl
    obtain ⟨_, hr⟩ | ⟨_, _, hr⟩ | ⟨_, _, hw⟩ := hrest
    · subst hr
      exact hkeep
    · subst hr
      exact hkeep
    · exact writeTurn_pinned hkeep hw

/-- An IK initiator opens with the key it was given. -/
theorem Pinned.opened {args : OpenArgs} {remote : Block 32} (hopen : Opened X .ik args s)
    (hrole : args.role = .initiator) (hremote : args.remoteStaticPk = some remote)
    (hpk : X.signPkToCurve25519 remote = some pinned) : Pinned pinned s := by
  obtain ⟨keys, rs, hrs, rfl⟩ := hopen.make
  have hpin : pinnedKey X .ik args = .ok (some pinned) := by
    rw [pinnedKey, if_pos ⟨rfl, hrole⟩, hremote]
    simp only [hpk]
  obtain rfl := Except.ok.inj (hrs.symm.trans hpin)
  rw [hrole]
  exact ⟨rfl, rfl⟩

end Sessions

section Impostor

open Miniature

end Impostor

end SecurityNoise
