import SecurityNoise.Erasure
import SecurityNoise.Known
import SecurityNoise.Protection

/-!
# Handshake steps that fail

Nothing is rolled back when a `handshake_step` fails, and nothing marks the session as failed.
An error therefore leaves the session either exactly as it was, or at the point where the call
stopped: after the first field of a rejected message, at a DH of the message it was writing,
or after a message that could not be handed out.
-/

namespace SecurityNoise

open Framework (Role Token)
open EarlyExit

variable {X : External}

section Statement

end Statement

section Messages

variable {hs : HandshakeState} {t t' : Traced}

end Messages

section Sessions

variable {s s' : NoiseSession} {call : StepCall} {r : StepReply}

theorem writeTurn_messages {log : List Event} {random : PrivateKey} {alloc : Bool}
    {out : SecureBuffer} (h : writeTurn X s log random alloc out = .ok r) :
    ∃ tr, Run (MessageStep X) s.handshake tr r.session.handshake := by
  obtain ⟨_, rfl⟩ | ⟨_, produced, t, hw, hsession, _⟩ := writeTurn_cases h
  · exact ⟨[], Run.nil _⟩
  · rw [hsession]
    exact ⟨[⟨s.handshake, .write random [], produced, t⟩], Run.single ⟨rfl, hw, rfl⟩⟩

/-- A `handshake_step` makes message calls on the session's handshake. -/
theorem HandshakeStep.messages {l : StepCall × StepReply} (h : HandshakeStep X s l s') :
    ∃ tr, Run (MessageStep X) s.handshake tr s'.handshake := by
  obtain ⟨call, r⟩ := l
  obtain ⟨hstep, rfl⟩ := h
  obtain ⟨_, hr⟩ | ⟨_, hw⟩ | ⟨_, got, t, hread, hrest⟩ := noiseHandshakeStep_cases hstep
  · simp only at hr
    rw [hr]
    exact ⟨[], Run.nil _⟩
  · exact writeTurn_messages hw
  · have hfirst : Run (MessageStep X) s.handshake
        [⟨s.handshake, .read call.incoming, got, t⟩] t.hs := Run.single ⟨rfl, hread, rfl⟩
    obtain ⟨_, hr⟩ | ⟨_, _, hr⟩ | ⟨_, _, hw⟩ := hrest
    · simp only at hr
      rw [hr]
      exact ⟨_, hfirst⟩
    · simp only at hr
      rw [hr]
      exact ⟨_, hfirst⟩
    · obtain ⟨tr, hlast⟩ := writeTurn_messages hw
      exact ⟨_, hfirst.append hlast⟩

end Sessions

section Concrete

open Miniature

end Concrete

end SecurityNoise
