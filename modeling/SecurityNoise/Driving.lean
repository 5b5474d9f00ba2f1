import SecurityNoise.Agreement
import SecurityNoise.Sequences
import SecurityNoise.Turns

/-!
# Driving two sessions

An initiator's and a responder's session, driven by `handshake_step`: emitted messages travel
to the other session and are delivered in order, once each, and in between any session that is
not complete may be called without incoming bytes. Every call succeeds, whatever the schedule,
and the last delivery leaves both sides complete and agreed.

## Implementation notes

The invariant names the message in flight and the reading that awaits it. Which random bytes a
message is made of is known when a call emits it, so the parties' draws are fixed one message
at a time.
-/

namespace SecurityNoise

open Framework (Role Token)

variable {X : External}

section Model

/-- Two sessions and the messages on their way to each. -/
structure Link where
  session : Role → NoiseSession
  inbox : Role → List Bytes

/-- A call of `handshake_step` on a role's session, with memory to allocate from: with the next
message on its way or without incoming bytes, the random bytes it would draw and what the out
argument held. -/
structure DriveCall where
  role : Role
  delivers : Bool
  random : PrivateKey
  out : SecureBuffer := {}

namespace Link

variable (c : Link) (call : DriveCall)

/-- Messages on their way may be delivered; sessions that are not complete may be called. -/
def Allows : Prop :=
  if call.delivers then c.inbox call.role ≠ []
  else (c.session call.role).handshake.isComplete = false

def incoming : Bytes := if call.delivers then (c.inbox call.role).headD [] else []

def perform (X : External) : Except Fatal StepReply :=
  noiseHandshakeStep X (c.session call.role) (c.incoming call) call.random true (some call.out)

/-- The messages on their way once the call has taken its own. -/
def pending (role : Role) : List Bytes :=
  if call.delivers ∧ role = call.role then (c.inbox role).tail else c.inbox role

/-- After a call what it emitted is on its way to the other session. -/
def after (r : StepReply) : Link where
  session := Function.update c.session call.role r.session
  inbox role :=
    if role = call.role.other then c.pending call role ++ r.emitted.toList
    else c.pending call role

/-- After `sent` messages the role has one to write: all of them were delivered, and the next
one is its own. -/
def Due (p : Pattern) (sent : Nat) (role : Role) : Prop :=
  sent < patternTotalSteps p ∧ role = writerOf sent ∧ ∀ role, c.inbox role = []

@[simp] theorem after_session (r : StepReply) :
    (c.after call r).session = Function.update c.session call.role r.session := rfl

theorem after_inbox (r : StepReply) (role : Role) : (c.after call r).inbox role =
    if role = call.role.other then c.pending call role ++ r.emitted.toList
    else c.pending call role := rfl

/-- Two sessions before their first call. -/
def start (s : Role → NoiseSession) : Link := ⟨s, fun _ => []⟩

end Link

/-- The steps of a schedule: a call and its reply. -/
def DriveStep (X : External) (c : Link) (l : DriveCall × StepReply) (c' : Link) : Prop :=
  c.Allows l.1 ∧ c.perform l.1 X = .ok l.2 ∧ c' = c.after l.1 l.2

/-- The roles whose calls emitted a message, in order. -/
def emitters (tr : List (DriveCall × StepReply)) : List Role :=
  (tr.filter fun l => l.2.emitted.isSome).map fun l => l.1.role

/-- Two sessions of opposite roles opened on the two ends of a connection: each converted key
pair is consistent, and an IK initiator got the responder's Ed25519 public key. -/
structure OpenedPair (X : External) (p : Pattern) (args : Role → OpenArgs)
    (s : Role → NoiseSession) : Prop where
  opened : ∀ role, Opened X p (args role) (s role)
  side : ∀ role, (args role).role.side = role
  remote : p = .ik → (args .initiator).remoteStaticPk = (args .responder).localStaticPk
  consistent : ∀ role edSk edPk keys, (args role).localStaticSk = some edSk →
    (args role).localStaticPk = some edPk → ed25519ToX25519 X edSk edPk = some keys →
    keys.pk = X.scalarmultBase keys.sk

/-- Both sessions are complete, and their exports fit together. -/
structure ExportsCross (X : External) (s : Role → NoiseSession) : Prop where
  complete : ∀ role, (s role).handshake.isComplete = true
  exports : ∀ out : Role → HandshakeKeys, ∃ keys : Role → HandshakeKeys,
    (∀ role, ∃ s', noiseExportTransportKeys X (s role) (some (out role)) =
      (.ok, some (keys role), s')) ∧
    (∀ role, (keys role).sendCipherKey = (keys role.other).recvCipherKey) ∧
    (keys .initiator).handshakeHash = (keys .responder).handshakeHash ∧
    ∀ role, (keys role).initialSendNonce = 0 ∧ (keys role).initialRecvNonce = 0

/-- What holds after any schedule. -/
structure Driven (X : External) (p : Pattern) (tr : List (DriveCall × StepReply)) (c : Link) :
    Prop where
  /-- Every call returns `GN_OK`, and so does any call that may come next. -/
  codes : ∀ l ∈ tr, l.2.code = .ok
  returns : ∀ call, c.Allows call → ∃ r, c.perform call X = .ok r ∧ r.code = .ok
  inFlight : (c.inbox .initiator).length + (c.inbox .responder).length ≤ 1
  /-- The messages are the pattern's, each from the role that writes it. -/
  alternate : emitters tr = (List.range (emitters tr).length).map writerOf
  total : (emitters tr).length ≤ patternTotalSteps p
  /-- A call without incoming bytes does nothing unless a message is due. -/
  idle : ∀ call r, call.delivers = false → c.Allows call →
    ¬ c.Due p (emitters tr).length call.role → c.perform call X = .ok r →
    r.emitted = none ∧ r.session = c.session call.role
  finished : (∃ l ∈ tr, l.1.role = .initiator) → (∀ role, c.inbox role = []) →
    (emitters tr).length = patternTotalSteps p ∧ ExportsCross X c.session

end Model

section Start

variable {p : Pattern} {args : Role → OpenArgs} {s : Role → NoiseSession}

/-- What `handshake_open` returns on both ends are the constructors' states, on the converted
keys. -/
theorem OpenedPair.parties (h : OpenedPair X p args s) : ∃ P : Parties, P.Consistent X ∧
    ∀ role, (s role).handshake = P.start X p role ∧ (s role).role.side = role ∧
      (s role).splitDone = false ∧ ∃ edPk, (args role).localStaticPk = some edPk ∧
        X.signPkToCurve25519 edPk = some (P.static role).pk := by
  choose edSk edPk keys rs hsk hpk hkeys hrs hs using fun role => (h.opened role).keys
  have hconvert : ∀ role, X.signPkToCurve25519 (edPk role) = some (keys role).pk := by
    intro role
    have hboth := hkeys role
    unfold ed25519ToX25519 at hboth
    split at hboth
    · cases hboth
    · split at hboth
      · cases hboth
      · rename_i pk hconv
        rw [← Option.some.inj hboth]
        exact hconv
  have hside : ∀ role, (args role).role = .initiator ↔ role = .initiator := by
    intro role
    have hrole := h.side role
    cases hr : (args role).role <;> rw [hr] at hrole <;> rw [← hrole] <;> decide
  -- the pinned key is the responder's, converted alike
  have hpinned : ∀ role, rs role =
      if p = .ik ∧ role = .initiator then some (keys .responder).pk else none := by
    intro role
    have hpin := hrs role
    unfold pinnedKey at hpin
    by_cases hik : p = .ik ∧ role = .initiator
    · obtain ⟨rfl, rfl⟩ := hik
      have hinit := (hside .initiator).mpr rfl
      rw [if_pos ⟨rfl, hinit⟩, h.remote rfl, hpk .responder] at hpin
      simp only [hconvert .responder, Except.ok.injEq] at hpin
      rw [if_pos ⟨rfl, rfl⟩, ← hpin]
    · have hnot : ¬ (p = .ik ∧ (args role).role = .initiator) := by rwa [hside role]
      rw [if_neg hnot] at hpin
      rw [if_neg hik]
      exact (Except.ok.inj hpin).symm
  refine ⟨⟨keys, fun _ => Block.zero _⟩, ?_, ?_⟩
  · intro role
    exact h.consistent role _ _ _ (hsk role) (hpk role) (hkeys role)
  · intro role
    refine ⟨?_, ?_, ?_, edPk role, hpk role, hconvert role⟩
    · rw [hs role, hpinned role]
      simp only [NoiseSession.make, Parties.start, hside role]
    · rw [hs role]
      simp only [NoiseSession.make, hside role]
      cases role <;> rfl
    · rw [hs role]
      rfl

/-- On consistent keys the DHs of both patterns succeed, whatever is drawn. -/
theorem Parties.dhSucceeds {P : Parties} (hkeys : P.Consistent X) (hdh : X.DhHonest)
    (p : Pattern) : P.DhSucceeds X p := by
  intro i _ t _ _
  have hr := hkeys .responder
  cases t <;>
    simp only [Keyset.secret, sharedSecret, dhOperands, Parties.keyset, Role.other, hr] <;>
    exact hdh _ _

end Start

section Draws

variable {p : Pattern} {P : Parties} {i : Nat} {hs : Role → HandshakeState}
  {ref : Role → Reference}

theorem writerOf_succ (i : Nat) : writerOf (i + 1) = readerOf i := by
  unfold readerOf writerOf
  by_cases h : i % 2 = 0
  · rw [if_pos h, if_neg (by omega)]
    rfl
  · rw [if_neg h, if_pos (by omega)]
    rfl

theorem readerOf_succ (i : Nat) : readerOf (i + 1) = writerOf i := by
  rw [readerOf, writerOf_succ, readerOf, Role.other_other]

theorem readerOf_ne (i : Nat) : readerOf i ≠ writerOf i := by
  rw [readerOf]
  cases writerOf i <;> decide

/-- A key is in place only after the message it is drawn for. -/
theorem ephemeralMessage_lt {role : Role} (hi : i ≤ patternTotalSteps p)
    (he : (knowsAt p role i).e = true) : ephemeralMessage role < i := by
  have hle := patternTotalSteps_le p
  have hcases : i = 0 ∨ i = 1 ∨ i = 2 ∨ i = 3 := by omega
  rcases hcases with rfl | rfl | rfl | rfl <;> cases p <;> cases role <;> revert he <;> decide

/-- What is drawn for a message does not concern the parties before it. -/
theorem Joint.redraw (h : Joint X P p i hs ref) (hi : i ≤ patternTotalSteps p)
    (random : PrivateKey) :
    Joint X { P with drawn := Function.update P.drawn i random } p i hs ref where
  follows := h.follows
  s := h.s
  e role := by
    rw [h.e role]
    by_cases he : (knowsAt p role i).e = true
    · have hne : ephemeralMessage role ≠ i := Nat.ne_of_lt (ephemeralMessage_lt hi he)
      rw [if_pos he, if_pos he]
      simp only [Parties.keyset, Function.update_of_ne hne]
    · rw [if_neg he, if_neg he]
  paired := h.paired

theorem Joint.congr (h : Joint X P p i hs ref) {hs' : Role → HandshakeState}
    (heq : ∀ role, hs' role = hs role) : Joint X P p i hs' ref := by
  rw [funext heq]
  exact h

/-- An accepted message is not empty. -/
theorem readMessage_nonempty {h : HandshakeState} {m plain : Bytes} {t : Traced}
    (hread : h.readMessage X m = .ok (some plain, t)) : m ≠ [] := by
  obtain ⟨hc, offset, t₁, _, hpoint, hle, _⟩ := readMessage_payload hread
  have hoffset := (readTokensOp_offset hpoint).1
  have hpos : ∀ {p : Pattern} {i : Nat}, i < patternTotalSteps p →
      0 < ((armTokens p i).map wireSize).sum := by
    intro p i hi
    obtain ⟨rfl, rfl⟩ | ⟨rfl, rfl⟩ | ⟨rfl, rfl⟩ | ⟨rfl, rfl⟩ | ⟨rfl, rfl⟩ := message_cases hi <;>
      decide
  have hsum := hpos (step_lt hc)
  rintro rfl
  rw [List.length_nil] at hle
  omega

end Draws

section Progress

variable {p : Pattern} {c : Link} {n : Nat}

/-- Where the sessions are in the handshake after `n` messages: all of them were delivered and
the handshake has not begun or is over, or the last one is on its way, will be read, and then
the parties will be joint. -/
inductive Stage (X : External) (p : Pattern) (static : Role → Keypair) (c : Link) : Nat → Prop
  | rest {i : Nat} {P : Parties} {ref : Role → Reference} (keys : P.static = static)
      (joint : Joint X P p i (fun role => (c.session role).handshake) ref)
      (empty : ∀ role, c.inbox role = []) (ends : i = 0 ∨ i = patternTotalSteps p) :
      Stage X p static c i
  | flight {i : Nat} {P : Parties} {ref : Role → Reference} {m : Bytes} {t : Traced}
      (keys : P.static = static) (lt : i < patternTotalSteps p)
      (step : (c.session (readerOf i)).handshake.step = i)
      (read : (c.session (readerOf i)).handshake.readMessage X m = .ok (some [], t))
      (joint : Joint X P p (i + 1) (byTurn i (c.session (writerOf i)).handshake t.hs) ref)
      (inbox : ∀ role, c.inbox role = byTurn i [] [m] role) : Stage X p static c (i + 1)

/-- At most one message is in flight, and no more are emitted than the pattern has. -/
theorem Stage.bounds {static : Role → Keypair} (h : Stage X p static c n) :
    (c.inbox .initiator).length + (c.inbox .responder).length ≤ 1 ∧ n ≤ patternTotalSteps p := by
  cases h with
  | rest keys joint empty ends =>
      rw [empty, empty]
      exact ⟨Nat.zero_le _, by omega⟩
  | @flight i P ref m t keys lt step read joint inbox =>
      rw [inbox, inbox]
      refine ⟨?_, lt⟩
      unfold byTurn
      cases writerOf i <;> exact Nat.le_refl _

/-- Where both sessions are complete, the parties have agreed. -/
theorem Stage.agreed {static : Role → Keypair} (h : Stage X p static c n)
    (hdone : ∀ role, (c.session role).handshake.isComplete = true) :
    ∃ P : Parties, P.static = static ∧ Agreed X P fun role => (c.session role).handshake := by
  cases h with
  | rest keys joint empty ends =>
      have hlast : n = patternTotalSteps p := by
        refine ends.resolve_left fun hzero => ?_
        have hlt : n < patternTotalSteps p := by
          rw [hzero]
          cases p <;> decide
        have hopen := (joint.follows .initiator).not_complete hlt
        rw [hdone] at hopen
        cases hopen
      subst hlast
      exact ⟨_, keys, joint.agreed⟩
  | flight keys lt step read joint inbox =>
      obtain ⟨hopen, _⟩ := readMessage_payload read
      rw [hdone] at hopen
      cases hopen

/-- What an allowed call does after `n` messages: it emits the next one, or it is silent,
because it read the last one or because nothing was due. -/
inductive Outcome (X : External) (p : Pattern) (static : Role → Keypair) (c : Link) (n : Nat)
    (call : DriveCall) (r : StepReply) : Prop
  | silent (emitted : r.emitted = none)
      (idle : call.delivers = false → r.session = c.session call.role)
      (first : n = 0 → call.role ≠ .initiator)
      (stage : Stage X p static (c.after call r) n)
  | emits (emitted : r.emitted.isSome = true) (writer : call.role = writerOf n)
      (lt : n < patternTotalSteps p)
      (due : call.delivers = false → ∀ role, c.inbox role = [])
      (stage : Stage X p static (c.after call r) (n + 1))

/-- A wake-up out of turn does nothing. -/
theorem quiet {call : DriveCall} (hwake : call.delivers = false)
    (hturn : (c.session call.role).writerTurn = false) :
    c.perform call X = .ok ⟨.ok, some {}, c.session call.role, []⟩ ∧
      c.after call ⟨.ok, some {}, c.session call.role, []⟩ = c := by
  constructor
  · unfold Link.perform Link.incoming
    rw [if_neg (by rw [hwake]; decide)]
    have hwrite : writeTurn X (c.session call.role) [] call.random true {} =
        .ok ⟨.ok, some {}, c.session call.role, []⟩ := by
      rw [writeTurn, hturn]
      rfl
    exact hwrite
  · unfold Link.after
    rw [Function.update_eq_self]
    have hinbox : ∀ role, (if role = call.role.other then c.pending call role ++ []
        else c.pending call role) = c.inbox role := by
      intro role
      rw [List.append_nil, ite_self, Link.pending, if_neg]
      rintro ⟨hd, _⟩
      rw [hwake] at hd
      cases hd
    exact congrArg (Link.mk c.session) (funext hinbox)

/-- Only the reader has a message to take, and once it has nothing is on its way. -/
theorem flight_delivered {i : Nat} {m : Bytes} {call : DriveCall}
    (hinbox : ∀ role, c.inbox role = byTurn i [] [m] role) (hdelivers : call.delivers = true)
    (hmail : c.inbox call.role ≠ []) :
    call.role = readerOf i ∧ c.incoming call = m ∧ ∀ role, c.pending call role = [] := by
  have hrole : call.role = readerOf i := by
    obtain hw | hr := writer_or_reader i call.role
    · rw [hinbox, hw, byTurn_writer] at hmail
      exact absurd rfl hmail
    · exact hr
  refine ⟨hrole, ?_, ?_⟩
  · rw [Link.incoming, if_pos hdelivers, hinbox, hrole, byTurn_reader]
    rfl
  · intro role
    unfold Link.pending
    rw [hinbox, hrole]
    obtain rfl | rfl := writer_or_reader i role
    · rw [if_neg fun hboth => readerOf_ne i hboth.2.symm, byTurn_writer]
    · rw [if_pos ⟨hdelivers, rfl⟩, byTurn_reader]
      rfl

/-- A session that reads what it was called with writes next, unless its handshake is over. -/
theorem perform_read {call : DriveCall} {m plain : Bytes} {t : Traced}
    (hincoming : c.incoming call = m)
    (hread : (c.session call.role).handshake.readMessage X m = .ok (some plain, t)) :
    c.perform call X = if t.hs.isComplete then
      .ok ⟨.ok, some {}, { c.session call.role with handshake := t.hs }, t.log⟩
      else writeTurn X { c.session call.role with handshake := t.hs } t.log call.random true
        {} := by
  have hlen : 0 < m.length := List.length_pos_iff.mpr (readMessage_nonempty hread)
  rw [Link.perform, hincoming, noiseHandshakeStep]
  simp only [hread, if_pos hlen]

variable (hdh : X.DhCommutes) (hhonest : X.DhHonest) (haead : X.AeadRoundTrip)

include hdh hhonest haead

/-- A joint party whose turn it is emits its message, which then is in flight. -/
theorem Stage.emission {call : DriveCall} {P : Parties} {hs : Role → HandshakeState}
    {ref : Role → Reference} {s : NoiseSession} (hkeys : P.Consistent X)
    (h : Joint X P p n hs ref) (hn : n < patternTotalSteps p) (hrole : call.role = writerOf n)
    (hwriter : s.handshake = hs (writerOf n)) (hside : s.role.side = writerOf n)
    (hreader : (c.session (readerOf n)).handshake = hs (readerOf n))
    (hpending : ∀ role, c.pending call role = []) (log : List Event) :
    ∃ r, writeTurn X s log call.random true {} = .ok r ∧ r.code = .ok ∧
      r.emitted.isSome = true ∧ Stage X p P.static (c.after call r) (n + 1) := by
  have hturn : s.writerTurn = true := by
    rw [writerTurn_iff, hside, hwriter, (h.follows (writerOf n)).step]
  have hkeys' : Parties.Consistent { P with drawn := Function.update P.drawn n call.random } X :=
    hkeys
  obtain ⟨m, t, t', ref', hwrite, hread, hjoint⟩ :=
    (h.redraw (Nat.le_of_lt hn) call.random).exchange hdh haead hkeys'
      (Parties.dhSucceeds hkeys' hhonest p) hn []
  simp only [Function.update_self] at hwrite
  obtain ⟨r, hrun, hcode, hemitted, hsession⟩ : ∃ r, writeTurn X s log call.random true {} = .ok r ∧
      r.code = .ok ∧ r.emitted = some m ∧ r.session = { s with handshake := t.hs } := by
    refine ⟨⟨(emitBuffer true m (some {})).1, (emitBuffer true m (some {})).2,
      { s with handshake := t.hs }, log ++ t.log⟩, ?_, ?_, ?_, rfl⟩
    · rw [writeTurn, hturn, hwriter, hwrite]
      rfl
    · exact code_of_alloc rfl
    · exact emitted_of_ok rfl (readMessage_nonempty hread) (code_of_alloc rfl)
  refine ⟨r, hrun, hcode, by rw [hemitted]; rfl, ?_⟩
  have hkeep : (c.after call r).session (readerOf n) = c.session (readerOf n) :=
    Function.update_of_ne (hrole ▸ readerOf_ne n) _ _
  have hmove : ((c.after call r).session (writerOf n)).handshake = t.hs := by
    rw [← hrole, Link.after_session, Function.update_self, hsession]
  have hstep : ((c.after call r).session (readerOf n)).handshake.step = n := by
    rw [hkeep, hreader]
    exact (h.follows (readerOf n)).step
  have hread' : ((c.after call r).session (readerOf n)).handshake.readMessage X m =
      .ok (some [], t') := by
    rw [hkeep, hreader]
    exact hread
  rw [← hmove] at hjoint
  have hinbox : ∀ role, (c.after call r).inbox role = byTurn n [] [m] role := by
    intro role
    have hother : call.role.other = readerOf n := congrArg Role.other hrole
    rw [Link.after_inbox, hother, hpending]
    obtain rfl | rfl := writer_or_reader n role
    · rw [byTurn_writer, if_neg (readerOf_ne n).symm]
    · rw [byTurn_reader, if_pos rfl, hemitted]
      rfl
  exact Stage.flight (P := { P with drawn := Function.update P.drawn n call.random }) rfl hn hstep
    hread' hjoint hinbox

/-- A delivery succeeds from every stage: it reads the message in flight and emits the next
one, unless that was the last. -/
theorem Stage.delivered {static : Role → Keypair} (h : Stage X p static c n)
    (hkeys : ∀ role, (static role).pk = X.scalarmultBase (static role).sk)
    (hside : ∀ role, (c.session role).role.side = role) {call : DriveCall}
    (hdelivers : call.delivers = true) (hmail : c.inbox call.role ≠ []) :
    ∃ r, c.perform call X = .ok r ∧ r.code = .ok ∧ Outcome X p static c n call r := by
  have hnot : call.delivers ≠ false := by
    rw [hdelivers]
    decide
  cases h with
  | rest keys joint empty ends => exact absurd (empty _) hmail
  | @flight i P ref m t keys lt step read joint inbox =>
      subst keys
      obtain ⟨hrole, hincoming, hpending⟩ := flight_delivered inbox hdelivers hmail
      rw [← hrole] at read
      have hperform := perform_read hincoming read
      by_cases hlast : i + 1 = patternTotalSteps p
      · have hdone : t.hs.isComplete = true := by
          rw [hlast] at joint
          have hcomplete := joint.agreed.complete (readerOf i)
          rwa [byTurn_reader] at hcomplete
        rw [hperform, if_pos hdone]
        refine ⟨_, rfl, rfl, Outcome.silent rfl (fun hwake => absurd hwake hnot) ?_ ?_⟩
        · exact fun hzero => absurd hzero (by omega)
        refine Stage.rest (P := P) rfl (joint.congr ?_) ?_ (Or.inr hlast)
        · intro role
          simp only [Link.after_session, hrole]
          obtain rfl | rfl := writer_or_reader i role
          · rw [byTurn_writer, Function.update_of_ne (readerOf_ne i).symm]
          · rw [byTurn_reader, Function.update_self]
        · intro role
          rw [Link.after_inbox, hpending]
          exact ite_self _
      · have hopen : t.hs.isComplete = false := by
          have hnext := (joint.follows (readerOf i)).not_complete (by omega)
          rwa [byTurn_reader] at hnext
        have hwriter : t.hs =
            byTurn i (c.session (writerOf i)).handshake t.hs (writerOf (i + 1)) := by
          rw [writerOf_succ, byTurn_reader]
        have hreader : (c.session (readerOf (i + 1))).handshake =
            byTurn i (c.session (writerOf i)).handshake t.hs (readerOf (i + 1)) := by
          rw [readerOf_succ, byTurn_writer]
        have hnext : call.role = writerOf (i + 1) := by rw [hrole, writerOf_succ]
        obtain ⟨r, hrun, hcode, hemitted, hstage⟩ :=
          Stage.emission (s := { c.session call.role with handshake := t.hs }) hdh hhonest haead
            hkeys joint (by omega) hnext hwriter ((hside _).trans hnext) hreader hpending t.log
        rw [hperform, if_neg (by rw [hopen]; decide)]
        exact ⟨r, hrun, hcode,
          Outcome.emits hemitted hnext (by omega) (fun hwake => absurd hwake hnot) hstage⟩

/-- So does a call without incoming bytes: before the first message the initiator emits it,
otherwise nothing happens. -/
theorem Stage.woken {static : Role → Keypair} (h : Stage X p static c n)
    (hkeys : ∀ role, (static role).pk = X.scalarmultBase (static role).sk)
    (hside : ∀ role, (c.session role).role.side = role) {call : DriveCall}
    (hwake : call.delivers = false) (hopen : (c.session call.role).handshake.isComplete = false) :
    ∃ r, c.perform call X = .ok r ∧ r.code = .ok ∧ Outcome X p static c n call r := by
  have hidle : ∀ i, (c.session call.role).handshake.step = i → call.role ≠ writerOf i →
      (n = 0 → call.role ≠ .initiator) →
      ∃ r, c.perform call X = .ok r ∧ r.code = .ok ∧ Outcome X p static c n call r := by
    intro i hstep hne hfirst
    have hturn : (c.session call.role).writerTurn = false := by
      rw [Bool.eq_false_iff, ne_eq, writerTurn_iff, hside, hstep]
      exact hne
    obtain ⟨hrun, hafter⟩ := quiet (X := X) hwake hturn
    refine ⟨_, hrun, rfl, Outcome.silent rfl (fun _ => rfl) hfirst ?_⟩
    rwa [hafter]
  cases h with
  | rest keys joint empty ends =>
      subst keys
      obtain rfl : n = 0 := by
        refine ends.resolve_right fun hlast => ?_
        subst hlast
        have hcomplete := joint.agreed.complete call.role
        rw [hopen] at hcomplete
        cases hcomplete
      obtain hfirst | hsecond := writer_or_reader 0 call.role
      · have hpending : ∀ role, c.pending call role = [] := by
          intro role
          rw [Link.pending, empty, List.tail_nil]
          exact ite_self _
        have hperform : c.perform call X =
            writeTurn X (c.session call.role) [] call.random true {} := by
          rw [Link.perform, Link.incoming, if_neg (by rw [hwake]; decide)]
          rfl
        have hstate : (c.session call.role).handshake = (c.session (writerOf 0)).handshake := by
          rw [hfirst]
        have hpositive : 0 < patternTotalSteps p := by cases p <;> decide
        obtain ⟨r, hrun, hcode, hemitted, hnext⟩ :=
          Stage.emission hdh hhonest haead hkeys joint hpositive hfirst hstate
            ((hside _).trans hfirst) rfl hpending []
        rw [hperform]
        exact ⟨r, hrun, hcode, Outcome.emits hemitted hfirst hpositive (fun _ => empty) hnext⟩
      · refine hidle 0 (joint.follows call.role).step ?_ ?_
        · rw [hsecond]
          exact readerOf_ne 0
        · rw [hsecond]
          exact fun _ => readerOf_ne 0
  | @flight i P ref m t keys lt step read joint inbox =>
      have hlater : i + 1 = 0 → call.role ≠ .initiator := fun hzero => absurd hzero (by omega)
      obtain hw | hr := writer_or_reader i call.role
      · have hstep := (joint.follows (writerOf i)).step
        rw [byTurn_writer, ← hw] at hstep
        refine hidle (i + 1) hstep ?_ hlater
        rw [hw, writerOf_succ]
        exact (readerOf_ne i).symm
      · refine hidle i (by rw [hr, step]) ?_ hlater
        rw [hr]
        exact readerOf_ne i

/-- From every stage every allowed call succeeds. -/
theorem Stage.progress {static : Role → Keypair} (h : Stage X p static c n)
    (hkeys : ∀ role, (static role).pk = X.scalarmultBase (static role).sk)
    (hside : ∀ role, (c.session role).role.side = role) {call : DriveCall}
    (hallow : c.Allows call) :
    ∃ r, c.perform call X = .ok r ∧ r.code = .ok ∧ Outcome X p static c n call r := by
  unfold Link.Allows at hallow
  rcases Bool.eq_false_or_eq_true call.delivers with hdelivers | hwake
  · rw [if_pos hdelivers] at hallow
    exact h.delivered hdh hhonest haead hkeys hside hdelivers hallow
  · rw [if_neg (by rw [hwake]; decide)] at hallow
    exact h.woken hdh hhonest haead hkeys hside hwake hallow

end Progress

section Runs

variable {p : Pattern} {static : Role → Keypair} {tr : List (DriveCall × StepReply)}
  {c c' : Link} {l : DriveCall × StepReply}

theorem emitters_snoc (tr : List (DriveCall × StepReply)) (l : DriveCall × StepReply) :
    emitters (tr ++ [l]) = emitters tr ++ if l.2.emitted.isSome then [l.1.role] else [] := by
  unfold emitters
  rw [List.filter_append, List.map_append]
  by_cases h : l.2.emitted.isSome = true <;> simp [h]

/-- The invariant of a schedule: the stage is the number of messages emitted so far. -/
structure Driving (X : External) (p : Pattern) (static : Role → Keypair)
    (tr : List (DriveCall × StepReply)) (c : Link) : Prop where
  stage : Stage X p static c (emitters tr).length
  side : ∀ role, (c.session role).role.side = role
  unsplit : ∀ role, (c.session role).splitDone = false
  codes : ∀ l ∈ tr, l.2.code = .ok
  alternate : emitters tr = (List.range (emitters tr).length).map writerOf
  uncalled : emitters tr = [] → ∀ l ∈ tr, l.1.role ≠ .initiator

theorem Driving.start {P : Parties} {s : Role → NoiseSession} (hkeys : P.Consistent X)
    (hs : ∀ role, (s role).handshake = P.start X p role ∧ (s role).role.side = role ∧
      (s role).splitDone = false) : Driving X p P.static [] (Link.start s) where
  stage := by
    obtain ⟨ref, h⟩ := Joint.start hkeys p
    exact Stage.rest rfl (h.congr fun role => (hs role).1) (fun _ => rfl) (Or.inl rfl)
  side role := (hs role).2.1
  unsplit role := (hs role).2.2
  codes l hl := by cases hl
  alternate := rfl
  uncalled _ l hl := by cases hl

variable (hdh : X.DhCommutes) (hhonest : X.DhHonest) (haead : X.AeadRoundTrip)
  (hkeys : ∀ role, (static role).pk = X.scalarmultBase (static role).sk)

include hdh hhonest haead hkeys

theorem Driving.step (h : Driving X p static tr c) (hstep : DriveStep X c l c') :
    Driving X p static (tr ++ [l]) c' := by
  obtain ⟨hallow, hperform, rfl⟩ := hstep
  obtain ⟨r, hr, hcode, houtcome⟩ := h.stage.progress hdh hhonest haead hkeys h.side hallow
  obtain rfl : r = l.2 := Except.ok.inj (hr.symm.trans hperform)
  obtain ⟨hs, hsession, _⟩ := noiseHandshakeStep_session hperform
  have hframe : ∀ role, ((c.after l.1 l.2).session role).role = (c.session role).role ∧
      ((c.after l.1 l.2).session role).splitDone = (c.session role).splitDone := by
    intro role
    rw [Link.after_session]
    by_cases hrole : role = l.1.role
    · rw [hrole, Function.update_self, hsession]
      exact ⟨rfl, rfl⟩
    · rw [Function.update_of_ne hrole]
      exact ⟨rfl, rfl⟩
  have hcodes : ∀ l' ∈ tr ++ [l], l'.2.code = .ok := forall_mem_snoc h.codes hcode
  have hside : ∀ role, ((c.after l.1 l.2).session role).role.side = role := by
    intro role
    rw [(hframe role).1, h.side]
  have hunsplit : ∀ role, ((c.after l.1 l.2).session role).splitDone = false := by
    intro role
    rw [(hframe role).2, h.unsplit]
  cases houtcome with
  | silent emitted idle first stage =>
      have hsame : emitters (tr ++ [l]) = emitters tr := by
        rw [emitters_snoc, emitted]
        exact List.append_nil _
      refine ⟨?_, hside, hunsplit, hcodes, ?_, ?_⟩
      · rwa [hsame]
      · rw [hsame]
        exact h.alternate
      · rw [hsame]
        intro hnone
        apply forall_mem_snoc (h.uncalled hnone)
        exact first (by rw [hnone]; rfl)
  | emits emitted writer lt due stage =>
      have hmore : emitters (tr ++ [l]) = emitters tr ++ [l.1.role] := by
        rw [emitters_snoc, if_pos emitted]
      refine ⟨?_, hside, hunsplit, hcodes, ?_, ?_⟩
      · rwa [hmore, List.length_append, List.length_singleton]
      · rw [hmore, List.length_append, List.length_singleton, List.range_succ, List.map_append,
          ← h.alternate, writer]
        rfl
      · rw [hmore]
        intro hnone
        exact absurd hnone (by simp)

omit hdh hhonest haead hkeys in
/-- Parties that have agreed export keys that fit together. -/
theorem Agreed.exportsCross {P : Parties} {s : Role → NoiseSession}
    (h : Agreed X P fun role => (s role).handshake)
    (hunsplit : ∀ role, (s role).splitDone = false) : ExportsCross X s where
  complete := h.complete
  exports out := by
    refine ⟨fun role => exportedKeys X (s role), ?_, ?_, ?_, fun role => ⟨rfl, rfl⟩⟩
    · intro role
      exact ⟨_, noiseExportTransportKeys_ok (h.complete role) (hunsplit role) (out role)⟩
    · intro role
      cases role with
      | initiator => exact congrArg CipherState.k h.toResponder
      | responder => exact (congrArg CipherState.k h.toInitiator).symm
    · exact congrArg (Block.truncate hashBytes_le) h.hash

/-- The invariant says all that a caller sees. -/
theorem Driving.driven (h : Driving X p static tr c) : Driven X p tr c where
  codes := h.codes
  returns call hallow := by
    obtain ⟨r, hr, hcode, _⟩ := h.stage.progress hdh hhonest haead hkeys h.side hallow
    exact ⟨r, hr, hcode⟩
  inFlight := h.stage.bounds.1
  alternate := h.alternate
  total := h.stage.bounds.2
  idle call r hwake hallow hnot hperform := by
    obtain ⟨r', hr, _, houtcome⟩ := h.stage.progress hdh hhonest haead hkeys h.side hallow
    obtain rfl : r' = r := Except.ok.inj (hr.symm.trans hperform)
    cases houtcome with
    | silent emitted idle first stage => exact ⟨emitted, idle hwake⟩
    | emits emitted writer lt due stage => exact absurd ⟨lt, writer, due hwake⟩ hnot
  finished := by
    rintro ⟨l, hl, hrole⟩ hempty
    have hsome : emitters tr ≠ [] := fun hnone => h.uncalled hnone l hl hrole
    have hstage := h.stage
    generalize hn : (emitters tr).length = n at hstage
    cases hstage with
    | rest keys joint empty ends =>
        have hlast : n = patternTotalSteps p := by
          refine ends.resolve_left fun hzero => hsome ?_
          exact List.eq_nil_of_length_eq_zero (hn.trans hzero)
        subst hlast
        exact ⟨rfl, joint.agreed.exportsCross h.unsplit⟩
    | @flight i P ref m t keys lt step read joint inbox =>
        have hmail := hempty (readerOf i)
        rw [inbox, byTurn_reader] at hmail
        cases hmail

end Runs

section Main

variable {p : Pattern} {args : Role → OpenArgs} {s : Role → NoiseSession}
  {tr : List (DriveCall × StepReply)} {c : Link}

/-- The invariant holds after every schedule of two sessions opened for each other. -/
theorem OpenedPair.driving (hdh : X.DhCommutes) (hhonest : X.DhHonest) (haead : X.AeadRoundTrip)
    (hpair : OpenedPair X p args s) (run : Run (DriveStep X) (Link.start s) tr c) :
    ∃ P : Parties, P.Consistent X ∧ Driving X p P.static tr c ∧
      ∀ role, ∃ edPk, (args role).localStaticPk = some edPk ∧
        X.signPkToCurve25519 edPk = some (P.static role).pk := by
  obtain ⟨P, hkeys, hs⟩ := hpair.parties
  have hstart : Driving X p P.static [] (Link.start s) := by
    refine Driving.start hkeys fun role => ?_
    obtain ⟨hstate, hside, hunsplit, _⟩ := hs role
    exact ⟨hstate, hside, hunsplit⟩
  have hend : Driving X p P.static ([] ++ tr) c :=
    run.history (fun _ _ _ _ h hstep => h.step hdh hhonest haead hkeys hstep) hstart
  refine ⟨P, hkeys, hend, fun role => ?_⟩
  obtain ⟨_, _, _, hconverted⟩ := hs role
  exact hconverted

/-- Every such schedule drives the handshake to its end. -/
theorem sessions_driven (hdh : X.DhCommutes) (hhonest : X.DhHonest) (haead : X.AeadRoundTrip)
    (hpair : OpenedPair X p args s) (run : Run (DriveStep X) (Link.start s) tr c) :
    Driven X p tr c := by
  obtain ⟨P, hkeys, hdriving, _⟩ := hpair.driving hdh hhonest haead run
  exact hdriving.driven hdh hhonest haead hkeys

end Main

section Schedules

instance (c : Link) (call : DriveCall) : Decidable (c.Allows call) :=
  inferInstanceAs (Decidable (if call.delivers then c.inbox call.role ≠ []
    else (c.session call.role).handshake.isComplete = false))

/-- Makes calls one after the other, where each is allowed: their replies and what they lead
to. -/
def schedule (X : External) : Link → List DriveCall →
    Option (List (DriveCall × StepReply) × Link)
  | c, [] => some ([], c)
  | c, call :: calls =>
      if c.Allows call then
        (c.perform call X).toOption.bind fun r =>
          (schedule X (c.after call r) calls).map fun end_ => ((call, r) :: end_.1, end_.2)
      else none

/-- Calls made one after the other are a run. -/
theorem run_of_schedule {c c' : Link} {calls : List DriveCall}
    {tr : List (DriveCall × StepReply)} (h : schedule X c calls = some (tr, c')) :
    Run (DriveStep X) c tr c' := by
  induction calls generalizing c tr with
  | nil =>
      obtain ⟨rfl, rfl⟩ := Prod.mk.inj (Option.some.inj h)
      exact Run.nil c
  | cons call calls ih =>
      unfold schedule at h
      split at h
      · rename_i hallow
        cases hr : c.perform call X with
        | error e =>
            rw [hr] at h
            cases h
        | ok r =>
            rw [hr] at h
            obtain ⟨rest, hrest, heq⟩ := Option.map_eq_some_iff.mp h
            obtain ⟨rfl, rfl⟩ := Prod.mk.inj heq
            exact Run.cons ⟨hallow, hr, rfl⟩ (ih hrest)
      · cases h

/-- Where the calls lead to an end that passes the test `f`, a run leads there. -/
theorem exists_drive (c : Link) (calls : List DriveCall)
    (f : List (DriveCall × StepReply) → Link → Bool)
    (h : (schedule X c calls).any (fun end_ => f end_.1 end_.2) = true) :
    ∃ tr c', Run (DriveStep X) c tr c' ∧ f tr c' = true := by
  cases hschedule : schedule X c calls with
  | none =>
      rw [hschedule] at h
      cases h
  | some end_ =>
      rw [hschedule] at h
      exact ⟨end_.1, end_.2, run_of_schedule hschedule, h⟩

open Miniature

/-- Arguments that open XX sessions for parties 1 and 2, and the sessions. -/
def smallArgs (role : Role) : OpenArgs :=
  if role = .initiator then openArgs .initiator 1 none else openArgs .responder 2 none

def smallSessions (role : Role) : NoiseSession :=
  if role = .initiator then xxSession .initiator 1 else xxSession .responder 2

theorem smallSessions_pair : OpenedPair external .xx smallArgs smallSessions where
  opened role := by
    unfold Opened
    cases role <;> decide +kernel
  side role := by cases role <;> rfl
  remote h := by cases h
  consistent role edSk edPk keys hsk hpk hkeys := by
    have hall : (ed25519ToX25519 external edSk edPk).all
        (fun keys => keys.pk = external.scalarmultBase keys.sk) = true := by
      cases role with
      | initiator =>
          obtain rfl := Option.some.inj hsk
          obtain rfl := Option.some.inj hpk
          decide +kernel
      | responder =>
          obtain rfl := Option.some.inj hsk
          obtain rfl := Option.some.inj hpk
          decide +kernel
    rw [hkeys] at hall
    exact of_decide_eq_true hall

/-- An XX handshake with three wake-ups that find nothing due. -/
def smallSchedule : List DriveCall :=
  [{ role := .responder, delivers := false, random := secretKey 3 },
    { role := .initiator, delivers := false, random := secretKey 4 },
    { role := .initiator, delivers := false, random := secretKey 5 },
    { role := .responder, delivers := true, random := secretKey 6 },
    { role := .responder, delivers := false, random := secretKey 7 },
    { role := .initiator, delivers := true, random := secretKey 8 },
    { role := .responder, delivers := true, random := secretKey 9 }]

theorem sessions_driven_small : ∃ tr c, tr.length = 7 ∧
    emitters tr = [.initiator, .responder, .initiator] ∧ Driven external .xx tr c := by
  obtain ⟨tr, c, run, hend⟩ := exists_drive (X := external) (Link.start smallSessions)
    smallSchedule (fun tr _ => tr.length = 7 && emitters tr = [.initiator, .responder, .initiator])
    (by decide +kernel)
  simp only [Bool.and_eq_true, decide_eq_true_eq] at hend
  exact ⟨tr, c, hend.1, hend.2, sessions_driven external_dhCommutes external_dhHonest
    external_aeadRoundTrip smallSessions_pair run⟩

end Schedules

end SecurityNoise
