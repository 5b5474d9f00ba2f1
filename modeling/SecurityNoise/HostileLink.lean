import Mathlib.Data.List.Infix
import SecurityNoise.Foundation.Epochs
import SecurityNoise.Stream

/-!
# Both directions over a hostile link

Both ends encrypt, decrypt and rekey at any moment, and the network hands either end whatever
byte strings it likes. A rekey resets both directions of the end that makes it, at once or by
reaching the interval, so frames of other generations are lost to it. Under an ideal AEAD
nothing worse happens: what an end has accepted in a generation is the beginning of what the
other end sealed in that generation.

## Implementation notes

A record carries the generation of the end that sealed or accepted it. The keys of both
directions are assumed distinct up to a generation that neither end has passed.
-/

namespace SecurityNoise

open Framework (Role)

variable {X : External}

section Statement

/-- A plaintext and the generation of the end that sealed or accepted it. -/
structure LinkRecord where
  generation : Nat
  plaintext : Bytes
  deriving DecidableEq

/-- An end sealed a plaintext in a generation under a key and nonce, was handed a byte string
there, or rekeyed. -/
inductive LinkEvent
  | sealed (side : Role) (g : Nat) (k : CipherKey) (n : UInt64) (plaintext frame : Bytes)
  | handed (side : Role) (g : Nat) (k : CipherKey) (n : UInt64) (frame : Bytes)
      (result : Option Bytes)
  | rekeyed (side : Role)

/-- Each end makes the provider's calls. -/
def LinkStep (X : External) (s : Role → Endpoint) (ev : LinkEvent) (s' : Role → Endpoint) : Prop :=
  match ev with
  | .sealed side g k n p c => g = (s side).generation ∧ k = (s side).transport.send.k ∧
      n = (s side).transport.send.n ∧
      ∃ e, (s side).call X (.encrypt p) = .ok (some c, e) ∧ s' = Function.update s side e
  | .handed side g k n c r => g = (s side).generation ∧ k = (s side).transport.recv.k ∧
      n = (s side).transport.recv.n ∧
      ∃ e, (s side).call X (.decrypt c) = .ok (r, e) ∧ s' = Function.update s side e
  | .rekeyed side => ∃ e, (s side).call X .rekey = .ok (none, e) ∧ s' = Function.update s side e

def LinkEvent.sealed? (side : Role) : LinkEvent → Option LinkRecord
  | .sealed side' g _ _ p _ => if side' = side then some ⟨g, p⟩ else none
  | _ => none

def LinkEvent.accepted? (side : Role) : LinkEvent → Option LinkRecord
  | .handed side' g _ _ _ r => if side' = side then r.map (⟨g, ·⟩) else none
  | _ => none

/-- What a side has sealed, in order. -/
def sealedBy (side : Role) (tr : List LinkEvent) : List LinkRecord :=
  tr.filterMap (LinkEvent.sealed? side)

/-- What a side has accepted, in order. -/
def acceptedBy (side : Role) (tr : List LinkEvent) : List LinkRecord :=
  tr.filterMap (LinkEvent.accepted? side)

/-- What either end accepts under a key and nonce, one of them has sealed under them. -/
def IdealLink (tr : List LinkEvent) : Prop :=
  ∀ pre side g k n c p post, tr = pre ++ .handed side g k n c (some p) :: post →
    ∃ side' g' q, .sealed side' g' k n q c ∈ pre

/-- The keys of both directions up to generation `limit` are distinct. -/
def LinkKeys (X : External) (key : Role → CipherKey) (limit : Nat) : Prop :=
  ∀ side, ∀ i ≤ limit, ∀ side', ∀ j ≤ limit,
    generationKey X (key side) i = generationKey X (key side') j → side = side' ∧ i = j

/-- Two ends whose ciphers cross, before any frame. -/
def linkStart (key : Role → CipherKey) (side : Role) : Endpoint :=
  Endpoint.start (key side) (key side.other)

/-- What holds after a run. -/
structure LinkOrder (X : External) (tr : List LinkEvent) (s : Role → Endpoint) : Prop where
  /-- No call ends the process. -/
  calls : ∀ side c, ∃ r e, (s side).call X c = .ok (r, e)
  /-- In a generation, an end has accepted the beginning of what the other has sealed. -/
  epochs : ∀ side g, inEpoch LinkRecord.generation (acceptedBy side tr) g <+:
    inEpoch LinkRecord.generation (sealedBy side.other tr) g
  /-- Altogether it has accepted part of it, in order. -/
  whole : ∀ side, (acceptedBy side tr).Sublist (sealedBy side.other tr)
  /-- Of the records of its own generation, the first that it has not accepted has a frame that
  opens, whatever it was handed before. -/
  next : ∀ side p, (inEpoch LinkRecord.generation (sealedBy side.other tr) (s side).generation)[
      (inEpoch LinkRecord.generation (acceptedBy side tr) (s side).generation).length]? =
        some ⟨(s side).generation, p⟩ →
    ∃ k n c e, .sealed side.other (s side).generation k n p c ∈ tr ∧
      (s side).call X (.decrypt c) = .ok (some p, e)

end Statement

section Logs

variable {tr : List LinkEvent} {ev : LinkEvent} {log : List LinkRecord} {record : LinkRecord}
  {g g' : Nat} {used used' other other' : UInt64}

theorem sealedBy_snoc (side : Role) (tr : List LinkEvent) (ev : LinkEvent) :
    sealedBy side (tr ++ [ev]) = sealedBy side tr ++ (ev.sealed? side).toList :=
  filterMap_snoc ..

theorem acceptedBy_snoc (side : Role) (tr : List LinkEvent) (ev : LinkEvent) :
    acceptedBy side (tr ++ [ev]) = acceptedBy side tr ++ (ev.accepted? side).toList :=
  filterMap_snoc ..

theorem sealedBy_same {side : Role} (h : ev.sealed? side = none) :
    sealedBy side (tr ++ [ev]) = sealedBy side tr := by
  rw [sealedBy_snoc, h, Option.toList_none, List.append_nil]

theorem acceptedBy_same {side : Role} (h : ev.accepted? side = none) :
    acceptedBy side (tr ++ [ev]) = acceptedBy side tr := by
  rw [acceptedBy_snoc, h, Option.toList_none, List.append_nil]

/-- The direction that used a frame has one more record. -/
theorem Counted.usedLog (h : Counted g g' used used' other other') (hused : used.toNat < 2 ^ 60)
    (hrecord : record.generation = g)
    (hlog : EpochLog LinkRecord.generation log g used.toNat) :
    EpochLog LinkRecord.generation (log ++ [record]) g' used'.toNat := by
  have hsnoc := hlog.snoc hrecord
  by_cases hlast : used.toNat + 1 = 2 ^ 60
  · obtain ⟨hg, hzero, _⟩ := h.last hlast
    rw [hg, hzero, UInt64.toNat_zero]
    exact hsnoc.advance (Nat.lt_succ_self g)
  · obtain ⟨hg, hnext, _⟩ := h.next (by omega)
    rwa [hg, hnext]

/-- The opposite direction keeps its records. -/
theorem Counted.otherLog (h : Counted g g' used used' other other') (hused : used.toNat < 2 ^ 60)
    (hlog : EpochLog LinkRecord.generation log g other.toNat) :
    EpochLog LinkRecord.generation log g' other'.toNat := by
  by_cases hlast : used.toNat + 1 = 2 ^ 60
  · obtain ⟨hg, _, hzero⟩ := h.last hlast
    rw [hg, hzero, UInt64.toNat_zero]
    exact hlog.advance (Nat.lt_succ_self g)
  · obtain ⟨hg, _, hsame⟩ := h.next (by omega)
    rwa [hg, hsame]

end Logs

section Order

variable {key : Role → CipherKey} {tr : List LinkEvent} {ev : LinkEvent} {s s' : Role → Endpoint}
  {side : Role} {e : Endpoint} {limit : Nat}

/-- An end and its logs: its counters are the numbers of records of its generation. -/
structure LinkEnd (X : External) (key : Role → CipherKey) (tr : List LinkEvent) (side : Role)
    (e : Endpoint) : Prop where
  ready : Ready X (key side) (key side.other) e
  sealedLog : EpochLog LinkRecord.generation (sealedBy side tr) e.generation
    e.transport.send.n.toNat
  acceptedLog : EpochLog LinkRecord.generation (acceptedBy side tr) e.generation
    e.transport.recv.n.toNat

/-- A side seals record `n` of generation `g`. -/
def sealedAt (X : External) (key : Role → CipherKey) (side : Role) (g : Nat) (n : UInt64)
    (p : Bytes) : LinkEvent :=
  .sealed side g (generationKey X (key side) g) n p
    (X.aeadEncrypt (generationKey X (key side) g) (encodeNonce n) [] p)

/-- The records of a generation are numbered by the nonces they were sealed under. -/
structure Numbered (X : External) (key : Role → CipherKey) (tr : List LinkEvent) : Prop where
  produced : ∀ side g k n p c, .sealed side g k n p c ∈ tr →
    .sealed side g k n p c = sealedAt X key side g n p ∧
      (inEpoch LinkRecord.generation (sealedBy side tr) g)[n.toNat]? = some ⟨g, p⟩
  recorded : ∀ side g i r, (inEpoch LinkRecord.generation (sealedBy side tr) g)[i]? = some r →
    sealedAt X key side g (UInt64.ofNat i) r.plaintext ∈ tr

/-- The invariant. -/
structure Linked (X : External) (key : Role → CipherKey) (tr : List LinkEvent)
    (s : Role → Endpoint) : Prop where
  ends : ∀ side, LinkEnd X key tr side (s side)
  numbered : Numbered X key tr
  accepted : ∀ side g, inEpoch LinkRecord.generation (acceptedBy side tr) g <+:
    inEpoch LinkRecord.generation (sealedBy side.other tr) g

/-- An event that seals nothing leaves the numbering. -/
theorem Numbered.quiet (h : Numbered X key tr) (hsealed : ∀ side, ev.sealed? side = none) :
    Numbered X key (tr ++ [ev]) where
  produced side g k n p c hmem := by
    rw [sealedBy_same (hsealed side)]
    rcases List.mem_append.mp hmem with hpast | hlast
    · exact h.produced side g k n p c hpast
    · have hnone := hsealed side
      rw [← List.mem_singleton.mp hlast, LinkEvent.sealed?, if_pos rfl] at hnone
      cases hnone
  recorded side g i r hget := by
    rw [sealedBy_same (hsealed side)] at hget
    exact List.mem_append_left _ (h.recorded side g i r hget)

theorem sealedBy_sealedAt_self (tr : List LinkEvent) (side : Role) (g : Nat) (n : UInt64)
    (p : Bytes) : sealedBy side (tr ++ [sealedAt X key side g n p]) =
      sealedBy side tr ++ [⟨g, p⟩] := by
  rw [sealedBy_snoc, sealedAt, LinkEvent.sealed?, if_pos rfl]
  rfl

theorem sealedBy_sealedAt_of_ne {side' : Role} (h : side' ≠ side) (tr : List LinkEvent) (g : Nat)
    (n : UInt64) (p : Bytes) :
    sealedBy side' (tr ++ [sealedAt X key side g n p]) = sealedBy side' tr := by
  apply sealedBy_same
  rw [sealedAt, LinkEvent.sealed?, if_neg h.symm]

/-- The next record takes the next number. -/
theorem Numbered.sealed (h : Numbered X key tr) {g : Nat} {n : UInt64}
    (hn : (inEpoch LinkRecord.generation (sealedBy side tr) g).length = n.toNat) (p : Bytes) :
    Numbered X key (tr ++ [sealedAt X key side g n p]) := by
  constructor
  · intro side' g' k' n' p' c' hmem
    rcases List.mem_append.mp hmem with hpast | hlast
    · obtain ⟨heq, hget⟩ := h.produced side' g' k' n' p' c' hpast
      refine ⟨heq, inEpoch_number ?_ hget⟩
      rw [sealedBy_snoc]
      exact List.prefix_append ..
    · have heq := List.mem_singleton.mp hlast
      obtain ⟨rfl, rfl, _, rfl, rfl, _⟩ := LinkEvent.sealed.inj heq
      refine ⟨heq, ?_⟩
      rw [sealedBy_sealedAt_self, inEpoch_snoc_self _ rfl, ← hn, List.getElem?_concat_length]
  · intro side' g' i r hget
    by_cases hside : side' = side
    · rw [hside] at hget ⊢
      rw [sealedBy_sealedAt_self] at hget
      obtain hpast | ⟨rfl, rfl, rfl⟩ := inEpoch_snoc_number hget
      · exact List.mem_append_left _ (h.recorded side g' i r hpast)
      · rw [hn, UInt64.ofNat_toNat]
        exact List.mem_append_right _ (List.mem_singleton_self _)
    · rw [sealedBy_sealedAt_of_ne hside] at hget
      exact List.mem_append_left _ (h.recorded side' g' i r hget)

/-- An event that neither seals nor accepts, at ends that keep their logs. -/
theorem Linked.quiet (h : Linked X key tr s) (hsealed : ∀ side, ev.sealed? side = none)
    (haccepted : ∀ side, ev.accepted? side = none)
    (hends : ∀ side, LinkEnd X key tr side (s' side)) : Linked X key (tr ++ [ev]) s' where
  ends side := by
    obtain ⟨hready, hsealedLog, hacceptedLog⟩ := hends side
    refine ⟨hready, ?_, ?_⟩
    · rwa [sealedBy_same (hsealed side)]
    · rwa [acceptedBy_same (haccepted side)]
  numbered := h.numbered.quiet hsealed
  accepted side g := by
    rw [acceptedBy_same (haccepted side), sealedBy_same (hsealed side.other)]
    exact h.accepted side g

/-- A rekey of one end starts new epochs in its two logs. -/
theorem Linked.rekeyed (h : Linked X key tr s) (hstep : LinkStep X s (.rekeyed side) s') :
    Linked X key (tr ++ [.rekeyed side]) s' := by
  obtain ⟨e, hcall, rfl⟩ := hstep
  obtain ⟨_, rfl⟩ := Prod.mk.inj (Except.ok.inj hcall)
  obtain ⟨hready, hsealedLog, hacceptedLog⟩ := h.ends side
  apply h.quiet
  · intro _
    rfl
  · intro _
    rfl
  · apply (Function.forall_update_iff s fun side e => LinkEnd X key tr side e).mpr
    constructor
    · exact ⟨hready.toKeyed.rekeyed, hsealedLog.advance (Nat.lt_succ_self _),
        hacceptedLog.advance (Nat.lt_succ_self _)⟩
    · intro side' _
      exact h.ends side'

/-- Sealing appends to the log of the side. -/
theorem Linked.sealed (h : Linked X key tr s) {g : Nat} {k : CipherKey} {n : UInt64}
    {p c : Bytes} (hstep : LinkStep X s (.sealed side g k n p c) s') :
    Linked X key (tr ++ [.sealed side g k n p c]) s' := by
  obtain ⟨rfl, hk, rfl, e, hcall, rfl⟩ := hstep
  obtain ⟨hready, hsealedLog, hacceptedLog⟩ := h.ends side
  rw [hready.encrypt] at hcall
  obtain ⟨hframe, rfl⟩ := Prod.mk.inj (Except.ok.inj hcall)
  have hkey : (s side).transport.send.k = generationKey X (key side) (s side).generation :=
    congrArg CipherState.k hready.send
  have hevent : LinkEvent.sealed side (s side).generation k (s side).transport.send.n p c =
      sealedAt X key side (s side).generation (s side).transport.send.n p := by
    rw [sealedAt, hk, hkey, Option.some.inj hframe]
  have haccepted : ∀ side', acceptedBy side' (tr ++ [sealedAt X key side (s side).generation
      (s side).transport.send.n p]) = acceptedBy side' tr := fun _ => acceptedBy_same rfl
  have hused := (below_iff _).mp hready.sendBelow
  obtain ⟨hnext, hcounted⟩ := hready.sent
  rw [hevent]
  constructor
  · apply (Function.forall_update_iff s fun side' e => LinkEnd X key _ side' e).mpr
    constructor
    · refine ⟨hnext, ?_, ?_⟩
      · rw [sealedBy_sealedAt_self]
        exact hcounted.usedLog hused rfl hsealedLog
      · rw [haccepted]
        exact hcounted.otherLog hused hacceptedLog
    · intro side' hne
      obtain ⟨hready', hsealedLog', hacceptedLog'⟩ := h.ends side'
      refine ⟨hready', ?_, ?_⟩
      · rwa [sealedBy_sealedAt_of_ne hne]
      · rwa [haccepted]
  · exact h.numbered.sealed hsealedLog.count p
  · intro side' g
    rw [haccepted]
    apply (h.accepted side' g).trans
    apply inEpoch_prefix
    rw [sealedBy_snoc]
    exact List.prefix_append ..

/-- A frame that either end has sealed and that opens is the next of its generation: a frame
of another generation or of the end itself has another key, an old one another nonce. -/
theorem Linked.opens (h : Linked X key tr s) (haead : X.AeadRoundTrip)
    (hkeys : LinkKeys X key limit) (hlimit : ∀ side, (s side).generation ≤ limit)
    {side' : Role} {g' : Nat} {p q c : Bytes}
    (hsealed : .sealed side' g' (s side).transport.recv.k (s side).transport.recv.n q c ∈ tr)
    (hopen : X.aeadDecrypt (s side).transport.recv.k (encodeNonce (s side).transport.recv.n) [] c =
      some p) :
    (inEpoch LinkRecord.generation (sealedBy side.other tr) (s side).generation)[
      (inEpoch LinkRecord.generation (acceptedBy side tr) (s side).generation).length]? =
        some ⟨(s side).generation, p⟩ := by
  obtain ⟨hready, _, hacceptedLog⟩ := h.ends side
  obtain ⟨heq, hget⟩ := h.numbered.produced side' g' _ _ q c hsealed
  obtain ⟨_, _, hkey, _, _, hframe⟩ := LinkEvent.sealed.inj heq
  have hrecv : (s side).transport.recv.k =
      generationKey X (key side.other) (s side).generation := congrArg CipherState.k hready.recv
  have hreached : g' ≤ (s side').generation := by
    have hmem := mem_inEpoch.mp (List.mem_of_getElem? hget)
    exact (h.ends side').sealedLog.reached _ hmem.1
  obtain ⟨rfl, rfl⟩ := hkeys side' g' (hreached.trans (hlimit side')) side.other _ (hlimit side)
    (hkey.symm.trans hrecv)
  rw [hframe, ← hkey, haead] at hopen
  rw [hacceptedLog.count, hget, Option.some.inj hopen]

/-- Accepting the next record of the generation appends to the log of the side. -/
theorem Linked.accepts (h : Linked X key tr s) {k : CipherKey} {n : UInt64} {p c : Bytes}
    (hnext : (inEpoch LinkRecord.generation (sealedBy side.other tr) (s side).generation)[
      (inEpoch LinkRecord.generation (acceptedBy side tr) (s side).generation).length]? =
        some ⟨(s side).generation, p⟩) :
    Linked X key (tr ++ [.handed side (s side).generation k n c (some p)])
      (Function.update s side ((s side).received X)) := by
  obtain ⟨hready, hsealedLog, hacceptedLog⟩ := h.ends side
  have hsealed : ∀ side', sealedBy side' (tr ++ [.handed side (s side).generation k n c (some p)]) =
      sealedBy side' tr := fun _ => sealedBy_same rfl
  have hself : acceptedBy side (tr ++ [.handed side (s side).generation k n c (some p)]) =
      acceptedBy side tr ++ [⟨(s side).generation, p⟩] := by
    rw [acceptedBy_snoc, LinkEvent.accepted?, if_pos rfl]
    rfl
  have hothers : ∀ side', side' ≠ side → acceptedBy side' (tr ++ [.handed side
      (s side).generation k n c (some p)]) = acceptedBy side' tr := by
    intro side' hne
    apply acceptedBy_same
    rw [LinkEvent.accepted?, if_neg hne.symm]
  have hused := (below_iff _).mp hready.recvBelow
  obtain ⟨hready', hcounted⟩ := hready.received
  constructor
  · apply (Function.forall_update_iff s fun side' e => LinkEnd X key _ side' e).mpr
    constructor
    · refine ⟨hready', ?_, ?_⟩
      · rw [hsealed]
        exact hcounted.otherLog hused hsealedLog
      · rw [hself]
        exact hcounted.usedLog hused rfl hacceptedLog
    · intro side' hne
      obtain ⟨hother, hsealedLog', hacceptedLog'⟩ := h.ends side'
      refine ⟨hother, ?_, ?_⟩
      · rwa [hsealed]
      · rwa [hothers side' hne]
  · apply h.numbered.quiet
    intro _
    rfl
  · intro side' g
    rw [hsealed]
    by_cases hside : side' = side
    · rw [hside, hself]
      by_cases hg : LinkRecord.generation ⟨(s side).generation, p⟩ = g
      · rw [inEpoch_snoc_self _ hg, ← hg]
        obtain ⟨hlt, hget⟩ := List.getElem?_eq_some_iff.mp hnext
        have hlonger := List.concat_get_prefix (h.accepted side _) hlt
        rwa [List.get_eq_getElem, hget] at hlonger
      · rw [inEpoch_snoc_of_ne _ hg]
        exact h.accepted side g
    · rw [hothers side' hside]
      exact h.accepted side' g

/-- A byte string handed to an end is the next frame of its generation, or changes nothing. -/
theorem Linked.handed (h : Linked X key tr s) (haead : X.AeadRoundTrip)
    (hkeys : LinkKeys X key limit) (hlimit : ∀ side, (s side).generation ≤ limit) {g : Nat}
    {k : CipherKey} {n : UInt64} {c : Bytes} {r : Option Bytes}
    (hideal : IdealLink (tr ++ [.handed side g k n c r]))
    (hstep : LinkStep X s (.handed side g k n c r) s') :
    Linked X key (tr ++ [.handed side g k n c r]) s' := by
  obtain ⟨rfl, rfl, rfl, e, hcall, rfl⟩ := hstep
  obtain ⟨hready, hsealedLog, hacceptedLog⟩ := h.ends side
  have hkey : (s side).transport.recv.k =
      generationKey X (key side.other) (s side).generation := congrArg CipherState.k hready.recv
  rw [hready.decrypt, ← hkey] at hcall
  cases hopen : X.aeadDecrypt (s side).transport.recv.k
      (encodeNonce (s side).transport.recv.n) [] c with
  | none =>
      rw [hopen] at hcall
      obtain ⟨rfl, rfl⟩ := Prod.mk.inj (Except.ok.inj hcall)
      apply h.quiet
      · intro _
        rfl
      · intro _
        exact ite_self _
      · rw [Function.update_eq_self]
        exact h.ends
  | some p =>
      rw [hopen] at hcall
      obtain ⟨rfl, rfl⟩ := Prod.mk.inj (Except.ok.inj hcall)
      obtain ⟨side', g', q, hsealed⟩ := hideal tr _ _ _ _ _ p [] rfl
      exact h.accepts (h.opens haead hkeys hlimit hsealed hopen)

theorem Linked.step (h : Linked X key tr s) (haead : X.AeadRoundTrip)
    (hkeys : LinkKeys X key limit) (hlimit : ∀ side, (s side).generation ≤ limit)
    (hideal : IdealLink (tr ++ [ev])) (hstep : LinkStep X s ev s') :
    Linked X key (tr ++ [ev]) s' := by
  cases ev with
  | sealed side g k n p c => exact h.sealed hstep
  | handed side g k n c r => exact h.handed haead hkeys hlimit hideal hstep
  | rekeyed side => exact h.rekeyed hstep

/-- Generations only grow. -/
theorem LinkStep.generation (hstep : LinkStep X s ev s') (side : Role) :
    (s side).generation ≤ (s' side).generation := by
  have hupdate : ∀ {side' : Role} {e : Endpoint} {c : TransportCall} {r : Option Bytes},
      (s side').call X c = .ok (r, e) →
        (s side).generation ≤ (Function.update s side' e side).generation := by
    intro side' e c r hcall
    by_cases hside : side = side'
    · rw [hside, Function.update_self]
      exact Endpoint.call_generation hcall
    · rw [Function.update_of_ne hside]
  cases ev with
  | sealed side' g k n p c =>
      obtain ⟨_, _, _, e, hcall, rfl⟩ := hstep
      exact hupdate hcall
  | handed side' g k n c r =>
      obtain ⟨_, _, _, e, hcall, rfl⟩ := hstep
      exact hupdate hcall
  | rekeyed side' =>
      obtain ⟨e, hcall, rfl⟩ := hstep
      exact hupdate hcall

theorem IdealLink.init (h : IdealLink (tr ++ [ev])) : IdealLink tr := by
  intro pre side g k n c p post htr
  apply h pre side g k n c p (post ++ [ev])
  rw [htr, List.append_assoc, List.cons_append]

theorem Linked.start (X : External) (key : Role → CipherKey) :
    Linked X key [] (linkStart key) where
  ends side := ⟨Ready.start _ _, EpochLog.nil 0, EpochLog.nil 0⟩
  numbered := by
    constructor
    · intro side g k n p c hmem
      cases hmem
    · intro side g i r hget
      cases hget
  accepted _ _ := List.nil_prefix

/-- The invariant holds after every ideal run. -/
theorem linked_of_run (haead : X.AeadRoundTrip) (run : Run (LinkStep X) (linkStart key) tr s)
    (hideal : IdealLink tr) (hkeys : LinkKeys X key limit)
    (hlimit : ∀ side, (s side).generation ≤ limit) : Linked X key tr s := by
  let J : List LinkEvent → (Role → Endpoint) → Prop := fun tr s =>
    IdealLink tr → (∀ side, (s side).generation ≤ limit) → Linked X key tr s
  have hend : J ([] ++ tr) s := by
    apply run.history
    · intro pre s ev s' hpast hstep hideal hlimit
      have hbefore : ∀ side, (s side).generation ≤ limit := by
        intro side
        exact (hstep.generation side).trans (hlimit side)
      exact (hpast hideal.init hbefore).step haead hkeys hbefore hideal hstep
    · intro _ _
      exact Linked.start X key
  exact hend hideal hlimit

theorem Linked.order (h : Linked X key tr s) (haead : X.AeadRoundTrip) : LinkOrder X tr s := by
  constructor
  · intro side c
    have hready := (h.ends side).ready
    cases c with
    | encrypt p => exact ⟨_, _, hready.encrypt p⟩
    | decrypt c =>
        rw [hready.decrypt]
        split
        · exact ⟨_, _, rfl⟩
        · exact ⟨_, _, rfl⟩
    | rekey => exact ⟨_, _, rfl⟩
  · exact h.accepted
  · intro side
    have hsealed := (h.ends side.other).sealedLog.sorted
    apply sublist_of_inEpoch (h.ends side).acceptedLog.sorted hsealed
    intro g
    exact (h.accepted side g).sublist
  · intro side p hget
    obtain ⟨hready, _, hacceptedLog⟩ := h.ends side
    have hmem := h.numbered.recorded _ _ _ _ hget
    rw [hacceptedLog.count, UInt64.ofNat_toNat] at hmem
    refine ⟨_, _, _, _, hmem, hready.opens ?_⟩
    exact haead ..

/-- Whatever the network does and whenever the ends rekey, each end has accepted, generation by
generation, the beginning of what the other has sealed, and the next frame of its own
generation opens. -/
theorem link_order (haead : X.AeadRoundTrip) (run : Run (LinkStep X) (linkStart key) tr s)
    (hideal : IdealLink tr) (hkeys : LinkKeys X key limit)
    (hlimit : ∀ side, (s side).generation ≤ limit) : LinkOrder X tr s := by
  have h := linked_of_run haead run hideal hkeys hlimit
  exact h.order haead

theorem IdealLink.nil : IdealLink [] := by
  intro pre side g k n c p post htr
  cases pre <;> cases htr

/-- A run is ideal if each of its acceptances is. -/
theorem IdealLink.snoc (h : IdealLink tr) (hev : ∀ side g k n c p,
    ev = .handed side g k n c (some p) → ∃ side' g' q, .sealed side' g' k n q c ∈ tr) :
    IdealLink (tr ++ [ev]) := by
  intro pre side g k n c p post htr
  rcases List.eq_nil_or_concat post with rfl | ⟨post, z, rfl⟩
  · obtain ⟨rfl, hlast⟩ := List.append_inj' htr rfl
    exact hev side g k n c p (List.cons.inj hlast).1
  · rw [List.concat_eq_append, ← List.cons_append, ← List.append_assoc] at htr
    exact h pre side g k n c p post (List.append_inj' htr rfl).1

/-- The send keys of two ends. -/
def linkKey : Role → CipherKey
  | .initiator => Miniature.secretKey 1
  | .responder => Miniature.secretKey 2

/-- The initiator's first frame. -/
def linkFrame : Bytes :=
  Miniature.external.aeadEncrypt (Miniature.secretKey 1) (encodeNonce 0) [] [7]

theorem linkKey_distinct : LinkKeys Miniature.external linkKey 1 := by
  intro side i hi side' j hj
  have hbounds : i < 2 ∧ j < 2 := by omega
  revert i j
  cases side <;> cases side' <;> decide +kernel

/-- A frame is reflected to its sender, delivered, and replayed after a rekey. -/
theorem link_order_small : ∃ tr s, acceptedBy .responder tr = [⟨0, [7]⟩] ∧
    (s .responder).generation = 1 ∧ tr.length = 5 ∧ LinkOrder Miniature.external tr s := by
  let start := linkStart linkKey
  have hready : ∀ side, Ready Miniature.external (linkKey side) (linkKey side.other) (start side) :=
    fun _ => Ready.start _ _
  have hsealed : LinkStep Miniature.external start
      (.sealed .initiator 0 (Miniature.secretKey 1) 0 [7] linkFrame) _ :=
    ⟨rfl, rfl, rfl, _, (hready .initiator).encrypt [7], rfl⟩
  let s := Function.update start .initiator ((start .initiator).sent Miniature.external)
  have hsender : Ready Miniature.external (linkKey .initiator) (linkKey .responder)
      (s .initiator) := (hready .initiator).sent.1
  have hreceiver : Ready Miniature.external (linkKey .responder) (linkKey .initiator)
      (s .responder) := hready .responder
  have hreflected : LinkStep Miniature.external s
      (.handed .initiator 0 (Miniature.secretKey 2) 0 linkFrame none) s := by
    refine ⟨by decide +kernel, by decide +kernel, by decide +kernel, _,
      hsender.rejects (by decide +kernel), ?_⟩
    rw [Function.update_eq_self]
  have hdelivered : LinkStep Miniature.external s
      (.handed .responder 0 (Miniature.secretKey 1) 0 linkFrame (some [7])) _ :=
    ⟨rfl, rfl, rfl, _, @Ready.opens _ _ _ _ hreceiver linkFrame [7] (by decide +kernel), rfl⟩
  let s₁ := Function.update s .responder ((s .responder).received Miniature.external)
  have hrekeyed : LinkStep Miniature.external s₁ (.rekeyed .responder) _ := ⟨_, rfl, rfl⟩
  let s₂ := Function.update s₁ .responder ((s₁ .responder).rekeyed Miniature.external)
  have hnext : Ready Miniature.external (linkKey .responder) (linkKey .initiator)
      (s₂ .responder) := hreceiver.received.1.toKeyed.rekeyed
  have hreplayed : LinkStep Miniature.external s₂ (.handed .responder 1
      (generationKey Miniature.external (Miniature.secretKey 1) 1) 0 linkFrame none) s₂ := by
    refine ⟨by decide +kernel, by decide +kernel, by decide +kernel, _,
      hnext.rejects (by decide +kernel), ?_⟩
    rw [Function.update_eq_self]
  have hideal : IdealLink ([] ++ [.sealed .initiator 0 (Miniature.secretKey 1) 0 [7] linkFrame] ++
      [.handed .initiator 0 (Miniature.secretKey 2) 0 linkFrame none] ++
      [.handed .responder 0 (Miniature.secretKey 1) 0 linkFrame (some [7])] ++
      [.rekeyed .responder] ++ [.handed .responder 1
        (generationKey Miniature.external (Miniature.secretKey 1) 1) 0 linkFrame none]) := by
    apply IdealLink.snoc
    · apply IdealLink.snoc
      · apply IdealLink.snoc
        · apply IdealLink.snoc
          · apply IdealLink.snoc
            · exact IdealLink.nil
            · intro side g k n c p heq
              cases heq
          · intro side g k n c p heq
            cases heq
        · intro side g k n c p heq
          obtain ⟨_, _, rfl, rfl, rfl, _⟩ := LinkEvent.handed.inj heq
          exact ⟨.initiator, 0, [7], List.mem_cons_self⟩
      · intro side g k n c p heq
        cases heq
    · intro side g k n c p heq
      cases heq
  have hlimit : ∀ side, (s₂ side).generation ≤ 1 := by
    intro side
    cases side <;> decide +kernel
  have hlaws := link_order Miniature.external_aeadRoundTrip (Run.cons hsealed
    (Run.cons hreflected (Run.cons hdelivered (Run.cons hrekeyed (Run.single hreplayed)))))
    hideal linkKey_distinct hlimit
  exact ⟨_, s₂, by decide +kernel, by decide +kernel, rfl, hlaws⟩

end Order

end SecurityNoise
