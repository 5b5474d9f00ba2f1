import SecurityNoise.Driving

/-!
# The identity an export names

`handshake_open` converts both Ed25519 keys to X25519, the handshake proves possession of the
converted key, and the export hands out that one. The Ed25519 key the peer was opened with is
not kept anywhere, and the conversion has no inverse.
-/

namespace SecurityNoise

open Framework (Role Token)

variable {X : External}

/-- Every successful export names the Ed25519 public key that the peer was opened with. -/
def IdentityBound (X : External) (args : Role → OpenArgs) (s : Role → NoiseSession) : Prop :=
  ∀ role out keys s', noiseExportTransportKeys X (s role) (some out) = (.ok, some keys, s') →
    (args role.other).localStaticPk = some keys.peerStaticPk

section Exports

variable {p : Pattern} {args : Role → OpenArgs} {s : Role → NoiseSession}
  {tr : List (DriveCall × StepReply)} {c : Link}

/-- After a completed handshake each side exports the peer's Ed25519 key in its X25519 form. -/
theorem exported_peer (hdh : X.DhCommutes) (hhonest : X.DhHonest) (haead : X.AeadRoundTrip)
    (hpair : OpenedPair X p args s) (run : Run (DriveStep X) (Link.start s) tr c)
    (hdone : ∀ role, (c.session role).handshake.isComplete = true) (role : Role) :
    (∀ out, ∃ keys s',
      noiseExportTransportKeys X (c.session role) (some out) = (.ok, some keys, s')) ∧
    ∀ out keys s', noiseExportTransportKeys X (c.session role) (some out) =
      (.ok, some keys, s') → ∃ edPk, (args role.other).localStaticPk = some edPk ∧
        X.signPkToCurve25519 edPk = some keys.peerStaticPk := by
  obtain ⟨P, _, hdriving, hconverted⟩ := hpair.driving hdh hhonest haead run
  obtain ⟨P', hstatic, hagreed⟩ := hdriving.stage.agreed hdone
  have hexport : ∀ out, noiseExportTransportKeys X (c.session role) (some out) =
      (.ok, some (exportedKeys X (c.session role)), (c.session role).exported X) :=
    noiseExportTransportKeys_ok (hdone role) (hdriving.unsplit role)
  refine ⟨fun out => ⟨_, _, hexport out⟩, ?_⟩
  intro out keys s' hsuccess
  obtain ⟨_, hrest⟩ := Prod.mk.inj ((hexport out).symm.trans hsuccess)
  obtain ⟨hkeys, _⟩ := Prod.mk.inj hrest
  have hpeer : keys.peerStaticPk = (P.static role.other).pk := by
    rw [← Option.some.inj hkeys, ← hstatic]
    exact hagreed.peer role
  rw [hpeer]
  exact hconverted role.other

/-- The exports name the Ed25519 keys exactly when the conversion maps both to themselves. -/
theorem export_names_peer_iff (hdh : X.DhCommutes) (hhonest : X.DhHonest)
    (haead : X.AeadRoundTrip) (hpair : OpenedPair X p args s)
    (run : Run (DriveStep X) (Link.start s) tr c)
    (hdone : ∀ role, (c.session role).handshake.isComplete = true) :
    IdentityBound X args c.session ↔ ∀ role edPk, (args role).localStaticPk = some edPk →
      X.signPkToCurve25519 edPk = some edPk := by
  have hpeer := exported_peer hdh hhonest haead hpair run hdone
  constructor
  · intro hbound role edPk hpk
    obtain ⟨hexports, hconverted⟩ := hpeer role.other
    obtain ⟨keys, s', hexport⟩ := hexports (exportedKeys X (c.session role))
    have hnamed := hbound role.other _ keys s' hexport
    obtain ⟨edPk', hpk', hconvert⟩ := hconverted _ keys s' hexport
    rw [Role.other_other] at hnamed hpk'
    obtain rfl := Option.some.inj (hpk.symm.trans hpk')
    calc X.signPkToCurve25519 edPk = some keys.peerStaticPk := hconvert
      _ = (args role).localStaticPk := hnamed.symm
      _ = some edPk := hpk
  · intro hfixed role out keys s' hexport
    obtain ⟨edPk, hpk, hconvert⟩ := (hpeer role).2 out keys s' hexport
    calc (args role.other).localStaticPk = some edPk := hpk
      _ = X.signPkToCurve25519 edPk := (hfixed role.other edPk hpk).symm
      _ = some keys.peerStaticPk := hconvert

end Exports

section Concrete

open Miniature

/-- A completed XX handshake; the conversion inverts the keys' bits, so the key the
initiator would export is not the one the responder passed. -/
theorem smallSessions_complete : ∃ tr c, Run (DriveStep external) (Link.start smallSessions) tr c ∧
    (∀ role, (c.session role).handshake.isComplete = true) ∧
    (c.session .initiator).splitDone = false ∧
    (signKeypair 2).2 ≠ (exportedKeys external (c.session .initiator)).peerStaticPk := by
  obtain ⟨tr, c, run, hend⟩ := exists_drive (X := external) (Link.start smallSessions)
    smallSchedule (fun _ c => (c.session .initiator).handshake.isComplete &&
      (c.session .responder).handshake.isComplete &&
      !(c.session .initiator).splitDone &&
      (signKeypair 2).2 ≠ (exportedKeys external (c.session .initiator)).peerStaticPk)
    (by decide +kernel)
  simp only [Bool.and_eq_true, Bool.not_eq_true', decide_eq_true_eq] at hend
  obtain ⟨⟨⟨hinit, hresp⟩, hunsplit⟩, hne⟩ := hend
  refine ⟨tr, c, run, ?_, hunsplit, hne⟩
  intro role
  cases role with
  | initiator => exact hinit
  | responder => exact hresp

theorem export_names_peer_iff_small : ∃ tr c, Run (DriveStep external)
    (Link.start smallSessions) tr c ∧ (IdentityBound external smallArgs c.session ↔
      ∀ role edPk, (smallArgs role).localStaticPk = some edPk →
        external.signPkToCurve25519 edPk = some edPk) := by
  obtain ⟨tr, c, run, hdone, _⟩ := smallSessions_complete
  exact ⟨tr, c, run, export_names_peer_iff external_dhCommutes external_dhHonest
    external_aeadRoundTrip smallSessions_pair run hdone⟩

/-- There the initiator exports another key than the responder's. -/
theorem export_names_peer_fails : ∃ tr c, Run (DriveStep external)
    (Link.start smallSessions) tr c ∧
    (∀ role, (c.session role).handshake.isComplete = true) ∧
    ¬ IdentityBound external smallArgs c.session := by
  obtain ⟨tr, c, run, hdone, hunsplit, hne⟩ := smallSessions_complete
  refine ⟨tr, c, run, hdone, fun hbound => ?_⟩
  have hnamed := hbound .initiator (exportedKeys external (c.session .initiator)) _ _
    (noiseExportTransportKeys_ok (hdone .initiator) hunsplit _)
  exact hne (Option.some.inj hnamed)

end Concrete

end SecurityNoise
