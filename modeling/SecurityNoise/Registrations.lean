import SecurityNoise.Plugin

/-!
# What is registered

An instance registers two providers, XX and then IK, whose vtables differ in the id they report
and the pattern they open. IK is optional. In every run an id leads to its own vtable, and to an
instance that is still in memory.

## Implementation notes

A host without `unregister_security` keeps what it has accepted after `gn_plugin_unregister`, so
a host that lets an instance register is assumed to let it unregister.
-/

namespace SecurityNoise

variable {X : External}

section Statement

/-- A host that lets an instance register lets it unregister. -/
def HostCall.TwoWay : HostCall → Prop
  | .init (some api) _ _ _ => api.registerSecurity = true → api.unregisterSecurity = true
  | _ => True

instance decidableTwoWay : ∀ call, Decidable (HostCall.TwoWay call)
  | .init (some api) _ _ _ =>
      inferInstanceAs (Decidable (api.registerSecurity = true → api.unregisterSecurity = true))
  | .init none _ _ _ => .isTrue trivial
  | .register _ _ => .isTrue trivial
  | .unregister _ => .isTrue trivial
  | .shutdown _ => .isTrue trivial
  | .handshakeOpen _ _ _ => .isTrue trivial
  | .entry _ _ _ => .isTrue trivial
  | .handshakeClose _ => .isTrue trivial
  | .destroy => .isTrue trivial
  | .freeBuffer _ => .isTrue trivial

/-- What holds of what hosts have registered. -/
structure RegistrationLaw (X : External) (g : Hosted) : Prop where
  /-- An id is registered with the vtable that reports it, and only IK's opens IK. -/
  dispatch : ∀ ctx id r, g.world.registered ctx id = some r →
    r.vtable.providerId = id ∧ (r.vtable.handshakeOpen = .ik ↔ id = kProviderIdIK)
  /-- It was registered by an instance in memory, which its host has yet to unregister. -/
  self : ∀ ctx id r, g.world.registered ctx id = some r →
    (∃ p, g.world.heap.live r.self = some (.plugin p) ∧ p.hostCtx = ctx) ∧
      g.account.enlisted r.self = true
  /-- IK is never there without XX. -/
  primary : ∀ ctx, g.world.registered ctx kProviderIdIK ≠ none →
    g.world.registered ctx kProviderIdXX ≠ none
  /-- A call that succeeds has registered XX, one that fails has registered nothing. -/
  registers : ∀ a answer result w, g.world.call X (.register (some a) answer) =
    .ok (.plugin result none, w) →
      if result = .ok then ∃ ctx, w.registered ctx kProviderIdXX = some ⟨kVtableXX, a⟩
      else w.registered = g.world.registered

end Statement

section Registrations

variable {w w' : World} {call : HostCall} {reply : HostReply} {g g' : Hosted}
  {tr : List (HostCall × HostReply)}

/-- What a host has of an instance at `a` once it has accepted both, or XX alone. -/
theorem World.register_cases (w : World) (a : Nat) (p : NoisePlugin)
    (answer : String → PluginResult) :
    ((w.register a p answer).1 ≠ .ok ∧ (w.register a p answer).2 = w) ∨
      ((w.register a p answer).1 = .ok ∧
        (∃ api, p.api = some api ∧ api.registerSecurity = true) ∧
        ((w.register a p answer).2 = w.enlist p.hostCtx kProviderIdXX (some ⟨kVtableXX, a⟩) ∨
          (w.register a p answer).2 =
            (w.enlist p.hostCtx kProviderIdXX (some ⟨kVtableXX, a⟩)).enlist p.hostCtx
              kProviderIdIK (some ⟨kVtableIK, a⟩))) := by
  unfold World.register
  split
  · exact Or.inl ⟨(fun hno => by cases hno), rfl⟩
  · rename_i api hapi
    split
    · exact Or.inl ⟨(fun hno => by cases hno), rfl⟩
    · rename_i hslot
      have hregister : api.registerSecurity = true := by simpa using hslot
      split
      · rename_i hxx
        exact Or.inl ⟨hxx, rfl⟩
      · right
        split
        · exact ⟨rfl, ⟨api, hapi, hregister⟩, Or.inl rfl⟩
        · exact ⟨rfl, ⟨api, hapi, hregister⟩, Or.inr rfl⟩

theorem World.unregister_cases (w : World) (p : NoisePlugin) :
    ((∀ api, p.api = some api → api.unregisterSecurity = false) ∧ w.unregister p = w) ∨
      w.unregister p =
        (w.enlist p.hostCtx kProviderIdIK none).enlist p.hostCtx kProviderIdXX none := by
  unfold World.unregister
  split
  · rename_i hapi
    refine Or.inl ⟨fun api hno => ?_, rfl⟩
    cases hapi.symm.trans hno
  · rename_i api hapi
    split
    · rename_i hslot
      refine Or.inl ⟨fun api' hapi' => ?_, rfl⟩
      obtain rfl := Option.some.inj (hapi.symm.trans hapi')
      simpa using hslot
    · exact Or.inr rfl

theorem World.enlist_self (w : World) (ctx : Option Nat) (id : String) (r : Option Registration) :
    (w.enlist ctx id r).registered ctx id = r := if_pos ⟨rfl, rfl⟩

theorem World.enlist_of_ne {ctx ctx' : Option Nat} {id id' : String} {r : Option Registration}
    (hne : ¬ (ctx' = ctx ∧ id' = id)) :
    (w.enlist ctx id r).registered ctx' id' = w.registered ctx' id' := if_neg hne

theorem ids_ne : kProviderIdIK ≠ kProviderIdXX := by decide

/-- A registration of the id, by an enlisted instance of that host. -/
structure Kept (w : World) (c : Account) (ctx : Option Nat) (id : String) (r : Registration) :
    Prop where
  vtable : (id = kProviderIdXX ∧ r.vtable = kVtableXX) ∨ (id = kProviderIdIK ∧ r.vtable = kVtableIK)
  live : ∃ api, w.heap.live r.self = some (.plugin ⟨some api, ctx⟩) ∧
    api.registerSecurity = true
  enlisted : c.enlisted r.self = true

/-- The invariant: an instance knows its host, which lets it unregister. -/
structure Enlistment (w : World) (c : Account) : Prop where
  instances : ∀ a p, w.heap.live a = some (.plugin p) → ∃ api, p = ⟨some api, api.hostCtx⟩ ∧
    (api.registerSecurity = true → api.unregisterSecurity = true)
  kept : ∀ ctx id r, w.registered ctx id = some r → Kept w c ctx id r
  primary : ∀ ctx, w.registered ctx kProviderIdIK ≠ none → w.registered ctx kProviderIdXX ≠ none

variable {c c' : Account}

/-- A call that registers nothing, and leaves the enlisted instances in memory. -/
theorem Enlistment.stays (h : Enlistment w c) (hregistered : w'.registered = w.registered)
    (henlisted : c'.enlisted = c.enlisted)
    (hold : ∀ a p, c.enlisted a = true → w.heap.live a = some (.plugin p) →
      w'.heap.live a = some (.plugin p))
    (hnew : ∀ a p, w'.heap.live a = some (.plugin p) → ∃ api, p = ⟨some api, api.hostCtx⟩ ∧
      (api.registerSecurity = true → api.unregisterSecurity = true)) : Enlistment w' c' := by
  constructor
  · exact hnew
  · intro ctx id r hr
    rw [hregistered] at hr
    obtain ⟨hvtable, ⟨api, hlive, hslot⟩, hin⟩ := h.kept ctx id r hr
    refine ⟨hvtable, ⟨api, hold _ _ hin hlive, hslot⟩, ?_⟩
    rw [henlisted]
    exact hin
  · rw [hregistered]
    exact h.primary

/-- A block that is no instance comes or changes where no instance is. -/
theorem Enlistment.store (h : Enlistment w c) {a : Nat} {cell : Cell}
    (hcell : ∀ p, cell ≠ .plugin p) (hplace : ∀ p, w.heap.live a ≠ some (.plugin p))
    (henlisted : c'.enlisted = c.enlisted) : Enlistment (w.store a cell) c' := by
  have hregistered : (w.store a cell).registered = w.registered := rfl
  apply h.stays hregistered henlisted
  · intro b p _ hlive
    have hne : b ≠ a := by
      rintro rfl
      exact hplace p hlive
    rw [World.store, Heap.put_live_of_ne hne]
    exact hlive
  · intro b p hlive
    obtain ⟨_, hno⟩ | ⟨_, hbefore⟩ := Heap.put_live_cases hlive
    · exact absurd hno.symm (hcell p)
    · exact h.instances b p hbefore

/-- What is freed is not enlisted. -/
theorem Enlistment.delete (h : Enlistment w c) {a : Nat} {left : Cell}
    (hplace : ∀ p, c.enlisted a = true → w.heap.live a ≠ some (.plugin p))
    (henlisted : c'.enlisted = c.enlisted) : Enlistment (w.delete a left) c' := by
  have hregistered : (w.delete a left).registered = w.registered := rfl
  apply h.stays hregistered henlisted
  · intro b p hin hlive
    have hne : b ≠ a := by
      rintro rfl
      exact hplace p hin hlive
    rw [World.delete, Heap.free_live_of_ne hne]
    exact hlive
  · intro b p hlive
    exact h.instances b p (Heap.free_live_cases hlive).2

/-- A host accepts a vtable of an instance, XX before IK. -/
theorem Enlistment.enlist (h : Enlistment w c) {a : Nat} {ctx : Option Nat} {id : String}
    {v : Vtable}
    (hvtable : (id = kProviderIdXX ∧ v = kVtableXX) ∨ (id = kProviderIdIK ∧ v = kVtableIK))
    (hlive : ∃ api, w.heap.live a = some (.plugin ⟨some api, ctx⟩) ∧ api.registerSecurity = true)
    (hin : c.enlisted a = true)
    (hxx : id = kProviderIdIK → w.registered ctx kProviderIdXX ≠ none) :
    Enlistment (w.enlist ctx id (some ⟨v, a⟩)) c := by
  constructor
  · exact h.instances
  · intro ctx' id' r hr
    by_cases hsame : ctx' = ctx ∧ id' = id
    · obtain ⟨rfl, rfl⟩ := hsame
      rw [World.enlist_self] at hr
      obtain rfl := Option.some.inj hr
      exact ⟨hvtable, hlive, hin⟩
    · rw [World.enlist_of_ne hsame] at hr
      obtain ⟨hv, hl, he⟩ := h.kept ctx' id' r hr
      exact ⟨hv, hl, he⟩
  · intro ctx' hik
    by_cases hsame : ctx' = ctx ∧ kProviderIdXX = id
    · obtain ⟨rfl, rfl⟩ := hsame
      rw [World.enlist_self]
      exact Option.some_ne_none _
    · rw [World.enlist_of_ne hsame]
      by_cases hnew : ctx' = ctx ∧ kProviderIdIK = id
      · rw [hnew.1]
        exact hxx hnew.2.symm
      · rw [World.enlist_of_ne hnew] at hik
        exact h.primary ctx' hik

/-- An instance may be enlisted before its host has accepted anything. -/
theorem Enlistment.enlisted (h : Enlistment w c) {a : Nat} : Enlistment w
    { c with enlisted := Function.update c.enlisted a true } := by
  constructor
  · exact h.instances
  · intro ctx id r hr
    obtain ⟨hv, hl, he⟩ := h.kept ctx id r hr
    refine ⟨hv, hl, ?_⟩
    by_cases hself : r.self = a
    · rw [hself]
      exact Function.update_self ..
    · exact (Function.update_of_ne hself ..).trans he
  · exact h.primary

/-- What is registered of an instance, its own host has accepted. -/
theorem Enlistment.of_self (h : Enlistment w c) {a : Nat} {api : HostApi}
    (hlive : w.heap.live a = some (.plugin ⟨some api, api.hostCtx⟩)) {ctx : Option Nat}
    {id : String} {r : Registration} (hr : w.registered ctx id = some r) (hself : r.self = a) :
    api.registerSecurity = true ∧ ctx = api.hostCtx ∧
      (id = kProviderIdXX ∨ id = kProviderIdIK) := by
  obtain ⟨hvtable, ⟨api', hl, hslot⟩, _⟩ := h.kept ctx id r hr
  rw [hself, hlive] at hl
  obtain ⟨hapi, hctx⟩ := NoisePlugin.mk.inj (Cell.plugin.inj (Option.some.inj hl))
  obtain rfl := Option.some.inj hapi
  refine ⟨hslot, hctx.symm, ?_⟩
  obtain ⟨hid, _⟩ | ⟨hid, _⟩ := hvtable
  · exact Or.inl hid
  · exact Or.inr hid

/-- A host that has removed both ids has neither. -/
theorem World.enlist_none (w : World) (host ctx : Option Nat) (id : String) :
    ((w.enlist host kProviderIdIK none).enlist host kProviderIdXX none).registered ctx id =
      if ctx = host ∧ (id = kProviderIdXX ∨ id = kProviderIdIK) then none
      else w.registered ctx id := by
  simp only [World.enlist]
  split
  · rename_i hxx
    rw [if_pos ⟨hxx.1, Or.inl hxx.2⟩]
  · rename_i hxx
    split
    · rename_i hik
      rw [if_pos ⟨hik.1, Or.inr hik.2⟩]
    · rename_i hik
      rw [if_neg]
      rintro ⟨hctx, hid | hid⟩
      · exact hxx ⟨hctx, hid⟩
      · exact hik ⟨hctx, hid⟩

/-- Registrations of other instances outlast that of `a`. -/
theorem Kept.outlast {ctx : Option Nat} {id : String} {r : Registration} {a : Nat}
    (h : Kept w c ctx id r) (hheap : w'.heap = w.heap) (hne : r.self ≠ a) :
    Kept w' { c with enlisted := Function.update c.enlisted a false } ctx id r where
  vtable := h.vtable
  live := by
    rw [hheap]
    exact h.live
  enlisted := (Function.update_of_ne hne ..).trans h.enlisted

/-- No registration is left of an instance that has unregistered. -/
theorem Enlistment.unregister (h : Enlistment w c) {a : Nat} {p : NoisePlugin}
    (hlive : w.heap.live a = some (.plugin p)) : Enlistment (w.unregister p)
      { c with enlisted := Function.update c.enlisted a false } := by
  obtain ⟨api, rfl, htwo⟩ := h.instances a p hlive
  obtain ⟨hslot, hsame⟩ | hremoved := w.unregister_cases ⟨some api, api.hostCtx⟩
  · rw [hsame]
    refine ⟨h.instances, ?_, h.primary⟩
    intro ctx id r hr
    -- a host without the slot has accepted nothing of the instance
    have hne : r.self ≠ a := by
      intro hself
      have hyes := htwo (h.of_self hlive hr hself).1
      rw [hslot api rfl] at hyes
      cases hyes
    exact (h.kept ctx id r hr).outlast rfl hne
  · rw [hremoved]
    refine ⟨h.instances, ?_, ?_⟩
    · intro ctx id r hr
      rw [World.enlist_none] at hr
      split at hr
      · cases hr
      · rename_i hother
        have hne : r.self ≠ a := by
          intro hself
          exact hother (h.of_self hlive hr hself).2
        exact (h.kept ctx id r hr).outlast rfl hne
    · intro ctx hik
      rw [World.enlist_none] at hik ⊢
      split at hik
      · exact absurd rfl hik
      · rename_i hother
        rw [if_neg]
        · exact h.primary ctx hik
        · exact fun hxx => hother ⟨hxx.1, Or.inr rfl⟩

/-- Every allowed call keeps the invariant. -/
theorem Effect.enlistment (he : Effect X w call reply w') (h : Enlistment w c)
    (hcall : Allowed c w.heap call) (htwo : call.TwoWay) :
    Enlistment w' (c.after (call, reply)) := by
  cases he with
  | quiet haccount _ _ =>
      rw [haccount]
      exact h
  | made api a =>
      have hregistered : (w.store a (.plugin ⟨some api, api.hostCtx⟩)).registered =
          w.registered := rfl
      refine h.stays hregistered rfl ?_ ?_
      · intro b p _ hlive
        rw [World.store, Heap.put_live_of_ne (hcall.ne hlive)]
        exact hlive
      · intro b p hlive
        obtain ⟨_, hp⟩ | ⟨_, hbefore⟩ := Heap.put_live_cases hlive
        · obtain rfl := Cell.plugin.inj hp
          exact ⟨api, rfl, htwo⟩
        · exact h.instances b p hbefore
  | @registered a p answer hlive =>
      have haccount : c.after (.register (some a) answer,
          .plugin (w.register a p answer).1 none) = { c with enlisted :=
            if (w.register a p answer).1 = .ok then Function.update c.enlisted a true
            else c.enlisted } := rfl
      rw [haccount]
      obtain ⟨hne, hsame⟩ | ⟨hok, ⟨api, hapi, hslot⟩, hwhich⟩ := w.register_cases a p answer
      · rw [hsame, if_neg hne]
        exact h
      · rw [if_pos hok]
        have hin := h.enlisted (a := a)
        have hself : Function.update c.enlisted a true a = true := Function.update_self ..
        have hmine : ∃ api, w.heap.live a = some (.plugin ⟨some api, p.hostCtx⟩) ∧
            api.registerSecurity = true := by
          refine ⟨api, ?_, hslot⟩
          rw [hlive, ← hapi]
        have hxx : Enlistment (w.enlist p.hostCtx kProviderIdXX (some ⟨kVtableXX, a⟩))
            { c with enlisted := Function.update c.enlisted a true } := by
          apply hin.enlist (Or.inl ⟨rfl, rfl⟩) hmine hself
          intro hno
          exact absurd hno.symm ids_ne
        obtain hw' | hw' := hwhich
        · rw [hw']
          exact hxx
        · rw [hw']
          apply hxx.enlist (Or.inr ⟨rfl, rfl⟩) hmine hself
          intro _
          rw [World.enlist_self]
          exact Option.some_ne_none _
  | unregistered hlive => exact h.unregister hlive
  | @shut a p hlive =>
      refine h.delete ?_ rfl
      intro _ hin
      rw [(hcall a rfl).2] at hin
      cases hin
  | @opened v args s a hopen =>
      refine h.store (fun p hno => by cases hno) ?_ rfl
      intro p hlive
      exact hcall.ne hlive rfl
  | @entered a s call place reply w' hlive henter =>
      obtain ⟨r, s', _, hafter⟩ := World.enter_cases henter
      have hstore : Enlistment (w.store a (.session s')) c := by
        refine h.store (fun p hno => by cases hno) ?_ rfl
        intro p hplugin
        cases hlive.symm.trans hplugin
      obtain ⟨bytes, b, _, rfl, rfl, rfl⟩ | ⟨rfl, rfl⟩ := hafter
      · refine hstore.store (fun p hno => by cases hno) ?_ rfl
        intro p hplugin
        have hne : a ≠ b := hcall.2.ne hlive
        rw [World.store, Heap.put_live_of_ne hne.symm] at hplugin
        exact hcall.2.ne hplugin rfl
      · exact hstore
  | @closed a s hlive =>
      refine h.delete ?_ rfl
      intro p _ hplugin
      cases hlive.symm.trans hplugin
  | @freed a bytes hlive =>
      refine h.delete ?_ rfl
      intro p _ hplugin
      cases hlive.symm.trans hplugin

theorem enlistment_of_run (run : Run (HostStep X) {} tr g)
    (htwo : ∀ l ∈ tr, l.1.TwoWay) : Enlistment g.world g.account := by
  have hguarded : Run (Guarded (fun _ l => l.1.TwoWay) (HostStep X)) {} tr g :=
    run.guarded fun l hl _ _ _ => htwo l hl
  apply hguarded.invariant (I := fun g => Enlistment g.world g.account)
  · rintro g ⟨call, reply⟩ g' h ⟨hcall, hallowed, hstep, haccount⟩
    rw [haccount]
    exact (World.call_effect hstep).enlistment h hallowed hcall
  · constructor
    · intro a p hno
      cases hno
    · intro ctx id r hno
      cases hno
    · intro ctx hno
      exact absurd rfl hno

/-- In every run, what is registered leads to the right vtable and a live instance. -/
theorem plugin_registrations (run : Run (HostStep X) {} tr g)
    (htwo : ∀ l ∈ tr, l.1.TwoWay) : RegistrationLaw X g := by
  have h := enlistment_of_run run htwo
  constructor
  · intro ctx id r hr
    obtain ⟨rfl, hv⟩ | ⟨rfl, hv⟩ := (h.kept ctx id r hr).vtable
    · rw [hv]
      decide
    · rw [hv]
      decide
  · intro ctx id r hr
    obtain ⟨_, ⟨api, hlive, _⟩, hin⟩ := h.kept ctx id r hr
    exact ⟨⟨_, hlive, rfl⟩, hin⟩
  · exact h.primary
  · intro a answer result w hcall
    unfold World.call at hcall
    simp only at hcall
    split at hcall
    · rename_i p hlive
      obtain ⟨hresult, rfl⟩ := Prod.mk.inj (Except.ok.inj hcall)
      obtain ⟨rfl, _⟩ := HostReply.plugin.inj hresult
      obtain ⟨hne, hsame⟩ | ⟨hok, _, hwhich⟩ := g.world.register_cases a p answer
      · rw [if_neg hne, hsame]
      · rw [if_pos hok]
        refine ⟨p.hostCtx, ?_⟩
        obtain hw' | hw' := hwhich
        · rw [hw', World.enlist_self]
        · rw [hw', World.enlist_of_ne, World.enlist_self]
          exact fun hno => ids_ne hno.2.symm
    · cases hcall

/-- A host that has accepted both. -/
theorem plugin_registrations_small : ∃ g : Hosted,
    (g.world.registered none kProviderIdIK).isSome = true ∧
      RegistrationLaw Miniature.external g := by
  obtain ⟨tr, g, run, hend⟩ := exists_host_run (X := Miniature.external) (smallHosting.take 2)
    (fun tr g => (g.world.registered none kProviderIdIK).isSome &&
      decide (∀ l ∈ tr, l.1.TwoWay)) (by decide +kernel)
  rw [Bool.and_eq_true, decide_eq_true_eq] at hend
  exact ⟨g, hend.1, plugin_registrations run hend.2⟩

end Registrations

end SecurityNoise
