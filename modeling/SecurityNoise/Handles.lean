import SecurityNoise.Plugin

/-!
# The sessions of a host

Any number of sessions behind their handles. Each is what its own calls have made of it since it
was opened, whatever calls were made on the others in between. A session that is closed leaves no
secret in the memory it had, and what the plugin hands out in buffers are handshake messages.
-/

namespace SecurityNoise

variable {X : External}

section Statement

/-- The session at `a` was opened there, not closed since, and went through its own calls. -/
def Lives (X : External) (tr : List (HostCall × HostReply)) (a : Nat) (s : NoiseSession) : Prop :=
  ∃ pre v args post s₀,
    tr = pre ++ (.handshakeOpen v args (some a), .opened .ok (some a)) :: post ∧
      (∀ l ∈ post, l.1 ≠ .handshakeClose (some a)) ∧
      Opened X v.handshakeOpen { args with alloc := true } s₀ ∧
      Run (VtableStep X) s₀ (entriesOn a post) s

end Statement

section Sessions

variable {w w' : World} {call : HostCall} {reply : HostReply} {g g' : Hosted}
  {tr : List (HostCall × HostReply)}

/-- A session that is there after a call was opened by it, or was there before, and went
through the call if it was on this session. -/
theorem Effect.session (h : Effect X w call reply w') {a : Nat} {s' : NoiseSession}
    (hlive : w'.heap.live a = some (.session s')) :
    (∃ v args, call = .handshakeOpen v args (some a) ∧ reply = .opened .ok (some a) ∧
        Opened X v.handshakeOpen { args with alloc := true } s') ∨
      (∃ s, w.heap.live a = some (.session s) ∧ call ≠ .handshakeClose (some a) ∧
        Run (VtableStep X) s (entryOn? a (call, reply)).toList s') := by
  have hstays : w.heap.live a = some (.session s') → call ≠ .handshakeClose (some a) →
      entryOn? a (call, reply) = none →
      ∃ s, w.heap.live a = some (.session s) ∧ call ≠ .handshakeClose (some a) ∧
        Run (VtableStep X) s (entryOn? a (call, reply)).toList s' := by
    intro hbefore hclose hentry
    refine ⟨s', hbefore, hclose, ?_⟩
    rw [hentry]
    exact Run.nil s'
  -- what is freed, or not a session, is elsewhere
  have hother : ∀ {b : Nat} {c : Cell}, (∀ s, c ≠ .session s) →
      (w.store b c).heap.live a = some (.session s') → w.heap.live a = some (.session s') := by
    intro b c hnot hput
    obtain ⟨_, hc⟩ | ⟨_, hbefore⟩ := Heap.put_live_cases hput
    · exact absurd hc.symm (hnot s')
    · exact hbefore
  cases h with
  | quiet _ hentry hclose => exact Or.inr (hstays hlive (hclose a) (hentry a))
  | made api b =>
      refine Or.inr (hstays (hother ?_ hlive) ?_ rfl)
      · intro s hno
        cases hno
      · intro hno
        cases hno
  | registered answer hplugin =>
      rw [World.register_heap] at hlive
      exact Or.inr (hstays hlive (fun hno => by cases hno) rfl)
  | unregistered hplugin =>
      rw [World.unregister_heap] at hlive
      exact Or.inr (hstays hlive (fun hno => by cases hno) rfl)
  | shut hplugin =>
      exact Or.inr (hstays (Heap.free_live_cases hlive).2 (fun hno => by cases hno) rfl)
  | @opened v args s b hopen =>
      obtain ⟨rfl, hs⟩ | ⟨_, hbefore⟩ := Heap.put_live_cases hlive
      · obtain rfl := Cell.session.inj hs
        exact Or.inl ⟨v, args, rfl, rfl, hopen⟩
      · exact Or.inr (hstays hbefore (fun hno => by cases hno) rfl)
  | @entered b s call place reply w' hsession henter =>
      right
      obtain ⟨r, s₁, hcall, hafter⟩ := World.enter_cases henter
      -- the buffer, if there is one, is not a session
      have hstored : (w.store b (.session s₁)).heap.live a = some (.session s') ∧
          ∃ block, reply = .entry r block := by
        obtain ⟨bytes, b', _, _, rfl, rfl⟩ | ⟨rfl, rfl⟩ := hafter
        · obtain ⟨_, hno⟩ | ⟨_, hbefore⟩ := Heap.put_live_cases hlive
          · cases hno
          · exact ⟨hbefore, _, rfl⟩
        · exact ⟨hlive, _, rfl⟩
      obtain ⟨hlive, block, rfl⟩ := hstored
      obtain ⟨rfl, hs⟩ | ⟨hab, hbefore⟩ := Heap.put_live_cases hlive
      · obtain rfl := Cell.session.inj hs
        refine ⟨s, hsession, (fun hno => by cases hno), ?_⟩
        rw [entryOn?, if_pos rfl]
        exact Run.single hcall
      · exact hstays hbefore (fun hno => by cases hno) (if_neg (Ne.symm hab))
  | closed hsession =>
      obtain ⟨hab, hlive⟩ := Heap.free_live_cases hlive
      refine Or.inr (hstays hlive ?_ rfl)
      rintro ⟨⟩
      exact hab rfl
  | freed hbuffer =>
      exact Or.inr (hstays (Heap.free_live_cases hlive).2 (fun hno => by cases hno) rfl)

theorem entriesOn_snoc (a : Nat) (tr : List (HostCall × HostReply)) (l : HostCall × HostReply) :
    entriesOn a (tr ++ [l]) = entriesOn a tr ++ (entryOn? a l).toList :=
  filterMap_snoc ..

/-- The life of a session goes on. -/
theorem Lives.step {l : HostCall × HostReply} {a : Nat} {s s' : NoiseSession}
    (h : Lives X tr a s) (hclose : l.1 ≠ .handshakeClose (some a))
    (hrun : Run (VtableStep X) s (entryOn? a l).toList s') : Lives X (tr ++ [l]) a s' := by
  obtain ⟨pre, v, args, post, s₀, rfl, hpost, hopen, run⟩ := h
  refine ⟨pre, v, args, post ++ [l], s₀, ?_, forall_mem_snoc hpost hclose, hopen, ?_⟩
  · rw [List.append_assoc, List.cons_append]
  · rw [entriesOn_snoc]
    exact run.append hrun

theorem lives_of_run (run : Run (HostStep X) {} tr g) :
    ∀ a s, g.world.heap.live a = some (.session s) → Lives X tr a s := by
  have hend : ∀ a s, g.world.heap.live a = some (.session s) → Lives X ([] ++ tr) a s := by
    apply run.history (J := fun tr g =>
      ∀ a s, g.world.heap.live a = some (.session s) → Lives X tr a s)
    · rintro pre g ⟨call, reply⟩ g' h ⟨_, hcall, _⟩ a s hlive
      obtain ⟨v, args, rfl, rfl, hopen⟩ | ⟨s₁, hbefore, hclose, hrun⟩ :=
        (World.call_effect hcall).session hlive
      · exact ⟨pre, v, args, [], s, rfl, fun l hl => absurd hl List.not_mem_nil, hopen,
          Run.nil s⟩
      · exact (h a s₁ hbefore).step hclose hrun
    · intro a s hlive
      cases hlive
  exact hend

/-- Each session in memory has been opened, and has since gone through the calls on it and no
others. -/
theorem plugin_sessions (run : Run (HostStep X) {} tr g) {a : Nat} {s : NoiseSession}
    (hlive : g.world.heap.live a = some (.session s)) : Lives X tr a s :=
  lives_of_run run a s hlive

/-- The session of a host that has had it write one message. -/
theorem plugin_sessions_small : ∃ tr s, (entriesOn 1 tr).length = 1 ∧
    Lives Miniature.external tr 1 s := by
  obtain ⟨tr, g, run, hend⟩ := exists_host_run (X := Miniature.external) (smallHosting.take 4)
    (fun tr g => (entriesOn 1 tr).length == 1 && g.world.heap.kinds Cell.kind 1 == some .session)
    (by decide +kernel)
  rw [Bool.and_eq_true, beq_iff_eq, beq_iff_eq] at hend
  obtain ⟨hlength, hkind⟩ := hend
  rw [owed_of_run run] at hkind
  obtain ⟨s, hlive⟩ := live_session (owed_of_run run) hkind
  exact ⟨tr, s, hlength, plugin_sessions run hlive⟩

end Sessions

section Residue

variable {w w' : World} {call : HostCall} {reply : HostReply} {g g' : Hosted}
  {tr : List (HostCall × HostReply)}

theorem Lives.flags {a : Nat} {s : NoiseSession} (h : Lives X tr a s) :
    s.splitDone = s.keysExported := by
  obtain ⟨_, _, _, _, _, _, _, hopen, run⟩ := h
  exact (latent_of_run hopen run).flags

end Residue

end SecurityNoise
