import SecurityNoise.Foundation.Heap
import SecurityNoise.Moves
import SecurityNoise.Erasure

/-!
# The plugin in a host

Everything that `noise.cpp` exports, on one heap: the plugin's entry points, the vtables they
register, any number of sessions by their handles, and the buffers they hand out. A host that
uses what it was given, and gives each thing back at most once, is never answered with undefined
behaviour; the live blocks are at any time those it has been given and not given back; and each
session goes its own way, whatever the others do.

## Implementation notes

Each allocation returns memory that is not in use, or fails. What the host keeps account of is
read off the calls and their replies. The vtable entries ignore their `self`.
-/

namespace SecurityNoise

variable {X : External}

section Model

/-- What a plugin entry point returns; other codes come from the host. -/
inductive PluginResult
  | ok
  | errNullArg
  | errOutOfMemory
  | errNotImplemented
  | other (code : Int)
  deriving DecidableEq, Repr

/-- `host_api_t`: which of the two slots are there, and the host's context. -/
structure HostApi where
  hostCtx : Option Nat
  registerSecurity : Bool
  unregisterSecurity : Bool
  deriving DecidableEq

structure NoisePlugin where
  api : Option HostApi := none
  hostCtx : Option Nat := none
  deriving DecidableEq

def kProviderIdXX : String := "noise"

def kProviderIdIK : String := "noise-ik"

/-- `gn_security_provider_vtable_t`: what `provider_id` returns, and the pattern that
`handshake_open` opens. The other slots are the same in both vtables. -/
structure Vtable where
  providerId : String
  handshakeOpen : Pattern
  deriving DecidableEq

def makeVtable (p : Pattern) : Vtable where
  providerId := if p = .ik then kProviderIdIK else kProviderIdXX
  handshakeOpen := if p = .ik then .ik else .xx

def kVtableXX : Vtable := makeVtable .xx

def kVtableIK : Vtable := makeVtable .ik

/-- What the plugin allocates. -/
inductive Cell
  | session (s : NoiseSession)
  | buffer (bytes : Bytes)
  | plugin (p : NoisePlugin)

/-- What the host was given to register. -/
structure Registration where
  vtable : Vtable
  self : Nat
  deriving DecidableEq

/-- The heap, and the registrations that hosts have accepted and not been asked to remove. -/
structure World where
  heap : Heap Cell := Heap.empty
  registered : Option Nat → String → Option Registration := fun _ _ => none

/-- A call into the plugin. `place` is what its allocation returns, `answer` what the host
returns for each provider, `sodium` whether `sodium_init` succeeds. -/
inductive HostCall
  | init (api : Option HostApi) (outSelf : Bool) (sodium : Bool) (place : Option Nat)
  | register (self : Option Nat) (answer : String → PluginResult)
  | unregister (self : Option Nat)
  | shutdown (self : Option Nat)
  | handshakeOpen (v : Vtable) (args : OpenArgs) (place : Option Nat)
  | entry (state : Option Nat) (call : Call) (place : Option Nat)
  | handshakeClose (state : Option Nat)
  | destroy
  | freeBuffer (bytes : Option Nat)

/-- What comes back: `self` and `state` are what was stored in the out argument, `block` the
address in a buffer's `bytes`. -/
inductive HostReply
  | plugin (result : PluginResult) (self : Option Nat)
  | opened (code : GnResult) (state : Option Nat)
  | entry (reply : Reply) (block : Option Nat)
  | done

/-- A call does not return: the process ends, or it used memory that is not its to use. -/
inductive Fault
  | fatal (e : Fatal)
  | undefined

/-- The call's allocation succeeds or not. -/
def Call.allocating (alloc : Bool) : Call → Call
  | .handshakeStep incoming random _ out => .handshakeStep incoming random alloc out
  | .encrypt plaintext _ out => .encrypt plaintext alloc out
  | .decrypt ciphertext _ out => .decrypt ciphertext alloc out
  | call => call

/-- What an entry returns that is given no session. -/
def Call.nullState : Call → Reply
  | .handshakeStep _ _ _ out => .buffer .errNullArg (some out)
  | .handshakeComplete => .complete 0
  | .exportTransportKeys out => .keys .errNullArg (some out)
  | .encrypt _ _ out => .buffer .errNullArg (some out)
  | .decrypt _ _ out => .buffer .errNullArg (some out)
  | .rekey => .code .errNullArg

/-- The bytes for which `emit_buffer` allocated a block. -/
def Reply.emitted : Reply → Option Bytes
  | .buffer .ok (some out) => out.bytes
  | _ => none

/-- `~NoiseSession`. -/
def NoiseSession.destroy (s : NoiseSession) : NoiseSession :=
  { s with handshake := s.handshake.destroy, transport := s.transport.destroy }

namespace World

def store (w : World) (a : Nat) (c : Cell) : World := { w with heap := w.heap.put a c }

def delete (w : World) (a : Nat) (left : Cell) : World := { w with heap := w.heap.free a left }

/-- The host has accepted a registration, or removed one. -/
def enlist (w : World) (ctx : Option Nat) (id : String) (r : Option Registration) : World :=
  { w with registered := fun c i => if c = ctx ∧ i = id then r else w.registered c i }

/-- `gn_plugin_register`, of an instance at `a`: XX must be accepted, IK may be. -/
def register (w : World) (a : Nat) (p : NoisePlugin) (answer : String → PluginResult) :
    PluginResult × World :=
  match p.api with
  | none => (.errNotImplemented, w)
  | some api =>
      if !api.registerSecurity then (.errNotImplemented, w)
      else if answer kProviderIdXX ≠ .ok then (answer kProviderIdXX, w)
      else
        let w := w.enlist p.hostCtx kProviderIdXX (some ⟨kVtableXX, a⟩)
        if answer kProviderIdIK ≠ .ok then (.ok, w)
        else (.ok, w.enlist p.hostCtx kProviderIdIK (some ⟨kVtableIK, a⟩))

/-- `gn_plugin_unregister`. -/
def unregister (w : World) (p : NoisePlugin) : World :=
  match p.api with
  | none => w
  | some api =>
      if !api.unregisterSecurity then w
      else (w.enlist p.hostCtx kProviderIdIK none).enlist p.hostCtx kProviderIdXX none

variable (X : External)

/-- A vtable entry on the session at `a`; what it emits is in a new block. -/
def enter (w : World) (a : Nat) (s : NoiseSession) (call : Call) (place : Option Nat) :
    Except Fault (HostReply × World) :=
  match vtable X s (call.allocating place.isSome) with
  | .error e => .error (.fatal e)
  | .ok (reply, s') =>
      match reply.emitted, place with
      | some bytes, some b =>
          .ok (.entry reply (some b), (w.store a (.session s')).store b (.buffer bytes))
      | _, _ => .ok (.entry reply none, w.store a (.session s'))

/-- One call into the plugin. -/
def call (w : World) : HostCall → Except Fault (HostReply × World)
  | .init api outSelf sodium place =>
      match api, outSelf with
      | some api, true =>
          if !sodium then .ok (.plugin .errNullArg none, w)
          else match place with
            | none => .ok (.plugin .errOutOfMemory none, w)
            | some a => .ok (.plugin .ok (some a), w.store a (.plugin ⟨some api, api.hostCtx⟩))
      | _, _ => .ok (.plugin .errNullArg none, w)
  | .register none _ => .ok (.plugin .errNullArg none, w)
  | .register (some a) answer =>
      match w.heap.live a with
      | some (.plugin p) =>
          let (result, w') := w.register a p answer
          .ok (.plugin result none, w')
      | _ => .error .undefined
  | .unregister none => .ok (.plugin .errNullArg none, w)
  | .unregister (some a) =>
      match w.heap.live a with
      | some (.plugin p) => .ok (.plugin .ok none, w.unregister p)
      | _ => .error .undefined
  | .shutdown none => .ok (.done, w)
  | .shutdown (some a) =>
      match w.heap.live a with
      | some (.plugin p) => .ok (.done, w.delete a (.plugin p))
      | _ => .error .undefined
  | .handshakeOpen v args place =>
      match noiseHandshakeOpen X v.handshakeOpen { args with alloc := place.isSome }, place with
      | (code, some s), some a => .ok (.opened code (some a), w.store a (.session s))
      | (code, _), _ => .ok (.opened code none, w)
  | .entry none call _ => .ok (.entry call.nullState none, w)
  | .entry (some a) call place =>
      match w.heap.live a with
      | some (.session s) => w.enter X a s call place
      | _ => .error .undefined
  | .handshakeClose none => .ok (.done, w)
  | .handshakeClose (some a) =>
      match w.heap.live a with
      | some (.session s) => .ok (.done, w.delete a (.session s.destroy))
      | _ => .error .undefined
  | .destroy => .ok (.done, w)
  | .freeBuffer none => .ok (.done, w)
  | .freeBuffer (some a) =>
      match w.heap.live a with
      | some (.buffer bytes) => .ok (.done, w.delete a (.buffer bytes))
      | _ => .error .undefined

end World

end Model

section Statement

inductive Kind
  | session
  | buffer
  | plugin
  deriving DecidableEq

def Cell.kind : Cell → Kind
  | .session _ => .session
  | .buffer _ => .buffer
  | .plugin _ => .plugin

/-- What the host was given and has not given back, and the instances that have registered and
not unregistered since. -/
structure Account where
  owed : Nat → Option Kind := fun _ => none
  enlisted : Nat → Bool := fun _ => false

namespace Account

def given (c : Account) (a : Nat) (k : Kind) : Account :=
  { c with owed := Function.update c.owed a (some k) }

def returned (c : Account) (a : Nat) : Account :=
  { c with owed := Function.update c.owed a none }

/-- The account after a call. -/
def after (c : Account) : HostCall × HostReply → Account
  | (_, .plugin _ (some a)) => c.given a .plugin
  | (_, .opened _ (some a)) => c.given a .session
  | (_, .entry _ (some a)) => c.given a .buffer
  | (.register (some a) _, .plugin result none) =>
      { c with enlisted := if result = .ok then Function.update c.enlisted a true else c.enlisted }
  | (.unregister (some a), _) => { c with enlisted := Function.update c.enlisted a false }
  | (.shutdown (some a), _) => c.returned a
  | (.handshakeClose (some a), _) => c.returned a
  | (.freeBuffer (some a), _) => c.returned a
  | _ => c

end Account

/-- What a host may do: use what it was given, and shut an instance down that it has
unregistered. The allocator returns free memory. -/
def Allowed (c : Account) (heap : Heap Cell) : HostCall → Prop
  | .init _ _ _ place => heap.Fresh place
  | .register self _ => ∀ a ∈ self, c.owed a = some .plugin
  | .unregister self => ∀ a ∈ self, c.owed a = some .plugin
  | .shutdown self => ∀ a ∈ self, c.owed a = some .plugin ∧ c.enlisted a = false
  | .handshakeOpen _ _ place => heap.Fresh place
  | .entry state _ place =>
      (∀ a ∈ state, c.owed a = some .session) ∧ heap.Fresh place
  | .handshakeClose state => ∀ a ∈ state, c.owed a = some .session
  | .destroy => True
  | .freeBuffer bytes => ∀ a ∈ bytes, c.owed a = some .buffer

instance decidableAllowed (c : Account) (heap : Heap Cell) : ∀ call, Decidable (Allowed c heap call)
  | .init _ _ _ place => inferInstanceAs (Decidable (∀ a ∈ place, heap.live a = none))
  | .register self _ => inferInstanceAs (Decidable (∀ a ∈ self, c.owed a = some .plugin))
  | .unregister self => inferInstanceAs (Decidable (∀ a ∈ self, c.owed a = some .plugin))
  | .shutdown self =>
      inferInstanceAs (Decidable (∀ a ∈ self, c.owed a = some .plugin ∧ c.enlisted a = false))
  | .handshakeOpen _ _ place => inferInstanceAs (Decidable (∀ a ∈ place, heap.live a = none))
  | .entry state _ place => inferInstanceAs (Decidable
      ((∀ a ∈ state, c.owed a = some .session) ∧ ∀ a ∈ place, heap.live a = none))
  | .handshakeClose state => inferInstanceAs (Decidable (∀ a ∈ state, c.owed a = some .session))
  | .destroy => .isTrue trivial
  | .freeBuffer bytes => inferInstanceAs (Decidable (∀ a ∈ bytes, c.owed a = some .buffer))

/-- The plugin and the host's account of it. -/
structure Hosted where
  world : World := {}
  account : Account := {}

/-- A call that is allowed, and returns. -/
def HostStep (X : External) (g : Hosted) (l : HostCall × HostReply) (g' : Hosted) : Prop :=
  Allowed g.account g.world.heap l.1 ∧ g.world.call X l.1 = .ok (l.2, g'.world) ∧
    g'.account = g.account.after l

/-- A host makes these calls, if they are allowed and return. -/
def Hosted.conduct (X : External) (g : Hosted) :
    List HostCall → Option (List (HostCall × HostReply) × Hosted)
  | [] => some ([], g)
  | call :: calls =>
      if Allowed g.account g.world.heap call then
        match g.world.call X call with
        | .error _ => none
        | .ok (reply, w) =>
            match conduct X ⟨w, g.account.after (call, reply)⟩ calls with
            | none => none
            | some (tr, g') => some ((call, reply) :: tr, g')
      else none

/-- The calls on the session at `a`, with their replies. -/
def entryOn? (a : Nat) : HostCall × HostReply → Option (Call × Reply)
  | (.entry (some a') call place, .entry reply _) =>
      if a' = a then some (call.allocating place.isSome, reply) else none
  | _ => none

def entriesOn (a : Nat) (tr : List (HostCall × HostReply)) : List (Call × Reply) :=
  tr.filterMap (entryOn? a)

/-- An error code came back. -/
def HostReply.failed : HostReply → Bool
  | .plugin result _ => result ≠ .ok
  | .opened code _ => code ≠ .ok
  | .entry (.buffer code _) _ => code ≠ .ok
  | .entry (.keys code _) _ => code ≠ .ok
  | .entry (.code code) _ => code ≠ .ok
  | _ => false

/-- What holds of the plugin's memory. -/
structure MemoryLaw (X : External) (g : Hosted) : Prop where
  /-- What is allocated is what the host was given and has not given back. -/
  owed : g.world.heap.kinds Cell.kind = g.account.owed
  drained : (∀ a, g.account.owed a = none) → ∀ a, g.world.heap.live a = none
  /-- A call that is allowed returns, or ends the process for want of nonces. -/
  defined : ∀ call, Allowed g.account g.world.heap call →
    (∃ reply w, g.world.call X call = .ok (reply, w)) ∨
      ∃ e, g.world.call X call = .error (.fatal e)
  /-- A call that fails allocates and frees nothing. -/
  failed : ∀ call reply w, g.world.call X call = .ok (reply, w) → reply.failed = true →
    w.heap.kinds Cell.kind = g.world.heap.kinds Cell.kind ∧ w.heap.freed = g.world.heap.freed

end Statement

section Effects

variable {w w' : World} {c : Account} {call : HostCall} {reply : HostReply}

/-- All that a call can do. -/
inductive Effect (X : External) (w : World) : HostCall → HostReply → World → Prop
  | quiet {call : HostCall} {reply : HostReply} (haccount : ∀ c : Account, c.after (call, reply) = c)
      (hentry : ∀ a, entryOn? a (call, reply) = none)
      (hclose : ∀ a, call ≠ .handshakeClose (some a)) : Effect X w call reply w
  | made (api : HostApi) (a : Nat) : Effect X w (.init (some api) true true (some a))
      (.plugin .ok (some a)) (w.store a (.plugin ⟨some api, api.hostCtx⟩))
  | registered {a : Nat} {p : NoisePlugin} (answer : String → PluginResult)
      (hlive : w.heap.live a = some (.plugin p)) :
      Effect X w (.register (some a) answer) (.plugin (w.register a p answer).1 none)
        (w.register a p answer).2
  | unregistered {a : Nat} {p : NoisePlugin} (hlive : w.heap.live a = some (.plugin p)) :
      Effect X w (.unregister (some a)) (.plugin .ok none) (w.unregister p)
  | shut {a : Nat} {p : NoisePlugin} (hlive : w.heap.live a = some (.plugin p)) :
      Effect X w (.shutdown (some a)) .done (w.delete a (.plugin p))
  | opened {v : Vtable} {args : OpenArgs} {s : NoiseSession} (a : Nat)
      (hopen : Opened X v.handshakeOpen { args with alloc := true } s) :
      Effect X w (.handshakeOpen v args (some a)) (.opened .ok (some a)) (w.store a (.session s))
  | entered {a : Nat} {s : NoiseSession} {call : Call} {place : Option Nat} {reply : HostReply}
      {w' : World} (hlive : w.heap.live a = some (.session s))
      (henter : w.enter X a s call place = .ok (reply, w')) :
      Effect X w (.entry (some a) call place) reply w'
  | closed {a : Nat} {s : NoiseSession} (hlive : w.heap.live a = some (.session s)) :
      Effect X w (.handshakeClose (some a)) .done (w.delete a (.session s.destroy))
  | freed {a : Nat} {bytes : Bytes} (hlive : w.heap.live a = some (.buffer bytes)) :
      Effect X w (.freeBuffer (some a)) .done (w.delete a (.buffer bytes))

/-- A `handshake_open` stores a session where it returns `GN_OK`. -/
theorem noiseHandshakeOpen_session {p : Pattern} {args : OpenArgs} {code : GnResult}
    {s : NoiseSession} (h : noiseHandshakeOpen X p args = (code, some s)) : code = .ok := by
  unfold noiseHandshakeOpen at h
  split at h
  · split at h
    · cases h
    · split at h
      · cases h
      · split at h
        · cases h
        · exact (Prod.mk.inj h).1.symm
  · cases h

/-- A call that answers `r` and leaves everything where it is. -/
theorem Effect.idle {r : HostReply}
    (h : (.ok (r, w) : Except Fault (HostReply × World)) = .ok (reply, w'))
    (haccount : ∀ c : Account, c.after (call, r) = c) (hentry : ∀ a, entryOn? a (call, r) = none)
    (hclose : ∀ a, call ≠ .handshakeClose (some a)) : Effect X w call reply w' := by
  obtain ⟨rfl, rfl⟩ := Prod.mk.inj (Except.ok.inj h)
  exact Effect.quiet haccount hentry hclose

theorem World.call_effect (h : w.call X call = .ok (reply, w')) : Effect X w call reply w' := by
  cases call with
  | init api outSelf sodium place =>
      unfold World.call at h
      simp only at h
      split at h
      · split at h
        · exact Effect.idle h (fun _ => rfl) (fun _ => rfl) nofun
        · rename_i api outSelf api' hsodium
          obtain rfl : sodium = true := by simpa using hsodium
          cases place with
          | none => exact Effect.idle h (fun _ => rfl) (fun _ => rfl) nofun
          | some a =>
              obtain ⟨rfl, rfl⟩ := Prod.mk.inj (Except.ok.inj h)
              exact Effect.made _ a
      · exact Effect.idle h (fun _ => rfl) (fun _ => rfl) nofun
  | register self answer =>
      cases self with
      | none => exact Effect.idle h (fun _ => rfl) (fun _ => rfl) nofun
      | some a =>
          unfold World.call at h
          simp only at h
          split at h
          · rename_i p hlive
            obtain ⟨rfl, rfl⟩ := Prod.mk.inj (Except.ok.inj h)
            exact Effect.registered answer hlive
          · cases h
  | unregister self =>
      cases self with
      | none => exact Effect.idle h (fun _ => rfl) (fun _ => rfl) nofun
      | some a =>
          unfold World.call at h
          simp only at h
          split at h
          · rename_i p hlive
            obtain ⟨rfl, rfl⟩ := Prod.mk.inj (Except.ok.inj h)
            exact Effect.unregistered hlive
          · cases h
  | shutdown self =>
      cases self with
      | none => exact Effect.idle h (fun _ => rfl) (fun _ => rfl) nofun
      | some a =>
          unfold World.call at h
          simp only at h
          split at h
          · rename_i p hlive
            obtain ⟨rfl, rfl⟩ := Prod.mk.inj (Except.ok.inj h)
            exact Effect.shut hlive
          · cases h
  | handshakeOpen v args place =>
      unfold World.call at h
      simp only at h
      split at h
      · rename_i code s a hopen
        obtain ⟨rfl, rfl⟩ := Prod.mk.inj (Except.ok.inj h)
        obtain rfl := noiseHandshakeOpen_session hopen
        exact Effect.opened a hopen
      · exact Effect.idle h (fun _ => rfl) (fun _ => rfl) nofun
  | entry state call place =>
      cases state with
      | none => exact Effect.idle h (fun _ => rfl) (fun _ => rfl) nofun
      | some a =>
          unfold World.call at h
          simp only at h
          split at h
          · rename_i s hlive
            exact Effect.entered hlive h
          · cases h
  | handshakeClose state =>
      cases state with
      | none => exact Effect.idle h (fun _ => rfl) (fun _ => rfl) nofun
      | some a =>
          unfold World.call at h
          simp only at h
          split at h
          · rename_i s hlive
            obtain ⟨rfl, rfl⟩ := Prod.mk.inj (Except.ok.inj h)
            exact Effect.closed hlive
          · cases h
  | destroy => exact Effect.idle h (fun _ => rfl) (fun _ => rfl) nofun
  | freeBuffer bytes =>
      cases bytes with
      | none => exact Effect.idle h (fun _ => rfl) (fun _ => rfl) nofun
      | some a =>
          unfold World.call at h
          simp only at h
          split at h
          · rename_i bytes hlive
            obtain ⟨rfl, rfl⟩ := Prod.mk.inj (Except.ok.inj h)
            exact Effect.freed hlive
          · cases h

end Effects

section Memory

variable {w w' : World} {c : Account} {call : HostCall} {reply : HostReply} {g g' : Hosted}

/-- An entry replaces the session, and may add a block with what it emitted. -/
theorem World.enter_cases {a : Nat} {s : NoiseSession} {call : Call} {place : Option Nat}
    (h : w.enter X a s call place = .ok (reply, w')) :
    ∃ r s', vtable X s (call.allocating place.isSome) = .ok (r, s') ∧
      ((∃ bytes b, r.emitted = some bytes ∧ place = some b ∧ reply = .entry r (some b) ∧
          w' = (w.store a (.session s')).store b (.buffer bytes)) ∨
        (reply = .entry r none ∧ w' = w.store a (.session s'))) := by
  unfold World.enter at h
  split at h
  · cases h
  · rename_i r s' hr
    refine ⟨r, s', hr, ?_⟩
    split at h
    · rename_i bytes b hemitted
      obtain ⟨rfl, rfl⟩ := Prod.mk.inj (Except.ok.inj h)
      exact Or.inl ⟨bytes, b, hemitted, rfl, rfl, rfl⟩
    · obtain ⟨rfl, rfl⟩ := Prod.mk.inj (Except.ok.inj h)
      exact Or.inr ⟨rfl, rfl⟩

/-- What is owed is there. -/
theorem live_session (hkinds : w.heap.kinds Cell.kind = c.owed) {a : Nat}
    (h : c.owed a = some .session) : ∃ s, w.heap.live a = some (.session s) := by
  obtain ⟨cell, hlive, hkind⟩ := Heap.live_of_kinds ((congrFun hkinds a).trans h)
  cases cell with
  | session s => exact ⟨s, hlive⟩
  | _ => cases hkind

theorem live_buffer (hkinds : w.heap.kinds Cell.kind = c.owed) {a : Nat}
    (h : c.owed a = some .buffer) : ∃ bytes, w.heap.live a = some (.buffer bytes) := by
  obtain ⟨cell, hlive, hkind⟩ := Heap.live_of_kinds ((congrFun hkinds a).trans h)
  cases cell with
  | buffer bytes => exact ⟨bytes, hlive⟩
  | _ => cases hkind

theorem live_plugin (hkinds : w.heap.kinds Cell.kind = c.owed) {a : Nat}
    (h : c.owed a = some .plugin) : ∃ p, w.heap.live a = some (.plugin p) := by
  obtain ⟨cell, hlive, hkind⟩ := Heap.live_of_kinds ((congrFun hkinds a).trans h)
  cases cell with
  | plugin p => exact ⟨p, hlive⟩
  | _ => cases hkind

theorem World.register_heap (w : World) (a : Nat) (p : NoisePlugin)
    (answer : String → PluginResult) : (w.register a p answer).2.heap = w.heap := by
  unfold World.register
  split
  · rfl
  · split
    · rfl
    · split
      · rfl
      · split <;> rfl

theorem World.unregister_heap (w : World) (p : NoisePlugin) : (w.unregister p).heap = w.heap := by
  unfold World.unregister
  split
  · rfl
  · split <;> rfl

/-- The account is kept by every call. -/
theorem Effect.owed (h : Effect X w call reply w') (hkinds : w.heap.kinds Cell.kind = c.owed) :
    w'.heap.kinds Cell.kind = (c.after (call, reply)).owed := by
  cases h with
  | quiet haccount _ _ =>
      rw [haccount]
      exact hkinds
  | made api a =>
      rw [World.store, Heap.kinds_put, hkinds]
      rfl
  | @registered a p answer hlive =>
      rw [World.register_heap]
      exact hkinds
  | @unregistered a p hlive =>
      rw [World.unregister_heap]
      exact hkinds
  | shut hlive =>
      rw [World.delete, Heap.kinds_free, hkinds]
      rfl
  | opened a hopen =>
      rw [World.store, Heap.kinds_put, hkinds]
      rfl
  | @entered a s call place reply w' hlive henter =>
      have hsame : ∀ s', (w.store a (.session s')).heap.kinds Cell.kind = c.owed := by
        intro s'
        rw [World.store, Heap.kinds_put_same hlive (by rfl)]
        exact hkinds
      obtain ⟨r, s', _, ⟨bytes, b, _, _, rfl, rfl⟩ | ⟨rfl, rfl⟩⟩ := World.enter_cases henter
      · rw [World.store, Heap.kinds_put, hsame]
        rfl
      · exact hsame s'
  | closed hlive =>
      rw [World.delete, Heap.kinds_free, hkinds]
      rfl
  | freed hlive =>
      rw [World.delete, Heap.kinds_free, hkinds]
      rfl

/-- What is allowed does not use memory that is not there. -/
theorem call_defined (hkinds : w.heap.kinds Cell.kind = c.owed) (hcall : Allowed c w.heap call) :
    (∃ reply w', w.call X call = .ok (reply, w')) ∨ ∃ e, w.call X call = .error (.fatal e) := by
  cases call with
  | init api outSelf sodium place =>
      left
      cases api <;> cases outSelf <;> cases sodium <;> cases place <;> exact ⟨_, _, rfl⟩
  | register self answer =>
      left
      cases self with
      | none => exact ⟨_, _, rfl⟩
      | some a =>
          obtain ⟨p, hlive⟩ := live_plugin hkinds (hcall a rfl)
          exact ⟨_, _, by simp only [World.call, hlive]; rfl⟩
  | unregister self =>
      left
      cases self with
      | none => exact ⟨_, _, rfl⟩
      | some a =>
          obtain ⟨p, hlive⟩ := live_plugin hkinds (hcall a rfl)
          exact ⟨_, _, by simp only [World.call, hlive]; rfl⟩
  | shutdown self =>
      left
      cases self with
      | none => exact ⟨_, _, rfl⟩
      | some a =>
          obtain ⟨p, hlive⟩ := live_plugin hkinds (hcall a rfl).1
          exact ⟨_, _, by simp only [World.call, hlive]; rfl⟩
  | handshakeOpen v args place =>
      left
      unfold World.call
      simp only
      split <;> exact ⟨_, _, rfl⟩
  | entry state call place =>
      cases state with
      | none => exact Or.inl ⟨_, _, rfl⟩
      | some a =>
          obtain ⟨s, hlive⟩ := live_session hkinds (hcall.1 a rfl)
          have henter : w.call X (.entry (some a) call place) = w.enter X a s call place := by
            simp only [World.call, hlive]
          rw [henter, World.enter]
          split
          · exact Or.inr ⟨_, rfl⟩
          · left
            split <;> exact ⟨_, _, rfl⟩
  | handshakeClose state =>
      left
      cases state with
      | none => exact ⟨_, _, rfl⟩
      | some a =>
          obtain ⟨s, hlive⟩ := live_session hkinds (hcall a rfl)
          exact ⟨_, _, by simp only [World.call, hlive]; rfl⟩
  | destroy => exact Or.inl ⟨_, _, rfl⟩
  | freeBuffer bytes =>
      left
      cases bytes with
      | none => exact ⟨_, _, rfl⟩
      | some a =>
          obtain ⟨bytes, hlive⟩ := live_buffer hkinds (hcall a rfl)
          exact ⟨_, _, by simp only [World.call, hlive]; rfl⟩

theorem owed_of_run {tr : List (HostCall × HostReply)} (run : Run (HostStep X) {} tr g) :
    g.world.heap.kinds Cell.kind = g.account.owed := by
  apply run.invariant (I := fun g => g.world.heap.kinds Cell.kind = g.account.owed)
  · rintro g ⟨call, reply⟩ g' hkinds ⟨_, hcall, haccount⟩
    rw [haccount]
    exact (World.call_effect hcall).owed hkinds
  · rfl

/-- What emits succeeds. -/
theorem Reply.emitted_ok {r : Reply} {bytes : Bytes} {b : Option Nat}
    (h : r.emitted = some bytes) : (HostReply.entry r b).failed = false := by
  cases r with
  | buffer code out =>
      cases code with
      | ok => rfl
      | _ => cases h
  | _ => cases h

theorem Effect.failed (h : Effect X w call reply w') (hfailed : reply.failed = true) :
    w'.heap.kinds Cell.kind = w.heap.kinds Cell.kind ∧ w'.heap.freed = w.heap.freed := by
  cases h with
  | quiet _ _ _ => exact ⟨rfl, rfl⟩
  | registered answer hlive =>
      rw [World.register_heap]
      exact ⟨rfl, rfl⟩
  | @entered a s call place reply w' hlive henter =>
      obtain ⟨r, s', _, ⟨bytes, b, hemitted, _, rfl, rfl⟩ | ⟨rfl, rfl⟩⟩ := World.enter_cases henter
      · rw [Reply.emitted_ok hemitted] at hfailed
        cases hfailed
      · exact ⟨Heap.kinds_put_same hlive rfl, rfl⟩
  | _ => cases hfailed

/-- Whatever a host does that is allowed, no memory is used that is not in use, and what is
allocated is what the host has yet to give back. -/
theorem plugin_memory {tr : List (HostCall × HostReply)} (run : Run (HostStep X) {} tr g) :
    MemoryLaw X g := by
  have hkinds := owed_of_run run
  constructor
  · exact hkinds
  · intro hnone a
    have ha := (congrFun hkinds a).trans (hnone a)
    exact Option.map_eq_none_iff.mp ha
  · intro call hcall
    exact call_defined hkinds hcall
  · intro call reply w hcall hfailed
    exact (World.call_effect hcall).failed hfailed

theorem run_of_hosted {calls : List HostCall} {tr : List (HostCall × HostReply)}
    (h : g.conduct X calls = some (tr, g')) : Run (HostStep X) g tr g' := by
  induction calls generalizing g tr with
  | nil =>
      obtain ⟨rfl, rfl⟩ := Prod.mk.inj (Option.some.inj h)
      exact Run.nil g
  | cons call calls ih =>
      unfold Hosted.conduct at h
      split at h
      · rename_i hallowed
        split at h
        · cases h
        · rename_i reply w hcall
          split at h
          · cases h
          · rename_i tl g₁ hrest
            obtain ⟨rfl, rfl⟩ := Prod.mk.inj (Option.some.inj h)
            exact Run.cons ⟨hallowed, hcall, rfl⟩ (ih hrest)
      · cases h

/-- A run of which something can be computed. -/
theorem exists_host_run (calls : List HostCall) (f : List (HostCall × HostReply) → Hosted → Bool)
    (h : ((Hosted.conduct X {} calls).map fun r => f r.1 r.2) = some true) :
    ∃ tr g, Run (HostStep X) {} tr g ∧ f tr g = true := by
  obtain ⟨⟨tr, g⟩, hconduct, hf⟩ := Option.map_eq_some_iff.mp h
  exact ⟨tr, g, run_of_hosted hconduct, hf⟩

open Miniature in
/-- A host that accepts both providers, opens a session, has it write its first message, and
gives everything back. -/
def smallHosting : List HostCall :=
  [.init (some ⟨none, true, true⟩) true true (some 0), .register (some 0) fun _ => .ok,
    .handshakeOpen kVtableXX (openArgs .initiator 1 none) (some 1),
    .entry (some 1) (.handshakeStep [] (secretKey 3) true {}) (some 2),
    .handshakeClose (some 1), .freeBuffer (some 2), .unregister (some 0), .shutdown (some 0)]

/-- Three blocks were freed, and nothing is left. -/
theorem plugin_memory_small : ∃ g : Hosted, g.world.heap.freed.length = 3 ∧
    MemoryLaw Miniature.external g := by
  obtain ⟨tr, g, run, hend⟩ := exists_host_run (X := Miniature.external) smallHosting
    (fun _ g => g.world.heap.freed.length == 3) (by decide +kernel)
  exact ⟨g, beq_iff_eq.mp hend, plugin_memory run⟩

end Memory

end SecurityNoise
