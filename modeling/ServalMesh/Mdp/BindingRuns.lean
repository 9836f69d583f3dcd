import ServalMesh.Mdp.Bindings

/-!
# Isolation of the bindings

The holder of a binding is the service or the client whose request gave the slot its subscriber and
port. Every request of an orderly run leaves the bindings of the others alone, and frames are handed
to the holders.
-/

namespace ServalMesh.Mdp

open Lib Overlay List

variable {α η : Type}

/-- Who made a binding, and with which protocol. -/
inductive Holder (α η : Type) where
  | service (handler : η)
  | legacy (client : α)
  | client (client : α)
deriving DecidableEq

/-- A client is the same with both protocols. -/
inductive Owner (α η : Type) where
  | service (handler : η)
  | client (client : α)
deriving DecidableEq

def Holder.owner : Holder α η → Owner α η
  | .service handler => .service handler
  | .legacy address => .client address
  | .client address => .client address

/-- A frame reaches the holder. -/
def Holder.handed (header : InternalMdpHeader) (payload : List Byte) :
    Holder α η → Except Abort (Delivery α η)
  | .service handler => .ok (.internal handler header payload)
  | .legacy address =>
    match overlayMdpFillLegacy payload with
    | .error e => .error e
    | .ok payload => .ok (.legacy (some address) header payload)
  | .client address => .ok (.client (some address) header payload)

/-- The fields of the slot are those of a binding that the holder made. -/
def Binding.HeldBy (b : Binding α η) : Holder α η → Prop
  | .service handler => b.version = 1 ∧ b.internal = some handler ∧ b.client = none
  | .legacy client => b.version = 0 ∧ b.internal = none ∧ b.client = some client
  | .client client => b.version = 1 ∧ b.internal = none ∧ b.client = some client

/-- The requests that change bindings. A client also says goodbye when the daemon finds its socket
dead. -/
inductive Request (α η : Type) where
  | bindInternal (subscriber : Option Sid) (port : MdpPort) (handler : η)
  | unbindInternal (subscriber : Option Sid) (port : MdpPort) (handler : η)
  | bind (subscriber : Option Sid) (port : MdpPort) (client : α) (random : ℕ)
  | goodbye (client : α)
  | packet (host : PacketHost α η) (client : Option α) (header : MdpHeader) (payload : List Byte)

/-- Who holds what the request binds. -/
def Request.holder : Request α η → Option (Holder α η)
  | .bindInternal _ _ handler => some (.service handler)
  | .unbindInternal _ _ handler => some (.service handler)
  | .bind _ _ client _ => some (.legacy client)
  | .goodbye client => some (.legacy client)
  | .packet _ client _ _ => client.map .client

section Runs

variable [DecidableEq α] [DecidableEq η]

/-- The bindings after a request. -/
def Request.run (s : Bindings α η) : Request α η → Except Abort (Bindings α η)
  | .bindInternal subscriber port handler => .ok (mdpBindInternal s subscriber port handler).1
  | .unbindInternal subscriber port handler => .ok (mdpUnbindInternal s subscriber port handler)
  | .bind subscriber port client random =>
    .ok (overlayMdpProcessBindRequest s subscriber port false client random).1
  | .goodbye client => .ok (overlayMdpReleasebindings s client)
  | .packet host client header payload =>
    match mdpProcessPacket host s client header payload with
    | .error e => .error e
    | .ok (s, _) => .ok s

/-- The slots need not be marked as unused any more. -/
def Bindings.Ready (s : Bindings α η) : Prop :=
  s.initialised = true ∨ ∀ b ∈ s.slots, b.port = 0#32

/-- The requests that leave the bindings of others alone: a service does not take a slot that keeps
the address of a client, a legacy client does not bind a port when all slots are taken, and a client
that sends packets has an address. -/
def Orderly (s : Bindings α η) : Request α η → Prop
  | .bindInternal _ port _ =>
    s.Ready ∧ port ≠ 0#32 ∧
      ∀ b, s.slots.find? (fun b => b.port = 0#32) = some b → b.client = none
  | .unbindInternal _ _ _ => True
  | .bind subscriber port _ _ =>
    port = 0#32 ∨ s.Ready ∧ ∃ b ∈ s.slots, b.port = 0#32 ∨ b.key = (subscriber, port)
  | .goodbye _ => True
  | .packet _ client _ _ => client.isSome

/-- The holders of the slots after a request: a slot that has got another subscriber or port is held
by who made the request. -/
def nextHolders (slots slots' : List (Binding α η)) (holders : ℕ → Option (Holder α η))
    (holder : Option (Holder α η)) (i : ℕ) : Option (Holder α η) :=
  match slots[i]?, slots'[i]? with
  | some b, some b' =>
    if b'.port = 0#32 then none else if b.key = b'.key then holders i else holder
  | _, _ => none

/-- The states that orderly requests of any services and clients lead to, with the holders of the
slots. -/
inductive Reached : Bindings α η → (ℕ → Option (Holder α η)) → Prop
  | start : Reached Bindings.initial fun _ => none
  | step {s s' : Bindings α η} {holders : ℕ → Option (Holder α η)} {request : Request α η} :
    Reached s holders → Orderly s request → request.run s = .ok s' →
      Reached s' (nextHolders s.slots s'.slots holders request.holder)

end Runs

/-- Bound slots are bound to different things and show who holds them, and free slots have no
handler. -/
structure Isolated (slots : List (Binding α η)) (holders : ℕ → Option (Holder α η)) : Prop where
  distinct : ∀ (i j : ℕ) (b c : Binding α η), slots[i]? = some b → slots[j]? = some c →
    b.port ≠ 0#32 →
    b.key = c.key → i = j
  free : ∀ (i : ℕ) (b : Binding α η), slots[i]? = some b → b.port = 0#32 → b.internal = none
  held : ∀ (i : ℕ) (b : Binding α η), slots[i]? = some b → b.port ≠ 0#32 →
    ∃ holder, holders i = some holder ∧ b.HeldBy holder

theorem isolated_initial :
    Isolated (Bindings.initial : Bindings α η).slots fun _ => none := by
  have zero : ∀ (i : ℕ) (b : Binding α η), (Bindings.initial : Bindings α η).slots[i]? = some b →
      b = .zero := fun i b h => eq_of_mem_replicate (mem_of_getElem? h)
  constructor
  case distinct =>
    intro i j b c hb _ port _
    exact absurd (by rw [zero i b hb]; rfl) port
  case free =>
    exact fun i b hb _ => zero i b hb ▸ rfl
  case held =>
    intro i b hb port
    exact absurd (by rw [zero i b hb]; rfl) port

section Changes

variable {slots slots' : List (Binding α η)} {holders : ℕ → Option (Holder α η)}
  {holder : Holder α η} {b : Binding α η} {f : Binding α η → Binding α η} {i : ℕ}

/-- What may become of a slot with a request of `holder`. -/
inductive SlotChange (slots : List (Binding α η)) (held : Option (Holder α η))
    (holder : Holder α η) : Binding α η → Binding α η → Prop
  | kept (b : Binding α η) : SlotChange slots held holder b b
  | freed {b b' : Binding α η} (port : b'.port = 0#32) (internal : b'.internal = none)
    (own : b.port ≠ 0#32 → held.map Holder.owner = some holder.owner) :
    SlotChange slots held holder b b'
  | claimed {b b' : Binding α η} (free : b.port = 0#32) (port : b'.port ≠ 0#32)
    (heldBy : b'.HeldBy holder) (unbound : ∀ c ∈ slots, c.key ≠ b'.key) :
    SlotChange slots held holder b b'

/-- A request of `holder` changes the slots in the allowed ways, and claims at most one. -/
structure Changes (slots slots' : List (Binding α η)) (holders : ℕ → Option (Holder α η))
    (holder : Holder α η) : Prop where
  slot : ∀ (i : ℕ) (b' : Binding α η), slots'[i]? = some b' →
    ∃ b, slots[i]? = some b ∧ SlotChange slots (holders i) holder b b'
  single : ∀ (i j : ℕ) (b b' c c' : Binding α η), slots[i]? = some b → slots'[i]? = some b' →
    slots[j]? = some c → slots'[j]? = some c' → b.port = 0#32 → b'.port ≠ 0#32 → c.port = 0#32 →
    c'.port ≠ 0#32 → i = j

theorem Changes.refl : Changes slots slots holders holder := by
  constructor
  case slot =>
    intro i b hb
    exact ⟨b, hb, .kept b⟩
  case single =>
    intro i j b b' c c' hb hb' _ _ free port _ _
    cases hb.symm.trans hb'
    exact absurd free port

/-- Slots may be released one by one. -/
theorem Changes.of_map
    (h : ∀ (i : ℕ) (b : Binding α η), slots[i]? = some b → f b = b ∨ (f b).port = 0#32 ∧
      (f b).internal = none ∧
      (b.port ≠ 0#32 → (holders i).map Holder.owner = some holder.owner)) :
    Changes slots (slots.map f) holders holder := by
  constructor
  case slot =>
    intro i b' hb'
    rw [getElem?_map, Option.map_eq_some_iff] at hb'
    obtain ⟨b, hb, rfl⟩ := hb'
    refine ⟨b, hb, ?_⟩
    rcases h i b hb with same | ⟨port, internal, own⟩
    · rw [same]
      exact .kept b
    · exact .freed port internal own
  case single =>
    intro i j b b' c c' hb hb' _ _ free port _ _
    rw [getElem?_map, hb, Option.map_some] at hb'
    cases hb'
    rcases h i b hb with same | ⟨released, _⟩
    · rw [same] at port
      exact absurd free port
    · exact absurd released port

theorem Changes.of_modify (hb : slots[i]? = some b)
    (h : SlotChange slots (holders i) holder b (f b)) :
    Changes slots (slots.modify i f) holders holder := by
  have other : ∀ j, j ≠ i → (slots.modify i f)[j]? = slots[j]? := by
    intro j hj
    simp [Ne.symm hj]
  have only : ∀ (j : ℕ) (c c' : Binding α η), slots[j]? = some c →
      (slots.modify i f)[j]? = some c' → c.port = 0#32 →
      c'.port ≠ 0#32 → j = i := by
    intro j c c' hc hc' free port
    by_contra hj
    rw [other j hj, hc] at hc'
    cases hc'
    exact port free
  constructor
  case slot =>
    intro j b' hb'
    by_cases hj : j = i
    · subst hj
      rw [getElem?_modify_eq, hb] at hb'
      cases hb'
      exact ⟨b, hb, h⟩
    · rw [other j hj] at hb'
      exact ⟨b', hb', .kept b'⟩
  case single =>
    intro j k b b' c c' hb hb' hc hc' free port free' port'
    rw [only j b b' hb hb' free port, only k c c' hc hc' free' port']

/-- The bindings of others are left alone. -/
theorem Changes.others (h : Changes slots slots' holders holder)
    (lengths : slots'.length = slots.length) (hb : slots[i]? = some b) (port : b.port ≠ 0#32)
    (other : (holders i).map Holder.owner ≠ some holder.owner) : slots'[i]? = some b := by
  have hi : i < slots'.length := lengths.symm ▸ (List.getElem?_eq_some_iff.1 hb).1
  have hb' := List.getElem?_eq_getElem hi
  obtain ⟨c, hc, change⟩ := h.slot i _ hb'
  obtain rfl : b = c := Option.some.inj (hb.symm.trans hc)
  cases change with
  | kept => exact hb'
  | freed _ _ own => exact absurd (own port) other
  | claimed free => exact absurd free port

section

variable (h : Isolated slots holders)
include h

theorem Isolated.next (change : Changes slots slots' holders holder) :
    Isolated slots' (nextHolders slots slots' holders (some holder)) := by
  constructor
  case distinct =>
    intro i j b' c' hb' hc' port keys
    obtain ⟨b, hb, change_b⟩ := change.slot i b' hb'
    obtain ⟨c, hc, change_c⟩ := change.slot j c' hc'
    have port' : c'.port ≠ 0#32 := by
      rwa [← show b'.port = c'.port from congrArg Prod.snd keys]
    cases change_b with
    | freed released => exact absurd released port
    | kept =>
      cases change_c with
      | freed released => exact absurd released port'
      | kept => exact h.distinct i j b' c' hb hc port keys
      | claimed _ _ _ unbound => exact absurd keys (unbound b' (mem_of_getElem? hb))
    | claimed free _ _ unbound =>
      cases change_c with
      | freed released => exact absurd released port'
      | kept => exact absurd keys.symm (unbound c' (mem_of_getElem? hc))
      | claimed free' => exact change.single i j b b' c c' hb hb' hc hc' free port free' port'
  case free =>
    intro i b' hb' port
    obtain ⟨b, hb, change_b⟩ := change.slot i b' hb'
    cases change_b with
    | kept => exact h.free i b' hb port
    | freed _ internal => exact internal
    | claimed _ bound => exact absurd port bound
  case held =>
    intro i b' hb' port
    obtain ⟨b, hb, change_b⟩ := change.slot i b' hb'
    unfold nextHolders
    rw [hb, hb']
    dsimp only
    rw [if_neg port]
    cases change_b with
    | freed released => exact absurd released port
    | kept =>
      rw [if_pos rfl]
      exact h.held i b' hb port
    | claimed _ _ heldBy unbound =>
      rw [if_neg (unbound b (mem_of_getElem? hb))]
      exact ⟨holder, rfl, heldBy⟩

/-- A slot with the address of a client is held by the client. -/
theorem Isolated.owner_of_client {client : α} (hb : slots[i]? = some b)
    (port : b.port ≠ 0#32) (address : b.client = some client) :
    b.internal = none ∧ (holders i).map Holder.owner = some (.client client) := by
  obtain ⟨holder, hi, heldBy⟩ := h.held i b hb port
  rw [hi]
  cases holder with
  | service handler => cases heldBy.2.2.symm.trans address
  | legacy c | client c =>
    cases heldBy.2.2.symm.trans address
    exact ⟨heldBy.2.1, rfl⟩

/-- A slot with a handler is held by the service. -/
theorem Isolated.owner_of_internal {handler : η}
    (hb : slots[i]? = some b) (internal : b.internal = some handler) :
    (holders i).map Holder.owner = some (.service handler) := by
  by_cases port : b.port = 0#32
  · rw [h.free i b hb port] at internal
    cases internal
  obtain ⟨holder, hi, heldBy⟩ := h.held i b hb port
  rw [hi]
  cases holder with
  | service handler' =>
    cases heldBy.2.1.symm.trans internal
    rfl
  | legacy c | client c => cases heldBy.2.1.symm.trans internal

end

end Changes

end ServalMesh.Mdp
