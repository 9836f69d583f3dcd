import ServalMesh.Mdp.BindingRuns

/-!
# Requests and frames

Every orderly request changes the slots only as its sender may, so that the bindings stay isolated
in every run. A frame is then handed to the holder of the binding that it is for.
-/

namespace ServalMesh.Mdp

open Lib Overlay List Bindings

variable {α η : Type} {s s' : Bindings α η} {holders : ℕ → Option (Holder α η)}

theorem getElem?_freeSlot {i : ℕ} (h : s.freeSlot = some i) :
    ∃ b, s.slots[i]? = some b ∧ b.port = 0#32 ∧
      s.slots.find? (fun b => b.port = 0#32) = some b := by
  obtain ⟨hi, port, first⟩ := findIdx?_eq_some_iff_getElem.1 h
  refine ⟨s.slots[i], getElem?_eq_getElem hi, of_decide_eq_true port, ?_⟩
  rw [find?_eq_some_iff_getElem]
  exact ⟨port, i, hi, rfl, fun j hj => by simpa using first j hj⟩

theorem initialise_slots (h : s.Ready) : s.initialise.slots = s.slots := by
  unfold initialise
  rcases h with ready | free
  · rw [if_pos ready]
  split
  · rfl
  · refine (map_congr_left fun b hb => ?_).trans (map_id s.slots)
    show { b with port := 0#32 } = b
    rw [← free b hb]

section Services

variable {subscriber : Option Sid} {port : MdpPort} {handler : η}

theorem mdpBindInternal_changes (orderly : Orderly s (.bindInternal subscriber port handler)) :
    Changes s.slots (mdpBindInternal s subscriber port handler).1.slots holders
      (.service handler) := by
  obtain ⟨ready, bindable, address⟩ := orderly
  have slots := initialise_slots ready
  unfold mdpBindInternal
  dsimp only
  split
  case isTrue => exact slots ▸ .refl
  rename_i bound
  rw [slots] at bound
  split
  case h_1 => exact slots ▸ .refl
  case h_2 i free =>
    obtain ⟨b, hb, hport, first⟩ := getElem?_freeSlot free
    rw [slots] at hb first
    show Changes s.slots (s.initialise.slots.modify i _) holders _
    rw [slots]
    refine .of_modify hb (.claimed hport bindable ⟨rfl, rfl, address b first⟩ ?_)
    intro c hc same
    exact bound (any_eq_true.2 ⟨c, hc, decide_eq_true same⟩)

theorem mdpUnbindInternal_changes [DecidableEq η] (h : Isolated s.slots holders) :
    Changes s.slots (mdpUnbindInternal s subscriber port handler).slots holders
      (.service handler) := by
  refine .of_map fun i b hb => ?_
  by_cases own : b.key = (subscriber, port) ∧ b.internal = some handler
  · rw [if_pos own]
    exact .inr ⟨rfl, rfl, fun _ => h.owner_of_internal hb own.2⟩
  · rw [if_neg own]
    exact .inl rfl

end Services

section Clients

variable [DecidableEq α] {client : α}

theorem overlayMdpReleasebindings_changes (h : Isolated s.slots holders) :
    Changes s.slots (overlayMdpReleasebindings s client).slots holders (.legacy client) := by
  refine .of_map fun i b hb => ?_
  by_cases address : b.client = some client
  · rw [if_pos address]
    by_cases port : b.port = 0#32
    · exact .inr ⟨rfl, h.free i b hb port, fun bound => absurd port bound⟩
    · obtain ⟨internal, owner⟩ := h.owner_of_client hb port address
      exact .inr ⟨rfl, internal, fun _ => owner⟩
  · rw [if_neg address]
    exact .inl rfl

theorem overlayMdpProcessBindRequest_changes {subscriber : Option Sid} {port : MdpPort} {random : ℕ}
    (h : Isolated s.slots holders) (orderly : Orderly s (.bind subscriber port client random)) :
    Changes s.slots (overlayMdpProcessBindRequest s subscriber port false client random).1.slots
      holders (.legacy client) := by
  unfold overlayMdpProcessBindRequest
  dsimp only
  split
  case isTrue => exact .refl
  rename_i bindable
  obtain ⟨ready, c, hc, room⟩ := orderly.resolve_left bindable
  have slots := initialise_slots ready
  split
  case h_1 =>
    rw [if_neg Bool.false_ne_true]
    split <;> exact slots ▸ .refl
  rename_i unbound
  rw [slots] at unbound
  have unbound : ∀ c ∈ s.slots, c.key ≠ (subscriber, port) := by
    intro c hc same
    exact absurd (decide_eq_true same) (by simpa using findIdx?_eq_none_iff.1 unbound c hc)
  split
  case h_1 i free =>
    obtain ⟨b, hb, hport, _⟩ := getElem?_freeSlot free
    rw [slots] at hb
    show Changes s.slots (s.initialise.slots.modify i _) holders _
    rw [slots]
    exact .of_modify hb (.claimed hport bindable ⟨rfl, h.free i b hb hport, rfl⟩ unbound)
  case h_2 full =>
    -- somebody has to give way, but there was room
    unfold freeSlot at full
    rw [slots] at full
    rcases room with free | same
    · exact absurd (decide_eq_true free) (by simpa using findIdx?_eq_none_iff.1 full c hc)
    · exact absurd same (unbound c hc)

end Clients

section Packets

variable {host : PacketHost α η} {client : α} {source : Option Sid} {header : MdpHeader}
  {payload : List Byte} {replies : List PacketReply} {slots : List (Binding α η)}
  {binding : Option ℕ}

theorem findBinding_eq_none {port : MdpPort} (h : findBinding slots source port = none) :
    ∀ b ∈ slots, b.key ≠ (source, port) := by
  intro b hb same
  obtain ⟨i, hi⟩ := mem_iff_getElem?.1 hb
  have fits := (searchPreferring_eq_none (Option.map_eq_none_iff.1 h)).1 (b, i)
    (mem_zipIdx_iff_getElem?.2 hi)
  exact fits (decide_eq_true ⟨congrArg Prod.snd same, congrArg Prod.fst same⟩)

theorem modify_modify_slots (s : Bindings α η) (i : ℕ) (f g : Binding α η → Binding α η) :
    ((s.modify i f).modify i g).slots = s.slots.modify i (g ∘ f) :=
  modify_modify_eq f g i s.slots

theorem followingPort_ne_zero (port : MdpPort) : followingPort port ≠ 0#32 := by
  unfold followingPort
  split
  · decide
  · bv_omega

theorem assignPort_ne_zero {fuel : ℕ} {port assigned : MdpPort}
    (h : assignPort slots fuel port = some assigned) : assigned ≠ 0#32 := by
  induction fuel generalizing port with
  | zero => cases h
  | succ fuel ih =>
    unfold assignPort at h
    dsimp only at h
    split at h
    · exact ih h
    · cases h
      exact followingPort_ne_zero port

/-- A packet finds the binding of its source, or claims a free slot. -/
theorem bindPacket_cases {client : Option α}
    (h : bindPacket s client source header = some (s', binding)) :
    (header.binds = false ∧ s' = s ∧ binding = findBinding s.slots source header.localPort) ∨
      ∃ i b, header.binds = true ∧ binding = some i ∧ s.slots[i]? = some b ∧ b.port = 0#32 ∧
        (∀ c ∈ s.slots, c.key ≠ (source, header.localPort)) ∧
        s' = s.modify i fun b => b.take source header.localPort 1 client := by
  unfold bindPacket at h
  dsimp only at h
  split at h
  case isTrue binds =>
    split at h
    · cases h
    case isFalse unbound =>
      split at h
      · cases h
      case h_2 i free =>
        obtain ⟨b, hb, port, _⟩ := getElem?_freeSlot free
        cases h
        exact .inr ⟨i, b, binds, rfl, hb, port,
          findBinding_eq_none (Option.not_isSome_iff_eq_none.1 unbound), rfl⟩
  case isFalse binds =>
    cases h
    exact .inl ⟨Bool.eq_false_iff.2 binds, rfl, rfl⟩

/-- The slots are not touched, and a packet that binds has a port. -/
theorem addressPacket_slots {header' : MdpHeader}
    (h : addressPacket s source header = some (s', header')) :
    s'.slots = s.slots ∧ (header'.binds → header'.localPort ≠ 0#32) := by
  unfold addressPacket at h
  dsimp only at h
  generalize (if header.localSid = zeroSid then
    { header with localSid := source.getD header.localSid } else header) = header₁ at h
  split at h
  · obtain ⟨port, assigned, rest⟩ := Option.map_eq_some_iff.1 h
    cases rest
    exact ⟨rfl, fun _ => assignPort_ne_zero assigned⟩
  case isFalse given =>
    cases h
    exact ⟨rfl, fun binds zero => given ⟨zero, binds⟩⟩

variable [DecidableEq α]

/-- The slot of the client is released, or nothing changes. -/
theorem removeBinding_cases (s : Bindings α η) (client : Option α) (binding : Option ℕ)
    (closes : Bool) :
    removeBinding s client binding closes = s ∨
      ∃ i b, binding = some i ∧ s.slots[i]? = some b ∧ b.internal = none ∧ b.client = client ∧
        removeBinding s client binding closes = s.modify i fun b => { b with port := 0#32 } := by
  unfold removeBinding
  cases binding with
  | none => exact .inl rfl
  | some i =>
    dsimp only
    split
    case isFalse => exact .inl rfl
    case isTrue own =>
      have own := own.2
      unfold ownsSlot at own
      rw [Option.bind_some] at own
      rcases hb : s.slots[i]? with _ | b <;> rw [hb] at own
      · cases own
      · obtain ⟨internal, address⟩ := of_decide_eq_true own
        exact .inr ⟨i, b, rfl, hb, internal, address, rfl⟩

theorem processBound_cases {client : Option α}
    (h : processBound host s client source header payload binding = .ok (s', replies)) :
    s' = s ∨ s' = removeBinding s client binding header.closes := by
  unfold processBound at h
  split at h
  · split at h
    · cases h
      exact .inr rfl
    · split at h <;> cases h
      exact .inr rfl
  · split at h
    · cases h
      exact .inl rfl
    split at h <;> cases h
    · exact .inl rfl
    · exact .inr rfl

theorem processSource_changes (h : Isolated s.slots holders)
    (port : header.binds → header.localPort ≠ 0#32)
    (run : processSource host s (some client) source header payload = .ok (s', replies)) :
    Changes s.slots s'.slots holders (.client client) := by
  unfold processSource at run
  split at run
  · cases run
    exact .refl
  rename_i s₁ binding bound
  split at run
  · cases run
  rename_i processed
  cases run
  rcases bindPacket_cases bound with
    ⟨_, rfl, rfl⟩ | ⟨i, b, binds, rfl, hb, free, unbound, rfl⟩
  · rcases processBound_cases processed with rfl | rfl
    · exact .refl
    rcases removeBinding_cases s₁ (some client)
      (findBinding s₁.slots source header.localPort) header.closes with
      same | ⟨i, b, _, hb, internal, address, removed⟩
    · rw [same]
      exact .refl
    · rw [removed]
      exact .of_modify hb
        (.freed rfl internal fun bound => (h.owner_of_client hb bound address).2)
  · have internal := h.free i b hb free
    have claimed : SlotChange s.slots (holders i) (.client client) b
        (b.take source header.localPort 1 (some client)) :=
      .claimed free (port binds) ⟨rfl, internal, rfl⟩ unbound
    rcases processBound_cases processed with rfl | rfl
    · exact .of_modify hb claimed
    rcases removeBinding_cases (s.modify i _) (some client) (some i) header.closes with
      same | ⟨j, c, hj, _, _, _, removed⟩
    · rw [same]
      exact .of_modify hb claimed
    · -- the packet closes what it has just bound
      cases hj
      rw [removed, modify_modify_slots]
      exact .of_modify hb (.freed rfl internal fun bound => absurd free bound)

theorem mdpProcessPacket_changes (h : Isolated s.slots holders)
    (run : mdpProcessPacket host s (some client) header payload = .ok (s', replies)) :
    Changes s.slots s'.slots holders (.client client) := by
  unfold mdpProcessPacket at run
  split at run
  case isTrue =>
    cases run
    refine .of_map fun i b hb => ?_
    by_cases own : b.port ≠ 0#32 ∧ b.client = some client
    · rw [if_pos own]
      obtain ⟨internal, owner⟩ := h.owner_of_client hb own.1 own.2
      exact .inr ⟨rfl, internal, fun _ => owner⟩
    · rw [if_neg own]
      exact .inl rfl
  case isFalse =>
    split at run
    · cases run
    · cases run
      exact .refl
    case h_3 source _ =>
      split at run
      · cases run
      case h_2 addressed =>
        obtain ⟨slots, port⟩ := addressPacket_slots addressed
        rw [← slots] at h ⊢
        exact processSource_changes h port run

end Packets

section Runs

variable [DecidableEq α] [DecidableEq η]

/-- What one request changes. -/
theorem request_changes {request : Request α η} (h : Isolated s.slots holders)
    (orderly : Orderly s request) (run : request.run s = .ok s') :
    ∃ holder, request.holder = some holder ∧ Changes s.slots s'.slots holders holder := by
  cases request with
  | bindInternal subscriber port handler =>
    cases run
    exact ⟨_, rfl, mdpBindInternal_changes orderly⟩
  | unbindInternal subscriber port handler =>
    cases run
    exact ⟨_, rfl, mdpUnbindInternal_changes h⟩
  | bind subscriber port client random =>
    cases run
    exact ⟨_, rfl, overlayMdpProcessBindRequest_changes h orderly⟩
  | goodbye client =>
    cases run
    exact ⟨_, rfl, overlayMdpReleasebindings_changes h⟩
  | packet host client header payload =>
    obtain ⟨address, rfl⟩ := Option.isSome_iff_exists.1 orderly
    unfold Request.run at run
    dsimp only at run
    split at run
    · cases run
    case h_2 processed =>
      cases run
      exact ⟨_, rfl, mdpProcessPacket_changes h processed⟩

theorem Reached.isolated (h : Reached s holders) : Isolated s.slots holders := by
  induction h with
  | start => exact isolated_initial
  | step _ orderly run ih =>
    obtain ⟨holder, hholder, change⟩ := request_changes ih orderly run
    rw [hholder]
    exact ih.next change

end Runs

section Frames

variable {slots : List (Binding α η)} {header : InternalMdpHeader} {payload : List Byte}
  {sid : Sid} {allowInbound : InternalMdpHeader → Bool} {b : Binding α η}

/-- The holder of the binding of a subscriber and a port. -/
def holderOf (slots : List (Binding α η)) (holders : ℕ → Option (Holder α η))
    (key : Option Sid × MdpPort) : Option (Holder α η) :=
  (slots.findIdx? fun b => b.key = key).bind holders

theorem holderOf_key (h : Isolated slots holders) {i : ℕ} (hb : slots[i]? = some b)
    (port : b.port ≠ 0#32) : holderOf slots holders b.key = holders i := by
  unfold holderOf
  cases hj : slots.findIdx? fun c => c.key = b.key with
  | none =>
    have differs := findIdx?_eq_none_iff.1 hj b (mem_of_getElem? hb)
    simp at differs
  | some j =>
    obtain ⟨lt, same, _⟩ := findIdx?_eq_some_iff_getElem.1 hj
    rw [Option.bind_some, h.distinct i j b _ hb (getElem?_eq_getElem lt) port
      (of_decide_eq_true same).symm]

theorem holderOf_eq_none {key : Option Sid × MdpPort} (h : ∀ b ∈ slots, b.key ≠ key) :
    holderOf slots holders key = none := by
  have none_fits : (slots.findIdx? fun b => b.key = key) = none :=
    findIdx?_eq_none_iff.2 fun b hb => decide_eq_false (h b hb)
  rw [holderOf, none_fits]
  rfl

/-- The loop over the bindings prefers a binding of the destination. -/
theorem matchLoop_eq (destination : header.destination = some sid) (found : Option (Binding α η)) :
    matchLoop header slots found =
      searchPreferring (fun b => b.port = header.destinationPort ∧ b.subscriber = some sid)
        (fun b => b.port = header.destinationPort ∧ b.subscriber = none) slots found := by
  induction slots generalizing found with
  | nil => rfl
  | cons b slots ih =>
    unfold matchLoop searchPreferring
    rw [destination]
    by_cases port : b.port = header.destinationPort
    · by_cases exact : b.subscriber = some sid
      · simp [port, exact]
      · by_cases any : b.subscriber = none
        · simp [port, any, ih]
        · simp [port, exact, any, ih]
    · simp [port, ih]

/-- What the loop over the bindings finds. -/
theorem matchBinding_cases (destination : header.destination = some sid)
    (slots : List (Binding α η)) :
    (∃ b ∈ slots, b.key = (some sid, header.destinationPort) ∧
        matchBinding slots header = some b) ∨
      (∀ b ∈ slots, b.key ≠ (some sid, header.destinationPort)) ∧
        ((∃ b ∈ slots, b.key = (none, header.destinationPort) ∧
            matchBinding slots header = some b) ∨
          (∀ b ∈ slots, b.key ≠ (none, header.destinationPort)) ∧
            matchBinding slots header = none) := by
  have key : ∀ (b : Binding α η) (subscriber : Option Sid),
      decide (b.port = header.destinationPort ∧ b.subscriber = subscriber) = true ↔
        b.key = (subscriber, header.destinationPort) := by
    intro b subscriber
    rw [decide_eq_true_iff, Binding.key, Prod.mk.injEq, and_comm]
  unfold matchBinding
  rw [matchLoop_eq destination]
  simp only [ne_eq, ← key]
  exact searchPreferring_cases slots none

theorem overlaySawMdpFrame_heldBy {holder : Holder α η} (allowed : allowInbound header)
    (heldBy : b.HeldBy holder) (found : matchBinding slots header = some b) :
    overlaySawMdpFrame allowInbound slots header payload = holder.handed header payload := by
  unfold overlaySawMdpFrame
  rw [allowed, found]
  cases holder with
  | service handler =>
    obtain ⟨version, internal, _⟩ := heldBy
    simp [version, internal, Holder.handed]
  | legacy client =>
    obtain ⟨version, _, address⟩ := heldBy
    cases filled : overlayMdpFillLegacy payload <;> simp [version, address, Holder.handed, filled]
  | client client =>
    obtain ⟨version, internal, address⟩ := heldBy
    simp [version, internal, address, Holder.handed]

/-- The search finds a binding of its holder. -/
theorem Isolated.held_of_key (h : Isolated slots holders) (hb : b ∈ slots) (port : b.port ≠ 0#32) :
    ∃ holder, holderOf slots holders b.key = some holder ∧ b.HeldBy holder := by
  obtain ⟨i, hi⟩ := mem_iff_getElem?.1 hb
  obtain ⟨holder, held, heldBy⟩ := h.held i b hi port
  exact ⟨holder, (holderOf_key h hi port).trans held, heldBy⟩

/-- A frame is handed to who holds the binding of its destination, else to who holds the port for
any destination, else to nobody. -/
theorem Isolated.handed (h : Isolated slots holders) (allowed : allowInbound header)
    (destination : header.destination = some sid) (port : header.destinationPort ≠ 0#32) :
    overlaySawMdpFrame allowInbound slots header payload =
      match (holderOf slots holders (some sid, header.destinationPort)).or
        (holderOf slots holders (none, header.destinationPort)) with
      | some holder => holder.handed header payload
      | none => .ok .unbound := by
  have bound : ∀ (b : Binding α η) (subscriber : Option Sid),
      b.key = (subscriber, header.destinationPort) → b.port ≠ 0#32 := by
    intro b subscriber same
    rwa [show b.port = header.destinationPort from congrArg Prod.snd same]
  rcases matchBinding_cases destination slots with
    ⟨b, hb, fits, found⟩ | ⟨no_exact, ⟨b, hb, fits, found⟩ | ⟨no_any, found⟩⟩
  · obtain ⟨holder, held, heldBy⟩ := h.held_of_key hb (bound b _ fits)
    rw [fits] at held
    rw [held, overlaySawMdpFrame_heldBy allowed heldBy found]
    rfl
  · obtain ⟨holder, held, heldBy⟩ := h.held_of_key hb (bound b _ fits)
    rw [fits] at held
    rw [holderOf_eq_none no_exact, held, overlaySawMdpFrame_heldBy allowed heldBy found]
    rfl
  · rw [holderOf_eq_none no_exact, holderOf_eq_none no_any]
    simp [overlaySawMdpFrame, allowed, found]

end Frames

section Isolation

variable [DecidableEq α] [DecidableEq η]

/-- In every orderly run the bindings are different, every request leaves the bindings of others as
they are, and frames are handed to the holders of the bindings. -/
theorem bindings_isolated (h : Reached s holders) :
    (∀ (i j : ℕ) (b c : Binding α η), s.slots[i]? = some b → s.slots[j]? = some c →
      b.port ≠ 0#32 → b.key = c.key → i = j) ∧
    (∀ (request : Request α η) (s' : Bindings α η), Orderly s request → request.run s = .ok s' →
      ∀ (i : ℕ) (b : Binding α η), s.slots[i]? = some b → b.port ≠ 0#32 →
        (holders i).map Holder.owner ≠ request.holder.map Holder.owner →
          s'.slots[i]? = some b) ∧
    ∀ (allowInbound : InternalMdpHeader → Bool) (header : InternalMdpHeader) (payload : List Byte)
      (sid : Sid), allowInbound header → header.destination = some sid →
      header.destinationPort ≠ 0#32 →
        overlaySawMdpFrame allowInbound s.slots header payload =
          match (holderOf s.slots holders (some sid, header.destinationPort)).or
            (holderOf s.slots holders (none, header.destinationPort)) with
          | some holder => holder.handed header payload
          | none => .ok .unbound := by
  have isolated := h.isolated
  refine ⟨isolated.distinct, ?_, ?_⟩
  · intro request s' orderly run i b hb port other
    obtain ⟨holder, hholder, change⟩ := request_changes isolated orderly run
    rw [hholder] at other
    exact change.others (s'.length_slots.trans s.length_slots.symm) hb port other
  · intro allowInbound header payload sid allowed destination port
    exact isolated.handed allowed destination port

/-- A service has port 7 for all subscribers and a client has it for one of them. -/
def sharedPort : Bindings ℕ ℕ :=
  (overlayMdpProcessBindRequest (mdpBindInternal .initial none 7#32 0).1 (some zeroSid) 7#32 false 1
    0).1

theorem bindings_isolated_shared :
    overlaySawMdpFrame (fun _ => true) sharedPort.slots (portsHeader zeroSid 9#32 7#32 0#8) [] =
        .ok (.legacy (some 1) (portsHeader zeroSid 9#32 7#32 0#8) []) ∧
      overlaySawMdpFrame (fun _ => true) sharedPort.slots (portsHeader broadcastSid 9#32 7#32 0#8)
        [] = .ok (.internal 0 (portsHeader broadcastSid 9#32 7#32 0#8) []) := by
  have zero : ∀ b ∈ (initial : Bindings ℕ ℕ).slots, b = .zero :=
    fun b hb => eq_of_mem_replicate hb
  have first : Orderly (initial : Bindings ℕ ℕ) (.bindInternal none 7#32 0) := by
    refine ⟨.inr fun b hb => by rw [zero b hb]; rfl, by decide, ?_⟩
    intro b hb
    rw [zero b (mem_of_find?_eq_some hb)]
    rfl
  have second : Orderly (mdpBindInternal (initial : Bindings ℕ ℕ) none 7#32 0).1
      (.bind (some zeroSid) 7#32 1 0) :=
    .inr ⟨.inl rfl, .zero, by decide, .inl rfl⟩
  have reached := Reached.step (Reached.step Reached.start first rfl) second rfl
  have frames := (bindings_isolated reached).2.2 (fun _ => true)
  constructor
  · exact (frames (portsHeader zeroSid 9#32 7#32 0#8) [] zeroSid rfl rfl (by decide)).trans rfl
  · exact (frames (portsHeader broadcastSid 9#32 7#32 0#8) [] broadcastSid rfl rfl
      (by decide)).trans rfl

end Isolation

section Counterexample

/-- The key of the first slot after some requests. -/
def firstKey (requests : List (Request ℕ ℕ)) : Except Abort (Option (Option Sid × MdpPort)) :=
  match requests.foldlM (fun s request => request.run s) Bindings.initial with
  | .error e => .error e
  | .ok s => .ok (s.slots[0]?.map Binding.key)

/-- A packet that closes all bindings of a client. -/
def closeAll : MdpHeader := ⟨zeroSid, 0#32, zeroSid, 0#32, mdpFlagClose, 0#8, 0#8⟩

def idleHost : PacketHost ℕ ℕ where
  mySubscriber := none
  isSelf _ := false
  sendFrame _ _ _ := .ok true
  command _ _ := .ok ()

/-- A service takes the slot that a client has left, and loses it when the client says goodbye once
more. A client without an address closes the bindings of all services. -/
theorem bindings_stolen :
    firstKey [.bind none 5#32 1 0, .goodbye 1, .bindInternal none 7#32 0] =
        .ok (some (none, 7#32)) ∧
      firstKey [.bind none 5#32 1 0, .goodbye 1, .bindInternal none 7#32 0, .goodbye 1] =
        .ok (some (none, 0#32)) ∧
      firstKey [.bindInternal none 7#32 0] = .ok (some (none, 7#32)) ∧
      firstKey [.bindInternal none 7#32 0, .packet idleHost none closeAll []] =
        .ok (some (none, 0#32)) := by
  refine ⟨rfl, rfl, rfl, rfl⟩

end Counterexample

end ServalMesh.Mdp
