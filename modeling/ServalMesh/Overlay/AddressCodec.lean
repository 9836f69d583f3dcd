import ServalMesh.Overlay.Header

/-!
# Reading back addresses

The encoder and the decoder each carry a context. As long as both mean the same by a
code, the decoder reads back each address that the encoder wrote, or, where `lossy`
allows it, marks the payload as having an invalid address.
-/

namespace ServalMesh.Overlay

open Lib List Run

variable {τ : Type} {host : Host τ} {packet bytes bytes' : List Byte}

/-- These are the next bytes of the packet. -/
def Ahead (packet : List Byte) (position : ℕ) (bytes : List Byte) : Prop :=
  bytes <+: packet.drop position

section Reading

variable {position : ℕ} {b : Byte} {s : Rx τ}

theorem ahead_append : Ahead packet position (bytes ++ bytes') ↔
    Ahead packet position bytes ∧ Ahead packet (position + bytes.length) bytes' := by
  unfold Ahead
  rw [← drop_drop]
  constructor
  · rintro ⟨rest, hrest⟩
    rw [← hrest]
    simp
  · rintro ⟨⟨rest, hrest⟩, ⟨rest', hrest'⟩⟩
    rw [← hrest, drop_left] at hrest'
    exact ⟨rest', by rw [← hrest, ← hrest', append_assoc]⟩

theorem ahead_length (h : Ahead packet position bytes) (hne : bytes ≠ []) :
    position + bytes.length ≤ packet.length := by
  have hlen := h.length_le
  have hpos := length_pos_of_ne_nil hne
  rw [length_drop] at hlen
  omega

theorem obGetBytes_ahead (h : Ahead packet s.position bytes) (hne : bytes ≠ []) :
    (obGetBytes packet bytes.length).run s =
      (.ok (some bytes), { s with position := s.position + bytes.length }) := by
  have hlen := ahead_length h hne
  simp [obGetBytes, readBytes, hlen, ← prefix_iff_eq_take.mp h]

theorem obGet_ahead (h : Ahead packet s.position [b]) :
    (obGet packet).run s = (.ok (some b), { s with position := s.position + 1 }) := by
  have hread : (obGetBytes packet 1).run s =
      (.ok (some [b]), { s with position := s.position + 1 }) := obGetBytes_ahead h (by simp)
  rw [obGet, run_bind_ok hread]
  rfl

theorem obRemaining_run (hle : s.position ≤ packet.length) :
    (obRemaining packet).run s = (.ok (packet.length - s.position), s) := by
  simp [obRemaining, hle]

end Reading

/-- A property of the daemon that parsing keeps, up to the search for subscribers. -/
structure Host.Keeps (host : Host τ) (J : τ → Prop) : Prop where
  setExplained : ∀ d s, J d → J (host.setExplained d s)
  setSendFull : ∀ d s, J d → J (host.setSendFull d s)
  linkExplained : ∀ d s, J d → J (host.linkExplained d s)
  broadcastDropCheck : ∀ d id, J d → J (host.broadcastDropCheck d id).1
  linkReceivedDuplicate : ∀ d s seq, J d → J (host.linkReceivedDuplicate d s seq).1

section Explaining

variable {J : τ → Prop} {s : Sid} {d d' : τ} {r r' : Option Reply} {stop : Bool}

theorem addExplainResponse_keeps (hJ : host.Keeps J) (hd : J d)
    (h : addExplainResponse host s d r = .ok (stop, d', r')) : J d' := by
  have hset := hJ.setExplained d s hd
  unfold addExplainResponse at h
  split at h
  · cases h
    exact hd
  dsimp only at h
  split at h
  · cases h
    exact hset
  have hfull : J (if host.isSelf (host.setExplained d s) s then
      host.setSendFull (host.setExplained d s) s else host.setExplained d s) := by
    split
    · exact hJ.setSendFull _ _ hset
    · exact hset
  obtain ⟨b, -, h⟩ := ok_of_bind h
  split at h
  · cases h
    exact hfull
  · cases h
    exact hJ.linkExplained _ _ hfull

theorem explainAll_keeps (hJ : host.Keeps J) {known : List Sid} (hd : J d)
    (h : explainAll host known d r = .ok (d', r')) : J d' := by
  induction known generalizing d r with
  | nil =>
    cases h
    exact hd
  | cons s rest ih =>
    obtain ⟨⟨stop, d₁, r₁⟩, hs, h⟩ := ok_of_bind h
    have hd₁ := addExplainResponse_keeps hJ hd hs
    change (if stop then _ else _) = _ at h
    split at h
    · cases h
      exact hd₁
    · exact ih hd₁ h

end Explaining

/-- What is said of the lookups of a run holds of each part of them. -/
def Hereditary (right : List Lookup → Prop) : Prop :=
  ∀ ⦃l l'⦄, l ⊆ l' → right l' → right l

/-- Whom the decoder takes a code for the sender or for the ends of a link for; such a code
may refer to nobody. -/
def DecodeContext.referent (host : Host τ) (c : DecodeContext) : AddressCode → Option (Option Sid)
  | .p2pYou => some (c.pointToPointDevice.map fun _ => host.mySubscriber)
  | .p2pMe => some c.pointToPointDevice
  | .self => some c.sender
  | .previous | .explicit _ => none

/-- If the code refers to somebody, then to this subscriber. -/
def DecodeContext.Reads (host : Host τ) (c : DecodeContext) (x : Sid) (code : AddressCode) : Prop :=
  ∀ y, c.referent host code = some (some y) → y = x

/-- The code refers to this subscriber; where `lossy`, the decoder may not know, and after
something `wrong` it may be mistaken. -/
structure Means (lossy wrong : Prop) (host : Host τ) (c : DecodeContext) (x : Sid)
    (code : AddressCode) : Prop where
  known : c.referent host code = some none → lossy
  reads : ¬ wrong → c.Reads host x code

/-- Both ends mean the same by the codes for the sender and for a point to point link;
where `lossy`, the decoder may not know, and after something `wrong` it may be mistaken. -/
structure Matching (lossy wrong : Prop) (host : Host τ) (e : EncodeContext) (c : DecodeContext) :
    Prop where
  sender : c.sender = e.sender ∨ lossy ∧ (c.sender = none ∨ wrong)
  peer : ∀ device, e.pointToPointDevice = some device →
    device = host.mySubscriber ∧ c.pointToPointDevice = some e.mySubscriber ∨
      lossy ∧ (c.pointToPointDevice = none ∨ wrong)

/-- The first bytes of the id find this subscriber; where `lossy`, they may find nobody, or
somebody else, which is not `right`. -/
def Names (lossy : Prop) (right : List Lookup → Prop) (host : Host τ) (J : τ → Prop) (s : Sid)
    (len : ℕ) : Prop :=
  ∀ d, J d → J (host.findSubscriber d (s.bytes.take len)).1 ∧
    ((host.findSubscriber d (s.bytes.take len)).2 = some s ∨
      lossy ∧ ((host.findSubscriber d (s.bytes.take len)).2 = none ∨
        ∀ l, (s.bytes.take len, (host.findSubscriber d (s.bytes.take len)).2) ∈ l → ¬ right l))

/-- The decoder can follow the address that is written next. -/
def Follows (lossy : Prop) (e : EncodeContext) (s : Sid) (c : DecodeContext) : Prop :=
  c.invalidAddresses = false ∧
    (c.previous = e.previous ∨ lossy ∧ (c.previous = none ∨ e.addressCode s ≠ .previous))

/-- The decoder has read this subscriber, or noticed that it does not know it. -/
def Understood (lossy : Prop) (s : Sid) (current read : Option Sid) (c : DecodeContext) : Prop :=
  lossy ∧ c.invalidAddresses = true ∧ (read = none ∨ read = current) ∨
    c.invalidAddresses = false ∧ read = some s ∧ c.previous = some s

/-- An abort while reading, which only happens where `lossy`. -/
def Lost (lossy : Prop) (seen : List Lookup) (s : Rx τ) (_ : Abort) (t : Rx τ) : Prop :=
  lossy ∧ t.parsed = s.parsed ∧ seen ⊆ t.lookups

/-- Reading has got to this position with this frame; the rest of the context is that of `s`.
After a `bad` address, the payload stays marked. -/
structure Reading (J : τ → Prop) (bad : Prop) (seen : List Lookup) (s : Rx τ) (position : ℕ)
    (frame : Frame) (t : Rx τ) : Prop where
  position_eq : t.position = position
  frame_eq : t.frame = frame
  daemon : J t.daemon
  interface_eq : t.interface = s.interface
  parsed_eq : t.parsed = s.parsed
  sender_eq : t.context.sender = s.context.sender
  peer_eq : t.context.pointToPointDevice = s.context.pointToPointDevice
  version_eq : t.context.packetVersion = s.context.packetVersion
  encapsulation_eq : t.context.encapsulation = s.context.encapsulation
  seen_subset : seen ⊆ t.lookups
  marked : bad → t.context.invalidAddresses = true

/-- Parsing an address from here reads back `x`, which `e` wrote as these bytes, if
the decoder could follow and all is `right`, and consumes just these bytes. -/
def ReadsBack (lossy : Prop) (right : List Lookup → Prop) (bad : Prop) (J : τ → Prop)
    (host : Host τ) (packet : List Byte) (seen : List Lookup) (s : Rx τ) (position : ℕ)
    (e : EncodeContext) (x : Sid) (bytes : List Byte) : Prop :=
  ∀ frame current,
    Triple (fun t => Reading J bad seen s position frame t ∧
        (right t.lookups → Follows lossy e x t.context))
      (overlayAddressParse host packet current)
      (fun read t => Reading J bad seen s (position + bytes.length) frame t ∧
        ∃ subscriber, read = some subscriber ∧
          (right t.lookups → Understood lossy x current subscriber t.context))
      (Lost lossy seen s)

section Matches

variable {lossy wrong : Prop} {e : EncodeContext} {c : DecodeContext} {device x y : Sid}

theorem Means.mono {wrong' : Prop} {code : AddressCode} (h : Means lossy wrong host c x code)
    (himp : wrong → wrong') : Means lossy wrong' host c x code :=
  ⟨h.known, fun hright => h.reads fun hwrong => hright (himp hwrong)⟩

theorem means_of_referent {code : AddressCode} (h : c.referent host code = some (some x) ∨
    lossy ∧ (c.referent host code = some none ∨ wrong)) : Means lossy wrong host c x code := by
  refine ⟨fun hnone => ?_, fun hright y hy => ?_⟩
  · rcases h with hsome | ⟨hlossy, -⟩
    · cases hsome.symm.trans hnone
    · exact hlossy
  · rcases h with hsome | ⟨-, hnone | hwrong⟩
    · cases hsome.symm.trans hy
      rfl
    · cases hnone.symm.trans hy
    · exact absurd hwrong hright

theorem Matching.means_self (h : Matching lossy wrong host e c) (he : e.sender = some x) :
    Means lossy wrong host c x .self := by
  refine means_of_referent (h.sender.imp ?_ ?_)
  · exact fun hc => congrArg some (hc.trans he)
  · exact fun ⟨hlossy, hc⟩ => ⟨hlossy, hc.imp_left (congrArg some)⟩

theorem Names.mono {right right' : List Lookup → Prop} {J : τ → Prop} {len : ℕ}
    (h : Names lossy right host J x len) (himp : ∀ l, right' l → right l) :
    Names lossy right' host J x len := by
  intro d hd
  obtain ⟨hkept, hfound⟩ := h d hd
  refine ⟨hkept, hfound.imp id fun ⟨hlossy, hwrong⟩ => ⟨hlossy, hwrong.imp id ?_⟩⟩
  exact fun hwrong l hmem hright => hwrong l hmem (himp l hright)

end Matches

section Addresses

variable {lossy bad : Prop} {right : List Lookup → Prop} {J : τ → Prop} {e : EncodeContext}
  {x : Sid}
  {seen : List Lookup} {s : Rx τ} {position : ℕ} {frame : Frame} {current : Option Sid} {t : Rx τ}
  {len : ℕ}

/-- What each code stands for at the encoder. -/
theorem addressCode_cases (e : EncodeContext) (x : Sid) :
    match e.addressCode x with
    | .p2pYou => e.pointToPointDevice = some x
    | .p2pMe => x = e.mySubscriber ∧ e.pointToPointDevice.isSome
    | .self => e.sender = some x
    | .previous => e.previous = some x
    | .explicit len => 1 ≤ len ∧ len ≤ sidSize := by
  unfold EncodeContext.addressCode
  split_ifs with hyou hme hself hprevious hfull
  · exact hyou
  · exact ⟨hme.2.1, hme.2.2.1⟩
  · exact hself
  · exact hprevious
  · simp [sidSize]
  · simp only [Known.addressLen, sidSize]
    omega

section

variable {t : Rx τ} (h : Reading J bad seen s position frame t)

include h

theorem Reading.setPrevious (p : Option Sid) :
    Reading J bad seen s position frame { t with context := { t.context with previous := p } } :=
  { h with }

theorem Reading.setInvalid :
    Reading J bad seen s position frame
      { t with context := { t.context with invalidAddresses := true } } :=
  { h with marked := fun _ => rfl }

theorem Reading.advance (n : ℕ) :
    Reading J bad seen s (position + n) frame { t with position := t.position + n } :=
  { h with position_eq := by rw [h.1] }

theorem Reading.ahead (hahead : Ahead packet position bytes) :
    Ahead packet t.position bytes := by
  rwa [h.position_eq]

/-- Everything that has been looked up by now. -/
theorem Reading.catchUp : Reading J bad t.lookups s position frame t :=
  { h with seen_subset := List.Subset.refl _ }

theorem Reading.since {seen' : List Lookup} (hseen : seen' ⊆ seen) :
    Reading J bad seen' s position frame t :=
  { h with seen_subset := List.Subset.trans hseen h.seen_subset }

end

theorem askPeer_reading (hlossy : lossy) :
    Triple (Reading J bad seen s position frame) askPeer
      (fun _ => Reading J bad seen s position frame) (Lost lossy seen s) := by
  intro t ht
  simp only [askPeer, run_get_bind, run_ofExcept_bind]
  cases (t.context.pleaseExplain.getD (.new mdpMtu)).payload.append [oaCodeP2pYou] with
  | error => exact ⟨hlossy, ht.parsed_eq, ht.seen_subset⟩
  | ok payload => exact { ht with }

/-- Asking for an explanation changes nothing but the reply. -/
theorem askExplanation_reading (hJ : host.Keeps J) (hlossy : lossy) {id : List Byte} :
    Triple (fun t => Reading J bad seen s position frame t ∧ t.context.invalidAddresses = true)
      (askExplanation host id)
      (fun _ t => Reading J bad seen s position frame t ∧ t.context.invalidAddresses = true)
      (Lost lossy seen s) := by
  rintro t ⟨ht, hinvalid⟩
  simp only [askExplanation, run_get_bind, run_ofExcept_bind]
  cases hall : explainAll host (host.walkTree t.daemon id) t.daemon
      (some (t.context.pleaseExplain.getD (.new mdpMtu))) with
  | error => exact ⟨hlossy, ht.parsed_eq, ht.seen_subset⟩
  | ok result =>
    dsimp only
    cases (result.2.getD (.new mdpMtu)).payload.appendAll [[BitVec.ofNat 8 id.length], id] with
    | error => exact ⟨hlossy, ht.parsed_eq, ht.seen_subset⟩
    | ok payload =>
      have hd := explainAll_keeps hJ ht.daemon hall
      exact ⟨{ ht with daemon := hd }, hinvalid⟩

/-- A code that the decoder resolves. -/
theorem understood_resolved {c : DecodeContext} (hfollows : Follows lossy e x c) :
    Understood lossy x current (some x) { c with previous := some x } :=
  .inr ⟨hfollows.1, rfl, rfl⟩

/-- Where all is right, nothing has been wrong before. -/
theorem Reading.not_wrong (h : Reading J bad seen s position frame t) (hdown : Hereditary right)
    (hright : right t.lookups) : ¬ ¬ right seen :=
  not_not_intro (hdown h.seen_subset hright)

theorem Reading.referent_eq (h : Reading J bad seen s position frame t) (code : AddressCode) :
    t.context.referent host code = s.context.referent host code := by
  cases code <;> simp only [DecodeContext.referent, h.peer_eq, h.sender_eq]

/-- A code that refers to somebody is taken for this subscriber. -/
theorem overlayAddressParse_referent {code : AddressCode} {y : Sid}
    (hy : t.context.referent host code = some (some y))
    (hahead : Ahead packet t.position (wire [.address x code])) (current : Option Sid) :
    (wire [.address x code]).length = 1 ∧ (overlayAddressParse host packet current).run t =
      (.ok (some (some y)), { t with
        position := t.position + 1
        context := { t.context with previous := some y } }) := by
  have hyou : oaCodeP2pMe ≠ oaCodeP2pYou := by decide
  have hme : oaCodeSelf ≠ oaCodeP2pYou ∧ oaCodeSelf ≠ oaCodeP2pMe := by decide
  obtain ⟨_, _, _, ⟨_, _, _, _, _, sender, _, peer⟩, _⟩ := t
  cases code with
  | p2pYou =>
    obtain ⟨device, rfl, rfl⟩ := Option.map_eq_some_iff.mp (Option.some.inj hy)
    rw [overlayAddressParse, run_bind_ok (obGet_ahead hahead)]
    exact ⟨rfl, rfl⟩
  | p2pMe =>
    obtain rfl : peer = some y := Option.some.inj hy
    rw [overlayAddressParse, run_bind_ok (obGet_ahead hahead)]
    simp only [run_get_bind, hyou, if_true, if_false]
    exact ⟨rfl, rfl⟩
  | self =>
    obtain rfl : sender = some y := Option.some.inj hy
    rw [overlayAddressParse, run_bind_ok (obGet_ahead hahead)]
    simp only [run_get_bind, hme, if_true, if_false]
    exact ⟨rfl, rfl⟩
  | previous | explicit => cases hy

/-- A code that refers to nobody marks the payload, and may ask who the sender is. -/
theorem overlayAddressParse_nobody {code : AddressCode} (hlossy : lossy)
    (hnone : s.context.referent host code = some none)
    (hahead : Ahead packet position (wire [.address x code])) (current : Option Sid) :
    Triple (Reading J bad seen s position frame) (overlayAddressParse host packet current)
      (fun read t => Reading J bad seen s (position + (wire [.address x code]).length) frame t ∧
        t.context.invalidAddresses = true ∧ read = some current) (Lost lossy seen s) := by
  intro t ht
  have hyou : oaCodeP2pMe ≠ oaCodeP2pYou := by decide
  have hme : oaCodeSelf ≠ oaCodeP2pYou ∧ oaCodeSelf ≠ oaCodeP2pMe := by decide
  cases code with
  | p2pYou =>
    have hdevice := Option.map_eq_none_iff.mp (Option.some.inj hnone)
    rw [overlayAddressParse, run_bind_ok (obGet_ahead (ht.ahead hahead))]
    simp only [run_get_bind, if_true, ht.peer_eq, hdevice]
    exact ⟨(ht.advance 1).setInvalid, rfl, rfl⟩
  | p2pMe =>
    have hdevice : s.context.pointToPointDevice = none := Option.some.inj hnone
    rw [overlayAddressParse, run_bind_ok (obGet_ahead (ht.ahead hahead))]
    simp only [run_get_bind, hyou, if_true, if_false, ht.peer_eq, hdevice]
    refine (Triple.bind (askPeer_reading hlossy) fun _ => ?_) _ (ht.advance 1)
    exact fun t ht => ⟨ht.setInvalid, rfl, rfl⟩
  | self =>
    have hsender : s.context.sender = none := Option.some.inj hnone
    rw [overlayAddressParse, run_bind_ok (obGet_ahead (ht.ahead hahead))]
    simp only [run_get_bind, hme, if_true, if_false, ht.sender_eq, hsender]
    exact ⟨(ht.advance 1).setInvalid, rfl, rfl⟩
  | previous | explicit => cases hnone

theorem readsBack_referent {code : AddressCode} {found : Option Sid} (hdown : Hereditary right)
    (hmeans : Means lossy (¬ right seen) host s.context x code)
    (hfound : s.context.referent host code = some found)
    (hahead : Ahead packet position (wire [.address x code])) :
    ReadsBack lossy right bad J host packet seen s position e x (wire [.address x code]) := by
  rintro frame current t ⟨ht, hfollows⟩
  cases found with
  | none =>
    have hlossy := hmeans.known hfound
    refine ((overlayAddressParse_nobody hlossy hfound hahead current).weaken (fun _ h => h) ?_) t ht
    exact fun _ u ⟨hu, hinvalid, hread⟩ =>
      ⟨hu, current, hread, fun _ => .inl ⟨hlossy, hinvalid, .inr rfl⟩⟩
  | some y =>
    obtain ⟨hone, hrun⟩ := overlayAddressParse_referent ((ht.referent_eq code).trans hfound)
      (ht.ahead hahead) current
    rw [hrun, hone]
    refine ⟨(ht.advance 1).setPrevious _, _, rfl, fun h => ?_⟩
    obtain rfl := hmeans.reads (ht.not_wrong hdown h) y hfound
    exact understood_resolved (hfollows h)

/-- The code for the previous address means what the decoder has read before. -/
theorem overlayAddressParse_previous (hahead : Ahead packet t.position [oaCodePrevious])
    (current : Option Sid) : (overlayAddressParse host packet current).run t =
      match t.context.previous with
      | none => (.ok (some current), { t with
          position := t.position + 1
          context := { t.context with invalidAddresses := true } })
      | some y => (.ok (some (some y)), { t with position := t.position + 1 }) := by
  rw [overlayAddressParse, run_bind_ok (obGet_ahead hahead)]
  have hyou : oaCodePrevious ≠ oaCodeP2pYou := by decide
  have hme : oaCodePrevious ≠ oaCodeP2pMe := by decide
  have hself : oaCodePrevious ≠ oaCodeSelf := by decide
  simp only [run_get_bind, hyou, hme, hself, if_true, if_false]
  rcases t with ⟨_, _, _, ⟨_, _, _, _, _, _, _ | _, _⟩, _⟩ <;> rfl

/-- An address that was written as the previous one is taken for that of the decoder. -/
def Taken (e : EncodeContext) (x : Sid) (previous read : Option Sid) : Prop :=
  e.addressCode x = .previous → previous ≠ none → read = previous

theorem overlayAddressParse_taken
    (hahead : Ahead packet position (wire (overlayAddressAppend e x).1))
    (current previous : Option Sid) :
    Triple (fun t : Rx τ => t.position = position ∧ t.context.previous = previous)
      (overlayAddressParse host packet current)
      (fun read _ => ∀ subscriber, read = some subscriber → Taken e x previous subscriber)
      (fun _ _ => True) := by
  rintro t ⟨rfl, rfl⟩
  by_cases htaken : e.addressCode x = .previous ∧ t.context.previous ≠ none
  · obtain ⟨hcode, hsome⟩ := htaken
    obtain ⟨y, hy⟩ := Option.ne_none_iff_exists'.mp hsome
    rw [overlayAddressAppend, hcode] at hahead
    rw [overlayAddressParse_previous hahead, hy]
    intro subscriber hread _ _
    exact (Option.some.inj hread).symm
  · split
    · exact fun _ _ hcode hsome => absurd ⟨hcode, hsome⟩ htaken
    · trivial

/-- If the address is read back, then its code does not stand for somebody else. -/
theorem overlayAddressParse_reads {code : AddressCode}
    (hahead : Ahead packet position (wire [.address x code])) (current : Option Sid) :
    Triple (Reading J bad seen s position frame) (overlayAddressParse host packet current)
      (fun read _ => read = some (some x) → s.context.Reads host x code) (fun _ _ => True) := by
  intro t ht
  by_cases hsome : ∃ y, s.context.referent host code = some (some y)
  · obtain ⟨y, hy⟩ := hsome
    rw [(overlayAddressParse_referent ((ht.referent_eq code).trans hy) (ht.ahead hahead) current).2]
    intro hread y' hy'
    cases hread
    cases hy.symm.trans hy'
    rfl
  · split
    · exact fun _ y hy => absurd ⟨y, hy⟩ hsome
    · trivial

theorem readsBack_previous (hcode : e.addressCode x = .previous)
    (hahead : Ahead packet position [oaCodePrevious]) :
    ReadsBack lossy right bad J host packet seen s position e x [oaCodePrevious] := by
  rintro frame current t ⟨ht, hfollows⟩
  have hprevious := addressCode_cases e x
  rw [hcode] at hprevious
  rcases hp : t.context.previous with _ | y
  · rw [overlayAddressParse_previous (ht.ahead hahead), hp]
    refine ⟨(ht.advance 1).setInvalid, _, rfl, fun h => ?_⟩
    rcases hfollows h with ⟨-, heq | ⟨hlossy, -⟩⟩
    · rw [hp, hprevious] at heq
      cases heq
    · exact .inl ⟨hlossy, rfl, .inr rfl⟩
  · rw [overlayAddressParse_previous (ht.ahead hahead), hp]
    refine ⟨ht.advance 1, _, rfl, fun h => ?_⟩
    rcases hfollows h with ⟨hvalid, heq | ⟨-, hnone | hne⟩⟩
    · rw [hp, hprevious] at heq
      exact .inr ⟨hvalid, heq, hp.trans heq⟩
    · cases hp.symm.trans hnone
    · exact absurd hcode hne

section

variable (hdown : Hereditary right) (hJ : host.Keeps J)
include hdown hJ

theorem findSubscrBuffer_reading (hnames : Names lossy right host J x len) (hlen : 1 ≤ len)
    (hsize : len ≤ sidSize) (hahead : Ahead packet position (x.bytes.take len)) :
    Triple (fun t => Reading J bad seen s position frame t ∧
        (right t.lookups → Follows lossy e x t.context))
      (findSubscrBuffer host packet len)
      (fun read t => Reading J bad seen s (position + len) frame t ∧
        ∃ subscriber, read = some subscriber ∧
          (right t.lookups → Understood lossy x current subscriber t.context))
      (Lost lossy seen s) := by
  rintro t ⟨ht, hfollows⟩
  have hid : (x.bytes.take len).length = len := by
    rw [length_take, x.size]
    omega
  have hread := obGetBytes_ahead (ht.ahead hahead) (by
    intro hnil
    rw [hnil] at hid
    simp at hid
    omega)
  rw [hid] at hread
  have hbounds : ¬ (len = 0 ∨ sidSize < len) := by omega
  rw [findSubscrBuffer, if_neg hbounds, run_bind_ok hread]
  obtain ⟨hd, hfound⟩ := hnames t.daemon ht.daemon
  simp only [run_get_bind, run_modify_bind]
  have hread : ∀ found, Reading J bad seen s (position + len) frame
      { t with
        daemon := (host.findSubscriber t.daemon (x.bytes.take len)).1
        position := t.position + len
        lookups := (x.bytes.take len, found) :: t.lookups } :=
    fun _ => { ht.advance len with
      daemon := hd
      seen_subset := List.Subset.trans ht.10 (subset_cons_self _ _) }
  rcases hsub : (host.findSubscriber t.daemon (x.bytes.take len)).2 with _ | y <;>
    rw [hsub] at hfound
  · have hlossy : lossy := by
      rcases hfound with hfound | ⟨hlossy, -⟩
      · cases hfound
      · exact hlossy
    refine (Triple.bind (askExplanation_reading hJ hlossy) fun _ => ?_) _
      ⟨(hread none).setInvalid, rfl⟩
    exact fun t ht => ⟨ht.1, _, rfl, fun _ => .inl ⟨hlossy, ht.2, .inl rfl⟩⟩
  · refine ⟨(hread (some y)).setPrevious _, _, rfl, fun h => ?_⟩
    rcases hfound with hfound | ⟨-, hnone | hwrong⟩
    · cases hfound
      exact understood_resolved (hfollows (hdown (subset_cons_self _ _) h))
    · cases hnone
    · exact absurd h (hwrong _ mem_cons_self)

theorem readsBack_explicit
    (hnames : Names lossy right host J x len) (hcode : e.addressCode x = .explicit len)
    (hahead : Ahead packet position ([BitVec.ofNat 8 len] ++ x.bytes.take len)) :
    ReadsBack lossy right bad J host packet seen s position e x
      ([BitVec.ofNat 8 len] ++ x.bytes.take len) := by
  rintro frame current t ⟨ht, hfollows⟩
  have hlen := addressCode_cases e x
  rw [hcode] at hlen
  simp only [sidSize] at hlen
  obtain ⟨hbyte, hid⟩ := ahead_append.mp hahead
  have hnat : (BitVec.ofNat 8 len).toNat = len := by
    rw [BitVec.toNat_ofNat]
    omega
  have hcodes : ∀ code : Byte, 32 < code.toNat → BitVec.ofNat 8 len ≠ code := by
    rintro code hlt rfl
    omega
  rw [overlayAddressParse, run_bind_ok (obGet_ahead (ht.ahead hbyte))]
  simp only [run_get_bind, hcodes oaCodeP2pYou (by decide), hcodes oaCodeP2pMe (by decide),
    hcodes oaCodeSelf (by decide), hcodes oaCodePrevious (by decide), if_false, hnat]
  have hbytes : position + ([BitVec.ofNat 8 len] ++ x.bytes.take len).length =
      position + 1 + len := by
    simp only [length_append, length_take, x.size, length_singleton, sidSize]
    omega
  rw [hbytes]
  exact findSubscrBuffer_reading hdown hJ hnames hlen.1 hlen.2 hid _ ⟨ht.advance 1, hfollows⟩

theorem readsBack_append
    (hnames : ∀ len, e.addressCode x = .explicit len → Names lossy right host J x len)
    (hmeans : Means lossy (¬ right seen) host s.context x (e.addressCode x))
    (hahead : Ahead packet position (wire (overlayAddressAppend e x).1)) :
    ReadsBack lossy right bad J host packet seen s position e x
      (wire (overlayAddressAppend e x).1) := by
  unfold overlayAddressAppend at hahead ⊢
  cases hcode : e.addressCode x with
  | p2pYou | p2pMe | self =>
    rw [hcode] at hahead hmeans
    exact readsBack_referent hdown hmeans rfl hahead
  | previous =>
    rw [hcode] at hahead
    exact readsBack_previous hcode hahead
  | explicit len =>
    rw [hcode] at hahead
    have hwire : wire [.address x (.explicit len)] = [BitVec.ofNat 8 len] ++ x.bytes.take len := by
      simp [wire, Item.appends]
    rw [hwire] at hahead ⊢
    exact readsBack_explicit hdown hJ (hnames len hcode) hcode hahead

end

end Addresses

end ServalMesh.Overlay
