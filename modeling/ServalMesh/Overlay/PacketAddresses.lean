import ServalMesh.Overlay.Assembly

/-!
# Addresses from end to end

A packet that was put together at one end is parsed at the other. An id that the
receiver does not know leaves the previous address of its context behind that of the
sender, and the next payload may refer to it. The code for an end of a link stands for
whoever the receiver takes for the other device.
-/

namespace ServalMesh.Overlay

open Lib List Run Triple

variable {τ : Type} {host : Host τ} {packet : List Byte}

section Handling

variable {s : Rx τ}

/-- Handling a payload touches neither the context nor what is recorded of the parsing. -/
def SameParse (s t : Rx τ) : Prop :=
  t.context = s.context ∧ t.parsed = s.parsed ∧ t.lookups = s.lookups

/-- However the run ends. -/
def KeepsParse {α : Type} (m : Run Abort (Rx τ) α) : Prop :=
  ∀ s, Triple (SameParse s) m (fun _ => SameParse s) (fun _ => SameParse s)

theorem keepsParse_modify {g : Rx τ → Rx τ} (h : ∀ t, SameParse t (g t)) :
    KeepsParse (modify g : Run Abort (Rx τ) Unit) := by
  rintro s t ⟨hcontext, hparsed, hlookups⟩
  obtain ⟨hcontext', hparsed', hlookups'⟩ := h t
  exact ⟨hcontext'.trans hcontext, hparsed'.trans hparsed, hlookups'.trans hlookups⟩

theorem keepsParse_bind {α β : Type} {m : Run Abort (Rx τ) α} {f : α → Run Abort (Rx τ) β}
    (hm : KeepsParse m) (hf : ∀ a, KeepsParse (f a)) : KeepsParse (m >>= f) :=
  fun s => (hm s).bind fun a => hf a s

theorem keepsParse_get {β : Type} {f : Rx τ → Run Abort (Rx τ) β} (hf : ∀ t, KeepsParse (f t)) :
    KeepsParse (get >>= f) :=
  fun s => get_bind_inv fun t _ => hf t s

theorem keepsParse_pure {α : Type} (a : α) : KeepsParse (pure a : Run Abort (Rx τ) α) :=
  fun _ _ h => h

theorem keepsParse_ofExcept {α : Type} (x : Except Abort α) :
    KeepsParse (ofExcept x : Run Abort (Rx τ) α) := by
  intro s t ht
  cases x with
  | error | ok => exact ht

theorem keepsParse_when {m : Run Abort (Rx τ) Unit} (hm : KeepsParse m) (c : Bool) :
    KeepsParse (when c m) := by
  cases c with
  | true => exact hm
  | false => exact keepsParse_pure ()

theorem overlayPayloadEnqueue_keepsParse (frame : Frame) (payload : OutBuf) :
    KeepsParse (overlayPayloadEnqueue host frame payload) := by
  unfold overlayPayloadEnqueue
  split_ifs
  · exact fun _ _ h => h
  · exact keepsParse_pure ()
  · exact fun _ _ h => h
  · exact keepsParse_modify fun _ => ⟨rfl, rfl, rfl⟩

theorem overlayForwardPayload_keepsParse (payload : List Byte) :
    KeepsParse (overlayForwardPayload host payload) := by
  refine keepsParse_get fun t => ?_
  split
  · exact keepsParse_pure ()
  · exact overlayPayloadEnqueue_keepsParse _ _

theorem processIncomingFrame_keepsParse (payload : List Byte) :
    KeepsParse (processIncomingFrame host payload) := by
  refine keepsParse_get fun t => ?_
  split
  · refine keepsParse_get fun t => keepsParse_bind (keepsParse_ofExcept _) fun result => ?_
    refine keepsParse_bind (keepsParse_modify fun _ => ⟨rfl, rfl, rfl⟩) fun _ => ?_
    rcases result with ⟨d, _ | reply⟩
    · exact keepsParse_pure ()
    · exact overlayPayloadEnqueue_keepsParse _ _
  · exact keepsParse_modify fun _ => ⟨rfl, rfl, rfl⟩

theorem handlePayload_keepsParse (verdict : Verdict) (payload : List Byte) :
    KeepsParse (handlePayload host verdict payload) := by
  refine keepsParse_bind (keepsParse_when (overlayForwardPayload_keepsParse payload) _) fun _ => ?_
  refine keepsParse_bind (keepsParse_when (processIncomingFrame_keepsParse payload) _) fun _ => ?_
  refine keepsParse_modify fun t => ?_
  split <;> exact ⟨rfl, rfl, rfl⟩

theorem answer_keepsParse : KeepsParse (answer host) := by
  refine keepsParse_get fun t => ?_
  rcases t.context.pleaseExplain with _ | reply
  · exact keepsParse_pure ()
  · exact overlayPayloadEnqueue_keepsParse _ _

end Handling

section Resolving

variable {items : List Item} {x y : Sid} {len : ℕ}

/-- The lookup did not find anybody else than the one whose id was written. -/
def Item.Allows (lookup : Lookup) : Item → Prop
  | .address x (.explicit len) =>
    lookup.1 = x.bytes.take len → lookup.2 = none ∨ lookup.2 = some x
  | _ => True

instance (lookup : Lookup) (item : Item) : Decidable (item.Allows lookup) :=
  match item with
  | .address x (.explicit len) =>
    inferInstanceAs (Decidable (lookup.1 = x.bytes.take len → lookup.2 = none ∨ lookup.2 = some x))
  | .address _ .p2pYou | .address _ .p2pMe | .address _ .self | .address _ .previous | .bytes _ =>
    inferInstanceAs (Decidable True)

/-- Each id of the packet that was looked up was found to be the subscriber that the
sender meant, or nobody. -/
def Resolved (items : List Item) (lookups : List Lookup) : Prop :=
  ∀ item ∈ items, ∀ lookup ∈ lookups, item.Allows lookup

instance (items : List Item) (lookups : List Lookup) : Decidable (Resolved items lookups) :=
  inferInstanceAs (Decidable (∀ item ∈ items, ∀ lookup ∈ lookups, item.Allows lookup))

theorem hereditary_resolved (items : List Item) : Hereditary (Resolved items) :=
  fun _ _ hsub h item hitem lookup hlookup => h item hitem lookup (hsub hlookup)

theorem keeps_anything (host : Host τ) : host.Keeps fun _ => True :=
  ⟨fun _ _ h => h, fun _ _ h => h, fun _ _ h => h, fun _ _ h => h, fun _ _ _ h => h⟩

theorem names_resolved (h : .address x (.explicit len) ∈ items) :
    Names True (Resolved items) host (fun _ => True) x len := by
  refine fun d _ => ⟨trivial, ?_⟩
  rcases hfound : (host.findSubscriber d (x.bytes.take len)).2 with _ | y
  · exact .inr ⟨trivial, .inl rfl⟩
  by_cases heq : y = x
  · exact .inl (congrArg some heq)
  · refine .inr ⟨trivial, .inr fun l hmem hright => ?_⟩
    rcases hright _ h _ hmem rfl with hnone | hsome
    · cases hnone
    · exact heq (Option.some.inj hsome)

end Resolving

section Payloads

/-- The previous address of the receiver is that of the sender, or there is none, or the
header does not refer to it. -/
def InStep (previous : Option Sid) (q : Sent) : Prop :=
  previous = q.context.previous ∨ previous = none ∨
    ∀ x, q.outgoing.firstAddress q.context = some x → q.context.addressCode x ≠ .previous

/-- The codes of the header for the sender and for the ends of a link stand for the same
subscribers at the receiver, or for nobody. -/
def LinksAgree (host : Host τ) (c : DecodeContext) (q : Sent) : Prop :=
  EachAddress (c.Reads host) q.header ∧ SenderReads host c q.context q.outgoing

/-- What is recorded of a header. -/
abbrev Header.parsed (header : Header) (before : DecodeContext) (frame : Frame) : Parsed :=
  ⟨before, header.verdict.process, header.verdict.forward, frame.source, frame.destination,
    header.nexthop⟩

/-- These are the subscribers that the sender meant. -/
def Parsed.Meant (p : Parsed) (f : Outgoing) : Prop :=
  p.source = some f.source ∧ p.destination = f.destination ∧ p.nexthop = f.writtenNextHop

/-- If the ids of the packet resolve, then just those payloads are understood whose
headers are in step and whose codes agree; where the ends of the link `agree`, these do. -/
def Faithful (host : Host τ) (agree : Prop) (items : List Item) (sents : List Sent) (t : Rx τ) :
    Prop :=
  Resolved items t.lookups → ∀ (i : ℕ) (p : Parsed) (q : Sent), t.parsed[i]? = some p →
    sents[i]? = some q →
    (p.process = true ∨ p.forward = true →
      (p.Meant q.outgoing ↔ InStep p.before.previous q ∧ LinksAgree host p.before q)) ∧
    (agree → LinksAgree host p.before q)

variable {version position : ℕ} {encapsulation : Encapsulation} {e : EncodeContext} {q : Sent}
  {items : List Item} {sents done rest : List Sent} {s : Rx τ} {seen : List Lookup} {frame : Frame}
  {t : Rx τ} {v : ℕ} {agree : Prop}

theorem Matching.linksAgree {wrong : Prop} {c : DecodeContext} (h : Matching True wrong host e c)
    (hright : ¬ wrong) (hq : q.Written version e) : LinksAgree host c q := by
  obtain ⟨e', hbuild⟩ := hq.header_eq
  refine ⟨fun x code hx => ?_, fun hsame => ?_⟩
  · obtain ⟨-, e₁, hextends, rfl⟩ := overlayFrameBuildHeader_writes hbuild x code hx
    exact (h.means (hq.extends_start.trans hextends) x).reads hright
  · have hsender : q.context.sender = some q.outgoing.source := by
      simpa [Outgoing.senderSame] using hsame
    exact (h.means_self (hq.extends_start.sender_eq.symm.trans hsender)).reads hright

theorem faithful_of_parsed_eq (h : Faithful host agree items sents s)
    (hparsed : t.parsed = s.parsed)
    (hseen : s.lookups ⊆ t.lookups) : Faithful host agree items sents t := by
  intro hresolved
  rw [hparsed]
  exact h (hereditary_resolved items hseen hresolved)

theorem SameParse.faithful (h : SameParse s t) (hs : Faithful host agree items sents s) :
    Faithful host agree items sents t :=
  faithful_of_parsed_eq hs h.2.1 (h.2.2 ▸ List.Subset.refl _)

theorem KeepsParse.faithful {α : Type} {m : Run Abort (Rx τ) α} (h : KeepsParse m) :
    Triple (Faithful host agree items sents) m (fun _ => Faithful host agree items sents)
      (fun _ => Faithful host agree items sents) := fun t ht =>
  ((h t).weaken (fun _ h => h) fun _ _ h => h.faithful ht).weaken_abort
    (fun _ _ h => h.faithful ht) t
    ⟨rfl, rfl, rfl⟩

/-- A header was understood if and only if it was in step and its codes agree. -/
def HeaderFaithful (host : Host τ) (items : List Item) (c : DecodeContext) (q : Sent)
    (header : Header) (t : Rx τ) : Prop :=
  header.verdict.process = true ∨ header.verdict.forward = true → Resolved items t.lookups →
    (t.frame.source = some q.outgoing.source ∧ t.frame.destination = q.outgoing.destination ∧
      header.nexthop = q.outgoing.writtenNextHop ↔ InStep c.previous q ∧ LinksAgree host c q)

theorem parseMdpPacketHeader_faithful (hq : q.Written version e)
    (hitems : q.header ⊆ items) (hversion : s.context.packetVersion = version)
    (hahead : Ahead packet position (wire q.header)) :
    Triple (fun t => Reading (fun _ => True) False seen s position frame t ∧
        t.context.invalidAddresses = false ∧ t.context.previous = s.context.previous)
      (parseMdpPacketHeader host packet)
      (fun result t => ∃ header, result = some header ∧
        (∃ frame', Reading (fun _ => True) False seen s (position + (wire q.header).length)
          frame' t) ∧ HeaderFaithful host items s.context q header t)
      (Lost True seen s) := by
  obtain ⟨e', hbuild⟩ := hq.header_eq
  -- the addresses are understood where the ids resolve, the header is in step and its codes agree
  let right : List Lookup → Prop := fun l =>
    Resolved items l ∧ InStep s.context.previous q ∧ LinksAgree host s.context q
  have hdown : Hereditary right := fun _ _ hsub h => ⟨hereditary_resolved items hsub h.1, h.2⟩
  have hmeans : EachAddress (Means True (¬ right seen) host s.context) q.header :=
    fun x code hx => ⟨fun _ => trivial, fun h => (not_not.mp h).2.2.1 x code hx⟩
  have hread : Triple (fun t => Reading (fun _ => True) False seen s position frame t ∧
      t.context.previous = s.context.previous ∧ t.context.invalidAddresses = false ∧
      (right t.lookups → FollowsHeader True q.context q.outgoing t.context)) _ _ _ :=
    parseMdpPacketHeader_reading hdown (keeps_anything host)
      (fun x len hx => (names_resolved (hitems hx)).mono fun _ h => h.1) hmeans hversion
      (fun hsame => ⟨fun _ => trivial, fun h => (not_not.mp h).2.2.2 hsame⟩) hbuild hahead
  refine hread.weaken ?_ ?_
  · rintro t ⟨ht, hvalid, hprevious⟩
    refine ⟨ht, hprevious, hvalid, fun hstep x hx => ⟨hvalid, ?_⟩⟩
    rw [hprevious]
    rcases hstep.2.1 with heq | hnone | hcode
    · exact .inl heq
    · exact .inr ⟨trivial, .inl hnone⟩
    · exact .inr ⟨trivial, .inr (hcode x hx)⟩
  · rintro result t ⟨header, rfl, hread, htaken, hreads, hheader⟩
    refine ⟨header, rfl, hread, fun hverdict hresolved => ⟨fun hmeant => ⟨?_, ?_⟩, fun hstep => ?_⟩⟩
    · by_contra hstale
      simp only [InStep, not_or, not_forall, not_not] at hstale
      obtain ⟨hne, hsome, x, hfirst, hcode⟩ := hstale
      have hx := addressCode_cases q.context x
      rw [hcode] at hx
      have hread := htaken x hfirst hcode hsome
      unfold Outgoing.firstAddress at hfirst
      refine hne (hread.symm.trans (Eq.trans ?_ hx.symm))
      rcases hsame : q.outgoing.senderSame q.context with _ | _ <;> rw [hsame] at hfirst
      · exact hmeant.1.trans hfirst
      · exact hmeant.2.1.trans hfirst
    · exact hreads hmeant.1 hmeant.2.1 hmeant.2.2
    · rcases hheader.addresses ⟨hresolved, hstep⟩ with ⟨-, hinvalid⟩ | ⟨-, hsource, hdest, hnext, -⟩
      · rw [hheader.valid hverdict] at hinvalid
        cases hinvalid
      · exact ⟨hsource, hdest, hnext⟩

theorem ui16_value (hv : v < mdpMtu) :
    (ui16Value (some [BitVec.ofNat 8 ((v >>> 8) &&& 0xFF), BitVec.ofNat 8 (v &&& 0xFF)])).toNat =
      v := by
  have hhigh : (v >>> 8) &&& 0xFF = v / 256 := by
    rw [Nat.shiftRight_eq_div_pow, Nat.and_two_pow_sub_one_eq_mod _ 8]
    simp only [mdpMtu] at hv
    omega
  have hlow : v &&& 0xFF = v % 256 := Nat.and_two_pow_sub_one_eq_mod _ 8
  simp only [mdpMtu] at hv
  rw [toNat_ui16Value, hhigh, hlow, BitVec.toNat_ofNat, BitVec.toNat_ofNat]
  omega

theorem obGetUi16_run (hv : v < mdpMtu) (hahead : Ahead packet t.position (wire [ui16 v])) :
    (obGetUi16 packet).run t = (.ok v, { t with position := t.position + 2 }) := by
  rw [ui16, wire_bytes, wire_nil, append_nil] at hahead
  have hread : (obGetBytes packet 2).run t =
      (.ok (some _), { t with position := t.position + 2 }) :=
    obGetBytes_ahead hahead (by simp)
  rw [obGetUi16, run_bind_ok hread, run_pure, ui16_value hv]

/-- The length of a payload is found, in the packet or as what is left of it. -/
theorem payloadLength_run {payload tail : List Byte}
    (hencapsulation : t.context.encapsulation = encapsulation)
    (hdrop : packet.drop t.position = wire (payloadItems encapsulation payload) ++ tail)
    (hle : t.position ≤ packet.length) (hsingle : encapsulation = .single → tail = [])
    (hsize : payload.length < mdpMtu) :
    ∃ position, (payloadLength packet).run t = (.ok (some payload.length), { t with position }) ∧
      packet.drop position = payload ++ tail ∧ position ≤ packet.length := by
  have hpayload : wire (if payload = [] then [] else [.bytes payload]) = payload := by
    by_cases h : payload = [] <;> simp [h]
  have hlength := congrArg List.length hdrop
  rw [length_drop] at hlength
  unfold payloadLength
  simp only [run_get_bind, hencapsulation]
  cases encapsulation with
  | single =>
    obtain rfl := hsingle rfl
    simp only [payloadItems, reduceCtorEq, if_false, nil_append, hpayload,
      append_nil] at hdrop hlength
    refine ⟨t.position, ?_, by rw [hdrop, append_nil], hle⟩
    rw [run_bind_ok (obRemaining_run hle), hlength]
    rfl
  | overlay =>
    simp only [payloadItems, if_true, wire_append, hpayload, append_assoc] at hdrop hlength
    have hwire : (wire [ui16 payload.length]).length = 2 := rfl
    simp only [length_append, hwire] at hlength
    have hfit : t.position + 2 ≤ packet.length := by omega
    refine ⟨t.position + 2, ?_, ?_, hfit⟩
    · have hleft : ¬ packet.length - (t.position + 2) < payload.length := by omega
      rw [run_bind_ok (obGetUi16_run hsize ⟨_, hdrop.symm⟩),
        run_bind_ok (obRemaining_run hfit)]
      simp only [hleft, if_false, run_pure]
    · rw [← drop_drop, hdrop]
      rfl

theorem faithful_snoc {p : Parsed} (h : Faithful host agree items sents t)
    (hsents : sents = done ++ q :: rest) (hlength : t.parsed.length = done.length)
    (hp : p.process = true ∨ p.forward = true → Resolved items t.lookups →
      (p.Meant q.outgoing ↔ InStep p.before.previous q ∧ LinksAgree host p.before q))
    (hagree : agree → Resolved items t.lookups → LinksAgree host p.before q) :
    Faithful host agree items sents { t with parsed := t.parsed ++ [p] } := by
  intro hresolved i p' q' hp' hq'
  rcases lt_trichotomy i t.parsed.length with hlt | rfl | hgt
  · rw [getElem?_append_left hlt] at hp'
    exact h hresolved i p' q' hp' hq'
  · rw [getElem?_concat_length] at hp'
    rw [hsents, hlength, getElem?_append_right le_rfl, Nat.sub_self] at hq'
    cases hp'
    cases hq'
    exact ⟨fun hverdict => hp hverdict hresolved, fun h => hagree h hresolved⟩
  · rw [getElem?_eq_none (by simp; omega)] at hp'
    cases hp'

end Payloads

section Delivering

variable {p : Delivery} {q : Sent} {done rest : List Sent} {e : EncodeContext} {agree : Prop}

/-- The receiver has parsed the payloads `done` and goes on with the `rest`. -/
structure AtPayload (host : Host τ) (agree : Prop) (p : Delivery) (done rest : List Sent)
    (t : Rx τ) : Prop where
  rest_eq : p.bytes.drop t.position = wire (rest.flatMap (Sent.items p.encapsulation))
  position_le : t.position ≤ p.bytes.length
  version_eq : t.context.packetVersion = p.version
  encapsulation_eq : t.context.encapsulation = p.encapsulation
  contexts : agree → Matching True (¬ Resolved p.items t.lookups) host p.start t.context
  parsed_length : t.parsed.length = done.length
  faithful : Faithful host agree p.items p.sent t

theorem Matching.congr {lossy wrong wrong' : Prop} {c c' : DecodeContext}
    (h : Matching lossy wrong host e c) (hwrong : wrong → wrong') (hsender : c'.sender = c.sender)
    (hpeer : c'.pointToPointDevice = c.pointToPointDevice) : Matching lossy wrong' host e c' := by
  refine ⟨?_, fun device hdevice => ?_⟩
  · rw [hsender]
    exact h.sender.imp_right fun ⟨hlossy, hc⟩ => ⟨hlossy, hc.imp_right hwrong⟩
  · rw [hpeer]
    exact (h.peer device hdevice).imp_right fun ⟨hlossy, hc⟩ => ⟨hlossy, hc.imp_right hwrong⟩

theorem payloadStep_faithful (hsents : p.sent = done ++ q :: rest) :
    Triple (AtPayload host agree p done (q :: rest)) (payloadStep host p.bytes)
      (fun goOn t => goOn = true ∧ AtPayload host agree p (done ++ [q]) rest t)
      (fun _ => Faithful host agree p.items p.sent) := by
  intro t ht
  have hq : q ∈ p.sent := by simp [hsents]
  have hitems : q.header ⊆ p.items := fun item hitem =>
    mem_append_right _ (mem_flatMap.mpr ⟨q, hq, mem_append_left _ hitem⟩)
  have hdrop : p.bytes.drop t.position = wire q.header ++
      (wire (payloadItems p.encapsulation q.payload) ++
        wire (rest.flatMap (Sent.items p.encapsulation))) := by
    rw [ht.rest_eq, flatMap_cons, wire_append, Sent.items, wire_append, append_assoc]
  refine (Triple.bind ((parseMdpPacketHeader_faithful (s := { t with
    context := { t.context with invalidAddresses := false } }) (p.written q hq) hitems ht.version_eq
    ⟨_, hdrop.symm⟩).weaken_abort ?_) fun result => ?_) _
    ⟨⟨rfl, rfl, trivial, rfl, rfl, rfl, rfl, rfl, rfl, List.Subset.refl _, False.elim⟩, rfl, rfl⟩
  · rintro - u ⟨-, hparsed, hseen⟩
    exact faithful_of_parsed_eq ht.faithful hparsed hseen
  rintro u ⟨header, rfl, ⟨frame', hu⟩, hheader⟩
  have hmatch : agree → Matching True (¬ Resolved p.items u.lookups) host p.start u.context :=
    fun hagree => (ht.contexts hagree).congr
      (fun h h' => h (hereditary_resolved p.items hu.seen_subset h')) hu.sender_eq hu.peer_eq
  let before : DecodeContext := { t.context with invalidAddresses := false }
  have hlength := (congrArg length hu.parsed_eq).trans ht.parsed_length
  have hfaithful := faithful_snoc (faithful_of_parsed_eq ht.faithful hu.parsed_eq hu.seen_subset)
    hsents hlength (p := header.parsed before u.frame) hheader fun hagree hresolved =>
      ((ht.contexts hagree).congr id rfl rfl).linksAgree
        (not_not_intro (hereditary_resolved p.items hu.seen_subset hresolved)) (p.written q hq)
  have hdrop' : p.bytes.drop u.position = wire (payloadItems p.encapsulation q.payload) ++
      wire (rest.flatMap (Sent.items p.encapsulation)) := by
    rw [hu.position_eq, ← drop_drop, hdrop, drop_left]
  have hle : u.position ≤ p.bytes.length := by
    have := congrArg List.length hdrop
    have := ht.position_le
    rw [hu.position_eq]
    simp only [length_drop, length_append] at *
    omega
  have hsingle : p.encapsulation = .single →
      wire (rest.flatMap (Sent.items p.encapsulation)) = [] := by
    intro h
    have := p.single h
    rw [hsents, length_append, length_cons] at this
    rw [length_eq_zero_iff.mp (show rest.length = 0 by omega)]
    rfl
  rw [run_modify_bind]
  obtain ⟨position, hrun, hpayload, hfit⟩ := payloadLength_run (t := { u with
    parsed := u.parsed ++ [header.parsed before u.frame] })
    (hu.encapsulation_eq.trans ht.encapsulation_eq) hdrop' hle hsingle (p.written q hq).size
  rw [run_bind_ok hrun, run_get_bind]
  have hend : position + q.payload.length ≤ p.bytes.length := by
    have := congrArg List.length hpayload
    simp only [length_drop, length_append] at this
    omega
  have hnext : ∀ v, SameParse { u with
        parsed := u.parsed ++ [header.parsed before u.frame] } v →
      AtPayload host agree p (done ++ [q]) rest
        { v with position := position + q.payload.length } := by
    rintro ⟨⟩ ⟨hcontext, hparsed, hlookups⟩
    cases hcontext
    cases hparsed
    cases hlookups
    refine ⟨?_, hend, hu.version_eq.trans ht.version_eq,
      hu.encapsulation_eq.trans ht.encapsulation_eq, hmatch, ?_, hfaithful⟩
    · rw [← drop_drop, hpayload, drop_left]
    · simpa using hlength
  cases header.verdict.process || header.verdict.forward with
  | true =>
    rw [if_pos rfl, if_pos hend]
    refine (Triple.bind ((handlePayload_keepsParse _ _ _).weaken_abort ?_) fun _ => ?_) _
      ⟨rfl, rfl, rfl⟩
    · exact fun _ _ hv => hv.faithful hfaithful
    · exact fun v hv => ⟨rfl, hnext v hv⟩
  | false => exact ⟨rfl, hnext _ ⟨rfl, rfl, rfl⟩⟩

theorem payloadLoop_faithful (fuel : ℕ) (hsents : p.sent = done ++ rest) :
    Triple (AtPayload host agree p done rest) (payloadLoop host p.bytes fuel)
      (fun _ => Faithful host agree p.items p.sent)
      (fun _ => Faithful host agree p.items p.sent) := by
  induction fuel generalizing done rest with
  | zero => exact fun t ht => ht.faithful
  | succ fuel ih =>
    intro t ht
    rw [payloadLoop, run_bind_ok (obRemaining_run ht.position_le)]
    by_cases hleft : p.bytes.length - t.position = 0
    · rw [if_pos hleft]
      exact ht.faithful
    rw [if_neg hleft]
    cases rest with
    | nil =>
      have := congrArg List.length ht.rest_eq
      rw [length_drop] at this
      exact absurd this hleft
    | cons q rest =>
      refine (Triple.bind (payloadStep_faithful hsents) fun goOn => ?_) t ht
      rintro u ⟨rfl, hu⟩
      exact ih (by rw [hsents, append_assoc]; rfl) u hu

end Delivering

section Envelope

variable {version : ℕ} {encapsulation : Encapsulation} {interface : Interface}
  {e e' : EncodeContext} {header : List Item} {unicast : Bool} {index : Byte} {seq : Option ℕ}
  {t : Rx τ}

/-- What follows the address of the sender. -/
def envelopeTail (unicast : Bool) (index : Byte) (seq : Option ℕ) : List Item :=
  [.bytes [flag packetUnicast unicast ||| flag packetInterface (index ≠ 0#8)
      ||| flag packetSeq seq.isSome]]
    ++ (if index ≠ 0#8 then [.bytes [index]] else [])
    ++ (match seq with
      | some seq => [.bytes [BitVec.ofNat 8 seq]]
      | none => [])

/-- The context in which the address of the sender is written. -/
def EncodeContext.atHeader (e : EncodeContext) (version : ℕ) (interface : Interface) :
    EncodeContext :=
  { e with
    pointToPointDevice :=
      if interface.pointToPoint = true ∧ interface.otherDevice.isSome ∧ 1 ≤ version then
        interface.otherDevice
      else e.pointToPointDevice
    encodingHeader := true }

theorem overlayPacketInitHeader_parts
    (h : overlayPacketInitHeader version encapsulation interface e unicast index seq =
      some (header, e')) :
    version ≤ supportedPacketVersion ∧ e'.sender = some e.mySubscriber ∧
      e'.mySubscriber = e.mySubscriber ∧
      e'.pointToPointDevice = (e.atHeader version interface).pointToPointDevice ∧
      header = [.bytes [BitVec.ofNat 8 version], .bytes [encapsulation.code]]
        ++ (overlayAddressAppend (e.atHeader version interface) e.mySubscriber).1
        ++ envelopeTail unicast index seq := by
  have hextends := afterAddress_extends (e.atHeader version interface) e.mySubscriber
  unfold overlayPacketInitHeader at h
  split at h
  · cases h
  rename_i hversion
  cases h
  refine ⟨by omega, congrArg some hextends.mySubscriber_eq, hextends.mySubscriber_eq,
    hextends.peer_eq, ?_⟩
  rfl

theorem obGetIf_run {b : Byte} (set : Bool)
    (hahead : Ahead packet t.position (if set then [b] else [])) :
    (obGetIf packet set).run t = (.ok (if set then some b else none),
      { t with position := t.position + (if set then [b] else []).length }) := by
  cases set with
  | true => exact obGet_ahead hahead
  | false => rfl

theorem parseEnvelopeFlags_run
    (hahead : Ahead packet t.position (wire (envelopeTail unicast index seq))) :
    ∃ flags seq' senderInterface, (parseEnvelopeFlags packet).run t = (.ok (flags, seq'), { t with
      position := t.position + (wire (envelopeTail unicast index seq)).length
      context := { t.context with senderInterface } }) := by
  obtain ⟨flags, hflags⟩ : ∃ flags, flags = flag packetUnicast unicast |||
      flag packetInterface (index ≠ 0#8) ||| flag packetSeq seq.isSome := ⟨_, rfl⟩
  have hwire : wire (envelopeTail unicast index seq) = [flags] ++
      ((if decide (index ≠ 0#8) then [index] else []) ++
        if seq.isSome then [BitVec.ofNat 8 (seq.getD 0)] else []) := by
    cases seq <;> by_cases h : index = 0#8 <;> simp [envelopeTail, h, hflags]
  rw [hwire] at hahead ⊢
  obtain ⟨hfirst, hrest⟩ := ahead_append.mp hahead
  obtain ⟨hindex, hseq⟩ := ahead_append.mp hrest
  rw [parseEnvelopeFlags, run_bind_ok (obGet_ahead hfirst)]
  obtain ⟨hbit₁, hbit₂⟩ : flags.getLsbD packetInterface = decide (index ≠ 0#8) ∧
      flags.getLsbD packetSeq = seq.isSome := by
    simp only [hflags, BitVec.getLsbD_or, flag_getLsbD (by decide : packetInterface < 8),
      flag_getLsbD (by decide : packetSeq < 8)]
    simp [packetUnicast, packetInterface, packetSeq]
  simp only [Option.getD_some, hbit₁, hbit₂]
  rw [length_append, length_append, ← add_assoc, ← add_assoc]
  exact ⟨_, _, _, Eq.trans (run_bind_ok (obGetIf_run _ hindex))
    (Eq.trans (run_modify_bind ..) (Eq.trans (run_bind_ok (obGetIf_run _ hseq)) rfl))⟩

theorem acceptSender_run (host : Host τ) (flags : Byte) (seq' : Option Byte) (t : Rx τ) :
    ∃ ret u, (acceptSender host flags seq').run t = (.ok ret, u) ∧ u.position = t.position ∧
      u.parsed = t.parsed ∧ u.lookups = t.lookups ∧
      u.context.packetVersion = t.context.packetVersion ∧
      u.context.encapsulation = t.context.encapsulation ∧ u.context.sender = t.context.sender ∧
      (u.context.pointToPointDevice = t.context.pointToPointDevice ∨
        t.interface.pointToPoint = true ∧ u.context.pointToPointDevice = t.context.sender) := by
  simp only [acceptSender, run_get_bind]
  split
  · exact ⟨1, t, rfl, rfl, rfl, rfl, rfl, rfl, rfl, .inl rfl⟩
  rw [run_modify_bind, run_modify_bind]
  by_cases hpeer : t.context.sender.isSome ∧ t.interface.pointToPoint = true ∧
      t.interface.otherDevice ≠ t.context.sender
  · rw [if_pos hpeer]
    exact ⟨0, _, rfl, rfl, rfl, rfl, rfl, rfl, rfl, .inr ⟨hpeer.2.1, rfl⟩⟩
  · rw [if_neg hpeer]
    exact ⟨0, _, rfl, rfl, rfl, rfl, rfl, rfl, rfl, .inl rfl⟩

/-- The two ends of a point to point link take each other for its other end. -/
def PeersAgree (host : Host τ) (interface : Interface) (e : EncodeContext) : Prop :=
  ∀ device, e.pointToPointDevice = some device → interface.pointToPoint = true →
    device = host.mySubscriber ∧
      (interface.otherDevice = none ∨ interface.otherDevice = some e.mySubscriber)

theorem peersAgree_matching {wrong : Prop} {c : DecodeContext} (h : PeersAgree host interface e)
    (hsender : c.sender = e.sender ∨ c.sender = none ∨ wrong)
    (hpeer : c.pointToPointDevice =
      (if interface.pointToPoint then interface.otherDevice else none) ∨
      interface.pointToPoint = true ∧
        (c.pointToPointDevice = some e.mySubscriber ∨ c.pointToPointDevice = none ∨ wrong)) :
    Matching True wrong host e c := by
  refine ⟨hsender.imp id fun h => ⟨trivial, h⟩, fun device hdevice => ?_⟩
  rcases hpeer with hpeer | ⟨hlink, hpeer⟩
  · cases hlink : interface.pointToPoint with
    | false =>
      rw [hlink] at hpeer
      exact .inr ⟨trivial, .inl hpeer⟩
    | true =>
      rw [hlink, if_pos rfl] at hpeer
      obtain ⟨hme, hnone | hsome⟩ := h device hdevice hlink
      · exact .inr ⟨trivial, .inl (hpeer.trans hnone)⟩
      · exact .inl ⟨hme, hpeer.trans hsome⟩
  · rcases hpeer with hsome | hlost
    · exact .inl ⟨(h device hdevice hlink).1, hsome⟩
    · exact .inr ⟨trivial, hlost⟩

theorem encapsulation_ofCode (encapsulation : Encapsulation) :
    Encapsulation.ofCode encapsulation.code = some encapsulation := by
  cases encapsulation <;> rfl

theorem parseEnvelopeHeader_faithful {p : Delivery} {interface' : Interface} {daemon : τ}
    (hinit : overlayPacketInitHeader p.version p.encapsulation interface' e unicast index seq =
      some (p.header, p.start)) (hsender : e.sender = none) (hprevious : e.previous = none) :
    let agree := PeersAgree host interface p.start
    Triple (· = Rx.initial daemon interface) (parseEnvelopeHeader host p.bytes)
      (fun ret t => Faithful host agree p.items p.sent t ∧
        (ret = 0 → AtPayload host agree p [] p.sent t))
      (fun _ => Faithful host agree p.items p.sent) := by
  intro agree
  obtain ⟨hversion, hstart, hme, hdevice, hheader⟩ := overlayPacketInitHeader_parts hinit
  have hempty : ∀ t : Rx τ, t.parsed = [] → Faithful host agree p.items p.sent t := by
    intro t ht _ i p' q' hp'
    rw [ht] at hp'
    cases hp'
  have hbytes : p.bytes = [BitVec.ofNat 8 p.version] ++ ([p.encapsulation.code] ++
      (wire (overlayAddressAppend (e.atHeader p.version interface') e.mySubscriber).1 ++
        (wire (envelopeTail unicast index seq) ++
          wire (p.sent.flatMap (Sent.items p.encapsulation))))) := by
    simp [Delivery.bytes, Delivery.items, packetItems, hheader, wire_append]
  have hahead : Ahead p.bytes 0 p.bytes := prefix_rfl
  nth_rewrite 2 [hbytes] at hahead
  obtain ⟨hversionAt, hahead⟩ := ahead_append.mp hahead
  obtain ⟨hcodeAt, hahead⟩ := ahead_append.mp hahead
  obtain ⟨haddressAt, hahead⟩ := ahead_append.mp hahead
  obtain ⟨htailAt, -⟩ := ahead_append.mp hahead
  have hnat : (BitVec.ofNat 8 p.version).toNat = p.version := by
    rw [BitVec.toNat_ofNat]
    simp only [supportedPacketVersion] at hversion
    omega
  have hlink : agree → PeersAgree host interface (e.atHeader p.version interface') := by
    intro hpeers device h
    rw [← hdevice] at h
    have := hpeers device h
    rwa [hme] at this
  -- the address of the sender is understood where the ids resolve and the ends of the link agree
  let right : List Lookup → Prop := fun l => Resolved p.items l ∧ agree
  have hdown : Hereditary right := fun _ _ hsub h => ⟨hereditary_resolved p.items hsub h.1, h.2⟩
  have hnames : ∀ len,
      (e.atHeader p.version interface').addressCode e.mySubscriber = .explicit len →
      Names True right host (fun _ => True) e.mySubscriber len := by
    intro len hlen
    refine (names_resolved (mem_append_left _ ?_)).mono fun _ h => h.1
    rw [hheader]
    exact mem_append_left _ (mem_append_right _ (mem_overlayAddressAppend hlen))
  -- the version and the encapsulation are read
  refine Triple.bind_ok rfl (Triple.bind_ok (obGet_ahead hversionAt) ?_)
  dsimp only
  rw [hnat, if_neg hversion.not_gt]
  refine Triple.bind_ok (obGet_ahead hcodeAt) ?_
  dsimp only
  rw [encapsulation_ofCode]
  refine Triple.bind_ok rfl ?_
  rintro s rfl
  refine (Triple.bind ((readsBack_append hdown (keeps_anything host) hnames
    ⟨fun _ => trivial, fun h => ((peersAgree_matching (hlink (not_not.mp h).2) (.inl hsender.symm)
      (.inl rfl)).means (.refl _) _).reads id⟩ haddressAt Frame.zero
    none).weaken_abort ?_) fun read => ?_) _
    ⟨⟨rfl, rfl, trivial, rfl, rfl, rfl, rfl, rfl, rfl, nil_subset _, False.elim⟩,
      fun _ => ⟨rfl, .inl hprevious.symm⟩⟩
  · rintro - u ⟨-, hparsed, -⟩
    exact hempty u hparsed
  rintro u ⟨hu, sender, rfl, hunderstood⟩
  rw [run_modify_bind]
  obtain ⟨flags, seq', senderInterface, hflags⟩ := parseEnvelopeFlags_run (t := { u with
    context := { u.context with sender := sender } }) (hu.ahead htailAt)
  rw [run_bind_ok hflags]
  obtain ⟨ret, w, haccept, hposition, hparsed, hlookups, hwversion, hwencapsulation, hwsender,
    hwpeer⟩ := acceptSender_run host flags seq' _
  rw [haccept]
  have hnothing : w.parsed = [] := hparsed.trans hu.parsed_eq
  have hknown : agree →
      sender = some e.mySubscriber ∨ sender = none ∨ ¬ Resolved p.items w.lookups := by
    intro hagree
    by_cases hresolved : Resolved p.items w.lookups
    · rw [hlookups] at hresolved
      rcases hunderstood ⟨hresolved, hagree⟩ with ⟨-, -, h | h⟩ | ⟨-, h, -⟩
      · exact .inr (.inl h)
      · exact .inr (.inl h)
      · exact .inl h
    · exact .inr (.inr hresolved)
  have hrest : p.bytes.drop w.position = wire (p.sent.flatMap (Sent.items p.encapsulation)) := by
    rw [hposition, hu.position_eq, ← drop_drop, ← drop_drop, hbytes]
    exact (congrArg _ (drop_left ..)).trans (drop_left ..)
  have hle : w.position ≤ p.bytes.length := by
    rw [hposition, hu.position_eq, hbytes]
    simp only [length_append, length_singleton]
    omega
  refine ⟨hempty w hnothing, fun _ => ⟨hrest, hle, hwversion.trans hu.version_eq,
    hwencapsulation.trans hu.encapsulation_eq, fun hagree => peersAgree_matching hagree ?_ ?_,
    congrArg length hnothing, hempty w hnothing⟩⟩
  · rw [hwsender, hstart]
    exact hknown hagree
  rcases hwpeer with hwpeer | ⟨hlink, hwpeer⟩
  · exact .inl (hwpeer.trans hu.peer_eq)
  refine .inr ⟨(congrArg _ hu.interface_eq).symm.trans hlink, ?_⟩
  rw [hwpeer, hme]
  exact hknown hagree

/-- A packet that is put together at one end and parsed at the other. As far as its ids
resolve, a payload that is processed or forwarded has the addresses that the sender meant
if and only if its header is in step and its codes for the sender and for the ends of a link
agree, as they do if the two ends of the link take each other for its other end. -/
theorem packetOkOverlay_addresses {params : PacketParams} {me : Sid} {abbreviateLen : Sid → ℕ}
    {localEcho : Bool} {sendFull : Sid → Bool} {a₀ a : Assembly} {payloads : List Queued}
    {daemon : τ}
    (hinit : overlayInitPacket params (.new me abbreviateLen localEcho sendFull) = .ok (some a₀))
    (hstuff : overlayStuffPacket params a₀ payloads = .ok a) :
    Faithful host (PeersAgree host interface a₀.context)
      (packetItems params.encapsulation a.header a.sent) a.sent
      ((packetOkOverlay host a.buffer.bytes).run (.initial daemon interface)).2 := by
  obtain ⟨hheader, -, -⟩ := overlayInitPacket_assembled hinit
  obtain ⟨hassembled, hsingle⟩ := overlayStuffPacket_assembled hinit hstuff
  rcases hassembled.buffer with ⟨-, hbytes⟩ | ⟨-, hnone⟩
  · let p : Delivery := ⟨params.packetVersion, params.encapsulation, a₀.context, a₀.header, a.sent,
      hassembled.written, hsingle⟩
    have hwhole : Triple (· = Rx.initial daemon interface) (packetOkOverlay host p.bytes)
        (fun _ => Faithful host (PeersAgree host interface p.start) p.items p.sent)
        (fun _ => Faithful host (PeersAgree host interface p.start) p.items p.sent) := by
      refine bind (parseEnvelopeHeader_faithful (p := p) hheader rfl rfl) fun ret => ?_
      by_cases hret : ret ≠ 0
      · rw [if_pos hret]
        exact pure fun t ht => ht.1
      rw [if_neg hret]
      refine modify_bind (I := AtPayload host (PeersAgree host interface p.start) p [] p.sent) ?_ ?_
      · rintro t ⟨-, hat⟩
        have h := hat (not_not.mp hret)
        exact { h with }
      · refine bind (payloadLoop_faithful _ rfl) fun done => ?_
        exact bind answer_keepsParse.faithful fun _ => .skip
    have hfinal := hwhole.final rfl
    rwa [hbytes, hassembled.header_eq]
  · intro _ i p q _ hq
    rw [hnone] at hq
    cases hq

end Envelope

def announcementParams : PacketParams where
  packetVersion := 1
  encapsulation := .overlay
  interface := ⟨false, none⟩
  mtu := 1200
  unicast := false
  index := 0#8
  seq := none

/-- A packet from the first subscriber with announcements. -/
def announcements (sources : List Sid) : Option Assembly :=
  match overlayInitPacket announcementParams
      (.new (.uniform 0x1a) (fun _ => 1) false fun _ => false) with
  | .ok (some a₀) =>
    match overlayStuffPacket announcementParams a₀ (sources.map announcement) with
    | .ok a => some a
    | .error _ => none
  | _ => none

/-- What the second subscriber, which knows the first one, makes of such a packet. -/
def announced (sources : List Sid) : Option (Assembly × Rx (TreeNode × Unit)) :=
  (announcements sources).map fun a =>
    (a, ((packetOkOverlay (Host.idle (.uniform 0x2b)).withTrie a.buffer.bytes).run
      (.initial (pairRoot (.uniform 0x1a) (.uniform 0x2b), ()) ⟨false, none⟩)).2)

theorem announcements_eq {sources : List Sid} {a : Assembly} (h : announcements sources = some a) :
    ∃ a₀, overlayInitPacket announcementParams
        (.new (.uniform 0x1a) (fun _ => 1) false fun _ => false) = .ok (some a₀) ∧
      overlayStuffPacket announcementParams a₀ (sources.map announcement) = .ok a := by
  unfold announcements at h
  split at h
  · rename_i a₀ hinit
    refine ⟨a₀, hinit, ?_⟩
    split at h
    · rename_i hstuff
      cases h
      exact hstuff
    · cases h
  · cases h

theorem packetOkOverlay_addresses_known :
    ∃ a₀ a t, announced [.uniform 0x1a, .uniform 0x77] = some (a, t) ∧
      Faithful (Host.idle (.uniform 0x2b)).withTrie
        (PeersAgree (Host.idle (.uniform 0x2b)).withTrie ⟨false, none⟩ a₀)
        (packetItems .overlay a.header a.sent) a.sent t := by
  have hsome : (announcements [.uniform 0x1a, .uniform 0x77]).isSome := by decide +kernel
  obtain ⟨a, ha⟩ := Option.isSome_iff_exists.mp hsome
  obtain ⟨a₀, hinit, hstuff⟩ := announcements_eq ha
  exact ⟨_, a, _, by rw [announced, ha]; rfl, packetOkOverlay_addresses hinit hstuff⟩

/-- The third subscriber is not known, so its first announcement is dropped. The second
one refers to the previous address, which is taken for the sender of the packet. -/
theorem packetOkOverlay_addresses_stale :
    (announced [.uniform 0x77, .uniform 0x77]).map (fun (a, t) =>
      (decide (Resolved (packetItems .overlay a.header a.sent) t.lookups),
        (a.sent[1]?).map fun q => q.outgoing.source,
        (t.parsed[1]?).map fun p => (p.process, p.source))) =
      some (true, some (.uniform 0x77), some (true, some (.uniform 0x1a))) := by
  decide +kernel

end ServalMesh.Overlay
