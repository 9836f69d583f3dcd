import ServalMesh.Overlay.Daemon
import ServalMesh.Overlay.HeaderCodec

/-!
# Headers between daemons that know the same subscribers

If the sender and the receiver know the same subscribers, a header is read back as it
was written.
-/

namespace ServalMesh.Overlay

open Lib DigitTrie List

section RoundTrip

variable {ρ : Type} {rest : Host ρ} {root : TreeNode} {e : EncodeContext} {f : Outgoing} {s : Sid}
  {e₁ : EncodeContext} {len : ℕ}

/-- The daemon knows the same subscribers as this trie. -/
def KnowsSame (root : TreeNode) (d : TreeNode × ρ) : Prop :=
  TrieOk d.1 ∧ ∀ s, HasSid d.1 s ↔ HasSid root s

/-- The encoder takes its abbreviations from this trie. -/
def Abbreviates (root : TreeNode) (e : EncodeContext) : Prop :=
  ∀ path k, At (.node root) path k → ∀ s : Sid, s.bytes = k.sid →
    e.abbreviateLen s = k.abbreviateLen

theorem keeps_knowsSame (rest : Host ρ) (root : TreeNode) :
    rest.withTrie.Keeps (KnowsSame root) :=
  ⟨fun _ _ h => h, fun _ _ h => h, fun _ _ h => h, fun _ _ h => h, fun _ _ _ h => h⟩

theorem toSid_eq {k : Known} (h : k.sid = s.bytes) : k.toSid = some s := by
  unfold Known.toSid
  cases s
  simp_all

/-- A prefix that only one known subscriber has names this subscriber. -/
theorem names_of_unique (hlen : 1 ≤ len) (hsize : len ≤ sidSize) (hknown : HasSid root s.bytes)
    (hunique : ∀ s', HasSid root s' → s.bytes.take len <+: s' → s' = s.bytes) :
    Names False (fun _ => True) rest.withTrie (KnowsSame root) s len := by
  rintro ⟨root', d⟩ ⟨hok, hsids⟩
  have hid : (s.bytes.take len).length = len := by
    rw [length_take, s.size]
    omega
  by_cases hfull : len = sidSize
  · have htake : s.bytes.take len = s.bytes := take_of_length_le (by rw [s.size, hfull])
    rw [htake]
    have hins := findSubscriber_create hok s.size
    obtain ⟨k, hk, hksid⟩ := hins.found
    refine ⟨⟨hins.ok, fun s' => ?_⟩, .inl ?_⟩
    · rw [Host.withTrie, hins.sids, hsids]
      exact or_iff_right_of_imp fun h => h ▸ hknown
    · simp only [Host.withTrie, hk, Option.bind_some]
      exact toSid_eq hksid
  · have hlook : Overlay.findSubscriber root' (s.bytes.take len) true =
        Overlay.findSubscriber root' (s.bytes.take len) false := by
      simp [Overlay.findSubscriber, hid, hfull]
    obtain ⟨hsame, hfound⟩ := findSubscriber_lookup hok (hlen.trans_eq hid.symm)
      (hid.trans_le hsize)
    obtain ⟨path, k, hk, hksid⟩ := (hsids s.bytes).mpr hknown
    have hres : Resolves (s.bytes.take len) (.node root') k := by
      refine ⟨⟨path, hk⟩, by rw [hksid]; exact take_prefix _ _, fun s' hs' hpre => ?_⟩
      rw [hksid]
      exact hunique s' ((hsids s').mp hs') hpre
    simp only [Host.withTrie, hlook, hsame, (hfound k).mpr hres, Option.bind_some]
    exact ⟨⟨hok, hsids⟩, .inl (toSid_eq hksid)⟩

theorem names_known (hok : TrieOk root) (habbr : Abbreviates root e) (hknown : HasSid root s.bytes)
    (hcode : e.addressCode s = .explicit len) :
    Names False (fun _ => True) rest.withTrie (KnowsSame root) s len := by
  have hbounds := addressCode_cases e s
  rw [hcode] at hbounds
  refine names_of_unique hbounds.1 hbounds.2 hknown ?_
  obtain ⟨path, k, hk, hksid⟩ := hknown
  have hentry : Known.mk s.bytes (e.abbreviateLen s) = k := by
    rw [habbr path k hk s hksid.symm, ← hksid]
  unfold EncodeContext.addressCode at hcode
  split_ifs at hcode
  · -- a whole id
    cases hcode
    rintro s' ⟨path', k', hk', rfl⟩ hpre
    rw [take_of_length_le s.size.le] at hpre
    exact (hpre.eq_of_length (by rw [s.size, (at_trie hok hk').1])).symm
  · cases hcode
    rw [hentry, ← hksid]
    exact (resolves_address hok hk e.encodingHeader).2.2

/-- The header has the addresses and the broadcast id that its flags ask for. -/
structure Outgoing.Complete (f : Outgoing) : Prop where
  ttl : f.ttl ≤ payloadTtlMax
  broadcast : f.destination = none → f.oneHop = false → f.broadcast ≠ none
  nextHop : f.destination ≠ none → f.oneHop = false → f.nextHop ≠ none

/-- A complete header is built. -/
theorem overlayFrameBuildHeader_complete (hf : f.Complete) (packetVersion : ℕ) (e : EncodeContext) :
    ∃ items e', overlayFrameBuildHeader packetVersion e f = .ok (some items, e') := by
  obtain ⟨source, e₁, hsource⟩ : ∃ items e', appendSource e f = .ok (items, e') := by
    unfold appendSource
    split <;> exact ⟨_, _, rfl⟩
  obtain ⟨destination, e₂, hdestination⟩ :
      ∃ items e', appendDestination e₁ f = .ok (items, e') := by
    unfold appendDestination
    rcases hd : f.destination with _ | d <;> cases hop : f.oneHop
    · obtain ⟨b, hb⟩ := Option.ne_none_iff_exists'.mp (hf.broadcast hd hop)
      simp only [hb]
      exact ⟨_, _, rfl⟩
    · exact ⟨_, _, rfl⟩
    · obtain ⟨n, hn⟩ := Option.ne_none_iff_exists'.mp (hf.nextHop (by simp [hd]) hop)
      simp only [hn]
      exact ⟨_, _, rfl⟩
    · exact ⟨_, _, rfl⟩
  have httl : ¬ payloadTtlMax < f.ttl := Nat.not_lt.mpr hf.ttl
  refine ⟨[.bytes [f.flags e]] ++ source ++ destination ++ trailer packetVersion f, e₂, ?_⟩
  simp only [overlayFrameBuildHeader, httl, if_false, hsource, Bind.bind, Except.bind, hdestination]

/-- The context of the decoder when it reads a payload that the encoder writes in `e`. -/
structure ContextsMatch {τ : Type} (host : Host τ) (e : EncodeContext) (packetVersion : ℕ)
    (c : DecodeContext) : Prop where
  sender : c.sender = e.sender
  previous : c.previous = e.previous
  peer : ∀ device, e.pointToPointDevice = some device →
    device = host.mySubscriber ∧ c.pointToPointDevice = some e.mySubscriber
  version : c.packetVersion = packetVersion
  valid : c.invalidAddresses = false

/-- What a receiver has to find out about a payload. -/
structure SameHeader {τ : Type} (e : EncodeContext) (f : Outgoing) (packetVersion : ℕ)
    (header : Header) (t : Rx τ) : Prop where
  source : t.frame.source = some f.source
  destination : t.frame.destination = f.destination
  type : t.frame.type = f.type % 256
  ciphered : t.frame.modifiers.getLsbD payloadFlagCiphered = f.modifiers.testBit payloadFlagCiphered
  signed : t.frame.modifiers.getLsbD payloadFlagSigned = f.modifiers.testBit payloadFlagSigned
  sequence : 1 ≤ packetVersion → header.sequence = some (BitVec.ofNat 8 f.sequence)
  further : (f.flags e).getLsbD payloadFlagOneHop = false →
    (f.destination = none → some t.frame.broadcastId = f.broadcast.map Broadcast.id) ∧
      (f.destination ≠ none → header.nexthop = f.nextHop) ∧
      t.frame.queue = f.queue &&& 3 ∧ t.frame.ttl = f.ttl - 1
  oneHop : (f.flags e).getLsbD payloadFlagOneHop = true →
    t.frame.ttl = 0 ∧ header.verdict.forward = false

theorem sameHeader_of_read {τ : Type} {packetVersion : ℕ} {frame : Frame} {header : Header}
    {t : Rx τ}
    (hf : f.Complete) (h : HeaderRead False (fun _ => True) e f packetVersion frame header t) :
    SameHeader e f packetVersion header t := by
  obtain ⟨-, -, hhop, hciphered, hsigned, -⟩ := flags_bits f e
  obtain ⟨httl, hqueue, htype, hmodifiers⟩ := h.trailer
  rcases h.addresses trivial with hlost | ⟨-, hsource, hdestination, hnexthop, hbroadcast⟩
  · exact hlost.1.elim
  refine ⟨hsource, hdestination, htype, ?_, ?_, ?_, ?_, ?_⟩
  · rw [hmodifiers, hciphered]
  · rw [hmodifiers, hsigned]
  · intro hversion
    rw [h.sequence, if_pos hversion]
  · intro hop
    rw [hhop] at hop
    refine ⟨fun hnone => ?_, fun hsome => ?_, ?_, ?_⟩
    · obtain ⟨b, hb⟩ := Option.ne_none_iff_exists'.mp (hf.broadcast hnone hop)
      rw [hbroadcast, Outgoing.writtenBroadcast, if_pos ⟨hnone, hop⟩, hb]
      rfl
    · rw [hnexthop, Outgoing.writtenNextHop, if_neg (by simp [hsome, hop])]
    · rw [hqueue, hop]
      rfl
    · rw [httl, hop]
      rfl
  · intro hop
    rw [hhop] at hop
    exact ⟨by rw [httl, hop]; rfl, h.oneHop hop⟩

/-- Parsing a header that was built consumes just its bytes and finds out the same, but
for the type, of which only one byte is sent. -/
theorem parseMdpPacketHeader_build {packetVersion : ℕ} {s : Rx (TreeNode × ρ)} (hf : f.Complete)
    (hok : TrieOk root) (habbr : Abbreviates root e)
    (hknown : ∀ x, f.Mentions x → HasSid root x.bytes) (hsame : KnowsSame root s.daemon)
    (hmatch : ContextsMatch rest.withTrie e packetVersion s.context) :
    ∃ items e', overlayFrameBuildHeader packetVersion e f = .ok (some items, e') ∧
      ∀ packet, Ahead packet s.position (wire items) →
        ∃ header t, (parseMdpPacketHeader rest.withTrie packet).run s = (.ok (some header), t) ∧
          t.position = s.position + (wire items).length ∧
          SameHeader e f packetVersion header t := by
  obtain ⟨items, e', hbuild⟩ := overlayFrameBuildHeader_complete hf packetVersion e
  have hwrites := overlayFrameBuildHeader_writes hbuild
  refine ⟨items, e', hbuild, fun packet hahead => ?_⟩
  have hnames : ∀ x len, .address x (.explicit len) ∈ items →
      Names False (fun _ => True) rest.withTrie (KnowsSame root) x len := by
    intro x len hx
    obtain ⟨hmention, e₁, hextends, hcode⟩ := hwrites x _ hx
    have habbr₁ : Abbreviates root e₁ := fun path k hk x hx =>
      hextends.abbreviateLen_eq ▸ habbr path k hk x hx
    exact names_known hok habbr₁ (hknown x hmention) hcode
  have hpeers : Matching False (¬ True) rest.withTrie e s.context :=
    ⟨.inl hmatch.sender, fun device hdevice => .inl (hmatch.peer device hdevice)⟩
  have hmeans : EachAddress (Means False (¬ True) rest.withTrie s.context) items := by
    intro x code hx
    obtain ⟨-, e₁, hextends, rfl⟩ := hwrites x code hx
    exact hpeers.means hextends x
  have hread : Reading (KnowsSame root) False [] s s.position s.frame s :=
    ⟨rfl, rfl, hsame, rfl, rfl, rfl, rfl, rfl, rfl, nil_subset _, False.elim⟩
  have hfollows : True → FollowsHeader False e f s.context :=
    fun _ x _ => ⟨hmatch.valid, .inl hmatch.previous⟩
  have hself : f.senderSame e = true →
      Means False (¬ True) rest.withTrie s.context f.source .self :=
    fun h => hpeers.means_self (by simpa [Outgoing.senderSame] using h)
  have hrun := parseMdpPacketHeader_reading (fun _ _ _ _ => trivial)
    (keeps_knowsSame rest root) hnames
    hmeans hmatch.version hself hbuild hahead s ⟨hread, rfl, hmatch.valid, hfollows⟩
  rcases hr : (parseMdpPacketHeader rest.withTrie packet).run s with ⟨_ | result, t⟩ <;>
    rw [hr] at hrun
  · exact hrun.1.elim
  · obtain ⟨header, rfl, ⟨frame', ht⟩, -, -, hheader⟩ := hrun
    exact ⟨header, t, rfl, ht.position_eq, sameHeader_of_read hf hheader⟩

end RoundTrip

/-- The abbreviation that this trie asks for. -/
def abbreviateLenIn (root : TreeNode) (s : Sid) : ℕ :=
  ((findSubscriber root s.bytes false).2.map Known.abbreviateLen).getD 0

theorem abbreviates_abbreviateLenIn {root : TreeNode} {e : EncodeContext} (hok : TrieOk root)
    (h : e.abbreviateLen = abbreviateLenIn root) : Abbreviates root e := by
  intro path k hk s hs
  have hfound := (findSubscriber_lookup hok (by rw [s.size]; decide) s.size.le).2 k
  have hres : Resolves s.bytes (.node root) k := by
    refine ⟨⟨path, hk⟩, by rw [hs], ?_⟩
    rintro s' ⟨path', k', hk', rfl⟩ hpre
    exact hs ▸ (hpre.eq_of_length (by rw [s.size, (at_trie hok hk').1])).symm
  rw [h, abbreviateLenIn, hfound.mpr hres]
  rfl

/-- The context of a sender after the header of a packet. -/
def EncodeContext.started (me : Sid) (abbreviateLen : Sid → ℕ) : EncodeContext where
  mySubscriber := me
  abbreviateLen := abbreviateLen
  localEcho := false
  encodingHeader := false
  pointToPointDevice := none
  sender := some me
  previous := some me
  sendFull := fun _ => false

/-- A receiver at the start of a payload. -/
def Rx.started {τ : Type} (daemon : τ) (packetVersion : ℕ) (sender : Sid) : Rx τ where
  daemon := daemon
  position := 0
  interface := ⟨false, none⟩
  context := ⟨0, packetVersion, .overlay, false, none, some sender, some sender, none⟩
  frame := Frame.zero
  lookups := []
  parsed := []

/-- A payload for the second subscriber by way of the first. -/
def routedPayload (type : ℕ) : Outgoing where
  queue := 3
  type := type
  modifiers := 0x30
  willRetransmit := false
  ttl := 7
  sequence := 258
  broadcast := none
  nextHop := some (.uniform 0x1a)
  destination := some (.uniform 0x1b)
  source := .uniform 0x1b

def sampleRoot : TreeNode := pairRoot (.uniform 0x1a) (.uniform 0x1b)

def sampleSender : EncodeContext := .started (.uniform 0x1a) (abbreviateLenIn sampleRoot)

def sampleReceiver : Rx (TreeNode × Unit) := .started (sampleRoot, ()) 1 (.uniform 0x1a)

theorem parseMdpPacketHeader_build_routed :
    ∃ items e', overlayFrameBuildHeader 1 sampleSender (routedPayload 0x30) =
        .ok (some items, e') ∧
      ∀ packet, Ahead packet 0 (wire items) →
        ∃ header t, (parseMdpPacketHeader (Host.idle (.uniform 0x1b)).withTrie packet).run
            sampleReceiver = (.ok (some header), t) ∧
          t.position = 0 + (wire items).length ∧
          SameHeader sampleSender (routedPayload 0x30) 1 header t := by
  obtain ⟨hok, hsids⟩ := pairRoot_ok (.uniform 0x1a) (.uniform 0x1b)
  have hcomplete : (routedPayload 0x30).Complete := ⟨by decide, by decide, by decide⟩
  have hmatch : ContextsMatch (Host.idle (.uniform 0x1b)).withTrie sampleSender 1
      sampleReceiver.context := ⟨rfl, rfl, fun _ h => (by cases h), rfl, rfl⟩
  have hknown : ∀ x, (routedPayload 0x30).Mentions x → HasSid sampleRoot x.bytes := by
    rintro x (rfl | h | h)
    · exact (hsids _).mpr (.inl rfl)
    · cases h
      exact (hsids _).mpr (.inl rfl)
    · cases h
      exact (hsids _).mpr (.inr rfl)
  have hsame : KnowsSame sampleRoot sampleReceiver.daemon := ⟨hok, fun _ => Iff.rfl⟩
  exact parseMdpPacketHeader_build hcomplete hok (abbreviates_abbreviateLenIn hok rfl) hknown
    hsame hmatch

/-- The frame that the receiver makes of a header. -/
def readBack {τ : Type} (host : Host τ) (packetVersion : ℕ) (e : EncodeContext) (f : Outgoing)
    (s : Rx τ) : Option Frame :=
  match overlayFrameBuildHeader packetVersion e f with
  | .ok (some items, _) =>
    match (parseMdpPacketHeader host (wire items)).run s with
    | (.ok (some _), t) => some t.frame
    | _ => none
  | _ => none

/-- A type of more than one byte is not read back: 256 becomes 0. -/
theorem parseMdpPacketHeader_build_type :
    (routedPayload 256).type = 256 ∧
      (readBack (Host.idle (.uniform 0x1b)).withTrie 1 sampleSender (routedPayload 256)
        sampleReceiver).map Frame.type = some 0 := by
  decide +kernel

end ServalMesh.Overlay
