import ServalMesh.Keyring.Contexts

/-!
# Locking and unlocking identities

An identity that is released must be gone, and entering its pin again must bring it back. But the
cache of shared keys is never emptied, the last identity of a context takes the keyring pin with it,
and a pin is not entered again while another identity with that pin is loaded.
-/

namespace ServalMesh.Keyring

open Lib Overlay List Option KeyringState

/-- The keyring file and the primitive that computes shared keys. -/
structure KeyringEnv where
  slots : List StoredSlot
  beforenm : Sid → List Byte → List Byte

section Runs

/-- The calls that change the keyring. -/
inductive KeyringEvent where
  | enterKeyringpin (pin : Pin)
  | enterPin (pin : Pin)
  | releaseIdentity (cn i : ℕ)
  | releaseSubscriber (sid : Sid)
  | getNmBytes (known unknown : Sid) (random : ℕ)

variable (env : KeyringEnv) (st : KeyringState)

def keyringStep : KeyringEvent → Except Abort KeyringState
  | .enterKeyringpin pin => .ok (keyringEnterKeyringpin st pin).1
  | .enterPin pin => .ok (keyringEnterPin st env.slots pin).1
  | .releaseIdentity cn i => keyringReleaseIdentity st cn i
  | .releaseSubscriber sid => keyringReleaseSubscriber st sid
  | .getNmBytes known unknown random =>
    .ok (keyringGetNmBytes st env.beforenm known unknown random).1

/-- `keyring_open` has made the first context, and other nodes may be reachable. -/
structure Opened : Prop where
  contexts : st.contexts = [⟨[], []⟩]
  identity : ∀ sid, st.identity sid = none
  reachable : ∀ sid, st.reachable sid ≠ .self
  nmCache : st.nmCache = []

/-- The states that runs of allowed calls reach, with the slots whose identities were loaded. -/
inductive KeyringReached (allowed : KeyringState → KeyringEvent → Prop) :
    KeyringState → (StoredSlot → Prop) → Prop
  | start {st : KeyringState} (h : Opened st) : KeyringReached allowed st fun _ => False
  | step {st st' : KeyringState} {past : StoredSlot → Prop} {event : KeyringEvent}
      (h : KeyringReached allowed st past) (ok : allowed st event)
      (next : keyringStep env st event = .ok st') :
      KeyringReached allowed st' fun slot => past slot ∨ slot ∈ env.slots ∧ st'.Holds slot

/-- The shared key of a pair is that of a loaded identity, and there is none otherwise. -/
structure NmFaithful (known unknown : Sid) (nmBytes : Option (List Byte)) : Prop where
  known_iff : nmBytes ≠ none ↔ st.Loaded known
  key : ∀ bytes, nmBytes = some bytes →
    ∃ box ∈ st.boxes, box.publicKey = known ∧ bytes = env.beforenm unknown box.privateKey

/-- Identities that are locked are gone and can be unlocked again. -/
structure LocksAndRestores (past : StoredSlot → Prop) : Prop where
  nmBytes : ∀ known unknown random, NmFaithful env st known unknown
    (keyringGetNmBytes st env.beforenm known unknown random).2
  identity : ∀ sid, (st.identity sid).isSome ↔ st.Loaded sid
  restored : ∀ slot, past slot → (keyringEnterPin st env.slots slot.entryPin).1.Holds slot

/-- An identity may be released: it is not the last one in its context, its subscriber is local, no
shared key of it is cached, and no other one has its entry pin or its SID. -/
structure Releasable (cn i : ℕ) (c : Context) (id : LoadedIdentity) : Prop where
  context : c.identities.length ≠ 1
  reachable : st.reachable id.subscriber = .self
  uncached : ∀ r ∈ st.nmCache, r.knownKey ≠ id.subscriber
  pin : ∀ other ∈ others st.contexts cn i, other.pkrPin ≠ id.pkrPin
  sid : ∀ other ∈ others st.contexts cn i, other.subscriber ≠ id.subscriber

/-- Only identities that are releasable are released. -/
def Considerate : KeyringEvent → Prop
  | .releaseIdentity cn i => ∀ c id, st.contexts[cn]? = some c → c.identities[i]? = some id →
      Releasable st cn i c id
  | .releaseSubscriber sid => ∀ cn i box c id, keyringFindSid st sid = some ((cn, i), box) →
      st.contexts[cn]? = some c → c.identities[i]? = some id →
      st.mySubscriber ≠ some id.subscriber →
      Releasable st cn i c id
  | _ => True

end Runs

section Entering

variable {slots : List StoredSlot} {pin : Pin} {st st' st'' : KeyringState} {slot : StoredSlot}
  {cn : ℕ}

/-- Every pointer to an identity belongs to a loaded one. -/
def Pointed (st : KeyringState) : Prop := ∀ sid, (st.identity sid).isSome ↔ st.Loaded sid

/-- Entering a pin only adds identities of slots with that pin. -/
structure Grows (slots : List StoredSlot) (pin : Pin) (st st' : KeyringState) : Prop where
  pins : st'.contexts.map Context.keyRingPin = st.contexts.map Context.keyRingPin
  nmCache : st'.nmCache = st.nmCache
  holds : ∀ slot, st.Holds slot → st'.Holds slot
  kept : ∀ id ∈ st.identities, id ∈ st'.identities
  added : ∀ id ∈ st'.identities, id ∈ st.identities ∨
    ∃ slot ∈ slots, slot.entryPin = pin ∧ slot.identity = id
  pointed : (∀ slot ∈ slots, slot.moreBoxes = []) → Pointed st → Pointed st'

theorem Grows.refl : Grows slots pin st st where
  pins := rfl
  nmCache := rfl
  holds _ h := h
  kept _ h := h
  added _ h := .inl h
  pointed _ h := h

theorem Grows.trans (h : Grows slots pin st st') (h' : Grows slots pin st' st'') :
    Grows slots pin st st'' where
  pins := h'.pins.trans h.pins
  nmCache := h'.nmCache.trans h.nmCache
  holds slot held := h'.holds slot (h.holds slot held)
  kept id old := h'.kept id (h.kept id old)
  added id new := (h'.added id new).elim (h.added id) .inr
  pointed single before := h'.pointed single (h.pointed single before)

theorem addSubscriber_fields (st : KeyringState) (id : LoadedIdentity) :
    (addSubscriber st id).contexts = st.contexts ∧ (addSubscriber st id).nmCache = st.nmCache ∧
      (addSubscriber st id).identity =
        Function.update st.identity id.subscriber (some id.slot) := by
  unfold addSubscriber
  dsimp only
  split <;> exact ⟨rfl, rfl, rfl⟩

theorem holds_set {contexts : List Context} {c c' : Context} (hc : contexts[cn]? = some c)
    (pin : c'.keyRingPin = c.keyRingPin)
    (more : slot.identity ∈ c.identities → slot.identity ∈ c'.identities)
    (held : ∃ c ∈ contexts, c.keyRingPin = slot.keyringPin ∧ slot.identity ∈ c.identities) :
    ∃ c ∈ contexts.set cn c', c.keyRingPin = slot.keyringPin ∧ slot.identity ∈ c.identities := by
  obtain ⟨c₀, mem, same, loaded⟩ := held
  obtain ⟨k, hk⟩ := mem_iff_getElem?.1 mem
  by_cases here : cn = k
  · subst here
    cases hc.symm.trans hk
    obtain ⟨bound, _⟩ := List.getElem?_eq_some_iff.1 hc
    exact ⟨c', List.mem_set bound c', pin.trans same, more loaded⟩
  · refine ⟨c₀, List.mem_iff_getElem?.2 ⟨k, ?_⟩, same, loaded⟩
    rw [getElem?_set_ne here, hk]

theorem loaded_iff_of_perm {sid : Sid} {id : LoadedIdentity} {rest : List LoadedIdentity}
    (single : id.moreBoxes = []) (perm : st.identities.Perm (id :: rest)) :
    st.Loaded sid ↔ sid = id.subscriber ∨
      sid ∈ (rest.flatMap LoadedIdentity.boxes).map Box.publicKey := by
  unfold KeyringState.Loaded KeyringState.boxes
  rw [((perm.flatMap_right LoadedIdentity.boxes).map Box.publicKey).mem_iff]
  simp [LoadedIdentity.boxes, LoadedIdentity.subscriber, single]

theorem pointed_of_perm (single : slot.moreBoxes = [])
    (perm : st'.identities.Perm (slot.identity :: st.identities))
    (identity : st'.identity = Function.update st.identity slot.identity.subscriber
      (some slot.identity.slot)) (before : Pointed st) : Pointed st' := by
  intro sid
  rw [loaded_iff_of_perm single perm, identity]
  by_cases same : sid = slot.identity.subscriber
  · subst same
    simp
  · rw [Function.update_of_ne same, before sid]
    exact (or_iff_right same).symm

/-- What decrypting a slot does. -/
theorem keyringDecryptPkr_grows (hslot : slot ∈ slots) (cn : ℕ) :
    Grows slots pin st (keyringDecryptPkr st cn pin slot).1 := by
  unfold keyringDecryptPkr
  cases hc : st.contexts[cn]? with
  | none => exact .refl
  | some c =>
    dsimp only
    by_cases right : c.keyRingPin = slot.keyringPin ∧ pin = slot.entryPin
    · rw [if_pos right]
      obtain ⟨rest, before, after, _⟩ :=
        flatMap_set_perm hc { c with identities := c.identities ++ [slot.identity] }
      obtain ⟨contexts, nmCache, identity⟩ := addSubscriber_fields st slot.identity
      have hpin : (st.contexts.map Context.keyRingPin)[cn]? = some c.keyRingPin := by
        rw [getElem?_map, hc]
        rfl
      have perm : ((st.contexts.set cn
          { c with identities := c.identities ++ [slot.identity] }).flatMap
            Context.identities).Perm (slot.identity :: st.identities) := by
        refine after.trans (List.Perm.trans ?_ (before.symm.cons slot.identity))
        exact (perm_append_singleton _ _).append_right rest
      refine ⟨?_, nmCache, ?_, ?_, ?_, ?_⟩
      · rw [contexts, map_set]
        exact set_of_getElem? hpin
      · intro old held
        rw [contexts]
        exact holds_set hc rfl (mem_append_left _) held
      · intro id old
        rw [contexts]
        exact perm.mem_iff.2 (mem_cons_of_mem _ old)
      · intro id new
        rw [contexts] at new
        rcases mem_cons.1 (perm.mem_iff.1 new) with rfl | old
        · exact .inr ⟨slot, hslot, right.2.symm, rfl⟩
        · exact .inl old
      · intro single pointed
        refine pointed_of_perm (single slot hslot) ?_ identity pointed
        rwa [contexts]
    · rw [if_neg right]
      exact .refl

theorem holds_keyringDecryptPkr {c : Context} (hc : st.contexts[cn]? = some c)
    (right : c.keyRingPin = slot.keyringPin) :
    (keyringDecryptPkr st cn slot.entryPin slot).1.Holds slot := by
  unfold keyringDecryptPkr
  rw [hc]
  dsimp only
  obtain ⟨bound, _⟩ := List.getElem?_eq_some_iff.1 hc
  rw [if_pos ⟨right, rfl⟩, (addSubscriber_fields ..).1]
  exact ⟨_, mem_set bound _, right, mem_append_right _ (mem_singleton_self _)⟩

/-- The loop over some contexts. -/
theorem decryptLoop_grows (pin : Pin) (hslot : slot ∈ slots) (cns : List ℕ)
    (acc : KeyringState × ℕ) :
    Grows slots pin acc.1 (cns.foldl (fun (acc : KeyringState × ℕ) cn =>
      let result := keyringDecryptPkr acc.1 cn pin slot
      (result.1, if result.2 then acc.2 + 1 else acc.2)) acc).1 := by
  induction cns generalizing acc with
  | nil => exact .refl
  | cons cn cns ih => exact (keyringDecryptPkr_grows hslot cn).trans (ih (_, _))

theorem decryptSlot_grows (hslot : slot ∈ slots) :
    Grows slots pin st (decryptSlot st pin slot).1 :=
  decryptLoop_grows pin hslot _ (st, 0)

theorem holds_decryptSlot (open_ : st.Open slot.keyringPin) :
    (decryptSlot st slot.entryPin slot).1.Holds slot := by
  obtain ⟨c, mem, right⟩ := mem_map.1 open_
  obtain ⟨cn, hc⟩ := List.mem_iff_getElem?.1 mem
  obtain ⟨bound, _⟩ := List.getElem?_eq_some_iff.1 hc
  obtain ⟨before, after, split⟩ := List.mem_iff_append.1 (List.mem_range.2 bound)
  unfold decryptSlot
  rw [split, foldl_append, foldl_cons]
  have start := decryptLoop_grows slot.entryPin (mem_singleton_self slot) before (st, 0)
  have rest := decryptLoop_grows slot.entryPin (mem_singleton_self slot) after
  refine (rest _).holds slot ?_
  have pins := congrArg (fun pins => pins[cn]?) start.pins
  simp only [getElem?_map, hc, map_some] at pins
  obtain ⟨c', hc', same⟩ := map_eq_some_iff.1 pins
  exact holds_keyringDecryptPkr hc' (same.trans right)

theorem enterLoop_grows (pin : Pin) {rest : List StoredSlot} (sub : rest ⊆ slots)
    (acc : KeyringState × ℕ) :
    Grows slots pin acc.1 (rest.foldl (fun (acc : KeyringState × ℕ) slot =>
      let result := decryptSlot acc.1 pin slot
      (result.1, acc.2 + result.2)) acc).1 := by
  induction rest generalizing acc with
  | nil => exact .refl
  | cons slot rest ih =>
    rw [cons_subset] at sub
    exact (decryptSlot_grows sub.1).trans (ih sub.2 (_, acc.2 + (decryptSlot acc.1 pin slot).2))

theorem keyringEnterPin_grows (st : KeyringState) (slots : List StoredSlot) (pin : Pin) :
    Grows slots pin st (keyringEnterPin st slots pin).1 := by
  unfold keyringEnterPin
  split
  · exact .refl
  · exact enterLoop_grows pin (List.Subset.refl slots) (st, 0)

theorem Grows.open_iff (h : Grows slots pin st st') (p : Pin) : st'.Open p ↔ st.Open p := by
  unfold Open
  rw [h.pins]

theorem KeyringState.Holds.open (h : st.Holds slot) : st.Open slot.keyringPin := by
  obtain ⟨c, mem, same, _⟩ := h
  exact mem_map.2 ⟨c, mem, same⟩

/-- Entering a pin loads the identity of a slot exactly if its keyring pin has been entered, and no
identity with that pin is loaded. -/
theorem holds_keyringEnterPin_iff (hslot : slot ∈ slots) :
    (keyringEnterPin st slots slot.entryPin).1.Holds slot ↔
      st.Holds slot ∨ st.Open slot.keyringPin ∧ ¬st.Entered slot.entryPin := by
  have grows := keyringEnterPin_grows st slots slot.entryPin
  by_cases entered : st.Entered slot.entryPin
  · have same : (keyringEnterPin st slots slot.entryPin).1 = st := by
      unfold keyringEnterPin
      rw [if_pos entered]
    rw [same]
    exact (or_iff_left fun h => h.2 entered).symm
  constructor
  · intro held
    exact .inr ⟨(grows.open_iff _).1 held.open, entered⟩
  rintro (held | ⟨isOpen, _⟩)
  · exact grows.holds slot held
  obtain ⟨before, after, split⟩ := mem_iff_append.1 hslot
  unfold keyringEnterPin
  rw [if_neg entered]
  have start := enterLoop_grows slot.entryPin (List.Subset.refl before) (st, 0)
  have rest := enterLoop_grows slot.entryPin (List.Subset.refl after)
  rw [split, foldl_append, foldl_cons]
  refine (rest _).holds slot ?_
  exact holds_decryptSlot ((start.open_iff _).2 isOpen)

end Entering

section Steps

variable {env : KeyringEnv} {st st' : KeyringState} {past : StoredSlot → Prop} {sid : Sid}
  {cn i : ℕ} {box : Box}

/-- What considerate runs keep. A slot whose identity is not loaded any more can be entered. -/
structure Sound (env : KeyringEnv) (st : KeyringState) (past : StoredSlot → Prop) : Prop where
  single : ∀ id ∈ st.identities, id.moreBoxes = []
  cache : ∀ r ∈ st.nmCache, ∃ box ∈ st.boxes, box.publicKey = r.knownKey ∧
    r.nmBytes = env.beforenm r.unknownKey box.privateKey
  pointed : Pointed st
  stored : ∀ slot, past slot → slot ∈ env.slots
  past : ∀ slot, past slot →
    st.Holds slot ∨ st.Open slot.keyringPin ∧ ¬st.Entered slot.entryPin

theorem KeyringState.mem_boxes : box ∈ st.boxes ↔ ∃ id ∈ st.identities, box ∈ id.boxes :=
  mem_flatMap

theorem KeyringState.loaded_iff : st.Loaded sid ↔ ∃ box ∈ st.boxes, box.publicKey = sid := mem_map

theorem keyringFindSid_some {place : ℕ × ℕ} (h : keyringFindSid st sid = some (place, box)) :
    box ∈ st.boxes ∧ box.publicKey = sid := by
  obtain ⟨⟨c, cn⟩, hc, h⟩ := exists_of_findSome?_eq_some h
  obtain ⟨⟨id, i⟩, hid, h⟩ := exists_of_findSome?_eq_some h
  obtain ⟨found, hfound, same⟩ := map_eq_some_iff.1 h
  cases same
  have key := find?_some hfound
  refine ⟨?_, of_decide_eq_true key⟩
  refine mem_boxes.2 ⟨id, ?_, mem_of_find?_eq_some hfound⟩
  exact mem_flatMap.2 ⟨c, (mem_zipIdx' hc).2 ▸ getElem_mem _,
    (mem_zipIdx' hid).2 ▸ getElem_mem _⟩

theorem keyringFindSid_none (h : keyringFindSid st sid = none) : ¬st.Loaded sid := by
  intro loaded
  obtain ⟨box, hbox, key⟩ := loaded_iff.1 loaded
  obtain ⟨id, hid, mem⟩ := mem_boxes.1 hbox
  obtain ⟨c, hc, hid⟩ := mem_flatMap.1 hid
  obtain ⟨cn, hcn⟩ := mem_iff_getElem?.1 hc
  obtain ⟨i, hi⟩ := mem_iff_getElem?.1 hid
  have inner := findSome?_eq_none_iff.1 h (c, cn) (mk_mem_zipIdx_iff_getElem?.2 hcn)
  have found := findSome?_eq_none_iff.1 inner (id, i)
    (mk_mem_zipIdx_iff_getElem?.2 hi)
  rw [map_eq_none_iff, find?_eq_none] at found
  exact found box mem (decide_eq_true key)

theorem Sound.nmFaithful (h : Sound env st past) (known unknown : Sid) (random : ℕ) :
    NmFaithful env st known unknown
      (keyringGetNmBytes st env.beforenm known unknown random).2 := by
  unfold keyringGetNmBytes
  cases hcache : st.nmCache.find? fun r => r.knownKey = known ∧ r.unknownKey = unknown with
  | some r =>
    have right := find?_some hcache
    obtain ⟨rfl, rfl⟩ := of_decide_eq_true right
    obtain ⟨box, hbox, key, value⟩ := h.cache r (mem_of_find?_eq_some hcache)
    refine ⟨iff_of_true (some_ne_none _) (loaded_iff.2 ⟨box, hbox, key⟩), ?_⟩
    rintro bytes ⟨⟩
    exact ⟨box, hbox, key, value⟩
  | none =>
    cases hfind : keyringFindSid st known with
    | none => exact ⟨iff_of_false (fun h => h rfl) (keyringFindSid_none hfind), nofun⟩
    | some found =>
      obtain ⟨place, box⟩ := found
      obtain ⟨hbox, key⟩ := keyringFindSid_some hfind
      refine ⟨iff_of_true (some_ne_none _) (loaded_iff.2 ⟨box, hbox, key⟩), ?_⟩
      rintro bytes ⟨⟩
      exact ⟨box, hbox, key, rfl⟩

theorem Sound.locksAndRestores (h : Sound env st past) : LocksAndRestores env st past where
  nmBytes := h.nmFaithful
  identity := h.pointed
  restored slot was := (holds_keyringEnterPin_iff (h.stored slot was)).2 (h.past slot was)

/-- The keyring file has one key pair of type `CRYPTOBOX` in each slot. -/
def KeyringEnv.Single (env : KeyringEnv) : Prop := ∀ slot ∈ env.slots, slot.moreBoxes = []

theorem Sound.of_opened (h : Opened st) : Sound env st fun _ => False where
  single id hid := by
    rw [KeyringState.identities, h.contexts] at hid
    cases hid
  cache := h.nmCache ▸ nofun
  pointed sid := by
    rw [h.identity, KeyringState.Loaded, KeyringState.boxes, KeyringState.identities, h.contexts]
    exact iff_of_false (by decide) nofun
  stored _ h := h.elim
  past _ h := h.elim

theorem Sound.remember (h : Sound env st past) :
    Sound env st fun slot => past slot ∨ slot ∈ env.slots ∧ st.Holds slot where
  __ := h
  stored slot was := was.elim (h.stored slot) And.left
  past slot was := was.elim (h.past slot) fun now => .inl now.2

theorem Sound.enterPin (single : env.Single) (h : Sound env st past) (pin : Pin) :
    Sound env (keyringEnterPin st env.slots pin).1 past := by
  have grows := keyringEnterPin_grows st env.slots pin
  refine ⟨?_, ?_, grows.pointed single h.pointed, h.stored, ?_⟩
  · intro id hid
    rcases grows.added id hid with old | ⟨slot, hslot, _, rfl⟩
    · exact h.single id old
    · exact single slot hslot
  · intro r hr
    rw [grows.nmCache] at hr
    obtain ⟨box, hbox, rest⟩ := h.cache r hr
    obtain ⟨id, hid, mem⟩ := mem_boxes.1 hbox
    exact ⟨box, mem_boxes.2 ⟨id, grows.kept id hid, mem⟩, rest⟩
  · intro slot was
    rcases h.past slot was with held | ⟨isOpen, free⟩
    · exact .inl (grows.holds slot held)
    by_cases same : slot.entryPin = pin
    · subst same
      exact .inl ((holds_keyringEnterPin_iff (h.stored slot was)).2 (.inr ⟨isOpen, free⟩))
    refine .inr ⟨(grows.open_iff _).2 isOpen, fun entered => ?_⟩
    obtain ⟨id, hid, hpin⟩ := mem_map.1 entered
    rcases grows.added id hid with old | ⟨added, _, hadded, rfl⟩
    · exact free (mem_map.2 ⟨id, old, hpin⟩)
    · exact same (hpin.symm.trans hadded)

theorem Sound.enterKeyringpin (h : Sound env st past) (pin : Pin) :
    Sound env (keyringEnterKeyringpin st pin).1 past := by
  unfold keyringEnterKeyringpin
  split
  · exact h
  split
  · exact h
  split
  · exact h
  have same : (st.contexts ++ [(⟨pin, []⟩ : Context)]).flatMap Context.identities =
      st.identities := by
    rw [flatMap_append]
    exact append_nil _
  have boxes : ({ st with contexts := st.contexts ++ [⟨pin, []⟩] } : KeyringState).boxes =
      st.boxes := congrArg (List.flatMap LoadedIdentity.boxes) same
  refine ⟨fun id hid => h.single id (same ▸ hid), boxes ▸ h.cache, fun sid => ?_, h.stored,
    fun slot was => ?_⟩
  · rw [Loaded, boxes]
    exact h.pointed sid
  rcases h.past slot was with ⟨c, mem, held⟩ | ⟨isOpen, free⟩
  · exact .inl ⟨c, mem_append_left _ mem, held⟩
  refine .inr ⟨?_, fun entered => free ?_⟩
  · unfold Open
    rw [map_append]
    exact mem_append_left _ isOpen
  · unfold Entered identities at entered
    rwa [same] at entered

theorem Sound.getNmBytes (h : Sound env st past) (known unknown : Sid) (random : ℕ) :
    Sound env (keyringGetNmBytes st env.beforenm known unknown random).1 past := by
  unfold keyringGetNmBytes
  split
  · exact h
  cases hfind : keyringFindSid st known with
  | none => exact h
  | some found =>
    obtain ⟨place, box⟩ := found
    obtain ⟨hbox, key⟩ := keyringFindSid_some hfind
    refine { h with cache := fun r hr => ?_ }
    have cases_ : r ∈ st.nmCache ∨ r = ⟨known, unknown, env.beforenm unknown box.privateKey⟩ := by
      dsimp only at hr
      split at hr
      · exact (mem_append.1 hr).imp_right mem_singleton.1
      · exact mem_or_eq_of_mem_set hr
    rcases cases_ with old | rfl
    · exact h.cache r old
    · exact ⟨box, hbox, key, rfl⟩

theorem linkStopRouting_of_self (self : st.reachable sid = .self) :
    (linkStopRouting st sid).identity = Function.update st.identity sid none := by
  unfold linkStopRouting
  rw [if_neg (not_not.2 self)]

theorem linkStopRouting_nmCache (sid : Sid) : (linkStopRouting st sid).nmCache = st.nmCache := by
  unfold linkStopRouting
  split <;> rfl

/-- The identities that stay in their places. -/
theorem holds_releasedContexts {c : Context} {id : LoadedIdentity} {slot : StoredSlot}
    (hc : st.contexts[cn]? = some c) (hid : c.identities[i]? = some id)
    (more : c.identities.length ≠ 1) (other : slot.identity ≠ id) (held : st.Holds slot) :
    ∃ c' ∈ releasedContexts st.contexts cn c i,
      c'.keyRingPin = slot.keyringPin ∧ slot.identity ∈ c'.identities := by
  have perm := perm_cons_swapRemove hid
  have length := perm.length_eq
  unfold releasedContexts
  rw [if_neg (by intro last; rw [last] at length; exact more length)]
  refine holds_set hc rfl (fun loaded => ?_) held
  exact (mem_cons.1 (perm.mem_iff.1 loaded)).resolve_left other

/-- Releasing an identity when that is possible. -/
theorem Sound.releaseIdentity (h : Sound env st past)
    (allowed : ∀ c id, st.contexts[cn]? = some c → c.identities[i]? = some id →
      Releasable st cn i c id) (next : keyringReleaseIdentity st cn i = .ok st') :
    Sound env st' past := by
  unfold keyringReleaseIdentity at next
  split at next
  · cases next
  rename_i c hc
  split at next
  · cases next
  split at next
  · cases next
  rename_i id hid
  cases next
  have release := allowed c id hc hid
  have before : st.identities.Perm (id :: others st.contexts cn i) := perm_others hc hid
  have after := releasedContexts_perm hc hid
  have pins := releasedContexts_pins hc hid release.context
  have kept (other) (hother : other ∈ (releasedContexts st.contexts cn c i).flatMap
      Context.identities) : other ∈ st.identities :=
    before.mem_iff.2 (mem_cons_of_mem _ (after.mem_iff.1 hother))
  have single := h.single id (before.mem_iff.2 mem_cons_self)
  refine ⟨fun other hother => h.single other (kept other hother), ?_, ?_, h.stored, ?_⟩
  · intro r hr
    rw [linkStopRouting_nmCache] at hr
    obtain ⟨box, hbox, key, value⟩ := h.cache r hr
    obtain ⟨owner, howner, mem⟩ := KeyringState.mem_boxes.1 hbox
    refine ⟨box, KeyringState.mem_boxes.2 ⟨owner, after.mem_iff.2 ?_, mem⟩, key, value⟩
    refine (mem_cons.1 (before.mem_iff.1 howner)).resolve_left ?_
    rintro rfl
    rw [LoadedIdentity.boxes, single, mem_singleton] at mem
    subst mem
    exact release.uncached r hr key.symm
  · intro sid
    have loaded : st.Loaded sid ↔ _ := loaded_iff_of_perm single before
    have loaded' : sid ∈ (((releasedContexts st.contexts cn c i).flatMap
        Context.identities).flatMap LoadedIdentity.boxes).map Box.publicKey ↔
        sid ∈ ((others st.contexts cn i).flatMap LoadedIdentity.boxes).map Box.publicKey :=
      ((after.flatMap_right LoadedIdentity.boxes).map Box.publicKey).mem_iff
    unfold KeyringState.Loaded KeyringState.boxes KeyringState.identities
    rw [loaded', linkStopRouting_of_self release.reachable]
    by_cases same : sid = id.subscriber
    · subst same
      rw [Function.update_self]
      refine iff_of_false (by decide) fun still => ?_
      obtain ⟨box, hbox, key⟩ := mem_map.1 still
      obtain ⟨other, hother, mem⟩ := mem_flatMap.1 hbox
      rw [LoadedIdentity.boxes, h.single other (kept other (after.mem_iff.2 hother)),
        mem_singleton] at mem
      subst mem
      exact release.sid other hother key
    · rw [Function.update_of_ne same, h.pointed sid, loaded]
      exact or_iff_right same
  · intro slot was
    have isOpen := iff_of_eq (congrArg (slot.keyringPin ∈ ·) pins)
    rcases h.past slot was with held | ⟨opened, free⟩
    · by_cases gone : slot.identity = id
      · refine .inr ⟨isOpen.2 held.open, fun entered => ?_⟩
        obtain ⟨other, hother, hpin⟩ := mem_map.1 entered
        refine release.pin other (after.mem_iff.1 hother) (hpin.trans ?_)
        rw [← gone]
        rfl
      · exact .inl (holds_releasedContexts hc hid release.context gone held)
    · refine .inr ⟨isOpen.2 opened, fun entered => free ?_⟩
      obtain ⟨other, hother, hpin⟩ := mem_map.1 entered
      exact mem_map.2 ⟨other, kept other hother, hpin⟩

theorem Sound.releaseSubscriber (h : Sound env st past)
    (allowed : Considerate st (.releaseSubscriber sid))
    (next : keyringReleaseSubscriber st sid = .ok st') : Sound env st' past := by
  unfold keyringReleaseSubscriber at next
  split at next
  · cases next
    exact h
  rename_i cn i box hfind
  split at next
  case isTrue notMine =>
    refine h.releaseIdentity (fun c id hc hid => ?_) next
    refine allowed cn i box c id hfind hc hid fun mine => notMine ?_
    rw [mine, subscriberAt, hc, bind_some, hid]
    rfl
  case isFalse =>
    cases next
    exact h

/-- One call keeps the promise. -/
theorem Sound.step (single : env.Single) {event : KeyringEvent} (h : Sound env st past)
    (allowed : Considerate st event) (next : keyringStep env st event = .ok st') :
    Sound env st' past := by
  cases event with
  | enterKeyringpin pin =>
    cases next
    exact h.enterKeyringpin pin
  | enterPin pin =>
    cases next
    exact h.enterPin single pin
  | releaseIdentity cn i => exact h.releaseIdentity allowed next
  | releaseSubscriber sid => exact h.releaseSubscriber allowed next
  | getNmBytes known unknown random =>
    cases next
    exact h.getNmBytes known unknown random

theorem KeyringReached.sound (single : env.Single) (h : KeyringReached env Considerate st past) :
    Sound env st past := by
  induction h with
  | start opened => exact .of_opened opened
  | step _ allowed next ih => exact (ih.step single allowed next).remember

end Steps

/-- In every run that releases identities considerately, shared keys and pointers belong to loaded
identities, and an identity that was loaded is loaded again when its pin is entered. -/
theorem considerate_locksAndRestores {env : KeyringEnv} {st : KeyringState}
    {past : StoredSlot → Prop} (single : env.Single) (h : KeyringReached env Considerate st past) :
    LocksAndRestores env st past :=
  (h.sound single).locksAndRestores

section Instances

def sidOf (b : Byte) : Sid := ⟨List.replicate sidSize b, length_replicate⟩

/-- A slot without pins. -/
def plainSlot (number : ℕ) (entryPin : Pin) (b : Byte) : StoredSlot :=
  ⟨number, [], entryPin, ⟨sidOf b, [b]⟩, []⟩

/-- A file with two identities, with and without a pin. -/
def twoSlots : KeyringEnv where
  slots := [plainSlot 1 [] 1#8, plainSlot 2 [7#8] 2#8]
  beforenm sid key := sid.bytes ++ key

def openedState : KeyringState where
  contexts := [⟨[], []⟩]
  reachable _ := .none
  identity _ := none
  mySubscriber := none
  nmCache := []

theorem opened_openedState : Opened openedState where
  contexts := rfl
  identity _ := rfl
  reachable := nofun
  nmCache := rfl

/-- Both pins have been entered. -/
def bothEntered : KeyringState :=
  (keyringEnterPin (keyringEnterPin openedState twoSlots.slots []).1 twoSlots.slots [7#8]).1

/-- The slots of `twoSlots` that were loaded. -/
def bothLoaded (slot : StoredSlot) : Prop :=
  (False ∨ slot ∈ twoSlots.slots ∧
    (keyringEnterPin openedState twoSlots.slots []).1.Holds slot) ∨
    slot ∈ twoSlots.slots ∧ bothEntered.Holds slot

theorem KeyringReached.then {env : KeyringEnv} {allowed : KeyringState → KeyringEvent → Prop}
    {st : KeyringState} {past : StoredSlot → Prop} (h : KeyringReached env allowed st past)
    (event : KeyringEvent) (ok : allowed st event) {st' : KeyringState}
    (next : keyringStep env st event = .ok st') :
    KeyringReached env allowed st' fun slot => past slot ∨ slot ∈ env.slots ∧ st'.Holds slot :=
  .step h ok next

theorem reached_bothEntered (allowed : KeyringState → KeyringEvent → Prop)
    (enter : ∀ st pin, allowed st (.enterPin pin)) :
    KeyringReached twoSlots allowed bothEntered bothLoaded :=
  ((KeyringReached.start opened_openedState).then (.enterPin []) (enter _ _) rfl).then
    (.enterPin [7#8]) (enter _ _) rfl

/-- The identity with a pin has been released again. -/
def oneReleased : KeyringState :=
  { linkStopRouting bothEntered (sidOf 2#8) with
    contexts := [⟨[], [(plainSlot 1 [] 1#8).identity]⟩] }

theorem considerate_bothEntered : Considerate bothEntered (.releaseIdentity 0 1) := by
  intro c id hc hid
  cases hc
  cases hid
  exact ⟨by decide, rfl, nofun, by decide, by decide⟩

theorem considerate_locksAndRestores_oneReleased :
    ∃ past : StoredSlot → Prop, past (plainSlot 2 [7#8] 2#8) ∧
      ¬oneReleased.Holds (plainSlot 2 [7#8] 2#8) ∧ LocksAndRestores twoSlots oneReleased past :=
  ⟨_, .inl (.inr (by decide)), by decide,
    considerate_locksAndRestores (by decide : ∀ slot ∈ twoSlots.slots, slot.moreBoxes = [])
      ((reached_bothEntered Considerate fun _ _ => trivial).then (.releaseIdentity 0 1)
        considerate_bothEntered rfl)⟩

/-- A shared key outlives its identity, and an identity does not come back if it was the last one of
its context. -/
theorem keyring_keeps_and_forgets :
    (∃ st past, KeyringReached twoSlots (fun _ _ => True) st past ∧ ¬st.Loaded (sidOf 2#8) ∧
      (keyringGetNmBytes st twoSlots.beforenm (sidOf 2#8) (sidOf 9#8) 0).2 ≠ none) ∧
    ∃ st past, KeyringReached twoSlots (fun _ _ => True) st past ∧ past (plainSlot 1 [] 1#8) ∧
      ¬(keyringEnterPin st twoSlots.slots []).1.Holds (plainSlot 1 [] 1#8) := by
  constructor
  · refine ⟨_, _, ((reached_bothEntered _ fun _ _ => trivial).then
      (.getNmBytes (sidOf 2#8) (sidOf 9#8) 0) trivial rfl).then
      (.releaseIdentity 0 1) trivial rfl, ?_, ?_⟩
    · decide
    · decide
  · refine ⟨_, _, ((KeyringReached.start opened_openedState).then (.enterPin []) trivial rfl).then
      (.releaseIdentity 0 0) trivial rfl, .inl (.inr ?_), ?_⟩
    · decide
    · decide

end Instances

end ServalMesh.Keyring
