import ServalMesh.Keyring.Identity
import ServalMesh.Overlay.Address
import ServalMesh.Route.BestLink
import ServalMesh.Lib.SwapRemove

/-!
# Contexts of the keyring

A context holds the identities that were unlocked with one keyring pin. An identity is loaded when
its entry pin is entered, and then its subscriber is local. A slot can be decrypted exactly with its
own pins, and a file has fewer slots than a context has places.
-/

namespace ServalMesh.Keyring

open Lib Overlay

section Definitions

abbrev Pin := List Byte

def keyringMaxContexts : ℕ := 256

def nmCacheSlots : ℕ := 512

/-- A key pair of type `CRYPTOBOX`. -/
structure Box where
  publicKey : Sid
  privateKey : List Byte
deriving DecidableEq

/-- A `keyring_identity` in memory, which only has a message authentication code if its first key
pair is of type `CRYPTOBOX`. There may be more of them. -/
structure LoadedIdentity where
  pkrPin : Pin
  slot : ℕ
  box : Box
  moreBoxes : List Box
deriving DecidableEq

def LoadedIdentity.boxes (id : LoadedIdentity) : List Box := id.box :: id.moreBoxes

/-- The SID of `id->subscriber`. -/
def LoadedIdentity.subscriber (id : LoadedIdentity) : Sid := id.box.publicKey

/-- `struct keyring_context`. -/
structure Context where
  keyRingPin : Pin
  identities : List LoadedIdentity
deriving DecidableEq

/-- An occupied slot of the keyring file. -/
structure StoredSlot where
  number : ℕ
  keyringPin : Pin
  entryPin : Pin
  box : Box
  moreBoxes : List Box
deriving DecidableEq

/-- What is unpacked from a slot. -/
def StoredSlot.identity (slot : StoredSlot) : LoadedIdentity :=
  ⟨slot.entryPin, slot.number, slot.box, slot.moreBoxes⟩

/-- `struct nm_record`. -/
structure NmRecord where
  knownKey : Sid
  unknownKey : Sid
  nmBytes : List Byte
deriving DecidableEq

/-- The contexts, the cache and the fields of subscribers that belong to identities. A pointer to an
identity is the number of its slot. -/
structure KeyringState where
  contexts : List Context
  reachable : Sid → Route.Reachable
  identity : Sid → Option ℕ
  mySubscriber : Option Sid
  nmCache : List NmRecord

namespace KeyringState

variable (st : KeyringState)

def identities : List LoadedIdentity := st.contexts.flatMap Context.identities

def boxes : List Box := st.identities.flatMap LoadedIdentity.boxes

/-- An identity with this SID is loaded. -/
def Loaded (sid : Sid) : Prop := sid ∈ st.boxes.map Box.publicKey

/-- A keyring pin has been entered. -/
def Open (pin : Pin) : Prop := pin ∈ st.contexts.map Context.keyRingPin

/-- An identity with this entry pin is loaded. -/
def Entered (pin : Pin) : Prop := pin ∈ st.identities.map LoadedIdentity.pkrPin

/-- The identity of a slot is loaded. -/
def Holds (slot : StoredSlot) : Prop :=
  ∃ c ∈ st.contexts, c.keyRingPin = slot.keyringPin ∧ slot.identity ∈ c.identities

instance (sid : Sid) : Decidable (st.Loaded sid) :=
  inferInstanceAs (Decidable (sid ∈ st.boxes.map Box.publicKey))

instance (pin : Pin) : Decidable (st.Entered pin) :=
  inferInstanceAs (Decidable (pin ∈ st.identities.map LoadedIdentity.pkrPin))

instance (slot : StoredSlot) : Decidable (st.Holds slot) :=
  inferInstanceAs (Decidable (∃ c ∈ st.contexts, c.keyRingPin = slot.keyringPin ∧
    slot.identity ∈ c.identities))

end KeyringState

variable (st : KeyringState)

/-- `add_subscriber`. -/
def addSubscriber (id : LoadedIdentity) : KeyringState :=
  let sid := id.subscriber
  let st := if st.reachable sid = .none then
    { st with
      reachable := Function.update st.reachable sid .self
      mySubscriber := st.mySubscriber.or (some sid) } else st
  { st with identity := Function.update st.identity sid (some id.slot) }

/-- `keyring_decrypt_pkr`, which says whether the slot was decrypted. -/
def keyringDecryptPkr (cn : ℕ) (pin : Pin) (slot : StoredSlot) : KeyringState × Bool :=
  match st.contexts[cn]? with
  | none => (st, false)
  | some c =>
    if c.keyRingPin = slot.keyringPin ∧ pin = slot.entryPin then
      let st := addSubscriber st slot.identity
      let c := { c with identities := c.identities ++ [slot.identity] }
      ({ st with contexts := st.contexts.set cn c }, true)
    else (st, false)

/-- The loop over the contexts, for one slot. -/
def decryptSlot (pin : Pin) (slot : StoredSlot) : KeyringState × ℕ :=
  (List.range st.contexts.length).foldl (fun (acc : KeyringState × ℕ) cn =>
    let result := keyringDecryptPkr acc.1 cn pin slot
    (result.1, if result.2 then acc.2 + 1 else acc.2)) (st, 0)

/-- `keyring_enter_pin`, which returns the number of identities that it finds. -/
def keyringEnterPin (slots : List StoredSlot) (pin : Pin) : KeyringState × ℕ :=
  if st.Entered pin then (st, st.identities.countP fun id => id.pkrPin = pin)
  else
    slots.foldl (fun (acc : KeyringState × ℕ) slot =>
      let result := decryptSlot acc.1 pin slot
      (result.1, acc.2 + result.2)) (st, 0)

/-- `keyring_enter_keyringpin`. The salt is taken from a context that is there. -/
def keyringEnterKeyringpin (pin : Pin) : KeyringState × Option ℕ :=
  if keyringMaxContexts ≤ st.contexts.length then (st, none)
  else if st.contexts.length < 1 then (st, none)
  else
    match st.contexts.findIdx? fun c => c.keyRingPin = pin with
    | some cn => (st, some cn)
    | none => ({ st with contexts := st.contexts ++ [⟨pin, []⟩] }, some st.contexts.length)

/-- `link_stop_routing`. -/
def linkStopRouting (sid : Sid) : KeyringState :=
  if st.reachable sid ≠ .self then st
  else
    { st with
      reachable := Function.update st.reachable sid .none
      identity := Function.update st.identity sid none
      mySubscriber := if st.mySubscriber = some sid then none else st.mySubscriber }

/-- The contexts without one identity. A context goes with its last identity. -/
def releasedContexts (contexts : List Context) (cn : ℕ) (c : Context) (i : ℕ) : List Context :=
  let rest := swapRemove c.identities i
  if rest = [] then swapRemove contexts cn else contexts.set cn { c with identities := rest }

/-- `keyring_release_identity`. -/
def keyringReleaseIdentity (cn i : ℕ) : Except Abort KeyringState :=
  match st.contexts[cn]? with
  | none => .error .nullPointer
  | some c =>
    if c.identities = [] then .error .assertion
    else
      match c.identities[i]? with
      | none => .error .nullPointer
      | some id =>
        .ok { linkStopRouting st id.subscriber with
          contexts := releasedContexts st.contexts cn c i }

/-- `keyring_find_sid`: the place of the identity, and the key pair. -/
def keyringFindSid (sid : Sid) : Option ((ℕ × ℕ) × Box) :=
  st.contexts.zipIdx.findSome? fun (c, cn) =>
    c.identities.zipIdx.findSome? fun (id, i) =>
      (id.boxes.find? fun box => box.publicKey = sid).map fun box => ((cn, i), box)

/-- The subscriber of the identity in a place. -/
def subscriberAt (cn i : ℕ) : Option Sid :=
  (st.contexts[cn]?.bind fun c => c.identities[i]?).map LoadedIdentity.subscriber

/-- `keyring_release_subscriber`. -/
def keyringReleaseSubscriber (sid : Sid) : Except Abort KeyringState :=
  match keyringFindSid st sid with
  | none => .ok st
  | some ((cn, i), _) =>
    if subscriberAt st cn i ≠ st.mySubscriber then keyringReleaseIdentity st cn i else .ok st

/-- `keyring_get_nm_bytes`, with the primitive and a random number for a cache that is full. -/
def keyringGetNmBytes (beforenm : Sid → List Byte → List Byte) (known unknown : Sid)
    (random : ℕ) : KeyringState × Option (List Byte) :=
  match st.nmCache.find? fun r => r.knownKey = known ∧ r.unknownKey = unknown with
  | some r => (st, some r.nmBytes)
  | none =>
    match keyringFindSid st known with
    | none => (st, none)
    | some (_, box) =>
      let r : NmRecord := ⟨known, unknown, beforenm unknown box.privateKey⟩
      let nmCache := if st.nmCache.length < nmCacheSlots then st.nmCache ++ [r]
        else st.nmCache.set (random % nmCacheSlots) r
      ({ st with nmCache := nmCache }, some r.nmBytes)

end Definitions

section Release

variable {contexts : List Context} {cn i : ℕ} {c : Context} {id : LoadedIdentity}

/-- The identities in other places. -/
def others (contexts : List Context) (cn i : ℕ) : List LoadedIdentity :=
  (contexts.modify cn fun c => { c with identities := c.identities.eraseIdx i }).flatMap
    Context.identities

section

variable (hc : contexts[cn]? = some c)
include hc

open Context

theorem flatMap_set_perm (c' : Context) :
    ∃ rest : List LoadedIdentity,
      (contexts.flatMap identities).Perm (c.identities ++ rest) ∧
      ((contexts.set cn c').flatMap identities).Perm (c'.identities ++ rest) ∧
      ((swapRemove contexts cn).flatMap identities).Perm rest := by
  obtain ⟨bound, _⟩ := List.getElem?_eq_some_iff.1 hc
  have erased := perm_cons_eraseIdx hc
  refine ⟨(contexts.eraseIdx cn).flatMap identities, ?_, ?_, ?_⟩
  · exact erased.flatMap_right identities
  · exact (List.set_perm_cons_eraseIdx bound c').flatMap_right identities
  · have same : (swapRemove contexts cn).Perm (contexts.eraseIdx cn) :=
      ((perm_cons_swapRemove hc).symm.trans erased).cons_inv
    exact same.flatMap_right identities

section

variable (hid : c.identities[i]? = some id)
include hid

theorem perm_others :
    (contexts.flatMap Context.identities).Perm (id :: others contexts cn i) := by
  obtain ⟨rest, before, after, _⟩ :=
    flatMap_set_perm hc { c with identities := c.identities.eraseIdx i }
  have same : contexts.set cn { c with identities := c.identities.eraseIdx i } =
      contexts.modify cn fun c => { c with identities := c.identities.eraseIdx i } := by
    rw [List.modify_eq_set_getElem?, hc]
    rfl
  rw [same] at after
  calc
    (contexts.flatMap Context.identities).Perm (c.identities ++ rest) := before
    List.Perm _ (id :: (c.identities.eraseIdx i ++ rest)) :=
      (perm_cons_eraseIdx hid).append_right rest
    List.Perm _ (id :: others contexts cn i) := after.symm.cons id

/-- The other identities stay. -/
theorem releasedContexts_perm :
    ((releasedContexts contexts cn c i).flatMap Context.identities).Perm
      (others contexts cn i) := by
  obtain ⟨rest, before, after, removed⟩ :=
    flatMap_set_perm hc { c with identities := swapRemove c.identities i }
  have all : (id :: others contexts cn i).Perm (id :: (swapRemove c.identities i ++ rest)) :=
    (perm_others hc hid).symm.trans
      (before.trans ((perm_cons_swapRemove hid).append_right rest))
  unfold releasedContexts
  dsimp only
  split
  case isTrue last =>
    rw [last] at all
    exact removed.trans all.cons_inv.symm
  case isFalse => exact after.trans all.cons_inv.symm

/-- A context that has another identity stays, and so do the other contexts. -/
theorem releasedContexts_pins (more : c.identities.length ≠ 1) :
    (releasedContexts contexts cn c i).map keyRingPin =
      contexts.map keyRingPin := by
  have length := (perm_cons_swapRemove hid).length_eq
  have pin : (contexts.map keyRingPin)[cn]? = some c.keyRingPin := by
    rw [List.getElem?_map, hc]
    rfl
  rw [List.length_cons] at length
  unfold releasedContexts
  rw [if_neg]
  · rw [List.map_set]
    exact set_of_getElem? pin
  · intro last
    rw [last, List.length_nil] at length
    exact more length

end

end

end Release

end ServalMesh.Keyring
