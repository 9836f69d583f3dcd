import Mathlib

/-!
# Link state tables

The records of route_link.c. A `struct subscriber *` is a value of `σ`, ordered
as `cmp_sid_t` orders the subscriber ids. A `struct link *` is named by the
receiver of the link it points to, because a table holds one link per receiver
and never frees a link while its neighbour lives.
-/

namespace ServalMesh.Route

open List

/-- `struct network_destination`, reduced to what routing reads. -/
structure Destination where
  id : ℕ
  interface : ℕ
  unicast : Bool
deriving DecidableEq

/-- Storing an `int` in a `char`, whose signedness the platform chooses. -/
def toChar (signed : Bool) (v : ℤ) : ℤ :=
  if signed then (v + 128) % 256 - 128 else v % 256

/-- `struct link`. Of the path version, only equality of `char`s is observed. -/
structure Link (σ : Type) where
  transmitter : Option σ := none
  parent : Option σ := none
  destination : Option Destination := none
  receiver : σ
  lastAckSeq : ℤ := -1
  pathVersion : BitVec 8
  linkVersion : ℤ
  dropRate : ℤ := 0
  hopCount : ℤ := 0
  pathDropRate : ℤ := 0
  calculating : Bool := false
deriving DecidableEq

/-- The unbalanced tree under `neighbour->root`. -/
inductive LinkTree (σ : Type) where
  | nil
  | node (left : LinkTree σ) (link : Link σ) (right : LinkTree σ)
deriving DecidableEq

/-- `struct link_in`, statistics of an incoming half link. -/
structure LinkIn where
  interface : ℕ
  neighbourInterface : ℤ
  linkTimeout : ℤ := 0
  unicast : ℤ
  ackSequence : ℤ := -1
  ackMask : BitVec 64 := 0#64
  ackCounter : ℤ := 0
deriving DecidableEq

/-- What `get_neighbour_link` compares: our interface, theirs, and unicast or not. -/
abbrev LinkKey := ℕ × ℤ × ℤ

def LinkIn.key (l : LinkIn) : LinkKey := (l.interface, l.neighbourInterface, l.unicast)

/-- `struct link_out`, an outgoing half link. -/
structure LinkOut where
  timeout : ℤ
  destination : Destination
deriving DecidableEq

/-- `struct neighbour`. A `struct link_in *` is named by the key of the link. -/
structure Neighbour (σ : Type) where
  subscriber : σ
  pathVersion : BitVec 8 := 0#8
  linkInTimeout : ℤ := 0
  usingUs : Bool := false
  legacyProtocol : Bool := false
  routingThroughUs : ℤ := 0
  mdpAckSequence : ℤ := -1
  mdpAckMask : BitVec 64 := 0#64
  nextNeighbourUpdate : ℤ := 0
  lastUpdate : ℤ := 0
  lastUpdateSeq : ℤ := -1
  root : LinkTree σ := .nil
  links : List LinkIn := []
  bestLink : Option LinkKey := none
  outLinks : List LinkOut := []

section Tree

variable {σ : Type} [LinearOrder σ] {t : LinkTree σ} {l : Link σ} {r r' : σ}

/-- `find_link` without creation. -/
def LinkTree.find : LinkTree σ → σ → Option (Link σ)
  | .nil, _ => none
  | .node left link right, r =>
    if r = link.receiver then some link
    else if r < link.receiver then left.find r
    else right.find r

/-- Store through the pointer that `find_link` returned; an absent link is
created in the empty slot where the search ended. -/
def LinkTree.set : LinkTree σ → Link σ → LinkTree σ
  | .nil, l => .node .nil l .nil
  | .node left link right, l =>
    if l.receiver = link.receiver then .node left l right
    else if l.receiver < link.receiver then .node (left.set l) link right
    else .node left link (right.set l)

@[simp] theorem LinkTree.find_set_self : (t.set l).find l.receiver = some l := by
  induction t with
  | nil => simp [LinkTree.set, find]
  | node left link right ihl ihr =>
    rw [LinkTree.set]
    split_ifs with he hlt
    · simp [find]
    · simpa [find, he, hlt] using ihl
    · simpa [find, he, hlt] using ihr

/-- The search for another receiver takes the same branches as before. -/
theorem LinkTree.find_set_ne (h : r ≠ l.receiver) : (t.set l).find r = t.find r := by
  induction t with
  | nil => simp [LinkTree.set, find, h]
  | node left link right ihl ihr =>
    rw [LinkTree.set]
    split_ifs with he hlt
    · have hr : r ≠ link.receiver := he ▸ h
      simp [find, hr, he]
    · simp only [find, ihl]
    · simp only [find, ihr]

theorem LinkTree.find_set (l : Link σ) (r : σ) :
    (t.set l).find r = if r = l.receiver then some l else t.find r := by
  split_ifs with h
  · rw [h, find_set_self]
  · exact find_set_ne h

/-- The receivers with a link in this table, in tree order. -/
def LinkTree.receivers : LinkTree σ → List σ
  | .nil => []
  | .node left link right => left.receivers ++ link.receiver :: right.receivers

/-- Overwriting an existing link leaves the shape of the tree alone. -/
theorem LinkTree.receivers_set (h : t.find l.receiver ≠ none) :
    (t.set l).receivers = t.receivers := by
  induction t with
  | nil => simp [find] at h
  | node left link right ihl ihr =>
    rw [find] at h
    rw [LinkTree.set]
    split_ifs at h ⊢ with he hlt
    · simp [receivers, he]
    · simp [receivers, ihl h]
    · simp [receivers, ihr h]

/-- The transmitters of the links of this table. -/
def LinkTree.transmitters : LinkTree σ → List σ
  | .nil => []
  | .node left link right => left.transmitters ++ link.transmitter.toList ++ right.transmitters

section

variable (h : t.find r = some l)
include h

/-- What is found is in the tree. -/
theorem LinkTree.find_spec : l.receiver = r ∧ r ∈ t.receivers ∧
    ∀ r' ∈ l.transmitter, r' ∈ t.transmitters := by
  induction t with
  | nil => simp [find] at h
  | node left link right ihl ihr =>
    rw [find] at h
    simp only [receivers, transmitters, mem_append, mem_cons]
    split_ifs at h with he hlt
    · cases h
      exact ⟨he.symm, .inr (.inl he), fun r' htr => .inl (.inr (Option.mem_toList.mpr htr))⟩
    · obtain ⟨hl, hr, htr⟩ := ihl h
      exact ⟨hl, .inl hr, fun r' h => .inl (.inl (htr r' h))⟩
    · obtain ⟨hl, hr, htr⟩ := ihr h
      exact ⟨hl, .inr (.inr hr), fun r' h => .inr (htr r' h)⟩

theorem LinkTree.find_receiver : l.receiver = r := (find_spec h).1

theorem LinkTree.mem_receivers : r ∈ t.receivers := (find_spec h).2.1

theorem LinkTree.mem_transmitters (htr : l.transmitter = some r') :
    r' ∈ t.transmitters := (find_spec h).2.2 r' htr

end

end Tree

section Neighbours

variable {σ : Type} [DecidableEq σ]

/-- `get_neighbour(subscriber, 0)`. -/
def getNeighbour : List (Neighbour σ) → σ → Option (Neighbour σ)
  | [], _ => none
  | n :: rest, s => if n.subscriber = s then some n else getNeighbour rest s

/-- Store through the pointer that `get_neighbour` returned. -/
def setNeighbour : List (Neighbour σ) → Neighbour σ → List (Neighbour σ)
  | [], _ => []
  | m :: rest, n => if m.subscriber = n.subscriber then n :: rest else m :: setNeighbour rest n

variable {ns : List (Neighbour σ)} {n m : Neighbour σ} {s : σ}

theorem getNeighbour_eq_find? : getNeighbour ns s = ns.find? fun n => n.subscriber = s := by
  induction ns with
  | nil => rfl
  | cons a rest ih =>
    rw [getNeighbour, ih, find?_cons]
    by_cases ha : a.subscriber = s <;> simp [ha]

theorem getNeighbour_subscriber (h : getNeighbour ns s = some n) : n.subscriber = s := by
  rw [getNeighbour_eq_find?] at h
  simpa using find?_some h

theorem getNeighbour_mem (h : getNeighbour ns s = some n) : n ∈ ns := by
  rw [getNeighbour_eq_find?] at h
  exact mem_of_find?_eq_some h

theorem getNeighbour_setNeighbour_self (h : getNeighbour ns n.subscriber = some m) :
    getNeighbour (setNeighbour ns n) n.subscriber = some n := by
  induction ns with
  | nil => simp [getNeighbour] at h
  | cons a rest ih =>
    rw [getNeighbour] at h
    rw [setNeighbour]
    split_ifs at h ⊢ with ha
    · simp [getNeighbour]
    · simpa [getNeighbour, ha] using ih h

theorem mem_setNeighbour (h : m ∈ setNeighbour ns n) : m ∈ ns ∨ m = n := by
  induction ns with
  | nil => cases h
  | cons a rest ih =>
    rw [setNeighbour] at h
    split_ifs at h with ha
    · exact (mem_cons.mp h).symm.imp_left (mem_cons_of_mem _)
    · rcases mem_cons.mp h with rfl | h
      · exact .inl mem_cons_self
      · exact (ih h).imp_left (mem_cons_of_mem _)

end Neighbours

end ServalMesh.Route
