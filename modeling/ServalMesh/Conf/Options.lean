import ServalMesh.Conf.Tree

/-!
# Options of a tree

A tree stands for a map from names to texts. Setting an option changes the map at this name only. A
lookup goes to the node of the name if it is there, and else to the first one whose keys begin with
those of the name.
-/

namespace ServalMesh.Conf

open Lib Overlay List Option

variable {change : Option (List Byte) → Option (List Byte)} {done : List Byte} {key : Key}
  {keys path : List Key} {node : CfOmNode}

/-- The children of every node are strictly sorted by key. -/
inductive Sorted : CfOmNode → Prop
  | mk {node : CfOmNode}
    (order : node.nodv.Pairwise fun a b => keyCode a.key < keyCode b.key)
    (children : ∀ child ∈ node.nodv, Sorted child) : Sorted node

theorem Sorted.order (h : Sorted node) :
    node.nodv.Pairwise fun a b => keyCode a.key < keyCode b.key := by
  cases h with
  | mk order _ => exact order

theorem Sorted.child (h : Sorted node) : ∀ child ∈ node.nodv, Sorted child := by
  cases h with
  | mk _ children => exact children

/-- The child with exactly this key. -/
def CfOmNode.child (node : CfOmNode) (key : Key) : Option CfOmNode :=
  node.nodv.find? fun child => child.key = key

/-- The node with exactly these keys. -/
def CfOmNode.nodeAt (node : CfOmNode) : List Key → Option CfOmNode
  | [] => some node
  | key :: keys => (node.child key).bind fun child => child.nodeAt keys

def CfOmNode.textAt (node : CfOmNode) (path : List Key) : Option (List Byte) :=
  (node.nodeAt path).bind CfOmNode.text

section Update

/-- A key has its place among sorted children. -/
theorem exists_places (key : Key) {nodv : List CfOmNode}
    (sorted : nodv.Pairwise fun a b => keyCode a.key < keyCode b.key) :
    ∃ front middle back, Places (fun child => compareKey key child.key) nodv front middle back := by
  induction nodv with
  | nil => exact ⟨[], none, [], ⟨rfl, by simp, by simp, by simp⟩⟩
  | cons child nodv ih =>
    obtain ⟨first, rest⟩ := pairwise_cons.1 sorted
    have less : keyCode key ≤ keyCode child.key →
        ∀ other ∈ nodv, compareKey key other.key = .lt := by
      intro le other hother
      rcases compareKey_spec key other.key with ⟨cmp, _⟩ | ⟨_, rfl⟩ | ⟨_, gt⟩
      · exact cmp
      · exact absurd (le.trans_lt (first other hother)) (lt_irrefl _)
      · exact absurd ((le.trans_lt (first other hother)).trans gt) (lt_irrefl _)
    rcases compareKey_spec key child.key with ⟨cmp, lt⟩ | ⟨cmp, eq⟩ | ⟨cmp, _⟩
    · refine ⟨[], none, child :: nodv, rfl, by simp, by simp, ?_⟩
      exact forall_mem_cons.2 ⟨cmp, less lt.le⟩
    · refine ⟨[], some child, nodv, rfl, by simp, ?_, less (by rw [eq])⟩
      rintro other ⟨⟩
      exact cmp
    obtain ⟨front, middle, back, places⟩ := ih rest
    refine ⟨child :: front, middle, back, ?_, ?_, places.equal, places.less⟩
    · rw [places.items]
      rfl
    · exact forall_mem_cons.2 ⟨cmp, places.greater⟩

/-- The children before a key, the one with it, and those behind it. -/
abbrev CfOmNode.Divides (node : CfOmNode) (key : Key) :=
  Places (fun child => compareKey key child.key) node.nodv

variable {front back : List CfOmNode} {middle : Option CfOmNode}

section

variable (h : node.Divides key front middle back)
include h

theorem key_of_places :
    (∀ child ∈ front, keyCode child.key < keyCode key) ∧ (∀ child ∈ middle, child.key = key) ∧
      ∀ child ∈ back, keyCode key < keyCode child.key := by
  refine ⟨fun child hc => ?_, fun child hc => ?_, fun child hc => ?_⟩
  · simpa [h.greater child hc] using compareKey_spec key child.key
  · simpa [h.equal child hc, eq_comm] using compareKey_spec key child.key
  · simpa [h.less child hc] using compareKey_spec key child.key

/-- The child is made in its place. -/
theorem cfOmMakeChild_eq (fullkey : List Byte) :
    cfOmMakeChild node fullkey key =
      ({ node with nodv := front ++ middle.getD ⟨fullkey, key, none, []⟩ :: back },
        front.length) := by
  unfold cfOmMakeChild
  rw [binarySearch_eq h]
  cases middle with
  | none =>
    have items : node.nodv = front ++ back := by simpa using h.items
    simp [placeOf, items, insertIdx_length_append]
  | some child =>
    have items : node.nodv = front ++ child :: back := by simpa using h.items
    rw [getD_some, ← items]
    cases node
    rfl

theorem update_cons
    (change : Option (List Byte) → Option (List Byte)) (done : List Byte) (keys : List Key) :
    node.update change done (key :: keys) =
      { node with
        nodv := front ++ (middle.getD ⟨done ++ key, key, none, []⟩).update change
          (done ++ key ++ [dot]) keys :: back } := by
  rw [CfOmNode.update, cfOmMakeChild_eq h]
  dsimp only
  rw [modify_length_append]

end

theorem update_nil (change : Option (List Byte) → Option (List Byte)) (done : List Byte) :
    node.update change done [] = { node with text := change node.text } := rfl

theorem update_key (sorted : Sorted node) : (node.update change done keys).key = node.key := by
  cases keys with
  | nil => rfl
  | cons key keys =>
    obtain ⟨front, middle, back, places⟩ := exists_places key sorted.order
    rw [update_cons places]

theorem sorted_new (fullkey : List Byte) (key : Key) : Sorted ⟨fullkey, key, none, []⟩ :=
  .mk .nil (by simp)

theorem Sorted.getD_middle (sorted : Sorted node) (h : node.Divides key front middle back)
    (fullkey : List Byte) : Sorted (middle.getD ⟨fullkey, key, none, []⟩) := by
  cases middle with
  | none => exact sorted_new fullkey key
  | some child =>
    apply sorted.child
    rw [h.items]
    simp

theorem key_getD_middle (h : node.Divides key front middle back) (fullkey : List Byte) :
    (middle.getD ⟨fullkey, key, none, []⟩).key = key := by
  cases middle with
  | none => rfl
  | some child => exact (key_of_places h).2.1 child rfl

theorem key_update_middle (sorted : Sorted node) (h : node.Divides key front middle back)
    (change : Option (List Byte) → Option (List Byte)) (fullkey done : List Byte)
    (keys : List Key) :
    ((middle.getD ⟨fullkey, key, none, []⟩).update change done keys).key = key :=
  (update_key (sorted.getD_middle h fullkey)).trans (key_getD_middle h fullkey)

/-- Updates keep the children sorted. -/
theorem Sorted.update (sorted : Sorted node) : Sorted (node.update change done keys) := by
  induction keys generalizing node done with
  | nil => exact .mk sorted.order sorted.child
  | cons key keys ih =>
    obtain ⟨front, middle, back, places⟩ := exists_places key sorted.order
    obtain ⟨front_lt, _, back_gt⟩ := key_of_places places
    have order := sorted.order
    rw [places.items, append_assoc, pairwise_append] at order
    obtain ⟨front_order, rest_order, front_rest⟩ := order
    rw [pairwise_append] at rest_order
    have children := sorted.child
    rw [places.items, forall_mem_append, forall_mem_append] at children
    rw [update_cons places]
    constructor
    · rw [pairwise_append, pairwise_cons, key_update_middle sorted places]
      refine ⟨front_order, ⟨back_gt, rest_order.2.1⟩, fun a ha => forall_mem_cons.2 ⟨?_, ?_⟩⟩
      · rw [key_update_middle sorted places]
        exact front_lt a ha
      · exact fun b hb => front_rest a ha b (mem_append_right _ hb)
    · exact forall_mem_append.2 ⟨children.1.1,
        forall_mem_cons.2 ⟨ih (sorted.getD_middle places (done ++ key)), children.2⟩⟩

theorem find?_key_none {children : List CfOmNode}
    (h : ∀ child ∈ children, keyCode child.key ≠ keyCode key) :
    children.find? (fun child => child.key = key) = none := by
  rw [find?_eq_none]
  intro child hc same
  exact h child hc (congrArg keyCode (of_decide_eq_true same))

theorem child_of_places (h : node.Divides key front middle back) : node.child key = middle := by
  obtain ⟨front_lt, middle_eq, back_gt⟩ := key_of_places h
  have front_none := find?_key_none fun child hc => (front_lt child hc).ne
  have back_none := find?_key_none fun child hc => (back_gt child hc).ne'
  unfold CfOmNode.child
  rw [h.items, find?_append, find?_append, front_none, back_none]
  cases middle with
  | none => rfl
  | some child => simp [middle_eq child rfl]

/-- The child of the updated name is updated. -/
theorem child_update_self (sorted : Sorted node) :
    (node.update change done (key :: keys)).child key =
      some (((node.child key).getD ⟨done ++ key, key, none, []⟩).update change
        (done ++ key ++ [dot]) keys) := by
  obtain ⟨front, middle, back, places⟩ := exists_places key sorted.order
  have front_none := find?_key_none fun child hc => ((key_of_places places).1 child hc).ne
  rw [update_cons places, child_of_places places]
  unfold CfOmNode.child
  rw [find?_append, front_none, find?_cons_of_pos (by simp [key_update_middle sorted places])]
  rfl

theorem child_update_other (sorted : Sorted node) {other : Key} (h : other ≠ key) :
    (node.update change done (key :: keys)).child other = node.child other := by
  obtain ⟨front, middle, back, places⟩ := exists_places key sorted.order
  rw [update_cons places]
  unfold CfOmNode.child
  rw [places.items, find?_append, find?_append, find?_append,
    find?_cons_of_neg (by simpa [key_update_middle sorted places] using h.symm)]
  cases middle with
  | none => simp
  | some child =>
    have child_key : child.key ≠ other := by
      rw [(key_of_places places).2.1 child rfl]
      exact Ne.symm h
    simp [child_key]

end Update

section Map

theorem textAt_cons (node : CfOmNode) (key : Key) (path : List Key) :
    node.textAt (key :: path) = (node.child key).bind fun child => child.textAt path := by
  unfold CfOmNode.textAt
  rw [CfOmNode.nodeAt, bind_assoc]

theorem textAt_new (fullkey : List Byte) (key : Key) (path : List Key) :
    CfOmNode.textAt ⟨fullkey, key, none, []⟩ path = none := by
  cases path with
  | nil | cons key path => rfl

/-- The map of texts is changed at one name. -/
theorem textAt_update (sorted : Sorted node) :
    (node.update change done keys).textAt path =
      if path = keys then change (node.textAt keys) else node.textAt path := by
  induction keys generalizing node done path with
  | nil =>
    cases path with
    | nil | cons key path => rfl
  | cons key keys ih =>
    cases path with
    | nil =>
      obtain ⟨front, middle, back, places⟩ := exists_places key sorted.order
      rw [if_neg (by simp), update_cons places]
      rfl
    | cons key' path =>
      by_cases hkey : key' = key
      · subst hkey
        obtain ⟨front, middle, back, places⟩ := exists_places key' sorted.order
        have child := sorted.getD_middle places (done ++ key')
        rw [textAt_cons, child_update_self sorted, bind_some, child_of_places places,
          ih child, textAt_cons, textAt_cons, child_of_places places]
        cases middle with
        | none => simp [textAt_new]
        | some child => simp
      · rw [textAt_cons, child_update_other sorted hkey, ← textAt_cons, if_neg (by simp [hkey])]

theorem nodeAt_update_isSome (sorted : Sorted node) :
    ((node.update change done keys).nodeAt path).isSome ↔
      (node.nodeAt path).isSome ∨ path <+: keys := by
  induction keys generalizing node done path with
  | nil =>
    cases path with
    | nil => simp [CfOmNode.nodeAt]
    | cons key path => simp [CfOmNode.nodeAt, update_nil, CfOmNode.child]
  | cons key keys ih =>
    cases path with
    | nil => simp [CfOmNode.nodeAt]
    | cons key' path =>
      by_cases hkey : key' = key
      · subst hkey
        obtain ⟨front, middle, back, places⟩ := exists_places key' sorted.order
        have child := sorted.getD_middle places (done ++ key')
        rw [CfOmNode.nodeAt, child_update_self sorted, bind_some, child_of_places places,
          ih child, CfOmNode.nodeAt, child_of_places places]
        cases middle with
        | none =>
          cases path with
          | nil => simp
          | cons key path => simp [CfOmNode.nodeAt, CfOmNode.child]
        | some child => simp
      · rw [CfOmNode.nodeAt, child_update_other sorted hkey, CfOmNode.nodeAt]
        simp [hkey]

end Map

section Runs

/-- The tree after some calls of `cf_om_set`, from the empty one. -/
def treeOf (sets : List (List Byte × Option (List Byte))) : Option CfOmNode :=
  sets.foldl (fun root set => (cfOmSet root set.1 set.2).1) none

/-- The text that a name was last set to. -/
def lastSet (sets : List (List Byte × Option (List Byte))) (name : List Byte) :
    Option (List Byte) :=
  sets.foldl (fun text set => if set.1 = name then set.2 else text) none

/-- The path belongs to a name that was set. -/
def Known (sets : List (List Byte × Option (List Byte))) (path : List Key) : Prop :=
  ∃ set ∈ sets, path <+: (keysOf set.1).1

/-- The map of texts of a tree that may not be allocated yet. -/
def rootText (root : Option CfOmNode) (path : List Key) : Option (List Byte) :=
  root.bind fun node => node.textAt path

def RootSorted (root : Option CfOmNode) : Prop := ∀ node ∈ root, Sorted node

theorem updateRoot_eq (root : Option CfOmNode) (nonempty : keys ≠ []) :
    updateRoot change keys root = some ((root.getD .zero).update change [] keys) := by
  cases keys with
  | nil => exact absurd rfl nonempty
  | cons key keys => rfl

variable {root : Option CfOmNode} {sets : List (List Byte × Option (List Byte))}

theorem RootSorted.getD_zero (sorted : RootSorted root) : Sorted (root.getD .zero) := by
  cases root with
  | none => exact sorted_new [] []
  | some node => exact sorted node rfl

theorem RootSorted.updateRoot (sorted : RootSorted root) :
    RootSorted (updateRoot change keys root) := by
  by_cases nonempty : keys = []
  · subst nonempty
    exact sorted
  · rw [updateRoot_eq root nonempty]
    intro node hnode
    cases hnode
    exact sorted.getD_zero.update

theorem textAt_getD_zero (root : Option CfOmNode) (path : List Key) :
    (root.getD .zero).textAt path = rootText root path := by
  cases root with
  | none => exact textAt_new [] [] path
  | some node => rfl

theorem rootText_updateRoot (sorted : RootSorted root) (nonempty : keys ≠ []) :
    rootText (updateRoot change keys root) path =
      if path = keys then change (rootText root keys) else rootText root path := by
  rw [updateRoot_eq root nonempty]
  show ((root.getD .zero).update change [] keys).textAt path = _
  rw [textAt_update sorted.getD_zero, textAt_getD_zero, textAt_getD_zero]

/-- The nodes of a tree that may not be allocated yet. -/
def HasNode (root : Option CfOmNode) (path : List Key) : Prop :=
  ∃ node ∈ root, (node.nodeAt path).isSome

theorem hasNode_some : HasNode (some node) path ↔ (node.nodeAt path).isSome := by
  simp [HasNode]

theorem nodeAt_getD_zero (root : Option CfOmNode) (nonempty : path ≠ []) :
    ((root.getD .zero).nodeAt path).isSome ↔ HasNode root path := by
  cases root with
  | none =>
    cases path with
    | nil => exact absurd rfl nonempty
    | cons key path => simp [HasNode, CfOmNode.nodeAt, CfOmNode.child, CfOmNode.zero]
  | some node => exact hasNode_some.symm

theorem hasNode_updateRoot (sorted : RootSorted root) (nonempty : path ≠ []) :
    HasNode (updateRoot change keys root) path ↔ HasNode root path ∨ path <+: keys := by
  by_cases hkeys : keys = []
  · subst hkeys
    rw [prefix_nil]
    exact (or_iff_left nonempty).symm
  · rw [updateRoot_eq root hkeys, hasNode_some, nodeAt_update_isSome sorted.getD_zero,
      nodeAt_getD_zero root nonempty]

/-- What the tree is for: the texts last set and the nodes of the names that were set. -/
structure TreeSpec (sets : List (List Byte × Option (List Byte))) (root : Option CfOmNode) :
    Prop where
  sorted : RootSorted root
  texts : ∀ path, path ≠ [] → (∀ key ∈ path, ValidKey key) →
    rootText root path = lastSet sets (joinKeys path)
  nodes : ∀ path, path ≠ [] → (HasNode root path ↔ Known sets path)

theorem treeSpec_nil : TreeSpec [] none :=
  ⟨nofun, fun _ _ _ => rfl, by simp [HasNode, Known]⟩

theorem TreeSpec.set (h : TreeSpec sets root) {name : List Byte} (wellFormed : isConfigvarname name)
    (text : Option (List Byte)) : TreeSpec (sets ++ [(name, text)]) (cfOmSet root name text).1 := by
  obtain ⟨nonempty, join⟩ := joinKeys_keysOf wellFormed
  have result : (cfOmSet root name text).1 =
      updateRoot (fun _ => text) (keysOf name).1 root := by
    show updateRoot (fun old => if isConfigvarname name then text else old) _ root = _
    rw [wellFormed]
    rfl
  rw [result]
  constructor
  case sorted => exact h.sorted.updateRoot
  case texts =>
    intro path hpath valid
    have same : path = (keysOf name).1 ↔ name = joinKeys path := by
      constructor
      · rintro rfl
        exact join.symm
      · rintro rfl
        rw [keysOf_joinKeys hpath valid]
    rw [rootText_updateRoot h.sorted nonempty, lastSet, foldl_concat, ← lastSet]
    exact if_congr same rfl (h.texts path hpath valid)
  case nodes =>
    intro path hpath
    rw [hasNode_updateRoot h.sorted hpath, h.nodes path hpath]
    simp [Known, or_and_right, exists_or]

theorem treeSpec_treeOf (wellFormed : ∀ set ∈ sets, isConfigvarname set.1) :
    TreeSpec sets (treeOf sets) := by
  induction sets using List.reverseRecOn with
  | nil => exact treeSpec_nil
  | append_singleton sets set ih =>
    rw [forall_mem_append, forall_mem_singleton] at wellFormed
    rw [treeOf, foldl_concat, ← treeOf]
    exact (ih wellFormed.1).set wellFormed.2 set.2

end Runs

section Lookup

/-- Each key of the second path is the first known one that begins with the key of the first
path. -/
def Completes : (List Key → Prop) → List Key → List Key → Prop
  | _, [], [] => True
  | known, key :: keys, full :: path =>
    key <+: full ∧ known [full] ∧
      (∀ other, key <+: other → known [other] → keyCode full ≤ keyCode other) ∧
        Completes (fun rest => known (full :: rest)) keys path
  | _, _, _ => False

variable {p : List Key → Prop}

theorem completes_nil : Completes p [] path ↔ path = [] := by
  cases path <;> simp [Completes]

theorem Completes.exists_cons (h : Completes p (key :: keys) path) :
    ∃ full rest, path = full :: rest := by
  cases path with
  | nil => exact h.elim
  | cons full rest => exact ⟨full, rest, rfl⟩

theorem Completes.unique {path path' : List Key}
    (h : Completes p keys path) (h' : Completes p keys path') : path = path' := by
  induction keys generalizing p path path' with
  | nil => rw [completes_nil.1 h, completes_nil.1 h']
  | cons key keys ih =>
    obtain ⟨full, path, rfl⟩ := h.exists_cons
    obtain ⟨full', path', rfl⟩ := h'.exists_cons
    obtain ⟨begins, there, first, rest⟩ := h
    obtain ⟨begins', there', first', rest'⟩ := h'
    obtain rfl : full = full' := keyCode_injective
      (le_antisymm (first full' begins' there') (first' full begins there))
    rw [ih rest rest']

/-- A known path completes itself. -/
theorem Completes.self (h : ∀ path, path ≠ [] → path <+: keys → p path) :
    Completes p keys keys := by
  induction keys generalizing p with
  | nil => trivial
  | cons key keys ih =>
    refine ⟨prefix_rfl, h [key] (by simp) (by simp), ?_, ?_⟩
    · intro other begins _
      exact keyCode_le_of_prefix begins
    · apply ih
      intro path _ hpath
      exact h (key :: path) (by simp) (cons_prefix_cons.2 ⟨rfl, hpath⟩)

theorem Completes.known (h : Completes p keys path) (nonempty : path ≠ []) : p path := by
  induction keys generalizing p path with
  | nil => exact absurd (completes_nil.1 h) nonempty
  | cons key keys ih =>
    obtain ⟨full, path, rfl⟩ := h.exists_cons
    obtain ⟨_, there, _, rest⟩ := h
    by_cases hpath : path = []
    · subst hpath
      exact there
    · have inner := ih rest hpath
      exact inner

theorem Completes.nonempty (h : Completes p keys path)
    (nonempty : keys ≠ []) : path ≠ [] := by
  cases keys with
  | nil => exact absurd rfl nonempty
  | cons key keys =>
    obtain ⟨full, rest, rfl⟩ := h.exists_cons
    simp

theorem Completes.congr {known known' : List Key → Prop}
    (h : ∀ path, path ≠ [] → (known path ↔ known' path)) :
    Completes known keys path ↔ Completes known' keys path := by
  induction keys generalizing known known' path with
  | nil => rw [completes_nil, completes_nil]
  | cons key keys ih =>
    cases path with
    | nil => rfl
    | cons full path =>
      have rest : Completes (fun rest => known (full :: rest)) keys path ↔
          Completes (fun rest => known' (full :: rest)) keys path :=
        ih fun path _ => h (full :: path) (by simp)
      unfold Completes
      rw [rest, h [full] (by simp)]
      simp only [h [_] (by simp)]

/-- The loop of a lookup takes the first child that begins with the key. -/
theorem getLoop_cons (node : CfOmNode) (key : Key) (keys : List Key) :
    getLoop (key :: keys) node =
      (node.nodv.find? fun child => strncmp key.length child.key key = .eq).bind
        (getLoop keys) := by
  rw [getLoop, cfOmGetChild, find?_eq_bind_findIdx?_getElem?]
  cases node.nodv.findIdx? fun child => strncmp key.length child.key key = .eq <;> rfl

/-- In a sorted node every child is found by its key. -/
theorem Sorted.child_key (sorted : Sorted node) {child : CfOmNode} (hc : child ∈ node.nodv) :
    node.child child.key = some child := by
  obtain ⟨front, middle, back, places⟩ := exists_places child.key sorted.order
  obtain ⟨front_lt, _, back_gt⟩ := key_of_places places
  rw [child_of_places places]
  rw [places.items, mem_append, mem_append, mem_toList] at hc
  rcases hc with (hc | hc) | hc
  · exact absurd (front_lt child hc) (lt_irrefl _)
  · exact hc
  · exact absurd (back_gt child hc) (lt_irrefl _)

theorem Sorted.nodeAt_child (sorted : Sorted node) {child : CfOmNode} (hc : child ∈ node.nodv)
    (path : List Key) : node.nodeAt (child.key :: path) = child.nodeAt path := by
  rw [CfOmNode.nodeAt, sorted.child_key hc, bind_some]

theorem mem_of_nodeAt {full : Key} (h : (node.nodeAt [full]).isSome) :
    ∃ child ∈ node.nodv, child.key = full := by
  cases hchild : node.child full with
  | none =>
    rw [CfOmNode.nodeAt, hchild] at h
    cases h
  | some child =>
    have same := find?_some hchild
    exact ⟨child, mem_of_find?_eq_some hchild, of_decide_eq_true same⟩

/-- The first child that begins with the key comes before all others that do. -/
theorem Sorted.find?_begins (sorted : Sorted node) {child : CfOmNode}
    (found : (node.nodv.find? fun child => strncmp key.length child.key key = .eq) = some child) :
    key <+: child.key ∧
      ∀ other ∈ node.nodv, key <+: other.key → keyCode child.key ≤ keyCode other.key := by
  obtain ⟨begins, before, after, split, earlier⟩ := find?_eq_some_iff_append.1 found
  refine ⟨strncmp_eq_iff.1 (of_decide_eq_true begins), fun other hother begins' => ?_⟩
  have order := sorted.order
  rw [split] at hother order
  rcases mem_append.1 hother with hother | hother
  · have differs := earlier other hother
    rw [decide_eq_true (strncmp_eq_iff.2 begins')] at differs
    cases differs
  · rcases mem_cons.1 hother with rfl | hother
    · exact le_rfl
    · exact ((pairwise_cons.1 (pairwise_append.1 order).2.1).1 other hother).le

/-- A lookup goes where the name is completed to. -/
theorem getLoop_eq_some (sorted : Sorted node) {target : CfOmNode} :
    getLoop keys node = some target ↔
      ∃ path, Completes (fun path => (node.nodeAt path).isSome) keys path ∧
        node.nodeAt path = some target := by
  induction keys generalizing node with
  | nil => simp [completes_nil, getLoop, CfOmNode.nodeAt]
  | cons key keys ih =>
    rw [getLoop_cons, bind_eq_some_iff]
    constructor
    · rintro ⟨child, found, h⟩
      have hc := mem_of_find?_eq_some found
      obtain ⟨begins, first⟩ := sorted.find?_begins found
      obtain ⟨path, completes, target_at⟩ := (ih (sorted.child child hc)).1 h
      refine ⟨child.key :: path, ⟨begins, ?_, ?_, ?_⟩, ?_⟩
      · show (node.nodeAt [child.key]).isSome
        rw [sorted.nodeAt_child hc]
        rfl
      · intro other begins' there
        obtain ⟨child', hc', rfl⟩ := mem_of_nodeAt there
        exact first child' hc' begins'
      · simpa only [sorted.nodeAt_child hc] using completes
      · rwa [sorted.nodeAt_child hc]
    · rintro ⟨path, completes, h⟩
      obtain ⟨full, path, rfl⟩ := completes.exists_cons
      obtain ⟨begins, there, first, rest⟩ := completes
      obtain ⟨child, hc, rfl⟩ := mem_of_nodeAt there
      refine ⟨child, ?_, ?_⟩
      · cases found : node.nodv.find? fun child => strncmp key.length child.key key = .eq with
        | none =>
          have := find?_eq_none.1 found child hc
          exact absurd (decide_eq_true (strncmp_eq_iff.2 begins)) this
        | some child' =>
          obtain ⟨begins', first'⟩ := sorted.find?_begins found
          have hc' := mem_of_find?_eq_some found
          have there' : (node.nodeAt [child'.key]).isSome := by
            rw [sorted.nodeAt_child hc']
            rfl
          have same : child'.key = child.key := keyCode_injective
            (le_antisymm (first' child hc begins) (first child'.key begins' there'))
          rw [← sorted.child_key hc', same, sorted.child_key hc]
      · simp only [sorted.nodeAt_child hc] at rest h
        exact (ih (sorted.child child hc)).2 ⟨path, rest, h⟩

/-- A lookup mistakes the name for another one: it completes the keys of the name to those of an
option that has a text. -/
def Mistaken (sets : List (List Byte × Option (List Byte))) (name : List Byte) : Prop :=
  ∃ path, Completes (Known sets) (keysOf name).1 path ∧ path ≠ (keysOf name).1 ∧
    lastSet sets (joinKeys path) ≠ none

variable {sets : List (List Byte × Option (List Byte))} {root : Option CfOmNode}
  {name : List Byte}

theorem Known.valid (h : Known sets path) : ∀ key ∈ path, ValidKey key := by
  obtain ⟨set, _, hpath⟩ := h
  exact fun key hkey => valid_keysOf set.1 key (hpath.subset hkey)

theorem lastSet_of_not_mem (h : ∀ set ∈ sets, set.1 ≠ name) : lastSet sets name = none := by
  induction sets using List.reverseRecOn with
  | nil => rfl
  | append_singleton sets set ih =>
    rw [forall_mem_append, forall_mem_singleton] at h
    rw [lastSet, foldl_concat, if_neg h.2, ← lastSet, ih h.1]

theorem cfOmGet_some (node : CfOmNode) (name : List Byte) : cfOmGet (some node) name =
    (getLoop (keysOf name).1 node).bind fun node =>
      if isConfigvarname name then node.text else none := by
  rw [cfOmGet, isConfigvarname]
  rcases keysOf name with ⟨keys, complete⟩
  dsimp only
  cases getLoop keys node <;> rfl

/-- A lookup finds the text of the option that the name is completed to. -/
theorem TreeSpec.cfOmGet_eq (h : TreeSpec sets root) (wellFormed : isConfigvarname name)
    (completes : Completes (Known sets) (keysOf name).1 path) :
    cfOmGet root name = lastSet sets (joinKeys path) := by
  have nonempty := completes.nonempty (joinKeys_keysOf wellFormed).1
  have known := completes.known nonempty
  obtain ⟨node, rfl, there⟩ := (h.nodes path nonempty).2 known
  obtain ⟨target, target_at⟩ := isSome_iff_exists.1 there
  have found : getLoop (keysOf name).1 node = some target := by
    rw [getLoop_eq_some (h.sorted node rfl)]
    refine ⟨path, (Completes.congr fun path hpath => ?_).2 completes, target_at⟩
    exact hasNode_some.symm.trans (h.nodes path hpath)
  rw [← h.texts path nonempty known.valid, cfOmGet_some, found, bind_some, if_pos wellFormed]
  show target.text = node.textAt path
  rw [CfOmNode.textAt, target_at]
  rfl

theorem TreeSpec.cfOmGet_eq_none (h : TreeSpec sets root)
    (missing : ∀ path, ¬Completes (Known sets) (keysOf name).1 path) :
    cfOmGet root name = none := by
  cases root with
  | none => rfl
  | some node =>
    have found : getLoop (keysOf name).1 node = none := by
      by_contra some
      obtain ⟨target, found⟩ := ne_none_iff_exists'.1 some
      obtain ⟨path, completes, _⟩ := (getLoop_eq_some (h.sorted node rfl)).1 found
      refine missing path ((Completes.congr fun path hpath => ?_).1 completes)
      exact hasNode_some.symm.trans (h.nodes path hpath)
    rw [cfOmGet_some, found, bind_none]

theorem cfOmGet_malformed (h : ¬isConfigvarname name) : cfOmGet root name = none := by
  cases root with
  | none => rfl
  | some node => simp [cfOmGet_some, h]

/-- A name that was set is completed to itself. -/
theorem completes_of_mem (h : ∃ set ∈ sets, set.1 = name) :
    Completes (Known sets) (keysOf name).1 (keysOf name).1 := by
  obtain ⟨set, hset, rfl⟩ := h
  exact .self fun path _ hpath => ⟨set, hset, hpath⟩

/-- The children of every node are strictly sorted, and a lookup returns what was last set exactly
if it does not mistake the name for another one. -/
theorem cfOmGet_treeOf_iff (wellFormed : ∀ set ∈ sets, isConfigvarname set.1) (name : List Byte) :
    RootSorted (treeOf sets) ∧
      (cfOmGet (treeOf sets) name = lastSet sets name ↔
        ¬(isConfigvarname name ∧ Mistaken sets name)) := by
  have spec := treeSpec_treeOf wellFormed
  refine ⟨spec.sorted, ?_⟩
  by_cases hname : isConfigvarname name
  · have unset (h : ¬Completes (Known sets) (keysOf name).1 (keysOf name).1) :
        lastSet sets name = none :=
      lastSet_of_not_mem fun set hset same => h (completes_of_mem ⟨set, hset, same⟩)
    by_cases hpath : ∃ path, Completes (Known sets) (keysOf name).1 path
    · obtain ⟨path, completes⟩ := hpath
      rw [spec.cfOmGet_eq hname completes]
      by_cases differs : path = (keysOf name).1
      · subst differs
        rw [(joinKeys_keysOf hname).2]
        refine iff_of_true rfl ?_
        rintro ⟨_, path, completes', differs, _⟩
        exact differs (completes'.unique completes)
      · rw [unset fun own => differs (completes.unique own)]
        constructor
        · rintro text ⟨_, path', completes', _, set⟩
          exact set (completes'.unique completes ▸ text)
        · intro sound
          by_contra set
          exact sound ⟨hname, path, completes, differs, set⟩
    · have missing := not_exists.1 hpath
      rw [spec.cfOmGet_eq_none missing, unset (missing _)]
      refine iff_of_true rfl ?_
      rintro ⟨_, path, completes, _⟩
      exact missing path completes
  · rw [cfOmGet_malformed hname, lastSet_of_not_mem fun set hset (same : set.1 = name) =>
      hname (same ▸ wellFormed set hset)]
    exact iff_of_true rfl fun h => hname h.1

/-- The options `foo` and `foobar`. -/
def fooSets : List (List Byte × Option (List Byte)) :=
  [(ascii ['f', 'o', 'o', 'b', 'a', 'r'], some (ascii ['1'])),
    (ascii ['f', 'o', 'o'], some (ascii ['2']))]

theorem cfOmGet_treeOf_foo :
    cfOmGet (treeOf fooSets) (ascii ['f', 'o', 'o']) = some (ascii ['2']) := by
  have wellFormed : ∀ set ∈ fooSets, isConfigvarname set.1 := by decide
  have exact : ¬(isConfigvarname (ascii ['f', 'o', 'o']) ∧
      Mistaken fooSets (ascii ['f', 'o', 'o'])) := by
    rintro ⟨_, path, completes, differs, _⟩
    exact differs (completes.unique (completes_of_mem ⟨_, mem_cons_of_mem _ mem_cons_self, rfl⟩))
  exact ((cfOmGet_treeOf_iff wellFormed (ascii ['f', 'o', 'o'])).2.2 exact).trans (by decide)

/-- The option `foobar` is found under the name `foo`. -/
theorem cfOmGet_longer_key :
    isConfigvarname (ascii ['f', 'o', 'o', 'b', 'a', 'r']) ∧
      cfOmGet (treeOf [(ascii ['f', 'o', 'o', 'b', 'a', 'r'], some (ascii ['1']))])
        (ascii ['f', 'o', 'o']) = some (ascii ['1']) ∧
      lastSet [(ascii ['f', 'o', 'o', 'b', 'a', 'r'], some (ascii ['1']))] (ascii ['f', 'o', 'o']) =
        none := by
  refine ⟨by decide, by decide, by decide⟩

end Lookup

end ServalMesh.Conf
