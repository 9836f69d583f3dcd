import ServalMesh.Conf.Iterator

/-!
# Configuration files

Every option with a text is saved as a line. Parsing the lines makes the nodes of a name one by one
and then sets the text of the last one, unless it has one.
-/

namespace ServalMesh.Conf

open Lib Overlay List Option

section Definitions

def newline : Byte := 0x0a#8

def carriageReturn : Byte := 0x0d#8

def hash : Byte := 0x23#8

def equals : Byte := 0x3d#8

/-- The line of a node that has a text. -/
def optionLine (node : CfOmNode) : List Byte :=
  match node.text with
  | none => []
  | some text => node.fullkey ++ equals :: text ++ [newline]

/-- What `cf_om_save` writes. -/
def savedText (root : Option CfOmNode) : Except Abort (List Byte) :=
  match visitNodes root with
  | .error e => .error e
  | .ok nodes => .ok (nodes.flatMap optionLine)

/-- The flags of the result of `cf_om_parse`. -/
structure CfResult where
  empty : Bool
  duplicate : Bool
  invalid : Bool
deriving DecidableEq

def cfOk : CfResult := ⟨false, false, false⟩

def cfEmpty : CfResult := ⟨true, false, false⟩

/-- What becomes of a line. -/
inductive LineOutcome where
  | skipped
  | malformed
  | duplicate
  | set
deriving DecidableEq

def CfResult.after (result : CfResult) : LineOutcome → CfResult
  | .skipped => result
  | .malformed => { result with invalid := true }
  | .duplicate => { result with duplicate := true }
  | .set => { result with empty := false }

/-- The lines of a buffer, behind the beginning of the first one. -/
def linesOf : List Byte → List Byte → List (List Byte)
  | [], line => if line = [] then [] else [line]
  | c :: buf, line => if c = newline then line :: linesOf buf [] else linesOf buf (line ++ [c])

/-- A carriage return at the end is not part of a line. -/
def stripReturn (line : List Byte) : List Byte :=
  if line.getLast? = some carriageReturn then line.dropLast else line

/-- The part of a line before the first `=`. -/
def optionName (line : List Byte) : List Byte := (stripReturn line).takeWhile (· ≠ equals)

/-- A line of `cf_om_parse`. -/
def cfOmParseLine (root : Option CfOmNode) (line : List Byte) : Option CfOmNode × LineOutcome :=
  if line.head? = some hash then (root, .skipped)
  else if (stripReturn line).all isSpace then (root, .skipped)
  else if optionName line = [] ∨ (optionName line).length = (stripReturn line).length then
    (root, .malformed)
  else
    let (keys, complete) := keysOf (optionName line)
    if !complete then (updateRoot id keys root, .malformed)
    else if (rootText root keys).isSome then (updateRoot id keys root, .duplicate)
    else
      let text := ((stripReturn line).drop ((optionName line).length + 1)).takeWhile (· ≠ 0#8)
      (updateRoot (fun _ => some text) keys root, .set)

def parseStep (state : Option CfOmNode × CfResult) (line : List Byte) :
    Option CfOmNode × CfResult :=
  let (root, outcome) := cfOmParseLine state.1 line
  (root, state.2.after outcome)

/-- `cf_om_parse`. -/
def cfOmParse (buf : List Byte) (root : Option CfOmNode) : Option CfOmNode × CfResult :=
  (linesOf buf []).foldl parseStep (root, cfEmpty)

end Definitions

section Characters

theorem isKeyChar_facts : ∀ c : Byte, isKeyChar c = true ∨ c = dot →
    c ≠ equals ∧ c ≠ newline ∧ c ≠ hash ∧ isSpace c = false := by
  decide

theorem mem_joinKeys {path : List Key} (valid : ∀ key ∈ path, ValidKey key) {c : Byte}
    (hc : c ∈ joinKeys path) : isKeyChar c ∨ c = dot := by
  induction path with
  | nil => cases hc
  | cons key path ih =>
    obtain ⟨valid_key, valid_path⟩ := forall_mem_cons.1 valid
    cases path with
    | nil => exact .inl (valid_key.2 c hc)
    | cons key' path =>
      rcases mem_append.1 (show c ∈ key ++ dot :: joinKeys (key' :: path) from hc) with
        hc | hc
      · exact .inl (valid_key.2 c hc)
      · rcases mem_cons.1 hc with rfl | hc
        · exact .inr rfl
        · exact ih valid_path hc

theorem joinKeys_ne_nil {path : List Key} (nonempty : path ≠ [])
    (valid : ∀ key ∈ path, ValidKey key) : joinKeys path ≠ [] := by
  cases path with
  | nil => exact absurd rfl nonempty
  | cons key path =>
    have key_nonempty := (valid key (by simp)).1
    cases path with
    | nil => exact key_nonempty
    | cons key' path => simp [joinKeys, key_nonempty]

theorem linesOf_append {line : List Byte} (h : newline ∉ line) (start rest : List Byte) :
    linesOf (line ++ newline :: rest) start = (start ++ line) :: linesOf rest [] := by
  induction line generalizing start with
  | nil => simp [linesOf]
  | cons c line ih =>
    rw [mem_cons, not_or] at h
    rw [cons_append, linesOf, if_neg (Ne.symm h.1), ih h.2]
    simp

/-- No line has a newline. -/
theorem newline_not_mem_linesOf {buf start line : List Byte} (h : newline ∉ start)
    (hline : line ∈ linesOf buf start) : newline ∉ line := by
  induction buf generalizing start with
  | nil =>
    unfold linesOf at hline
    split at hline
    · cases hline
    · rwa [mem_singleton.1 hline]
  | cons c buf ih =>
    unfold linesOf at hline
    split at hline
    · rcases mem_cons.1 hline with rfl | hline
      · exact h
      · exact ih (by simp) hline
    case isFalse hc => exact ih (by simp [h, Ne.symm hc]) hline

theorem stripReturn_subset (line : List Byte) : ∀ c ∈ stripReturn line, c ∈ line := by
  intro c hc
  unfold stripReturn at hc
  split at hc
  · exact mem_of_mem_dropLast hc
  · exact hc

theorem stripReturn_append (name text : List Byte) :
    stripReturn (name ++ equals :: text) = name ++ equals :: stripReturn text := by
  unfold stripReturn
  cases text with
  | nil => simp [equals, carriageReturn]
  | cons c text =>
    have last : (name ++ equals :: c :: text).getLast? = (c :: text).getLast? := by
      simp [getLast?_cons]
    rw [last]
    split
    · simp
    · rfl

end Characters

section FullKeys

/-- Every child has the full key that `done` and its key make. -/
inductive FullKeys : List Byte → CfOmNode → Prop
  | mk {done : List Byte} {node : CfOmNode}
    (fullkey : ∀ child ∈ node.nodv, child.fullkey = done ++ child.key)
    (children : ∀ child ∈ node.nodv, FullKeys (done ++ child.key ++ [dot]) child) :
    FullKeys done node

variable {change : Option (List Byte) → Option (List Byte)} {done : List Byte}
  {keys path : List Key} {node : CfOmNode} {root : Option CfOmNode}

theorem update_fullkey (sorted : Sorted node) :
    (node.update change done keys).fullkey = node.fullkey := by
  cases keys with
  | nil => rfl
  | cons key keys =>
    obtain ⟨front, middle, back, places⟩ := exists_places key sorted.order
    rw [update_cons places]

theorem FullKeys.update (full : FullKeys done node) (sorted : Sorted node) :
    FullKeys done (node.update change done keys) := by
  induction keys generalizing node done with
  | nil =>
    cases full with
    | mk fullkey children => exact .mk fullkey children
  | cons key keys ih =>
    obtain ⟨front, middle, back, places⟩ := exists_places key sorted.order
    have middle_sorted := sorted.getD_middle places (done ++ key)
    have middle_key := key_getD_middle places (done ++ key)
    cases full with
    | mk fullkey children =>
      rw [places.items] at fullkey children
      have middle_full : (middle.getD ⟨done ++ key, key, none, []⟩).fullkey = done ++ key ∧
          FullKeys (done ++ key ++ [dot]) (middle.getD ⟨done ++ key, key, none, []⟩) := by
        cases middle with
        | none => exact ⟨rfl, .mk (by simp) (by simp)⟩
        | some child =>
          have child_key : child.key = key := middle_key
          have child_fullkey := fullkey child (by simp)
          have child_full := children child (by simp)
          rw [child_key] at child_fullkey child_full
          exact ⟨child_fullkey, child_full⟩
      rw [update_cons places]
      rw [forall_mem_append, forall_mem_append] at fullkey children
      refine .mk (forall_mem_append.2 ⟨fullkey.1.1, forall_mem_cons.2 ⟨?_, fullkey.2⟩⟩)
        (forall_mem_append.2 ⟨children.1.1, forall_mem_cons.2 ⟨?_, children.2⟩⟩)
      · rw [update_fullkey middle_sorted, key_update_middle sorted places]
        exact middle_full.1
      · rw [key_update_middle sorted places]
        exact ih middle_full.2 middle_sorted

/-- The full key of a node is the name with its keys. -/
theorem FullKeys.nodeAt (full : FullKeys done node) {n : CfOmNode} (nonempty : path ≠ [])
    (h : node.nodeAt path = some n) : n.fullkey = done ++ joinKeys path := by
  induction path generalizing done node with
  | nil => exact absurd rfl nonempty
  | cons key path ih =>
    obtain ⟨child, hc, rfl, at_child⟩ := nodeAt_cons_eq_some h
    cases full with
    | mk fullkey children =>
      cases path with
      | nil =>
        cases at_child
        exact fullkey _ hc
      | cons key' path =>
        rw [ih (children child hc) (by simp) at_child]
        simp [joinKeys]

/-- What holds in every tree that is made by setting options: the nodes have their full keys, and
the root has no text. -/
structure RootFull (root : Option CfOmNode) : Prop where
  sorted : RootSorted root
  full : ∀ node ∈ root, FullKeys [] node
  bare : rootText root [] = none

theorem RootFull.nonempty {text : List Byte} (h : RootFull root)
    (htext : rootText root path = some text) : path ≠ [] := by
  rintro rfl
  rw [h.bare] at htext
  cases htext

theorem RootFull.updateRoot (h : RootFull root) :
    RootFull (updateRoot change keys root) := by
  by_cases nonempty : keys = []
  · subst nonempty
    exact h
  constructor
  case sorted => exact h.sorted.updateRoot
  case full =>
    rw [updateRoot_eq root nonempty]
    intro node hnode
    cases hnode
    refine FullKeys.update ?_ h.sorted.getD_zero
    cases root with
    | none => exact .mk (by simp [CfOmNode.zero]) (by simp [CfOmNode.zero])
    | some node => exact h.full node rfl
  case bare =>
    rw [rootText_updateRoot h.sorted nonempty, if_neg (Ne.symm nonempty)]
    exact h.bare

theorem rootFull_treeOf (sets : List (List Byte × Option (List Byte))) :
    RootFull (treeOf sets) := by
  induction sets using List.reverseRecOn with
  | nil => exact ⟨nofun, nofun, rfl⟩
  | append_singleton sets set ih =>
    rw [treeOf, foldl_concat, ← treeOf]
    exact ih.updateRoot

end FullKeys

section Entries

/-- The options that have a text, in the order of the nodes. -/
def entries (root : Option CfOmNode) : List (List Key × List Byte) :=
  (rootNodes root).filterMap fun entry => entry.2.text.map fun text => (entry.1, text)

/-- The line of an option. -/
def entryLine (entry : List Key × List Byte) : List Byte := joinKeys entry.1 ++ equals :: entry.2

variable {root : Option CfOmNode} {path : List Key}

theorem mem_rootNodes (sorted : RootSorted root) {node : CfOmNode} :
    (path, node) ∈ rootNodes root ↔ ∃ top ∈ root, top.nodeAt path = some node := by
  cases root with
  | none => simp [rootNodes]
  | some top => simp [rootNodes, mem_preorder [] (sorted top rfl)]

theorem mem_entries (sorted : RootSorted root) {text : List Byte} :
    (path, text) ∈ entries root ↔ rootText root path = some text := by
  have member : (path, text) ∈ entries root ↔
      ∃ node, (path, node) ∈ rootNodes root ∧ node.text = some text := by
    simp [entries]
  rw [member, rootText, bind_eq_some_iff]
  constructor
  · rintro ⟨node, hnode, htext⟩
    obtain ⟨top, htop, at_path⟩ := (mem_rootNodes sorted).1 hnode
    exact ⟨top, htop, by rw [CfOmNode.textAt, at_path, bind_some, htext]⟩
  · rintro ⟨top, htop, htext⟩
    obtain ⟨node, at_path, htext⟩ := bind_eq_some_iff.1 htext
    exact ⟨node, (mem_rootNodes sorted).2 ⟨top, htop, at_path⟩, htext⟩

theorem nodup_entries (sorted : RootSorted root) : ((entries root).map Prod.fst).Nodup := by
  have nodes : ((rootNodes root).map Prod.fst).Nodup := by
    cases root with
    | none => exact .nil
    | some top => simpa [rootNodes] using nodup_preorder [] (sorted top rfl)
  refine List.Nodup.sublist ?_ nodes
  unfold entries
  generalize rootNodes root = list
  induction list with
  | nil => exact .slnil
  | cons entry list ih =>
    cases htext : entry.2.text with
    | none =>
      rw [filterMap_cons_none (by simp [htext])]
      exact ih.cons _
    | some text =>
      rw [filterMap_cons_some (by rw [htext]; rfl)]
      exact ih.cons_cons _

/-- The text that is saved consists of the lines of the options. -/
theorem savedText_eq (h : RootFull root)
    (depths : ∀ entry ∈ rootNodes root, entry.1.length < iteratorStack) :
    savedText root = .ok ((entries root).flatMap fun entry => entryLine entry ++ [newline]) := by
  have lines : ∀ list : List (List Key × CfOmNode),
      (∀ entry ∈ list, entry ∈ rootNodes root) →
        (list.map Prod.snd).flatMap optionLine =
          (list.filterMap fun entry => entry.2.text.map fun text => (entry.1, text)).flatMap
            fun entry => entryLine entry ++ [newline] := by
    intro list
    induction list with
    | nil => intro _; rfl
    | cons entry list ih =>
      intro members
      obtain ⟨path, node⟩ := entry
      obtain ⟨first, rest⟩ := forall_mem_cons.1 members
      cases htext : node.text with
      | none =>
        rw [filterMap_cons_none (by simp [htext]), ← ih rest]
        simp [optionLine, htext]
      | some text =>
        obtain ⟨top, htop, at_path⟩ := (mem_rootNodes h.sorted).1 first
        have nonempty := h.nonempty
          ((mem_entries h.sorted).1 (mem_filterMap.2 ⟨(path, node), first, by rw [htext]; rfl⟩))
        have fullkey := (h.full top htop).nodeAt nonempty at_path
        rw [filterMap_cons_some (by rw [htext]; rfl), flatMap_cons, ← ih rest]
        simp [optionLine, htext, fullkey, entryLine]
  unfold savedText
  rw [visitNodes_eq, if_pos depths]
  exact congrArg Except.ok (lines (rootNodes root) fun _ h => h)

end Entries

section Parse

variable {root : Option CfOmNode} {path : List Key} {text : List Byte}
  {list : List (List Key × List Byte)}

theorem optionName_entryLine (valid : ∀ key ∈ path, ValidKey key)
    (text : List Byte) : optionName (entryLine (path, text)) = joinKeys path := by
  unfold optionName entryLine
  rw [stripReturn_append, takeWhile_append_of_pos, takeWhile_cons_of_neg (by simp),
    append_nil]
  intro c hc
  exact decide_eq_true (isKeyChar_facts c (mem_joinKeys valid hc)).1

/-- The line of an option sets it. -/
theorem cfOmParseLine_entryLine (nonempty : path ≠ []) (valid : ∀ key ∈ path, ValidKey key)
    (noNul : 0#8 ∉ text) (unset : rootText root path = none) :
    cfOmParseLine root (entryLine (path, text)) =
      (updateRoot (fun _ => some (stripReturn text)) path root, .set) := by
  have name := optionName_entryLine valid text
  have name_nonempty := joinKeys_ne_nil nonempty valid
  obtain ⟨c, rest, hname⟩ := exists_cons_of_ne_nil name_nonempty
  obtain ⟨_, _, not_hash, not_space⟩ := isKeyChar_facts c
    (mem_joinKeys valid (by rw [hname]; exact mem_cons_self))
  have head : (entryLine (path, text)).head? ≠ some hash := by
    simp [entryLine, hname, not_hash]
  have blank : (stripReturn (entryLine (path, text))).all isSpace = false := by
    rw [entryLine, stripReturn_append, hname]
    simp [not_space]
  have noNul' : ∀ c ∈ stripReturn text, decide (c ≠ 0#8) = true := fun c hc =>
    decide_eq_true fun nul => noNul (nul ▸ stripReturn_subset text c hc)
  have value : ((stripReturn (entryLine (path, text))).drop ((joinKeys path).length + 1)).takeWhile
      (· ≠ 0#8) = stripReturn text := by
    rw [entryLine, stripReturn_append, ← drop_drop, drop_left]
    exact takeWhile_eq_self_iff.2 noNul'
  unfold cfOmParseLine
  rw [if_neg head, if_neg (by simp [blank]), name, if_neg, keysOf_joinKeys nonempty valid]
  · dsimp only
    rw [if_neg (by simp), if_neg (by simp [unset]), value]
  · rw [entryLine, stripReturn_append]
    simp [name_nonempty]

theorem linesOf_entries
    (h : ∀ entry ∈ list, newline ∉ entryLine entry) :
    linesOf (list.flatMap fun entry => entryLine entry ++ [newline]) [] = list.map entryLine := by
  induction list with
  | nil => rfl
  | cons entry list ih =>
    obtain ⟨first, rest⟩ := forall_mem_cons.1 h
    rw [flatMap_cons, append_assoc, singleton_append, linesOf_append first, ih rest]
    rfl

/-- What the parser makes of the lines of some options. -/
theorem parse_entries {root : Option CfOmNode}
    {result : CfResult} (sorted : RootSorted root) (nodup : (list.map Prod.fst).Nodup)
    (h : ∀ entry ∈ list, entry.1 ≠ [] ∧ (∀ key ∈ entry.1, ValidKey key) ∧ 0#8 ∉ entry.2 ∧
      rootText root entry.1 = none) :
    (∀ path, rootText ((list.map entryLine).foldl parseStep (root, result)).1 path =
        match list.find? (fun entry => entry.1 = path) with
        | some entry => some (stripReturn entry.2)
        | none => rootText root path) ∧
      ((list.map entryLine).foldl parseStep (root, result)).2 =
        if list = [] then result else { result with empty := false } := by
  induction list generalizing root result with
  | nil => exact ⟨fun _ => rfl, rfl⟩
  | cons entry list ih =>
    obtain ⟨path, text⟩ := entry
    obtain ⟨⟨nonempty, valid, noNul, unset⟩, rest⟩ := forall_mem_cons.1 h
    rw [map_cons, nodup_cons] at nodup
    have step : parseStep (root, result) (entryLine (path, text)) =
        (updateRoot (fun _ => some (stripReturn text)) path root,
          { result with empty := false }) := by
      unfold parseStep
      rw [cfOmParseLine_entryLine nonempty valid noNul unset]
      rfl
    have other : ∀ entry ∈ list, entry.1 ≠ path := by
      intro entry hentry same
      exact nodup.1 (mem_map.2 ⟨entry, hentry, same⟩)
    have updated (path') : rootText (updateRoot (fun _ => some (stripReturn text)) path root)
        path' = if path' = path then some (stripReturn text) else rootText root path' :=
      rootText_updateRoot sorted nonempty
    obtain ⟨texts, flags⟩ := @ih (updateRoot (fun _ => some (stripReturn text)) path root)
      { result with empty := false } sorted.updateRoot nodup.2 fun entry hentry => by
        obtain ⟨nonempty', valid', noNul', unset'⟩ := rest entry hentry
        exact ⟨nonempty', valid', noNul', by rw [updated, if_neg (other entry hentry), unset']⟩
    rw [map_cons, foldl_cons, step]
    constructor
    · intro path'
      rw [texts path', updated]
      by_cases same : path' = path
      · subst same
        have later : list.find? (fun entry => entry.1 = path') = none := by
          rw [find?_eq_none]
          intro entry hentry
          simpa using other entry hentry
        rw [later, find?_cons_of_pos (by simp), if_pos rfl]
      · rw [find?_cons_of_neg (by simpa using Ne.symm same), if_neg same]
    · rw [flags, if_neg (cons_ne_nil _ _)]
      by_cases last : list = []
      · rw [if_pos last]
      · rw [if_neg last]

end Parse

section RoundTrip

variable {root : Option CfOmNode} {sets : List (List Byte × Option (List Byte))} {line : List Byte}

/-- The tree is saved after visiting every node in pre-order, and what is saved is parsed as a tree
with the same texts. -/
def RoundTrips (root : Option CfOmNode) : Prop :=
  visitNodes root = .ok ((rootNodes root).map Prod.snd) ∧
    ∃ buf, savedText root = .ok buf ∧
      (∀ path, rootText (cfOmParse buf none).1 path = rootText root path) ∧
      (((∃ path, rootText root path ≠ none) ∧ (cfOmParse buf none).2 = cfOk) ∨
        (∀ path, rootText root path = none) ∧ (cfOmParse buf none).2 = cfEmpty)

/-- The text fits on a line. -/
def FitsLine (text : List Byte) : Prop :=
  newline ∉ text ∧ text.getLast? ≠ some carriageReturn

theorem stripReturn_eq_self_iff (text : List Byte) :
    stripReturn text = text ↔ text.getLast? ≠ some carriageReturn := by
  unfold stripReturn
  split
  case isTrue last =>
    refine iff_of_false (fun same => ?_) (fun h => h last)
    have lengths := congrArg List.length same
    have := length_pos_of_mem (mem_of_getLast? last)
    rw [length_dropLast] at lengths
    omega
  case isFalse last => exact iff_of_true rfl last

/-- The text of a line with an option. -/
def optionText (line : List Byte) : List Byte :=
  ((stripReturn line).drop ((optionName line).length + 1)).takeWhile (· ≠ 0#8)

/-- The keys whose nodes are made for a line. -/
def madeKeys (line : List Byte) : List Key :=
  if (optionName line).length = (stripReturn line).length then [] else (keysOf (optionName line)).1

/-- What a line does to the tree. -/
theorem cfOmParseLine_cases (root : Option CfOmNode) (line : List Byte) :
    cfOmParseLine root line = (root, .skipped) ∨
      cfOmParseLine root line = (updateRoot id (madeKeys line) root, .malformed) ∨
        (rootText root (madeKeys line)).isSome ∧
          cfOmParseLine root line = (updateRoot id (madeKeys line) root, .duplicate) ∨
        madeKeys line ≠ [] ∧ cfOmParseLine root line =
          (updateRoot (fun _ => some (optionText line)) (madeKeys line) root, .set) := by
  unfold cfOmParseLine
  split
  · exact .inl rfl
  split
  · exact .inl rfl
  split
  case isTrue empty =>
    have none_made : madeKeys line = [] := by
      unfold madeKeys
      split
      · rfl
      case isFalse long =>
        rw [empty.resolve_right long]
        rfl
    rw [none_made]
    exact .inr (.inl rfl)
  case isFalse option =>
    have made : madeKeys line = (keysOf (optionName line)).1 :=
      if_neg fun long => option (.inr long)
    dsimp only
    rw [← made]
    split
    · exact .inr (.inl rfl)
    case isFalse complete =>
      split
      case isTrue there => exact .inr (.inr (.inl ⟨there, rfl⟩))
      case isFalse =>
        refine .inr (.inr (.inr ⟨?_, rfl⟩))
        rw [made]
        exact (joinKeys_keysOf (by simpa [isConfigvarname] using complete)).1

theorem newline_not_mem_optionText (h : newline ∉ line) :
    newline ∉ optionText line := by
  intro member
  have in_rest := mem_of_mem_drop ((takeWhile_subset _) member)
  exact h (stripReturn_subset line _ in_rest)

theorem rootText_updateRoot_id (sorted : RootSorted root) (keys path : List Key) :
    rootText (updateRoot id keys root) path = rootText root path := by
  by_cases nonempty : keys = []
  · subst nonempty
    rfl
  rw [rootText_updateRoot sorted nonempty]
  by_cases same : path = keys
  · rw [if_pos same, same]
    rfl
  · rw [if_neg same]

/-- The tree stays sorted, and a line without newline brings no text with one. -/
theorem parseStep_texts {state : Option CfOmNode × CfResult}
    (sorted : RootSorted state.1) :
    RootSorted (parseStep state line).1 ∧
      (newline ∉ line → (∀ path text, rootText state.1 path = some text → newline ∉ text) →
        ∀ path text, rootText (parseStep state line).1 path = some text → newline ∉ text) := by
  unfold parseStep
  rcases cfOmParseLine_cases state.1 line with step | step | ⟨_, step⟩ | ⟨nonempty, step⟩
  · rw [step]
    exact ⟨sorted, fun _ texts => texts⟩
  iterate 2
    rw [step]
    refine ⟨sorted.updateRoot, fun _ texts path text htext => texts path text ?_⟩
    exact (rootText_updateRoot_id sorted _ path).symm.trans htext
  · rw [step]
    refine ⟨sorted.updateRoot, fun noNewline texts path text htext => ?_⟩
    have updated := (rootText_updateRoot sorted nonempty).symm.trans htext
    by_cases same : path = madeKeys line
    · rw [if_pos same] at updated
      cases updated
      exact newline_not_mem_optionText noNewline
    · rw [if_neg same] at updated
      exact texts path text updated

/-- The tree stays sorted, and the texts that are parsed have no newline. -/
theorem parse_texts (lines : List (List Byte)) {state : Option CfOmNode × CfResult}
    (sorted : RootSorted state.1) :
    RootSorted (lines.foldl parseStep state).1 ∧
      ((∀ line ∈ lines, newline ∉ line) →
        (∀ path text, rootText state.1 path = some text → newline ∉ text) →
        ∀ path text, rootText (lines.foldl parseStep state).1 path = some text →
          newline ∉ text) := by
  induction lines generalizing state with
  | nil => exact ⟨sorted, fun _ texts => texts⟩
  | cons line lines ih =>
    obtain ⟨sorted', texts'⟩ := @parseStep_texts line state sorted
    obtain ⟨sorted'', texts''⟩ := ih sorted'
    refine ⟨sorted'', fun h texts => ?_⟩
    obtain ⟨first, rest⟩ := forall_mem_cons.1 h
    exact texts'' rest (texts' first texts)

theorem rootSorted_none : RootSorted none := nofun

/-- The options of a tree with names and texts that have no NUL. -/
structure Writable (root : Option CfOmNode) : Prop extends RootFull root where
  valid : ∀ path text, rootText root path = some text → ∀ key ∈ path, ValidKey key
  noNul : ∀ path text, rootText root path = some text → 0#8 ∉ text

section

variable (h : Writable root) (lines : ∀ path text, rootText root path = some text → newline ∉ text)
include h lines

theorem Writable.newline_entryLine :
    ∀ entry ∈ entries root, newline ∉ entryLine entry := by
  rintro ⟨path, text⟩ hentry
  have htext := (mem_entries h.sorted).1 hentry
  rw [entryLine, mem_append, mem_cons, not_or, not_or]
  refine ⟨fun member => ?_, by decide, lines path text htext⟩
  exact (isKeyChar_facts _ (mem_joinKeys (h.valid path text htext) member)).2.1 rfl

/-- What is parsed if no text has a newline: the same texts without a carriage return at the end. -/
theorem Writable.cfOmParse :
    (∀ path, rootText (cfOmParse ((entries root).flatMap fun entry => entryLine entry ++ [newline])
        none).1 path = (rootText root path).map stripReturn) ∧
      (Conf.cfOmParse ((entries root).flatMap fun entry => entryLine entry ++ [newline]) none).2 =
        if entries root = [] then cfEmpty else cfOk := by
  have options : ∀ entry ∈ entries root, entry.1 ≠ [] ∧ (∀ key ∈ entry.1, ValidKey key) ∧
      0#8 ∉ entry.2 ∧ rootText none entry.1 = none := by
    rintro ⟨path, text⟩ hentry
    have htext := (mem_entries h.sorted).1 hentry
    exact ⟨h.nonempty htext, h.valid path text htext, h.noNul path text htext, rfl⟩
  obtain ⟨texts, flags⟩ := @parse_entries (entries root) none cfEmpty rootSorted_none
    (nodup_entries h.sorted) options
  unfold Conf.cfOmParse
  rw [linesOf_entries (h.newline_entryLine lines)]
  refine ⟨fun path => ?_, flags⟩
  rw [texts path]
  cases found : (entries root).find? fun entry => entry.1 = path with
  | none =>
    cases htext : rootText root path with
    | none => rfl
    | some text =>
      have missing := find?_eq_none.1 found (path, text) ((mem_entries h.sorted).2 htext)
      simp at missing
  | some entry =>
    obtain ⟨path', text⟩ := entry
    have same := find?_some found
    obtain rfl : path' = path := of_decide_eq_true same
    rw [(mem_entries h.sorted).1 (mem_of_find?_eq_some found)]
    rfl

end

theorem entries_eq_nil_iff (sorted : RootSorted root) :
    entries root = [] ↔ ∀ path, rootText root path = none := by
  constructor
  · intro empty path
    cases htext : rootText root path with
    | none => rfl
    | some text =>
      have member := (mem_entries sorted).2 htext
      rw [empty] at member
      cases member
  · intro none_set
    rw [eq_nil_iff_forall_not_mem]
    rintro ⟨path, text⟩ hentry
    have htext := (mem_entries sorted).1 hentry
    rw [none_set] at htext
    cases htext

/-- A tree survives a round trip exactly if it fits the stack of the iterator and its texts fit on
lines. -/
theorem Writable.roundTrips_iff (h : Writable root) :
    RoundTrips root ↔ (∀ entry ∈ rootNodes root, entry.1.length < iteratorStack) ∧
      ∀ path text, rootText root path = some text → FitsLine text := by
  constructor
  · rintro ⟨visited, buf, saved, texts, _⟩
    have depths : ∀ entry ∈ rootNodes root, entry.1.length < iteratorStack := by
      by_contra deep
      rw [visitNodes_eq, if_neg deep] at visited
      cases visited
    have lines : ∀ path text, rootText root path = some text → newline ∉ text :=
      fun path text htext => (parse_texts _ rootSorted_none).2
        (fun _ => newline_not_mem_linesOf not_mem_nil) (by rintro _ _ ⟨⟩) path text
        ((texts path).trans htext)
    refine ⟨depths, fun path text htext => ⟨lines path text htext, ?_⟩⟩
    rw [savedText_eq h.toRootFull depths] at saved
    cases saved
    have parsed := (h.cfOmParse lines).1 path
    rw [texts path, htext] at parsed
    exact (stripReturn_eq_self_iff text).1 (Option.some.inj parsed).symm
  · rintro ⟨depths, fits⟩
    have lines : ∀ path text, rootText root path = some text → newline ∉ text :=
      fun path text htext => (fits path text htext).1
    obtain ⟨texts, flags⟩ := h.cfOmParse lines
    refine ⟨by rw [visitNodes_eq, if_pos depths], _, savedText_eq h.toRootFull depths, ?_, ?_⟩
    · intro path
      rw [texts path]
      cases htext : rootText root path with
      | none => rfl
      | some text => exact congrArg some ((stripReturn_eq_self_iff text).2 (fits path text htext).2)
    · rw [flags]
      by_cases empty : entries root = []
      · exact .inr ⟨(entries_eq_nil_iff h.sorted).1 empty, if_pos empty⟩
      · refine .inl ⟨?_, if_neg empty⟩
        by_contra none_set
        exact empty ((entries_eq_nil_iff h.sorted).2 (by simpa using none_set))

theorem exists_of_lastSet {name text : List Byte} (h : lastSet sets name = some text) :
    ∃ set ∈ sets, set.1 = name ∧ set.2 = some text := by
  induction sets using List.reverseRecOn with
  | nil => cases h
  | append_singleton sets set ih =>
    rw [lastSet, foldl_concat] at h
    split at h
    case isTrue same => exact ⟨set, by simp, same, h⟩
    case isFalse =>
      obtain ⟨other, hother, same, htext⟩ := ih h
      exact ⟨other, mem_append_left _ hother, same, htext⟩

theorem rootText_isSome_hasNode {path : List Key} {text : List Byte}
    (h : rootText root path = some text) : HasNode root path := by
  obtain ⟨node, hnode, htext⟩ := bind_eq_some_iff.1 h
  obtain ⟨target, at_path, _⟩ := bind_eq_some_iff.1 htext
  exact ⟨node, hnode, by rw [at_path]; rfl⟩

section

variable (wellFormed : ∀ set ∈ sets, isConfigvarname set.1)
include wellFormed

theorem writable_treeOf
    (strings : ∀ set ∈ sets, ∀ text ∈ set.2, 0#8 ∉ text) : Writable (treeOf sets) := by
  have spec := treeSpec_treeOf wellFormed
  have full := rootFull_treeOf sets
  have known : ∀ path text, rootText (treeOf sets) path = some text →
      path ≠ [] ∧ Known sets path := by
    intro path text htext
    have nonempty := full.nonempty htext
    exact ⟨nonempty, (spec.nodes path nonempty).1 (rootText_isSome_hasNode htext)⟩
  refine ⟨full, fun path text htext => (known path text htext).2.valid, ?_⟩
  intro path text htext
  obtain ⟨nonempty, is_known⟩ := known path text htext
  rw [spec.texts path nonempty is_known.valid] at htext
  obtain ⟨set, hset, _, same⟩ := exists_of_lastSet htext
  exact strings set hset text same

/-- The nodes are as deep as the names have keys. -/
theorem depth_treeOf_iff :
    (∀ entry ∈ rootNodes (treeOf sets), entry.1.length < iteratorStack) ↔
      ∀ set ∈ sets, (keysOf set.1).1.length < iteratorStack := by
  have spec := treeSpec_treeOf wellFormed
  constructor
  · intro depths set hset
    have nonempty := (joinKeys_keysOf (wellFormed set hset)).1
    obtain ⟨top, htop, there⟩ := (spec.nodes _ nonempty).2 ⟨set, hset, prefix_rfl⟩
    obtain ⟨node, at_path⟩ := isSome_iff_exists.1 there
    exact depths _ ((mem_rootNodes spec.sorted).2 ⟨top, htop, at_path⟩)
  · rintro names ⟨path, node⟩ hentry
    obtain ⟨top, htop, at_path⟩ := (mem_rootNodes spec.sorted).1 hentry
    by_cases nonempty : path = []
    · subst nonempty
      exact Nat.zero_lt_succ _
    · obtain ⟨set, hset, hpath⟩ := (spec.nodes path nonempty).1 ⟨top, htop, by rw [at_path]; rfl⟩
      exact hpath.length_le.trans_lt (names set hset)

/-- A name with more keys than the stack has room for stops the iterator. -/
theorem savedText_deep {set : List Byte × Option (List Byte)} (hset : set ∈ sets)
    (deep : iteratorStack ≤ (keysOf set.1).1.length) :
    savedText (treeOf sets) = .error .outOfBounds := by
  unfold savedText
  rw [visitNodes_eq, if_neg]
  intro depths
  exact absurd ((depth_treeOf_iff wellFormed).1 depths set hset) (Nat.not_lt.2 deep)

end

theorem update_id {node : CfOmNode} {done : List Byte} {keys : List Key} (sorted : Sorted node)
    (there : (node.nodeAt keys).isSome) : node.update id done keys = node := by
  induction keys generalizing node done with
  | nil =>
    cases node
    rfl
  | cons key keys ih =>
    obtain ⟨target, at_path⟩ := isSome_iff_exists.1 there
    obtain ⟨child, hc, rfl, at_child⟩ := nodeAt_cons_eq_some at_path
    obtain ⟨front, middle, back, places⟩ := exists_places child.key sorted.order
    have middle_eq := (child_of_places places).symm.trans (sorted.child_key hc)
    subst middle_eq
    have items : node.nodv = front ++ child :: back := by simpa using places.items
    rw [update_cons places, getD_some,
      ih (sorted.child child hc) (by rw [at_child]; rfl), ← items]
    cases node
    rfl

/-- Making the nodes of a path changes the tree unless they are there. -/
theorem updateRoot_id_iff (sorted : RootSorted root) (keys : List Key) :
    updateRoot id keys root = root ↔ keys = [] ∨ HasNode root keys := by
  by_cases nonempty : keys = []
  · subst nonempty
    exact iff_of_true rfl (.inl rfl)
  constructor
  · intro same
    have made : HasNode (updateRoot id keys root) keys :=
      (hasNode_updateRoot sorted nonempty).2 (.inr prefix_rfl)
    rw [same] at made
    exact .inr made
  · intro there
    obtain ⟨node, rfl, at_path⟩ := there.resolve_left nonempty
    rw [updateRoot_eq _ nonempty, getD_some, update_id (sorted node rfl) at_path]

theorem texts_treeOf_iff (wellFormed : ∀ set ∈ sets, isConfigvarname set.1) (P : List Byte → Prop) :
    (∀ path text, rootText (treeOf sets) path = some text → P text) ↔
      ∀ name text, lastSet sets name = some text → P text := by
  have spec := treeSpec_treeOf wellFormed
  have full := rootFull_treeOf sets
  constructor
  · intro texts name text htext
    obtain ⟨set, hset, rfl, _⟩ := exists_of_lastSet htext
    obtain ⟨nonempty, join⟩ := joinKeys_keysOf (wellFormed set hset)
    refine texts (keysOf set.1).1 text ?_
    rwa [spec.texts _ nonempty (valid_keysOf set.1), join]
  · intro texts path text htext
    have nonempty := full.nonempty htext
    have known := (spec.nodes path nonempty).1 (rootText_isSome_hasNode htext)
    rw [spec.texts path nonempty known.valid] at htext
    exact texts _ text htext

/-- The tree after some lines of a file. -/
def parsedTree (lines : List (List Byte)) : Option CfOmNode :=
  (lines.foldl parseStep (none, cfEmpty)).1

/-- A tree is saved and parsed back exactly if its names have fewer keys than the iterator has room
for, and its texts neither have a newline nor end with a carriage return. A line that is a duplicate
leaves the tree as it is, and a malformed one does so exactly if it makes no new nodes. -/
theorem cfOmParse_savedText_iff (wellFormed : ∀ set ∈ sets, isConfigvarname set.1)
    (strings : ∀ set ∈ sets, ∀ text ∈ set.2, 0#8 ∉ text) (before : List (List Byte))
    (line : List Byte) :
    (RoundTrips (treeOf sets) ↔
      (∀ set ∈ sets, (keysOf set.1).1.length < iteratorStack) ∧
        ∀ name text, lastSet sets name = some text → FitsLine text) ∧
      ((cfOmParseLine (parsedTree before) line).2 = .duplicate →
        (cfOmParseLine (parsedTree before) line).1 = parsedTree before) ∧
      ((cfOmParseLine (parsedTree before) line).2 = .malformed →
        ((cfOmParseLine (parsedTree before) line).1 = parsedTree before ↔
          madeKeys line = [] ∨ HasNode (parsedTree before) (madeKeys line))) := by
  have sorted : RootSorted (parsedTree before) := (parse_texts before rootSorted_none).1
  constructor
  · rw [(writable_treeOf wellFormed strings).roundTrips_iff, depth_treeOf_iff wellFormed,
      texts_treeOf_iff wellFormed]
  rcases cfOmParseLine_cases (parsedTree before) line with step | step | ⟨there, step⟩ | ⟨_, step⟩
  all_goals rw [step]
  · exact ⟨nofun, nofun⟩
  · exact ⟨nofun, fun _ => updateRoot_id_iff sorted _⟩
  · obtain ⟨text, htext⟩ := isSome_iff_exists.1 there
    refine ⟨fun _ => ?_, nofun⟩
    exact (updateRoot_id_iff sorted _).2 (.inr (rootText_isSome_hasNode htext))
  · exact ⟨nofun, nofun⟩

/-- Options below the same node and beside it, not in the order in which they are saved. -/
def siblingSets : List (List Byte × Option (List Byte)) :=
  [(ascii ['b'], some (ascii ['3'])), (ascii ['a', '.', 'c'], some (ascii ['2'])),
    (ascii ['a', '.', 'b'], some (ascii ['1']))]

theorem cfOmParse_savedText_siblings :
    savedText (treeOf siblingSets) = .ok (ascii ['a', '.', 'b', '=', '1', '\n', 'a', '.', 'c', '=',
      '2', '\n', 'b', '=', '3', '\n']) ∧
      RoundTrips (treeOf siblingSets) ∧
      (cfOmParseLine (parsedTree [ascii ['a', '=', '1']]) (ascii ['a', '.', '=', '2'])).1 =
        parsedTree [ascii ['a', '=', '1']] := by
  have wellFormed : ∀ set ∈ siblingSets, isConfigvarname set.1 := by decide
  have strings : ∀ set ∈ siblingSets, ∀ text ∈ set.2, 0#8 ∉ text := by decide
  obtain ⟨roundTrips, _, malformed⟩ := cfOmParse_savedText_iff wellFormed strings
    [ascii ['a', '=', '1']] (ascii ['a', '.', '=', '2'])
  refine ⟨by decide, roundTrips.2 ⟨by decide, ?_⟩, ?_⟩
  · intro name text htext
    obtain ⟨set, hset, _, same⟩ := exists_of_lastSet htext
    have fits : ∀ set ∈ siblingSets, ∀ text ∈ set.2, newline ∉ text ∧
        text.getLast? ≠ some carriageReturn := by
      decide
    exact fits set hset text same
  · exact (malformed (by decide)).2 (.inr ⟨_, rfl, by decide⟩)

end RoundTrip

section Counterexample

/-- The name with twenty keys `a`. -/
def deepName : List Byte := joinKeys (List.replicate 20 (ascii ['a']))

/-- A text with a newline is cut, a name with twenty keys runs over the stack of the iterator, and
the malformed option `foo.` leaves a node behind. -/
theorem cfOmParse_savedText_fails :
    savedText (treeOf [(ascii ['a'], some (ascii ['x', '\n', 'y']))]) =
        .ok (ascii ['a', '=', 'x', '\n', 'y', '\n']) ∧
      cfOmGet (cfOmParse (ascii ['a', '=', 'x', '\n', 'y', '\n']) none).1 (ascii ['a']) =
        some (ascii ['x']) ∧
      isConfigvarname deepName ∧
      savedText (treeOf [(deepName, some [])]) = .error .outOfBounds ∧
      (cfOmParseLine none (ascii ['f', 'o', 'o', '.', '=', '1'])).2 = .malformed ∧
      (cfOmParseLine none (ascii ['f', 'o', 'o', '.', '=', '1'])).1.isSome := by
  have keys : keysOf deepName = (List.replicate 20 (ascii ['a']), true) := by
    refine keysOf_joinKeys (by decide) fun key hkey => ?_
    rw [eq_of_mem_replicate hkey]
    exact ⟨by decide, by decide⟩
  have wellFormed : isConfigvarname deepName := by
    rw [isConfigvarname, keys]
  refine ⟨by decide, by decide, wellFormed, ?_, by decide, by decide⟩
  refine savedText_deep (by simpa using wellFormed) mem_cons_self ?_
  exact le_rfl

end Counterexample

end ServalMesh.Conf
