import ServalMesh.Lib.BinarySearch
import ServalMesh.Lib.Ascii
import ServalMesh.Overlay.Subscribers

/-!
# The configuration object model

Options are kept in a tree with one level for each key of their names. A child is inserted where a
binary search misses it. A lookup takes the first child that begins with the key.
-/

namespace ServalMesh.Conf

open Lib Overlay List

abbrev Key := List Byte

/-- `struct cf_om_node`. The root has neither key. -/
structure CfOmNode where
  fullkey : List Byte
  key : Key
  text : Option (List Byte)
  nodv : List CfOmNode

section Names

def dot : Byte := 0x2e#8

/-- The characters of keys. The source makes a difference for the first one, but then accepts a
digit in its place all the same. -/
def isKeyChar (c : Byte) : Bool := isAlnum c || c = 0x5f#8

/-- `cf_find_keyend`, as the length of the key. -/
def cfFindKeyend (text : List Byte) : Option ℕ :=
  let n := (text.takeWhile isKeyChar).length
  if n = 0 ∨ (n < text.length ∧ text[n]? ≠ some dot) then none else some n

/-- The loops over the keys of a name: the keys they see, and whether they see the end of the
name. -/
def keyLoop : ℕ → List Byte → List Key × Bool
  | 0, _ => ([], false)
  | fuel + 1, text =>
    match cfFindKeyend text with
    | none => ([], false)
    | some n =>
      if n = text.length then ([text.take n], true)
      else
        let rest := keyLoop fuel (text.drop (n + 1))
        (text.take n :: rest.1, rest.2)

def keysOf (fullkey : List Byte) : List Key × Bool := keyLoop (fullkey.length + 1) fullkey

def isConfigvarname (text : List Byte) : Bool := (keysOf text).2

/-- The name with the given keys. -/
def joinKeys : List Key → List Byte
  | [] => []
  | [key] => key
  | key :: keys => key ++ dot :: joinKeys keys

/-- What a key consists of. -/
def ValidKey (key : Key) : Prop := key ≠ [] ∧ ∀ c ∈ key, isKeyChar c

variable {text : List Byte} {key : Key} {keys : List Key}

theorem cfFindKeyend_eq_some {n : ℕ} (h : cfFindKeyend text = some n) :
    ValidKey (text.take n) ∧ n ≤ text.length ∧
      (n < text.length → text = text.take n ++ dot :: text.drop (n + 1)) := by
  unfold cfFindKeyend at h
  dsimp only at h
  split at h
  · cases h
  rename_i found
  cases h
  rw [not_or] at found
  have prefix_take := takeWhile_prefix isKeyChar (l := text)
  have take_eq : text.take (text.takeWhile isKeyChar).length = text.takeWhile isKeyChar :=
    (prefix_iff_eq_take.1 prefix_take).symm
  refine ⟨⟨?_, ?_⟩, prefix_take.length_le, ?_⟩
  · rw [take_eq]
    intro empty
    exact found.1 (by rw [empty]; rfl)
  · rw [take_eq]
    exact fun c => mem_takeWhile_imp
  intro lt
  have next : text[(text.takeWhile isKeyChar).length]? = some dot := by
    by_contra other
    exact found.2 ⟨lt, other⟩
  obtain ⟨_, next⟩ := List.getElem?_eq_some_iff.1 next
  rw [← next, ← List.drop_eq_getElem_cons, List.take_append_drop]

theorem takeWhile_append_dot (valid : ValidKey key) (rest : List Byte) :
    (key ++ dot :: rest).takeWhile isKeyChar = key := by
  rw [takeWhile_append_of_pos valid.2, takeWhile_cons_of_neg (by decide),
    append_nil]

theorem cfFindKeyend_append_dot (valid : ValidKey key) (rest : List Byte) :
    cfFindKeyend (key ++ dot :: rest) = some key.length := by
  unfold cfFindKeyend
  rw [takeWhile_append_dot valid]
  simp [valid.1]

theorem cfFindKeyend_key (valid : ValidKey key) : cfFindKeyend key = some key.length := by
  unfold cfFindKeyend
  rw [takeWhile_eq_self_iff.2 valid.2]
  simp [valid.1]

/-- The keys that the loops see. -/
theorem keyLoop_keys (fuel : ℕ) (text : List Byte) :
    (∀ key ∈ (keyLoop fuel text).1, ValidKey key) ∧
      ((keyLoop fuel text).2 = true →
        (keyLoop fuel text).1 ≠ [] ∧ joinKeys (keyLoop fuel text).1 = text) := by
  induction fuel generalizing text with
  | zero => exact ⟨by simp [keyLoop], by simp [keyLoop]⟩
  | succ fuel ih =>
    unfold keyLoop
    split
    · exact ⟨by simp, by simp⟩
    rename_i n found
    obtain ⟨valid, le, split⟩ := cfFindKeyend_eq_some found
    split
    case isTrue hn =>
      refine ⟨by simpa using valid, fun _ => ⟨by simp, ?_⟩⟩
      rw [hn, take_length]
      rfl
    case isFalse hn =>
      obtain ⟨valid_rest, join⟩ := ih (text.drop (n + 1))
      refine ⟨forall_mem_cons.2 ⟨valid, valid_rest⟩, fun complete => ⟨by simp, ?_⟩⟩
      obtain ⟨nonempty, join⟩ := join complete
      dsimp only
      cases hkeys : (keyLoop fuel (text.drop (n + 1))).1 with
      | nil => exact absurd hkeys nonempty
      | cons key keys =>
        rw [hkeys] at join
        show text.take n ++ dot :: joinKeys (key :: keys) = text
        rw [join]
        exact (split (by omega)).symm

theorem keyLoop_joinKeys (nonempty : keys ≠ []) (valid : ∀ key ∈ keys, ValidKey key)
    {fuel : ℕ} (hfuel : (joinKeys keys).length < fuel) :
    keyLoop fuel (joinKeys keys) = (keys, true) := by
  induction keys generalizing fuel with
  | nil => exact absurd rfl nonempty
  | cons key keys ih =>
    obtain ⟨fuel, rfl⟩ : ∃ n, fuel = n + 1 := ⟨fuel - 1, by omega⟩
    obtain ⟨valid_key, valid_keys⟩ := forall_mem_cons.1 valid
    cases keys with
    | nil =>
      show keyLoop (fuel + 1) key = _
      unfold keyLoop
      rw [cfFindKeyend_key valid_key]
      simp
    | cons key' keys =>
      have shape : joinKeys (key :: key' :: keys) = key ++ dot :: joinKeys (key' :: keys) := rfl
      rw [shape] at hfuel ⊢
      rw [length_append, length_cons] at hfuel
      unfold keyLoop
      rw [cfFindKeyend_append_dot valid_key]
      dsimp only
      rw [if_neg (by simp),
        show List.drop (key.length + 1) (key ++ dot :: joinKeys (key' :: keys)) =
        joinKeys (key' :: keys) by rw [← drop_drop]; simp,
        ih (by simp) valid_keys (by omega)]
      simp

theorem keysOf_joinKeys (nonempty : keys ≠ [])
    (valid : ∀ key ∈ keys, ValidKey key) : keysOf (joinKeys keys) = (keys, true) :=
  keyLoop_joinKeys nonempty valid (Nat.lt_succ_self _)

theorem valid_keysOf (text : List Byte) : ∀ key ∈ (keysOf text).1, ValidKey key :=
  (keyLoop_keys _ text).1

theorem joinKeys_keysOf (h : isConfigvarname text) :
    (keysOf text).1 ≠ [] ∧ joinKeys (keysOf text).1 = text :=
  (keyLoop_keys _ text).2 h

end Names

section Keys

/-- `strncmp`, where a string ends with its list. -/
def strncmp : ℕ → List Byte → List Byte → Ordering
  | 0, _, _ => .eq
  | _ + 1, [], [] => .eq
  | _ + 1, [], _ :: _ => .lt
  | _ + 1, _ :: _, [] => .gt
  | n + 1, a :: as, b :: bs =>
    if a < b then .lt else if b < a then .gt else strncmp n as bs

/-- How the binary search compares the key with that of a child. -/
def compareKey (key childKey : Key) : Ordering :=
  match strncmp key.length key childKey with
  | .eq => if key.length < childKey.length then .lt else .eq
  | c => c

/-- Keys are compared as sequences of unsigned numbers. -/
def keyCode (key : Key) : List ℕ := key.map BitVec.toNat

theorem keyCode_injective : Function.Injective keyCode :=
  map_injective_iff.2 fun _ _ h => BitVec.eq_of_toNat_eq h

theorem strncmp_eq_iff {key text : List Byte} :
    strncmp key.length text key = .eq ↔ key <+: text := by
  induction key generalizing text with
  | nil => simp [strncmp]
  | cons a key ih =>
    cases text with
    | nil => simp [strncmp]
    | cons b text =>
      rw [cons_prefix_cons, length_cons, strncmp]
      by_cases hab : a = b
      · subst hab
        simp [ih]
      have : b < a ∨ a < b := by
        rcases Nat.lt_trichotomy a.toNat b.toNat with h | h | h
        · exact .inr h
        · exact absurd (BitVec.eq_of_toNat_eq h) hab
        · exact .inl h
      rcases this with h | h
      · simp [h, hab]
      · have : ¬b < a := by bv_omega
        simp [h, this, hab]

theorem compareKey_cons (a : Byte) (key : Key) (b : Byte) (childKey : Key) :
    compareKey (a :: key) (b :: childKey) =
      if a < b then .lt else if b < a then .gt else compareKey key childKey := by
  unfold compareKey
  rw [length_cons, strncmp]
  by_cases hab : a < b
  · simp [hab]
  · by_cases hba : b < a <;> simp [hab, hba]

/-- The comparison is that of the lexicographic order. -/
theorem compareKey_spec (key childKey : Key) :
    (compareKey key childKey = .lt ∧ keyCode key < keyCode childKey) ∨
      (compareKey key childKey = .eq ∧ key = childKey) ∨
        (compareKey key childKey = .gt ∧ keyCode childKey < keyCode key) := by
  induction key generalizing childKey with
  | nil =>
    cases childKey with
    | nil => exact .inr (.inl ⟨rfl, rfl⟩)
    | cons b childKey => exact .inl ⟨rfl, List.Lex.nil⟩
  | cons a key ih =>
    cases childKey with
    | nil => exact .inr (.inr ⟨rfl, List.Lex.nil⟩)
    | cons b childKey =>
      rw [compareKey_cons]
      by_cases hab : a < b
      · rw [if_pos hab]
        exact .inl ⟨rfl, List.Lex.rel hab⟩
      rw [if_neg hab]
      by_cases hba : b < a
      · rw [if_pos hba]
        exact .inr (.inr ⟨rfl, List.Lex.rel hba⟩)
      rw [if_neg hba]
      obtain rfl : a = b := by bv_omega
      rcases ih childKey with ⟨cmp, lt⟩ | ⟨cmp, rfl⟩ | ⟨cmp, gt⟩
      · exact .inl ⟨cmp, List.Lex.cons lt⟩
      · exact .inr (.inl ⟨cmp, rfl⟩)
      · exact .inr (.inr ⟨cmp, List.Lex.cons gt⟩)

/-- A key comes before the keys that begin with it. -/
theorem keyCode_le_of_prefix {key key' : Key} (h : key <+: key') : keyCode key ≤ keyCode key' := by
  induction key generalizing key' with
  | nil => exact not_lt.1 (not_lt_nil _)
  | cons a key ih =>
    obtain ⟨rest, rfl⟩ := h
    rcases (ih (prefix_append key rest)).lt_or_eq with lt | eq
    · exact le_of_lt (List.Lex.cons lt)
    · exact le_of_eq (congrArg (a.toNat :: ·) eq)

end Keys

section Tree

/-- `cf_om_make_child`, which returns the index of the child. -/
def cfOmMakeChild (parent : CfOmNode) (fullkey : List Byte) (key : Key) : CfOmNode × ℕ :=
  match binarySearch (fun child => compareKey key child.key) parent.nodv with
  | .found i => (parent, i)
  | .missing i => ({ parent with nodv := parent.nodv.insertIdx i ⟨fullkey, key, none, []⟩ }, i)

/-- The loop of `cf_om_set` and `cf_om_parse`, which makes the nodes of a name, and the change of
the text of the last one. -/
def CfOmNode.update (change : Option (List Byte) → Option (List Byte)) :
    List Byte → List Key → CfOmNode → CfOmNode
  | _, [], node => { node with text := change node.text }
  | done, key :: keys, node =>
    let (node, i) := cfOmMakeChild node (done ++ key) key
    { node with nodv := node.nodv.modify i (update change (done ++ key ++ [dot]) keys) }

/-- The root when it is allocated. -/
def CfOmNode.zero : CfOmNode := ⟨[], [], none, []⟩

/-- The root is allocated with its first child. -/
def updateRoot (change : Option (List Byte) → Option (List Byte)) (keys : List Key)
    (root : Option CfOmNode) : Option CfOmNode :=
  match keys with
  | [] => root
  | _ => some ((root.getD .zero).update change [] keys)

/-- `cf_om_set`, which says whether the name was well-formed. -/
def cfOmSet (root : Option CfOmNode) (fullkey : List Byte) (text : Option (List Byte)) :
    Option CfOmNode × Bool :=
  let (keys, complete) := keysOf fullkey
  (updateRoot (fun old => if complete then text else old) keys root, complete)

/-- `cf_om_get_child` with the end of the key. -/
def cfOmGetChild (parent : CfOmNode) (key : Key) : Option ℕ :=
  parent.nodv.findIdx? fun child => strncmp key.length child.key key = .eq

/-- The loop of `cf_om_get`. -/
def getLoop : List Key → CfOmNode → Option CfOmNode
  | [], node => some node
  | key :: keys, node =>
    match cfOmGetChild node key with
    | none => none
    | some i => node.nodv[i]?.bind (getLoop keys)

/-- `cf_om_get`. -/
def cfOmGet (root : Option CfOmNode) (fullkey : List Byte) : Option (List Byte) :=
  match root with
  | none => none
  | some node =>
    let (keys, complete) := keysOf fullkey
    match getLoop keys node with
    | none => none
    | some node => if complete then node.text else none

end Tree

end ServalMesh.Conf
