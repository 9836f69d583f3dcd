import ServalMesh.Conf.Tree

/-!
# Patterns of option names

The keys of a name are matched with those of a pattern one by one. A `*` stands for any key, and a
`**` at the end for one or more keys.
-/

namespace ServalMesh.Conf

open Lib Overlay List

section Model

def star : Byte := 0x2a#8

/-- `cf_find_keypattern_end`, as the length of the key. -/
def cfFindKeypatternEnd (text : List Byte) : Option ℕ :=
  match cfFindKeyend text with
  | some n => some n
  | none =>
    let n := if text.head? = some star then 1 else 0
    let n := if n + 1 = text.length ∧ text[n]? = some star then n + 1 else n
    if n = 0 ∨ (n < text.length ∧ text[n]? ≠ some dot) then none else some n

def patternLoop : ℕ → List Byte → Bool
  | 0, _ => false
  | fuel + 1, text =>
    match cfFindKeypatternEnd text with
    | none => false
    | some n => n = text.length || patternLoop fuel (text.drop (n + 1))

def isConfigvarpattern (text : List Byte) : Bool := patternLoop (text.length + 1) text

/-- How many characters two strings have in common before they differ. -/
def commonLength : List Byte → List Byte → ℕ
  | a :: as, b :: bs => if a = b then commonLength as bs + 1 else 0
  | _, _ => 0

/-- The loop of `cf_om_match`, with what is left of the pattern and of the name. The end of the last
key is what was left there, or `none` if there was no key. -/
def matchLoop (pat key : List Byte) (keyend : Option (List Byte)) : ℤ :=
  if pat = [] then if keyend = some [] then 1 else 0
  else
    match cfFindKeyend key with
    | none => 0
    | some k =>
      match cfFindKeypatternEnd pat with
      | none => -1
      | some p =>
        let n := commonLength (pat.take p) key
        if pat.head? = some star ∧ pat[1]? = some star then 1
        else if pat.head? ≠ some star ∧ (n ≠ p ∨ n ≠ k) then 0
        else matchLoop (pat.drop (p + 1)) (key.drop (k + 1)) (some (key.drop k))
termination_by pat.length
decreasing_by
  have := length_pos_of_ne_nil ‹pat ≠ []›
  simp only [length_drop]
  omega

/-- `cf_om_match`. The root is the node without a full key. -/
def cfOmMatch (pattern : List Byte) : Option CfOmNode → ℤ
  | none => 0
  | some node =>
    if node.fullkey = [] then 0
    else if pattern = [] then -1
    else matchLoop pattern node.fullkey none

end Model

/-- The keys match those of a pattern. -/
def matchesKeys : List Key → List Key → Bool
  | [], keys => keys = []
  | _ :: _, [] => false
  | pat :: pats, key :: keys =>
    (pats = [] ∧ pat = [star, star]) || ((pat = [star] ∨ pat = key) && matchesKeys pats keys)

section Keys

variable {text : List Byte} {n : ℕ} {pat key : Key} {ptail ktail : List Byte}

/-- What can come behind a key. -/
def IsTail (tail : List Byte) : Prop := tail = [] ∨ ∃ rest, tail = dot :: rest

theorem cfFindKeyend_split (h : cfFindKeyend text = some n) :
    ∃ key tail, text = key ++ tail ∧ key.length = n ∧ ValidKey key ∧ IsTail tail := by
  obtain ⟨valid, le, split⟩ := cfFindKeyend_eq_some h
  refine ⟨text.take n, text.drop n, (take_append_drop ..).symm, length_take_of_le le, valid, ?_⟩
  rcases le.eq_or_lt with rfl | lt
  · exact .inl (drop_length ..)
  · refine .inr ⟨text.drop (n + 1), append_cancel_left ((take_append_drop n text).trans (split lt))⟩

/-- A key of a pattern that has this behind it. -/
def PatternKey (pat : Key) (tail : List Byte) : Prop :=
  ValidKey pat ∨ pat = [star] ∨ pat = [star, star] ∧ tail = []

theorem cfFindKeypatternEnd_split (h : cfFindKeypatternEnd text = some n) :
    ∃ pat tail, text = pat ++ tail ∧ pat.length = n ∧ PatternKey pat tail ∧ IsTail tail := by
  unfold cfFindKeypatternEnd at h
  split at h
  case h_1 found =>
    cases h
    obtain ⟨key, tail, eq, length, valid, ends⟩ := cfFindKeyend_split found
    exact ⟨key, tail, eq, length, .inl valid, ends⟩
  case h_2 =>
    rcases text with _ | ⟨a, _ | ⟨b, rest⟩⟩
    · simp at h
    all_goals
      by_cases ha : a = star
      swap
      · simp [ha] at h
      subst ha
    · exact ⟨[star], [], rfl, by simpa using h, .inr (.inl rfl), .inl rfl⟩
    · by_cases whole : rest = [] ∧ b = star
      · obtain ⟨rfl, rfl⟩ := whole
        exact ⟨[star, star], [], rfl, by simpa using h, .inr (.inr ⟨rfl, rfl⟩), .inl rfl⟩
      · simp at h
        rw [if_neg whole] at h
        obtain ⟨rfl, rfl⟩ : b = dot ∧ 1 = n := by simpa using h
        exact ⟨[star], dot :: rest, rfl, rfl, .inr (.inl rfl), .inr ⟨rest, rfl⟩⟩

theorem dot_not_mem (h : PatternKey pat ptail) : dot ∉ pat := by
  rcases h with h | rfl | ⟨rfl, -⟩
  · exact fun hdot => absurd (h.2 dot hdot) (by decide)
  · decide
  · decide

theorem commonLength_eq_length {a b : List Byte} : commonLength a b = a.length ↔ a <+: b := by
  induction a generalizing b with
  | nil => simp [commonLength]
  | cons c a ih =>
    cases b with
    | nil => simp [commonLength]
    | cons d b =>
      rw [commonLength, cons_prefix_cons, ← ih]
      split_ifs with same <;> simp [same]

/-- The characters agree up to both ends if the keys are the same. -/
theorem commonLength_iff : commonLength pat (key ++ ktail) = pat.length ∧
    commonLength pat (key ++ ktail) = key.length ↔ pat = key := by
  constructor
  · rintro ⟨same, same'⟩
    have eq := prefix_iff_eq_take.1 (commonLength_eq_length.1 same)
    rwa [← same, same', take_left] at eq
  · rintro rfl
    have same := commonLength_eq_length.2 (prefix_append pat ktail)
    exact ⟨same, same⟩

/-- A round of the loop. -/
theorem matchLoop_step (hp : cfFindKeypatternEnd (pat ++ ptail) = some pat.length)
    (hk : cfFindKeyend (key ++ ktail) = some key.length) (hpat : PatternKey pat ptail)
    (ends : IsTail ptail) (keyend : Option (List Byte)) :
    matchLoop (pat ++ ptail) (key ++ ktail) keyend =
      if pat = [star, star] then 1
      else if pat = [star] ∨ pat = key then
        matchLoop (ptail.drop 1) (ktail.drop 1) (some ktail)
      else 0 := by
  have nonempty : pat ++ ptail ≠ [] := by
    intro empty
    rw [empty] at hp
    cases hp
  rw [matchLoop, if_neg nonempty, hk, hp]
  simp only [take_left, ← drop_drop, drop_left, ← not_and_or, commonLength_iff]
  rcases hpat with valid | rfl | ⟨rfl, rfl⟩
  · have absent : star ∉ pat := fun h => absurd (valid.2 star h) (by decide)
    have head : pat.head? ≠ some star := fun first => absent (mem_of_mem_head? first)
    have one : pat ≠ [star] := fun h => absent (by simp [h])
    have two : pat ≠ [star, star] := fun h => absent (by simp [h])
    simp [head, one, two, valid.1]
  · rcases ends with rfl | ⟨rest, rfl⟩ <;> simp [dot, star]
  · simp

/-- The keys behind a key. -/
def tailKeys (tail : List Byte) : List Key := if tail = [] then [] else (tail.drop 1).splitOn dot

theorem splitOn_append (h : PatternKey pat ptail) (ends : IsTail ptail) :
    (pat ++ ptail).splitOn dot = pat :: tailKeys ptail := by
  rcases ends with rfl | ⟨rest, rfl⟩
  · rw [append_nil, splitOn_eq_singleton (dot_not_mem h)]
    rfl
  · exact splitOn_append_cons_self_of_not_mem (dot_not_mem h) rest

theorem matchesKeys_nil (pats : List Key) : matchesKeys pats [] = decide (pats = []) := by
  cases pats <;> rfl

theorem matchLoop_nil {keyend : Option (List Byte)} (nonempty : text ≠ []) :
    matchLoop text [] keyend = 0 := by
  rw [matchLoop, if_neg nonempty]
  rfl

/-- Matching ends with whether the keys match. -/
theorem matchLoop_eq {f g : ℕ} {pattern name : List Byte} (hpattern : patternLoop f pattern = true)
    (hname : (keyLoop g name).2 = true) (keyend : Option (List Byte)) :
    matchLoop pattern name keyend =
      if matchesKeys (pattern.splitOn dot) (name.splitOn dot) then 1 else 0 := by
  induction f generalizing pattern name g keyend with
  | zero => cases hpattern
  | succ f ih =>
    cases g with
    | zero => cases hname
    | succ g =>
      unfold patternLoop at hpattern
      split at hpattern
      · cases hpattern
      rename_i p hp
      unfold keyLoop at hname
      split at hname
      · cases hname
      rename_i k hk
      obtain ⟨pat, ptail, rfl, rfl, hpat, ends⟩ := cfFindKeypatternEnd_split hp
      obtain ⟨key, ktail, rfl, rfl, valid, kends⟩ := cfFindKeyend_split hk
      have rest : matchLoop (ptail.drop 1) (ktail.drop 1) (some ktail) =
          if matchesKeys (tailKeys ptail) (tailKeys ktail) then 1 else 0 := by
        rcases ends with rfl | ⟨prest, rfl⟩
        · simp [matchLoop, matchesKeys, tailKeys]
        have hrest : patternLoop f prest = true := by simpa [← drop_drop] using hpattern
        rcases kends with rfl | ⟨krest, rfl⟩
        · have more : prest ≠ [] := by
            rintro rfl
            cases f <;> cases hrest
          simp [matchLoop_nil more, matchesKeys_nil, tailKeys]
        · exact ih hrest (by simpa [← drop_drop] using hname) _
      rw [matchLoop_step hp hk hpat ends, rest, splitOn_append hpat ends,
        splitOn_append (.inl valid) kends, matchesKeys]
      by_cases two : pat = [star, star]
      · have last : tailKeys ptail = [] := by
          rcases hpat with valid | rfl | ⟨-, rfl⟩
          · exact absurd (valid.2 star (by simp [two])) (by decide)
          · cases two
          · rfl
        simp [two, last]
      · simp [two, ite_and]

end Keys

/-- A pattern matches the full key of a node exactly if it matches its keys one by one. -/
theorem cfOmMatch_eq {pattern : List Byte} {node : CfOmNode} (hpattern : isConfigvarpattern pattern)
    (hname : isConfigvarname node.fullkey) :
    cfOmMatch pattern (some node) =
      if matchesKeys (pattern.splitOn dot) (node.fullkey.splitOn dot) then 1 else 0 := by
  have name : node.fullkey ≠ [] := by
    intro empty
    rw [empty] at hname
    cases hname
  have nonempty : pattern ≠ [] := by
    rintro rfl
    cases hpattern
  rw [cfOmMatch, if_neg name, if_neg nonempty]
  exact matchLoop_eq hpattern hname none

theorem cfOmMatch_stars :
    cfOmMatch (ascii ['a', '.', '*', '.', '*', '*'])
      (some ⟨ascii ['a', '.', 'b', '.', 'c', '.', 'd'], ascii ['d'], none, []⟩) = 1 :=
  (cfOmMatch_eq (by decide) (by decide)).trans (by decide)

end ServalMesh.Conf
