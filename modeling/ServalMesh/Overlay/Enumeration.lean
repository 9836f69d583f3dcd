import ServalMesh.Overlay.Daemon

/-!
# Walking the subscriber trie

`walk_tree` visits the subscribers in the order of their ids. It compares no more nibbles of an id
than lead to its slot.
-/

namespace ServalMesh.Overlay

open Lib DigitTrie List

/-- `enum_subscribers` with a callback that always returns 0. -/
def enumSubscribers (root : TreeNode) (start : Known) : List Known :=
  walkTree none (some start.sid) 0 (.node root)

/-- The first branch of a node at this depth. -/
def walkFrom (start : Option (List Byte)) (pos : ℕ) : ℕ :=
  match start with
  | some start => if pos < start.length * 2 then (getNibble start pos).val else 0
  | none => 0

/-- The end of the branches of a node at this depth. -/
def walkUntil (stop : Option (List Byte)) (pos : ℕ) : ℕ :=
  match stop with
  | some stop => if pos < stop.length * 2 then (getNibble stop pos).val + 1 else 16
  | none => 16

section Walk

variable {root : TreeNode} {stop start : Option (List Byte)} {slot : Slot} {path : List (Fin 16)}
  {a b p : List Byte} {pos n : ℕ} {e e' : Known}

/-- The walk follows `n` nibbles of this id, starting at a depth. -/
def Walks (stop start : Option (List Byte)) (sid : List Byte) (pos n : ℕ) : Prop :=
  ∀ i, pos ≤ i → i < pos + n → (getNibble sid i).val < walkUntil stop i ∧
    ((∀ j, pos ≤ j → j < i → (getNibble sid j).val = walkFrom start j) →
      walkFrom start i ≤ (getNibble sid i).val)

theorem walks_succ : Walks stop start a pos (n + 1) ↔
    (walkFrom start pos ≤ (getNibble a pos).val ∧ (getNibble a pos).val < walkUntil stop pos) ∧
      Walks stop (if (getNibble a pos).val = walkFrom start pos then start else none) a
        (pos + 1) n := by
  constructor
  · intro h
    obtain ⟨huntil, hfrom⟩ := h pos le_rfl (by omega)
    refine ⟨⟨hfrom fun j hle hlt => absurd hle (by omega), huntil⟩, fun i hle hlt => ?_⟩
    obtain ⟨huntil, hfrom⟩ := h i (by omega) (by omega)
    refine ⟨huntil, fun hsame => ?_⟩
    split
    case isTrue hfirst =>
      rw [if_pos hfirst] at hsame
      exact hfrom fun j hle' hlt' =>
        hle'.eq_or_lt.elim (fun heq => heq ▸ hfirst) fun hlater => hsame j hlater hlt'
    case isFalse => exact Nat.zero_le _
  · rintro ⟨⟨hfrom, huntil⟩, h⟩ i hle hlt
    rcases hle.eq_or_lt with rfl | hlater
    · exact ⟨huntil, fun _ => hfrom⟩
    · obtain ⟨huntil', hfrom'⟩ := h i hlater (by omega)
      refine ⟨huntil', fun hsame => ?_⟩
      rw [if_pos (hsame pos le_rfl hlater)] at hfrom'
      exact hfrom' fun j hle' hlt' => hsame j (by omega) hlt'

theorem walkTree_node (children : TreeNode) : walkTree stop start pos (.node children) =
    (finRange 16).flatMap fun m =>
      if walkFrom start pos ≤ m.val ∧ m.val < walkUntil stop pos then
        walkTree stop (if m.val = walkFrom start pos then start else none) (pos + 1) (children m)
      else [] := rfl

/-- What is below this slot lies where its nibbles lead. -/
def BelowOk (path : List (Fin 16)) (slot : Slot) : Prop :=
  ∀ children, slot = .node children → ∀ m, SlotOk (path ++ [m]) (children m)

theorem SlotOk.belowOk (hok : SlotOk path slot) : BelowOk path slot := by
  rintro children rfl
  exact hok.2

theorem TrieOk.belowOk (hok : TrieOk root) : BelowOk [] (.node root) := by
  rintro children ⟨⟩
  exact hok

/-- The subscribers that are visited below a slot. -/
theorem mem_walkTree (hok : BelowOk path slot) : e ∈ walkTree stop start path.length slot ↔
    ∃ rest, slot.At rest e ∧ Walks stop start e.sid path.length rest.length := by
  induction slot generalizing path start with
  | empty => simp [walkTree]
  | leaf old =>
    rw [walkTree, mem_singleton]
    constructor
    · rintro rfl
      exact ⟨[], .leaf, fun i hle hlt => absurd hlt (by simpa using hle)⟩
    · rintro ⟨rest, hat, -⟩
      exact (at_leaf.mp hat).2
  | node children ih =>
    have hslot := hok children rfl
    have hbelow : ∀ m start', e ∈ walkTree stop start' (path.length + 1) (children m) ↔
        ∃ rest, (children m).At rest e ∧ Walks stop start' e.sid (path.length + 1) rest.length := by
      intro m start'
      have := @ih m start' _ (hslot m).belowOk
      rwa [length_append, length_singleton] at this
    rw [walkTree_node, mem_flatMap]
    constructor
    · rintro ⟨m, -, hm⟩
      split at hm
      case isTrue hbranch =>
        obtain ⟨rest, hat, hrest⟩ := (hbelow m _).mp hm
        obtain rfl := slotOk_nibble (hslot m) ⟨rest, e, hat, rfl⟩
        exact ⟨_ :: rest, .node hat, walks_succ.mpr ⟨hbranch, hrest⟩⟩
      case isFalse => exact absurd hm not_mem_nil
    · rintro ⟨path', hat, hwalks⟩
      obtain ⟨m, rest, rfl, hrest⟩ := at_node hat
      obtain rfl := slotOk_nibble (hslot m) ⟨rest, e, hrest, rfl⟩
      obtain ⟨hbranch, hwalks⟩ := walks_succ.mp hwalks
      refine ⟨getNibble e.sid path.length, mem_finRange _, ?_⟩
      rw [if_pos hbranch]
      exact (hbelow _ _).mpr ⟨rest, hrest, hwalks⟩

theorem getNibble_div (i : ℕ) : (getNibble a i).val =
    if i % 2 = 0 then (a.getD (i / 2) 0#8).toNat / 16 else (a.getD (i / 2) 0#8).toNat % 16 := by
  simp only [getNibble, Fin.val_ofNat]
  split
  · omega
  · rfl

/-- Whole ids are ordered by the first nibble in which they differ. -/
theorem sid_lt (ha : a.length = sidSize) (hb : b.length = sidSize) {i : ℕ}
    (hsame : ∀ j < i, getNibble a j = getNibble b j) (hlt : getNibble a i < getNibble b i) :
    a < b := by
  have hi : i / 2 < sidSize := by
    by_contra hout
    rw [getNibble, getNibble, getD_eq_default _ _ (by omega), getD_eq_default _ _ (by omega)] at hlt
    exact lt_irrefl _ hlt
  refine List.lt_iff_exists.mpr (.inr ⟨i / 2, by omega, by omega, fun j hj => ?_, ?_⟩)
  · have hbyte := byte_of_nibbles (hsame (2 * j) (by omega)) (hsame (2 * j + 1) (by omega))
    rwa [getD_eq_getElem _ _ (by omega), getD_eq_getElem _ _ (by omega)] at hbyte
  have hbyte : (a.getD (i / 2) 0#8).toNat < (b.getD (i / 2) 0#8).toNat := by
    have hnibble : (getNibble a i).val < (getNibble b i).val := hlt
    rw [getNibble_div, getNibble_div] at hnibble
    split at hnibble
    · omega
    · have hhigh := congrArg Fin.val (hsame (i - 1) (by omega))
      have hhalf : (i - 1) / 2 = i / 2 := by omega
      rw [getNibble_div, getNibble_div, if_pos (by omega), if_pos (by omega), hhalf] at hhigh
      omega
  rwa [getD_eq_getElem _ _ (by omega), getD_eq_getElem _ _ (by omega)] at hbyte

theorem walkTree_pairwise (hok : BelowOk path slot) :
    (walkTree stop start path.length slot).Pairwise fun e e' => e.sid < e'.sid := by
  induction slot generalizing path start with
  | empty => exact .nil
  | leaf old => exact pairwise_singleton _ _
  | node children ih =>
    have hslot := hok children rfl
    have hdigits : ∀ {m start'}, ∀ e ∈ walkTree stop start' (path.length + 1) (children m),
        e.sid.length = sidSize ∧ path = firstDigits (getNibble e.sid) path.length ∧
          m = getNibble e.sid path.length := by
      intro m start' e he
      rw [show path.length + 1 = (path ++ [m]).length by simp] at he
      obtain ⟨rest, hat, -⟩ := (mem_walkTree (hslot m).belowOk).mp he
      have hkey : HasKey Known.sid (children m) e.sid := ⟨rest, e, hat, rfl⟩
      have hpath := ok_hasKey (hslot m) hkey
      rw [length_append, length_singleton, firstDigits_succ] at hpath
      exact ⟨slotOk_length (hslot m) hkey, append_inj_left' hpath rfl, slotOk_nibble (hslot m) hkey⟩
    rw [walkTree_node]
    refine pairwise_flatMap.mpr ⟨fun m _ => ?_, ?_⟩
    · split
      · have := @ih m (if m.val = walkFrom start path.length then start else none) _
          (hslot m).belowOk
        rwa [length_append, length_singleton] at this
      · exact .nil
    · refine (pairwise_lt_finRange 16).imp fun {m m'} hlt e he e' he' => ?_
      split at he
      case isFalse => exact absurd he not_mem_nil
      split at he'
      case isFalse => exact absurd he' not_mem_nil
      obtain ⟨hlen, hpath, rfl⟩ := hdigits e he
      obtain ⟨hlen', hpath', rfl⟩ := hdigits e' he'
      exact sid_lt hlen hlen' (firstDigits_eq.mp (hpath.symm.trans hpath')) hlt

theorem mem_walkTree_root (hok : TrieOk root) : e ∈ walkTree stop start 0 (.node root) ↔
    (∃ path, At (.node root) path e) ∧ Walks stop start e.sid 0 e.abbreviateLen := by
  rw [← length_nil, mem_walkTree hok.belowOk, ← exists_and_right]
  refine exists_congr fun path => and_congr_right fun hat => ?_
  rw [(at_trie hok hat).2.1]

/-- From a known subscriber on, all that do not come before it are visited. -/
theorem walks_start_iff (hok : TrieOk root) {path' : List (Fin 16)} (he : At (.node root) path e)
    (he' : At (.node root) path' e') :
    Walks none (some e.sid) e'.sid 0 e'.abbreviateLen ↔ e.sid ≤ e'.sid := by
  obtain ⟨hlen, -⟩ := at_trie hok he
  obtain ⟨hlen', -⟩ := at_trie hok he'
  have hfrom : ∀ i, walkFrom (some e.sid) i = (getNibble e.sid i).val := by
    intro i
    rw [walkFrom]
    split
    · rfl
    · rw [getNibble_div, getD_eq_default _ _ (by omega)]
      simp
  constructor
  · intro h hlt
    have hdiffer : ∃ i, getNibble e'.sid i ≠ getNibble e.sid i := by
      by_contra! hsame
      rw [sid_of_nibbles hlen' hlen fun i _ => hsame i] at hlt
      exact List.lt_irrefl _ hlt
    obtain ⟨i, hi, hfirst⟩ : ∃ i, getNibble e'.sid i ≠ getNibble e.sid i ∧
        ∀ j < i, getNibble e'.sid j = getNibble e.sid j :=
      ⟨_, Nat.find_spec hdiffer, fun j hj => not_not.mp (Nat.find_min hdiffer hj)⟩
    -- the nibbles that lead to the slot tell it from the first subscriber
    have hdepth : i < e'.abbreviateLen := by
      by_contra hdeep
      have := at_trie_unique hok he' he fun j hj => (hfirst j (by omega)).symm
      exact hi (by rw [this.2])
    have hge := (h i (Nat.zero_le i) (by omega)).2 fun j _ hj => by rw [hfrom, hfirst j hj]
    rw [hfrom] at hge
    refine List.lt_asymm hlt (sid_lt hlen hlen' (fun j hj => (hfirst j hj).symm) ?_)
    exact lt_of_le_of_ne hge hi.symm
  · intro hle i _ hi
    refine ⟨(getNibble e'.sid i).isLt, fun hsame => ?_⟩
    rw [hfrom]
    by_contra hlt
    refine hle (sid_lt hlen' hlen (fun j hj => ?_) (not_le.mp hlt))
    exact Fin.ext ((hsame j (Nat.zero_le j) hj).trans (hfrom j))

theorem walks_abbreviation_iff : Walks (some p) (some p) a 0 n ↔
    ∀ i < n, i < p.length * 2 → getNibble a i = getNibble p i := by
  constructor
  · intro h i hi hin
    induction i using Nat.strong_induction_on with
    | h i ih =>
      obtain ⟨huntil, hfrom⟩ := h i (Nat.zero_le i) (by omega)
      have hge := hfrom fun j _ hj => by
        rw [walkFrom, if_pos (by omega), ih j hj (by omega) (by omega)]
      rw [walkUntil, if_pos hin] at huntil
      rw [walkFrom, if_pos hin] at hge
      exact Fin.ext (by omega)
  · intro h i _ hi
    rw [walkUntil, walkFrom]
    by_cases hin : i < p.length * 2
    · rw [if_pos hin, if_pos hin, h i (by omega) hin]
      exact ⟨Nat.lt_succ_self _, fun _ => le_rfl⟩
    · rw [if_neg hin, if_neg hin]
      exact ⟨(getNibble a i).isLt, fun _ => Nat.zero_le _⟩

end Walk

/-- After any calls, the subscribers from a known one on are enumerated in the order of their ids.
The subscribers with an abbreviation are all visited, and no others exactly if no subscriber whose
slot is above the end of the abbreviation shares the nibbles that lead there with it. -/
theorem walkTree_calls (calls : List FindCall) :
    (∀ path start, At (.node (knownAfter calls)) path start →
      (enumSubscribers (knownAfter calls) start).Pairwise (fun e e' => e.sid < e'.sid) ∧
      ∀ e, e ∈ enumSubscribers (knownAfter calls) start ↔
        (∃ path, At (.node (knownAfter calls)) path e) ∧ start.sid ≤ e.sid) ∧
    ∀ p : List Byte, p.length ≤ sidSize →
      (walkTree (some p) (some p) 0 (.node (knownAfter calls))).Pairwise
        (fun e e' => e.sid < e'.sid) ∧
      ((∀ e, e ∈ walkTree (some p) (some p) 0 (.node (knownAfter calls)) ↔
          (∃ path, At (.node (knownAfter calls)) path e) ∧ p <+: e.sid) ↔
        ∀ path e, At (.node (knownAfter calls)) path e → e.abbreviateLen < p.length * 2 →
          (∀ i < e.abbreviateLen, getNibble e.sid i = getNibble p i) → p <+: e.sid) := by
  have hempty : TrieOk fun _ => .empty := fun _ => trivial
  have hok : TrieOk (knownAfter calls) := (trieOk_foldl calls hempty).1
  refine ⟨fun path start hstart => ⟨walkTree_pairwise hok.belowOk, fun e => ?_⟩,
    fun p hp => ⟨walkTree_pairwise hok.belowOk, fun h path e he hlt hnibbles => ?_, fun h e => ?_⟩⟩
  · rw [enumSubscribers, mem_walkTree_root hok]
    exact and_congr_right fun ⟨_, he⟩ => walks_start_iff hok hstart he
  · refine ((h e).mp ((mem_walkTree_root hok).mpr ⟨⟨path, he⟩, ?_⟩)).2
    exact walks_abbreviation_iff.mpr fun i hi _ => hnibbles i hi
  rw [mem_walkTree_root hok, walks_abbreviation_iff]
  refine and_congr_right fun ⟨path, he⟩ => ⟨fun hnibbles => ?_, fun hpre i _ hi =>
    getNibble_isPrefix hpre hi⟩
  rcases lt_or_ge e.abbreviateLen (p.length * 2) with hlt | hge
  · exact h path e he hlt fun i hi => hnibbles i hi (by omega)
  · have htake := take_of_nibbles le_rfl (hp.trans_eq (at_trie hok he).1.symm) fun i hi =>
      (hnibbles i (by omega) hi).symm
    rw [take_length] at htake
    exact prefix_iff_eq_take.mpr htake

/-- Calls that create three subscribers, two of them with the same first nibble. -/
def siblingCalls : List FindCall := [⟨(Sid.uniform 0x2c).bytes, true, by decide, by decide⟩,
  ⟨(Sid.uniform 0x1b).bytes, true, by decide, by decide⟩,
  ⟨(Sid.uniform 0x1a).bytes, true, by decide, by decide⟩]

theorem walkTree_calls_siblings :
    enumSubscribers (knownAfter siblingCalls) ⟨(Sid.uniform 0x1b).bytes, 2⟩ =
        [⟨(Sid.uniform 0x1b).bytes, 2⟩, ⟨(Sid.uniform 0x2c).bytes, 1⟩] ∧
      (Sid.uniform 0x1b).bytes < (Sid.uniform 0x2c).bytes ∧
      ∀ e, e ∈ walkTree (some [0x1b]) (some [0x1b]) 0 (.node (knownAfter siblingCalls)) ↔
        (∃ path, At (.node (knownAfter siblingCalls)) path e) ∧ [0x1b] <+: e.sid := by
  have hlist : enumSubscribers (knownAfter siblingCalls) ⟨(Sid.uniform 0x1b).bytes, 2⟩ =
      [⟨(Sid.uniform 0x1b).bytes, 2⟩, ⟨(Sid.uniform 0x2c).bytes, 1⟩] := by
    decide +kernel
  have hat : At (.node (knownAfter siblingCalls)) [1, 11] ⟨(Sid.uniform 0x1b).bytes, 2⟩ :=
    .node (.node .leaf)
  obtain ⟨henum, hwalk⟩ := walkTree_calls siblingCalls
  have hsorted := (henum _ _ hat).1
  rw [hlist, pairwise_pair] at hsorted
  refine ⟨hlist, hsorted, (hwalk [0x1b] (by decide)).2.mpr fun path e he hlt hnibbles => ?_⟩
  have hempty : TrieOk fun _ => .empty := fun _ => trivial
  have hmem : e ∈ walkTree none none 0 (.node (knownAfter siblingCalls)) :=
    (mem_walkTree_root (trieOk_foldl siblingCalls hempty).1).mpr ⟨⟨path, he⟩, fun i _ _ =>
      ⟨(getNibble e.sid i).isLt, fun _ => Nat.zero_le _⟩⟩
  have hshort : ∀ e ∈ walkTree none none 0 (.node (knownAfter siblingCalls)),
      e.abbreviateLen < 2 → getNibble e.sid 0 ≠ 1 ∧ 0 < e.abbreviateLen := by
    decide +kernel
  exact absurd (hnibbles 0 (hshort e hmem hlt).2) (hshort e hmem hlt).1

/-- One call that creates a subscriber. -/
def loneCall : List FindCall := [⟨(Sid.uniform 0x1a).bytes, true, by decide, by decide⟩]

/-- The only subscriber has the first nibble of the abbreviation, but not the second one. -/
theorem walkTree_calls_shares_nibble :
    walkTree (some [0x1b]) (some [0x1b]) 0 (.node (knownAfter loneCall)) =
      [⟨(Sid.uniform 0x1a).bytes, 1⟩] ∧ ¬ [0x1b] <+: (Sid.uniform 0x1a).bytes := by
  decide +kernel

end ServalMesh.Overlay
