import ServalMesh.Lib.DigitTrie

/-!
# The subscriber trie

`find_subscriber` looks up whole or abbreviated subscriber ids in a trie of
nibbles, and inserts whole ids that are new. A `struct subscriber *` is named by
the id of the subscriber.
-/

namespace ServalMesh.Overlay

open Lib DigitTrie List

abbrev Byte := BitVec 8

def sidSize : ℕ := 32

/-- The fields of `struct subscriber` that the trie uses. -/
structure Known where
  sid : List Byte
  abbreviateLen : ℕ
deriving DecidableEq

/-- A slot of `struct tree_node`: `is_tree` tells the last two cases apart. -/
abbrev Slot := DigitTrie (Fin 16) Known

abbrev TreeNode := Fin 16 → Slot

/-- How many bytes of an id `overlay_address_append` sends, one more in a packet
header. -/
def Known.addressLen (s : Known) (header : Bool) : ℕ :=
  min ((s.abbreviateLen + 2) / 2 + header.toNat) sidSize

def getNibble (sidp : List Byte) (pos : ℕ) : Fin 16 :=
  let byte := (sidp.getD (pos / 2) 0#8).toNat
  Fin.ofNat 16 (if pos % 2 = 0 then byte >>> 4 else byte)

/-- The loop of `_find_subscriber` over the bytes at `sidp`, which stops when
`pos` reaches twice their number. Memory is assumed to suffice. -/
def findLoop (sidp : List Byte) (create : Bool) :
    ℕ → ℕ → TreeNode → Option Known → TreeNode × Option Known
  | 0, _, ptr, ret => (ptr, ret)
  | left + 1, pos, ptr, ret =>
    let nibble := getNibble sidp pos
    let pos := pos + 1
    match ptr nibble with
    | .node child =>
      let (child, ret) := findLoop sidp create left pos child ret
      (Function.update ptr nibble (.node child), ret)
    | .empty =>
      if create then
        let new : Known := { sid := sidp, abbreviateLen := pos }
        (Function.update ptr nibble (.leaf new), some new)
      else (ptr, ret)
    | .leaf old =>
      if old.sid.take sidp.length = sidp then (ptr, some old)
      else if create then
        -- move the existing subscriber one level down, then go around again
        let moved := { old with abbreviateLen := pos + 1 }
        let new : TreeNode :=
          Function.update (fun _ => .empty) (getNibble old.sid pos) (.leaf moved)
        let (child, ret) := findLoop sidp create left pos new (some moved)
        (Function.update ptr nibble (.node child), ret)
      else (ptr, none)

/-- `find_subscriber(sidp, len, create)`, given the `len` bytes at `sidp`. -/
def findSubscriber (root : TreeNode) (sidp : List Byte) (create : Bool) :
    TreeNode × Option Known :=
  findLoop sidp (create && sidp.length = sidSize) (sidp.length * 2) 0 root none

section Nibbles

variable {a b : List Byte} {len i : ℕ}

theorem getNibble_take (h : i < len * 2) : getNibble (a.take len) i = getNibble a i := by
  have hi : i / 2 < len := by omega
  unfold getNibble
  rw [getD_eq_getElem?_getD, getD_eq_getElem?_getD, getElem?_take_of_lt hi]

/-- The two nibbles of a byte determine it. -/
theorem byte_of_nibbles (hhi : getNibble a (2 * i) = getNibble b (2 * i))
    (hlo : getNibble a (2 * i + 1) = getNibble b (2 * i + 1)) : a.getD i 0#8 = b.getD i 0#8 := by
  have hdiv : 2 * i / 2 = i := by omega
  have hdiv' : (2 * i + 1) / 2 = i := by omega
  have hmod : 2 * i % 2 = 0 := by omega
  have hmod' : (2 * i + 1) % 2 ≠ 0 := by omega
  simp only [getNibble, hdiv, hdiv', hmod, hmod', if_true, if_false, Fin.ext_iff,
    Fin.val_ofNat, Nat.shiftRight_eq_div_pow] at hhi hlo
  apply BitVec.eq_of_toNat_eq
  omega

theorem take_of_nibbles (ha : len ≤ a.length) (hb : len ≤ b.length)
    (h : ∀ i < len * 2, getNibble a i = getNibble b i) : a.take len = b.take len := by
  apply ext_getElem?
  intro i
  by_cases hi : i < len
  · have hbyte := byte_of_nibbles (h (2 * i) (by omega)) (h (2 * i + 1) (by omega))
    rw [getElem?_take_of_lt hi, getElem?_take_of_lt hi]
    have hai : i < a.length := by omega
    have hbi : i < b.length := by omega
    rw [getD_eq_getElem _ _ hai, getD_eq_getElem _ _ hbi] at hbyte
    rw [getElem?_eq_getElem hai, getElem?_eq_getElem hbi, hbyte]
  · rw [getElem?_take_eq_none (by omega), getElem?_take_eq_none (by omega)]

/-- Whole ids with the same nibbles are the same. -/
theorem sid_of_nibbles (ha : a.length = sidSize) (hb : b.length = sidSize)
    (h : ∀ i < sidSize * 2, getNibble a i = getNibble b i) : a = b := by
  have htake := take_of_nibbles ha.ge hb.ge h
  rwa [take_of_length_le ha.le, take_of_length_le hb.le] at htake

end Nibbles

/-- A slot at the end of this path of nibbles is as it should be. -/
abbrev SlotOk (path : List (Fin 16)) (slot : Slot) : Prop :=
  slot.Ok getNibble Known.sid
    (fun depth s => s.sid.length = sidSize ∧ s.abbreviateLen = depth) path

/-- The trie as a whole; its root may have any number of subscribers. -/
def TrieOk (root : TreeNode) : Prop := ∀ n, SlotOk [n] (root n)

/-- Some subscriber below this node has this id. -/
abbrev HasSid (ptr : TreeNode) (sid : List Byte) : Prop := HasKey Known.sid (.node ptr) sid

section Insertion

variable {sid s s' : List Byte} {path : List (Fin 16)} {ptr : TreeNode} {pos left : ℕ} {slot : Slot}
  {n : Fin 16}

theorem slotOk_length (h : SlotOk path slot) (hs : HasKey Known.sid slot s) :
    s.length = sidSize := by
  obtain ⟨rest, e, he, rfl⟩ := hs
  exact (ok_at h he).1.1

theorem slotOk_nibble (h : SlotOk (path ++ [n]) slot) (hs : HasKey Known.sid slot s) :
    n = getNibble s path.length := by
  have hdigits := ok_hasKey h hs
  rw [length_append, length_singleton, firstDigits_succ] at hdigits
  simpa using append_inj_right' hdigits rfl

/-- Two different ids part within their nibbles. -/
theorem depth_lt (h : SlotOk path slot) (hne : s ≠ s') (hs : HasKey Known.sid slot s)
    (hs' : s'.length = sidSize) (hpath : path = firstDigits (getNibble s') path.length) :
    path.length < sidSize * 2 := by
  by_contra hlen
  have hdigits := (ok_hasKey h hs).symm.trans hpath
  refine hne (sid_of_nibbles (slotOk_length h hs) hs' fun i hi => ?_)
  exact firstDigits_eq.mp hdigits i (by omega)

/-- What an insertion below a node achieves. -/
structure Inserted (sid : List Byte) (path : List (Fin 16)) (ptr : TreeNode)
    (r : TreeNode × Option Known) : Prop where
  ok : ∀ n, SlotOk (path ++ [n]) (r.1 n)
  sids : ∀ s, HasSid r.1 s ↔ s = sid ∨ HasSid ptr s
  found : ∃ e, r.2 = some e ∧ e.sid = sid

/-- The new child takes the place of a slot with the same subscribers. -/
theorem Inserted.up {child : TreeNode} {r : TreeNode × Option Known}
    (h : Inserted sid (path ++ [n]) child r) (hok : ∀ n, SlotOk (path ++ [n]) (ptr n))
    (hsame : ∀ s, HasKey Known.sid (ptr n) s ↔ HasSid child s) (hne : s ≠ sid)
    (hs : HasKey Known.sid (ptr n) s) :
    Inserted sid path ptr (Function.update ptr n (.node r.1), r.2) := by
  refine ⟨ok_update hok ⟨⟨s, sid, hne, ?_, ?_⟩, h.ok⟩, fun x => ?_, h.found⟩
  · exact (h.sids s).mpr (.inr ((hsame s).mp hs))
  · exact (h.sids sid).mpr (.inl rfl)
  · have hsids := h.sids x
    have hx := hsame x
    dsimp only [HasSid] at hsids hx ⊢
    rw [hasKey_update, hsids, ← hx, or_assoc, ← hasKey_split n]

/-- The digits of the path go on with the next nibble. -/
theorem firstDigits_next (hpath : path = firstDigits (getNibble sid) path.length) :
    path ++ [getNibble sid path.length] =
      firstDigits (getNibble sid) (path ++ [getNibble sid path.length]).length := by
  rw [length_append, length_singleton, firstDigits_succ, ← hpath]

theorem findLoop_create (path : List (Fin 16)) (hsid : sid.length = sidSize) (ret : Option Known)
    (hleft : left + path.length = sidSize * 2) (hlt : path.length < sidSize * 2)
    (hpath : path = firstDigits (getNibble sid) path.length)
    (hok : ∀ n, SlotOk (path ++ [n]) (ptr n)) :
    Inserted sid path ptr (findLoop sid true left path.length ptr ret) := by
  induction left generalizing path ptr ret with
  | zero => omega
  | succ left ih =>
    have hlen : (path ++ [getNibble sid path.length]).length = path.length + 1 := by simp
    have hnext := firstDigits_next hpath
    have hslot := hok (getNibble sid path.length)
    rw [findLoop]
    cases hptr : ptr (getNibble sid path.length) with
    | node child =>
      rw [hptr] at hslot
      obtain ⟨s, hne, hs⟩ : ∃ s, s ≠ sid ∧ HasSid child s := by
        obtain ⟨⟨k, k', hkk, hk, hk'⟩, -⟩ := hslot
        by_cases he : k = sid
        · exact ⟨k', fun he' => hkk (he.trans he'.symm), hk'⟩
        · exact ⟨k, he, hk⟩
      have hdeep := depth_lt hslot hne hs hsid hnext
      have hins := ih _ ret (by omega) hdeep hnext hslot.2
      rw [hlen] at hins
      exact hins.up hok (fun s => by rw [hptr]) hne (by rwa [hptr])
    | empty =>
      rw [if_pos rfl]
      refine ⟨ok_update hok ⟨⟨hsid, hlen.symm⟩, hnext⟩, fun x => ?_, _, rfl, rfl⟩
      dsimp only [HasSid]
      rw [hasKey_update, hasKey_leaf, hasKey_split (getNibble sid path.length), hptr]
      simp [eq_comm]
    | leaf old =>
      rw [hptr] at hslot
      obtain ⟨⟨hold, -⟩, hdigits⟩ := hslot
      have hkey : HasKey Known.sid (ptr (getNibble sid path.length)) old.sid := by
        rw [hptr, hasKey_leaf]
      dsimp only
      rw [hsid, take_of_length_le hold.le]
      by_cases heq : old.sid = sid
      · rw [if_pos heq]
        refine ⟨hok, fun x => ⟨Or.inr, ?_⟩, old, rfl, heq⟩
        rintro (rfl | hx)
        · exact (hasKey_split (getNibble x path.length)).mpr (.inl (heq ▸ hkey))
        · exact hx
      · rw [if_neg heq, if_pos rfl]
        have hdeep := depth_lt (hok _) heq hkey hsid hnext
        have hmoved : ∀ n, SlotOk (path ++ [getNibble sid path.length] ++ [n])
            ((Function.update (fun _ => .empty) (getNibble old.sid (path.length + 1))
              (.leaf { old with abbreviateLen := path.length + 1 + 1 }) : TreeNode) n) := by
          refine ok_update (fun _ => trivial) ⟨⟨hold, by simp⟩, ?_⟩
          rw [length_append, length_singleton, hlen, firstDigits_succ]
          rw [hlen] at hdigits
          rw [← hdigits]
        have hins := ih _ (some { old with abbreviateLen := path.length + 1 + 1 }) (by omega) hdeep
          hnext hmoved
        rw [hlen] at hins
        refine hins.up hok (fun x => ?_) heq hkey
        dsimp only [HasSid]
        rw [hptr, hasKey_update, hasKey_leaf, hasKey_leaf]
        simp

end Insertion

section Lookup

variable {sidp : List Byte} {path : List (Fin 16)} {ptr : TreeNode} {left : ℕ} {slot : Slot}
  {e : Known}

/-- `e` is the one and only subscriber of this slot whose id starts with these
bytes. -/
def Resolves (sidp : List Byte) (slot : Slot) (e : Known) : Prop :=
  (∃ path, slot.At path e) ∧ sidp <+: e.sid ∧
    ∀ s, HasKey Known.sid slot s → sidp <+: s → s = e.sid

theorem getNibble_isPrefix {s : List Byte} {i : ℕ} (h : sidp <+: s) (hi : i < sidp.length * 2) :
    getNibble s i = getNibble sidp i := by
  have htake : s.take sidp.length = sidp := (prefix_iff_eq_take.mp h).symm
  rw [← getNibble_take hi, htake]

section

variable (hok : ∀ n, SlotOk (path ++ [n]) (ptr n)) (hlt : path.length < sidp.length * 2)
include hok hlt

/-- Subscribers with the sought bytes are all found behind the next nibble. -/
theorem at_nibble {rest : List (Fin 16)} (he : At (.node ptr) rest e) (hpre : sidp <+: e.sid) :
    ∃ rest', At (ptr (getNibble sidp path.length)) rest' e := by
  obtain ⟨n, rest', rfl, hat⟩ := at_node he
  rw [slotOk_nibble (hok n) ⟨rest', e, hat, rfl⟩, getNibble_isPrefix hpre hlt] at hat
  exact ⟨rest', hat⟩

theorem resolves_node :
    Resolves sidp (.node ptr) e ↔ Resolves sidp (ptr (getNibble sidp path.length)) e := by
  constructor
  · rintro ⟨⟨rest, he⟩, hpre, huniq⟩
    exact ⟨at_nibble hok hlt he hpre, hpre, fun s hs => huniq s (hasKey_node.mpr ⟨_, hs⟩)⟩
  rintro ⟨⟨rest, he⟩, hpre, huniq⟩
  refine ⟨⟨_, .node he⟩, hpre, ?_⟩
  rintro s ⟨rest', e', he', rfl⟩ hs
  obtain ⟨rest'', hat⟩ := at_nibble hok hlt he' hs
  exact huniq _ ⟨rest'', e', hat, rfl⟩ hs

end

/-- A node at the depth of the sought bytes has two subscribers with them. -/
theorem not_resolves_node (hsize : sidp.length ≤ sidSize) (hok : SlotOk path (.node ptr))
    (hpath : path = firstDigits (getNibble sidp) (sidp.length * 2)) :
    ¬ Resolves sidp (.node ptr) e := by
  rintro ⟨-, -, huniq⟩
  have hall : ∀ s, HasSid ptr s → sidp <+: s := by
    intro s hs
    have hdigits := ok_hasKey hok hs
    have hplen : path.length = sidp.length * 2 := by rw [hpath, length_firstDigits]
    rw [hplen, hpath] at hdigits
    have hs32 : s.length = sidSize := slotOk_length hok hs
    have htake := take_of_nibbles le_rfl (by omega : sidp.length ≤ s.length)
      (firstDigits_eq.mp hdigits)
    rw [take_length] at htake
    exact prefix_iff_eq_take.mpr htake
  obtain ⟨⟨k, k', hne, hk, hk'⟩, -⟩ := hok
  exact hne ((huniq k hk (hall k hk)).trans (huniq k' hk' (hall k' hk')).symm)

theorem findLoop_lookup (path : List (Fin 16)) (hsize : sidp.length ≤ sidSize)
    (hleft : left + path.length = sidp.length * 2)
    (hpath : path = firstDigits (getNibble sidp) path.length)
    (hok : ∀ n, SlotOk (path ++ [n]) (ptr n)) (hnode : left ≠ 0 ∨ SlotOk path (.node ptr)) :
    (findLoop sidp false left path.length ptr none).1 = ptr ∧
      ∀ e, (findLoop sidp false left path.length ptr none).2 = some e ↔
        Resolves sidp (.node ptr) e := by
  induction left generalizing path ptr with
  | zero =>
    refine ⟨rfl, fun e => ⟨fun h => (by cases h), fun h => ?_⟩⟩
    have hplen : path.length = sidp.length * 2 := by omega
    rw [hplen] at hpath
    exact absurd h (not_resolves_node hsize (hnode.resolve_left (by simp)) hpath)
  | succ left ih =>
    have hnlen : (path ++ [getNibble sidp path.length]).length = path.length + 1 := by simp
    have hnext := firstDigits_next hpath
    have hslot := hok (getNibble sidp path.length)
    have hres := fun e => resolves_node (e := e) hok (show path.length < sidp.length * 2 by omega)
    simp only [hres]
    rw [findLoop]
    cases hptr : ptr (getNibble sidp path.length) with
    | node child =>
      rw [hptr] at hslot
      obtain ⟨hsame, hiff⟩ := ih _ (by omega) hnext hslot.2 (.inr hslot)
      rw [hnlen] at hsame hiff
      refine ⟨?_, hiff⟩
      dsimp only
      rw [hsame, ← hptr, Function.update_eq_self]
    | empty =>
      refine ⟨rfl, fun e => ⟨fun h => (by cases h), ?_⟩⟩
      rintro ⟨⟨rest, he⟩, -⟩
      exact absurd he not_at_empty
    | leaf old =>
      dsimp only
      by_cases heq : old.sid.take sidp.length = sidp
      · rw [if_pos heq]
        refine ⟨rfl, fun e => ⟨fun h => ?_, ?_⟩⟩
        · cases h
          refine ⟨⟨[], .leaf⟩, prefix_iff_eq_take.mpr heq.symm, fun s hs _ => ?_⟩
          exact (hasKey_leaf.mp hs).symm
        · rintro ⟨⟨rest, he⟩, -⟩
          rw [(at_leaf.mp he).2]
      · rw [if_neg heq, if_neg Bool.false_ne_true]
        refine ⟨rfl, fun e => ⟨fun h => (by cases h), ?_⟩⟩
        rintro ⟨⟨rest, he⟩, hpre, -⟩
        rw [(at_leaf.mp he).2] at hpre
        exact absurd (prefix_iff_eq_take.mp hpre).symm heq

end Lookup

/-- The bytes of a call of `find_subscriber`: between 1 and 32 of them. -/
structure FindCall where
  sidp : List Byte
  create : Bool
  one_le : 1 ≤ sidp.length
  le_size : sidp.length ≤ sidSize

section Runs

variable {root : TreeNode} {path path' : List (Fin 16)} {e e' : Known} {sidp : List Byte}

theorem findSubscriber_lookup (hok : TrieOk root) (hone : 1 ≤ sidp.length)
    (hsize : sidp.length ≤ sidSize) :
    (findSubscriber root sidp false).1 = root ∧
      ∀ e, (findSubscriber root sidp false).2 = some e ↔ Resolves sidp (.node root) e :=
  findLoop_lookup [] hsize rfl rfl hok (.inl (by omega))

theorem findSubscriber_create (hok : TrieOk root) (hlen : sidp.length = sidSize) :
    Inserted sidp [] root (findSubscriber root sidp true) := by
  have h : Inserted sidp [] root (findLoop sidp true (sidp.length * 2) 0 root none) :=
    findLoop_create [] hlen none (by simp [hlen]) (by simp [sidSize]) rfl hok
  rwa [findSubscriber, Bool.true_and, decide_eq_true hlen]

/-- A call either only looks, or makes sure that a whole id is known. -/
theorem findSubscriber_step (hok : TrieOk root) (c : FindCall) :
    TrieOk (findSubscriber root c.sidp c.create).1 ∧
      ∀ s, HasSid (findSubscriber root c.sidp c.create).1 s ↔
        (c.create = true ∧ c.sidp.length = sidSize ∧ s = c.sidp) ∨ HasSid root s := by
  by_cases hc : c.create = true ∧ c.sidp.length = sidSize
  · have h := findSubscriber_create hok hc.2
    rw [← hc.1] at h
    exact ⟨h.ok, fun s => by rw [h.sids]; simp [hc.1, hc.2]⟩
  have hlook : findSubscriber root c.sidp c.create = findSubscriber root c.sidp false := by
    have hfalse : (c.create && decide (c.sidp.length = sidSize)) = false := by
      simpa using hc
    rw [findSubscriber, findSubscriber, hfalse, Bool.false_and]
  rw [hlook, (findSubscriber_lookup hok c.one_le c.le_size).1]
  exact ⟨hok, fun s => (or_iff_right fun h => hc ⟨h.1, h.2.1⟩).symm⟩

/-- The subscribers that are known after a sequence of calls. -/
def knownAfter (calls : List FindCall) : TreeNode :=
  calls.foldl (fun root c => (findSubscriber root c.sidp c.create).1) fun _ => .empty

theorem trieOk_foldl (calls : List FindCall) (hok : TrieOk root) :
    TrieOk (calls.foldl (fun root c => (findSubscriber root c.sidp c.create).1) root) ∧
      ∀ s, HasSid (calls.foldl (fun root c => (findSubscriber root c.sidp c.create).1) root) s ↔
        (∃ c ∈ calls, c.create = true ∧ c.sidp.length = sidSize ∧ s = c.sidp) ∨
          HasSid root s := by
  induction calls generalizing root with
  | nil => exact ⟨hok, by simp⟩
  | cons c calls ih =>
    obtain ⟨hok₁, hsids₁⟩ := findSubscriber_step hok c
    obtain ⟨hok₂, hsids₂⟩ := ih hok₁
    refine ⟨hok₂, fun s => ?_⟩
    rw [foldl_cons, hsids₂, hsids₁, exists_mem_cons_iff, or_assoc, or_left_comm]

section

variable (hok : TrieOk root) (he : At (.node root) path e)
include hok he

/-- A subscriber of the trie lies where its first nibbles lead. -/
theorem at_trie :
    e.sid.length = sidSize ∧ path.length = e.abbreviateLen ∧
      path = firstDigits (getNibble e.sid) e.abbreviateLen := by
  obtain ⟨n, rest, rfl, hrest⟩ := at_node he
  obtain ⟨⟨hsid, hlen⟩, hpath⟩ := ok_at (hok n) hrest
  rw [show [n].length + rest.length = (n :: rest).length from Nat.add_comm ..] at hlen hpath
  exact ⟨hsid, hlen.symm, by rw [hlen]; exact hpath⟩

/-- No other subscriber shares the nibbles on the path to a subscriber. -/
theorem at_trie_unique (he' : At (.node root) path' e')
    (h : ∀ i < e.abbreviateLen, getNibble e'.sid i = getNibble e.sid i) :
    path' = path ∧ e' = e := by
  obtain ⟨-, -, hpath⟩ := at_trie hok he
  obtain ⟨-, -, hpath'⟩ := at_trie hok he'
  rcases le_total e.abbreviateLen e'.abbreviateLen with hle | hle
  · have hpre : path <+: path' := by
      rw [hpath, hpath', ← firstDigits_eq.mpr h]
      exact firstDigits_le hle
    obtain ⟨rfl, rfl⟩ := at_unique he he' hpre
    exact ⟨rfl, rfl⟩
  · have hpre : path' <+: path := by
      rw [hpath, hpath', firstDigits_eq.mpr fun i hi => h i (by omega)]
      exact firstDigits_le hle
    exact at_unique he' he hpre

theorem length_address (header : Bool) :
    (e.sid.take (e.addressLen header)).length = e.addressLen header := by
  rw [length_take, (at_trie hok he).1]
  exact min_eq_left (min_le_right _ _)

/-- The abbreviation that is sent for a subscriber resolves to it. -/
theorem resolves_address (header : Bool) :
    Resolves (e.sid.take (e.addressLen header)) (.node root) e := by
  obtain ⟨hsid, -, -⟩ := at_trie hok he
  refine ⟨⟨path, he⟩, take_prefix _ _, ?_⟩
  rintro s ⟨path', e', he', rfl⟩ hpre
  obtain ⟨hsid', -, -⟩ := at_trie hok he'
  have hdigits : ∀ i < e.addressLen header * 2, getNibble e'.sid i = getNibble e.sid i := by
    intro i hi
    rw [getNibble_isPrefix hpre (by rwa [length_address hok he]), getNibble_take hi]
  by_cases hfull : sidSize ≤ (e.abbreviateLen + 2) / 2 + header.toNat
  · rw [Known.addressLen, min_eq_right hfull] at hdigits
    exact sid_of_nibbles hsid' hsid hdigits
  · rw [Known.addressLen, min_eq_left (by omega)] at hdigits
    rw [(at_trie_unique hok he he' fun i hi => hdigits i (by omega)).2]

end

/-- What the callers of `find_subscriber` rely on. -/
structure TrieSpec (root : TreeNode) : Prop where
  place : ∀ path e, At (.node root) path e → path = firstDigits (getNibble e.sid) e.abbreviateLen
  once : ∀ path e path' e', At (.node root) path e → At (.node root) path' e' → e'.sid = e.sid →
    path' = path ∧ e' = e
  unshared : ∀ path e path' e', At (.node root) path e → At (.node root) path' e' →
    firstDigits (getNibble e'.sid) e.abbreviateLen =
      firstDigits (getNibble e.sid) e.abbreviateLen → e' = e
  branch : ∀ path children, path ≠ [] → Below (.node root) path (.node children) →
    ∃ p e p' e', At (.node root) (path ++ p) e ∧ At (.node root) (path ++ p') e' ∧ e.sid ≠ e'.sid
  find : ∀ sidp : List Byte, 1 ≤ sidp.length → sidp.length ≤ sidSize → ∀ e,
    (findSubscriber root sidp false).2 = some e ↔
      (∃ path, At (.node root) path e) ∧ sidp <+: e.sid ∧
        ∀ path' e', At (.node root) path' e' → sidp <+: e'.sid → e' = e
  sent : ∀ path e header, At (.node root) path e →
    (findSubscriber root (e.sid.take (e.addressLen header)) false).2 = some e

theorem resolves_root (hok : TrieOk root) :
    Resolves sidp (.node root) e ↔ (∃ path, At (.node root) path e) ∧ sidp <+: e.sid ∧
      ∀ path' e', At (.node root) path' e' → sidp <+: e'.sid → e' = e := by
  constructor
  · rintro ⟨⟨path, he⟩, hpre, huniq⟩
    refine ⟨⟨path, he⟩, hpre, fun path' e' he' hpre' => ?_⟩
    have hsid := huniq e'.sid ⟨path', e', he', rfl⟩ hpre'
    exact (at_trie_unique hok he he' fun i _ => by rw [hsid]).2
  · rintro ⟨hat, hpre, huniq⟩
    refine ⟨hat, hpre, ?_⟩
    rintro s ⟨path', e', he', rfl⟩ hs
    rw [huniq path' e' he' hs]

theorem trieSpec_of_ok (hok : TrieOk root) : TrieSpec root := by
  refine ⟨fun path e he => (at_trie hok he).2.2, ?_, ?_, ?_, ?_, ?_⟩
  · intro path e path' e' he he' hsid
    exact at_trie_unique hok he he' fun i _ => by rw [hsid]
  · intro path e path' e' he he' hdigits
    exact (at_trie_unique hok he he' (firstDigits_eq.mp hdigits)).2
  · intro path children hne hbelow
    obtain ⟨k, k', hkk, ⟨p, e, he, rfl⟩, p', e', he', rfl⟩ : ∃ k k', k ≠ k' ∧
        HasSid children k ∧ HasSid children k' := by
      cases hbelow with
      | here => exact absurd rfl hne
      | node hbelow => exact ok_below (hok _) hbelow
    exact ⟨p, e, p', e', below_at hbelow he, below_at hbelow he', hkk⟩
  · intro sidp hone hsize e
    rw [(findSubscriber_lookup hok hone hsize).2, resolves_root hok]
  · intro path e header he
    have hres := resolves_address hok he header
    have hlen := length_address hok he header
    refine ((findSubscriber_lookup hok ?_ ?_).2 e).mpr hres
    · rw [hlen, Known.addressLen]
      exact le_min (by omega) (by decide)
    · rw [hlen]
      exact min_le_right _ _

/-- After any calls, the known ids are those that were created, and the trie
resolves exactly the unambiguous abbreviations of them. -/
theorem findSubscriber_calls (calls : List FindCall) :
    TrieSpec (knownAfter calls) ∧ ∀ s, HasSid (knownAfter calls) s ↔
      ∃ c ∈ calls, c.create = true ∧ c.sidp.length = sidSize ∧ s = c.sidp := by
  have hempty : TrieOk fun _ => .empty := fun _ => trivial
  obtain ⟨hok, hsids⟩ := trieOk_foldl calls hempty
  refine ⟨trieSpec_of_ok hok, fun s => ?_⟩
  rw [knownAfter, hsids]
  refine or_iff_left fun h => ?_
  obtain ⟨n, h⟩ := hasKey_node.mp h
  exact not_hasKey_empty h

end Runs

end ServalMesh.Overlay
