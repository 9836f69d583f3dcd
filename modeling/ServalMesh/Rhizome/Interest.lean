import ServalMesh.Rhizome.SyncSend
import ServalMesh.Rhizome.Write

/-!
# Bundles that are worth fetching

A bundle is advertised by its BAR, which has the first bytes of its id and the low 56 bits of its
version. Whether it is interesting is asked with `LIKE` and a signed comparison of versions.
-/

namespace ServalMesh.Rhizome

open Lib Overlay List

/-- A row of `MANIFESTS`, as far as it is asked for. -/
structure StoredManifest where
  id : RhizomeBid
  version : BitVec 64
  filehash : Option (List Byte)
deriving DecidableEq

variable {exist : RhizomeFilehash → Bool} {rows : List StoredManifest} {row : StoredManifest}
  {id : RhizomeBid} {version filesize : BitVec 64} {a b text pattern : List Byte}

section Definitions

def toUpper (c : Byte) : Byte := if isLower c then c - 0x20#8 else c

/-- The operator `LIKE` of SQLite. -/
def like : List Byte → List Byte → Bool
  | [], text => text.isEmpty
  | c :: pattern, text =>
    if c = 0x25#8 then text.tails.any (like pattern)
    else
      match text with
      | [] => false
      | d :: text => (c = 0x5f#8 || toLower c = toLower d) && like pattern text

/-- The payload is there, or there is none. -/
def StoredManifest.hasPayload (exist : RhizomeFilehash → Bool) (row : StoredManifest) : Bool :=
  match row.filehash with
  | none | some [] => true
  | some text => (fromhexstr 64 text).any exist

/-- `is_interesting`. -/
def isInteresting (exist : RhizomeFilehash → Bool) (rows : List StoredManifest)
    (idHex : List Byte) (version : BitVec 64) : ℤ :=
  let found := rows.find? fun row =>
    like (idHex.map toUpper) (tohex row.id.bytes) && version.toInt ≤ row.version.toInt
  match found with
  | none => 1
  | some row => if row.hasPayload exist then 0 else 1

def log2ll (x : ℕ) : ℤ :=
  let lookup : List ℤ := [0, 1, 2, 2, 3, 3, 3, 3, 4, 4, 4, 4, 4, 4, 4, 4]
  let step (n : ℕ) (p : ℤ × ℕ) : ℤ × ℕ := if 2 ^ n ≤ p.2 then (p.1 + n, p.2 >>> n) else p
  let (v, x) := step 4 (step 8 (step 16 (step 32 (-1, x))))
  v + lookup.getD (x % 16) 0

def rhizomeBarPrefixBytes : ℕ := 15

/-- `rhizome_manifest_to_bar`, unless its assertion fails. The bounding box is the whole world. -/
def rhizomeManifestToBar (id : RhizomeBid) (filesize version : BitVec 64) : Option Bar :=
  if filesize.toNat = rhizomeSizeUnset then none
  else some ⟨id.bytes.take rhizomeBarPrefixBytes ++ [BitVec.ofInt 8 (log2ll filesize.toNat)] ++
    (List.range 7).reverse.map (fun i => (version >>> (8 * i)).setWidth 8) ++
    [0x00#8, 0x00#8, 0x00#8, 0x00#8, 0xff#8, 0xf0#8, 0xff#8, 0xf0#8] ++ [0x00#8],
    by simp [id.size, rhizomeBarPrefixBytes, rhizomeBarBytes]⟩

def rhizomeIsBarInteresting (exist : RhizomeFilehash → Bool) (rows : List StoredManifest)
    (bar : Bar) : ℤ :=
  isInteresting exist rows (tohex (rhizomeBarPrefix bar) ++ [0x25#8])
    (BitVec.ofNat 64 (rhizomeBarVersion bar))

def rhizomeIsManifestInteresting (exist : RhizomeFilehash → Bool) (rows : List StoredManifest)
    (id : RhizomeBid) (version : BitVec 64) : ℤ :=
  isInteresting exist rows (tohex id.bytes) version

end Definitions

section Patterns

theorem hexdigitUpper_plain : ∀ d < 16, hexdigitUpper d ≠ 0x25#8 ∧ hexdigitUpper d ≠ 0x5f#8 ∧
    toUpper (hexdigitUpper d) = hexdigitUpper d ∧
    ∀ e < 16, toLower (hexdigitUpper d) = toLower (hexdigitUpper e) ↔ d = e := by decide +kernel

theorem toUpper_tohex (bytes : List Byte) : (tohex bytes).map toUpper = tohex bytes := by
  have same : ∀ c ∈ tohex bytes, toUpper c = c := by
    intro c hc
    obtain ⟨d, hd, rfl⟩ := mem_tohex hc
    exact (hexdigitUpper_plain d hd).2.2.1
  simpa using map_congr_left same

/-- A pattern that begins with the digits of some bytes. -/
theorem like_tohex (a b : List Byte) (pattern : List Byte) :
    like (tohex a ++ pattern) (tohex b) =
      (decide (a <+: b) && like pattern (tohex (b.drop a.length))) := by
  induction a generalizing b with
  | nil => simp [tohex]
  | cons x a ih =>
    obtain ⟨high, high', _, highEq⟩ := hexdigitUpper_plain (x.toNat / 16) (by omega)
    obtain ⟨low, low', _, lowEq⟩ := hexdigitUpper_plain (x.toNat % 16) (by omega)
    cases b with
    | nil => simp [tohex, like, high]
    | cons y b =>
      have same : x = y ↔ x.toNat / 16 = y.toNat / 16 ∧ x.toNat % 16 = y.toNat % 16 := by
        rw [← BitVec.toNat_inj]
        omega
      simp only [tohex, cons_append, like, high, high', low, low', if_false, decide_false,
        Bool.false_or, highEq _ (show y.toNat / 16 < 16 by omega),
        lowEq _ (Nat.mod_lt y.toNat (by decide : 0 < 16)), ih, cons_prefix_cons, same,
        length_cons, drop_succ_cons, Bool.decide_and, Bool.and_assoc]

theorem like_prefix : like (tohex a ++ [0x25#8]) (tohex b) = decide (a <+: b) := by
  have rest : like [0x25#8] (tohex (b.drop a.length)) = true := by
    simp [like, any_eq_true]
  rw [like_tohex, rest, Bool.and_true]

theorem like_exact (h : a.length = b.length) : like (tohex a) (tohex b) = decide (a = b) := by
  have := like_tohex a b []
  rw [append_nil, h, drop_length] at this
  rw [this, show like [] (tohex []) = true from rfl, Bool.and_true, decide_eq_decide]
  exact ⟨fun sub => sub.eq_of_length h, fun eq => eq ▸ prefix_rfl⟩

end Patterns

section Answers

/-- What is asked of the rows if the pattern stands for one id. -/
theorem isInteresting_iff
    (distinct : rows.Pairwise fun a b => a.id ≠ b.id)
    (stands : ∀ row ∈ rows,
      like (pattern.map toUpper) (tohex row.id.bytes) = decide (row.id = id)) :
    (isInteresting exist rows pattern version = 0 ∨ isInteresting exist rows pattern version = 1) ∧
      (isInteresting exist rows pattern version = 1 ↔
        ∀ row ∈ rows, row.id = id → row.hasPayload exist = true →
          row.version.toInt < version.toInt) := by
  unfold isInteresting
  cases found : rows.find? fun row => like (pattern.map toUpper) (tohex row.id.bytes) &&
      version.toInt ≤ row.version.toInt with
  | none =>
    refine ⟨.inr rfl, iff_of_true rfl fun row hrow hid _ => ?_⟩
    have := find?_eq_none.mp found row hrow
    rw [stands row hrow, hid] at this
    simpa using this
  | some row =>
    have hrow := mem_of_find?_eq_some found
    have matched := find?_some found
    simp only [stands row hrow, Bool.and_eq_true, decide_eq_true_eq] at matched
    obtain ⟨rfl, newer⟩ := matched
    dsimp only
    by_cases payload : row.hasPayload exist = true
    · rw [if_pos payload]
      refine ⟨.inl rfl, iff_of_false (by decide) fun all => ?_⟩
      exact absurd (all row hrow rfl payload) (not_lt.mpr newer)
    · rw [if_neg payload]
      refine ⟨.inr rfl, iff_of_true rfl fun other hother same payload' => ?_⟩
      have only := inj_on_of_nodup_map (pairwise_map.mpr distinct) hother hrow same
      exact absurd (only ▸ payload') payload

/-- The low 56 bits of a version come back. -/
theorem rhizomeBarVersion_toBar {bar : Bar}
    (h : rhizomeManifestToBar id filesize version = some bar) :
    rhizomeBarPrefix bar = id.bytes.take rhizomeBarPrefixBytes ∧
      rhizomeBarVersion bar = version.toNat % 2 ^ 56 := by
  have hid : (id.bytes.take rhizomeBarPrefixBytes).length = 15 := by
    rw [length_take, id.size]
    rfl
  unfold rhizomeManifestToBar at h
  split at h
  · cases h
  cases h
  unfold rhizomeBarPrefix rhizomeBarVersion
  dsimp only
  generalize id.bytes.take rhizomeBarPrefixBytes = start at hid
  refine ⟨by simp [hid], ?_⟩
  have digits : ∀ v, (List.range 7).reverse.foldl
      (fun version i => 256 * version + v / 2 ^ (8 * i) % 256) 0 = v % 2 ^ 56 := by
    intro v
    simp [List.range_succ]
    omega
  have past : start.drop 16 = [] := drop_of_length_le (by omega)
  rw [← digits]
  simp [hid, past, drop_append, List.range_succ, Nat.shiftRight_eq_div_pow]

/-- A stored version is told from another one by its low 56 bits and by a signed comparison. -/
def VersionsAgree (version stored : ℕ) : Prop :=
  version < 2 ^ 63 ∧ stored < 2 ^ 63 ∧ (version ≤ stored ∨ stored < version % 2 ^ 56) ∨
    2 ^ 63 ≤ version ∧ 2 ^ 63 ≤ stored ∧ stored < version

/-- The BAR and the manifest are judged alike, and rightly, exactly if the version of the stored
manifest with its payload can be told from that of the other. -/
theorem rhizomeIsBarInteresting_iff {bar : Bar}
    (distinct : rows.Pairwise fun a b =>
      a.id.bytes.take rhizomeBarPrefixBytes ≠ b.id.bytes.take rhizomeBarPrefixBytes)
    (known : (∃ row ∈ rows, row.id = id) ∨ ∀ row ∈ rows,
      row.id.bytes.take rhizomeBarPrefixBytes ≠ id.bytes.take rhizomeBarPrefixBytes)
    (made : rhizomeManifestToBar id filesize version = some bar) :
    (rhizomeIsBarInteresting exist rows bar = rhizomeIsManifestInteresting exist rows id version ∧
      (rhizomeIsManifestInteresting exist rows id version = 1 ↔
        ¬∃ row ∈ rows, row.id = id ∧ version.toNat ≤ row.version.toNat ∧
          row.hasPayload exist = true)) ↔
    ∀ row ∈ rows, row.id = id → row.hasPayload exist = true →
      VersionsAgree version.toNat row.version.toNat := by
  obtain ⟨start, barVersion⟩ := rhizomeBarVersion_toBar made
  have distinctIds : rows.Pairwise fun a b => a.id ≠ b.id :=
    distinct.imp fun differ same => differ (by rw [same])
  have injective := inj_on_of_nodup_map (pairwise_map.mpr distinct)
  have standsBar : ∀ row ∈ rows, like ((tohex (rhizomeBarPrefix bar) ++ [0x25#8]).map toUpper)
       (tohex row.id.bytes) = decide (row.id = id) := by
    intro row hrow
    have percent : [0x25#8].map toUpper = [0x25#8] := by decide
    rw [start, map_append, toUpper_tohex, percent, like_prefix, decide_eq_decide]
    constructor
    · intro sub
      have same : row.id.bytes.take rhizomeBarPrefixBytes =
          id.bytes.take rhizomeBarPrefixBytes := by
        have := prefix_iff_eq_take.mp sub
        rw [this, length_take, id.size]
        rfl
      rcases known with ⟨other, hother, rfl⟩ | unknown
      · rw [injective hrow hother same]
      · exact absurd same (unknown row hrow)
    · rintro rfl
      exact take_prefix _ _
  have standsId : ∀ row ∈ rows, like ((tohex id.bytes).map toUpper) (tohex row.id.bytes) =
      decide (row.id = id) := by
    intro row _
    rw [toUpper_tohex, like_exact (id.size.trans row.id.size.symm), decide_eq_decide]
    exact ⟨fun h => by cases h' : id; cases h'' : row.id; simp_all, fun h => by rw [h]⟩
  obtain ⟨barValue, barOne⟩ := @isInteresting_iff exist _ _
    (BitVec.ofNat 64 (rhizomeBarVersion bar)) _ distinctIds standsBar
  obtain ⟨idValue, idOne⟩ := @isInteresting_iff exist _ _ version _ distinctIds standsId
  unfold rhizomeIsBarInteresting rhizomeIsManifestInteresting
  have small := version.isLt
  have shortNat : (BitVec.ofNat 64 (rhizomeBarVersion bar)).toNat = version.toNat % 2 ^ 56 := by
    rw [BitVec.toNat_ofNat, barVersion]
    omega
  generalize BitVec.ofNat 64 (rhizomeBarVersion bar) = short at *
  have stored : (¬∃ row ∈ rows, row.id = id ∧ version.toNat ≤ row.version.toNat ∧
      row.hasPayload exist = true) ↔ ∀ row ∈ rows, row.id = id → row.hasPayload exist = true →
        row.version.toNat < version.toNat := by grind
  rw [stored]
  by_cases held : ∃ row ∈ rows, row.id = id ∧ row.hasPayload exist = true
  · obtain ⟨row, hrow, rfl, payload⟩ := held
    have only : ∀ P : StoredManifest → Prop, (∀ other ∈ rows, other.id = row.id →
        other.hasPayload exist = true → P other) ↔ P row := by
      refine fun P => ⟨fun all => all row hrow rfl payload, fun h other hother same _ => ?_⟩
      rwa [injective hother hrow (by rw [same])]
    have large := row.version.isLt
    rw [only] at barOne idOne
    rw [only, only]
    simp only [BitVec.toInt_eq_toNat_cond, shortNat] at barOne idOne
    rw [VersionsAgree]
    clear only
    split_ifs at barOne idOne <;> omega
  · have none : ∀ P : StoredManifest → Prop, ∀ row ∈ rows, row.id = id →
        row.hasPayload exist = true → P row :=
      fun P row hrow same payload => absurd ⟨row, hrow, same, payload⟩ held
    rw [barOne.mpr (none _), idOne.mpr (none _)]
    exact iff_of_true ⟨rfl, iff_of_true rfl (none _)⟩ (none _)

def zeroBid : RhizomeBid := ⟨List.replicate 32 0#8, rfl⟩

/-- A bundle without a payload is stored with version 5, and version 6 is advertised. -/
theorem rhizomeIsBarInteresting_newer :
    ∃ bar, rhizomeManifestToBar zeroBid 0#64 6#64 = some bar ∧
      rhizomeIsBarInteresting (fun _ => false) [⟨zeroBid, 5#64, none⟩] bar = 1 := by
  obtain ⟨bar, made⟩ : ∃ bar, rhizomeManifestToBar zeroBid 0#64 6#64 = some bar := ⟨_, rfl⟩
  have agree := (@rhizomeIsBarInteresting_iff (fun _ => false) [⟨zeroBid, 5#64, none⟩] _ _ _ _
    (pairwise_singleton _ _) (.inl ⟨_, mem_cons_self, rfl⟩) made).mpr (by
      intro row hrow _ _
      cases mem_singleton.mp hrow
      exact .inl ⟨by decide, by decide, .inr (by decide)⟩)
  exact ⟨bar, made, agree.1.trans rfl⟩

/-- Version `2 ^ 56` is newer than 5 and its BAR is not interesting. Version `2 ^ 63` is newer than
5 and not even the manifest is. -/
theorem rhizomeIsBarInteresting_truncated :
    (rhizomeManifestToBar zeroBid 0#64 (BitVec.ofNat 64 (2 ^ 56))).map
        (rhizomeIsBarInteresting (fun _ => false) [⟨zeroBid, 5#64, none⟩]) = some 0 ∧
      rhizomeIsManifestInteresting (fun _ => false) [⟨zeroBid, 5#64, none⟩] zeroBid
        (BitVec.ofNat 64 (2 ^ 56)) = 1 ∧
      rhizomeIsManifestInteresting (fun _ => false) [⟨zeroBid, 5#64, none⟩] zeroBid
        (BitVec.ofNat 64 (2 ^ 63)) = 0 := by
  decide +kernel

end Answers

end ServalMesh.Rhizome
