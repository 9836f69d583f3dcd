import ServalMesh.Rhizome.ManifestParse
import ServalMesh.Rhizome.ManifestSteps

/-!
# Inspecting and parsing a manifest

On every line that the parser takes, the inspection comes to the same id and version. It differs
only after the last newline, where the parser accepts a value that no newline ends.
-/

namespace ServalMesh.Rhizome

open Lib Overlay List

section Lines

variable {text label value rest p : List Byte}

theorem parseLine_field (h : parseLine text = .field label value rest) :
    ∃ raw, IsLine text label raw rest ∧ value = stripCr raw := by
  have hspec := parseLine_spec text
  rwa [h] at hspec

theorem parseLine_stop (h : parseLine text = .stop p) (htext : text.head?.any (· ≠ 0#8))
    (hp : p.head?.any (· ≠ 0#8) = false) : IsRemainder text p := by
  have hspec := parseLine_spec text
  rw [h] at hspec
  refine hspec.resolve_left fun heq => ?_
  rw [heq, htext] at hp
  exact nomatch hp

end Lines

section OpenLine

variable {pre rest : List Byte}

/-- What follows the last newline before the first NUL. -/
def openLine (text : List Byte) : List Byte :=
  (text.takeWhile (· ≠ 0#8)).rtakeWhile (· ≠ 0x0a#8)

theorem openLine_append_newline (hpre : ∀ c ∈ pre, c ≠ 0#8) :
    openLine (pre ++ 0x0a#8 :: rest) = openLine rest := by
  have htake : (pre ++ 0x0a#8 :: rest).takeWhile (· ≠ 0#8) =
      pre ++ 0x0a#8 :: rest.takeWhile (· ≠ 0#8) := by
    rw [takeWhile_append_of_pos fun c hc => by simpa using hpre c hc]
    simp
  rw [openLine, openLine, htake, List.rtakeWhile, List.rtakeWhile, reverse_append,
    reverse_cons, append_assoc, takeWhile_append]
  split
  case isTrue h =>
    have hself := takeWhile_prefix (fun c => decide (c ≠ 0x0a#8))
      |>.eq_of_length h
    rw [hself]
    simp
  case isFalse => rfl

/-- A text without a newline is the open line. -/
theorem openLine_eq (hpre : ∀ c ∈ pre, inValue c = true)
    (hrest : rest.head?.any (· ≠ 0#8) = false) : openLine (pre ++ rest) = pre := by
  have hzero : ∀ c ∈ pre, decide (c ≠ 0#8) = true := fun c hc =>
    (Bool.and_eq_true_iff.mp (hpre c hc)).1
  have hnewline : ∀ c ∈ pre.reverse, decide (c ≠ 0x0a#8) = true := fun c hc =>
    (Bool.and_eq_true_iff.mp (hpre c (mem_reverse.mp hc))).2
  have hnil : rest.takeWhile (· ≠ 0#8) = [] := by
    cases rest with
    | nil => rfl
    | cons c rest => simpa using hrest
  rw [openLine, takeWhile_append_of_pos hzero, hnil, append_nil, List.rtakeWhile,
    takeWhile_eq_self_iff.mpr hnewline, reverse_reverse]

end OpenLine

section Scan

variable {s : Inspect} {label raw rest p : List Byte} {text : List Byte} {value : List Byte}

theorem inspectLoop_pass {prev c : Byte} (hstep : inspectStep prev s c rest = s)
    (hs : s.state ≠ .error) (hc : c ≠ 0#8) :
    inspectLoop prev s (c :: rest) = inspectLoop c s rest := by
  rw [inspectLoop, if_neg fun h => h.elim hs hc, hstep]

theorem inspectLoop_alnum (hs : s.state = .label) (hlabel : ∀ c ∈ label, isAlnum c = true)
    (hlt : (label ++ rest).length < s.begin.length) (prev : Byte) :
    ∃ prev', inspectLoop prev s (label ++ rest) = inspectLoop prev' s rest := by
  induction label generalizing prev with
  | nil => exact ⟨prev, rfl⟩
  | cons c label ih =>
    have hc := hlabel c mem_cons_self
    rw [cons_append] at hlt ⊢
    have hstep : inspectStep prev s c (label ++ rest) = s := by
      rw [inspectStep, hs]
      rw [if_neg (by rintro rfl; exact absurd hc (by decide)), if_neg hlt.ne, if_pos hc]
    rw [inspectLoop_pass hstep (by rw [hs]; decide) (by rintro rfl; exact absurd hc (by decide))]
    exact ih (forall_mem_cons.mp hlabel).2 (lt_trans (by simp) hlt) c

/-- The label of a line, up to what follows it. -/
theorem inspectLoop_label {first : Byte} {tail : List Byte} (hs : s.state = .label)
    (hbegin : s.begin = first :: tail ++ rest) (hfirst : isAlpha first = true)
    (htail : ∀ c ∈ tail, isAlnum c = true) (prev : Byte) :
    ∃ prev', inspectLoop prev s (first :: tail ++ rest) = inspectLoop prev' s rest := by
  have hstep : inspectStep prev s first (tail ++ rest) = s := by
    rw [inspectStep, hs]
    have hlen : (first :: (tail ++ rest)).length = s.begin.length := by rw [hbegin]; rfl
    rw [if_neg (by rintro rfl; exact absurd hfirst (by decide)), if_pos hlen, if_pos hfirst]
  rw [cons_append, inspectLoop_pass hstep (by rw [hs]; decide)
    (by rintro rfl; exact absurd hfirst (by decide))]
  exact inspectLoop_alnum hs htail (by rw [hbegin]; simp) first

/-- The value of a line, up to what follows it. -/
theorem inspectLoop_value (hs : s.state = .value) (hraw : ∀ c ∈ raw, inValue c = true)
    (prev : Byte) :
    inspectLoop prev s (raw ++ rest) = inspectLoop (raw.getLast?.getD prev) s rest := by
  induction raw generalizing prev with
  | nil => rfl
  | cons c raw ih =>
    have hc := hraw c mem_cons_self
    have hstep : inspectStep prev s c (raw ++ rest) = s := by
      rw [inspectStep, hs]
      dsimp only
      rw [if_neg (by rintro rfl; exact absurd hc (by decide))]
    rw [cons_append, inspectLoop_pass hstep (by rw [hs]; decide)
      (by rintro rfl; exact absurd hc (by decide)), ih (forall_mem_cons.mp hraw).2,
      getLast?_cons, Option.getD_some]

theorem inspectLoop_equals (hs : s.state = .label) (prev : Byte) :
    inspectLoop prev s (0x3d#8 :: rest) =
      inspectLoop 0x3d#8 (inspectLabel s (0x3d#8 :: rest)) rest := by
  rw [inspectLoop, if_neg (by rw [hs]; decide), inspectStep, hs]
  rfl

theorem inspectLoop_newline (hs : s.state = .value) (prev : Byte) :
    inspectLoop prev s (0x0a#8 :: rest) =
      inspectLoop 0x0a#8 (inspectStep prev s 0x0a#8 rest) rest := by
  rw [inspectLoop, if_neg (by rw [hs]; decide)]

/-- How a label is compared with a name. -/
theorem label_eq_iff (label rest name : List Byte) :
    ((label ++ rest).length = rest.length + name.length ∧
      (label ++ rest).take name.length = name) ↔ label = name := by
  rw [length_append]
  constructor
  · rintro ⟨hlength, htake⟩
    rwa [take_left' (by omega)] at htake
  · rintro rfl
    exact ⟨by omega, take_left' rfl⟩

theorem inspectLabel_eq (hbegin : s.begin = label ++ 0x3d#8 :: rest) (hlabel : label ≠ []) :
    inspectLabel s (0x3d#8 :: rest) =
      if label = Field.id.label then
        if s.hasBid ≠ 0 then { s with state := .error }
        else { s with state := .value, hasBid := 1, begin := rest }
      else if label = Field.version.label then
        if s.hasVersion ≠ 0 then { s with state := .error }
        else { s with state := .value, hasVersion := 1, begin := rest }
      else { s with state := .value } := by
  have hne : ¬(0x3d#8 :: rest).length = s.begin.length := by
    rw [hbegin, length_append]
    have := length_pos_of_ne_nil hlabel
    omega
  have hid : ((label ++ 0x3d#8 :: rest).length = (0x3d#8 :: rest).length + 2 ∧
      (label ++ 0x3d#8 :: rest).take 2 = Field.id.label) ↔ label = Field.id.label :=
    label_eq_iff label _ Field.id.label
  have hversion : ((label ++ 0x3d#8 :: rest).length = (0x3d#8 :: rest).length + 7 ∧
      (label ++ 0x3d#8 :: rest).take 7 = Field.version.label) ↔ label = Field.version.label :=
    label_eq_iff label _ Field.version.label
  rw [inspectLabel, if_neg hne, hbegin]
  simp only [hid, hversion, tail_cons]

/-- A value is followed by the end of its line. -/
theorem stripCr_append (raw rest : List Byte) : ∃ c tail,
    raw ++ 0x0a#8 :: rest = stripCr raw ++ c :: tail ∧ (c = 0x0d#8 ∨ c = 0x0a#8) ∧
      (c :: tail).length =
        if raw.getLast?.getD 0x3d#8 = 0x0d#8 then rest.length + 2 else rest.length + 1 := by
  rw [stripCr]
  by_cases hcr : raw.getLast? = some 0x0d#8
  · refine ⟨0x0d#8, 0x0a#8 :: rest, ?_, .inl rfl, ?_⟩
    · rw [if_pos hcr, ← dropLast_append_getLast? _ hcr]
      simp
    · rw [hcr]
      rfl
  · refine ⟨0x0a#8, rest, ?_, .inr rfl, ?_⟩
    · rw [if_neg hcr]
    rw [if_neg, length_cons]
    cases hlast : raw.getLast? with
    | none => decide
    | some c =>
      rw [hlast] at hcr
      exact fun h => hcr (congrArg some h)

/-- A whole line, of which only its end changes more than the label did. -/
theorem inspectLoop_line (s₁ s₂ : Inspect) (hs : s.state = .label) (hbegin : s.begin = text)
    (hline : IsLine text label raw rest)
    (hlabel : inspectLabel s (0x3d#8 :: (raw ++ 0x0a#8 :: rest)) = s₁) (hs₁ : s₁.state = .value)
    (hvalue : inspectValue s₁
      (if raw.getLast?.getD 0x3d#8 = 0x0d#8 then rest.length + 2 else rest.length + 1) = s₂)
    (hs₂ : s₂.state = .value) (prev : Byte) :
    inspectLoop prev s text =
      inspectLoop 0x0a#8 { s₂ with state := .label, begin := rest } rest := by
  obtain ⟨first, tail, rfl, hfirst⟩ := hline.first
  obtain rfl := hline.eq
  obtain ⟨prev', hscan⟩ := inspectLoop_label hs hbegin hfirst
    (forall_mem_cons.mp hline.alnum).2 prev
  rw [hscan, inspectLoop_equals hs, hlabel, inspectLoop_value hs₁ hline.raw,
    inspectLoop_newline hs₁, inspectStep, hs₁]
  rw [if_pos rfl, hvalue, if_pos hs₂]

theorem IsLine.label_ne_nil (h : IsLine text label raw rest) : label ≠ [] := by
  obtain ⟨first, tail, rfl, -⟩ := h.first
  simp

theorem strnToBinary_of_fromhexstr {n : ℕ} {id : Binary n} (h : fromhexstr n value = some id) :
    strnToBinary n value = some (id, []) := by
  rw [fromhexstr] at h
  split at h
  case h_1 id' heq => rw [heq, Option.some.inj h]
  case h_2 => cases h

theorem strToUint64_of_all {number : BitVec 64} (h : strToUint64All value = some number) :
    strToUint64 value = (some number, []) := by
  rw [strToUint64All] at h
  split at h
  case h_1 value' heq => rw [heq, h]
  case h_2 => cases h

section

variable (hs : s.state = .label) (hbegin : s.begin = text) (hline : IsLine text label raw rest)
include hs hbegin hline

/-- A line other than those of the id and the version is passed over. -/
theorem inspectLoop_other_line (hid : label ≠ Field.id.label)
    (hversion : label ≠ Field.version.label) (hbid : s.hasBid ≠ 1) (hver : s.hasVersion ≠ 1)
    (prev : Byte) :
    inspectLoop prev s text =
      inspectLoop 0x0a#8 { s with state := .label, begin := rest } rest := by
  refine inspectLoop_line { s with state := .value } { s with state := .value } hs hbegin hline
    ?_ rfl ?_ rfl prev
  · rw [inspectLabel_eq (hbegin.trans hline.eq) hline.label_ne_nil, if_neg hid, if_neg hversion]
  · rw [inspectValue, if_neg hbid, if_neg hver]

theorem inspectLoop_id_line {bid : RhizomeBid} (hid : label = Field.id.label) (hbid : s.hasBid = 0)
    (hvalue : fromhexstr 32 (stripCr raw) = some bid) (prev : Byte) :
    inspectLoop prev s text = inspectLoop 0x0a#8
      { s with state := .label, begin := rest, hasBid := 2, bid := some bid } rest := by
  refine inspectLoop_line
    { s with state := .value, hasBid := 1, begin := raw ++ 0x0a#8 :: rest }
    { s with state := .value, hasBid := 2, begin := raw ++ 0x0a#8 :: rest, bid := some bid }
    hs hbegin hline ?_ rfl ?_ rfl prev
  · rw [inspectLabel_eq (hbegin.trans hline.eq) hline.label_ne_nil, if_pos hid,
      if_neg (not_not.mpr hbid)]
  obtain ⟨c, tail, heq, hc, hlength⟩ := stripCr_append raw rest
  have hhex : hexvalue c = none := by rcases hc with rfl | rfl <;> decide
  rw [inspectValue, if_pos rfl]
  rw [heq, strnToBinary_append _ _ _ hhex, strnToBinary_of_fromhexstr hvalue]
  exact if_pos hlength

theorem inspectLoop_version_line {version : BitVec 64}
    (hversion : label = Field.version.label) (hbid : s.hasBid ≠ 1) (hver : s.hasVersion = 0)
    (hvalue : strToUint64All (stripCr raw) = some version) (prev : Byte) :
    inspectLoop prev s text = inspectLoop 0x0a#8
      { s with state := .label, begin := rest, hasVersion := 2, version := some version } rest := by
  refine inspectLoop_line
    { s with state := .value, hasVersion := 1, begin := raw ++ 0x0a#8 :: rest }
    { s with
      state := .value
      hasVersion := 2
      begin := raw ++ 0x0a#8 :: rest
      version := some version }
    hs hbegin hline ?_ rfl ?_ rfl prev
  · rw [inspectLabel_eq (hbegin.trans hline.eq) hline.label_ne_nil, hversion, if_neg (by decide),
      if_pos rfl, if_neg (not_not.mpr hver)]
  obtain ⟨c, tail, heq, hc, hlength⟩ := stripCr_append raw rest
  have hdigit : digitValue c = none := by rcases hc with rfl | rfl <;> decide
  rw [inspectValue, if_neg hbid, if_pos rfl]
  rw [heq, strToUint64_append _ _ hdigit, strToUint64_of_all hvalue]
  exact if_pos hlength

end

end Scan

section Fields

variable {s s' : Parsing} {i : Inspect} {m m' : Manifest} {f : Field}
  {text label raw value rest p : List Byte}

theorem readInto_some {α : Type} {read : Option α} {free : Bool} {update : α → Manifest}
    (h : readInto read free update = .ok (some m')) :
    ∃ a, read = some a ∧ free = true ∧ m' = update a := by
  cases read with
  | none => exact absurd h (by simp [readInto])
  | some a =>
    cases free with
    | false => exact absurd h (by simp [readInto])
    | true =>
      refine ⟨a, rfl, rfl, ?_⟩
      exact (Option.some.inj (Except.ok.inj h)).symm

/-- A value does not change the variables, nor an id or a version that are there already. -/
theorem parseValue_frame (h : parseValue m value f = .ok (some m')) : m'.vars = m.vars ∧
    (m.cryptoSignPublic ≠ none → m'.cryptoSignPublic = m.cryptoSignPublic) ∧
    (m.version ≠ 0 → m'.version = m.version) := by
  cases f with
  | id =>
    obtain ⟨bid, -, hfree, rfl⟩ := readInto_some h
    exact ⟨rfl, fun hne => absurd (Option.isNone_iff_eq_none.mp hfree) hne, fun _ => rfl⟩
  | version =>
    obtain ⟨version, -, hfree, rfl⟩ := readInto_some h
    exact ⟨rfl, fun _ => rfl, fun hne => absurd (of_decide_eq_true hfree) hne⟩
  | name =>
    cases h
    exact ⟨rfl, fun _ => rfl, fun _ => rfl⟩
  | _ =>
    obtain ⟨_, -, -, rfl⟩ := readInto_some h
    exact ⟨rfl, fun _ => rfl, fun _ => rfl⟩

/-- What a field does that is neither a duplicate nor an essential one with an invalid value. -/
inductive FieldKept (label value : List Byte) (s s' : Parsing) : Prop where
  | added (f : Field) (m' : Manifest) (hf : Field.ofLabel label = some f)
      (hvalue : parseValue s.m value f = .ok (some m')) (hm : s'.m = m'.addVar label value)
  | skipped (reason : String) (hf : ∀ f, Field.ofLabel label = some f → f.essential = false)
      (hm : s'.m = s.m.withMalformed reason)

/-- No duplicate and no invalid essential field so far. -/
def Clean (s : Parsing) : Prop := s.hasInvalidEssential = 0 ∧ s.hasDuplicate = 0

theorem parseKnown_clean (hf : Field.ofLabel label = some f)
    (h : parseKnown s f label value = .ok s') (hclean : Clean s') :
    Clean s ∧ FieldKept label value s s' := by
  rw [parseKnown] at h
  split at h
  case h_1 => exact nomatch h
  case h_2 m' hvalue =>
    cases h
    exact ⟨hclean, .added f m' hf hvalue rfl⟩
  case h_3 =>
    split at h
    case isTrue =>
      cases h
      exact absurd hclean.1 (by simp)
    case isFalse hessential =>
      cases h
      refine ⟨hclean, .skipped "Invalid field" ?_ rfl⟩
      intro g hg
      cases hf.symm.trans hg
      exact Bool.eq_false_iff.mpr hessential

theorem parseField_clean (h : parseField s label value = .ok s') (hclean : Clean s') :
    Clean s ∧ rhizomeManifestGet s.m label = none ∧ FieldKept label value s s' := by
  rw [parseField] at h
  split at h
  case isTrue =>
    cases h
    exact absurd hclean.2 (by simp)
  rename_i hget
  split at h
  case h_1 hf =>
    cases h
    refine ⟨hclean, not_not.mp hget, .skipped "Unsupported field" ?_ rfl⟩
    exact fun f habs => absurd (hf.symm.trans habs) (by simp)
  case h_2 f hf =>
    obtain ⟨hs, hkept⟩ := parseKnown_clean hf h hclean
    exact ⟨hs, not_not.mp hget, hkept⟩

theorem get_addVar (hvars : m'.vars = m.vars) (hnone : rhizomeManifestGet m label = none)
    (var : List Byte) : rhizomeManifestGet (m'.addVar label value) var =
      if var = label then some value else rhizomeManifestGet m var := by
  rw [rhizomeManifestGet, Manifest.addVar, hvars]
  exact lookup_append (lookup_eq_none.mp hnone) var

/-- What the inspection has found so far is what the parser has found. -/
structure Agree (s : Parsing) (i : Inspect) : Prop where
  bid : (rhizomeManifestGet s.m Field.id.label = none ∧ i.hasBid = 0) ∨
    (rhizomeManifestGet s.m Field.id.label ≠ none ∧ i.hasBid = 2 ∧
      i.bid = s.m.cryptoSignPublic ∧ s.m.cryptoSignPublic ≠ none)
  version : (rhizomeManifestGet s.m Field.version.label = none ∧ i.hasVersion = 0) ∨
    (rhizomeManifestGet s.m Field.version.label ≠ none ∧ i.hasVersion = 2 ∧
      i.version = some s.m.version ∧ s.m.version ≠ 0)

theorem Agree.hasBid_ne_one (h : Agree s i) : i.hasBid ≠ 1 := by
  rcases h.bid with ⟨-, hbid⟩ | ⟨-, hbid, -⟩ <;> rw [hbid] <;> decide

theorem Agree.hasVersion_ne_one (h : Agree s i) : i.hasVersion ≠ 1 := by
  rcases h.version with ⟨-, hversion⟩ | ⟨-, hversion, -⟩ <;> rw [hversion] <;> decide

/-- An element of the struct, and a label, that a field leaves alone. -/
theorem FieldKept.frame (h : FieldKept label value s s')
    (hnone : rhizomeManifestGet s.m label = none) :
    (∀ var, var ≠ label → rhizomeManifestGet s'.m var = rhizomeManifestGet s.m var) ∧
      (s.m.cryptoSignPublic ≠ none → s'.m.cryptoSignPublic = s.m.cryptoSignPublic) ∧
      (s.m.version ≠ 0 → s'.m.version = s.m.version) := by
  cases h with
  | added f m' hf hvalue hm =>
    obtain ⟨hvars, hid, hversion⟩ := parseValue_frame hvalue
    rw [hm]
    refine ⟨fun var hvar => ?_, hid, hversion⟩
    rw [get_addVar hvars hnone, if_neg hvar]
  | skipped reason hf hm =>
    rw [hm]
    exact ⟨fun _ _ => rfl, fun _ => rfl, fun _ => rfl⟩

theorem Agree.frame (h : Agree s i) (hkept : FieldKept label value s s')
    (hnone : rhizomeManifestGet s.m label = none) :
    (label ≠ Field.id.label → (rhizomeManifestGet s'.m Field.id.label = none ∧ i.hasBid = 0) ∨
      (rhizomeManifestGet s'.m Field.id.label ≠ none ∧ i.hasBid = 2 ∧
        i.bid = s'.m.cryptoSignPublic ∧ s'.m.cryptoSignPublic ≠ none)) ∧
    (label ≠ Field.version.label →
      (rhizomeManifestGet s'.m Field.version.label = none ∧ i.hasVersion = 0) ∨
      (rhizomeManifestGet s'.m Field.version.label ≠ none ∧ i.hasVersion = 2 ∧
        i.version = some s'.m.version ∧ s'.m.version ≠ 0)) := by
  obtain ⟨hget, hpublic, hver⟩ := hkept.frame hnone
  refine ⟨fun hid => ?_, fun hversion => ?_⟩
  · rw [hget _ hid.symm]
    refine h.bid.imp_right fun ⟨hsome, hbid, heq, hne⟩ => ?_
    rw [hpublic hne]
    exact ⟨hsome, hbid, heq, hne⟩
  · rw [hget _ hversion.symm]
    refine h.version.imp_right fun ⟨hsome, hhas, heq, hne⟩ => ?_
    rw [hver hne]
    exact ⟨hsome, hhas, heq, hne⟩

/-- An essential field is kept with its value. -/
theorem FieldKept.essential (h : FieldKept label value s s')
    (hnone : rhizomeManifestGet s.m label = none) (hlabel : label = f.label)
    (hf : Field.ofLabel f.label = some f) (hessential : f.essential = true) :
    ∃ m', parseValue s.m value f = .ok (some m') ∧ s'.m = m'.addVar label value ∧
      rhizomeManifestGet s'.m label = some value := by
  rw [← hlabel] at hf
  cases h with
  | skipped reason hskip hm => exact absurd hessential (by simp [hskip f hf])
  | added g m' hg hvalue hm =>
    cases hf.symm.trans hg
    refine ⟨m', hvalue, hm, ?_⟩
    rw [hm, get_addVar (parseValue_frame hvalue).1 hnone, if_pos rfl]

/-- The inspection follows the parser over a line that the parser keeps. -/
theorem Agree.line (h : Agree s i) (hi : i.state = .label) (hbegin : i.begin = text)
    (hline : IsLine text label raw rest) (hnone : rhizomeManifestGet s.m label = none)
    (hkept : FieldKept label (stripCr raw) s s') (prev : Byte) :
    ∃ i', inspectLoop prev i text = inspectLoop 0x0a#8 i' rest ∧ i'.state = .label ∧
      i'.begin = rest ∧ Agree s' i' := by
  by_cases hid : label = Field.id.label
  · have hbid : i.hasBid = 0 := by
      rcases h.bid with ⟨-, hbid⟩ | ⟨habs, -⟩
      · exact hbid
      · exact absurd (hid ▸ hnone) habs
    obtain ⟨m', hvalue, hm, hget⟩ := hkept.essential hnone hid (by decide) rfl
    obtain ⟨bid, hread, -, rfl⟩ := readInto_some hvalue
    have hpublic : s'.m.cryptoSignPublic = some bid := by
      rw [hm]
      rfl
    refine ⟨_, inspectLoop_id_line hi hbegin hline hid hbid hread prev, rfl, rfl, ?_, ?_⟩
    · rw [← hid, hget, hpublic]
      exact .inr ⟨by simp, rfl, rfl, by simp⟩
    · exact (h.frame hkept hnone).2 (by rw [hid]; decide)
  · by_cases hversion : label = Field.version.label
    · have hver : i.hasVersion = 0 := by
        rcases h.version with ⟨-, hver⟩ | ⟨habs, -⟩
        · exact hver
        · exact absurd (hversion ▸ hnone) habs
      obtain ⟨m', hvalue, hm, hget⟩ := hkept.essential hnone hversion (by decide) rfl
      obtain ⟨version, hread, -, rfl⟩ := readInto_some hvalue
      obtain ⟨hread, hne⟩ := Option.filter_eq_some_iff.mp hread
      have hversion' : s'.m.version = version := by
        rw [hm]
        rfl
      refine ⟨_, inspectLoop_version_line hi hbegin hline hversion h.hasBid_ne_one hver hread
        prev, rfl, rfl, ?_, ?_⟩
      · exact (h.frame hkept hnone).1 hid
      · rw [← hversion, hget, hversion']
        exact .inr ⟨by simp, rfl, rfl, of_decide_eq_true hne⟩
    · exact ⟨_, inspectLoop_other_line hi hbegin hline hid hversion h.hasBid_ne_one
        h.hasVersion_ne_one prev, rfl, rfl, (h.frame hkept hnone).1 hid,
        (h.frame hkept hnone).2 hversion⟩

end Fields

section Agreement

variable {s s' : Parsing} {i : Inspect} {text p : List Byte}

theorem inspectLoop_end (hp : p.head?.any (· ≠ 0#8) = false) (prev : Byte) (i : Inspect) :
    inspectLoop prev i p = (i, p) := by
  cases p with
  | nil => rfl
  | cons c p => rw [inspectLoop, if_pos (.inr (by simpa using hp))]

theorem inspectLoop_error (hi : i.state = .error) (prev : Byte) (text : List Byte) :
    (inspectLoop prev i text).1 = i := by
  cases text with
  | nil => rfl
  | cons c text => rw [inspectLoop, if_pos (.inl hi)]

/-- A value that no newline ends leaves the inspection in it. -/
theorem inspectLoop_open_value {first : Byte} {tail raw : List Byte} (hi : i.state = .label)
    (hbegin : i.begin = text) (hfirst : isAlpha first = true) (htail : ∀ c ∈ tail, isAlnum c = true)
    (hraw : ∀ c ∈ raw, inValue c = true) (heq : text = first :: tail ++ 0x3d#8 :: (raw ++ p))
    (hp : p.head?.any (· ≠ 0#8) = false) (prev : Byte) :
    (inspectLoop prev i text).1.state ≠ .label := by
  rw [heq] at hbegin ⊢
  obtain ⟨prev', hlabel⟩ := inspectLoop_label hi hbegin hfirst htail prev
  have hvalue : ∀ i' : Inspect, i'.state = .value ∨ i'.state = .error →
      (inspectLoop 0x3d#8 i' (raw ++ p)).1.state ≠ .label := by
    rintro i' (hi' | hi')
    · rw [inspectLoop_value hi' hraw, inspectLoop_end hp, hi']
      decide
    · rw [inspectLoop_error hi', hi']
      decide
  rw [hlabel, inspectLoop_equals hi]
  refine hvalue _ ?_
  rw [inspectLabel_eq hbegin (by simp)]
  split
  · split
    · exact .inr rfl
    · exact .inl rfl
  split
  · split
    · exact .inr rfl
    · exact .inl rfl
  · exact .inl rfl

theorem inValue_of_isAlnum {c : Byte} (h : isAlnum c = true) : inValue c = true := by
  rw [inValue, Bool.and_eq_true, decide_eq_true_eq, decide_eq_true_eq]
  exact ⟨by rintro rfl; exact absurd h (by decide), by rintro rfl; exact absurd h (by decide)⟩

theorem IsRemainder.inspect (h : IsRemainder text p) (hi : i.state = .label)
    (hbegin : i.begin = text) (hp : p.head?.any (· ≠ 0#8) = false) (prev : Byte) :
    (0x3d#8 ∉ openLine text → inspectLoop prev i text = (i, p)) ∧
      (0x3d#8 ∈ openLine text → (inspectLoop prev i text).1.state ≠ .label) := by
  cases h with
  | label first tail hfirst htail heq =>
    have hall : ∀ c ∈ first :: tail, isAlnum c = true := by
      rintro c (_ | ⟨_, hc⟩)
      · exact isAlnum_of_isAlpha hfirst
      · exact htail c hc
    have hopen : openLine text = first :: tail := by
      rw [heq]
      exact openLine_eq (fun c hc => inValue_of_isAlnum (hall c hc)) hp
    rw [hopen]
    refine ⟨fun _ => ?_, fun habs => absurd (hall _ habs) (by decide)⟩
    rw [heq] at hbegin ⊢
    obtain ⟨prev', hlabel⟩ := inspectLoop_label hi hbegin hfirst htail prev
    rw [hlabel, inspectLoop_end hp]
  | value first tail raw hfirst htail hraw heq =>
    have hopen : openLine text = first :: tail ++ 0x3d#8 :: raw := by
      have hassoc : text = (first :: tail ++ 0x3d#8 :: raw) ++ p := by rw [heq]; simp
      rw [hassoc]
      refine openLine_eq (fun c hc => ?_) hp
      rcases mem_append.mp hc with (_ | ⟨_, hc⟩) | (_ | ⟨_, hc⟩)
      · exact inValue_of_isAlnum (isAlnum_of_isAlpha hfirst)
      · exact inValue_of_isAlnum (htail c hc)
      · decide
      · exact hraw c hc
    rw [hopen]
    exact ⟨fun habs => absurd (by simp) habs, fun _ =>
      inspectLoop_open_value hi hbegin hfirst htail hraw heq hp prev⟩

theorem IsLine.openLine_eq {label raw rest : List Byte} (h : IsLine text label raw rest) :
    openLine text = openLine rest := by
  have hassoc : text = (label ++ 0x3d#8 :: raw) ++ 0x0a#8 :: rest := by rw [h.eq]; simp
  rw [hassoc]
  refine openLine_append_newline fun c hc => ?_
  rcases mem_append.mp hc with hc | (_ | ⟨_, hc⟩)
  · rintro rfl
    exact absurd (h.alnum _ hc) (by decide)
  · decide
  · rintro rfl
    exact absurd (h.raw _ hc) (by decide)

theorem parseLoop_clean (hloop : parseLoop s text = .ok (s', p)) (hclean : Clean s') :
    Clean s := by
  fun_induction parseLoop s text with
  | case1 | case2 | case3 =>
    cases hloop
    exact hclean
  | case4 s text hend label value rest hline hroom s₁ hfield ih =>
    exact (parseField_clean hfield (ih hloop)).1
  | case5 => exact nomatch hloop

/-- The rest of a text that the parser takes. The induction is on the lines. -/
theorem parseLoop_inspect (hloop : parseLoop s text = .ok (s', p))
    (hp : p.head?.any (· ≠ 0#8) = false) (hclean : Clean s') (h : Agree s i)
    (hi : i.state = .label) (hbegin : i.begin = text) (prev : Byte) :
    (0x3d#8 ∉ openLine text → ∃ i', inspectLoop prev i text = (i', p) ∧
      i'.state = .label ∧ Agree s' i') ∧
    (0x3d#8 ∈ openLine text → (inspectLoop prev i text).1.state ≠ .label) := by
  fun_induction parseLoop s text generalizing i prev with
  | case1 s text hend =>
    obtain ⟨rfl, rfl⟩ := Prod.mk.inj (Except.ok.inj hloop)
    have hopen : openLine ([] ++ text) = [] := openLine_eq (by simp) hp
    rw [nil_append] at hopen
    rw [hopen]
    exact ⟨fun _ => ⟨i, inspectLoop_end hp prev i, hi, h⟩, nofun⟩
  | case2 s text hend q hline =>
    cases hloop
    have hhead : text.head?.any (· ≠ 0#8) = true := by
      cases text with
      | nil => exact absurd (.inl rfl) hend
      | cons c text => exact decide_eq_true fun hc => hend (.inr (congrArg some hc))
    obtain ⟨hlabel, hvalue⟩ := (parseLine_stop hline hhead hp).inspect hi hbegin hp prev
    exact ⟨fun hnot => ⟨i, hlabel hnot, hi, h⟩, hvalue⟩
  | case3 s text hend label value rest hline hfull =>
    cases hloop
    exact nomatch hp
  | case4 s text hend label value rest hline hroom s₁ hfield ih =>
    obtain ⟨raw, hshape, rfl⟩ := parseLine_field hline
    obtain ⟨-, hnone, hkept⟩ := parseField_clean hfield (parseLoop_clean hloop hclean)
    obtain ⟨i₁, hscan, hi₁, hbegin₁, h₁⟩ := h.line hi hbegin hshape hnone hkept prev
    rw [hscan, hshape.openLine_eq]
    exact ih hloop h₁ hi₁ hbegin₁ 0x0a#8
  | case5 s text hend label value rest hline hroom e hfield => exact nomatch hloop

theorem rhizomeManifestParse_zero {data : List Byte} {m : Manifest}
    (h : rhizomeManifestParse (freshWith data) = .ok (0, m)) : ∃ s p,
      parseLoop ⟨freshWith data, 0, 0⟩ data = .ok (s, p) ∧ p.head?.any (· ≠ 0#8) = false ∧
      Clean s ∧ m = { s.m with manifestBodyBytes := data.length - (afterBody p).length } := by
  rw [rhizomeManifestParse] at h
  split at h
  case isFalse => exact nomatch h
  split at h
  case h_1 => exact nomatch h
  case h_2 s p hloop =>
    split at h
    case isTrue => exact nomatch h
    case isFalse hok =>
      cases h
      rw [not_or, not_or, not_not, not_not, Bool.not_eq_true] at hok
      exact ⟨s, p, hloop, hok.1, hok.2, rfl⟩

theorem afterBody_eq (hp : p.head?.any (· ≠ 0#8) = false) :
    (if p.head? = some 0#8 then p.tail else p) = afterBody p := by
  cases p with
  | nil => rfl
  | cons c p =>
    obtain rfl : c = 0#8 := by simpa using hp
    rfl

/-- A manifest that the parser accepts is seen the same by the inspection, if that accepts it, and
it does if the labels are spelled as it expects them and a newline ends every value. -/
theorem rhizomeManifestInspect_of_parse {data : List Byte} {m : Manifest}
    (hparse : rhizomeManifestParse (freshWith data) = .ok (0, m)) :
    ((rhizomeManifestInspect data).1 = true →
      (rhizomeManifestInspect data).2.bid = m.cryptoSignPublic ∧
      (rhizomeManifestInspect data).2.version = some m.version ∧
      (rhizomeManifestInspect data).2.bodyLen = m.manifestBodyBytes) ∧
    (rhizomeManifestGet m Field.id.label ≠ none → rhizomeManifestGet m Field.version.label ≠ none →
      ((rhizomeManifestInspect data).1 = true ↔ 0x3d#8 ∉ openLine data)) := by
  obtain ⟨s, p, hloop, hp, hclean, rfl⟩ := rhizomeManifestParse_zero hparse
  obtain ⟨hclosed, hopen⟩ := parseLoop_inspect hloop hp hclean
    (i := ⟨.label, data, 0, 0, none, none⟩) ⟨.inl ⟨rfl, rfl⟩, .inl ⟨rfl, rfl⟩⟩ rfl rfl 0#8
  rw [rhizomeManifestInspect]
  by_cases hequals : 0x3d#8 ∈ openLine data
  · have hstate := hopen hequals
    have hnot : ¬((inspectLoop 0#8 ⟨.label, data, 0, 0, none, none⟩ data).1.state = .label ∧
        (inspectLoop 0#8 ⟨.label, data, 0, 0, none, none⟩ data).1.hasBid = 2 ∧
        (inspectLoop 0#8 ⟨.label, data, 0, 0, none, none⟩ data).1.hasVersion = 2) :=
      fun h => hstate h.1
    refine ⟨fun habs => absurd (of_decide_eq_true habs) hnot, fun _ _ => ?_⟩
    exact iff_of_false (fun habs => hnot (of_decide_eq_true habs)) (not_not.mpr hequals)
  · obtain ⟨i, hscan, hi, hagree⟩ := hclosed hequals
    rw [hscan]
    dsimp only
    rw [afterBody_eq hp, decide_eq_true_eq]
    refine ⟨?_, fun hid hversion => iff_of_true ⟨hi, ?_, ?_⟩ hequals⟩
    · rintro ⟨-, hbid, hver⟩
      refine ⟨?_, ?_, rfl⟩
      · rcases hagree.bid with ⟨-, habs⟩ | ⟨-, -, heq, -⟩
        · exact absurd (habs.symm.trans hbid) (by decide)
        · exact heq
      · rcases hagree.version with ⟨-, habs⟩ | ⟨-, -, heq, -⟩
        · exact absurd (habs.symm.trans hver) (by decide)
        · exact heq
    · rcases hagree.bid with ⟨habs, -⟩ | ⟨-, hbid, -⟩
      · exact absurd habs hid
      · exact hbid
    · rcases hagree.version with ⟨habs, -⟩ | ⟨-, hver, -⟩
      · exact absurd habs hversion
      · exact hver

/-- The essential fields of an empty file. -/
def sampleEssential : List Byte :=
  Field.id.label ++ 0x3d#8 :: tohex (List.replicate 32 0xb2#8) ++ 0x0a#8 ::
    Field.version.label ++ 0x3d#8 :: ascii ['1'] ++ 0x0a#8 ::
    Field.filesize.label ++ 0x3d#8 :: ascii ['0'] ++ [0x0a#8]

def sampleParsed (data : List Byte) : Manifest :=
  ((rhizomeManifestParse (freshWith data)).toOption.map Prod.snd).getD rhizomeNewManifest

theorem rhizomeManifestInspect_of_parse_essential :
    rhizomeManifestGet (sampleParsed (sampleEssential ++ [0#8])) Field.id.label ≠ none ∧
      rhizomeManifestGet (sampleParsed (sampleEssential ++ [0#8])) Field.version.label ≠ none ∧
      0x3d#8 ∉ openLine (sampleEssential ++ [0#8]) ∧
      (rhizomeManifestInspect (sampleEssential ++ [0#8])).1 = true ∧
      (rhizomeManifestInspect (sampleEssential ++ [0#8])).2.bid =
        (sampleParsed (sampleEssential ++ [0#8])).cryptoSignPublic := by
  have hparse : rhizomeManifestParse (freshWith (sampleEssential ++ [0#8])) =
      .ok (0, sampleParsed (sampleEssential ++ [0#8])) := by decide +kernel
  have hid :
      rhizomeManifestGet (sampleParsed (sampleEssential ++ [0#8])) Field.id.label ≠ none := by
    decide +kernel
  have hversion : rhizomeManifestGet (sampleParsed (sampleEssential ++ [0#8]))
      Field.version.label ≠ none := by decide +kernel
  have hopen : 0x3d#8 ∉ openLine (sampleEssential ++ [0#8]) := by decide +kernel
  have hinspect := rhizomeManifestInspect_of_parse hparse
  have haccepted := (hinspect.2 hid hversion).mpr hopen
  exact ⟨hid, hversion, hopen, haccepted, (hinspect.1 haccepted).1⟩

/-- The parser accepts a last value that no newline ends, the inspection does not. -/
theorem rhizomeManifestInspect_open_value :
    (rhizomeManifestParse (freshWith (sampleEssential ++ Field.name.label ++
        [0x3d#8, 0x78#8, 0#8]))).toOption.map (fun result =>
          (result.1, rhizomeManifestValidateReason result.2,
            result.2.vars.map Prod.fst)) =
        some (0, none, [Field.id.label, Field.version.label, Field.filesize.label]) ∧
      (rhizomeManifestInspect (sampleEssential ++ Field.name.label ++
        [0x3d#8, 0x78#8, 0#8])).1 = false := by
  decide +kernel

end Agreement

end ServalMesh.Rhizome
