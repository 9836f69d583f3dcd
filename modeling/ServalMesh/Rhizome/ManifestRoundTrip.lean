import ServalMesh.Rhizome.ManifestParse
import ServalMesh.Rhizome.ManifestRuns

/-!
# Packed manifests are read back

Every text that a setter writes stays on its line. The parser takes back each of them but the
numbers that stand for a field that is not set, and negative dates.
-/

namespace ServalMesh.Rhizome

open Lib Overlay List Option Manifest

variable {m m' p p' : Manifest} {f : Field} {value : List Byte}

section Lines

/-- A byte that does not end a value. -/
def Inline (c : Byte) : Prop := c ≠ 0#8 ∧ c ≠ 0x0a#8 ∧ c ≠ 0x0d#8

theorem inline_of_isAlnum {c : Byte} (h : isAlnum c = true) : Inline c := by
  refine ⟨?_, ?_, ?_⟩ <;> rintro rfl <;> exact absurd h (by decide)

theorem inline_of_written (hw : Written f value) {c : Byte} (hc : c ∈ value) : Inline c := by
  have hhex : ∀ {n : ℕ} {id : Binary n}, value = tohex id.bytes → Inline c := by
    rintro n id rfl
    exact inline_of_isAlnum (isAlnum_of_mem_tohex hc)
  have hdecimal : (∃ number, value = printUint64 number) → Inline c := by
    rintro ⟨number, rfl⟩
    refine inline_of_isAlnum ?_
    rw [isAlnum, isDigit_of_mem_decimal hc, Bool.or_true]
  cases f with
  | id | bk | sender | recipient | filehash =>
    obtain ⟨id, hid⟩ := hw
    exact hhex hid
  | version | filesize | tail | date => exact hdecimal hw
  | service =>
    have hall := (Bool.and_eq_true_iff.mp hw).2
    have hc' := all_eq_true.mp hall c hc
    refine ⟨?_, ?_, ?_⟩ <;> rintro rfl <;> exact absurd hc' (by decide)
  | name =>
    have hc' := all_eq_true.mp hw.1 c hc
    rw [Bool.and_eq_true] at hc'
    exact ⟨fun h => hw.2 (h ▸ hc), of_decide_eq_true hc'.1, of_decide_eq_true hc'.2⟩
  | crypt =>
    refine inline_of_isAlnum ?_
    rcases hw with rfl | rfl <;> rw [mem_singleton.mp hc] <;> rfl

variable {label : List Byte}

/-- A label that is followed by the value's line. -/
theorem parseLine_eq {first : Byte} (hfirst : isAlpha first = true)
    (hlabel : ∀ c ∈ label, isAlnum c = true) (value : List Byte) :
    parseLine (first :: label ++ 0x3d#8 :: value) = parseValueLine (first :: label) value := by
  have htake : (label ++ 0x3d#8 :: value).takeWhile isAlnum = label := by
    rw [takeWhile_append_of_pos hlabel]
    simp [show isAlnum 0x3d#8 = false by decide]
  have hdrop : (label ++ 0x3d#8 :: value).dropWhile isAlnum = 0x3d#8 :: value := by
    rw [dropWhile_append_of_pos hlabel]
    simp [show isAlnum 0x3d#8 = false by decide]
  rw [cons_append, parseLine, hfirst, hdrop, htake]
  rfl

theorem parseValueLine_eq (hvalue : ∀ c ∈ value, inValue c = true) (rest : List Byte) :
    parseValueLine label (value ++ 0x0a#8 :: rest) = .field label (stripCr value) rest := by
  rw [parseValueLine, dropWhile_append_of_pos hvalue, takeWhile_append_of_pos hvalue]
  simp [inValue]

theorem stripCr_eq (hvalue : 0x0d#8 ∉ value) : stripCr value = value := by
  rw [stripCr, if_neg]
  intro h
  exact hvalue (mem_of_getLast? h)

theorem Field.exists_cons_label (f : Field) : ∃ first rest, f.label = first :: rest ∧
    isAlpha first = true ∧ ∀ c ∈ rest, isAlnum c = true := by
  cases f <;> exact ⟨_, _, rfl, by decide, by decide⟩

theorem parseLine_packLine (hw : Written f value) (rest : List Byte) :
    parseLine (packLine (f.label, value) ++ rest) = .field f.label value rest := by
  obtain ⟨first, label, hlabel, hfirst, htail⟩ := f.exists_cons_label
  have hinline : ∀ c ∈ value, Inline c := fun c => inline_of_written hw
  have htext : packLine (f.label, value) ++ rest =
      first :: label ++ 0x3d#8 :: (value ++ 0x0a#8 :: rest) := by
    rw [packLine, hlabel]
    simp
  rw [htext, parseLine_eq hfirst htail,
    parseValueLine_eq (fun c hc => by simp [inValue, (hinline c hc).1, (hinline c hc).2.1]),
    stripCr_eq (fun hc => (hinline _ hc).2.2 rfl), hlabel]

end Lines

section Values

/-- The texts of setters that the parser accepts. -/
def Readable : Field → List Byte → Prop
  | .version, text => strToUint64All text ≠ some 0
  | .filesize, text | .tail, text => strToUint64All text ≠ some sizeUnset
  | .date, text => strToInt64 text ≠ none
  | _, _ => True

/-- The struct has no date before the epoch. -/
def DateNonneg (m : Manifest) : Prop := ∀ date ∈ m.date, 0 ≤ date.toInt

/-- The parser has put a field's text into the struct. -/
structure Reads (f : Field) (value : List Byte) (p p' : Manifest) : Prop where
  vars : p'.vars = p.vars
  journal : p.Journal → p'.Journal
  this : p'.fieldText f = some value
  other : ∀ g, g ≠ f → p'.fieldText g = p.fieldText g
  date : DateNonneg p → DateNonneg p'

/-- An update of one element that is not the date. -/
theorem Reads.of_update (hvars : p'.vars = p.vars) (hjournal : p.Journal → p'.Journal)
    (hdate : p'.date = p.date) (hthis : p'.fieldText f = some value)
    (hother : ∀ g, g ≠ f → p'.fieldText g = p.fieldText g := by
      intro g hg; cases g <;> first | rfl | exact absurd rfl hg) : Reads f value p p' := by
  refine ⟨hvars, hjournal, hthis, hother, fun h => ?_⟩
  rwa [DateNonneg, hdate]

/-- What becomes of a value that a setter wrote. -/
def Outcome (p : Manifest) (value : List Byte) (f : Field)
    (result : Except Abort (Option Manifest)) : Prop :=
  (result = .ok none ∧ ¬Readable f value) ∨
    ∃ p', result = .ok (some p') ∧ Readable f value ∧ Reads f value p p'

theorem readInto_outcome {α : Type} {read : Option α} {a : α} {free : Bool}
    {update : α → Manifest} (hread : read = some a) (hfree : free = true)
    (hreadable : Readable f value) (hreads : Reads f value p (update a)) :
    Outcome p value f (readInto read free update) := by
  refine .inr ⟨update a, ?_, hreadable, hreads⟩
  rw [hread, hfree]
  rfl

/-- A number is read unless it is the one that means that there is none. -/
theorem readInto_number_outcome {number unset : BitVec 64} {free : Bool}
    {update : BitVec 64 → Manifest} (hvalue : value = printUint64 number) (hfree : free = true)
    (hreadable : Readable f value ↔ strToUint64All value ≠ some unset)
    (hreads : number ≠ unset → Reads f value p (update number)) :
    Outcome p value f (readInto ((strToUint64All value).filter (· ≠ unset)) free update) := by
  rw [hvalue, strToUint64All_print, ← hvalue] at hreadable ⊢
  by_cases h : number = unset
  · refine .inl ⟨?_, fun habs => hreadable.mp habs (by rw [h])⟩
    rw [filter_some, h]
    simp [readInto]
  · refine readInto_outcome ?_ hfree (hreadable.mpr fun habs => h (Option.some.inj habs)) (hreads h)
    simp [h]

/-- If the struct does not have the field yet, no assertion fails. -/
theorem parseValue_outcome (hjournal : p.Journal) (hfree : p.fieldText f = none)
    (hw : Written f value) : Outcome p value f (parseValue p value f) := by
  cases f with
  | id | filehash | bk =>
    obtain ⟨binary, rfl⟩ := hw
    exact readInto_outcome (fromhexstr_tohex binary)
      (isNone_iff_eq_none.mpr (map_eq_none_iff.mp hfree))
      trivial (.of_update rfl id rfl rfl)
  | version | filesize =>
    obtain ⟨number, hnumber⟩ := hw
    rw [fieldText, ite_eq_left_iff] at hfree
    have hunset := by_contra fun hne => some_ne_none _ (hfree hne)
    refine readInto_number_outcome hnumber (decide_eq_true hunset) Iff.rfl fun hne =>
      .of_update rfl id rfl ?_
    rw [hnumber]
    exact if_neg hne
  | tail =>
    obtain ⟨tail, htail⟩ := hw
    have hunset : p.tail = sizeUnset := by
      have hnot : p.isJournal = false := by simpa [fieldText] using hfree
      rw [Journal, hnot] at hjournal
      simpa using hjournal
    refine readInto_number_outcome htail (decide_eq_true hunset) Iff.rfl fun hne =>
      .of_update rfl (fun _ => (decide_eq_true hne).symm) rfl ?_
    rw [htail]
    rfl
  | service =>
    exact readInto_outcome (if_pos hw) (isNone_iff_eq_none.mpr hfree) trivial
      (.of_update rfl id rfl rfl)
  | date =>
    obtain ⟨date, rfl⟩ := hw
    have hread := strToInt64_print date
    split at hread
    case isTrue hnonneg =>
      refine readInto_outcome hread ?_ (by rw [Readable, hread]; simp) ⟨rfl, id, rfl, ?_, ?_⟩
      · exact isNone_iff_eq_none.mpr (map_eq_none_iff.mp hfree)
      · intro g hg
        cases g <;> first | rfl | exact absurd rfl hg
      · rintro - d ⟨⟩
        exact hnonneg
    case isFalse =>
      refine .inl ⟨?_, fun habs => habs hread⟩
      rw [parseValue, hread]
      rfl
  | sender | recipient =>
    obtain ⟨sid, rfl⟩ := hw
    exact readInto_outcome (strToSid_tohex sid) (isNone_iff_eq_none.mpr (map_eq_none_iff.mp hfree))
      trivial (.of_update rfl id rfl rfl)
  | name => exact .inr ⟨_, rfl, trivial, .of_update rfl id rfl rfl⟩
  | crypt =>
    have hunknown : p.payloadEncryption = .payloadCryptUnknown := by
      rw [fieldText] at hfree
      split at hfree
      case h_1 h => exact h
      all_goals cases hfree
    rcases hw with rfl | rfl
    all_goals
      rw [parseValue]
      exact readInto_outcome rfl (decide_eq_true hunknown) trivial (.of_update rfl id rfl rfl)

end Values

section Loop

variable {s s' s'' : Parsing} {entries : List (List Byte × List Byte)}

/-- What the parser makes of lines that setters wrote. -/
structure Took (entries : List (List Byte × List Byte)) (s s' : Parsing) : Prop where
  inStep : InStep s'.m
  date : DateNonneg s'.m
  duplicate : s'.hasDuplicate = s.hasDuplicate
  vars : s'.m.vars.Sublist (s.m.vars ++ entries)
  all : (∀ e ∈ entries, ∀ f : Field, f.label = e.1 → Readable f e.2) →
    s'.m.vars = s.m.vars ++ entries ∧ s'.hasInvalidEssential = s.hasInvalidEssential

theorem Took.nil (h : InStep s.m) (hdate : DateNonneg s.m) : Took [] s s :=
  ⟨h, hdate, rfl, by rw [append_nil], fun _ => ⟨(append_nil _).symm, rfl⟩⟩

theorem Took.cons {e : List Byte × List Byte} (h : Took [e] s s') (h' : Took entries s' s'') :
    Took (e :: entries) s s'' := by
  refine ⟨h'.inStep, h'.date, h'.duplicate.trans h.duplicate, ?_, fun hall => ?_⟩
  · rw [← singleton_append, ← append_assoc]
    exact h'.vars.trans (h.vars.append_right _)
  obtain ⟨hfirst, hrest⟩ := forall_mem_cons.mp hall
  obtain ⟨hvars, hinvalid⟩ := h.all (forall_mem_singleton.mpr hfirst)
  obtain ⟨hvars', hinvalid'⟩ := h'.all hrest
  refine ⟨?_, hinvalid'.trans hinvalid⟩
  rw [hvars', hvars, append_assoc, singleton_append]

theorem Field.ofLabel_label (f : Field) : ofLabel f.label = some f := by
  cases f <;> decide

theorem InStep.fieldText_eq_none (h : InStep m) (hnew : f.label ∉ m.vars.map Prod.fst) :
    m.fieldText f = none := by
  rw [← h.get_eq]
  exact lookup_eq_none.mpr hnew

section

variable (h : InStep s.m) (hdate : DateNonneg s.m) (hnew : f.label ∉ s.m.vars.map Prod.fst)
  (hw : Written f value)
include h hdate hnew hw

theorem parseKnown_took :
    ∃ s', parseKnown s f f.label value = .ok s' ∧ Took [(f.label, value)] s s' := by
  rcases parseValue_outcome h.journal (h.fieldText_eq_none hnew) hw with
    ⟨hresult, hunreadable⟩ | ⟨p', hresult, -, hreads⟩
  · have hnot : ¬∀ e ∈ [(f.label, value)], ∀ g : Field, g.label = e.1 → Readable g e.2 :=
      fun hall => hunreadable (hall _ (mem_singleton_self _) f rfl)
    simp only [parseKnown, hresult]
    split
    case isTrue =>
      exact ⟨_, rfl, h, hdate, rfl, sublist_append_left .., fun hall => absurd hall hnot⟩
    case isFalse =>
      exact ⟨_, rfl, Sound.apart h, hdate, rfl, sublist_append_left ..,
        fun hall => absurd hall hnot⟩
  · have hvars : (p'.addVar f.label value).vars = s.m.vars ++ [(f.label, value)] := by
      rw [addVar, hreads.vars]
    have htext : ∀ g, (p'.addVar f.label value).fieldText g = p'.fieldText g :=
      fun g => vars_fieldText ..
    simp only [parseKnown, hresult]
    refine ⟨_, rfl, ?_, hreads.date hdate, rfl, ?_, fun _ => ⟨hvars, rfl⟩⟩
    · refine (append_edited h hnew hvars).sound (hreads.journal h.journal) ?_ fun g hg => ?_
      · rw [htext, hreads.this]
      · rw [htext, hreads.other g hg]
        exact h.related g
    · rw [hvars]

theorem parseField_took :
    ∃ s', parseField s f.label value = .ok s' ∧ Took [(f.label, value)] s s' := by
  have hget : rhizomeManifestGet s.m f.label = none := lookup_eq_none.mpr hnew
  rw [parseField, if_neg (not_not.mpr hget), Field.ofLabel_label]
  exact parseKnown_took h hdate hnew hw

end

theorem parseLoop_field {label value rest text : List Byte} (hhead : text.head?.any (· ≠ 0#8))
    (hline : parseLine text = .field label value rest) (hroom : s.m.vars.length < maxManifestVars)
    (hfield : parseField s label value = .ok s') : parseLoop s text = parseLoop s' rest := by
  rw [parseLoop, if_neg]
  · split
    case h_1 h => exact absurd (hline.symm.trans h) (by simp)
    case h_2 h =>
      obtain ⟨rfl, rfl, rfl⟩ := Line.field.inj (hline.symm.trans h)
      rw [if_neg (not_le.mpr hroom), hfield]
  · rintro (hend | hend)
    all_goals
      rw [hend] at hhead
      cases hhead

theorem head?_packLine (f : Field) (value rest : List Byte) :
    (packLine (f.label, value) ++ rest).head?.any (· ≠ 0#8) = true := by
  obtain ⟨first, tail, hcons, hfirst, -⟩ := f.exists_cons_label
  rw [packLine, hcons]
  refine decide_eq_true ?_
  rintro rfl
  exact absurd hfirst (by decide)

theorem parseLoop_took (h : InStep s.m) (hdate : DateNonneg s.m)
    (hwritten : ∀ e ∈ entries, ∃ f : Field, f.label = e.1 ∧ Written f e.2)
    (hnodup : ((s.m.vars ++ entries).map Prod.fst).Nodup) :
    ∃ s', parseLoop s (entries.flatMap packLine ++ [0#8]) = .ok (s', [0#8]) ∧
      Took entries s s' := by
  induction entries generalizing s with
  | nil =>
    refine ⟨s, ?_, .nil h hdate⟩
    rw [parseLoop]
    rfl
  | cons e entries ih =>
    obtain ⟨f, hlabel, hw⟩ := hwritten e mem_cons_self
    obtain ⟨label, value⟩ := e
    obtain rfl : f.label = label := hlabel
    have hnew : f.label ∉ s.m.vars.map Prod.fst := by
      rw [map_append, nodup_append] at hnodup
      exact fun hmem => hnodup.2.2 _ hmem _ mem_cons_self rfl
    obtain ⟨s₁, hfield, htook⟩ := parseField_took h hdate hnew hw
    have hnodup₁ : ((s₁.m.vars ++ entries).map Prod.fst).Nodup := by
      refine hnodup.sublist (List.Sublist.map _ ?_)
      rw [← singleton_append, ← append_assoc]
      exact htook.vars.append_right _
    obtain ⟨s', hloop, htook'⟩ := ih htook.inStep htook.date
      (forall_mem_cons.mp hwritten).2 hnodup₁
    refine ⟨s', ?_, htook.cons htook'⟩
    rw [flatMap_cons, append_assoc,
      parseLoop_field (head?_packLine ..) (parseLine_packLine hw _) h.length_lt hfield]
    exact hloop

end Loop

section RoundTrip

/-- The fields whose variable may be there without the struct's element. -/
def Field.stale : Field → Bool
  | .version | .filesize | .tail | .bk => true
  | _ => false

/-- What the variable of a field can be after any run of calls. -/
structure Recorded (f : Field) (text var : Option (List Byte)) : Prop where
  eq_or_stale : var = text ∨ (text = none ∧ f.stale = true)
  written : ∀ value, var = some value → Written f value

theorem recorded_reflects : Reflects Recorded where
  absent _ := ⟨.inl rfl, nofun⟩
  written _ _ hw := ⟨.inl rfl, fun _ h => Option.some.inj h ▸ hw⟩

theorem recorded_admits (m : Manifest) (op : ManifestOp) (h : Sound Recorded m) :
    Admits Recorded m op := by
  cases op with
  | setId bid => exact fun _ => ⟨.inr ⟨rfl, rfl⟩, (h.related .bk).written⟩
  | setVersion v | setFilesize v | setTail v =>
    exact fun _ => ⟨.inr ⟨rfl, rfl⟩, fun _ hv => ⟨v, (Option.some.inj hv).symm⟩⟩
  | _ => trivial

theorem runManifestOps_recorded {ops : List ManifestOp}
    (hrun : runManifestOps rhizomeNewManifest ops = .ok m) : Sound Recorded m :=
  runManifestOps_sound recorded_reflects recorded_admits
    (rhizomeNewManifest_sound recorded_reflects) hrun

/-- The elements of the struct that are fields of the text. -/
structure SameFields (p m : Manifest) : Prop where
  id : p.cryptoSignPublic = m.cryptoSignPublic
  version : p.version = m.version
  filesize : p.filesize = m.filesize
  filehash : p.filehash = m.filehash
  tail : p.tail = m.tail
  isJournal : p.isJournal = m.isJournal
  bundleKey : p.bundleKey = m.bundleKey
  service : p.service = m.service
  name : p.name = m.name
  date : p.date = m.date
  sender : p.sender = m.sender
  recipient : p.recipient = m.recipient
  crypt : p.payloadEncryption = m.payloadEncryption

theorem tohex_injective {n : ℕ} : Function.Injective fun id : Binary n => tohex id.bytes := by
  intro a b h
  have hb := fromhexstr_tohex b
  dsimp only at h
  rw [← h, fromhexstr_tohex] at hb
  exact Option.some.inj hb

theorem printUint64_injective : Function.Injective printUint64 := by
  intro a b h
  have hb := strToUint64All_print b
  rw [← h, strToUint64All_print] at hb
  exact Option.some.inj hb

theorem SameFields.fieldText_eq (h : SameFields p m) (f : Field) :
    p.fieldText f = m.fieldText f := by
  cases f <;> simp only [fieldText, h.id, h.version, h.filesize, h.filehash, h.tail,
    h.isJournal, h.bundleKey, h.service, h.name, h.date, h.sender, h.recipient, h.crypt]

/-- A number of which one value means that there is none. -/
theorem number_eq {a b unset : BitVec 64}
    (h : (if a = unset then none else some (printUint64 a)) =
      if b = unset then none else some (printUint64 b)) : a = b := by
  split at h <;> split at h
  case isTrue.isTrue ha hb => rw [ha, hb]
  case isTrue.isFalse | isFalse.isTrue => exact nomatch h
  case isFalse.isFalse => exact printUint64_injective (Option.some.inj h)

theorem fieldText_tail (h : m.Journal) : m.fieldText .tail =
    if m.tail = sizeUnset then none else some (printUint64 m.tail) := by
  rw [fieldText, h]
  by_cases htail : m.tail = sizeUnset <;> simp [htail]

/-- The texts determine the elements. -/
theorem sameFields_of_fieldText (hp : p.Journal) (hm : m.Journal)
    (h : ∀ f, p.fieldText f = m.fieldText f) : SameFields p m := by
  have htail : p.tail = m.tail :=
    number_eq (by rw [← fieldText_tail hp, ← fieldText_tail hm, h])
  have hcrypt : p.payloadEncryption = m.payloadEncryption := by
    have hcrypt := h .crypt
    rw [fieldText, fieldText] at hcrypt
    cases hpc : p.payloadEncryption <;> cases hmc : m.payloadEncryption <;>
      rw [hpc, hmc] at hcrypt <;> first | rfl | exact absurd hcrypt (by decide)
  exact {
    id := map_injective tohex_injective (h .id)
    version := number_eq (h .version)
    filesize := number_eq (h .filesize)
    filehash := map_injective tohex_injective (h .filehash)
    tail := htail
    isJournal := by rw [hp, hm, htail]
    bundleKey := map_injective tohex_injective (h .bk)
    service := h .service
    name := h .name
    date := map_injective printUint64_injective (h .date)
    sender := map_injective tohex_injective (h .sender)
    recipient := map_injective tohex_injective (h .recipient)
    crypt := hcrypt }

theorem freshWith_inStep (data : List Byte) : InStep (freshWith data) :=
  Sound.apart (rhizomeNewManifest_sound inStep_reflects)

/-- What becomes of a text that was packed. -/
theorem rhizomeManifestParse_packed (h : Sound Recorded m) {data : List Byte}
    (hdata : data = m.vars.flatMap packLine ++ [0#8]) (hlength : data.length ≤ maxManifestBytes) :
    ∃ s', Took m.vars ⟨freshWith data, 0, 0⟩ s' ∧ rhizomeManifestParse (freshWith data) =
      if s'.hasInvalidEssential ≠ 0 then .ok (1, rhizomeManifestClear s'.m)
      else .ok (0, { s'.m with manifestBodyBytes := data.length }) := by
  have hwritten : ∀ e ∈ m.vars, ∃ f : Field, f.label = e.1 ∧ Written f e.2 := by
    intro e he
    obtain ⟨f, hf, hget⟩ := h.exists_field he
    exact ⟨f, hf, (h.related f).written _ hget⟩
  obtain ⟨s', hloop, htook⟩ := parseLoop_took (s := ⟨freshWith data, 0, 0⟩)
    (freshWith_inStep data)
    (fun date hdate => absurd hdate (by simp [freshWith, rhizomeNewManifest]))
    hwritten h.nodup
  refine ⟨s', htook, ?_⟩
  rw [rhizomeManifestParse, if_pos ⟨hlength, rfl, rfl, rfl, rfl, rfl, rfl, rfl, rfl, rfl, rfl, rfl,
    rfl, rfl, rfl⟩]
  have hloop' : parseLoop ⟨freshWith data, 0, 0⟩ (freshWith data).manifestdata =
      .ok (s', [0#8]) := by
    rw [← hloop, ← hdata]
    rfl
  have hduplicate : s'.hasDuplicate = 0 := htook.duplicate
  rw [hloop']
  dsimp only
  rw [hduplicate]
  by_cases hinvalid : s'.hasInvalidEssential = 0
  · simp [hinvalid, afterBody]
    rfl
  · simp [hinvalid]

/-- Whether the parser takes all lines of a manifest back. -/
def parsesBack (m : Manifest) : Bool :=
  (m.bundleKey.isSome || (rhizomeManifestGet m Field.bk.label).isNone) &&
    (m.tail ≠ sizeUnset || (rhizomeManifestGet m Field.tail.label).isNone) &&
    m.date.all fun date => 0 ≤ date.toInt

theorem dateNonneg_iff :
    (m.date.all fun date => decide (0 ≤ date.toInt)) = true ↔ DateNonneg m := by
  rw [DateNonneg]
  cases m.date <;> simp

theorem essential_of_valid (h : rhizomeManifestValidateReason m = none) :
    m.version ≠ 0 ∧ m.filesize ≠ sizeUnset := by
  rw [rhizomeManifestValidateReason] at h
  split at h
  case isTrue => exact nomatch h
  case isFalse =>
    split at h
    case isTrue => exact nomatch h
    case isFalse hversion =>
      refine ⟨hversion, fun habs => ?_⟩
      rw [if_pos habs] at h
      exact nomatch h

/-- A manifest that is valid has the essential fields in both copies. -/
theorem parsesBack_iff (h : Sound Recorded m) (hvalid : rhizomeManifestValidateReason m = none) :
    parsesBack m = true ↔ InStep m ∧ DateNonneg m := by
  obtain ⟨hversion, hfilesize⟩ := essential_of_valid hvalid
  rw [parsesBack, Bool.and_eq_true, Bool.and_eq_true, dateNonneg_iff, Bool.or_eq_true,
    Bool.or_eq_true, decide_eq_true_eq, isNone_iff_eq_none, isNone_iff_eq_none]
  constructor
  · rintro ⟨⟨hbk, htail⟩, hdate⟩
    refine ⟨⟨h.nodup, h.known, fun f => ?_, h.journal⟩, hdate⟩
    rcases (h.related f).eq_or_stale with heq | ⟨hnone, hstale⟩
    · exact heq
    rw [hnone]
    cases f with
    | version => exact absurd (by simpa [fieldText] using hnone) hversion
    | filesize => exact absurd (by simpa [fieldText] using hnone) hfilesize
    | tail =>
      refine htail.resolve_left (not_not.mpr ?_)
      rw [fieldText_tail h.journal] at hnone
      simpa using hnone
    | bk =>
      refine hbk.resolve_left ?_
      rw [map_eq_none_iff.mp hnone]
      simp
    | _ => exact absurd hstale (by simp [Field.stale])
  · rintro ⟨hstep, hdate⟩
    refine ⟨⟨?_, ?_⟩, hdate⟩
    · rw [hstep.get_eq, fieldText, map_eq_none_iff]
      cases m.bundleKey <;> simp
    · rw [hstep.get_eq, fieldText_tail h.journal]
      by_cases htail : m.tail = sizeUnset <;> simp [htail]

/-- What agrees with the struct is accepted. -/
theorem readable_of_inStep (h : InStep m) (hdate : DateNonneg m)
    (hget : rhizomeManifestGet m f.label = some value) : Readable f value := by
  rw [h.get_eq] at hget
  cases f with
  | version | filesize | tail =>
    first
    | rw [fieldText_tail h.journal] at hget
    | rw [fieldText] at hget
    split at hget
    case isTrue => cases hget
    case isFalse hne =>
      rw [Readable, ← Option.some.inj hget, strToUint64All_print]
      exact fun habs => hne (Option.some.inj habs)
  | date =>
    obtain ⟨date, hsome, rfl⟩ := map_eq_some_iff.mp hget
    rw [Readable, strToInt64_print, if_pos (hdate date hsome)]
    simp
  | _ => trivial

/-- A manifest that was built by the setters and packed is parsed into the same variables and
elements exactly if the parser takes all its lines back. -/
theorem rhizomeManifestParse_pack_iff {ops : List ManifestOp} {validated packed : Manifest}
    (hrun : runManifestOps rhizomeNewManifest ops = .ok m)
    (hvalid : rhizomeManifestValidate m = (true, validated))
    (hpack : rhizomeManifestPackVariables validated = some packed) :
    (∃ p, rhizomeManifestParse (freshWith packed.manifestdata) = .ok (0, p) ∧ p.vars = m.vars ∧
      SameFields p m ∧ p.manifestBodyBytes = packed.manifestBodyBytes) ↔ parsesBack m = true := by
  have h := runManifestOps_recorded hrun
  obtain ⟨hreason, hvalidated⟩ := Prod.mk.inj hvalid
  have hvars : validated.vars = m.vars := by rw [← hvalidated]
  obtain ⟨hdata, hbody, hlength⟩ := rhizomeManifestPackVariables_spec hpack
  rw [hvars] at hdata
  obtain ⟨s', htook, hparse⟩ := rhizomeManifestParse_packed h hdata hlength
  rw [parsesBack_iff h (of_decide_eq_true hreason), hparse]
  have hstep' : InStep { s'.m with manifestBodyBytes := packed.manifestdata.length } :=
    Sound.apart htook.inStep
  constructor
  · rintro ⟨p, hp, hpvars, hsame, -⟩
    split at hp
    case isTrue => exact nomatch hp
    cases hp
    have hget : ∀ f : Field, rhizomeManifestGet m f.label = m.fieldText f := by
      intro f
      rw [← hsame.fieldText_eq, ← hstep'.get_eq, rhizomeManifestGet, ← hpvars]
      rfl
    refine ⟨⟨h.nodup, h.known, hget, h.journal⟩, ?_⟩
    rw [DateNonneg, ← hsame.date]
    exact htook.date
  · rintro ⟨hstep, hdate⟩
    obtain ⟨hs'vars, hinvalid⟩ := htook.all fun e he f hf =>
      readable_of_inStep hstep hdate (by rw [hf]; exact lookup_of_mem h.nodup he)
    rw [if_neg (not_not.mpr hinvalid)]
    refine ⟨_, rfl, hs'vars, sameFields_of_fieldText hstep'.journal h.journal fun f => ?_,
      hbody.symm⟩
    rw [← hstep'.get_eq, ← hstep.get_eq, rhizomeManifestGet, hs'vars]
    rfl

/-- The manifest that some calls build, and its packed form, if it is valid and fits. -/
def buildAndPack (ops : List ManifestOp) : Option (Manifest × Manifest) :=
  match runManifestOps rhizomeNewManifest ops with
  | .error _ => none
  | .ok m =>
    if (rhizomeManifestValidate m).1 then
      (rhizomeManifestPackVariables (rhizomeManifestValidate m).2).map fun packed => (m, packed)
    else none

/-- A file with all fields that it may have. -/
def sampleFile : List ManifestOp :=
  [.setId (sampleBid 0xa1#8), .setVersion 12, .setFilesize 2, .setFilehash (some sampleHash),
    .setTail 7, .setBundleKey (some sampleBk), .setService (some ⟨rhizomeServiceFile, by decide⟩),
    .setName (some ⟨ascii ['a', ' ', '=', 'b'], by decide⟩), .setDate 1447000000000,
    .setSender (some sidAny), .setCrypt .payloadClear]

def sampleFileBuilt : Manifest :=
  ((buildAndPack sampleFile).map Prod.fst).getD rhizomeNewManifest

def sampleFilePacked : Manifest :=
  ((buildAndPack sampleFile).map Prod.snd).getD rhizomeNewManifest

theorem rhizomeManifestParse_pack_file :
    parsesBack sampleFileBuilt = true ∧
      ∃ p, rhizomeManifestParse (freshWith sampleFilePacked.manifestdata) = .ok (0, p) ∧
        p.vars = sampleFileBuilt.vars ∧ SameFields p sampleFileBuilt ∧
        p.manifestBodyBytes = sampleFilePacked.manifestBodyBytes := by
  have hrun : runManifestOps rhizomeNewManifest sampleFile = .ok sampleFileBuilt := by
    decide +kernel
  have hvalid : rhizomeManifestValidate sampleFileBuilt =
      (true, (rhizomeManifestValidate sampleFileBuilt).2) := by decide +kernel
  have hpack : rhizomeManifestPackVariables (rhizomeManifestValidate sampleFileBuilt).2 =
      some sampleFilePacked := by decide +kernel
  have hback : parsesBack sampleFileBuilt = true := by decide +kernel
  exact ⟨hback, (rhizomeManifestParse_pack_iff hrun hvalid hpack).mpr hback⟩

/-- A date before the epoch is printed as a large number, which the parser does not accept: the
field is lost. -/
theorem rhizomeManifestParse_pack_negative_date :
    (buildAndPack [.setId (sampleBid 0xa1#8), .setVersion 1, .setFilesize 0,
      .setDate (BitVec.ofInt 64 (-1))]).map (fun built =>
        (built.1.date, built.1.vars.length,
          (rhizomeManifestParse (freshWith built.2.manifestdata)).toOption.map fun result =>
            (result.1, result.2.date, result.2.vars.length))) =
      some (some (BitVec.ofInt 64 (-1)), 4, some (0, none, 3)) := by
  decide +kernel

end RoundTrip

end ServalMesh.Rhizome
