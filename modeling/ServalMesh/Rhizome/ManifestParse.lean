import ServalMesh.Rhizome.Manifest

/-!
# Reading a manifest

The parser goes through the text line by line and fills the variables and the struct. The
inspection of an advertised manifest goes through it character by character, and finds only the
id, the version and the length of the body.
-/

namespace ServalMesh.Rhizome

open Lib Overlay

section Lines

/-- How one pass of the parser's loop leaves it: at the end of a line, or with a `break` at what
is left. -/
inductive Line where
  | stop (p : List Byte)
  | field (label value rest : List Byte)

/-- The carriage return at the end of a line is not part of the value. -/
def stripCr (value : List Byte) : List Byte :=
  if value.getLast? = some 0x0d#8 then value.dropLast else value

/-- A byte that is before the end of the line. -/
def inValue (c : Byte) : Bool := c ≠ 0#8 && c ≠ 0x0a#8

def parseValueLine (label p : List Byte) : Line :=
  match p.dropWhile inValue with
  | [] => .stop []
  | c :: rest =>
    if c = 0x0a#8 then .field label (stripCr (p.takeWhile inValue)) rest
    else .stop (c :: rest)

/-- A byte after the end reads as NUL. -/
def parseLine : List Byte → Line
  | [] => .stop []
  | first :: p =>
    if !isAlpha first then .stop (first :: p)
    else
      match p.dropWhile isAlnum with
      | [] => .stop []
      | c :: value =>
        if c = 0x3d#8 then parseValueLine (first :: p.takeWhile isAlnum) value
        else .stop (c :: value)

end Lines

section Fields

/-- The field that a label names, in any case. -/
def Field.ofLabel (label : List Byte) : Option Field :=
  Field.all.find? fun f => label.map toLower = f.label.map toLower

/-- The fields without which a bundle is not carried. -/
def Field.essential : Field → Bool
  | .id | .version | .filehash | .filesize | .tail => true
  | _ => false

/-- Keeps what was read; the struct's element is asserted to be free. -/
def readInto {α : Type} (read : Option α) (free : Bool) (update : α → Manifest) :
    Except Abort (Option Manifest) :=
  match read with
  | none => .ok none
  | some a => if free then .ok (some (update a)) else .error .assertion

def parseValue (m : Manifest) (value : List Byte) : Field → Except Abort (Option Manifest)
  | .id => readInto (fromhexstr 32 value) m.cryptoSignPublic.isNone fun bid =>
      { m with cryptoSignPublic := some bid }
  | .version => readInto ((strToUint64All value).filter (· ≠ 0)) (m.version = 0) fun version =>
      { m with version }
  | .filehash => readInto (fromhexstr 64 value) m.filehash.isNone fun hash =>
      { m with filehash := some hash }
  | .filesize => readInto ((strToUint64All value).filter (· ≠ sizeUnset))
      (m.filesize = sizeUnset) fun filesize => { m with filesize }
  | .tail => readInto ((strToUint64All value).filter (· ≠ sizeUnset)) (m.tail = sizeUnset)
      fun tail => { m with tail, isJournal := true }
  | .bk => readInto (fromhexstr 32 value) m.bundleKey.isNone fun bk =>
      { m with bundleKey := some bk }
  | .service => readInto (if rhizomeStrIsManifestService value then some value else none)
      m.service.isNone fun service => { m with service := some service }
  | .date => readInto (strToInt64 value) m.date.isNone fun date => { m with date := some date }
  | .sender => readInto (strToSid value) m.sender.isNone fun sid => { m with sender := some sid }
  | .recipient => readInto (strToSid value) m.recipient.isNone fun sid =>
      { m with recipient := some sid }
  | .name => .ok (some { m with name := some value })
  | .crypt => readInto
      (if value = ascii ['0'] then some ManifestCrypt.payloadClear
        else if value = ascii ['1'] then some .payloadEncrypted else none)
      (m.payloadEncryption = .payloadCryptUnknown) fun flag => { m with payloadEncryption := flag }

def Manifest.addVar (m : Manifest) (label value : List Byte) : Manifest :=
  { m with vars := m.vars ++ [(label, value)] }

def Manifest.withMalformed (m : Manifest) (reason : String) : Manifest :=
  { m with malformed := some reason }

/-- What the parser's loop changes. -/
structure Parsing where
  m : Manifest
  hasInvalidEssential : ℕ
  hasDuplicate : ℕ

/-- A field that this version knows. -/
def parseKnown (s : Parsing) (f : Field) (label value : List Byte) : Except Abort Parsing :=
  match parseValue s.m value f with
  | .error e => .error e
  | .ok (some m) => .ok { s with m := m.addVar label value }
  | .ok none =>
    if f.essential then .ok { s with hasInvalidEssential := s.hasInvalidEssential + 1 }
    else .ok { s with m := s.m.withMalformed "Invalid field" }

def parseField (s : Parsing) (label value : List Byte) : Except Abort Parsing :=
  if rhizomeManifestGet s.m label ≠ none then .ok { s with hasDuplicate := s.hasDuplicate + 1 }
  else
    match Field.ofLabel label with
    | none => .ok { s with m := s.m.withMalformed "Unsupported field" }
    | some f => parseKnown s f label value

end Fields

section Parser

/-- The shape of a line that the parser takes. -/
structure IsLine (text label raw rest : List Byte) : Prop where
  eq : text = label ++ 0x3d#8 :: (raw ++ 0x0a#8 :: rest)
  first : ∃ first tail, label = first :: tail ∧ isAlpha first = true
  alnum : ∀ c ∈ label, isAlnum c = true
  raw : ∀ c ∈ raw, inValue c = true

/-- The shape of what the parser leaves after the last newline, if it accepts it. -/
inductive IsRemainder (text p : List Byte) : Prop where
  | label (first : Byte) (tail : List Byte) (hfirst : isAlpha first = true)
      (htail : ∀ c ∈ tail, isAlnum c = true) (heq : text = first :: tail ++ p)
  | value (first : Byte) (tail raw : List Byte) (hfirst : isAlpha first = true)
      (htail : ∀ c ∈ tail, isAlnum c = true) (hraw : ∀ c ∈ raw, inValue c = true)
      (heq : text = first :: tail ++ 0x3d#8 :: (raw ++ p))

theorem isAlnum_of_isAlpha {c : Byte} (h : isAlpha c = true) : isAlnum c = true := by
  rw [isAlnum, h, Bool.true_or]

/-- A line is taken, or the parser stops before it or in it. -/
theorem parseLine_spec (text : List Byte) : match parseLine text with
    | .field label value rest => ∃ raw, IsLine text label raw rest ∧ value = stripCr raw
    | .stop p => p = text ∨ IsRemainder text p := by
  cases text with
  | nil => exact .inl rfl
  | cons first q =>
    rw [parseLine]
    by_cases hfirst : isAlpha first = true
    · have htail : ∀ c ∈ q.takeWhile isAlnum, isAlnum c = true := fun c => List.mem_takeWhile_imp
      have hq : q.takeWhile isAlnum ++ q.dropWhile isAlnum = q := List.takeWhile_append_dropWhile
      rw [if_neg (by simp [hfirst])]
      cases hrest : q.dropWhile isAlnum with
      | nil =>
        rw [hrest] at hq
        exact .inr (.label first _ hfirst htail (congrArg (first :: ·) hq).symm)
      | cons c value =>
        rw [hrest] at hq
        dsimp only
        by_cases hequals : c = 0x3d#8
        · have hraw : ∀ c ∈ value.takeWhile inValue, inValue c = true := fun c =>
            List.mem_takeWhile_imp
          have hvalue : value.takeWhile inValue ++ value.dropWhile inValue = value :=
            List.takeWhile_append_dropWhile
          have htext : first :: q = first :: q.takeWhile isAlnum ++ 0x3d#8 ::
              (value.takeWhile inValue ++ value.dropWhile inValue) := by
            rw [hvalue, ← hequals, List.cons_append, hq]
          rw [if_pos hequals, parseValueLine]
          cases hend : value.dropWhile inValue with
          | nil => exact .inr (.value first _ _ hfirst htail hraw (hend ▸ htext))
          | cons d rest =>
            rw [hend] at htext
            dsimp only
            by_cases hnewline : d = 0x0a#8
            · rw [if_pos hnewline]
              exact ⟨_, ⟨hnewline ▸ htext, ⟨first, _, rfl, hfirst⟩,
                List.forall_mem_cons.mpr ⟨isAlnum_of_isAlpha hfirst, htail⟩, hraw⟩, rfl⟩
            · rw [if_neg hnewline]
              exact .inr (.value first _ _ hfirst htail hraw htext)
        · rw [if_neg hequals]
          exact .inr (.label first _ hfirst htail (congrArg (first :: ·) hq).symm)
    · rw [if_pos (by simp [hfirst])]
      exact .inl rfl

theorem length_parseLine {text l v rest : List Byte} (h : parseLine text = .field l v rest) :
    rest.length < text.length := by
  have hspec := parseLine_spec text
  rw [h] at hspec
  obtain ⟨raw, hline, -⟩ := hspec
  rw [hline.eq]
  simp only [List.length_append, List.length_cons]
  omega

/-- The parser's loop, and where it ends. -/
def parseLoop (s : Parsing) (text : List Byte) : Except Abort (Parsing × List Byte) :=
  if text.head? = none ∨ text.head? = some 0#8 then .ok (s, text)
  else
    match _h : parseLine text with
    | .stop p => .ok (s, p)
    | .field label value rest =>
      if maxManifestVars ≤ s.m.vars.length then .ok (s, 0x0a#8 :: rest)
      else
        match parseField s label value with
        | .ok s => parseLoop s rest
        | .error e => .error e
termination_by text.length
decreasing_by exact length_parseLine _h

def rhizomeManifestClear (m : Manifest) : Manifest :=
  { m with
    vars := []
    malformed := none
    cryptoSignPublic := none
    filehash := none
    isJournal := false
    filesize := sizeUnset
    tail := sizeUnset
    version := 0 }

/-- The NUL after the body belongs to it. -/
def afterBody : List Byte → List Byte
  | [] => []
  | _ :: rest => rest

/-- A fresh manifest that has been given some text. -/
def freshWith (data : List Byte) : Manifest := { rhizomeNewManifest with manifestdata := data }

/-- `rhizome_manifest_parse` of `manifestdata`. -/
def rhizomeManifestParse (m : Manifest) : Except Abort (ℕ × Manifest) :=
  if m.manifestdata.length ≤ maxManifestBytes ∧ m.manifestBodyBytes = 0 ∧ m.vars = [] ∧
      m.finalised = false ∧ m.malformed = none ∧ m.cryptoSignPublic = none ∧ m.filehash = none ∧
      m.isJournal = false ∧ m.filesize = sizeUnset ∧ m.tail = sizeUnset ∧ m.version = 0 ∧
      m.date = none ∧ m.sender = none ∧ m.recipient = none ∧
      m.payloadEncryption = .payloadCryptUnknown then
    match parseLoop ⟨m, 0, 0⟩ m.manifestdata with
    | .error e => .error e
    | .ok (s, p) =>
      if (p.head?.any (· ≠ 0#8)) ∨ s.hasInvalidEssential ≠ 0 ∨ s.hasDuplicate ≠ 0 then
        .ok (1, rhizomeManifestClear s.m)
      else
        .ok (0, { s.m with
          manifestBodyBytes := m.manifestdata.length - (afterBody p).length })
  else .error .assertion

end Parser

section Inspection

inductive InspectState where
  | label
  | value
  | error
deriving DecidableEq

/-- The local variables of `rhizome_manifest_inspect`, a pointer being what it points to up to the
end of the buffer, and what it wrote into the summary. -/
structure Inspect where
  state : InspectState
  begin : List Byte
  hasBid : ℕ
  hasVersion : ℕ
  bid : Option RhizomeBid
  version : Option (BitVec 64)
deriving DecidableEq

/-- The end of a label, at `p`. -/
def inspectLabel (s : Inspect) (p : List Byte) : Inspect :=
  if p.length = s.begin.length then { s with state := .error }
  else if s.begin.length = p.length + 2 ∧ s.begin.take 2 = Field.id.label then
    if s.hasBid ≠ 0 then { s with state := .error }
    else { s with state := .value, hasBid := 1, begin := p.tail }
  else if s.begin.length = p.length + 7 ∧ s.begin.take 7 = Field.version.label then
    if s.hasVersion ≠ 0 then { s with state := .error }
    else { s with state := .value, hasVersion := 1, begin := p.tail }
  else { s with state := .value }

/-- The value of a line that ends at `eol`. -/
def inspectValue (s : Inspect) (eol : ℕ) : Inspect :=
  if s.hasBid = 1 then
    match strnToBinary 32 s.begin with
    | some (bid, e) =>
      if e.length = eol then { s with hasBid := 2, bid := some bid }
      else { s with bid := some bid, state := .error }
    | none => { s with state := .error }
  else if s.hasVersion = 1 then
    match strToUint64 s.begin with
    | (some version, e) =>
      if e.length = eol then { s with hasVersion := 2, version := some version }
      else { s with version := some version, state := .error }
    | (none, _) => { s with state := .error }
  else s

/-- One pass of the loop, `prev` being the byte before `p`. -/
def inspectStep (prev : Byte) (s : Inspect) (c : Byte) (rest : List Byte) : Inspect :=
  match s.state with
  | .label =>
    if c = 0x3d#8 then inspectLabel s (c :: rest)
    else if if (c :: rest).length = s.begin.length then isAlpha c else isAlnum c then s
    else { s with state := .error }
  | .value =>
    if c = 0x0a#8 then
      let s := inspectValue s (if prev = 0x0d#8 then rest.length + 2 else rest.length + 1)
      if s.state = .value then { s with state := .label, begin := rest } else s
    else s
  | .error => s

def inspectLoop (prev : Byte) (s : Inspect) : List Byte → Inspect × List Byte
  | [] => (s, [])
  | c :: rest =>
    if s.state = .error ∨ c = 0#8 then (s, c :: rest)
    else inspectLoop c (inspectStep prev s c rest) rest

/-- `struct rhizome_manifest_summary`. -/
structure Summary where
  bid : Option RhizomeBid
  version : Option (BitVec 64)
  bodyLen : ℕ
deriving DecidableEq

def rhizomeManifestInspect (buf : List Byte) : Bool × Summary :=
  let (s, p) := inspectLoop 0#8 ⟨.label, buf, 0, 0, none, none⟩ buf
  let p := if p.head? = some 0#8 then p.tail else p
  (s.state = .label ∧ s.hasBid = 2 ∧ s.hasVersion = 2, ⟨s.bid, s.version, buf.length - p.length⟩)

end Inspection

end ServalMesh.Rhizome
