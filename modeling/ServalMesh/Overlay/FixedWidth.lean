import ServalMesh.Overlay.Overrun

/-!
# Numbers of a fixed width

The functions that append a number and those that read one are written out byte by byte. The one
that reads 64 bits shifts its fourth byte too far, and the last four as an `int`.
-/

namespace ServalMesh.Overlay

open List

section Definitions

/-- `test_offset`, if the bytes can be read. -/
def testOffset (b : OverlayBuffer) (length : ℕ) : Bool :=
  fits (b.position + length) b.sizeLimit && b.position + length ≤ b.allocSize

/-- What all functions do that read a number. -/
def obGetNumber {w : ℕ} (b : OverlayBuffer) (length : ℕ) (value : List Byte → BitVec w)
    (failed : BitVec w) : BitVec w × OverlayBuffer :=
  if testOffset b length then
    (value (((b.memory.getD []).drop b.position).take length),
      { b with position := b.position + length })
  else (failed, b)

/-- What `ob_get_ui64` makes of its bytes. The last four are shifted before they are converted. -/
def ui64Value (bytes : List Byte) : BitVec 64 :=
  orShifted [56, 48, 40, 36] bytes |||
    (orShifted [24, 16, 8, 0] (bytes.drop 4) : BitVec 32).signExtend 64

namespace OverlayBuffer

variable (b : OverlayBuffer)

def obGetUi16 : BitVec 16 × OverlayBuffer := obGetNumber b 2 (ui16Value ∘ some) (ui16Value none)

def obGetUi16Rv : BitVec 16 × OverlayBuffer := obGetNumber b 2 (orShifted [0, 8]) 0xFFFF#16

def obGetUi32 : BitVec 32 × OverlayBuffer :=
  obGetNumber b 4 (orShifted [24, 16, 8, 0]) 0xFFFFFFFF#32

def obGetUi32Rv : BitVec 32 × OverlayBuffer :=
  obGetNumber b 4 (orShifted [0, 8, 16, 24]) 0xFFFFFFFF#32

def obGetUi64Rv : BitVec 64 × OverlayBuffer :=
  obGetNumber b 8 (orShifted [0, 8, 16, 24, 32, 40, 48, 56]) 0xFFFFFFFF#64

def obGetUi64 : BitVec 64 × OverlayBuffer := obGetNumber b 8 ui64Value 0xFFFFFFFF#64

end OverlayBuffer

/-- The calls that append a number of a fixed width. -/
def ObAppend.fixedWidth : ObAppend → Bool
  | .ui16 _ | .ui16Rv _ | .ui32 _ | .ui32Rv _ | .ui64 _ | .ui64Rv _ => true
  | _ => false

/-- The number is read that a call appended. -/
def ObAppend.readBack (b : OverlayBuffer) : ObAppend → ObAppend × OverlayBuffer
  | .ui16 _ => b.obGetUi16.map .ui16 id
  | .ui16Rv _ => b.obGetUi16Rv.map .ui16Rv id
  | .ui32 _ => b.obGetUi32.map .ui32 id
  | .ui32Rv _ => b.obGetUi32Rv.map .ui32Rv id
  | .ui64 _ => b.obGetUi64.map .ui64 id
  | .ui64Rv _ => b.obGetUi64Rv.map .ui64Rv id
  | a => (a, b)

def readBackAll (b : OverlayBuffer) : List ObAppend → List ObAppend × OverlayBuffer
  | [] => ([], b)
  | a :: record =>
    let (x, b) := a.readBack b
    (readBackAll b record).map (x :: ·) id

/-- The number that `ob_get_ui64` reads again: it is negative as an `int` and nothing but ones is
before that, or it is not and the byte before it is zero. -/
def ReadsUi64 (v : BitVec 64) : Prop :=
  if v.getLsbD 31 then ∀ i, 32 ≤ i → i < 64 → v.getLsbD i = true
  else ∀ i, 32 ≤ i → i < 40 → v.getLsbD i = false

end Definitions

section Bits

variable {w : ℕ} {i : ℕ}

theorem getLsbD_orShifted (v : BitVec w) (shifts : List ℕ) (hi : i < w) :
    (orShifted shifts (shifts.map fun shift => (v >>> shift).setWidth 8) : BitVec w).getLsbD i =
      (shifts.any (fun shift => shift ≤ i ∧ i < shift + 8) && v.getLsbD i) := by
  induction shifts with
  | nil => simp [orShifted]
  | cons shift shifts ih =>
    rw [map_cons, orShifted, BitVec.getLsbD_or, ih, any_cons, Bool.and_or_distrib_right]
    congr 1
    by_cases hle : shift ≤ i
    · have hwidth : i - shift < w := by omega
      have height : i - shift < 8 ↔ i < shift + 8 := by omega
      simp [hi, hle, hwidth, height, not_lt.mpr hle]
    · simp [hle, not_le.mp hle]

/-- Bytes that have all bits are put together again. -/
theorem orShifted_eq (v : BitVec w) (shifts : List ℕ)
    (hall : ∀ i < w, shifts.any (fun shift => shift ≤ i ∧ i < shift + 8) = true) :
    orShifted shifts (shifts.map fun shift => (v >>> shift).setWidth 8) = v := by
  apply BitVec.eq_of_getLsbD_eq
  intro i hi
  rw [getLsbD_orShifted v shifts hi, hall i hi, Bool.true_and]

theorem getLsbD_ui64Value (v : BitVec 64) (hi : i < 64) :
    (ui64Value (littleEndian 8 v).reverse).getLsbD i =
      if i < 32 then v.getLsbD i
      else 40 ≤ i && v.getLsbD i || (36 ≤ i && i < 44) && v.getLsbD (i - 4) || v.getLsbD 31 := by
  have hbytes : (littleEndian 8 v).reverse =
      [56, 48, 40, 32, 24, 16, 8, 0].map fun shift => (v >>> shift).setWidth 8 := rfl
  simp only [hbytes, map_cons, map_nil, ui64Value, drop_succ_cons, drop_zero, orShifted,
    BitVec.getLsbD_or, BitVec.getLsbD_signExtend, BitVec.getLsbD_shiftLeft, BitVec.getLsbD_setWidth,
    BitVec.getLsbD_ushiftRight, BitVec.msb_eq_getLsbD_last, BitVec.getLsbD_zero]
  grind

theorem ui64Value_iff (v : BitVec 64) : ui64Value (littleEndian 8 v).reverse = v ↔ ReadsUi64 v := by
  have hbits : ui64Value (littleEndian 8 v).reverse = v ↔ ∀ i < 64, (if i < 32 then v.getLsbD i
      else 40 ≤ i && v.getLsbD i || (36 ≤ i && i < 44) && v.getLsbD (i - 4) || v.getLsbD 31) =
        v.getLsbD i := by
    refine ⟨fun h i hi => ?_, fun h => BitVec.eq_of_getLsbD_eq fun i hi => ?_⟩
    · rw [← getLsbD_ui64Value v hi, h]
    · rw [getLsbD_ui64Value v hi, h i hi]
  rw [hbits, ReadsUi64]
  cases hsign : v.getLsbD 31 with
  | true => grind
  | false =>
    constructor
    · -- the low nibble of the byte is lost, and then the high one is where it was
      intro h i hle hlt
      have hbit := h i (by omega)
      have hnibble := h (i - 4) (by omega)
      grind
    · intro h i hi
      have hnibble := h (i - 4)
      grind

end Bits

section Buffers

variable {original : ℕ → Byte} {room : Option ℕ} {b b' : OverlayBuffer} {c : Content} {a : ObAppend}
  {record : List ObAppend} {bytes rest : List Byte}

/-- The bytes that a call appends. -/
def ObAppend.data (a : ObAppend) : List Byte := a.pieces.flatten

theorem ObAppend.run_fixedWidth (h : a.fixedWidth = true) (b : OverlayBuffer) :
    a.run b = obPut b a.data ∧ a.data ≠ [] := by
  cases a <;> simp_all [fixedWidth, run, data, pieces, obAppendUi16, obAppendUi16Rv, obAppendUi32,
    obAppendUi32Rv, obAppendUi64, obAppendUi64Rv, littleEndian]

theorem obGetNumber_eq {w : ℕ} (value : List Byte → BitVec w) (failed : BitVec w)
    (htest : testOffset b bytes.length = true)
    (hdata : (b.memory.getD []).drop b.position = bytes ++ rest) :
    obGetNumber b bytes.length value failed =
      (value bytes, { b with position := b.position + bytes.length }) := by
  rw [obGetNumber, if_pos htest, hdata, take_left' rfl]

/-- Reading back what was appended gives the same number, but for those that `ob_get_ui64` does not
read. -/
theorem ObAppend.readBack_eq (h : a.fixedWidth = true) (htest : testOffset b a.data.length = true)
    (hdata : (b.memory.getD []).drop b.position = a.data ++ rest) :
    ∃ a', a.readBack b = (a', { b with position := b.position + a.data.length }) ∧
      (a' = a ↔ ∀ v, a = .ui64 v → ReadsUi64 v) := by
  have hget : ∀ {w : ℕ} (value : List Byte → BitVec w) (failed v : BitVec w),
      value a.data = v → obGetNumber b a.data.length value failed =
        (v, { b with position := b.position + a.data.length }) := by
    rintro w value failed _ rfl
    exact obGetNumber_eq value failed htest hdata
  cases a with
  | ui64 v => exact ⟨_, congrArg (Prod.map ui64 id) (hget _ _ _ rfl), by
      simp [data, pieces, ui64Value_iff]⟩
  | ui16 v => exact ⟨_, congrArg (Prod.map ui16 id) (hget _ _ v
      (orShifted_eq v [8, 0] (by decide))), by simp⟩
  | ui16Rv v => exact ⟨_, congrArg (Prod.map ui16Rv id) (hget _ _ v
      (orShifted_eq v [0, 8] (by decide))), by simp⟩
  | ui32 v => exact ⟨_, congrArg (Prod.map ui32 id) (hget _ _ v
      (orShifted_eq v [24, 16, 8, 0] (by decide))), by simp⟩
  | ui32Rv v => exact ⟨_, congrArg (Prod.map ui32Rv id) (hget _ _ v
      (orShifted_eq v [0, 8, 16, 24] (by decide))), by simp⟩
  | ui64Rv v => exact ⟨_, congrArg (Prod.map ui64Rv id) (hget _ _ v
      (orShifted_eq v [0, 8, 16, 24, 32, 40, 48, 56] (by decide))), by simp⟩
  | _ => exact nomatch h

theorem readBackAll_eq (hwidth : ∀ a ∈ record, a.fixedWidth = true)
    (htest : testOffset b (record.flatMap ObAppend.data).length = true)
    (hdata : (b.memory.getD []).drop b.position = record.flatMap ObAppend.data ++ rest) :
    ∃ read, readBackAll b record =
        (read, { b with position := b.position + (record.flatMap ObAppend.data).length }) ∧
      (read = record ↔ ∀ v, .ui64 v ∈ record → ReadsUi64 v) := by
  induction record generalizing b with
  | nil => exact ⟨[], rfl, by simp⟩
  | cons a record ih =>
    obtain ⟨hfirst, hlater⟩ := forall_mem_cons.mp hwidth
    rw [flatMap_cons, append_assoc] at hdata
    rw [flatMap_cons, length_append, testOffset, Bool.and_eq_true, decide_eq_true_eq] at htest
    obtain ⟨a', hread, ha⟩ := ObAppend.readBack_eq hfirst (by
      rw [testOffset, Bool.and_eq_true, decide_eq_true_eq]
      exact ⟨fits_of_le (by omega) htest.1, by omega⟩) hdata
    obtain ⟨read, hall, hrecord⟩ := @ih { b with position := b.position + a.data.length } hlater (by
      rw [testOffset, Bool.and_eq_true, decide_eq_true_eq, add_assoc]
      exact htest) (by rw [← drop_drop, hdata, drop_left])
    refine ⟨a' :: read, ?_, ?_⟩
    · rw [readBackAll, hread]
      dsimp only
      rw [hall, flatMap_cons, length_append, ← add_assoc]
      rfl
    · rw [cons.injEq, ha, hrecord]
      simp only [mem_cons, eq_comm, or_imp, forall_and]

variable (h : Holds original room b c) (hwidth : ∀ a ∈ record, a.fixedWidth = true)
  (hroom : fits (c.data ++ record.flatMap ObAppend.data).length room = true)

include h hwidth hroom

theorem foldlM_run_fixedWidth :
    ∃ b', record.foldlM ObAppend.run b = .ok b' ∧
      Holds original room b' ⟨c.data ++ record.flatMap ObAppend.data, c.mark⟩ := by
  induction record generalizing b c with
  | nil => exact ⟨b, rfl, by simpa using h⟩
  | cons a record ih =>
    obtain ⟨hfirst, hlater⟩ := forall_mem_cons.mp hwidth
    obtain ⟨hrun, hne⟩ := ObAppend.run_fixedWidth hfirst b
    rw [flatMap_cons, ← append_assoc] at hroom ⊢
    obtain ⟨b₁, hput, h₁⟩ := obPut_of_fits h hne (fits_of_le (by simp) hroom)
    rw [foldlM_cons, hrun, hput]
    exact ih h₁ hlater hroom

/-- Numbers of a fixed width that fit are appended to what the buffer holds. Reading them changes
nothing but the position, and the same numbers are read exactly if each one for `ob_get_ui64` is one
that it reads. -/
theorem readBackAll_run_iff :
    ∃ b' read, record.foldlM ObAppend.run b = .ok b' ∧
      Holds original room b' ⟨c.data ++ record.flatMap ObAppend.data, c.mark⟩ ∧
      readBackAll { b' with position := b.position } record = (read, b') ∧
      (read = record ↔ ∀ v, .ui64 v ∈ record → ReadsUi64 v) := by
  obtain ⟨b', hrun, h'⟩ := foldlM_run_fixedWidth h hwidth hroom
  have hposition : b.position + (record.flatMap ObAppend.data).length = b'.position := by
    rw [h.position, h'.position, length_append]
  have htest : testOffset { b' with position := b.position }
      (record.flatMap ObAppend.data).length = true := by
    rw [testOffset, hposition, h'.asserts.1]
    exact decide_eq_true h'.position_le
  have hdata : (b'.memory.getD []).drop b.position =
      record.flatMap ObAppend.data ++ (b'.memory.getD []).drop b'.position := by
    conv_lhs => rw [← take_append_drop b'.position (b'.memory.getD [])]
    rw [h'.position, h'.memory, append_assoc, h.position, drop_left]
  obtain ⟨read, hread, hiff⟩ := readBackAll_eq hwidth htest hdata
  rw [hposition] at hread
  exact ⟨b', read, hrun, h', hread, hiff⟩

omit h hwidth hroom

/-- A number of each order. -/
def twoNumbers : List ObAppend := [.ui16 0x102#16, .ui64 5#64]

theorem readBackAll_run_two : ∃ b', twoNumbers.foldlM ObAppend.run obNew = .ok b' ∧
    readBackAll { b' with position := 0 } twoNumbers = (twoNumbers, b') := by
  obtain ⟨b', read, hrun, -, hread, hiff⟩ := readBackAll_run_iff
    (obMake_holds (show obMake none none = .ok obNew from rfl))
    (show ∀ a ∈ twoNumbers, a.fixedWidth = true by decide) rfl
  have hsame : read = twoNumbers := hiff.mpr fun v hv => by
    obtain rfl : v = 5#64 := by simpa [twoNumbers] using hv
    unfold ReadsUi64
    decide
  exact ⟨b', hrun, hsame ▸ hread⟩

/-- The numbers 2^31 and 2^32 are read as others. -/
theorem readBackAll_run_ui64 : ∃ b', [ObAppend.ui64 0x80000000#64, .ui64 0x100000000#64].foldlM
      ObAppend.run obNew = .ok b' ∧
    (readBackAll { b' with position := 0 } [.ui64 0#64, .ui64 0#64]).1 =
      [.ui64 0xFFFFFFFF80000000#64, .ui64 0x1000000000#64] :=
  ⟨_, rfl, by decide⟩

end Buffers

end ServalMesh.Overlay
