import ServalMesh.Keyring.Rotbuf

/-!
# Rotated buffers as plain buffers

Read from its start, a rotated buffer is a plain one, and its cursor is the number of bytes that
were advanced. Only the difference of two cursors does not tell a buffer that was gone through from
one that was not touched.
-/

namespace ServalMesh.Keyring

open Overlay List Function

section Model

def rotbufReset (rb : Rotbuf) : Rotbuf :=
  { rb with
    cursor := rb.start
    wrap := 0
    buf_le_cursor := rb.buf_le_start
    cursor_lt := rb.start_lt
    wrapped := fun h => absurd rfl h }

/-- The cursor came to the start again, or behind it. -/
def Rotbuf.wrapAt (rb : Rotbuf) (cursor : ℕ) : Rotbuf :=
  { rotbufReset rb with
    wrap := 1 + (cursor - rb.start)
    wrapped := fun _ => rfl }

def rotbufAdvance (rb : Rotbuf) (len : ℕ) : Rotbuf :=
  if hwrap : rb.wrap ≠ 0 then { rb with
    wrap := rb.wrap + len
    wrapped := fun _ => rb.wrapped hwrap }
  else if len = 0 then rb
  else
    let cursor := rb.cursor + len
    if rb.start ≤ rb.cursor then
      if hend : rb.ebuf ≤ cursor then
        let cursor := cursor - (rb.ebuf - rb.buf)
        if hstart : rb.start ≤ cursor then rb.wrapAt cursor
        else { rb with
          cursor
          buf_le_cursor := by
            have := rb.cursor_lt
            have := rb.buf_le_cursor
            omega
          cursor_lt := (not_le.mp hstart).trans rb.start_lt
          wrapped := fun h => absurd h hwrap }
      else { rb with
        cursor
        buf_le_cursor := rb.buf_le_cursor.trans (Nat.le_add_right ..)
        cursor_lt := not_le.mp hend
        wrapped := fun h => absurd h hwrap }
    else if hstart : rb.start ≤ cursor then rb.wrapAt cursor
    else { rb with
      cursor
      buf_le_cursor := rb.buf_le_cursor.trans (Nat.le_add_right ..)
      cursor_lt := (not_le.mp hstart).trans rb.start_lt
      wrapped := fun h => absurd h hwrap }

inductive RotbufOp where
  | getc
  | getbuf (len : ℕ)
  | putc (c : Byte)
  | putbuf (bytes : List Byte)
  | advance (len : ℕ)
  | nextChunk
  | reset

/-- What is read, and how the memory and the buffer are left. -/
def RotbufOp.run (slot : Slot) (rb : Rotbuf) : RotbufOp → Option (List Byte) × Slot × Rotbuf
  | .getc => ((rotbufGetc slot rb).1.map ([·]), slot, (rotbufGetc slot rb).2)
  | .getbuf len => (some (rotbufGetbuf slot len rb).1, slot, (rotbufGetbuf slot len rb).2)
  | .putc c => (some [], rotbufPutc slot rb c)
  | .putbuf bytes => (some [], rotbufPutbuf slot rb bytes)
  | .advance len => (some [], slot, rotbufAdvance rb len)
  | .nextChunk =>
    match rotbufNextChunk rb with
    | none => (none, slot, rb)
    | some (offset, len, rb) => (some ((range len).map fun i => slot (offset + i)), slot, rb)
  | .reset => (some [], slot, rotbufReset rb)

def runRotbuf (slot : Slot) (rb : Rotbuf) :
    List RotbufOp → List (Option (List Byte)) × Slot × Rotbuf
  | [] => ([], slot, rb)
  | op :: ops =>
    let (answer, slot, rb) := op.run slot rb
    let (answers, slot, rb) := runRotbuf slot rb ops
    (answer :: answers, slot, rb)

end Model

section Plain

/-- A plain buffer with a cursor, which may be behind the end; chunks end at `seam`. -/
structure Plain where
  bytes : List Byte
  seam : ℕ
  count : ℕ

def Plain.skip (p : Plain) (n : ℕ) : Plain := { p with count := p.count + n }

def Plain.put (p : Plain) (c : Byte) : Plain :=
  { p with bytes := p.bytes.set p.count c, count := p.count + 1 }

/-- Where the chunk at the cursor ends. -/
def Plain.chunkEnd (p : Plain) : ℕ := if p.count < p.seam then p.seam else p.bytes.length

/-- What is read behind the end is `EOF`. -/
def Plain.getbuf : ℕ → Plain → List Byte
  | 0, _ => []
  | len + 1, p => p.bytes[p.count]?.getD 0xff#8 :: (p.skip 1).getbuf len

def RotbufOp.plain (p : Plain) : RotbufOp → Option (List Byte) × Plain
  | .getc => (p.bytes[p.count]?.map ([·]), p.skip 1)
  | .getbuf len => (some (p.getbuf len), p.skip len)
  | .putc c => (some [], p.put c)
  | .putbuf bytes => (some [], bytes.foldl Plain.put p)
  | .advance len => (some [], p.skip len)
  | .nextChunk =>
    if p.bytes.length ≤ p.count then (none, p)
    else (some ((p.bytes.take p.chunkEnd).drop p.count), { p with count := p.chunkEnd })
  | .reset => (some [], { p with count := 0 })

def runPlain (p : Plain) : List RotbufOp → List (Option (List Byte)) × Plain
  | [] => ([], p)
  | op :: ops =>
    let (answer, p) := op.plain p
    let (answers, p) := runPlain p ops
    (answer :: answers, p)

/-- Where a byte of the buffer is in the memory. -/
def Rotbuf.place (rb : Rotbuf) (i : ℕ) : ℕ :=
  if rb.start + i < rb.ebuf then rb.start + i else rb.start + i - rb.size

/-- The buffer from its start on. -/
def Rotbuf.content (rb : Rotbuf) (slot : Slot) : List Byte :=
  (range rb.size).map fun i => slot (rb.place i)

/-- The plain buffer holds the same. -/
structure Refines (slot : Slot) (rb : Rotbuf) (p : Plain) : Prop where
  bytes : p.bytes = rb.content slot
  seam : p.seam = rb.ebuf - rb.start
  count : p.count = rotbufCount rb

end Plain

section Steps

variable {rb rb' : Rotbuf} {slot : Slot} {p : Plain}

/-- Where the buffer is and how much was advanced is all there is. -/
theorem Rotbuf.eq_of_count (hregion : SameRegion rb rb')
    (hcount : rotbufCount rb = rotbufCount rb') : rb = rb' := by
  have hsize := hregion.size
  have hlt := @rotbufCount_lt_size rb
  have hlt' := @rotbufCount_lt_size rb'
  rw [← hcount, hsize, hlt] at hlt'
  cases rb
  cases rb'
  obtain ⟨hbuf, hebuf, hstart⟩ := hregion
  simp only [rotbufCount, rotbufPosition] at hcount hbuf hebuf hstart hlt'
  rw [Rotbuf.mk.injEq]
  grind

theorem rotbufAdvance_eq (rb : Rotbuf) (len : ℕ) : rotbufAdvance rb len = rb.skip len := by
  have hcount := rotbufCount_skip rb len
  have hregion := rb.skip_region len
  refine (Rotbuf.eq_of_count (hregion.symm.trans ?_) ?_).symm
  · simp only [rotbufAdvance]
    split_ifs <;> exact ⟨rfl, rfl, rfl⟩
  · rw [hcount]
    cases rb
    simp only [rotbufAdvance, rotbufCount, rotbufPosition, Rotbuf.wrapAt, rotbufReset]
    grind

theorem getElem?_content (rb : Rotbuf) (slot : Slot) (i : ℕ) :
    (rb.content slot)[i]? = if i < rb.size then some (slot (rb.place i)) else none := by
  by_cases hi : i < rb.size <;> simp [Rotbuf.content, hi]

theorem SameRegion.content (h : SameRegion rb rb') (slot : Slot) :
    rb'.content slot = rb.content slot := by
  rw [Rotbuf.content, Rotbuf.content, h.size]
  simp only [Rotbuf.place, h.start, h.ebuf, h.size]

theorem cursor_eq_place (hwrap : rb.wrap = 0) : rb.cursor = rb.place (rotbufCount rb) := by
  cases rb
  simp only [Rotbuf.place, rotbufCount, rotbufPosition, Rotbuf.size] at *
  grind

theorem place_inj {i j : ℕ} (hi : i < rb.size) (hj : j < rb.size) (h : rb.place i = rb.place j) :
    i = j := by
  cases rb
  simp only [Rotbuf.place, Rotbuf.size] at *
  grind

theorem length_content (rb : Rotbuf) (slot : Slot) : (rb.content slot).length = rb.size := by
  rw [Rotbuf.content, length_map, length_range]

/-- The byte at the cursor, unless it is behind the end. -/
theorem Refines.getElem?_count (h : Refines slot rb p) :
    p.bytes[p.count]? = if rb.wrap = 0 then some (slot rb.cursor) else none := by
  rw [h.bytes, h.count, getElem?_content]
  by_cases hwrap : rb.wrap = 0
  · rw [if_pos (rotbufCount_lt_size.mpr hwrap), if_pos hwrap, cursor_eq_place hwrap]
  · rw [if_neg (mt rotbufCount_lt_size.mp hwrap), if_neg hwrap]

theorem Refines.skip (h : Refines slot rb p) (n : ℕ) : Refines slot (rb.skip n) (p.skip n) where
  bytes := h.bytes.trans ((rb.skip_region n).content slot).symm
  seam := by
    rw [(rb.skip_region n).ebuf, (rb.skip_region n).start]
    exact h.seam
  count := by
    rw [rotbufCount_skip, ← h.count]
    rfl

theorem content_putc (slot : Slot) (rb : Rotbuf) (c : Byte) :
    rb.content (rotbufPutc slot rb c).1 = (rb.content slot).set (rotbufCount rb) c := by
  by_cases hwrap : rb.wrap = 0
  · have hcount := rotbufCount_lt_size.mpr hwrap
    rw [rotbufPutc, if_neg (not_not.mpr hwrap), cursor_eq_place hwrap]
    dsimp only
    refine ext_getElem? fun i => ?_
    rw [getElem?_set, length_content, getElem?_content, getElem?_content]
    by_cases hi : rotbufCount rb = i
    · subst hi
      rw [if_pos hcount, if_pos rfl, if_pos hcount, update_self]
    · rw [if_neg hi]
      split
      case isTrue hlt => rw [update_of_ne fun h => hi (place_inj hlt hcount h).symm]
      case isFalse => rfl
  · have hcount := not_lt.mp (mt rotbufCount_lt_size.mp hwrap)
    rw [rotbufPutc, if_pos hwrap, set_eq_of_length_le (by rwa [length_content])]

theorem Refines.put (h : Refines slot rb p) (c : Byte) :
    Refines (rotbufPutc slot rb c).1 rb.next (p.put c) := by
  have hskip := h.skip 1
  refine ⟨?_, hskip.seam, hskip.count⟩
  rw [rb.next_region.content, content_putc, ← h.bytes, ← h.count]
  rfl

theorem Refines.getbuf (h : Refines slot rb p) (len : ℕ) :
    (rotbufGetbuf slot len rb).1 = p.getbuf len := by
  induction len generalizing rb p with
  | zero => rfl
  | succ len ih =>
    rw [rotbufGetbuf, Plain.getbuf, h.getElem?_count, ← ih (h.skip 1), rotbufGetc]
    split_ifs <;> first | rfl | contradiction

theorem Refines.putbuf (h : Refines slot rb p) (bytes : List Byte) :
    Refines (rotbufPutbuf slot rb bytes).1 (rb.skip bytes.length) (bytes.foldl Plain.put p) := by
  induction bytes generalizing slot rb p with
  | nil => exact h
  | cons c bytes ih =>
    rw [rotbufPutbuf_cons]
    exact ih (h.put c)

/-- A chunk reaches up to the end of the memory or of the buffer. -/
theorem rotbufNextChunk_eq (hwrap : rb.wrap = 0) :
    ∃ len rb', rotbufNextChunk rb = some (rb.cursor, len, rb') ∧ SameRegion rb rb' ∧
      rotbufCount rb' = rotbufCount rb + len ∧ rotbufCount rb' =
        (if rotbufCount rb < rb.ebuf - rb.start then rb.ebuf - rb.start else rb.size) ∧
      ∀ i < len, rb.place (rotbufCount rb + i) = rb.cursor + i := by
  rw [rotbufNextChunk, dif_neg (not_not.mpr hwrap)]
  cases rb
  split
  all_goals
    refine ⟨_, _, rfl, ⟨rfl, rfl, rfl⟩, ?_, ?_, ?_⟩
    all_goals
      simp only [rotbufCount, rotbufPosition, Rotbuf.place, Rotbuf.size] at *
      grind

theorem Refines.nextChunk (h : Refines slot rb p) (hwrap : rb.wrap = 0) :
    ∃ len, rotbufNextChunk rb = some (rb.cursor, len, rb.skip len) ∧
      ((range len).map fun i => slot (rb.cursor + i)) = (p.bytes.take p.chunkEnd).drop p.count ∧
      { p with count := p.chunkEnd } = p.skip len := by
  obtain ⟨len, rb', hchunk, hregion, hcount, hend, hplace⟩ := rotbufNextChunk_eq hwrap
  have hstop : p.chunkEnd = rotbufCount rb + len := by
    rw [Plain.chunkEnd, h.count, h.seam, h.bytes, length_content, ← hend, hcount]
  have hle : rotbufCount rb + len ≤ rb.size := by
    have := rb.buf_le_start
    rw [← hcount, hend, Rotbuf.size]
    split <;> omega
  rw [hchunk, Rotbuf.eq_of_count (hregion.symm.trans (rb.skip_region len))
    (hcount.trans (rotbufCount_skip rb len).symm)]
  refine ⟨len, rfl, ext_getElem? fun i => ?_, ?_⟩
  · rw [hstop, h.count, h.bytes, getElem?_drop, getElem?_take, getElem?_content]
    by_cases hi : i < len
    · rw [if_pos (by omega), if_pos (by omega), hplace i hi]
      simp [hi]
    · rw [if_neg (by omega)]
      simp [hi]
  · rw [hstop, Plain.skip, h.count]

end Steps

section Runs

variable {rb : Rotbuf} {slot : Slot} {p : Plain}

/-- The same was read, the plain buffer still holds the same, and only the buffer was written. -/
structure Stays {α : Type} (slot : Slot) (rb : Rotbuf) (run : α × Slot × Rotbuf)
    (plain : α × Plain) : Prop where
  answer : run.1 = plain.1
  refines : Refines run.2.1 run.2.2 plain.2
  region : SameRegion rb run.2.2
  outside : ∀ i, i < rb.buf ∨ rb.ebuf ≤ i → run.2.1 i = slot i

theorem Refines.kept {α : Type} {answer answer' : α} (h : Refines slot rb p) (n : ℕ)
    (hanswer : answer = answer') : Stays slot rb (answer, slot, rb.skip n) (answer', p.skip n) :=
  ⟨hanswer, h.skip n, rb.skip_region n, fun _ _ => rfl⟩

theorem Refines.kept_putbuf {α : Type} (h : Refines slot rb p) (answer : α) (bytes : List Byte) :
    Stays slot rb (answer, rotbufPutbuf slot rb bytes) (answer, bytes.foldl Plain.put p) where
  answer := rfl
  refines := (rotbufPutbuf_skip slot rb bytes).symm ▸ h.putbuf bytes
  region := (rotbufPutbuf_skip slot rb bytes).symm ▸ rb.skip_region _
  outside _ := rotbufPutbuf_outside slot rb bytes

/-- An operation reads the same and keeps the buffers the same. -/
theorem RotbufOp.run_plain (op : RotbufOp) (h : Refines slot rb p) :
    Stays slot rb (op.run slot rb) (op.plain p) := by
  cases op with
  | getc =>
    rw [run, plain, h.getElem?_count, rotbufGetc_next, rotbufGetc]
    refine h.kept 1 ?_
    split_ifs <;> first | rfl | contradiction
  | getbuf len =>
    rw [run, plain, h.getbuf, rotbufGetbuf_skip]
    exact h.kept len rfl
  | putc c => exact h.kept_putbuf _ [c]
  | putbuf bytes => exact h.kept_putbuf _ bytes
  | advance len =>
    rw [run, plain, rotbufAdvance_eq]
    exact h.kept len rfl
  | nextChunk =>
    have hend : p.bytes.length ≤ p.count ↔ rb.wrap ≠ 0 := by
      rw [h.bytes, length_content, h.count, ← not_lt, rotbufCount_lt_size]
    rw [run, plain]
    by_cases hwrap : rb.wrap = 0
    · obtain ⟨len, hchunk, hbytes, hskip⟩ := h.nextChunk hwrap
      rw [if_neg (mt hend.mp (not_not.mpr hwrap)), hchunk, hskip]
      exact h.kept len (congrArg some hbytes)
    · rw [if_pos (hend.mpr hwrap), rotbufNextChunk, dif_pos hwrap]
      exact h.kept 0 rfl
  | reset =>
    exact ⟨rfl, ⟨h.bytes, h.seam, by simp [rotbufCount, rotbufPosition, rotbufReset, run, plain]⟩,
      ⟨rfl, rfl, rfl⟩, fun _ _ => rfl⟩

theorem runRotbuf_plain (ops : List RotbufOp) (h : Refines slot rb p) :
    Stays slot rb (runRotbuf slot rb ops) (runPlain p ops) := by
  induction ops generalizing slot rb p with
  | nil => exact h.kept 0 rfl
  | cons op ops ih =>
    have hkept := op.run_plain h
    have hrest := ih hkept.refines
    refine ⟨congrArg₂ cons hkept.answer hrest.answer, hrest.refines,
      hkept.region.trans hrest.region, fun i hi => (hrest.outside i ?_).trans (hkept.outside i hi)⟩
    rwa [hkept.region.buf, hkept.region.ebuf]

theorem rotbufPosition_eq (rb : Rotbuf) : rotbufPosition rb = min (rotbufCount rb) rb.size := by
  by_cases hwrap : rb.wrap = 0
  · rw [min_eq_left (rotbufCount_lt_size.mpr hwrap).le, rotbufCount, if_neg (not_not.mpr hwrap)]
  · rw [min_eq_right (not_lt.mp (mt rotbufCount_lt_size.mp hwrap)), rotbufPosition, if_pos hwrap,
      Rotbuf.size]

end Runs

section Rotation

variable (buf size : ℕ) (rot : ℤ)

/-- The memory rotated. -/
def rotated (slot : Slot) : List Byte :=
  (range size).map fun i : ℕ => slot (buf + ((rot + i) % size).toNat)

def Plain.init (slot : Slot) : Plain :=
  ⟨rotated buf size rot slot, size - (rot % size).toNat, 0⟩

variable {size}

theorem rotbufInit_start (hsize : 0 < size) :
    (rotbufInit buf size rot hsize).start = buf + (rot % size).toNat := by
  cases rot with
  | ofNat k => rfl
  | negSucc k =>
    have hlt := Nat.mod_lt k hsize
    have hneg : (-1 - Int.negSucc k).toNat = k := by omega
    rw [rotbufInit, Int.negSucc_emod k (by omega)]
    simp only [Int.negSucc_lt_zero, if_true, hneg]
    omega

theorem refines_init (hsize : 0 < size) (slot : Slot) :
    Refines slot (rotbufInit buf size rot hsize) (Plain.init buf size rot slot) := by
  have hstart := rotbufInit_start buf rot hsize
  have hebuf : (rotbufInit buf size rot hsize).ebuf = buf + size := rfl
  obtain ⟨r, hr⟩ := Int.eq_ofNat_of_zero_le (Int.emod_nonneg rot (b := size) (by omega))
  have hlt := Int.emod_lt_of_pos rot (b := size) (by omega)
  rw [hr, Int.toNat_natCast] at hstart
  refine ⟨?_, ?_, (rotbufCount_init hsize).symm⟩
  · rw [Rotbuf.content, rotbufInit_size, Plain.init, rotated]
    refine map_congr_left fun i hi => congrArg slot ?_
    have hi := mem_range.mp hi
    rw [Rotbuf.place, rotbufInit_size, hstart, hebuf, ← Int.emod_add_emod, hr, ← Int.natCast_add,
      ← Int.natCast_emod, Int.toNat_natCast]
    -- the memory ends at most once on the way
    by_cases hend : r + i < size
    · rw [Nat.mod_eq_of_lt hend, if_pos (by omega)]
      omega
    · rw [Nat.mod_eq_sub_mod (by omega), Nat.mod_eq_of_lt (by omega), if_neg (by omega)]
      omega
  · rw [hstart, hebuf, Plain.init, hr, Int.toNat_natCast]
    exact (Nat.add_sub_add_left buf size r).symm

variable (size) in
/-- A run of a rotated buffer reads and leaves what a run of the plain one does. -/
structure RunsAsPlain (slot : Slot) (run : List (Option (List Byte)) × Slot × Rotbuf)
    (plain : List (Option (List Byte)) × Plain) : Prop where
  answers : run.1 = plain.1
  bytes : rotated buf size rot run.2.1 = plain.2.bytes
  outside : ∀ i, i < buf ∨ buf + size ≤ i → run.2.1 i = slot i
  count : rotbufCount run.2.2 = plain.2.count
  position : rotbufPosition run.2.2 = min plain.2.count size
  remain : rotbufRemain run.2.2 = size - rotbufPosition run.2.2

variable (hsize : 0 < size) (slot : Slot) (ops ops' : List RotbufOp)

/-- The rotated buffer is a plain one after `ops`, and its cursor is as far from the one after
`ops'`. -/
def RotbufRefines : Prop :=
  let run := runRotbuf slot (rotbufInit buf size rot hsize)
  let plain := runPlain (.init buf size rot slot)
  RunsAsPlain buf size rot slot (run ops) (plain ops) ∧
    ((plain ops).2.count ≤ size → (plain ops').2.count ≤ size →
      rotbufDelta (run ops).2.2 (run ops').2.2 =
        .ok (((plain ops').2.count : ℤ) - (plain ops).2.count))

/-- It is, unless one of the cursors is at the end and the other before it. -/
theorem rotbuf_refines_iff :
    RotbufRefines buf rot hsize slot ops ops' ↔
      let plain := runPlain (.init buf size rot slot)
      (plain ops).2.count ≤ size → (plain ops').2.count ≤ size →
        ((plain ops).2.count = size ↔ (plain ops').2.count = size) := by
  have hinit := refines_init buf rot hsize slot
  have hkept := runRotbuf_plain ops hinit
  have hkept' := runRotbuf_plain ops' hinit
  have hrbsize := hkept.region.size.trans (rotbufInit_size hsize)
  have hdelta := @rotbufDelta_eq_iff _ _ (hkept.region.symm.trans hkept'.region)
  rw [hrbsize, ← hkept.refines.count, ← hkept'.refines.count] at hdelta
  refine ⟨fun h hle hle' => (hdelta hle hle').mp (h.2 hle hle'), fun h =>
    ⟨⟨hkept.answer, ?_, hkept.outside, hkept.refines.count.symm, ?_, ?_⟩,
      fun hle hle' => (hdelta hle hle').mpr (h hle hle')⟩⟩
  · rw [hkept.refines.bytes, hkept.region.content]
    exact (refines_init buf rot hsize _).bytes
  · rw [rotbufPosition_eq, hrbsize, hkept.refines.count]
  · rw [rotbufRemain_eq, rotbufPosition_eq, hrbsize]
    omega

theorem rotbuf_refines_advanced :
    RotbufRefines 0 (-1) two_pos (fun _ => 0#8) [] [.advance 1] :=
  (rotbuf_refines_iff 0 (-1) two_pos _ _ _).mpr (by decide)

/-- A cursor that went through the buffer is not told from one that did not move. -/
theorem rotbufDelta_gone_through :
    ¬RotbufRefines 0 0 one_pos (fun _ => 0#8) [] [.advance 1] := by
  intro h
  have hdelta : (Except.ok 0 : Except Abort ℤ) = .ok 1 := h.2 (by decide) (by decide)
  cases hdelta

end Rotation

end ServalMesh.Keyring
