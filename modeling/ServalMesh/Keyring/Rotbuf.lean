import ServalMesh.Overlay.Buffer

/-!
# Rotated buffers

A rotated buffer starts anywhere in a region of memory and wraps around its end. Read from the
start it is an ordinary buffer: the number of bytes that were advanced says where the cursor is.
-/

namespace ServalMesh.Keyring

open Overlay List Function

/-- The bytes of a slot by their offsets. -/
abbrev Slot := ℕ → Byte

/-- `struct rotbuf`, whose pointers are offsets in a slot. -/
@[ext]
structure Rotbuf where
  buf : ℕ
  ebuf : ℕ
  start : ℕ
  cursor : ℕ
  wrap : ℕ
  buf_le_start : buf ≤ start
  start_lt : start < ebuf
  buf_le_cursor : buf ≤ cursor
  cursor_lt : cursor < ebuf
  wrapped : wrap ≠ 0 → cursor = start

section Model

def rotbufInit (buf size : ℕ) (rot : ℤ) (hsize : 0 < size) : Rotbuf :=
  let start := if rot < 0 then size - 1 - ((-1 - rot).toNat % size) else rot.toNat % size
  have hstart : start < size := by
    have := Nat.mod_lt rot.toNat hsize
    grind
  { buf, ebuf := buf + size, start := buf + start, cursor := buf + start, wrap := 0
    buf_le_start := by omega
    start_lt := by omega
    buf_le_cursor := by omega
    cursor_lt := by omega
    wrapped := fun h => absurd rfl h }

def Rotbuf.size (rb : Rotbuf) : ℕ := rb.ebuf - rb.buf

def rotbufPosition (rb : Rotbuf) : ℕ :=
  if rb.wrap ≠ 0 then rb.ebuf - rb.buf
  else if rb.start ≤ rb.cursor then rb.cursor - rb.start
  else (rb.cursor - rb.buf) + (rb.ebuf - rb.start)

def rotbufRemain (rb : Rotbuf) : ℕ :=
  if rb.wrap ≠ 0 then 0
  else if rb.cursor < rb.start then rb.start - rb.cursor
  else (rb.ebuf - rb.cursor) + (rb.start - rb.buf)

def rotbufCount (rb : Rotbuf) : ℕ :=
  if rb.wrap ≠ 0 then (rb.ebuf - rb.buf) + rb.wrap - 1 else rotbufPosition rb

/-- How the cursor advances by a byte that is read or written, or not any more. -/
def Rotbuf.next (rb : Rotbuf) : Rotbuf :=
  if hwrap : rb.wrap ≠ 0 then { rb with
    wrap := rb.wrap + 1
    wrapped := fun _ => rb.wrapped hwrap }
  else
    { rb with
      cursor := if rb.cursor + 1 = rb.ebuf then rb.buf else rb.cursor + 1
      wrap :=
        if (if rb.cursor + 1 = rb.ebuf then rb.buf else rb.cursor + 1) = rb.start then 1 else 0
      buf_le_cursor := by
        have := rb.buf_le_cursor
        split <;> omega
      cursor_lt := by
        have := rb.cursor_lt
        have := rb.buf_le_cursor
        split <;> omega
      wrapped := by
        intro h
        by_contra hne
        exact h (if_neg hne) }

/-- Nothing is read behind the end. -/
def rotbufGetc (slot : Slot) (rb : Rotbuf) : Option Byte × Rotbuf :=
  if rb.wrap ≠ 0 then (none, rb.next) else (some (slot rb.cursor), rb.next)

/-- The end of the buffer is stored as `EOF`. -/
def rotbufGetbuf (slot : Slot) : ℕ → Rotbuf → List Byte × Rotbuf
  | 0, rb => ([], rb)
  | len + 1, rb =>
    let (c, rb) := rotbufGetc slot rb
    let (bytes, rb) := rotbufGetbuf slot len rb
    (c.getD 0xff#8 :: bytes, rb)

def rotbufPutc (slot : Slot) (rb : Rotbuf) (c : Byte) : Slot × Rotbuf :=
  if rb.wrap ≠ 0 then (slot, rb.next) else (Function.update slot rb.cursor c, rb.next)

def rotbufPutbuf (slot : Slot) (rb : Rotbuf) : List Byte → Slot × Rotbuf
  | [] => (slot, rb)
  | c :: bytes =>
    let (slot, rb) := rotbufPutc slot rb c
    rotbufPutbuf slot rb bytes

def rotbufDelta (origin dest : Rotbuf) : Except Abort ℤ :=
  if origin.buf ≠ dest.buf ∨ origin.ebuf ≠ dest.ebuf ∨ origin.start ≠ dest.start then
    .error .assertion
  else
    let org := if origin.cursor < origin.start then origin.cursor + (origin.ebuf - origin.buf)
      else origin.cursor
    let dst := if dest.cursor < dest.start then dest.cursor + (dest.ebuf - dest.buf)
      else dest.cursor
    .ok ((dst : ℤ) - org)

/-- The region of memory up to the end of the buffer or the end of the memory, and the cursor
behind it. -/
def rotbufNextChunk (rb : Rotbuf) : Option (ℕ × ℕ × Rotbuf) :=
  if hwrap : rb.wrap ≠ 0 then none
  else if rb.start ≤ rb.cursor then
    some (rb.cursor, rb.ebuf - rb.cursor, { rb with
      cursor := rb.buf
      wrap := if rb.buf = rb.start then rb.wrap + 1 else rb.wrap
      buf_le_cursor := le_rfl
      cursor_lt := rb.buf_le_start.trans_lt rb.start_lt
      wrapped := by
        intro h
        by_contra hne
        rw [if_neg hne] at h
        exact hwrap h })
  else
    some (rb.cursor, rb.start - rb.cursor, { rb with
      cursor := rb.start
      wrap := rb.wrap + 1
      buf_le_cursor := rb.buf_le_start
      cursor_lt := rb.start_lt
      wrapped := fun _ => rfl })

end Model

section Counting

variable {rb rb' : Rotbuf} {slot : Slot} {rot : ℤ}

/-- The two buffers are in the same region and start at the same place. -/
structure SameRegion (rb rb' : Rotbuf) : Prop where
  buf : rb'.buf = rb.buf
  ebuf : rb'.ebuf = rb.ebuf
  start : rb'.start = rb.start

theorem SameRegion.refl (rb : Rotbuf) : SameRegion rb rb := ⟨rfl, rfl, rfl⟩

theorem SameRegion.trans {rb'' : Rotbuf} (h : SameRegion rb rb') (h' : SameRegion rb' rb'') :
    SameRegion rb rb'' :=
  ⟨h'.buf.trans h.buf, h'.ebuf.trans h.ebuf, h'.start.trans h.start⟩

theorem SameRegion.symm (h : SameRegion rb rb') : SameRegion rb' rb :=
  ⟨h.buf.symm, h.ebuf.symm, h.start.symm⟩

theorem SameRegion.size (h : SameRegion rb rb') : rb'.size = rb.size := by
  rw [Rotbuf.size, Rotbuf.size, h.buf, h.ebuf]

theorem rotbufCount_lt_size : rotbufCount rb < rb.size ↔ rb.wrap = 0 := by
  obtain ⟨buf, ebuf, start, cursor, wrap, h₁, h₂, h₃, h₄, h₅⟩ := rb
  simp only [rotbufCount, rotbufPosition, Rotbuf.size]
  by_cases hwrap : wrap = 0
  · simp only [hwrap, ne_eq, not_true_eq_false, if_false, iff_true]
    split <;> omega
  · simp only [hwrap, ne_eq, not_false_eq_true, if_true, iff_false]
    omega

theorem rotbufCount_le_size : rotbufCount rb ≤ rb.size ↔ rb.wrap ≤ 1 := by
  by_cases hwrap : rb.wrap = 0
  · have := rotbufCount_lt_size.mpr hwrap
    omega
  · rw [rotbufCount, if_pos hwrap, Rotbuf.size]
    omega

theorem rotbufRemain_eq : rotbufRemain rb = rb.size - rotbufCount rb := by
  obtain ⟨buf, ebuf, start, cursor, wrap, h₁, h₂, h₃, h₄, h₅⟩ := rb
  simp only [rotbufRemain, rotbufCount, rotbufPosition, Rotbuf.size]
  by_cases hwrap : wrap = 0
  · simp only [hwrap, ne_eq, not_true_eq_false, if_false]
    split <;> split <;> omega
  · simp only [hwrap, ne_eq, not_false_eq_true, if_true]
    omega

theorem rotbufInit_size {buf size : ℕ} (hsize : 0 < size) :
    (rotbufInit buf size rot hsize).size = size := Nat.add_sub_cancel_left buf size

theorem rotbufCount_init {buf size : ℕ} (hsize : 0 < size) :
    rotbufCount (rotbufInit buf size rot hsize) = 0 := by
  simp [rotbufCount, rotbufPosition, rotbufInit]

theorem Rotbuf.next_region (rb : Rotbuf) : SameRegion rb rb.next := by
  rw [Rotbuf.next]
  split <;> exact ⟨rfl, rfl, rfl⟩

theorem rotbufCount_next (rb : Rotbuf) : rotbufCount rb.next = rotbufCount rb + 1 := by
  obtain ⟨buf, ebuf, start, cursor, wrap, h₁, h₂, h₃, h₄, h₅⟩ := rb
  by_cases hwrap : wrap = 0
  · simp only [rotbufCount, rotbufPosition, Rotbuf.next, ne_eq]
    grind
  · simp only [rotbufCount, Rotbuf.next, ne_eq, hwrap, not_false_eq_true, dite_true, if_true,
      Nat.add_one_ne_zero]
    omega

/-- The difference of two cursors does not look at what wrapped around. -/
theorem rotbufDelta_eq_iff (hregion : SameRegion rb rb') (hle : rotbufCount rb ≤ rb.size)
    (hle' : rotbufCount rb' ≤ rb.size) :
    rotbufDelta rb rb' = .ok ((rotbufCount rb' : ℤ) - rotbufCount rb) ↔
      (rotbufCount rb = rb.size ↔ rotbufCount rb' = rb.size) := by
  cases rb
  cases rb'
  obtain ⟨hbuf, hebuf, hstart⟩ := hregion
  simp only [rotbufDelta, rotbufCount, rotbufPosition, Rotbuf.size, ne_eq] at *
  grind

section

variable (hregion : SameRegion rb rb') (hwrap : rb.wrap = 0) (hwrap' : rb'.wrap = 0)
include hregion hwrap hwrap'

/-- Different positions before the end are at different places. -/
theorem cursor_ne (hcount : rotbufCount rb ≠ rotbufCount rb') : rb.cursor ≠ rb'.cursor := by
  intro hcursor
  obtain ⟨hbuf, hebuf, hstart⟩ := hregion.symm
  exact hcount (congrArg rotbufCount (Rotbuf.ext hbuf hebuf hstart hcursor
    (hwrap.trans hwrap'.symm)))

theorem rotbufDelta_eq :
    rotbufDelta rb rb' = .ok ((rotbufCount rb' : ℤ) - rotbufCount rb) := by
  have hlt := rotbufCount_lt_size.mpr hwrap
  have hlt' := hregion.size ▸ rotbufCount_lt_size.mpr hwrap'
  exact (rotbufDelta_eq_iff hregion hlt.le hlt'.le).mpr (iff_of_false hlt.ne hlt'.ne)

end

end Counting

section Contents

variable {rb rb' : Rotbuf} {slot : Slot} {bytes : List Byte} {offset len : ℕ} {rb'' : Rotbuf}

/-- The buffer after so many more bytes. -/
def Rotbuf.skip (rb : Rotbuf) : ℕ → Rotbuf
  | 0 => rb
  | n + 1 => rb.next.skip n

theorem Rotbuf.skip_add (rb : Rotbuf) (m n : ℕ) : rb.skip (m + n) = (rb.skip m).skip n := by
  induction m generalizing rb with
  | zero => rw [zero_add, skip]
  | succ m ih => rw [add_right_comm, skip, skip, ih]

theorem Rotbuf.skip_region (rb : Rotbuf) (n : ℕ) : SameRegion rb (rb.skip n) := by
  induction n generalizing rb with
  | zero => exact .refl rb
  | succ n ih => exact rb.next_region.trans (ih rb.next)

theorem rotbufCount_skip (rb : Rotbuf) (n : ℕ) : rotbufCount (rb.skip n) = rotbufCount rb + n := by
  induction n generalizing rb with
  | zero => rfl
  | succ n ih => rw [Rotbuf.skip, ih, rotbufCount_next, add_assoc, add_comm 1]

/-- These bytes come next. -/
def Holds (slot : Slot) : Rotbuf → List Byte → Prop
  | _, [] => True
  | rb, c :: bytes => rb.wrap = 0 ∧ slot rb.cursor = c ∧ Holds slot rb.next bytes

theorem holds_append {a b : List Byte} :
    Holds slot rb (a ++ b) ↔ Holds slot rb a ∧ Holds slot (rb.skip a.length) b := by
  induction a generalizing rb with
  | nil => simp [Holds, Rotbuf.skip]
  | cons c a ih => simp only [cons_append, Holds, ih, length_cons, Rotbuf.skip, and_assoc]

theorem Holds.count_le (h : Holds slot rb bytes) (hne : bytes ≠ []) :
    rotbufCount rb + bytes.length ≤ rb.size := by
  induction bytes generalizing rb with
  | nil => exact absurd rfl hne
  | cons c bytes ih =>
    obtain ⟨hwrap, -, hrest⟩ := h
    have hlt := rotbufCount_lt_size.mpr hwrap
    rw [length_cons]
    by_cases hnil : bytes = []
    · rw [hnil, length_nil]
      omega
    · have := ih hrest hnil
      rw [rotbufCount_next, rb.next_region.size] at this
      omega

theorem Holds.getc {c : Byte} (h : Holds slot rb (c :: bytes)) :
    rotbufGetc slot rb = (some c, rb.next) := by
  rw [rotbufGetc, if_neg (not_not.mpr h.1), h.2.1]

theorem Holds.getbuf (h : Holds slot rb bytes) :
    rotbufGetbuf slot bytes.length rb = (bytes, rb.skip bytes.length) := by
  induction bytes generalizing rb with
  | nil => rfl
  | cons c bytes ih =>
    rw [length_cons, rotbufGetbuf, h.getc]
    dsimp only
    rw [ih h.2.2]
    rfl

theorem rotbufGetc_next (slot : Slot) (rb : Rotbuf) : (rotbufGetc slot rb).2 = rb.next := by
  rw [rotbufGetc]
  split <;> rfl

theorem rotbufGetbuf_skip (slot : Slot) (n : ℕ) (rb : Rotbuf) :
    (rotbufGetbuf slot n rb).2 = rb.skip n := by
  induction n generalizing rb with
  | zero => rfl
  | succ n ih =>
    rw [rotbufGetbuf, Rotbuf.skip, ← rotbufGetc_next slot rb]
    exact ih _

theorem rotbufPutc_next (slot : Slot) (rb : Rotbuf) (c : Byte) :
    (rotbufPutc slot rb c).2 = rb.next := by
  rw [rotbufPutc]
  split <;> rfl

theorem rotbufPutbuf_cons (slot : Slot) (rb : Rotbuf) (c : Byte) (bytes : List Byte) :
    rotbufPutbuf slot rb (c :: bytes) = rotbufPutbuf (rotbufPutc slot rb c).1 rb.next bytes := by
  rw [rotbufPutbuf, ← rotbufPutc_next slot rb c]

theorem rotbufPutbuf_skip (slot : Slot) (rb : Rotbuf) (bytes : List Byte) :
    (rotbufPutbuf slot rb bytes).2 = rb.skip bytes.length := by
  induction bytes generalizing slot rb with
  | nil => rfl
  | cons c bytes ih => rw [rotbufPutbuf_cons, length_cons, Rotbuf.skip, ih]

theorem rotbufPutbuf_append (slot : Slot) (rb : Rotbuf) (a b : List Byte) :
    rotbufPutbuf slot rb (a ++ b) =
      rotbufPutbuf (rotbufPutbuf slot rb a).1 (rb.skip a.length) b := by
  induction a generalizing slot rb with
  | nil => rfl
  | cons c a ih =>
    rw [cons_append, rotbufPutbuf_cons, rotbufPutbuf_cons, ih, length_cons, Rotbuf.skip]

/-- Memory outside the buffer is not written. -/
theorem rotbufPutbuf_outside (slot : Slot) (rb : Rotbuf) (bytes : List Byte) {i : ℕ}
    (hi : i < rb.buf ∨ rb.ebuf ≤ i) : (rotbufPutbuf slot rb bytes).1 i = slot i := by
  induction bytes generalizing slot rb with
  | nil => rfl
  | cons c bytes ih =>
    have hregion := rb.next_region
    rw [rotbufPutbuf_cons, ih _ _ (by rwa [hregion.buf, hregion.ebuf]), rotbufPutc]
    have := rb.buf_le_cursor
    have := rb.cursor_lt
    split
    · rfl
    · exact update_of_ne (by omega) _ _

section

variable (h : Holds slot rb bytes) (hregion : SameRegion rb rb')
  (hcount : rotbufCount rb + bytes.length ≤ rotbufCount rb')
include h hregion hcount

/-- What was written stays there if nothing before `rb'` changes. -/
theorem Holds.congr {slot' : Slot}
    (hsame : ∀ rb : Rotbuf, SameRegion rb rb' → rb.wrap = 0 → rotbufCount rb < rotbufCount rb' →
      slot' rb.cursor = slot rb.cursor) : Holds slot' rb bytes := by
  induction bytes generalizing rb with
  | nil => trivial
  | cons c bytes ih =>
    obtain ⟨hwrap, hbyte, hrest⟩ := h
    rw [length_cons] at hcount
    have hregion' := rb.next_region.symm.trans hregion
    refine ⟨hwrap, ?_, ih hrest hregion' (by rw [rotbufCount_next]; omega)⟩
    exact (hsame rb hregion hwrap (by omega)).trans hbyte

theorem Holds.putbuf (more : List Byte) :
    Holds (rotbufPutbuf slot rb' more).1 rb bytes := by
  induction more generalizing slot rb' with
  | nil => exact h
  | cons c more ih =>
    have hput : Holds (rotbufPutc slot rb' c).1 rb bytes := by
      rw [rotbufPutc]
      split
      · exact h
      case isFalse hwrap =>
        exact h.congr hregion hcount fun _ hregion hwrap₁ hlt =>
          update_of_ne (cursor_ne hregion hwrap₁ (not_not.mp hwrap) hlt.ne) ..
    rw [rotbufPutbuf_cons]
    exact ih hput (hregion.trans rb'.next_region) (by rw [rotbufCount_next]; omega)

end

/-- What fits is there after it was written. -/
theorem holds_putbuf (slot : Slot) (hfits : rotbufCount rb + bytes.length ≤ rb.size) :
    Holds (rotbufPutbuf slot rb bytes).1 rb bytes := by
  induction bytes generalizing slot rb with
  | nil => trivial
  | cons c bytes ih =>
    rw [length_cons] at hfits
    have hwrap : rb.wrap = 0 := rotbufCount_lt_size.mp (by omega)
    have hputc : (rotbufPutc slot rb c).1 = update slot rb.cursor c := by
      rw [rotbufPutc, if_neg (not_not.mpr hwrap)]
    rw [rotbufPutbuf_cons, hputc]
    have hfirst : Holds (update slot rb.cursor c) rb [c] :=
      ⟨hwrap, update_self .., trivial⟩
    have hkept := hfirst.putbuf rb.next_region (by rw [rotbufCount_next]; rfl) bytes
    refine ⟨hwrap, hkept.2.1, ih _ ?_⟩
    rw [rotbufCount_next, rb.next_region.size]
    omega

/-- A chunk is behind what was written. -/
theorem rotbufNextChunk_behind (hchunk : rotbufNextChunk rb' = some (offset, len, rb'')) :
    SameRegion rb' rb'' ∧ rotbufCount rb' ≤ rotbufCount rb'' ∧ rb'.buf ≤ offset ∧
      ∀ rb : Rotbuf, SameRegion rb rb' → rb.wrap = 0 → rotbufCount rb < rotbufCount rb' →
        ¬(offset ≤ rb.cursor ∧ rb.cursor < offset + len) := by
  obtain ⟨buf', ebuf', start', cursor', wrap', h₁', h₂', h₃', h₄', h₅'⟩ := rb'
  rw [rotbufNextChunk] at hchunk
  split at hchunk
  · exact nomatch hchunk
  rename_i hwrap'
  split at hchunk
  all_goals
    obtain ⟨rfl, rfl, rfl⟩ := hchunk
    refine ⟨⟨rfl, rfl, rfl⟩, ?_, h₃', ?_⟩
    · simp only [rotbufCount, rotbufPosition]
      grind
    · rintro ⟨buf, ebuf, start, cursor, wrap, h₁, h₂, h₃, h₄, h₅⟩ ⟨hbuf, hebuf, hstart⟩ hwrap
        hcount
      simp only [rotbufCount, rotbufPosition] at hcount
      grind

/-- Filling the rest of the buffer does not change what was written. -/
theorem Holds.chunk (h : Holds slot rb bytes) (hregion : SameRegion rb rb')
    (hcount : rotbufCount rb + bytes.length ≤ rotbufCount rb')
    (hchunk : rotbufNextChunk rb' = some (offset, len, rb'')) (fill : Slot) :
    Holds (fun i => if offset ≤ i ∧ i < offset + len then fill i else slot i) rb bytes := by
  obtain ⟨-, -, -, hbehind⟩ := rotbufNextChunk_behind hchunk
  exact h.congr hregion hcount fun rb hregion hwrap hlt => if_neg (hbehind rb hregion hwrap hlt)

end Contents

end ServalMesh.Keyring
