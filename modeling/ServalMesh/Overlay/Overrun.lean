import ServalMesh.Overlay.Buffer

/-!
# Overruns of overlay buffers

A record is appended field by field, and only then its writer looks for an overrun and rewinds
to the last checkpoint. The position is allowed to run past the limit, but every append asserts
that it has not yet done so.
-/

namespace ServalMesh.Overlay

open List Option

/-- `struct overlay_buffer`: `memory` is what `bytes` points at unless it is NULL, and there is no
`sizeLimit` if it is `SIZE_MAX`. -/
structure OverlayBuffer where
  memory : Option (List Byte)
  checkpointLength : ℕ
  position : ℕ
  sizeLimit : Option ℕ
  allocSize : ℕ
  allocated : Bool
deriving DecidableEq

def obNew : OverlayBuffer := ⟨none, 0, 0, none, 0, false⟩

def obStatic (bytes : List Byte) : OverlayBuffer := ⟨some bytes, 0, 0, none, bytes.length, false⟩

/-- A position does not exceed the limit. -/
def fits (position : ℕ) : Option ℕ → Bool
  | none => true
  | some limit => position ≤ limit

/-- The buffer cannot be moved. -/
def OverlayBuffer.fixed (b : OverlayBuffer) : Bool := b.memory.isSome && !b.allocated

def obLimitsize (b : OverlayBuffer) (bytes : ℕ) : Except Abort OverlayBuffer :=
  if b.position ≤ bytes ∧ b.checkpointLength ≤ bytes ∧ (b.fixed = true → bytes ≤ b.allocSize) then
    .ok { b with sizeLimit := some bytes }
  else .error .assertion

/-- A buffer is made by `ob_static` if there is memory for it, otherwise by `ob_new`, and its size
may be limited. -/
def obMake (bytes : Option (List Byte)) (limit : Option ℕ) : Except Abort OverlayBuffer :=
  let b := match bytes with
    | some bytes => obStatic bytes
    | none => obNew
  match limit with
  | some limit => obLimitsize b limit
  | none => .ok b

def obCheckpoint (b : OverlayBuffer) : OverlayBuffer := { b with checkpointLength := b.position }

def obRewind (b : OverlayBuffer) : OverlayBuffer := { b with position := b.checkpointLength }

def obOverrun (b : OverlayBuffer) : Bool :=
  match b.sizeLimit with
  | some limit => decide (min limit b.allocSize < b.position)
  | none => decide (b.allocSize < b.position)

section Append

def roundTo (unit n : ℕ) : ℕ := if n % unit = 0 then n else n + (unit - n % unit)

/-- The size of the memory that `ob_makespace` allocates. -/
def newSize (bytes : ℕ) : ℕ :=
  let n := roundTo 64 (max bytes 64)
  let n := if 1024 < n then roundTo 1024 n else n
  if 65536 < n then roundTo 65536 n else n

/-- `ob_makespace`, if memory can be allocated. -/
def obMakespace (b : OverlayBuffer) (bytes : ℕ) : Except Abort (Bool × OverlayBuffer) :=
  if fits b.position b.sizeLimit = true ∧ b.position ≤ b.allocSize ∧
      (b.position ≠ 0 → b.memory.isSome = true) then
    if fits (b.position + bytes) b.sizeLimit = false then .ok (false, b)
    else if b.position + bytes ≤ b.allocSize then .ok (true, b)
    else if b.fixed then .ok (false, b)
    else
      let size := newSize (b.position + bytes)
      .ok (true, { b with
        memory := some ((b.memory.getD []).take b.position
          ++ List.replicate (size - b.position) 0#8)
        allocSize := size
        allocated := true })
  else .error .assertion

/-- The memory with some bytes replaced. -/
def store (memory : List Byte) (position : ℕ) (data : List Byte) : List Byte :=
  memory.take position ++ data ++ memory.drop (position + data.length)

/-- What all functions that append do with their bytes. -/
def obPut (b : OverlayBuffer) (data : List Byte) : Except Abort OverlayBuffer := do
  let (space, b) ← obMakespace b data.length
  .ok { b with
    memory := if space then some (store (b.memory.getD []) b.position data) else b.memory
    position := b.position + data.length }

def obAppendByte (b : OverlayBuffer) (byte : Byte) : Except Abort OverlayBuffer := obPut b [byte]

def obAppendBytes (b : OverlayBuffer) (bytes : List Byte) : Except Abort OverlayBuffer :=
  if bytes = [] then .error .assertion else obPut b bytes

/-- `ob_append_space`, and its caller puts bytes there if there is space. -/
def obAppendSpace (b : OverlayBuffer) (bytes : List Byte) : Except Abort OverlayBuffer :=
  if bytes = [] then .error .assertion else obPut b bytes

def obAppendStr (b : OverlayBuffer) (str : List Byte) : Except Abort OverlayBuffer :=
  obAppendBytes b (str ++ [0#8])

/-- The bytes of a number, the low one first. -/
def littleEndian {w : ℕ} (bytes : ℕ) (v : BitVec w) : List Byte :=
  (List.range bytes).map fun i => (v >>> (8 * i)).setWidth 8

def obAppendUi16 (b : OverlayBuffer) (v : BitVec 16) : Except Abort OverlayBuffer :=
  obPut b (littleEndian 2 v).reverse

def obAppendUi16Rv (b : OverlayBuffer) (v : BitVec 16) : Except Abort OverlayBuffer :=
  obPut b (littleEndian 2 v)

def obAppendUi32 (b : OverlayBuffer) (v : BitVec 32) : Except Abort OverlayBuffer :=
  obPut b (littleEndian 4 v).reverse

def obAppendUi32Rv (b : OverlayBuffer) (v : BitVec 32) : Except Abort OverlayBuffer :=
  obPut b (littleEndian 4 v)

def obAppendUi64 (b : OverlayBuffer) (v : BitVec 64) : Except Abort OverlayBuffer :=
  obPut b (littleEndian 8 v).reverse

def obAppendUi64Rv (b : OverlayBuffer) (v : BitVec 64) : Except Abort OverlayBuffer :=
  obPut b (littleEndian 8 v)

/-- The bytes of a packed number; the first argument bounds how many there are. -/
def packedBytes {w : ℕ} : ℕ → BitVec w → List Byte
  | 0, _ => []
  | n + 1, v =>
    ((v &&& 0x7f#w).setWidth 8 ||| if 0x7f#w < v then 0x80#8 else 0#8) ::
      if v >>> 7 = 0#w then [] else packedBytes n (v >>> 7)

/-- Bytes are appended one by one. -/
def obAppendEach (b : OverlayBuffer) (bytes : List Byte) : Except Abort OverlayBuffer :=
  bytes.foldlM obAppendByte b

def obAppendPackedUi32 (b : OverlayBuffer) (v : BitVec 32) : Except Abort OverlayBuffer :=
  obAppendEach b (packedBytes 5 v)

def obAppendPackedUi64 (b : OverlayBuffer) (v : BitVec 64) : Except Abort OverlayBuffer :=
  obAppendEach b (packedBytes 10 v)

/-- The calls that append. -/
inductive ObAppend where
  | byte (v : Byte)
  | bytes (data : List Byte)
  | space (data : List Byte)
  | str (text : List Byte)
  | ui16 (v : BitVec 16)
  | ui16Rv (v : BitVec 16)
  | ui32 (v : BitVec 32)
  | ui32Rv (v : BitVec 32)
  | ui64 (v : BitVec 64)
  | ui64Rv (v : BitVec 64)
  | packedUi32 (v : BitVec 32)
  | packedUi64 (v : BitVec 64)
deriving DecidableEq

def ObAppend.run (b : OverlayBuffer) : ObAppend → Except Abort OverlayBuffer
  | .byte v => obAppendByte b v
  | .bytes data => obAppendBytes b data
  | .space data => obAppendSpace b data
  | .str text => obAppendStr b text
  | .ui16 v => obAppendUi16 b v
  | .ui16Rv v => obAppendUi16Rv b v
  | .ui32 v => obAppendUi32 b v
  | .ui32Rv v => obAppendUi32Rv b v
  | .ui64 v => obAppendUi64 b v
  | .ui64Rv v => obAppendUi64Rv b v
  | .packedUi32 v => obAppendPackedUi32 b v
  | .packedUi64 v => obAppendPackedUi64 b v

/-- The bytes of a call, in the pieces for which there has to be space. -/
def ObAppend.pieces : ObAppend → List (List Byte)
  | .byte v => [[v]]
  | .bytes data => [data]
  | .space data => [data]
  | .str text => [text ++ [0#8]]
  | .ui16 v => [(littleEndian 2 v).reverse]
  | .ui16Rv v => [littleEndian 2 v]
  | .ui32 v => [(littleEndian 4 v).reverse]
  | .ui32Rv v => [littleEndian 4 v]
  | .ui64 v => [(littleEndian 8 v).reverse]
  | .ui64Rv v => [littleEndian 8 v]
  | .packedUi32 v => (packedBytes 5 v).map fun byte => [byte]
  | .packedUi64 v => (packedBytes 10 v).map fun byte => [byte]

end Append

section Records

/-- A record is appended. If it overruns the buffer is rewound, otherwise there may be a new
checkpoint. Tells whether there was an overrun. -/
def obRecord (b : OverlayBuffer) (record : List ObAppend) (keep : Bool) :
    Except Abort (Bool × OverlayBuffer) := do
  let b ← record.foldlM ObAppend.run b
  if obOverrun b then .ok (true, obRewind b)
  else .ok (false, if keep then obCheckpoint b else b)

/-- Records, one after the other, with what `ob_overrun` said about each. -/
def obRecords (b : OverlayBuffer) :
    List (List ObAppend × Bool) → Except Abort (List Bool × OverlayBuffer)
  | [] => .ok ([], b)
  | (record, keep) :: rest => do
    let (overrun, b) ← obRecord b record keep
    let (overruns, b) ← obRecords b rest
    .ok (overrun :: overruns, b)

/-- What a buffer should hold, and how much of it was there at the last checkpoint. -/
structure Content where
  data : List Byte
  mark : ℕ
deriving DecidableEq

/-- What should become of the content: a record is there as a whole, or it does not fit. -/
def Content.record (room : Option ℕ) (c : Content) (record : List ObAppend) (keep : Bool) :
    Bool × Content :=
  let data := c.data ++ (record.flatMap ObAppend.pieces).flatten
  if fits data.length room then (false, ⟨data, if keep then data.length else c.mark⟩)
  else (true, ⟨c.data.take c.mark, c.mark⟩)

def Content.records (room : Option ℕ) (c : Content) :
    List (List ObAppend × Bool) → List Bool × Content
  | [] => ([], c)
  | (record, keep) :: rest =>
    let (overrun, c) := c.record room record keep
    let (overruns, c) := c.records room rest
    (overrun :: overruns, c)

/-- Every piece has bytes, and what comes before it fits. -/
def tolerable (room : Option ℕ) (position : ℕ) : List (List Byte) → Bool
  | [] => true
  | piece :: rest =>
    piece ≠ [] && fits position room && tolerable room (position + piece.length) rest

/-- At most the last piece of each record does not fit. -/
def Content.tolerates (room : Option ℕ) (c : Content) : List (List ObAppend × Bool) → Bool
  | [] => true
  | (record, keep) :: rest =>
    tolerable room c.data.length (record.flatMap ObAppend.pieces) &&
      (c.record room record keep).2.tolerates room rest

end Records

section Pieces

variable {b : OverlayBuffer}

theorem obAppendBytes_of_ne {bytes : List Byte} (h : bytes ≠ []) :
    obAppendBytes b bytes = obPut b bytes := if_neg h

theorem obAppendEach_pieces (b : OverlayBuffer) (bytes : List Byte) :
    obAppendEach b bytes = (bytes.map fun byte => [byte]).foldlM obAppendBytes b := by
  rw [obAppendEach, foldlM_map]
  rfl

/-- Every call appends its pieces. -/
theorem ObAppend.run_pieces (b : OverlayBuffer) (a : ObAppend) :
    a.run b = a.pieces.foldlM obAppendBytes b := by
  have hone : ∀ bytes : List Byte, obAppendBytes b bytes = [bytes].foldlM obAppendBytes b := by
    intro bytes
    exact (bind_pure _).symm
  have hput : ∀ bytes : List Byte, bytes ≠ [] →
      obPut b bytes = [bytes].foldlM obAppendBytes b := by
    intro bytes hne
    rw [← hone, obAppendBytes_of_ne hne]
  cases a with
  | byte v => exact hput [v] (by simp)
  | bytes data | space data => exact hone data
  | str text => exact hone _
  | ui16 v | ui16Rv v | ui32 v | ui32Rv v | ui64 v | ui64Rv v =>
    exact hput _ (by simp [littleEndian])
  | packedUi32 v | packedUi64 v => exact obAppendEach_pieces b _

theorem foldlM_pieces (record : List ObAppend) (b : OverlayBuffer) :
    record.foldlM ObAppend.run b = (record.flatMap ObAppend.pieces).foldlM obAppendBytes b := by
  induction record generalizing b with
  | nil => rfl
  | cons a rest ih =>
    rw [foldlM_cons, flatMap_cons, foldlM_append, ObAppend.run_pieces]
    congr 1
    funext b
    exact ih b

end Pieces

section Overruns

variable {original : ℕ → Byte} {room : Option ℕ} {b : OverlayBuffer} {c : Content} {p : ℕ}

/-- How much can be stored in a buffer. -/
def OverlayBuffer.capacity (b : OverlayBuffer) : Option ℕ :=
  if b.fixed then some (b.sizeLimit.getD b.allocSize) else b.sizeLimit

/-- The buffer holds the content, and the memory beyond its room is as it was. -/
structure Holds (original : ℕ → Byte) (room : Option ℕ) (b : OverlayBuffer) (c : Content) :
    Prop where
  position : b.position = c.data.length
  mark : b.checkpointLength = c.mark
  mark_le : c.mark ≤ c.data.length
  memory : (b.memory.getD []).take c.data.length = c.data
  size : (b.memory.getD []).length = b.allocSize
  room_eq : b.capacity = room
  limit : b.fixed = true → ∀ l, b.sizeLimit = some l → l ≤ b.allocSize
  within : fits c.data.length room = true
  fresh : b.fixed = false → ∀ i, original i = 0#8
  beyond : ∀ r, room = some r → ∀ i x, r ≤ i → (b.memory.getD [])[i]? = some x → x = original i

theorem Holds.position_le (h : Holds original room b c) : b.position ≤ b.allocSize := by
  have := congrArg List.length h.memory
  rw [length_take, h.size] at this
  rw [h.position]
  omega

theorem fits_of_le {p q : ℕ} (hle : p ≤ q) (h : fits q room = true) : fits p room = true := by
  cases room with
  | none => rfl
  | some r =>
    rw [fits, decide_eq_true_eq] at h ⊢
    omega

open OverlayBuffer

/-- The position fits if it is within the limit, and within the memory if that is fixed. -/
theorem fits_room :
    fits p b.capacity = true ↔
    (b.fixed = true → b.sizeLimit = none → p ≤ b.allocSize) ∧ fits p b.sizeLimit = true := by
  rw [capacity]
  cases hfixed : b.fixed with
  | false => simp
  | true =>
    cases hlimit : b.sizeLimit with
    | none | some l => simp [fits]

theorem Holds.not_overrun (h : Holds original room b c) : obOverrun b = false := by
  have hposition := h.position_le
  have hfits := h.within
  rw [← h.room_eq, fits_room, ← h.position] at hfits
  rw [obOverrun]
  cases hlimit : b.sizeLimit with
  | none => simpa using hposition
  | some l =>
    rw [hlimit, fits, decide_eq_true_eq] at hfits
    simp only [decide_eq_false_iff_not, not_lt, le_min_iff]
    exact ⟨hfits.2, hposition⟩

theorem length_store {memory data : List Byte} {position : ℕ}
    (h : position + data.length ≤ memory.length) :
    (store memory position data).length = memory.length := by
  simp only [store, length_append, length_take, length_drop]
  omega

theorem le_roundTo (unit n : ℕ) : n ≤ roundTo unit n := by
  rw [roundTo]
  split <;> omega

theorem le_newSize (n : ℕ) : n ≤ newSize n := by
  have h64 := le_roundTo 64 (max n 64)
  rw [newSize]
  generalize roundTo 64 (max n 64) = k at h64
  have h1024 := le_roundTo 1024 k
  have hk : n ≤ if 1024 < k then roundTo 1024 k else k := by
    split <;> omega
  generalize (if 1024 < k then roundTo 1024 k else k) = m at hk
  have h65536 := le_roundTo 65536 m
  split <;> omega

section

variable (h : Holds original room b c)
include h

/-- The assertions of `ob_makespace`. -/
theorem Holds.asserts : fits b.position b.sizeLimit = true ∧
    b.position ≤ b.allocSize ∧ (b.position ≠ 0 → b.memory.isSome = true) := by
  have hposition := h.position_le
  have hwithin := h.within
  rw [← h.room_eq, fits_room, ← h.position] at hwithin
  refine ⟨hwithin.2, hposition, fun hne => ?_⟩
  cases hmemory : b.memory with
  | some m => rfl
  | none =>
    have := h.size
    rw [hmemory] at this
    simp only [getD_none, length_nil] at this
    omega

/-- The space that `ob_makespace` finds. -/
theorem obMakespace_of_fits {n : ℕ} (hn : 0 < n) (hfits : fits (c.data.length + n) room = true) :
    ∃ b', obMakespace b n = .ok (true, b') ∧ Holds original room b' c ∧
      b.position + n ≤ b'.allocSize := by
  rw [← h.room_eq, fits_room, ← h.position] at hfits
  have hposition := h.position_le
  rw [obMakespace, if_pos h.asserts, if_neg (by rw [hfits.2]; simp)]
  by_cases hroom : b.position + n ≤ b.allocSize
  · rw [if_pos hroom]
    exact ⟨b, rfl, h, hroom⟩
  rw [if_neg hroom]
  have hfixed : b.fixed = false := by
    cases hfixed : b.fixed with
    | false => rfl
    | true =>
      cases hlimit : b.sizeLimit with
      | none => exact absurd (hfits.1 hfixed hlimit) hroom
      | some l =>
        have hle := h.limit hfixed l hlimit
        have hl := hfits.2
        rw [hlimit, fits, decide_eq_true_eq] at hl
        omega
  rw [if_neg (by rw [hfixed]; simp)]
  have hsize := le_newSize (b.position + n)
  have hlen : ((b.memory.getD []).take b.position).length = b.position := by
    rw [length_take, h.size]
    omega
  refine ⟨_, rfl, ?_, hsize⟩
  refine ⟨h.position, h.mark, h.mark_le, ?_, ?_, ?_, ?_, h.within, fun _ => h.fresh hfixed, ?_⟩
  · rw [getD_some, ← h.position, take_left' hlen, h.position, h.memory]
  · simp only [getD_some, length_append, hlen, length_replicate]
    omega
  · rw [← h.room_eq, capacity, capacity, hfixed]
    simp [fixed]
  · simp [fixed]
  intro r hr i x hi hx
  have hle : b.position ≤ r := by
    have := h.within
    rwa [hr, fits, decide_eq_true_eq, ← h.position] at this
  rw [h.fresh hfixed]
  simp only [getD_some] at hx
  rw [getElem?_append_right (by omega)] at hx
  exact eq_of_mem_replicate (mem_of_getElem? hx)

/-- What an append does if its bytes fit. -/
theorem obPut_of_fits {data : List Byte} (hdata : data ≠ [])
    (hfits : fits (c.data.length + data.length) room = true) :
    ∃ b', obPut b data = .ok b' ∧ Holds original room b' ⟨c.data ++ data, c.mark⟩ := by
  obtain ⟨b', hspace, h', hsize⟩ := obMakespace_of_fits h (length_pos_of_ne_nil hdata) hfits
  have hposition : b'.position = b.position := by rw [h'.position, h.position]
  have hlen : b'.position + data.length ≤ (b'.memory.getD []).length := by
    rw [h'.size]
    omega
  have hsome : b'.memory.isSome = true := by
    cases hmemory : b'.memory with
    | some m => rfl
    | none =>
      have hpos := length_pos_of_ne_nil hdata
      rw [hmemory] at hlen
      simp only [getD_none, length_nil] at hlen
      omega
  set b₁ : OverlayBuffer := { b' with
    memory := some (store (b'.memory.getD []) b'.position data)
    position := b'.position + data.length } with hb₁
  have hfixed : b₁.fixed = b'.fixed := by simp [hb₁, fixed, hsome]
  have hcapacity : b₁.capacity = b'.capacity := by
    rw [capacity, capacity, hfixed]
  refine ⟨b₁, by rw [obPut, hspace]; rfl, ?_⟩
  constructor
  · simp [hb₁, h'.position]
  · exact h'.mark
  · have := h'.mark_le
    dsimp only
    rw [length_append]
    omega
  · have htake : (b'.memory.getD []).take b'.position = c.data := by
      rw [h'.position, h'.memory]
    rw [hb₁, getD_some, store, htake]
    exact take_left' rfl
  · rw [hb₁, getD_some, length_store hlen, h'.size]
  · rw [hcapacity, h'.room_eq]
  · intro hfix
    exact h'.limit (hfixed ▸ hfix)
  · rwa [length_append]
  · intro hfix
    exact h'.fresh (hfixed ▸ hfix)
  intro r hr i x hi hx
  have hle : b'.position + data.length ≤ r := by
    rwa [hr, fits, decide_eq_true_eq, ← h'.position] at hfits
  have htake : ((b'.memory.getD []).take b'.position).length = b'.position := by
    rw [length_take]
    omega
  rw [hb₁, getD_some, store, getElem?_append_right
    (by rw [length_append, htake]; omega), getElem?_drop, length_append, htake,
    Nat.add_sub_cancel' (by omega)] at hx
  exact h'.beyond r hr i x hi hx

end

/-- The position does not fit if it exceeds the limit, or a fixed memory without a limit. -/
theorem not_fits_room (h : fits p b.capacity = false) :
    fits p b.sizeLimit = false ∨
      (fits p b.sizeLimit = true ∧ b.fixed = true ∧ b.sizeLimit = none ∧ b.allocSize < p) := by
  have hiff := fits_room (b := b) (p := p)
  rw [h] at hiff
  cases hlimit : fits p b.sizeLimit with
  | false => exact .inl rfl
  | true =>
    rw [hlimit] at hiff
    simp only [Bool.false_eq_true, and_true, false_iff, not_forall, not_le] at hiff
    obtain ⟨hfixed, hnone, hlt⟩ := hiff
    exact .inr ⟨rfl, hfixed, hnone, hlt⟩

section

variable (h : Holds original room b c) {p : ℕ}

include h

/-- What an append does if its bytes do not fit. -/
theorem obPut_of_not_fits {data : List Byte}
    (hfits : fits (c.data.length + data.length) room = false) :
    obPut b data = .ok { b with position := b.position + data.length } := by
  have hspace : obMakespace b data.length = .ok (false, b) := by
    rw [obMakespace, if_pos h.asserts]
    rw [← h.room_eq, ← h.position] at hfits
    rcases not_fits_room hfits with hlimit | ⟨hlimit, hfixed, -, hlt⟩
    · rw [if_pos hlimit]
    · rw [if_neg (by rw [hlimit]; simp), if_neg (by omega), if_pos hfixed]
  rw [obPut, hspace]
  rfl

/-- After an overrun nothing can be appended. -/
theorem obPut_overrun (hfits : fits p room = false) (data : List Byte) :
    obPut { b with position := p } data = .error .assertion := by
  have hspace : obMakespace { b with position := p } data.length = .error .assertion := by
    rw [obMakespace, if_neg]
    rintro ⟨hlimit, hle, -⟩
    rw [← h.room_eq] at hfits
    rcases not_fits_room hfits with hnot | ⟨-, -, -, hlt⟩
    · exact absurd hlimit (by rw [hnot]; simp)
    · exact absurd hle (not_le.mpr hlt)
  rw [obPut, hspace]
  rfl

theorem obOverrun_of_not_fits (hfits : fits p room = false) :
    obOverrun { b with position := p } = true := by
  rw [← h.room_eq] at hfits
  rw [obOverrun]
  rcases not_fits_room hfits with hnot | ⟨-, -, hnone, hlt⟩
  · cases hlimit : b.sizeLimit with
    | none => simp [hlimit, fits] at hnot
    | some l =>
      rw [hlimit, fits, decide_eq_false_iff_not, not_le] at hnot
      simp only [decide_eq_true_eq]
      exact lt_of_le_of_lt (min_le_left _ _) hnot
  · simp only [hnone, decide_eq_true_eq]
    exact hlt

/-- A rewind leaves what there was at the checkpoint. -/
theorem Holds.rewind : Holds original room (obRewind b) ⟨c.data.take c.mark, c.mark⟩ := by
  have hlen : (c.data.take c.mark).length = c.mark := by
    rw [length_take]
    exact min_eq_left h.mark_le
  refine { h with position := ?_, mark_le := ?_, memory := ?_, within := ?_ }
  · rw [hlen]
    exact h.mark
  · rw [hlen]
  · rw [hlen]
    conv_rhs => rw [← h.memory]
    rw [take_take, min_eq_left h.mark_le]
    rfl
  · exact fits_of_le (by rw [hlen]; exact h.mark_le) h.within

theorem Holds.checkpoint : Holds original room (obCheckpoint b) ⟨c.data, c.data.length⟩ :=
  { h with mark := h.position, mark_le := le_rfl }

/-- At most the last piece of a record may not fit, and then the content is still there. -/
theorem foldlM_pieces_holds (pieces : List (List Byte)) :
    match pieces.foldlM obAppendBytes b with
    | .error e => e = .assertion ∧ tolerable room c.data.length pieces = false
    | .ok b' => tolerable room c.data.length pieces = true ∧
      if fits (c.data ++ pieces.flatten).length room then
        Holds original room b' ⟨c.data ++ pieces.flatten, c.mark⟩
      else obOverrun b' = true ∧
        Holds original room (obRewind b') ⟨c.data.take c.mark, c.mark⟩ := by
  induction pieces generalizing b c with
  | nil =>
    rw [flatten_nil, append_nil, h.within]
    exact ⟨rfl, h⟩
  | cons piece rest ih =>
    rw [foldlM_cons]
    by_cases hne : piece = []
    · rw [hne]
      exact ⟨rfl, by simp [tolerable]⟩
    rw [obAppendBytes_of_ne hne, flatten_cons, ← append_assoc]
    have htolerable : tolerable room c.data.length (piece :: rest) =
        tolerable room (c.data.length + piece.length) rest := by
      simp [tolerable, hne, h.within]
    rw [htolerable]
    cases hpiece : fits (c.data.length + piece.length) room with
    | true =>
      obtain ⟨b₁, hput, h₁⟩ := obPut_of_fits h hne hpiece
      have hrest := ih h₁
      rw [length_append, take_append_of_le_length h.mark_le] at hrest
      rwa [hput]
    | false =>
      rw [obPut_of_not_fits h hpiece]
      cases rest with
      | nil =>
        rw [flatten_nil, append_nil, length_append, hpiece]
        refine ⟨rfl, ?_, h.rewind⟩
        rw [h.position]
        exact obOverrun_of_not_fits h hpiece
      | cons next rest =>
        change match (next :: rest).foldlM obAppendBytes
          { b with position := b.position + piece.length } with | .error e => _ | .ok b' => _
        rw [foldlM_cons, h.position, obAppendBytes, obPut_overrun h hpiece, ite_self]
        exact ⟨rfl, by simp [tolerable, hpiece]⟩

theorem obRecord_holds (record : List ObAppend) (keep : Bool) :
    (tolerable room c.data.length (record.flatMap ObAppend.pieces) = true →
      ∃ b', obRecord b record keep = .ok ((c.record room record keep).1, b') ∧
        Holds original room b' (c.record room record keep).2) ∧
    (tolerable room c.data.length (record.flatMap ObAppend.pieces) = false →
      obRecord b record keep = .error .assertion) := by
  have hpieces := foldlM_pieces_holds h (record.flatMap ObAppend.pieces)
  rw [obRecord, foldlM_pieces, Content.record]
  rcases hrun : (record.flatMap ObAppend.pieces).foldlM obAppendBytes b with e | b' <;>
    rw [hrun] at hpieces
  · obtain ⟨rfl, hbad⟩ := hpieces
    rw [hbad]
    exact ⟨nofun, fun _ => rfl⟩
  · obtain ⟨hok, h'⟩ := hpieces
    rw [hok]
    refine ⟨fun _ => ?_, nofun⟩
    cases hfits : fits (c.data ++ (record.flatMap ObAppend.pieces).flatten).length room with
    | true =>
      rw [hfits, if_pos rfl] at h'
      refine ⟨if keep then obCheckpoint b' else b', ?_, ?_⟩
      · simp [bind, Except.bind, h'.not_overrun]
      · cases keep with
        | true => exact h'.checkpoint
        | false => exact h'
    | false =>
      rw [hfits] at h'
      exact ⟨obRewind b', by simp [bind, Except.bind, h'.1], h'.2⟩

theorem obRecords_of_holds (records : List (List ObAppend × Bool)) :
    (c.tolerates room records = true →
      ∃ b', obRecords b records = .ok ((c.records room records).1, b') ∧
        Holds original room b' (c.records room records).2) ∧
    (c.tolerates room records = false → obRecords b records = .error .assertion) := by
  induction records generalizing b c with
  | nil => exact ⟨fun _ => ⟨b, rfl, h⟩, by simp [Content.tolerates]⟩
  | cons r rest ih =>
    obtain ⟨record, keep⟩ := r
    obtain ⟨hfits, hover⟩ := obRecord_holds h record keep
    rw [Content.tolerates, obRecords]
    cases hrecord : tolerable room c.data.length (record.flatMap ObAppend.pieces) with
    | false =>
      refine ⟨by simp, fun _ => ?_⟩
      rw [hover hrecord]
      rfl
    | true =>
      obtain ⟨b₁, hb₁, h₁⟩ := hfits hrecord
      obtain ⟨hok, hbad⟩ := ih h₁
      rw [hb₁, Bool.true_and]
      refine ⟨fun htol => ?_, fun htol => ?_⟩
      · obtain ⟨b', hb', h'⟩ := hok htol
        refine ⟨b', ?_, h'⟩
        simp only [bind, Except.bind, hb']
        rfl
      · simp only [bind, Except.bind, hbad htol]

end

theorem obLimitsize_holds {limit : ℕ} (h : Holds original b.capacity b ⟨[], 0⟩) {b' : OverlayBuffer}
    (hlimit : obLimitsize b limit = .ok b') (horiginal : ∀ i x, (b.memory.getD [])[i]? = some x →
      x = original i) : Holds original b'.capacity b' ⟨[], 0⟩ := by
  rw [obLimitsize] at hlimit
  split at hlimit
  case isFalse => exact nomatch hlimit
  rename_i hassert
  cases hlimit
  refine { h with room_eq := rfl, limit := ?_, within := ?_, beyond := ?_ }
  · rintro hfixed l ⟨⟩
    exact hassert.2.2 hfixed
  · rw [fits_room]
    exact ⟨nofun, by simp [fits]⟩
  · intro r _ i x _ hx
    exact horiginal i x hx

/-- A new buffer holds nothing yet. -/
theorem obMake_holds {bytes : Option (List Byte)} {limit : Option ℕ}
    (hmade : obMake bytes limit = .ok b) :
    Holds (fun i => (bytes.getD []).getD i 0#8) b.capacity b ⟨[], 0⟩ := by
  have hread : ∀ (bytes : List Byte) i x, bytes[i]? = some x → x = bytes.getD i 0#8 := by
    intro bytes i x hx
    rw [getD_eq_getElem?_getD, hx, getD_some]
  have hnew : Holds (fun i => ([] : List Byte).getD i 0#8) obNew.capacity obNew ⟨[], 0⟩ := by
    exact ⟨rfl, rfl, le_rfl, rfl, rfl, rfl, nofun, rfl, by simp, nofun⟩
  have hstatic : ∀ bytes : List Byte, Holds (fun i => bytes.getD i 0#8) (obStatic bytes).capacity
      (obStatic bytes) ⟨[], 0⟩ := by
    intro bytes
    refine ⟨rfl, rfl, le_rfl, rfl, rfl, rfl, by simp [obStatic], ?_, by simp [obStatic,
      fixed], ?_⟩
    · simp [obStatic, capacity, fixed, fits]
    · intro r _ i x _
      exact hread bytes i x
  cases limit with
  | none =>
    cases bytes with
    | none =>
      cases hmade
      exact hnew
    | some bytes =>
      cases hmade
      exact hstatic bytes
  | some limit =>
    cases bytes with
    | none => exact obLimitsize_holds hnew hmade (by simp [obNew])
    | some bytes => exact obLimitsize_holds (hstatic bytes) hmade (hread bytes)

/-- If at most the last piece of each record does not fit, then an overrun is reported for exactly
the records that do not fit, the buffer holds what it should, and nothing is stored beyond its room.
Otherwise an assertion fails. -/
theorem obRecords_tolerates (bytes : Option (List Byte)) (limit : Option ℕ)
    (hmade : obMake bytes limit = .ok b) (records : List (List ObAppend × Bool)) :
    (Content.tolerates b.capacity ⟨[], 0⟩ records = true →
      ∃ b', obRecords b records = .ok ((Content.records b.capacity ⟨[], 0⟩ records).1, b') ∧
        Holds (fun i => (bytes.getD []).getD i 0#8) b.capacity b'
          (Content.records b.capacity ⟨[], 0⟩ records).2) ∧
    (Content.tolerates b.capacity ⟨[], 0⟩ records = false →
      obRecords b records = .error .assertion) :=
  obRecords_of_holds (obMake_holds hmade) records

/-- Two records: the second one overruns with its last byte. -/
def twoRecords : List (List ObAppend × Bool) :=
  [([.byte 1#8, .ui16 2#16], true), ([.byte 3#8, .ui32 4#32], true)]

theorem obRecords_tolerates_limited : ∃ b', obRecords ⟨none, 0, 0, some 6, 0, false⟩ twoRecords =
    .ok ([false, true], b') ∧ Holds (fun _ => 0#8) (some 6) b' ⟨[1#8, 0#8, 2#8], 3⟩ :=
  (obRecords_tolerates none (some 6) rfl twoRecords).1 rfl

/-- A record of three bytes overruns with the second, and the third fails an assertion. -/
theorem obRecords_overrun_abort : ∃ b, obMake none (some 1) = .ok b ∧
    obRecords b [([.byte 1#8, .byte 2#8, .byte 3#8], true)] = .error .assertion :=
  ⟨_, rfl, by decide⟩

end Overruns

end ServalMesh.Overlay
