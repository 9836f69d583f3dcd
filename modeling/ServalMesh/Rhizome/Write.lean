import ServalMesh.Rhizome.Crypt
import ServalMesh.Overlay.Buffer

/-!
# Writing payloads

Pieces of a payload arrive in any order. They are kept in a list until everything before them
has arrived, and are encrypted, hashed and written in the order of the file. All input and output
succeeds.
-/

namespace ServalMesh.Rhizome

open Lib Overlay List

def rhizomeBufferMaximumSize : ℕ := 1024 * 1024

def rhizomeSizeUnset : ℕ := 2 ^ 64 - 1

/-- `enum rhizome_payload_status`. -/
inductive RhizomePayloadStatus where
  | error
  | empty
  | new
  | stored
  | wrongSize
  | wrongHash
  | cryptoFail
  | tooBig
  | evicted
deriving DecidableEq

/-- The payloads in the database and in files, by their hashes. -/
abbrev Store := List (List Byte × List Byte)

/-- What a daemon is configured with, the functions of its libraries, and how
`store_make_space` ends and what it leaves of the store. -/
structure Host where
  maxBlobSize : ℕ
  stream : List Byte → List Byte → ℕ → Byte
  sha512 : List Byte → List Byte
  makeSpace : ℕ → Store → RhizomePayloadStatus × Store

/-- `struct rhizome_write_buffer`. -/
structure WriteBuffer where
  offset : ℕ
  data : List Byte
deriving DecidableEq

/-- `struct rhizome_write`: there is no `fileLength` if it is `RHIZOME_SIZE_UNSET`, `id` is there if
it is known, `hashed` is what the hash was updated with, and `writes` are the calls that wrote to
the file or the blob. -/
structure RhizomeWrite where
  id : Option (List Byte)
  tail : ℕ
  fileOffset : ℕ
  writtenOffset : ℕ
  fileLength : Option ℕ
  bufferList : List WriteBuffer
  bufferSize : ℕ
  crypt : Bool
  key : List Byte
  nonce : List Byte
  hashed : List Byte
  blobFd : Bool
  sqlBlob : Bool
  writes : List (ℕ × List Byte)
deriving DecidableEq

/-- The struct as it is cleared before it is opened. -/
def RhizomeWrite.zero : RhizomeWrite where
  id := none
  tail := 0
  fileOffset := 0
  writtenOffset := 0
  fileLength := some 0
  bufferList := []
  bufferSize := 0
  crypt := false
  key := []
  nonce := []
  hashed := []
  blobFd := false
  sqlBlob := false
  writes := []

def rhizomeExists (store : Store) (hash : List Byte) : Bool := store.any fun entry => entry.1 = hash

def rhizomeOpenWrite (host : Host) (store : Store) (write : RhizomeWrite)
    (expectedHash : Option (List Byte)) (fileLength : Option ℕ) :
    RhizomePayloadStatus × RhizomeWrite × Store :=
  if fileLength = some 0 then (.empty, write, store)
  else
    let write := { write with blobFd := false, sqlBlob := false }
    if expectedHash.any (rhizomeExists store) then (.stored, write, store)
    else
      let write := { write with id := expectedHash }
      let (status, store) := match fileLength with
        | some length => host.makeSpace length store
        | none => (.new, store)
      if status ≠ .new then (status, write, store)
      else
        (.new, { write with fileLength, fileOffset := 0, writtenOffset := 0, hashed := [] }, store)

/-- The data as it is hashed and stored, and nothing if there is too much of it. -/
def prepareData (host : Host) (write : RhizomeWrite) (buffer : List Byte) :
    Option (List Byte × RhizomeWrite) :=
  if buffer = [] then none
  else if write.fileLength.any fun length => length < write.fileOffset + buffer.length then none
  else
    let data := if write.crypt then
        rhizomeCryptXorBlock host.stream buffer ((write.fileOffset + write.tail) % 2 ^ 64) write.key
          write.nonce
      else buffer
    some (data, { write with
      hashed := write.hashed ++ data
      fileOffset := write.fileOffset + data.length })

def writeGetLock (host : Host) (write : RhizomeWrite) : RhizomeWrite :=
  if write.blobFd || write.sqlBlob then write
  else if host.maxBlobSize < write.fileLength.getD rhizomeSizeUnset ∨ write.fileLength = none then
    { write with blobFd := true }
  else { write with sqlBlob := true }

def writeData (write : RhizomeWrite) (fileOffset : ℕ) (buffer : List Byte) : RhizomeWrite :=
  if buffer = [] then write
  else { write with
    writes := write.writes ++ [(fileOffset, buffer)]
    writtenOffset := fileOffset + buffer.length }

def writeReleaseLock (write : RhizomeWrite) : RhizomeWrite := { write with sqlBlob := false }

/-- The variables of the loop in `rhizome_random_write`: `ptr` stands between the buffers `before`
and `after` it. -/
structure WriteLoop where
  write : RhizomeWrite
  before : List WriteBuffer
  after : List WriteBuffer
  lastOffset : ℕ
  offset : ℕ
  buffer : List Byte
deriving DecidableEq

namespace WriteLoop

variable (host : Host) (shouldWrite : Bool)

/-- The existing buffer can be processed if everything before it was. -/
def process (s : WriteLoop) : Option WriteLoop :=
  match s.after with
  | [] => some s
  | p :: rest =>
    if p.offset = s.write.fileOffset then do
      let (data, write) ← prepareData host s.write p.data
      some { s with write, after := { p with data } :: rest }
    else some s

/-- The existing buffer is written if everything before it was. -/
def flush (s : WriteLoop) : Option WriteLoop :=
  match s.after with
  | [] => none
  | p :: rest =>
    if shouldWrite && p.offset = s.write.writtenOffset then
      let write := writeData (writeGetLock host s.write) p.offset p.data
      some { s with
        write := { write with bufferSize := write.bufferSize - p.data.length }
        after := rest
        lastOffset := p.offset + p.data.length }
    else none

/-- The incoming data without what there is already, unless nothing is left of it. -/
def trim (s : WriteLoop) : Option WriteLoop :=
  let delta := s.lastOffset - s.offset
  if s.buffer.length ≤ delta then none
  else some { s with offset := s.offset + delta, buffer := s.buffer.drop delta }

/-- How much of the incoming data comes before the existing buffer. -/
def gap (s : WriteLoop) : ℕ :=
  match s.after with
  | [] => s.buffer.length
  | p :: _ => min s.buffer.length (p.offset - s.offset)

/-- How an iteration ends: with a `continue`, or with a `break` after `ret` was set. -/
inductive Next where
  | again (s : WriteLoop)
  | stop (ret : ℤ) (s : WriteLoop)

/-- Incoming data is written or cached. -/
def insert (s : WriteLoop) : Next :=
  let size := s.gap
  let prepared := if s.offset = s.write.fileOffset then
      prepareData host s.write (s.buffer.take size)
    else some (s.buffer.take size, s.write)
  match prepared with
  | none => .stop (-1) s
  | some (data, write) =>
    let buffer := data ++ s.buffer.drop size
    if shouldWrite && s.offset = write.writtenOffset then
      .again { s with
        write := writeData (writeGetLock host write) s.offset (buffer.take size)
        offset := s.offset + size
        buffer := buffer.drop size }
    else
      let size := if rhizomeBufferMaximumSize < write.bufferSize + size then
          rhizomeBufferMaximumSize - write.bufferSize
        else size
      if size = 0 then .stop 0 { s with write }
      else .again { s with
        write := { write with bufferSize := write.bufferSize + size }
        before := s.before ++ [⟨s.offset, buffer.take size⟩]
        offset := s.offset + size
        buffer := buffer.drop size }

/-- One iteration. -/
def step (s : WriteLoop) : Next :=
  match s.process host with
  | none => .stop (-1) s
  | some s =>
    match s.flush host shouldWrite with
    | some s => .again s
    | none =>
      match s.trim with
      | none => .stop 0 s
      | some s =>
        match s.after with
        | [] => s.insert host shouldWrite
        | p :: rest =>
          if s.offset < p.offset then s.insert host shouldWrite
          else .again { s with
            before := s.before ++ [p]
            after := rest
            lastOffset := p.offset + p.data.length }

end WriteLoop

section Termination

variable {host : Host} {shouldWrite : Bool} {s s' : WriteLoop}

/-- Prepared data is hashed, and nothing else changes. -/
theorem prepareData_some {write write' : RhizomeWrite} {buffer data : List Byte}
    (h : prepareData host write buffer = some (data, write')) :
    0 < buffer.length ∧ data.length = buffer.length ∧ write' = { write with
      hashed := write.hashed ++ data
      fileOffset := write.fileOffset + buffer.length } := by
  rw [prepareData] at h
  split at h
  · exact nomatch h
  rename_i hne
  split at h
  · exact nomatch h
  obtain ⟨hdata, rfl⟩ := Prod.mk.inj (Option.some.inj h)
  have hlen : data.length = buffer.length := by
    rw [← hdata]
    exact length_cryptIf ..
  refine ⟨length_pos_of_ne_nil hne, hlen, ?_⟩
  rw [hdata, hlen]

theorem writeGetLock_eq (host : Host) (w : RhizomeWrite) :
    ∃ fd blob, writeGetLock host w = { w with blobFd := fd, sqlBlob := blob } := by
  rw [writeGetLock]
  split
  · exact ⟨w.blobFd, w.sqlBlob, rfl⟩
  · split
    · exact ⟨true, w.sqlBlob, rfl⟩
    · exact ⟨w.blobFd, true, rfl⟩

theorem writeGetLock_fileOffset (host : Host) (w : RhizomeWrite) (offset : ℕ) (data : List Byte) :
    (writeData (writeGetLock host w) offset data).fileOffset = w.fileOffset ∧
      (writeData (writeGetLock host w) offset data).bufferSize = w.bufferSize := by
  obtain ⟨fd, blob, hlock⟩ := writeGetLock_eq host w
  rw [hlock, writeData]
  split <;> exact ⟨rfl, rfl⟩

namespace WriteLoop

/-- How many more iterations there can be. -/
def remaining (s : WriteLoop) : ℕ := s.after.length + s.buffer.length

/-- Processing a buffer moves the position where it has to continue, and nothing else. -/
theorem process_sizes (h : s.process host = some s') :
    s'.write.bufferSize = s.write.bufferSize ∧ s'.buffer = s.buffer ∧
      s'.after.length = s.after.length ∧ (s' = s ∨ s'.write.writtenOffset = s.write.writtenOffset ∧
          s.write.fileOffset < s'.write.fileOffset) := by
  rw [process] at h
  split at h
  case h_1 =>
    cases h
    exact ⟨rfl, rfl, rfl, .inl rfl⟩
  rename_i p rest hafter
  split at h
  case isTrue =>
    simp only [Option.bind_eq_bind, Option.bind_eq_some_iff, Option.some.injEq, Prod.exists] at h
    obtain ⟨data, write, hprepared, rfl⟩ := h
    obtain ⟨hpos, -, rfl⟩ := prepareData_some hprepared
    exact ⟨rfl, rfl, by rw [hafter]; rfl, .inr ⟨rfl, Nat.lt_add_of_pos_right hpos⟩⟩
  case isFalse =>
    cases h
    exact ⟨rfl, rfl, rfl, .inl rfl⟩

theorem flush_some (h : s.flush host shouldWrite = some s') :
    ∃ p rest, s.after = p :: rest ∧ shouldWrite = true ∧ p.offset = s.write.writtenOffset ∧
      s' = { s with
        write := { writeData (writeGetLock host s.write) p.offset p.data with
          bufferSize := s.write.bufferSize - p.data.length }
        after := rest
        lastOffset := p.offset + p.data.length } := by
  rw [flush] at h
  split at h
  · exact nomatch h
  case h_2 p rest hafter =>
    split at h
    case isTrue hcond =>
      simp only [Bool.and_eq_true, decide_eq_true_eq] at hcond
      rw [← Option.some.inj h, (writeGetLock_fileOffset host s.write p.offset p.data).2]
      exact ⟨p, rest, hafter, hcond.1, hcond.2, rfl⟩
    case isFalse => exact nomatch h

theorem flush_remaining (h : s.flush host shouldWrite = some s') :
    s'.remaining < s.remaining := by
  obtain ⟨p, rest, hafter, -, -, rfl⟩ := flush_some h
  simp [remaining, hafter]

theorem trim_some (h : s.trim = some s') :
    s.lastOffset - s.offset < s.buffer.length ∧ s' = { s with
      offset := s.offset + (s.lastOffset - s.offset)
      buffer := s.buffer.drop (s.lastOffset - s.offset) } := by
  rw [trim] at h
  split at h
  case isTrue => exact nomatch h
  case isFalse hlen => exact ⟨not_le.mp hlen, (Option.some.inj h).symm⟩

theorem trim_remaining (h : s.trim = some s') :
    s'.remaining ≤ s.remaining ∧ s'.buffer ≠ [] := by
  obtain ⟨hlen, rfl⟩ := trim_some h
  rw [← length_pos_iff]
  simp only [remaining, length_drop]
  omega

/-- There is a gap for the incoming data. -/
def Gap (s : WriteLoop) : Prop := ∀ p rest, s.after = p :: rest → s.offset < p.offset

theorem gap_pos (hgap : s.Gap) (hbuffer : s.buffer ≠ []) : 0 < s.gap := by
  have hpos := length_pos_of_ne_nil hbuffer
  rw [gap]
  split
  case h_1 => exact hpos
  case h_2 p rest hafter =>
    have := hgap p rest hafter
    omega

theorem gap_le (s : WriteLoop) : s.gap ≤ s.buffer.length := by
  rw [gap]
  split
  case h_1 => exact le_rfl
  case h_2 => exact min_le_left _ _

/-- The incoming data before the existing buffer, which is processed if it comes next. -/
def prepared (host : Host) (s : WriteLoop) : Option (List Byte × RhizomeWrite) :=
  if s.offset = s.write.fileOffset then prepareData host s.write (s.buffer.take s.gap)
  else some (s.buffer.take s.gap, s.write)

theorem prepared_sizes {data : List Byte} {write : RhizomeWrite}
    (h : s.prepared host = some (data, write)) :
    data.length = s.gap ∧
      write.fileOffset = (if s.offset = s.write.fileOffset then s.write.fileOffset + s.gap
        else s.write.fileOffset) ∧
      write.bufferSize = s.write.bufferSize ∧ write.writtenOffset = s.write.writtenOffset := by
  have htake : (s.buffer.take s.gap).length = s.gap := by
    rw [length_take, min_eq_left s.gap_le]
  rw [prepared] at h
  split at h
  case isTrue hoffset =>
    obtain ⟨-, hlen, rfl⟩ := prepareData_some h
    rw [htake] at hlen ⊢
    exact ⟨hlen, (if_pos hoffset).symm, rfl, rfl⟩
  case isFalse hoffset =>
    obtain ⟨rfl, rfl⟩ := h
    exact ⟨htake, (if_neg hoffset).symm, rfl, rfl⟩

/-- Incoming data is refused, written, dropped, or cached as far as there is room. -/
theorem insert_cases (host : Host) (shouldWrite : Bool) (s : WriteLoop) :
    s.prepared host = none ∧ s.insert host shouldWrite = .stop (-1) s ∨
    ∃ data write, s.prepared host = some (data, write) ∧
      ((shouldWrite = true ∧ s.offset = write.writtenOffset) ∧
          s.insert host shouldWrite = .again { s with
            write := writeData (writeGetLock host write) s.offset data
            offset := s.offset + s.gap
            buffer := s.buffer.drop s.gap } ∨
        ¬(shouldWrite = true ∧ s.offset = write.writtenOffset) ∧
          ∃ size, size = (if rhizomeBufferMaximumSize < write.bufferSize + s.gap then
              rhizomeBufferMaximumSize - write.bufferSize else s.gap) ∧
            (size = 0 ∧ s.insert host shouldWrite = .stop 0 { s with write } ∨
              size ≠ 0 ∧ s.insert host shouldWrite = .again { s with
                write := { write with bufferSize := write.bufferSize + size }
                before := s.before ++ [⟨s.offset, (data ++ s.buffer.drop s.gap).take size⟩]
                offset := s.offset + size
                buffer := (data ++ s.buffer.drop s.gap).drop size })) := by
  have hinsert : s.insert host shouldWrite = match s.prepared host with
      | none => .stop (-1) s
      | some (data, write) => _ := rfl
  cases hprepared : s.prepared host with
  | none =>
    rw [hprepared] at hinsert
    exact .inl ⟨rfl, hinsert⟩
  | some prepared =>
    obtain ⟨data, write⟩ := prepared
    have hlen := (prepared_sizes hprepared).1
    rw [hprepared] at hinsert
    dsimp only at hinsert
    refine .inr ⟨data, write, rfl, ?_⟩
    by_cases hwrite : shouldWrite = true ∧ s.offset = write.writtenOffset
    · rw [if_pos (by simpa using hwrite), take_left' hlen, drop_left' hlen] at hinsert
      exact .inl ⟨hwrite, hinsert⟩
    rw [if_neg (by simpa using hwrite)] at hinsert
    refine .inr ⟨hwrite, _, rfl, ?_⟩
    generalize (if rhizomeBufferMaximumSize < write.bufferSize + s.gap then
      rhizomeBufferMaximumSize - write.bufferSize else s.gap) = size at hinsert ⊢
    split at hinsert
    case isTrue hzero => exact .inl ⟨hzero, hinsert⟩
    case isFalse hne => exact .inr ⟨hne, hinsert⟩

/-- What is inserted makes the incoming data shorter and does not need more room than that. -/
theorem insert_sizes (h : s.insert host shouldWrite = .again s') :
    ∃ size, s'.buffer.length + size = s.buffer.length ∧ (0 < s.gap → 0 < size) ∧
      s'.offset = s.offset + size ∧ s'.lastOffset = s.lastOffset ∧ s'.after = s.after ∧
      s'.write.bufferSize ≤ s.write.bufferSize + size ∧
      s'.write.fileOffset = (if s.offset = s.write.fileOffset then s.write.fileOffset + s.gap
        else s.write.fileOffset) ∧
      (s.write.writtenOffset = s.offset ∧ s'.before = s.before ∨
        s'.write.writtenOffset = s.write.writtenOffset ∧
          s.write.bufferSize ≤ s'.write.bufferSize ∧
          ∃ data, s'.before = s.before ++ [⟨s.offset, data⟩]) := by
  have hgap := s.gap_le
  rcases s.insert_cases host shouldWrite with ⟨-, hinsert⟩ | ⟨data, write, hprepared, hcases⟩
  · exact nomatch h.symm.trans hinsert
  obtain ⟨hlen, hfile, hsize, hwritten⟩ := prepared_sizes hprepared
  rcases hcases with ⟨⟨-, hwrite⟩, hinsert⟩ | ⟨-, size, hsize', ⟨-, hinsert⟩ | ⟨hne, hinsert⟩⟩
  · obtain rfl := Next.again.inj (h.symm.trans hinsert)
    obtain ⟨hfile', hsize'⟩ := writeGetLock_fileOffset host write s.offset data
    refine ⟨s.gap, ?_, id, rfl, rfl, rfl, by dsimp only; omega, hfile'.trans hfile,
      .inl ⟨(hwrite.trans hwritten).symm, rfl⟩⟩
    rw [length_drop]
    omega
  · exact nomatch h.symm.trans hinsert
  · obtain rfl := Next.again.inj (h.symm.trans hinsert)
    have hle : size ≤ s.gap := by
      rw [hsize']
      split <;> omega
    refine ⟨size, ?_, fun _ => Nat.pos_of_ne_zero hne, rfl, rfl, rfl, by dsimp only; omega, hfile,
      .inr ⟨hwritten, by dsimp only; omega, _, rfl⟩⟩
    simp only [length_drop, length_append, hlen]
    omega

theorem insert_remaining (hgap : s.Gap) (hbuffer : s.buffer ≠ [])
    (h : s.insert host shouldWrite = .again s') : s'.remaining < s.remaining := by
  obtain ⟨size, hlen, hpos, -, -, hafter, -⟩ := insert_sizes h
  have := hpos (gap_pos hgap hbuffer)
  rw [remaining, remaining, hafter]
  omega

/-- What an iteration does. -/
theorem step_cases {s₁ : WriteLoop} (hprocess : s.process host = some s₁) (shouldWrite : Bool) :
    (∃ s₂, s₁.flush host shouldWrite = some s₂ ∧ s.step host shouldWrite = .again s₂) ∨
    s₁.flush host shouldWrite = none ∧
      (s₁.trim = none ∧ s.step host shouldWrite = .stop 0 s₁ ∨
        ∃ s₂, s₁.trim = some s₂ ∧
          (s₂.Gap ∧ s.step host shouldWrite = s₂.insert host shouldWrite ∨
            ∃ p rest, s₂.after = p :: rest ∧ p.offset ≤ s₂.offset ∧
              s.step host shouldWrite = .again { s₂ with
                before := s₂.before ++ [p]
                after := rest
                lastOffset := p.offset + p.data.length })) := by
  generalize hnext : s.step host shouldWrite = next
  rw [step, hprocess] at hnext
  dsimp only at hnext
  split at hnext
  case h_1 s₂ hflush => exact .inl ⟨s₂, hflush, hnext.symm⟩
  rename_i hflush
  refine .inr ⟨hflush, ?_⟩
  split at hnext
  case h_1 htrim => exact .inl ⟨htrim, hnext.symm⟩
  rename_i s₂ htrim
  refine .inr ⟨s₂, htrim, ?_⟩
  split at hnext
  case h_1 hafter => exact .inl ⟨by simp [Gap, hafter], hnext.symm⟩
  case h_2 p rest hafter =>
    split at hnext
    case isTrue hlt =>
      refine .inl ⟨fun q rest' hq => ?_, hnext.symm⟩
      obtain ⟨rfl, -⟩ := List.cons.inj (hafter.symm.trans hq)
      exact hlt
    case isFalse hge => exact .inr ⟨p, rest, hafter, not_lt.mp hge, hnext.symm⟩

theorem step_remaining (h : s.step host shouldWrite = .again s') : s'.remaining < s.remaining := by
  obtain ⟨s₁, hprocess⟩ : ∃ s₁, s.process host = some s₁ := by
    cases hprocess : s.process host with
    | none =>
      rw [step, hprocess] at h
      exact nomatch h
    | some s₁ => exact ⟨s₁, rfl⟩
  obtain ⟨-, hbuffer, hafter, -⟩ := process_sizes hprocess
  have hremaining : s₁.remaining = s.remaining := by rw [remaining, remaining, hbuffer, hafter]
  rw [← hremaining]
  rcases step_cases hprocess shouldWrite with
    ⟨s₂, hflush, hstep⟩ | ⟨-, ⟨-, hstep⟩ | ⟨s₂, htrim, hcases⟩⟩
  · obtain rfl := Next.again.inj (h.symm.trans hstep)
    exact flush_remaining hflush
  · exact nomatch h.symm.trans hstep
  obtain ⟨hle, hbuffer⟩ := trim_remaining htrim
  refine lt_of_lt_of_le ?_ hle
  rcases hcases with ⟨hgap, hstep⟩ | ⟨p, rest, hafter, -, hstep⟩
  · exact insert_remaining hgap hbuffer (hstep.symm.trans h)
  · obtain rfl := Next.again.inj (h.symm.trans hstep)
    simp [remaining, hafter]

end WriteLoop

end Termination

/-- The loop of `rhizome_random_write`. -/
def writeLoop (host : Host) (shouldWrite : Bool) (s : WriteLoop) : ℤ × WriteLoop :=
  match _h : s.step host shouldWrite with
  | .again s => writeLoop host shouldWrite s
  | .stop ret s => (ret, s)
termination_by s.remaining
decreasing_by exact WriteLoop.step_remaining _h

/-- Whether to write as much as possible, or to cache some more first. -/
def shouldWrite (host : Host) (write : RhizomeWrite) (buffer : Option (List Byte))
    (dataSize : ℕ) : Bool :=
  if write.blobFd || write.sqlBlob || buffer.isNone ||
      decide (host.maxBlobSize < write.fileLength.getD rhizomeSizeUnset) ||
      decide (host.maxBlobSize < write.fileOffset) then true
  else
    let newSize := write.writtenOffset + write.bufferSize + dataSize
    (write.fileLength.any fun length => length ≤ newSize) ||
      decide (rhizomeBufferMaximumSize ≤ newSize)

def rhizomeRandomWrite (host : Host) (write : RhizomeWrite) (offset : ℕ)
    (buffer : Option (List Byte)) : ℤ × RhizomeWrite :=
  if write.fileLength.any fun length => length ≤ offset then (0, write)
  else
    let data := match write.fileLength with
      | some length => (buffer.getD []).take (length - offset)
      | none => buffer.getD []
    let (ret, s) := writeLoop host (shouldWrite host write buffer data.length)
      ⟨write, [], write.bufferList, write.writtenOffset, offset, data⟩
    (ret, writeReleaseLock { s.write with bufferList := s.before ++ s.after })

def rhizomeWriteBuffer (host : Host) (write : RhizomeWrite) (buffer : List Byte) :
    ℤ × RhizomeWrite :=
  rhizomeRandomWrite host write write.fileOffset (some buffer)

def rhizomeFailWrite (write : RhizomeWrite) : RhizomeWrite :=
  writeReleaseLock { write with blobFd := false, bufferList := [] }

/-- What a write leaves of the bytes of a file or a blob. -/
def writeAt (bytes : List Byte) (offset : ℕ) (data : List Byte) : List Byte :=
  (bytes ++ List.replicate (offset - bytes.length) 0#8).take offset ++ data ++
    bytes.drop (offset + data.length)

/-- What was written so far. -/
def RhizomeWrite.blob (write : RhizomeWrite) : List Byte :=
  write.writes.foldl (fun bytes call => writeAt bytes call.1 call.2) []

/-- If the length of the file was not known, there has to be space for what was written. -/
def finishLength (host : Host) (store : Store) (write : RhizomeWrite) :
    Bool × RhizomePayloadStatus × Store :=
  match write.fileLength with
  | some _ => (true, .new, store)
  | none =>
    if write.fileOffset = 0 then (true, .empty, store)
    else
      let (status, store) := host.makeSpace write.fileOffset store
      (status = .new, status, store)

/-- `rhizome_finish_write` up to the comparison of the hashes, and whether that is reached. -/
def finishFlush (host : Host) (store : Store) (write : RhizomeWrite) :
    Except Abort (Bool × RhizomePayloadStatus × RhizomeWrite × Store) :=
  let (space, status, store) := finishLength host store write
  let write := { write with fileLength := some (write.fileLength.getD write.fileOffset) }
  if !space then .ok (false, status, write, store)
  else
    let (ret, write) := if write.bufferList = [] then (0, write)
      else rhizomeRandomWrite host write 0 none
    if ret ≠ 0 ∨ write.bufferList ≠ [] then .ok (false, .error, write, store)
    else if write.fileLength.any fun length => write.fileOffset < length then
      .ok (false, .wrongSize, write, store)
    else if write.fileLength ≠ some write.fileOffset then .error .assertion
    else if write.fileLength = some 0 then .ok (false, status, write, store)
    else .ok (true, status, write, store)

def rhizomeFinishWrite (host : Host) (store : Store) (write : RhizomeWrite) :
    Except Abort (RhizomePayloadStatus × RhizomeWrite × Store) := do
  let (reached, status, write, store) ← finishFlush host store write
  if reached then
    let hash := host.sha512 write.hashed
    if write.id.any fun id => id ≠ hash then
      .ok (.wrongHash, rhizomeFailWrite write, store)
    else
      let write := writeReleaseLock { write with id := some hash, blobFd := false }
      let store := if rhizomeExists store hash then store else (hash, write.blob) :: store
      .ok (status, write, store)
  else .ok (status, rhizomeFailWrite write, store)

section Unchanged

variable {host : Host} {sw : Bool} {w w' : RhizomeWrite}

/-- What writing leaves as it is. -/
structure SameFile (w w' : RhizomeWrite) : Prop where
  id : w'.id = w.id
  tail : w'.tail = w.tail
  fileLength : w'.fileLength = w.fileLength
  crypt : w'.crypt = w.crypt
  key : w'.key = w.key
  nonce : w'.nonce = w.nonce

theorem SameFile.refl (w : RhizomeWrite) : SameFile w w := ⟨rfl, rfl, rfl, rfl, rfl, rfl⟩

theorem SameFile.trans {w₁ w₂ w₃ : RhizomeWrite} (h : SameFile w₁ w₂) (h' : SameFile w₂ w₃) :
    SameFile w₁ w₃ :=
  ⟨h'.id.trans h.id, h'.tail.trans h.tail, h'.fileLength.trans h.fileLength,
    h'.crypt.trans h.crypt, h'.key.trans h.key, h'.nonce.trans h.nonce⟩

theorem prepareData_sameFile {buffer data : List Byte}
    (h : prepareData host w buffer = some (data, w')) : SameFile w w' := by
  obtain ⟨-, -, rfl⟩ := prepareData_some h
  exact ⟨rfl, rfl, rfl, rfl, rfl, rfl⟩

theorem writeData_sameFile (host : Host) (w : RhizomeWrite) (offset : ℕ) (buffer : List Byte) :
    SameFile w (writeData (writeGetLock host w) offset buffer) := by
  obtain ⟨fd, blob, hlock⟩ := writeGetLock_eq host w
  rw [hlock, writeData]
  split <;> exact ⟨rfl, rfl, rfl, rfl, rfl, rfl⟩

namespace WriteLoop

/-- The state in which an iteration ends. -/
def Next.state : Next → WriteLoop
  | .again s => s
  | .stop _ s => s

theorem process_sameFile {s s' : WriteLoop} (h : s.process host = some s') :
    SameFile s.write s'.write := by
  rw [process] at h
  split at h
  case h_1 =>
    cases h
    exact .refl _
  split at h
  case isTrue =>
    simp only [Option.bind_eq_bind, Option.bind_eq_some_iff, Option.some.injEq, Prod.exists] at h
    obtain ⟨data, write, hprepared, rfl⟩ := h
    exact prepareData_sameFile hprepared
  case isFalse =>
    cases h
    exact .refl _

theorem insert_sameFile (host : Host) (sw : Bool) (s : WriteLoop) :
    SameFile s.write (s.insert host sw).state.write := by
  rcases s.insert_cases host sw with ⟨-, hinsert⟩ | ⟨data, write, hprepared, hcases⟩
  · rw [hinsert]
    exact .refl _
  have hsame : SameFile s.write write := by
    rw [prepared] at hprepared
    split at hprepared
    · exact prepareData_sameFile hprepared
    · cases hprepared
      exact .refl _
  rcases hcases with ⟨-, hinsert⟩ | ⟨-, size, -, ⟨-, hinsert⟩ | ⟨-, hinsert⟩⟩ <;> rw [hinsert]
  · exact hsame.trans (writeData_sameFile host write s.offset data)
  · exact hsame
  · exact hsame.trans ⟨rfl, rfl, rfl, rfl, rfl, rfl⟩

theorem step_sameFile (host : Host) (sw : Bool) (s : WriteLoop) :
    SameFile s.write (s.step host sw).state.write := by
  cases hprocess : s.process host with
  | none =>
    rw [step, hprocess]
    exact .refl _
  | some s₁ =>
    have h₁ := process_sameFile hprocess
    rcases step_cases hprocess sw with
      ⟨s₂, hflush, hstep⟩ | ⟨-, ⟨-, hstep⟩ | ⟨s₂, htrim, hcases⟩⟩
    · obtain ⟨p, rest, -, -, -, rfl⟩ := flush_some hflush
      rw [hstep]
      exact h₁.trans { writeData_sameFile host s₁.write p.offset p.data with }
    · rw [hstep]
      exact h₁
    have h₂ : SameFile s.write s₂.write := by
      obtain ⟨-, rfl⟩ := trim_some htrim
      exact h₁
    rcases hcases with ⟨-, hstep⟩ | ⟨p, rest, -, -, hstep⟩ <;> rw [hstep]
    · exact h₂.trans (insert_sameFile host sw s₂)
    · exact h₂

end WriteLoop

theorem writeLoop_sameFile (s : WriteLoop) :
    SameFile s.write (writeLoop host sw s).2.write := by
  fun_induction writeLoop host sw s with
  | case1 s s' hstep ih =>
    have h := s.step_sameFile host sw
    rw [hstep] at h
    exact h.trans ih
  | case2 s ret s' hstep =>
    have h := s.step_sameFile host sw
    rwa [hstep] at h

theorem rhizomeRandomWrite_sameFile (host : Host) (w : RhizomeWrite) (offset : ℕ)
    (buffer : Option (List Byte)) : SameFile w (rhizomeRandomWrite host w offset buffer).2 := by
  rw [rhizomeRandomWrite]
  split
  · exact .refl w
  · exact { writeLoop_sameFile _ with }

theorem finishFlush_id {store store' : Store} {reached : Bool} {status : RhizomePayloadStatus}
    (h : finishFlush host store w = .ok (reached, status, w', store')) : w'.id = w.id := by
  rw [finishFlush] at h
  dsimp only at h
  split at h
  · cases h
    rfl
  generalize hflushed : (if w.bufferList = [] then _ else _ : ℤ × RhizomeWrite) = flushed at h
  obtain ⟨ret, w₁⟩ := flushed
  have hid : w₁.id = w.id := by
    split at hflushed
    · cases hflushed
      rfl
    · have hsame := (rhizomeRandomWrite_sameFile host
        { w with fileLength := some (w.fileLength.getD w.fileOffset) } 0 none).id
      rwa [hflushed] at hsame
  dsimp only at h
  split at h
  · cases h
    exact hid
  split at h
  · cases h
    exact hid
  split at h
  · cases h
  split at h <;> cases h <;> exact hid

end Unchanged

end ServalMesh.Rhizome
