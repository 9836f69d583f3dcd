import ServalMesh.Rhizome.WriteSequence

/-!
# Reading payloads

A stored payload is read from any offset, hashed as long as it is read in order, and decrypted. It
can be copied into another payload as it is stored. All input and output succeeds.
-/

namespace ServalMesh.Rhizome

open Lib Overlay List

/-- The element `verified` of `struct rhizome_read`. -/
inductive Verified where
  | unknown
  | good
  | bad
deriving DecidableEq

/-- `struct rhizome_read`: `blob` is what is stored, and `hashed` what the hash was updated with. -/
structure RhizomeRead where
  id : List Byte
  crypt : Bool
  key : List Byte
  nonce : List Byte
  hashOffset : ℕ
  hashed : List Byte
  verified : Verified
  blob : List Byte
  tail : ℕ
  offset : ℕ
  length : ℕ
deriving DecidableEq

/-- The struct as it is cleared before it is opened. -/
def RhizomeRead.zero : RhizomeRead where
  id := []
  crypt := false
  key := []
  nonce := []
  hashOffset := 0
  hashed := []
  verified := .unknown
  blob := []
  tail := 0
  offset := 0
  length := 0

def rhizomeOpenRead (store : Store) (read : RhizomeRead) (hash : List Byte) :
    RhizomePayloadStatus × RhizomeRead :=
  let read := { read with id := hash, verified := .unknown, offset := 0, hashOffset := 0 }
  match store.find? fun entry => entry.1 = hash with
  | none => (.new, read)
  | some (_, blob) => (.stored, { read with blob, length := blob.length, hashed := [] })

/-- What was read is hashed if it comes next. At the end the hash is compared. -/
def hashRead (host : Host) (read : RhizomeRead) (data : List Byte) : RhizomeRead :=
  if read.hashOffset = read.offset ∧ data ≠ [] then
    let read := { read with
      hashed := read.hashed ++ data
      hashOffset := read.hashOffset + data.length }
    if read.length ≤ read.hashOffset then
      { read with verified := if host.sha512 read.hashed = read.id then .good else .bad }
    else read
  else read

/-- Read up to so many bytes, unless the payload turned out to be bad. -/
def rhizomeRead (host : Host) (read : RhizomeRead) (bufferLength : ℕ) :
    Option (List Byte) × RhizomeRead :=
  if read.verified = .bad then (none, read)
  else
    let data := (read.blob.drop read.offset).take bufferLength
    let read := hashRead host read data
    if read.verified = .bad then (none, read)
    else
      let plain := if read.crypt then
          rhizomeCryptXorBlock host.stream data ((read.offset + read.tail) % 2 ^ 64) read.key
            read.nonce
        else data
      (some plain, { read with offset := read.offset + data.length })

theorem hashRead_same (host : Host) (read : RhizomeRead) (data : List Byte) :
    (hashRead host read data).blob = read.blob ∧
    (hashRead host read data).offset = read.offset := by
  rw [hashRead]
  split
  · dsimp only
    split <;> exact ⟨rfl, rfl⟩
  · exact ⟨rfl, rfl⟩

theorem rhizomeRead_some {host : Host} {read read' : RhizomeRead} {n : ℕ} {data : List Byte}
    (h : rhizomeRead host read n = (some data, read')) :
    read'.blob = read.blob ∧
      read'.offset = read.offset + ((read.blob.drop read.offset).take n).length ∧
      data.length = ((read.blob.drop read.offset).take n).length := by
  obtain ⟨hblob, hoffset⟩ := hashRead_same host read ((read.blob.drop read.offset).take n)
  rw [rhizomeRead] at h
  split at h
  · exact nomatch h
  dsimp only at h
  split at h
  · exact nomatch h
  obtain ⟨hplain, rfl⟩ := Prod.mk.inj h
  cases hplain
  exact ⟨hblob, congrArg (· + _) hoffset, length_cryptIf ..⟩

/-- A payload that turned out to be bad is deleted. -/
def rhizomeReadClose (store : Store) (read : RhizomeRead) : Store :=
  if read.verified = .bad then store.filter fun entry => entry.1 ≠ read.id else store

/-- The loop of `rhizome_pipe`. At the end of the payload nothing is read, again and again. -/
def pipeLoop (host : Host) (read : RhizomeRead) (write : RhizomeWrite) (length : ℕ) :
    Except Abort (ℤ × RhizomeRead × RhizomeWrite) :=
  if _hlength : length = 0 then .ok (0, read, write)
  else
    match rhizomeRead host read (min rhizomeCryptPageSize length) with
    | (none, read) => .ok (-1, read, write)
    | (some data, read) =>
      let (ret, write) := rhizomeWriteBuffer host write data
      if ret ≠ 0 then .ok (-1, read, write)
      else if _hdata : data = [] then .error .endless
      else pipeLoop host read write (length - data.length)
termination_by length
decreasing_by
  have := length_pos_of_ne_nil _hdata
  omega

def rhizomePipe (host : Host) (read : RhizomeRead) (write : RhizomeWrite) (length : ℕ) :
    Except Abort (ℤ × RhizomeRead × RhizomeWrite) :=
  let fileLength := write.fileLength.getD rhizomeSizeUnset
  if fileLength < write.fileOffset then .error .assertion
  else if fileLength - write.fileOffset < length then .ok (-1, read, write)
  else pipeLoop host read write length

def rhizomeJournalPipe (host : Host) (store : Store) (write : RhizomeWrite) (hash : List Byte)
    (startOffset length : ℕ) : Except Abort (RhizomePayloadStatus × RhizomeWrite × Store) :=
  match rhizomeOpenRead store .zero hash with
  | (.stored, read) =>
    match rhizomePipe host { read with offset := startOffset } write length with
    | .error e => .error e
    | .ok (ret, read, write) =>
      .ok (if ret = -1 then .error else .stored, write, rhizomeReadClose store read)
  | (status, read) => .ok (status, write, rhizomeReadClose store read)

section Reads

variable {host : Host} {read read' : RhizomeRead} {n : ℕ}

/-- What is known of a payload that is stored under its hash and being read. -/
structure ReadsBlob (host : Host) (read : RhizomeRead) : Prop where
  length : read.length = read.blob.length
  id : host.sha512 read.blob = read.id
  hashed : read.hashed = read.blob.take read.hashOffset
  offset_le : read.hashOffset ≤ read.blob.length
  verified : read.verified ≠ .bad

/-- What the next read returns. -/
def RhizomeRead.next (host : Host) (read : RhizomeRead) (n : ℕ) : List Byte :=
  if read.crypt then
    rhizomeCryptXorBlock host.stream ((read.blob.drop read.offset).take n)
      ((read.offset + read.tail) % 2 ^ 64) read.key read.nonce
  else (read.blob.drop read.offset).take n

/-- What reading leaves as it is. -/
structure SameBlob (read read' : RhizomeRead) : Prop where
  blob : read'.blob = read.blob
  crypt : read'.crypt = read.crypt
  key : read'.key = read.key
  nonce : read'.nonce = read.nonce
  tail : read'.tail = read.tail

theorem ReadsBlob.hashRead (h : ReadsBlob host read) (n : ℕ) :
    ReadsBlob host (hashRead host read ((read.blob.drop read.offset).take n)) ∧
      SameBlob read (Rhizome.hashRead host read ((read.blob.drop read.offset).take n)) ∧
      (Rhizome.hashRead host read ((read.blob.drop read.offset).take n)).offset = read.offset := by
  rw [Rhizome.hashRead]
  by_cases hnext : read.hashOffset = read.offset ∧ (read.blob.drop read.offset).take n ≠ []
  · rw [if_pos hnext]
    have hlen : read.hashOffset + ((read.blob.drop read.offset).take n).length ≤
        read.blob.length := by
      have := h.offset_le
      rw [length_take, length_drop, ← hnext.1]
      omega
    have hhashed : read.hashed ++ (read.blob.drop read.offset).take n =
        read.blob.take (read.hashOffset + ((read.blob.drop read.offset).take n).length) := by
      rw [h.hashed, take_add, ← hnext.1]
      congr 1
      rw [length_take, take_eq_take_min]
    dsimp only
    split
    case isTrue hend =>
      refine ⟨⟨h.length, h.id, hhashed, hlen, ?_⟩, ⟨rfl, rfl, rfl, rfl, rfl⟩, rfl⟩
      have hgood : host.sha512 (read.hashed ++ (read.blob.drop read.offset).take n) = read.id := by
        rw [hhashed, take_of_length_le (h.length ▸ hend), h.id]
      rw [if_pos hgood]
      exact nofun
    case isFalse =>
      exact ⟨⟨h.length, h.id, hhashed, hlen, h.verified⟩, ⟨rfl, rfl, rfl, rfl, rfl⟩, rfl⟩
  · rw [if_neg hnext]
    exact ⟨h, ⟨rfl, rfl, rfl, rfl, rfl⟩, rfl⟩

/-- A read of a good payload. -/
theorem ReadsBlob.rhizomeRead (h : ReadsBlob host read) (n : ℕ) :
    ∃ read', rhizomeRead host read n = (some (read.next host n), read') ∧ ReadsBlob host read' ∧
      SameBlob read read' ∧
      read'.offset = read.offset + ((read.blob.drop read.offset).take n).length := by
  obtain ⟨hreading, hsame, hoffset⟩ := h.hashRead n
  rw [Rhizome.rhizomeRead, if_neg h.verified]
  dsimp only
  rw [if_neg hreading.verified, hsame.crypt, hsame.key, hsame.nonce, hsame.tail, hoffset]
  refine ⟨_, rfl, { hreading with }, ⟨hsame.blob, rfl, rfl, rfl, rfl⟩, rfl⟩

theorem RhizomeRead.length_next (host : Host) (read : RhizomeRead) (n : ℕ) :
    (read.next host n).length = ((read.blob.drop read.offset).take n).length :=
  length_cryptIf ..

end Reads

section Pipes

variable {host : Host} {file e : List Byte} {read : RhizomeRead} {w : RhizomeWrite} {length : ℕ}

/-- What is piped comes next in the file that is written. -/
theorem ReadsBlob.pipeLoop (h : ReadsBlob host read) (hcrypt : read.crypt = false)
    (hw : InSequence host file e w w.bufferList) (hread : read.offset + length ≤ read.blob.length)
    (hfits : w.fileOffset + length ≤ file.length)
    (hsame : (read.blob.drop read.offset).take length = (file.drop w.fileOffset).take length) :
    ∃ read' w', pipeLoop host read w length = .ok (0, read', w') ∧ ReadsBlob host read' ∧
      InSequence host file e w' w'.bufferList ∧ w'.fileOffset = w.fileOffset + length ∧
      SameFile w w' := by
  induction length using Nat.strong_induction_on generalizing read w with
  | _ length ih =>
    rw [Rhizome.pipeLoop]
    by_cases hzero : length = 0
    · rw [dif_pos hzero]
      exact ⟨read, w, rfl, h, hw, by rw [hzero, Nat.add_zero], .refl w⟩
    rw [dif_neg hzero]
    have hpage : min rhizomeCryptPageSize length ≤ length := min_le_right _ _
    have hpos : 0 < min rhizomeCryptPageSize length := by
      rw [rhizomeCryptPageSize]
      omega
    generalize min rhizomeCryptPageSize length = n at hpage hpos
    have hlen : ((read.blob.drop read.offset).take n).length = n := by
      rw [length_take, length_drop]
      omega
    have htake : (read.blob.drop read.offset).take n = (file.drop w.fileOffset).take n := by
      have := congrArg (List.take n) hsame
      rwa [take_take, take_take, min_eq_left hpage] at this
    have hplain : read.next host n = (read.blob.drop read.offset).take n := by
      rw [RhizomeRead.next, if_neg (by simp [hcrypt])]
    obtain ⟨read₁, hread₁, h₁, hblob, hoffset⟩ := h.rhizomeRead n
    have hnext : IsNext file w.fileOffset ((read.blob.drop read.offset).take n) := by
      refine ⟨?_, ?_, ?_⟩
      · rwa [← length_pos_iff, hlen]
      · omega
      · rwa [hlen]
    obtain ⟨w₁, hw₁, hseq, hfile, hsame₁⟩ := hw.writeBuffer hnext
    rw [hread₁, hplain]
    dsimp only
    rw [hw₁]
    rw [if_neg (by simp), dif_neg hnext.nonempty, hlen]
    rw [hlen] at hoffset hfile
    have hrest : (read.blob.drop (read.offset + n)).take (length - n) =
        (file.drop (w.fileOffset + n)).take (length - n) := by
      have := congrArg (List.drop n) hsame
      rwa [drop_take, drop_take, drop_drop, drop_drop] at this
    obtain ⟨read₂, w₂, hloop, h₂, hseq₂, hfile₂, hsame₂⟩ := ih (length - n) (by omega) h₁
      (hblob.crypt.trans hcrypt) hseq (by rw [hblob.blob, hoffset]; omega) (by omega)
      (by rw [hblob.blob, hoffset, hfile]; exact hrest)
    refine ⟨read₂, w₂, hloop, h₂, hseq₂, ?_, hsame₁.trans hsame₂⟩
    omega

/-- Part of a stored payload is copied into one that is written. -/
theorem rhizomeJournalPipe_copies {store : Store} {hash blob : List Byte} {startOffset : ℕ}
    (hstored : store.find? (fun entry => entry.1 = hash) = some (hash, blob))
    (hhash : host.sha512 blob = hash) (hw : InSequence host file e w w.bufferList)
    (hread : startOffset + length ≤ blob.length) (hfits : w.fileOffset + length ≤ file.length)
    (hsame : (blob.drop startOffset).take length = (file.drop w.fileOffset).take length) :
    ∃ w', rhizomeJournalPipe host store w hash startOffset length = .ok (.stored, w', store) ∧
      InSequence host file e w' w'.bufferList ∧ w'.fileOffset = w.fileOffset + length ∧
      SameFile w w' := by
  have hopen : rhizomeOpenRead store .zero hash = (.stored, { RhizomeRead.zero with
      id := hash, blob, length := blob.length }) := by
    rw [rhizomeOpenRead]
    simp only [hstored]
    rfl
  have hreading : ReadsBlob host { RhizomeRead.zero with
      id := hash, blob, length := blob.length, offset := startOffset } :=
    ⟨rfl, hhash, rfl, Nat.zero_le _, nofun⟩
  obtain ⟨read', w', hloop, h', hseq, hfile, hsame'⟩ :=
    hreading.pipeLoop rfl hw hread hfits hsame
  have hpipe : rhizomePipe host { RhizomeRead.zero with
      id := hash, blob, length := blob.length, offset := startOffset } w length =
      .ok (0, read', w') := by
    rwa [rhizomePipe, hw.streamed.length, Option.getD_some, if_neg (by omega), if_neg (by omega)]
  refine ⟨w', ?_, hseq, hfile, hsame'⟩
  rw [rhizomeJournalPipe, hopen]
  dsimp only
  rw [hpipe]
  dsimp only
  rw [if_neg (by decide), rhizomeReadClose, if_neg h'.verified]

end Pipes

end ServalMesh.Rhizome
