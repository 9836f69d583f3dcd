import ServalMesh.Rhizome.Manifest
import ServalMesh.Rhizome.Read

/-!
# Journals

A journal grows at its end and loses bytes at its start. A new version of its payload begins with
a copy of what is left of the old one, which stays encrypted: the tail of a version counts what
was lost, so that every byte keeps its position in the key stream.
-/

namespace ServalMesh.Rhizome

open Lib Overlay

section Model

-- What a keyring returns as the common secret of a sender and a recipient, if it has one of them.
variable (host : Host) (nmBytes : Binary 32 → Binary 32 → Option (List Byte))

def writeUint64 (v : BitVec 64) : List Byte :=
  (List.range 8).map fun i => BitVec.ofNat 8 (v.toNat / 256 ^ i)

/-- The key and the nonce of a payload, if its secret is known. -/
def rhizomeDerivePayloadKey (m : Manifest) : Except Abort (Option (List Byte × List Byte)) :=
  if m.payloadEncryption ≠ .payloadEncrypted then .error .assertion
  else
    let raw : Option (List Byte) := match m.sender, m.recipient with
      | some sender, some recipient => nmBytes sender recipient
      | _, _ =>
        if m.haveSecret = .secretUnknown then none
        else some (ascii "sasquatch".toList ++ m.cryptoSignSecret)
    match raw with
    | none => .ok none
    | some raw =>
      -- all versions of a journal have the same nonce
      let version := writeUint64 (if m.isJournal then 0 else m.version)
      let bid := (m.cryptoSignPublic.map Binary.bytes).getD (List.replicate 32 0#8)
      .ok (some ((host.sha512 raw).take 32, (host.sha512 (version ++ bid ++ version)).take 24))

def rhizomeWriteDeriveKey (m : Manifest) (write : RhizomeWrite) :
    Except Abort (RhizomePayloadStatus × RhizomeWrite) :=
  if m.payloadEncryption ≠ .payloadEncrypted then .ok (.new, write)
  else
    match rhizomeDerivePayloadKey host nmBytes m with
    | .error e => .error e
    | .ok none => .ok (.cryptoFail, write)
    | .ok (some (key, nonce)) =>
      .ok (.new, { write with
        crypt := true
        tail := if m.isJournal ∧ 0 < m.tail then m.tail.toNat else write.tail
        key, nonce })

/-- The fields of the manifest as `rhizome_write_open_journal` sets them. -/
def advanceJournal (m : Manifest) (advanceBy newSize : BitVec 64) : Except Abort Manifest :=
  match rhizomeManifestSetFilesize m (m.filesize + newSize - advanceBy) with
  | .error e => .error e
  | .ok m =>
    match if 0 < advanceBy then rhizomeManifestSetTail m (m.tail + advanceBy) else .ok m with
    | .error e => .error e
    | .ok m => rhizomeManifestSetVersion m m.filesize

/-- What is left of the old payload is copied. -/
def copyJournal (store : Store) (write : RhizomeWrite) (m : Manifest)
    (advanceBy copyLength : BitVec 64) :
    Except Abort (RhizomePayloadStatus × RhizomeWrite × Store) :=
  match rhizomeOpenWrite host store write none
      (if m.filesize = sizeUnset then none else some m.filesize.toNat) with
  | (.new, write, store) =>
    if 0 < copyLength then
      match rhizomeJournalPipe host store write
          ((m.filehash.map Binary.bytes).getD (List.replicate 64 0#8)) advanceBy.toNat
          copyLength.toNat with
      | .error e => .error e
      | .ok (status, write, store) =>
        .ok (if status = .stored then .new else .error, write, store)
    else .ok (.new, write, store)
  | result => .ok result

def rhizomeWriteOpenJournal (store : Store) (write : RhizomeWrite) (m : Manifest)
    (advanceBy newSize : BitVec 64) :
    Except Abort (RhizomePayloadStatus × RhizomeWrite × Manifest × Store) :=
  if m.filesize = sizeUnset ∨ m.filesize + newSize = 0 ∨ m.isJournal = false ∨
      m.filesize < advanceBy then .error .assertion
  else
    let copyLength := m.filesize - advanceBy
    match advanceJournal m advanceBy newSize with
    | .error e => .error e
    | .ok m =>
      match copyJournal host store write m advanceBy copyLength with
      | .error e => .error e
      | .ok (status, write, store) =>
        match if status = .new then rhizomeWriteDeriveKey host nmBytes m write
          else .ok (status, write) with
        | .error e => .error e
        | .ok (status, write) =>
          .ok (status, if status ≠ .new then rhizomeFailWrite write else write, m, store)

/-- The hash in a manifest. -/
def filehashOf (hash : List Byte) : RhizomeFilehash :=
  ⟨(hash ++ List.replicate 64 0#8).take 64, by simp⟩

def rhizomeAppendJournalBuffer (store : Store) (m : Manifest) (advanceBy : BitVec 64)
    (buffer : List Byte) : Except Abort (RhizomePayloadStatus × Manifest × Store) :=
  match rhizomeWriteOpenJournal host nmBytes store .zero m advanceBy
      (BitVec.ofNat 64 buffer.length) with
  | .error e => .error e
  | .ok (status, write, m, store) =>
    if status ≠ .new then .ok (status, m, store)
    else
      let (ret, write) := if buffer = [] then (0, write) else rhizomeWriteBuffer host write buffer
      if ret = -1 then .ok (.error, m, store)
      else
        match rhizomeFinishWrite host store write with
        | .error e => .error e
        | .ok (status, write, store) =>
          if status ≠ .new then .ok (status, m, store)
          else
            match rhizomeManifestSetFilehash m (write.id.map filehashOf) with
            | .error e => .error e
            | .ok m => .ok (status, m, store)

def readDeriveKey (m : Manifest) (read : RhizomeRead) :
    Except Abort (RhizomePayloadStatus × RhizomeRead) :=
  let read := { read with crypt := m.payloadEncryption = .payloadEncrypted }
  if read.crypt then
    match rhizomeDerivePayloadKey host nmBytes m with
    | .error e => .error e
    | .ok none => .ok (.cryptoFail, read)
    | .ok (some (key, nonce)) =>
      .ok (.stored, { read with
        tail := if m.isJournal ∧ 0 < m.tail then m.tail.toNat else read.tail
        key, nonce })
  else .ok (.stored, read)

def rhizomeOpenDecryptRead (store : Store) (m : Manifest) (read : RhizomeRead) :
    Except Abort (RhizomePayloadStatus × RhizomeRead) :=
  match rhizomeOpenRead store read ((m.filehash.map Binary.bytes).getD (List.replicate 64 0#8)) with
  | (.stored, read) => readDeriveKey host nmBytes m read
  | result => .ok result

theorem rhizomeRead_progress {host : Host} {read read' : RhizomeRead} {n : ℕ} {data : List Byte}
    (h : rhizomeRead host read n = (some data, read')) (hdata : data ≠ []) :
    read'.blob.length - read'.offset < read.blob.length - read.offset := by
  obtain ⟨hblob, hoffset, hdata'⟩ := rhizomeRead_some h
  have hpos := List.length_pos_of_ne_nil hdata
  rw [hdata', List.length_take, List.length_drop] at hpos
  rw [hblob, hoffset, List.length_take, List.length_drop]
  omega

/-- The loop of `write_file`: what is read until the end of the payload, unless it turns out to be
bad. -/
def readLoop (read : RhizomeRead) : Option (List Byte) × RhizomeRead :=
  match _h : rhizomeRead host read rhizomeCryptPageSize with
  | (none, read) => (none, read)
  | (some data, read) =>
    if _hdata : data = [] then (some [], read)
    else
      let (rest, read) := readLoop read
      (rest.map (data ++ ·), read)
termination_by read.blob.length - read.offset
decreasing_by exact rhizomeRead_progress _h _hdata

def rhizomeExtractFile (store : Store) (m : Manifest) :
    Except Abort (RhizomePayloadStatus × List Byte × Store) :=
  match rhizomeOpenDecryptRead host nmBytes store m .zero with
  | .error e => .error e
  | .ok (.stored, read) =>
    match readLoop host read with
    | (none, read) => .ok (.error, [], rhizomeReadClose store read)
    | (some content, read) => .ok (.stored, content, rhizomeReadClose store read)
  | .ok (status, read) => .ok (status, [], rhizomeReadClose store read)

end Model

end ServalMesh.Rhizome
