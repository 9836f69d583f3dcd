import ServalMesh.Rhizome.Text
import ServalMesh.Overlay.Buffer

/-!
# Manifests

A manifest keeps its fields twice: in a list of variables, whose text is signed, and in the
elements of a struct, which the rest of the program reads. Every setter writes both.
-/

namespace ServalMesh.Rhizome

open Lib Overlay

def maxManifestVars : ℕ := 256

def maxManifestBytes : ℕ := 8192

/-- `RHIZOME_SIZE_UNSET`. -/
def sizeUnset : BitVec 64 := BitVec.allOnes 64

/-- The fields that this version knows. -/
inductive Field where
  | id
  | version
  | filehash
  | filesize
  | tail
  | bk
  | service
  | date
  | sender
  | recipient
  | name
  | crypt
deriving DecidableEq

def Field.label : Field → List Byte
  | .id => ascii ['i', 'd']
  | .version => ascii ['v', 'e', 'r', 's', 'i', 'o', 'n']
  | .filehash => ascii ['f', 'i', 'l', 'e', 'h', 'a', 's', 'h']
  | .filesize => ascii ['f', 'i', 'l', 'e', 's', 'i', 'z', 'e']
  | .tail => ascii ['t', 'a', 'i', 'l']
  | .bk => ascii ['B', 'K']
  | .service => ascii ['s', 'e', 'r', 'v', 'i', 'c', 'e']
  | .date => ascii ['d', 'a', 't', 'e']
  | .sender => ascii ['s', 'e', 'n', 'd', 'e', 'r']
  | .recipient => ascii ['r', 'e', 'c', 'i', 'p', 'i', 'e', 'n', 't']
  | .name => ascii ['n', 'a', 'm', 'e']
  | .crypt => ascii ['c', 'r', 'y', 'p', 't']

/-- All fields. -/
def Field.all : List Field :=
  [.id, .version, .filehash, .filesize, .tail, .bk, .service, .date, .sender, .recipient, .name,
    .crypt]

/-- `haveSecret`. -/
inductive HaveSecret where
  | secretUnknown
  | existingBundleId
  | newBundleId
deriving DecidableEq

/-- `enum rhizome_bundle_authorship`. -/
inductive Authorship where
  | anonymous
  | authorNotChecked
  | authenticationError
  | authorUnknown
  | authorLocal
  | authorImpostor
  | authorAuthentic
deriving DecidableEq

/-- `enum rhizome_manifest_crypt`. -/
inductive ManifestCrypt where
  | payloadCryptUnknown
  | payloadClear
  | payloadEncrypted
deriving DecidableEq

/-- `rhizome_manifest`: an element with a has-flag is there if the flag is set, `vars` has the
labels with their values, and `manifestdata` the bytes up to `manifest_all_bytes`. -/
structure Manifest where
  cryptoSignPublic : Option RhizomeBid
  cryptoSignSecret : List Byte
  haveSecret : HaveSecret
  version : BitVec 64
  tail : BitVec 64
  filesize : BitVec 64
  filehash : Option RhizomeFilehash
  vars : List (List Byte × List Byte)
  malformed : Option String
  finalised : Bool
  selfSigned : Bool
  isJournal : Bool
  authorship : Authorship
  payloadEncryption : ManifestCrypt
  date : Option (BitVec 64)
  service : Option (List Byte)
  name : Option (List Byte)
  bundleKey : Option RhizomeBk
  sender : Option (Binary 32)
  recipient : Option (Binary 32)
  rowid : BitVec 64
  inserttime : BitVec 64
  author : Binary 32
  manifestBodyBytes : ℕ
  manifestdata : List Byte
deriving DecidableEq

def sidAny : Binary 32 := ⟨List.replicate 32 0#8, List.length_replicate ..⟩

def rhizomeNewManifest : Manifest where
  cryptoSignPublic := none
  cryptoSignSecret := List.replicate 64 0#8
  haveSecret := .secretUnknown
  version := 0
  tail := sizeUnset
  filesize := sizeUnset
  filehash := none
  vars := []
  malformed := none
  finalised := false
  selfSigned := false
  isJournal := false
  authorship := .anonymous
  payloadEncryption := .payloadCryptUnknown
  date := none
  service := none
  name := none
  bundleKey := none
  sender := none
  recipient := none
  rowid := 0
  inserttime := 0
  author := sidAny
  manifestBodyBytes := 0
  manifestdata := []

section Variables

def rhizomeManifestGet (m : Manifest) (var : List Byte) : Option (List Byte) :=
  (m.vars.find? fun entry => entry.1 = var).map Prod.snd

def rhizomeManifestDel (m : Manifest) (var : List Byte) : Manifest :=
  { m with vars := m.vars.eraseP fun entry => entry.1 = var }

/-- The variables with a new value for a label that is among them. -/
def replaceVar (var value : List Byte) :
    List (List Byte × List Byte) → Option (List (List Byte × List Byte))
  | [] => none
  | entry :: rest =>
    if entry.1 = var then some ((entry.1, value) :: rest)
    else (replaceVar var value rest).map (entry :: ·)

def rhizomeManifestSet (m : Manifest) (var value : List Byte) : Option Manifest :=
  match replaceVar var value m.vars with
  | some vars => some { m with vars }
  | none =>
    if maxManifestVars ≤ m.vars.length then none
    else some { m with vars := m.vars ++ [(var, value)] }

/-- What was signed is no longer current. -/
def Manifest.unfinalised (m : Manifest) : Manifest := { m with finalised := false }

/-- A setter writes the variable, which has to succeed, and the struct. -/
def setField (m : Manifest) (f : Field) (text : List Byte) (update : Manifest → Manifest) :
    Except Abort Manifest :=
  match rhizomeManifestSet m f.label text with
  | none => .error .assertion
  | some m => .ok (update m).unfinalised

/-- What deletes a field asserts that the variable is not there if the struct has nothing. -/
def delField (m : Manifest) (f : Field) (present : Bool) (update : Manifest → Manifest) :
    Except Abort Manifest :=
  if present then .ok (update (rhizomeManifestDel m f.label)).unfinalised
  else if rhizomeManifestGet m f.label = none then .ok m
  else .error .assertion

end Variables

section Setters

variable (m : Manifest)

/-- An authenticated author is known to be in the keyring still. -/
def Authorship.unauthenticated : Authorship → Authorship
  | .authorAuthentic => .authorLocal
  | a => a

/-- If the id is changed, the secret and the bundle key are no longer valid. -/
def resetId (bid : RhizomeBid) : Manifest :=
  if m.cryptoSignPublic.any fun old => old ≠ bid then
    { m with
      cryptoSignSecret :=
        if m.haveSecret = .secretUnknown then m.cryptoSignSecret else List.replicate 64 0#8
      haveSecret := .secretUnknown
      bundleKey := none
      authorship := m.authorship.unauthenticated }
  else m

/-- The id may be the element of the struct itself. -/
def assignId (bid : RhizomeBid) (own : Bool) : Manifest :=
  if own then { m with cryptoSignPublic := some bid }
  else { resetId m bid with cryptoSignPublic := some bid }

def rhizomeManifestSetId (bid : RhizomeBid) (own : Bool) : Except Abort Manifest :=
  setField m .id (tohex bid.bytes) fun m => assignId m bid own

def rhizomeManifestSetVersion (version : BitVec 64) : Except Abort Manifest :=
  setField m .version (printUint64 version) fun m => { m with version }

def rhizomeManifestSetFilesize (size : BitVec 64) : Except Abort Manifest :=
  setField m .filesize (printUint64 size) fun m => { m with filesize := size }

def rhizomeManifestSetFilehash (hash : Option RhizomeFilehash) : Except Abort Manifest :=
  if m.filesize = sizeUnset then .error .assertion
  else
    match hash with
    | some hash => setField m .filehash (tohex hash.bytes) fun m => { m with filehash := some hash }
    | none =>
      .ok (Manifest.unfinalised { rhizomeManifestDel m Field.filehash.label with filehash := none })

def rhizomeManifestSetTail (tail : BitVec 64) : Except Abort Manifest :=
  setField m .tail (printUint64 tail) fun m => { m with tail, isJournal := tail ≠ sizeUnset }

def rhizomeManifestDelBundleKey : Except Abort Manifest := do
  let m ← delField m .bk m.bundleKey.isSome fun m => { m with bundleKey := none }
  .ok { m with authorship := m.authorship.unauthenticated }

def rhizomeManifestSetBundleKey (bk : Option RhizomeBk) : Except Abort Manifest :=
  match bk with
  | some bk => setField m .bk (tohex bk.bytes) fun m => { m with bundleKey := some bk }
  | none => rhizomeManifestDelBundleKey m

def rhizomeStrIsManifestService (text : List Byte) : Bool :=
  text ≠ [] && text.all fun c => isAlnum c || c = 0x5f#8 || c = 0x2e#8

def rhizomeStrIsManifestName (text : List Byte) : Bool :=
  text.all fun c => c ≠ 0x0a#8 && c ≠ 0x0d#8

def rhizomeManifestDelService : Except Abort Manifest :=
  delField m .service m.service.isSome fun m => { m with service := none }

def rhizomeManifestSetService (service : Option CString) : Except Abort Manifest :=
  match service with
  | some service =>
    if rhizomeStrIsManifestService service.bytes then
      setField m .service service.bytes fun m => { m with service := some service.bytes }
    else .error .assertion
  | none => rhizomeManifestDelService m

def rhizomeManifestSetName (name : Option CString) : Except Abort Manifest :=
  match name with
  | some name =>
    if rhizomeStrIsManifestName name.bytes then
      setField m .name name.bytes fun m => { m with name := some name.bytes }
    else .error .assertion
  | none => .ok (Manifest.unfinalised { rhizomeManifestDel m Field.name.label with name := none })

def rhizomeManifestDelName : Except Abort Manifest :=
  delField m .name m.name.isSome fun m => { m with name := none }

/-- The date is printed as an unsigned number. -/
def rhizomeManifestSetDate (date : BitVec 64) : Except Abort Manifest :=
  setField m .date (printUint64 date) fun m => { m with date := some date }

def rhizomeManifestDelSender : Except Abort Manifest :=
  delField m .sender m.sender.isSome fun m => { m with sender := none }

def rhizomeManifestSetSender (sid : Option (Binary 32)) : Except Abort Manifest :=
  match sid with
  | some sid => setField m .sender (tohex sid.bytes) fun m => { m with sender := some sid }
  | none => rhizomeManifestDelSender m

def rhizomeManifestDelRecipient : Except Abort Manifest :=
  delField m .recipient m.recipient.isSome fun m => { m with recipient := none }

def rhizomeManifestSetRecipient (sid : Option (Binary 32)) : Except Abort Manifest :=
  match sid with
  | some sid => setField m .recipient (tohex sid.bytes) fun m => { m with recipient := some sid }
  | none => rhizomeManifestDelRecipient m

def rhizomeManifestSetCrypt (flag : ManifestCrypt) : Except Abort Manifest :=
  match flag with
  | .payloadCryptUnknown =>
    .ok (Manifest.unfinalised
      { rhizomeManifestDel m Field.crypt.label with payloadEncryption := flag })
  | .payloadClear => setField m .crypt (ascii ['0']) fun m => { m with payloadEncryption := flag }
  | .payloadEncrypted =>
    setField m .crypt (ascii ['1']) fun m => { m with payloadEncryption := flag }

def rhizomeManifestSetRowid (rowid : BitVec 64) : Manifest := { m with rowid }

def rhizomeManifestSetInserttime (time : BitVec 64) : Manifest := { m with inserttime := time }

def rhizomeManifestDelAuthor : Manifest :=
  if m.authorship = .anonymous then m else { m with author := sidAny, authorship := .anonymous }

def rhizomeManifestSetAuthor (sid : Option (Binary 32)) : Manifest :=
  match sid with
  | some sid =>
    if m.authorship = .anonymous ∨ m.author ≠ sid then
      { m with author := sid, authorship := .authorNotChecked }
    else m
  | none => rhizomeManifestDelAuthor m

/-- `rhizome_manifest_createid` with the keys that it creates. -/
def rhizomeManifestCreateid (key : RhizomeBid) (secret : List Byte) : Except Abort Manifest := do
  let m ← rhizomeManifestSetId { m with cryptoSignSecret := secret } key true
  rhizomeManifestDelBundleKey { m with haveSecret := .newBundleId }

end Setters

section Text

/-- What `rhizome_manifest_validate_reason` finds missing or wrong. -/
def rhizomeManifestValidateReason (m : Manifest) : Option String :=
  if m.cryptoSignPublic = none then some "Missing 'id' field"
  else if m.version = 0 then some "Missing 'version' field"
  else if m.filesize = sizeUnset then some "Missing 'filesize' field"
  else if m.filesize = 0 ∧ m.filehash ≠ none then some "Spurious 'filehash' field"
  else if m.filesize ≠ 0 ∧ m.filehash = none then some "Missing 'filehash' field"
  else none

def rhizomeServiceFile : List Byte := ascii ['f', 'i', 'l', 'e']

def rhizomeServiceMeshms : List Byte := ascii ['M', 'e', 's', 'h', 'M', 'S', '1']

def rhizomeServiceMeshms2 : List Byte := ascii ['M', 'e', 's', 'h', 'M', 'S', '2']

/-- What `rhizome_manifest_validate_reason` says about the fields that are not essential. -/
def validateMalformed (m : Manifest) : Option String :=
  match m.service with
  | none => some "Missing 'service' field"
  | some service =>
    if service = rhizomeServiceFile then
      if m.name = none then some "Manifest with service='file' missing 'name' field"
      else m.malformed
    else if service = rhizomeServiceMeshms ∨ service = rhizomeServiceMeshms2 then
      if m.recipient = none then some "Manifest missing 'recipient' field"
      else if m.sender = none then some "Manifest missing 'sender' field"
      else m.malformed
    else if !rhizomeStrIsManifestService service then some "Manifest invalid 'service' field"
    else if m.date = none then some "Missing 'date' field"
    else m.malformed

def rhizomeManifestValidate (m : Manifest) : Bool × Manifest :=
  let reason := rhizomeManifestValidateReason m
  (reason = none, { m with malformed := validateMalformed m, finalised := reason = none })

/-- One line of the text. -/
def packLine (entry : List Byte × List Byte) : List Byte :=
  entry.1 ++ 0x3d#8 :: entry.2 ++ [0x0a#8]

/-- `rhizome_manifest_pack_variables`, if there is room for the text and a NUL. -/
def rhizomeManifestPackVariables (m : Manifest) : Option Manifest :=
  let text := m.vars.flatMap packLine
  if maxManifestBytes ≤ text.length then none
  else some { m with
    manifestBodyBytes := text.length + 1
    manifestdata := text ++ [0#8]
    selfSigned := false }

end Text

/-- The calls that change a manifest. -/
inductive ManifestOp where
  | setId (bid : RhizomeBid)
  | createid (key : RhizomeBid) (secret : List Byte)
  | setVersion (version : BitVec 64)
  | setFilesize (size : BitVec 64)
  | setFilehash (hash : Option RhizomeFilehash)
  | setTail (tail : BitVec 64)
  | setBundleKey (bk : Option RhizomeBk)
  | delBundleKey
  | setService (service : Option CString)
  | delService
  | setName (name : Option CString)
  | delName
  | setDate (date : BitVec 64)
  | setSender (sid : Option (Binary 32))
  | delSender
  | setRecipient (sid : Option (Binary 32))
  | delRecipient
  | setCrypt (flag : ManifestCrypt)
  | setRowid (rowid : BitVec 64)
  | setInserttime (time : BitVec 64)
  | setAuthor (sid : Option (Binary 32))
  | delAuthor
deriving DecidableEq

def ManifestOp.run (m : Manifest) : ManifestOp → Except Abort Manifest
  | .setId bid => rhizomeManifestSetId m bid false
  | .createid key secret => rhizomeManifestCreateid m key secret
  | .setVersion version => rhizomeManifestSetVersion m version
  | .setFilesize size => rhizomeManifestSetFilesize m size
  | .setFilehash hash => rhizomeManifestSetFilehash m hash
  | .setTail tail => rhizomeManifestSetTail m tail
  | .setBundleKey bk => rhizomeManifestSetBundleKey m bk
  | .delBundleKey => rhizomeManifestDelBundleKey m
  | .setService service => rhizomeManifestSetService m service
  | .delService => rhizomeManifestDelService m
  | .setName name => rhizomeManifestSetName m name
  | .delName => rhizomeManifestDelName m
  | .setDate date => rhizomeManifestSetDate m date
  | .setSender sid => rhizomeManifestSetSender m sid
  | .delSender => rhizomeManifestDelSender m
  | .setRecipient sid => rhizomeManifestSetRecipient m sid
  | .delRecipient => rhizomeManifestDelRecipient m
  | .setCrypt flag => rhizomeManifestSetCrypt m flag
  | .setRowid rowid => .ok (rhizomeManifestSetRowid m rowid)
  | .setInserttime time => .ok (rhizomeManifestSetInserttime m time)
  | .setAuthor sid => .ok (rhizomeManifestSetAuthor m sid)
  | .delAuthor => .ok (rhizomeManifestDelAuthor m)

def runManifestOps (m : Manifest) (ops : List ManifestOp) : Except Abort Manifest :=
  ops.foldlM ManifestOp.run m

end ServalMesh.Rhizome
