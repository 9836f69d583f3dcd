import ServalMesh.Rhizome.Journal
import ServalMesh.Rhizome.WriteShape

/-!
# Appending to journals

What is read from a journal after an append is what was left of it, followed by what was appended.
-/

namespace ServalMesh.Rhizome

open Lib Overlay List Option BitVec Except

section Reads

variable {host : Host} {read : RhizomeRead}

/-- A byte string at a position of an encrypted payload, or of one that is not. -/
def cipherAt (host : Host) (crypt : Option (List Byte × List Byte)) (position : ℕ)
    (bytes : List Byte) : List Byte :=
  match crypt with
  | none => bytes
  | some (key, nonce) => xorStream (payloadStream host.stream key nonce) position bytes

variable (host) (crypt : Option (List Byte × List Byte)) (position : ℕ) (bytes : List Byte)

@[simp]
theorem length_cipherAt : (cipherAt host crypt position bytes).length = bytes.length := by
  cases crypt with
  | none => rfl
  | some crypt => exact length_xorStream ..

theorem cipherAt_cipherAt :
    cipherAt host crypt position (cipherAt host crypt position bytes) = bytes := by
  cases crypt with
  | none => rfl
  | some crypt => exact xorStream_xorStream ..

theorem cipherAt_append (more : List Byte) : cipherAt host crypt position (bytes ++ more) =
      cipherAt host crypt position bytes ++ cipherAt host crypt (position + bytes.length) more := by
  cases crypt with
  | none => rfl
  | some crypt => exact xorStream_append ..

theorem drop_cipherAt (n : ℕ) : (cipherAt host crypt position bytes).drop n =
      cipherAt host crypt (position + n) (bytes.drop n) := by
  cases crypt with
  | none => rfl
  | some crypt => exact drop_xorStream ..

/-- How a payload that is read is encrypted. -/
def RhizomeRead.cipher (read : RhizomeRead) : Option (List Byte × List Byte) :=
  if read.crypt then some (read.key, read.nonce) else none

theorem RhizomeRead.next_eq (read : RhizomeRead) (n : ℕ)
    (hwrap : read.crypt = true → read.offset + read.tail < 2 ^ 64) :
    read.next host n =
      cipherAt host read.cipher (read.tail + read.offset)
        ((read.blob.drop read.offset).take n) := by
  rw [RhizomeRead.next, cipher]
  split
  case isTrue hcrypt =>
    rw [rhizomeCryptXorBlock_eq, Nat.mod_eq_of_lt (hwrap hcrypt), Nat.add_comm]
    rfl
  case isFalse => rfl

variable {host}

/-- A payload is read to its end. -/
theorem ReadsBlob.readLoop (h : ReadsBlob host read) (hle : read.offset ≤ read.blob.length) :
    ∃ content read', readLoop host read = (some content, read') ∧ ReadsBlob host read' ∧
      content.length = read.blob.length - read.offset ∧
      ((read.crypt = true → read.tail + read.blob.length ≤ 2 ^ 64) → content =
        cipherAt host read.cipher (read.tail + read.offset) (read.blob.drop read.offset)) := by
  induction hn : read.blob.length - read.offset using Nat.strong_induction_on generalizing read with
  | _ n ih =>
    obtain ⟨read₁, hread, h₁, hblob, hoffset⟩ := h.rhizomeRead rhizomeCryptPageSize
    have hlen := RhizomeRead.length_next host read rhizomeCryptPageSize
    rw [Rhizome.readLoop, hread]
    dsimp only
    by_cases hdata : read.next host rhizomeCryptPageSize = []
    · rw [hdata, length_nil, length_take, length_drop, rhizomeCryptPageSize] at hlen
      have hend : read.blob.drop read.offset = [] := drop_eq_nil_of_le (by omega)
      have hempty : cipherAt host read.cipher (read.tail + read.offset) [] = [] :=
        length_eq_zero_iff.mp (length_cipherAt ..)
      rw [dif_pos hdata, hend, hempty]
      exact ⟨[], read₁, rfl, h₁, by rw [length_nil]; omega, fun _ => rfl⟩
    · have hpos := length_pos_of_ne_nil hdata
      have hle' : ((read.blob.drop read.offset).take rhizomeCryptPageSize).length ≤
          read.blob.length - read.offset := by
        rw [length_take, length_drop]
        exact min_le_right _ _
      have hcipher : read₁.cipher = read.cipher := by
        rw [RhizomeRead.cipher, RhizomeRead.cipher, hblob.crypt, hblob.key, hblob.nonce]
      obtain ⟨content, read₂, hloop, h₂, hlength, hcontent⟩ :=
        ih (read₁.blob.length - read₁.offset) (by rw [hblob.blob, hoffset]; omega) h₁
          (by rw [hblob.blob, hoffset]; omega) rfl
      rw [dif_neg hdata, hloop]
      refine ⟨read.next host rhizomeCryptPageSize ++ content, read₂, rfl, h₂, ?_, fun hwrap => ?_⟩
      · rw [length_append, hlength, hlen, hblob.blob, hoffset]
        omega
      have hnext := read.next_eq host rhizomeCryptPageSize fun hcrypt => by
        have := hwrap hcrypt
        omega
      rw [hcontent (by rw [hblob.blob, hblob.tail, hblob.crypt]; exact hwrap), hcipher, hblob.blob,
        hblob.tail, hoffset, hnext, ← Nat.add_assoc, ← cipherAt_append, ← drop_drop]
      generalize read.blob.drop read.offset = rest
      rw [length_take]
      rcases le_total rhizomeCryptPageSize rest.length with hpage | hpage
      · rw [min_eq_left hpage, take_append_drop]
      · rw [min_eq_right hpage, drop_length, append_nil, take_of_length_le hpage]

end Reads

section Extracting

variable {host : Host} {nmBytes : Binary 32 → Binary 32 → Option (List Byte)} {store : Store}
  {m m' : Manifest} {blob content : List Byte}

/-- How the payload of a manifest is encrypted, unless its key cannot be derived. -/
def payloadCipher (host : Host) (nmBytes : Binary 32 → Binary 32 → Option (List Byte))
    (m : Manifest) : Option (Option (List Byte × List Byte)) :=
  if m.payloadEncryption = .payloadEncrypted then
    match rhizomeDerivePayloadKey host nmBytes m with
    | .ok (some crypt) => some (some crypt)
    | _ => none
  else some none

/-- Payloads are stored under their hashes, and each hash is there only once. -/
structure Rows (host : Host) (store : Store) : Prop where
  hashed : ∀ entry ∈ store, host.sha512 entry.2 = entry.1
  unique : ∀ entry ∈ store, ∀ other ∈ store, entry.1 = other.1 → entry = other

/-- No other payload that is stored has the same hash. -/
def NoCollision (host : Host) (store : Store) (payload : List Byte) : Prop :=
  ∀ entry ∈ store, entry.1 = host.sha512 payload → entry.2 = payload

theorem Rows.noCollision {payload : List Byte} (h : Rows host store)
    (hmem : (host.sha512 payload, payload) ∈ store) : NoCollision host store payload :=
  fun entry hentry hkey => congrArg Prod.snd (h.unique entry hentry _ hmem hkey)

theorem derivePayloadKey_ok (host : Host)
    (nmBytes : Binary 32 → Binary 32 → Option (List Byte))
    (hcrypt : m.payloadEncryption = .payloadEncrypted) :
    ∃ crypt, rhizomeDerivePayloadKey host nmBytes m = .ok crypt := by
  rw [rhizomeDerivePayloadKey, if_neg (not_not.mpr hcrypt)]
  dsimp only
  split
  · exact ⟨none, rfl⟩
  · exact ⟨_, rfl⟩

theorem journal_position (hjournal : m.isJournal = true) :
    (if m.isJournal = true ∧ 0 < m.tail then m.tail.toNat else 0) = m.tail.toNat := by
  split
  case isTrue => rfl
  case isFalse hzero =>
    have hzero : ¬ 0 < m.tail := fun hpos => hzero ⟨hjournal, hpos⟩
    exact (Nat.eq_zero_of_not_pos hzero).symm

/-- The content of a stored payload whose key is known. -/
theorem rhizomeExtractFile_stored {hash : RhizomeFilehash} {crypt : Option (List Byte × List Byte)}
    (hjournal : m.isJournal = true) (hhash : m.filehash = some hash)
    (hfind : store.find? (fun entry => entry.1 = hash.bytes) = some (hash.bytes, blob))
    (hsha : host.sha512 blob = hash.bytes) (hcipher : payloadCipher host nmBytes m = some crypt) :
    ∃ content, rhizomeExtractFile host nmBytes store m = .ok (.stored, content, store) ∧
      content.length = blob.length ∧
      ((m.payloadEncryption = .payloadEncrypted → m.tail.toNat + blob.length ≤ 2 ^ 64) →
        content = cipherAt host crypt m.tail.toNat blob) := by
  have hopen : rhizomeOpenRead store .zero
      ((m.filehash.map Binary.bytes).getD (List.replicate 64 0#8)) =
      (.stored, { RhizomeRead.zero with id := hash.bytes, blob, length := blob.length }) := by
    rw [hhash, map_some, getD_some, rhizomeOpenRead]
    simp only [hfind]
    rfl
  have hderive : ∃ read, readDeriveKey host nmBytes m
      { RhizomeRead.zero with id := hash.bytes, blob, length := blob.length } =
        .ok (.stored, read) ∧
      ReadsBlob host read ∧ read.blob = blob ∧ read.offset = 0 ∧ read.cipher = crypt ∧
      (m.payloadEncryption = .payloadEncrypted ∧ read.tail = m.tail.toNat ∨
        crypt = none ∧ read.crypt = false) := by
    have hreading : ∀ (crypt : Bool) (tail : ℕ) (key nonce : List Byte), ReadsBlob host
        { RhizomeRead.zero with
          id := hash.bytes, blob, length := blob.length, crypt, tail, key, nonce } :=
      fun _ _ _ _ => ⟨rfl, hsha, rfl, Nat.zero_le _, by simp [RhizomeRead.zero]⟩
    rw [payloadCipher] at hcipher
    rw [readDeriveKey]
    by_cases hcrypt : m.payloadEncryption = .payloadEncrypted
    · rw [if_pos hcrypt] at hcipher
      split at hcipher
      case h_1 key hkey =>
        cases hcipher
        obtain ⟨key, nonce⟩ := key
        simp only [hcrypt, decide_true, if_pos, hkey]
        exact ⟨_, rfl, hreading true _ key nonce, rfl, rfl, rfl,
          .inl ⟨trivial, journal_position hjournal⟩⟩
      case h_2 => cases hcipher
    · rw [if_neg hcrypt] at hcipher
      cases hcipher
      simp only [hcrypt, decide_false, Bool.false_eq_true, if_false]
      exact ⟨_, rfl, hreading false 0 [] [], rfl, rfl, rfl, .inr ⟨trivial, rfl⟩⟩
  obtain ⟨read, hderive, hread, hblob, hoffset, hcipher', htail⟩ := hderive
  obtain ⟨content, read', hloop, hread', hlength, hcontent⟩ :=
    hread.readLoop (by rw [hoffset]; omega)
  rw [hblob, hoffset, Nat.sub_zero] at hlength
  refine ⟨content, ?_, hlength, fun hwrap => ?_⟩
  · rw [rhizomeExtractFile, rhizomeOpenDecryptRead, hopen]
    dsimp only
    rw [hderive]
    dsimp only
    rw [hloop]
    dsimp only
    rw [rhizomeReadClose, if_neg hread'.verified]
  · rcases htail with ⟨hcrypt, htail⟩ | ⟨rfl, hplain⟩
    · rw [hcontent (by rw [hblob, htail]; exact fun _ => hwrap hcrypt), hblob, hoffset, hcipher',
        drop_zero, Nat.add_zero, htail]
    · rw [hcontent (by simp [hplain]), hblob, hoffset, hcipher', drop_zero]
      rfl

/-- A journal whose payload is stored and can be read. -/
structure StoredJournal (host : Host) (nmBytes : Binary 32 → Binary 32 → Option (List Byte))
    (store : Store) (m : Manifest) (content : List Byte) : Prop where
  journal : m.isJournal = true
  hashed : m.filehash ≠ none
  size : m.filesize.toNat = content.length
  extract : rhizomeExtractFile host nmBytes store m = .ok (.stored, content, store)

theorem StoredJournal.found (h : StoredJournal host nmBytes store m content) :
    ∃ hash blob crypt, m.filehash = some hash ∧
      store.find? (fun entry => entry.1 = hash.bytes) = some (hash.bytes, blob) ∧
      payloadCipher host nmBytes m = some crypt := by
  obtain ⟨hash, hhash⟩ := ne_none_iff_exists'.mp h.hashed
  have hextract := h.extract
  rw [rhizomeExtractFile, rhizomeOpenDecryptRead, hhash, map_some, getD_some,
    rhizomeOpenRead] at hextract
  cases hfind : store.find? (fun entry => entry.1 = hash.bytes) with
  | none =>
    simp only [hfind] at hextract
    cases hextract
  | some entry =>
    have hkey : entry.1 = hash.bytes := by simpa using find?_some hfind
    obtain ⟨key, blob⟩ := entry
    obtain rfl : key = hash.bytes := hkey
    refine ⟨hash, blob, ?_⟩
    simp only [hfind] at hextract
    rw [payloadCipher]
    by_cases hcrypt : m.payloadEncryption = .payloadEncrypted
    · obtain ⟨crypt, hderive⟩ := derivePayloadKey_ok host nmBytes hcrypt
      rw [readDeriveKey] at hextract
      simp only [hcrypt, decide_true, if_pos, hderive] at hextract
      rw [if_pos hcrypt, hderive]
      cases crypt with
      | none => cases hextract
      | some crypt => exact ⟨some crypt, hhash, hfind, rfl⟩
    · rw [if_neg hcrypt]
      exact ⟨none, hhash, hfind, rfl⟩

end Extracting

section Fields

variable {m m' : Manifest}

theorem setField_eq {f : Field} {text : List Byte} {update : Manifest → Manifest}
    (h : setField m f text update = .ok m') :
    ∃ vars, m' = (update { m with vars }).unfinalised := by
  rw [setField, rhizomeManifestSet] at h
  rcases hreplace : replaceVar f.label text m.vars with _ | vars <;> rw [hreplace] at h
  · dsimp only at h
    split at h
    case h_1 => exact nomatch h
    case h_2 m₁ hset =>
      split at hset
      · exact nomatch hset
      · cases hset
        exact ⟨_, (ok.inj h).symm⟩
  · exact ⟨vars, (ok.inj h).symm⟩

/-- The key of a payload is the same for both manifests. -/
structure SameSecret (m m' : Manifest) : Prop where
  payloadEncryption : m'.payloadEncryption = m.payloadEncryption
  sender : m'.sender = m.sender
  recipient : m'.recipient = m.recipient
  haveSecret : m'.haveSecret = m.haveSecret
  secret : m'.cryptoSignSecret = m.cryptoSignSecret
  bid : m'.cryptoSignPublic = m.cryptoSignPublic

theorem SameSecret.trans {m₁ m₂ m₃ : Manifest} (h : SameSecret m₁ m₂) (h' : SameSecret m₂ m₃) :
    SameSecret m₁ m₃ :=
  ⟨h'.payloadEncryption.trans h.payloadEncryption,
    h'.sender.trans h.sender, h'.recipient.trans h.recipient, h'.haveSecret.trans h.haveSecret,
    h'.secret.trans h.secret, h'.bid.trans h.bid⟩

section

variable (h : SameSecret m m') (hjournal : m.isJournal = true) (hjournal' : m'.isJournal = true)
  (host : Host) (nmBytes : Binary 32 → Binary 32 → Option (List Byte))
include h hjournal hjournal' host nmBytes

theorem SameSecret.deriveKey :
    rhizomeDerivePayloadKey host nmBytes m' = rhizomeDerivePayloadKey host nmBytes m := by
  rw [rhizomeDerivePayloadKey, rhizomeDerivePayloadKey, h.payloadEncryption, h.sender, h.recipient,
    h.haveSecret, h.secret, h.bid, hjournal, hjournal']
  rfl

theorem SameSecret.payloadCipher :
    payloadCipher host nmBytes m' = payloadCipher host nmBytes m := by
  rw [Rhizome.payloadCipher, Rhizome.payloadCipher, h.deriveKey hjournal hjournal',
    h.payloadEncryption]

end

/-- The fields of a journal that is advanced. -/
structure Advanced (m m' : Manifest) (advanceBy newSize : BitVec 64) : Prop where
  secret : SameSecret m m'
  journal : m'.isJournal = true ↔ advanceBy = 0 ∨ m.tail + advanceBy ≠ sizeUnset
  filesize : m'.filesize = m.filesize + newSize - advanceBy
  tail : m'.tail = m.tail + advanceBy
  version : m'.version = m.filesize + newSize - advanceBy
  filehash : m'.filehash = m.filehash

theorem advanceJournal_advanced {advanceBy newSize : BitVec 64} (hjournal : m.isJournal = true)
    (h : advanceJournal m advanceBy newSize = .ok m') : Advanced m m' advanceBy newSize := by
  rw [advanceJournal] at h
  split at h
  case h_1 => exact nomatch h
  rename_i m₁ hsize
  obtain ⟨vars₁, rfl⟩ := setField_eq hsize
  split at h
  case h_1 => exact nomatch h
  rename_i m₂ htail
  obtain ⟨vars₃, rfl⟩ := setField_eq h
  split at htail
  case isTrue hpos =>
    obtain ⟨vars₂, rfl⟩ := setField_eq htail
    have hne : advanceBy ≠ 0 := by
      rintro rfl
      exact absurd hpos (by decide)
    exact ⟨⟨rfl, rfl, rfl, rfl, rfl, rfl⟩, decide_eq_true_iff.trans (or_iff_right hne).symm, rfl,
      rfl, rfl, rfl⟩
  case isFalse hzero =>
    cases htail
    obtain rfl : advanceBy = 0#64 := eq_of_toNat_eq (Nat.eq_zero_of_not_pos hzero)
    exact ⟨⟨rfl, rfl, rfl, rfl, rfl, rfl⟩, iff_of_true hjournal (.inl rfl), rfl,
      (add_zero _).symm, rfl, rfl⟩

theorem setFilehash_fields {hash : Option RhizomeFilehash}
    (h : rhizomeManifestSetFilehash m hash = .ok m') :
    SameSecret m m' ∧ m'.isJournal = m.isJournal ∧ m'.filesize = m.filesize ∧ m'.tail = m.tail ∧
    m'.version = m.version ∧
      m'.filehash = hash := by
  rw [rhizomeManifestSetFilehash.eq_def] at h
  split at h
  · cases h
  cases hash with
  | some hash =>
    obtain ⟨vars, rfl⟩ := setField_eq h
    exact ⟨⟨rfl, rfl, rfl, rfl, rfl, rfl⟩, rfl, rfl, rfl, rfl, rfl⟩
  | none =>
    cases h
    exact ⟨⟨rfl, rfl, rfl, rfl, rfl, rfl⟩, rfl, rfl, rfl, rfl, rfl⟩

end Fields

section Copying

variable {host : Host} {file e : List Byte} {w : RhizomeWrite} {pieces : List WriteBuffer}
  {store store' : Store}

/-- Encryption is switched on after part of the file was written encrypted. -/
theorem InSequence.encrypt (h : InSequence host e e w pieces) {crypt : Bool} {tail : ℕ}
    {key nonce : List Byte} (hcipher : encrypted host { w with crypt, tail, key, nonce } file = e)
    (hwrap : crypt = true → tail + file.length ≤ 2 ^ 64) :
    InSequence host file e { w with crypt, tail, key, nonce } pieces := by
  have hlen : e.length = file.length := by rw [← hcipher, length_encrypted]
  refine ⟨⟨?_, hcipher, hwrap, h.streamed.hashed, h.streamed.written, h.streamed.inOrder,
    h.streamed.written_le, hlen ▸ h.streamed.offset_le, h.streamed.apart, ?_, h.streamed.covered,
    h.streamed.size⟩, h.below⟩
  · rw [← hlen]
    exact h.streamed.length
  intro p hp
  have hcorrect := h.streamed.correct p hp
  have hlt := WriteBuffer.offset_lt_stop (h.streamed.apart.data_ne hp)
  have hbelow := h.below p hp
  refine ⟨hlen ▸ hcorrect.within, hcorrect.below, fun hge => ?_⟩
  dsimp only at hge
  omega

/-- A payload that was written in sequence to its end is stored. -/
theorem InSequence.finishWrite {w' : RhizomeWrite} (h : InSequence host file e w w.bufferList)
    (hfile : file ≠ []) (hend : w.fileOffset = file.length)
    (hfinish : rhizomeFinishWrite host store w = .ok (.new, w', store')) :
    w'.id = some (host.sha512 e) ∧ store' =
      if rhizomeExists store (host.sha512 e) then store else (host.sha512 e, e) :: store := by
  obtain ⟨status, w₁, store₁, hfinish₁, -, hend₁⟩ := h.streamed.finishWrite hfile hend store
  rw [hfinish] at hfinish₁
  obtain ⟨rfl, rfl, rfl⟩ := hfinish₁
  rcases hend₁ with ⟨-, hstatus, -⟩ | ⟨-, -, hstored⟩
  · exact nomatch hstatus
  · exact hstored

/-- The store keeps what was stored, or less. -/
def Evicts (host : Host) : Prop :=
  ∀ size store, ∀ entry ∈ (host.makeSpace size store).2, entry ∈ store

theorem NoCollision.find {payload : List Byte} (h : NoCollision host store payload)
    (hsub : ∀ entry ∈ store', entry ∈ store)
    (hexists : rhizomeExists store' (host.sha512 payload) = true) :
    store'.find? (fun entry => entry.1 = host.sha512 payload) =
      some (host.sha512 payload, payload) := by
  cases hfind : store'.find? (fun entry => entry.1 = host.sha512 payload) with
  | none =>
    obtain ⟨entry, hentry, heq⟩ := any_eq_true.mp hexists
    exact absurd heq (by simpa using find?_eq_none.mp hfind entry hentry)
  | some entry =>
    have hkey : entry.1 = host.sha512 payload := by simpa using find?_some hfind
    rw [← hkey, ← h entry (hsub entry (mem_of_find?_eq_some hfind)) hkey]

theorem runWrites_sameFile (host : Host) (w : RhizomeWrite) (calls : List (ℕ × List Byte)) :
    SameFile w (runWrites host w calls) := by
  induction calls generalizing w with
  | nil => exact .refl w
  | cons call rest ih => exact (rhizomeRandomWrite_sameFile host w _ _).trans (ih _)

/-- A payload that was written in any order can be read back with the same key, unless another hash
was expected. -/
theorem finishWrite_readLoop {store₀ : Store} {id : Option (List Byte)} {opened : RhizomeWrite}
    (hopen : rhizomeOpenWrite host store₀ .zero id (some file.length) = (.new, opened, store))
    {crypt : Bool} {tail : ℕ} {key nonce : List Byte}
    (hw : w = { opened with crypt, tail, key, nonce })
    (hwrap : crypt = true → tail + file.length ≤ 2 ^ 64)
    {calls : List (ℕ × List Byte)} (hcalls : ∀ call ∈ calls, IsPiece file call.1 call.2)
    (hend : (runWrites host w calls).fileOffset = file.length)
    (hcollision : NoCollision host store (encrypted host w file)) :
    ∃ status w' store',
      rhizomeFinishWrite host store (runWrites host w calls) = .ok (status, w', store') ∧
      ((∃ expected ∈ id, expected ≠ host.sha512 (encrypted host w file)) ∧
          status = .wrongHash ∧ store' = store ∨
        (∀ expected ∈ id, expected = host.sha512 (encrypted host w file)) ∧ status = .new ∧
          ∃ read read',
            rhizomeOpenRead store' .zero (host.sha512 (encrypted host w file)) = (.stored, read) ∧
            readLoop host { read with crypt, tail, key, nonce } = (some file, read')) := by
  obtain ⟨hopened, hfile⟩ := streamed_open hopen hw hwrap
  have hid : (runWrites host w calls).id = id := by
    obtain ⟨rfl, -⟩ := rhizomeOpenWrite_new hopen
    rw [(runWrites_sameFile host w calls).id, hw]
  have h := (hopened.runWrites_clear (by
    obtain ⟨rfl, -⟩ := rhizomeOpenWrite_new hopen
    rw [hw]
    exact nofun) hcalls).1
  have hcipher : encrypted host w file =
      cipherAt host (if crypt then some (key, nonce) else none) tail file := by
    rw [encrypted, hw]
    split
    · exact rhizomeCryptXorBlock_eq ..
    · rfl
  generalize encrypted host w file = e at h hcollision hcipher
  obtain ⟨status, w', store', hfinish, -, hstored⟩ := h.finishWrite hfile hend store
  rw [hid] at hstored
  refine ⟨status, w', store', hfinish, hstored.imp_right ?_⟩
  rintro ⟨hexpected, hnew, -, rfl⟩
  refine ⟨hexpected, hnew, ?_⟩
  have hopen : rhizomeOpenRead (if rhizomeExists store (host.sha512 e) then store
      else (host.sha512 e, e) :: store) .zero (host.sha512 e) =
      (.stored, { RhizomeRead.zero with id := host.sha512 e, blob := e, length := e.length }) := by
    rw [rhizomeOpenRead]
    by_cases hexists : rhizomeExists store (host.sha512 e) = true
    · simp only [if_pos hexists, hcollision.find (fun _ h => h) hexists]
      rfl
    · rw [if_neg hexists, find?_cons_of_pos (by simp)]
      rfl
  have hreading : ReadsBlob host { RhizomeRead.zero with
      id := host.sha512 e, blob := e, length := e.length, crypt, tail, key, nonce } :=
    ⟨rfl, rfl, rfl, Nat.zero_le _, by simp [RhizomeRead.zero]⟩
  obtain ⟨content, read', hloop, -, -, hcontent⟩ := hreading.readLoop (Nat.zero_le _)
  refine ⟨_, read', hopen, hloop.trans ?_⟩
  rw [hcontent (h.length_e.symm ▸ hwrap), hcipher]
  exact congrArg (fun content => (some content, read')) (cipherAt_cipherAt ..)

/-- Three bytes with a known hash are written backwards and encrypted, and read back. -/
theorem finishWrite_readLoop_backward :
    let host := { nonceHost with stream := fun _ _ i => BitVec.ofNat 8 (i + 1) }
    let write := { encryptedWrite 3 7 with id := some [9#8, 11#8, 9#8] }
    ∃ w' store read read',
      rhizomeFinishWrite host [] (runWrites host write backwardCalls) = .ok (.new, w', store) ∧
      rhizomeOpenRead store .zero [9#8, 11#8, 9#8] = (.stored, read) ∧
      readLoop host { read with
        crypt := true, tail := 7, key := [], nonce := List.replicate 24 0#8 } =
        (some [1#8, 2#8, 3#8], read') := by
  intro host write
  have hcalls : ∀ call ∈ backwardCalls, IsPiece [1#8, 2#8, 3#8] call.1 call.2 := by
    simp [backwardCalls, IsPiece]
  have he : encrypted host write [1#8, 2#8, 3#8] = [9#8, 11#8, 9#8] := by decide +kernel
  obtain ⟨status, w', store, hfinish, hend⟩ := @finishWrite_readLoop host [1#8, 2#8, 3#8]
    write [] [] _ _
    (show rhizomeOpenWrite host [] .zero (some [9#8, 11#8, 9#8]) (some 3) =
      (.new, { RhizomeWrite.zero with
      id := some [9#8, 11#8, 9#8], fileLength := some 3 }, []) by decide +kernel)
    _ _ _ _ rfl (by decide) _ hcalls (by decide +kernel) (by simp [NoCollision])
  rw [he] at hend
  rcases hend with ⟨⟨expected, hexpected, hne⟩, -⟩ | ⟨-, rfl, read, read', hopen, hloop⟩
  · exact absurd (Option.some.inj hexpected).symm hne
  · exact ⟨w', store, read, read', hfinish, hopen, hloop⟩

end Copying

section Appending

variable {host : Host} {nmBytes : Binary 32 → Binary 32 → Option (List Byte)} {store : Store}
  {m m' : Manifest} {blob content data : List Byte} {w : RhizomeWrite} {store' : Store}

theorem rhizomeJournalPipe_absent {hash : List Byte} {startOffset length : ℕ}
    (h : rhizomeExists store hash = false) :
    rhizomeJournalPipe host store w hash startOffset length = .ok (.new, w, store) := by
  have hfind : store.find? (fun entry => entry.1 = hash) = none := by
    rw [find?_eq_none]
    intro entry hentry
    exact (any_eq_false.mp h) entry hentry
  rw [rhizomeJournalPipe, rhizomeOpenRead]
  simp only [hfind]
  rfl

/-- The copy that a new version starts with. -/
theorem copyJournal_copies {advanceBy copyLength : BitVec 64} {hash : RhizomeFilehash}
    {e : List Byte} (hcollision : NoCollision host store blob) (hevicts : Evicts host)
    (hhash : m.filehash = some hash) (hblob : host.sha512 blob = hash.bytes)
    (hsize : m.filesize.toNat = e.length) (hunset : m.filesize ≠ sizeUnset)
    (hread : advanceBy.toNat + copyLength.toNat ≤ blob.length) (hfits : copyLength.toNat ≤ e.length)
    (hsame : (blob.drop advanceBy.toNat).take copyLength.toNat = e.take copyLength.toNat)
    (h : copyJournal host store .zero m advanceBy copyLength = .ok (.new, w, store')) :
    InSequence host e e w w.bufferList ∧ w.fileOffset = copyLength.toNat ∧ w.tail = 0 ∧ e ≠ [] ∧
      ∀ entry ∈ store', entry ∈ store := by
  rw [copyJournal, if_neg hunset, hsize] at h
  split at h
  case h_1 w₁ store₁ hopen =>
    obtain ⟨hstreamed, hne⟩ := streamed_open hopen
      (rfl : _ = { w₁ with crypt := false, tail := 0, key := [], nonce := [] }) (by simp)
    obtain ⟨rfl, rfl, -⟩ := rhizomeOpenWrite_new hopen
    have hsub := hevicts e.length store
    have hseq : InSequence host e e { RhizomeWrite.zero with
        id := none, fileLength := some e.length } [] := ⟨hstreamed, nofun⟩
    split at h
    case isTrue hcopy =>
      rw [hhash, map_some, getD_some] at h
      cases hexists : rhizomeExists (host.makeSpace e.length store).2 hash.bytes with
      | false =>
        rw [rhizomeJournalPipe_absent hexists] at h
        exact nomatch h
      | true =>
        rw [← hblob] at h hexists
        have hfind := hcollision.find hsub hexists
        obtain ⟨w₂, hpipe, hseq₂, hoffset₂, hfile⟩ := rhizomeJournalPipe_copies hfind rfl hseq hread
          (by rwa [RhizomeWrite.zero, Nat.zero_add]) hsame
        rw [hpipe] at h
        obtain ⟨rfl, rfl⟩ := h
        exact ⟨hseq₂, hoffset₂.trans (Nat.zero_add _), hfile.tail, hne, hsub⟩
    case isFalse hzero =>
      cases h
      exact ⟨hseq, (Nat.eq_zero_of_not_pos hzero).symm, rfl, hne, hsub⟩
  case h_2 hne => exact (hne _ _ (ok.inj h)).elim

/-- The key is derived and encryption is switched on. -/
theorem rhizomeWriteDeriveKey_encrypts {w w' : RhizomeWrite} {file e : List Byte}
    {crypt : Option (List Byte × List Byte)} (hjournal : m.isJournal = true)
    (hcipher : payloadCipher host nmBytes m = some crypt) (hw : InSequence host e e w w.bufferList)
    (htail : w.tail = 0) (he : e = cipherAt host crypt m.tail.toNat file)
    (hwrap : m.payloadEncryption = .payloadEncrypted → m.tail.toNat + file.length ≤ 2 ^ 64)
    (h : rhizomeWriteDeriveKey host nmBytes m w = .ok (.new, w')) :
    InSequence host file e w' w'.bufferList ∧ w'.fileOffset = w.fileOffset := by
  rw [rhizomeWriteDeriveKey] at h
  rw [payloadCipher] at hcipher
  by_cases hcrypt : m.payloadEncryption = .payloadEncrypted
  · rw [if_pos hcrypt] at hcipher
    rw [if_neg (not_not.mpr hcrypt)] at h
    split at hcipher
    case h_1 key hkey =>
      cases hcipher
      rw [hkey] at h
      simp only [ok.injEq, Prod.mk.injEq, true_and] at h
      rw [htail, journal_position hjournal] at h
      obtain rfl := h
      refine ⟨hw.encrypt ?_ (fun _ => hwrap hcrypt), rfl⟩
      rw [encrypted, if_pos rfl, rhizomeCryptXorBlock_eq, he]
      rfl
    case h_2 => cases hcipher
  · rw [if_neg hcrypt] at hcipher
    rw [if_pos hcrypt] at h
    cases hcipher
    simp only [ok.injEq, Prod.mk.injEq, true_and] at h
    obtain rfl := h
    obtain rfl : e = file := he
    exact ⟨hw, rfl⟩

/-- The steps of opening a journal. -/
theorem rhizomeWriteOpenJournal_new {advanceBy newSize : BitVec 64}
    (h : rhizomeWriteOpenJournal host nmBytes store .zero m advanceBy newSize =
      .ok (.new, w, m', store')) :
    ∃ w₀, advanceJournal m advanceBy newSize = .ok m' ∧
      copyJournal host store .zero m' advanceBy (m.filesize - advanceBy) = .ok (.new, w₀, store') ∧
      rhizomeWriteDeriveKey host nmBytes m' w₀ = .ok (.new, w) := by
  rw [rhizomeWriteOpenJournal] at h
  split at h
  case isTrue => exact nomatch h
  dsimp only at h
  split at h
  case h_1 => exact nomatch h
  split at h
  case h_1 => exact nomatch h
  rename_i hadvance _ status w₀ store₁ hcopy
  split at h
  case h_1 => exact nomatch h
  rename_i hderive
  cases h
  split at hderive
  case isTrue hstatus =>
    subst hstatus
    exact ⟨w₀, hadvance, hcopy, hderive⟩
  case isFalse hstatus =>
    cases hderive
    exact absurd rfl hstatus

/-- The steps of a successful append. -/
theorem rhizomeAppendJournalBuffer_new {advanceBy : BitVec 64}
    (h : rhizomeAppendJournalBuffer host nmBytes store m advanceBy data = .ok (.new, m', store')) :
    ∃ w w₁ w₂ m₁ store₁, rhizomeWriteOpenJournal host nmBytes store .zero m advanceBy
        (BitVec.ofNat 64 data.length) = .ok (.new, w, m₁, store₁) ∧
      w₁ = (if data = [] then w else (rhizomeWriteBuffer host w data).2) ∧
      rhizomeFinishWrite host store₁ w₁ = .ok (.new, w₂, store') ∧
      rhizomeManifestSetFilehash m₁ (w₂.id.map filehashOf) = .ok m' := by
  rw [rhizomeAppendJournalBuffer] at h
  split at h
  case h_1 => exact nomatch h
  rename_i status w m₁ store₁ hopen
  split at h
  case isTrue hstatus =>
    cases h
    exact absurd rfl hstatus
  rename_i hstatus
  obtain rfl := not_not.mp hstatus
  generalize hwritten :
    (if data = [] then ((0 : ℤ), w) else rhizomeWriteBuffer host w data) = written at h
  obtain ⟨ret, w₁⟩ := written
  dsimp only at h
  split at h
  case isTrue => exact nomatch h
  split at h
  case h_1 => exact nomatch h
  rename_i status' w₂ store₂ hfinish
  split at h
  case isTrue hstatus' =>
    cases h
    exact absurd rfl hstatus'
  case isFalse hstatus' =>
    obtain rfl := not_not.mp hstatus'
    split at h
    case h_1 => exact nomatch h
    case h_2 hset =>
      cases h
      exact ⟨w, w₁, w₂, m₁, store₁, hopen,
        (congrArg Prod.snd hwritten).symm.trans (by split <;> rfl), hfinish, hset⟩

/-- What an append should leave: a journal with what was left of the old content followed by the
new data, and a greater version if there is any. -/
structure Appended (host : Host) (nmBytes : Binary 32 → Binary 32 → Option (List Byte))
    (store' : Store) (m m' : Manifest) (content data : List Byte) (advanceBy : BitVec 64) :
    Prop where
  stored : StoredJournal host nmBytes store' m' (content.drop advanceBy.toNat ++ data)
  tail : m'.tail.toNat = m.tail.toNat + advanceBy.toNat
  version : data ≠ [] → m.version < m'.version

section

variable {advanceBy : BitVec 64} (hhash : ∀ bytes, (host.sha512 bytes).length = 64)
  (hjournal : StoredJournal host nmBytes store m content)
  (hadvance : advanceBy.toNat ≤ content.length) (hcontent : content.length < 2 ^ 63)
  (hdata : data.length < 2 ^ 63)

include hjournal hadvance hcontent hdata

theorem appended_filesize :
    (m.filesize + BitVec.ofNat 64 data.length - advanceBy).toNat =
      content.length - advanceBy.toNat + data.length := by
  have hsize := hjournal.size
  have hdata' : (BitVec.ofNat 64 data.length).toNat = data.length := Nat.mod_eq_of_lt (by omega)
  have hadd : (m.filesize + BitVec.ofNat 64 data.length).toNat = content.length + data.length := by
    rw [toNat_add_of_lt (by omega), hsize, hdata']
  rw [toNat_sub_of_le (by rw [le_def]; omega), hadd]
  omega

variable (hrows : Rows host store) (hevicts : Evicts host)
  (hsome : 0 < content.length - advanceBy.toNat + data.length)
  (hcollision : ∀ crypt, payloadCipher host nmBytes m = some crypt → NoCollision host store
    (cipherAt host crypt (m.tail.toNat + advanceBy.toNat) (content.drop advanceBy.toNat ++ data)))

include hhash hrows hevicts hsome hcollision

/-- The copied ciphertext and the new data are a payload that is stored and decrypted with the same
key. -/
theorem rhizomeAppendJournalBuffer_stored
    (htail : (m.tail + advanceBy).toNat = m.tail.toNat + advanceBy.toNat)
    (hstays : advanceBy = 0 ∨ m.tail + advanceBy ≠ sizeUnset)
    (hpositions : m.payloadEncryption = .payloadEncrypted →
      m.tail.toNat + content.length + data.length ≤ 2 ^ 64)
    (h : rhizomeAppendJournalBuffer host nmBytes store m advanceBy data = .ok (.new, m', store')) :
    StoredJournal host nmBytes store' m' (content.drop advanceBy.toNat ++ data) := by
  obtain ⟨hash, blob, crypt, hfilehash, hfind, hcipher⟩ := hjournal.found
  have hmem := mem_of_find?_eq_some hfind
  have hblob : host.sha512 blob = hash.bytes := hrows.hashed _ hmem
  obtain ⟨content', hextract, hlength, hdecrypted⟩ :=
    rhizomeExtractFile_stored hjournal.journal hfilehash hfind hblob hcipher
  obtain rfl : content = content' := by
    simpa using hjournal.extract.symm.trans hextract
  have hdecrypted := hdecrypted fun hcrypt => by
    have := hpositions hcrypt
    omega
  have hstored : cipherAt host crypt m.tail.toNat content = blob := by
    rw [hdecrypted, cipherAt_cipherAt]
  -- the manifest
  have hsize := hjournal.size
  have hfilesize := appended_filesize hjournal hadvance hcontent hdata
  obtain ⟨w, w₁, w₂, m₁, store₁, hopen, hw₁, hfinish, hset⟩ := rhizomeAppendJournalBuffer_new h
  obtain ⟨w₀, hadvanced, hcopy, hderive⟩ := rhizomeWriteOpenJournal_new hopen
  have hadvanced := advanceJournal_advanced hjournal.journal hadvanced
  have hjournal₁ := hadvanced.journal.mpr hstays
  -- the payload
  set file := content.drop advanceBy.toNat ++ data with hfile
  set e := cipherAt host crypt (m.tail.toNat + advanceBy.toNat) file with he
  have hfilelen : file.length = content.length - advanceBy.toNat + data.length := by
    rw [hfile, length_append, length_drop]
  have hcopylen : (m.filesize - advanceBy).toNat = content.length - advanceBy.toNat := by
    rw [toNat_sub_of_le (by rw [le_def]; omega), hsize]
  have hprefix : blob.drop advanceBy.toNat = e.take (content.length - advanceBy.toNat) := by
    rw [he, hfile, cipherAt_append, take_left' (by rw [length_cipherAt, length_drop]),
      ← hstored, drop_cipherAt]
  have hunset : m₁.filesize ≠ sizeUnset := by
    intro hunset
    rw [hadvanced.filesize] at hunset
    rw [hunset, sizeUnset, toNat_allOnes] at hfilesize
    omega
  have hcopied := copyJournal_copies (e := e) (hrows.noCollision (hblob ▸ hmem)) hevicts
    (hadvanced.filehash.trans hfilehash) hblob
    (by rw [hadvanced.filesize, hfilesize, he, length_cipherAt, hfilelen]) hunset (by omega)
    (by rw [he, length_cipherAt, hfilelen]; omega)
    (by rw [hcopylen, ← hprefix]; exact take_of_length_le (by rw [length_drop]; omega))
    hcopy
  obtain ⟨hseq₀, hoffset₀, htail₀, -, hsub⟩ := hcopied
  have hsecret := hadvanced.secret
  have htail₁ : m₁.tail.toNat = m.tail.toNat + advanceBy.toNat := by rw [hadvanced.tail, htail]
  have hwrap : m.payloadEncryption = .payloadEncrypted →
      m.tail.toNat + advanceBy.toNat + file.length ≤ 2 ^ 64 := by
    intro hcrypt
    have := hpositions hcrypt
    omega
  obtain ⟨hseq, hoffset⟩ := rhizomeWriteDeriveKey_encrypts hjournal₁
    ((hsecret.payloadCipher hjournal.journal hjournal₁ host nmBytes).trans hcipher) hseq₀ htail₀
    (by rw [htail₁]) (by rw [htail₁, hsecret.payloadEncryption]; exact hwrap) hderive
  have hoffset : w.fileOffset = (content.drop advanceBy.toNat).length := by
    rw [hoffset, hoffset₀, hcopylen, length_drop]
  have hwritten : InSequence host file e w₁ w₁.bufferList ∧ w₁.fileOffset = file.length := by
    by_cases hempty : data = []
    · rw [hw₁, if_pos hempty]
      refine ⟨hseq, ?_⟩
      rw [hoffset, hfile, hempty, append_nil]
    have hnext : IsNext file w.fileOffset data := by
      refine ⟨hempty, ?_, ?_⟩
      · rw [hoffset, hfile, length_append]
      · rw [hoffset, hfile, drop_left, take_length]
    obtain ⟨w₃, hwrite, hseq₃, hoffset₃, -⟩ := hseq.writeBuffer hnext
    rw [hw₁, if_neg hempty, hwrite]
    exact ⟨hseq₃, by rw [hoffset₃, hoffset, hfile, length_append]⟩
  have hne : file ≠ [] := by
    rwa [← length_pos_iff, hfilelen]
  obtain ⟨hid, hstore'⟩ := hwritten.1.finishWrite hne hwritten.2 hfinish
  rw [hid, map_some] at hset
  obtain ⟨hsame, hstill, hsize', htail', -, hhash'⟩ := setFilehash_fields hset
  have hjournal' := hstill.trans hjournal₁
  have hbytes : (filehashOf (host.sha512 e)).bytes = host.sha512 e := by
    simp [filehashOf, hhash]
  have hfind' : store'.find? (fun entry => entry.1 = (filehashOf (host.sha512 e)).bytes) =
      some ((filehashOf (host.sha512 e)).bytes, e) := by
    rw [hbytes, hstore']
    split
    case isTrue hexists =>
      have hcollision₁ : NoCollision host store₁ e := fun entry hentry =>
        hcollision crypt hcipher entry (hsub entry hentry)
      exact hcollision₁.find (fun _ h => h) hexists
    case isFalse => simp
  have hsecret' := hsecret.trans hsame
  obtain ⟨content'', hextract', -, hdecrypted'⟩ := rhizomeExtractFile_stored hjournal' hhash' hfind'
    hbytes.symm ((hsecret'.payloadCipher hjournal.journal hjournal' host nmBytes).trans hcipher)
  have hdecrypted' := hdecrypted' (by
    rw [htail', htail₁, he, length_cipherAt, hsecret'.payloadEncryption]
    exact hwrap)
  rw [htail', htail₁, he, cipherAt_cipherAt] at hdecrypted'
  subst hdecrypted'
  refine ⟨hjournal', by rw [hhash']; simp, ?_, hextract'⟩
  rw [hsize', hadvanced.filesize, hfilesize, hfilelen]

end

end Appending

section Samples

/-- A hash that tells three bytes from everything else. -/
def journalHash (bytes : List Byte) : List Byte :=
  List.replicate 64 (if bytes = [1#8, 2#8, 3#8] then 1#8 else 0#8)

def journalHost : Host := ⟨0, fun _ _ _ => 0#8, journalHash, fun _ store => (.new, store)⟩

def journalStore : Store := [(journalHash [1#8, 2#8, 3#8], [1#8, 2#8, 3#8])]

def journalManifest (tail size : BitVec 64) (payload : List Byte) : Manifest :=
  { rhizomeNewManifest with
    tail, filesize := size, isJournal := true
    filehash := some ⟨journalHash payload, length_replicate ..⟩ }

theorem journalStore_rows : Rows journalHost journalStore := by
  constructor
  · simp [journalStore, journalHost]
  · simp [journalStore]

/-- The sample with the version that an append gives to a journal of this size. -/
def writtenJournal : Manifest := { journalManifest 0 3 [1#8, 2#8, 3#8] with version := 3 }

theorem writtenJournal_stored :
    StoredJournal journalHost (fun _ _ => none) journalStore writtenJournal [1#8, 2#8, 3#8] :=
  ⟨rfl, by simp [writtenJournal, journalManifest], rfl, by decide +kernel⟩

end Samples

end ServalMesh.Rhizome
