import ServalMesh.Rhizome.JournalAppend

/-!
# Fetching a newer version of a journal

Of a journal whose previous version is stored only the new bytes are requested. The others are
copied from the previous version. A position of a journal is an offset in a payload plus the tail
of its version.
-/

namespace ServalMesh.Rhizome

open Lib Overlay List BitVec

section Model

/-- The range of bytes in the request of `schedule_fetch`. -/
structure HttpRange where
  first : BitVec 64
  last : BitVec 64
deriving DecidableEq

/-- The part of `schedule_fetch` that looks at the previous version of a journal: what is kept of
it, and the range to ask for. -/
def journalRange (m : Manifest) (previous : Option Manifest) :
    Except Abort (Option (Manifest × HttpRange)) :=
  if m.isJournal then
    match previous with
    | none => .ok none
    | some p =>
      if !p.isJournal || decide (m.tail < p.tail) || decide (p.filesize + p.tail < m.tail) then
        .ok none
      else if p.filesize < m.tail then .error .assertion
      else if m.filesize = 0 then .error .assertion
      else .ok (some (p, ⟨p.filesize - m.tail, m.filesize - 1⟩))
  else .ok none

/-- `pipe_journal` with a previous version, which is dropped afterwards. The result of the copy
is not looked at. -/
def pipeJournal (host : Host) (store : Store) (write : RhizomeWrite) (m previous : Manifest) :
    Except Abort (RhizomeWrite × Store) :=
  if m.tail = sizeUnset ∨ previous.tail = sizeUnset ∨ previous.filesize = sizeUnset then
    .error .assertion
  else
    let offset := BitVec.ofNat 64 write.fileOffset
    let start := m.tail - previous.tail + offset
    let length := previous.filesize - m.tail - offset
    if start < previous.filesize ∧ 0 < length then
      match rhizomeJournalPipe host store write ((previous.filehash.map (·.bytes)).getD [])
          start.toNat length.toNat with
      | .error e => .error e
      | .ok (_, write, store) => .ok (write, store)
    else .ok (write, store)

end Model

section Journals

variable {host : Host} {store : Store} {m p : Manifest} {old new : List Byte} {w : RhizomeWrite}

/-- A previous version of a journal is stored, and a newer one that overlaps it or follows it is
about to be fetched. -/
structure NewerJournal (host : Host) (store : Store) (m p : Manifest) (old new : List Byte) :
    Prop where
  journal : m.isJournal = true
  journal_previous : p.isJournal = true
  size : m.filesize.toNat = new.length
  size_previous : p.filesize.toNat = old.length
  nonempty : new ≠ []
  tail_le : p.tail.toNat ≤ m.tail.toNat
  tail_le_end : m.tail.toNat ≤ p.tail.toNat + old.length
  positions : p.tail.toNat + old.length < 2 ^ 64 - 1
  stored : ∃ hash, p.filehash = some hash ∧
    store.find? (fun entry => entry.1 = hash.bytes) = some (hash.bytes, old) ∧
    host.sha512 old = hash.bytes
  agree : ∀ i j, p.tail.toNat + i = m.tail.toNat + j → i < old.length → j < new.length →
    old[i]? = new[j]?

/-- The range that is asked for starts where the previous version ends, the rest of the previous
version from the file offset on is copied, and both together complete the new version. -/
def FetchesRest (host : Host) (store : Store) (m p : Manifest) (old new : List Byte)
    (w : RhizomeWrite) : Prop :=
  ∃ range w', journalRange m (some p) = .ok (some (p, range)) ∧
    range.first.toNat = p.tail.toNat + old.length - m.tail.toNat ∧
    range.last.toNat + 1 = new.length ∧
    pipeJournal host store w m p = .ok (w', store) ∧
    w'.hashed = w.hashed ++ old.drop (m.tail.toNat - p.tail.toNat + w.fileOffset) ∧
    w'.fileOffset = p.tail.toNat + old.length - m.tail.toNat ∧
    w'.hashed ++ new.drop range.first.toNat = new

section

variable (h : NewerJournal host store m p old new) (htail : p.tail.toNat = 0)
include h htail

/-- Without a tail of its own, the previous version ends at its size. -/
theorem NewerJournal.journalRange :
    ∃ range, journalRange m (some p) = .ok (some (p, range)) ∧
      range.first.toNat = old.length - m.tail.toNat ∧ range.last.toNat + 1 = new.length := by
  have hle := h.tail_le_end
  have hsize := h.size_previous
  have hp : p.tail = 0 := eq_of_toNat_eq htail
  have hlt : ¬ m.tail < p.tail := by
    rw [hp, lt_def]
    simp
  have hfilesize : ¬ p.filesize < m.tail := by
    rw [lt_def]
    omega
  have hend : ¬ p.filesize + p.tail < m.tail := by
    have hadd : p.filesize + p.tail = p.filesize := by
      rw [hp]
      exact add_zero _
    rwa [hadd]
  have hzero : m.filesize ≠ 0 := by
    intro hzero
    have hlen := h.size
    rw [hzero] at hlen
    exact h.nonempty (length_eq_zero_iff.mp hlen.symm)
  have hpos := length_pos_of_ne_nil h.nonempty
  have hsize' := h.size
  have hone : (1 : BitVec 64).toNat = 1 := rfl
  refine ⟨⟨p.filesize - m.tail, m.filesize - 1⟩, ?_, ?_, ?_⟩
  · rw [Rhizome.journalRange, if_pos h.journal,
      if_neg (by simp [h.journal_previous, hlt, hend]), if_neg hfilesize, if_neg hzero]
  all_goals
    rw [toNat_sub_of_le (by rw [le_def]; omega)]
    omega

/-- What both versions have from an offset of the newer one on. -/
theorem NewerJournal.overlap (hend : old.length ≤ m.tail.toNat + new.length) (offset : ℕ) :
    (old.drop (m.tail.toNat + offset)).take (old.length - m.tail.toNat - offset) =
      (new.drop offset).take (old.length - m.tail.toNat - offset) := by
  refine ext_getElem? fun i => ?_
  rw [getElem?_take, getElem?_take]
  split
  case isTrue hi =>
    rw [getElem?_drop, getElem?_drop]
    exact h.agree _ _ (by omega) (by omega) (by omega)
  case isFalse => rfl

/-- The copy from a previous version without a tail. -/
theorem NewerJournal.pipeJournal (hend : old.length ≤ m.tail.toNat + new.length)
    (hw : InSequence host new new w w.bufferList)
    (hoffset : w.fileOffset ≤ old.length - m.tail.toNat) :
    ∃ w', pipeJournal host store w m p = .ok (w', store) ∧
      InSequence host new new w' w'.bufferList ∧ w'.fileOffset = old.length - m.tail.toNat := by
  have hle := h.tail_le_end
  have hsize := h.size_previous
  have hpositions := h.positions
  have hunset : ¬(m.tail = sizeUnset ∨ p.tail = sizeUnset ∨ p.filesize = sizeUnset) := by
    have hall : sizeUnset.toNat = 2 ^ 64 - 1 := rfl
    rintro (hu | hu | hu) <;> rw [← hu] at hall <;> omega
  have hfile : (BitVec.ofNat 64 w.fileOffset).toNat = w.fileOffset :=
    Nat.mod_eq_of_lt (by omega)
  have hstart : (m.tail - p.tail + BitVec.ofNat 64 w.fileOffset).toNat =
      m.tail.toNat + w.fileOffset := by
    have hp : p.tail = 0#64 := BitVec.eq_of_toNat_eq htail
    rw [hp, BitVec.sub_zero, BitVec.toNat_add_of_lt (by omega), hfile]
  have hlength : (p.filesize - m.tail - BitVec.ofNat 64 w.fileOffset).toNat =
      old.length - m.tail.toNat - w.fileOffset := by
    have hsub : (p.filesize - m.tail).toNat = old.length - m.tail.toNat := by
      rw [toNat_sub_of_le (by rw [le_def]; omega), hsize]
    rw [toNat_sub_of_le (by rw [le_def]; omega), hsub, hfile]
  rw [Rhizome.pipeJournal, if_neg hunset]
  by_cases hrest : w.fileOffset = old.length - m.tail.toNat
  · rw [if_neg (by rw [lt_def, hstart]; omega)]
    exact ⟨w, rfl, hw, hrest⟩
  have hcond : m.tail - p.tail + BitVec.ofNat 64 w.fileOffset < p.filesize ∧
      0 < p.filesize - m.tail - BitVec.ofNat 64 w.fileOffset := by
    rw [lt_def, lt_def, hstart, hlength]
    exact ⟨by omega, show 0 < _ by omega⟩
  obtain ⟨hash, hhash, hstored, hsha⟩ := h.stored
  have hsame := h.overlap htail hend w.fileOffset
  obtain ⟨w', hpipe, hseq, hfile', -⟩ := rhizomeJournalPipe_copies hstored hsha hw
    (show m.tail.toNat + w.fileOffset + (old.length - m.tail.toNat - w.fileOffset) ≤ old.length by
      omega)
    (show w.fileOffset + (old.length - m.tail.toNat - w.fileOffset) ≤ new.length by omega) hsame
  have hbytes : (p.filehash.map (·.bytes)).getD [] = hash.bytes := by rw [hhash]; rfl
  rw [if_pos hcond, hstart, hlength, hbytes, hpipe]
  exact ⟨w', rfl, hseq, by omega⟩

end

theorem InSequence.hashed (h : InSequence host new new w w.bufferList) :
    w.hashed = new.take w.fileOffset := h.streamed.hashed

/-- The rest of a newer version is fetched exactly if the previous version has no tail and does not
reach beyond the newer one. -/
theorem fetchesRest_iff (h : NewerJournal host store m p old new)
    (hw : InSequence host new new w w.bufferList)
    (hoffset : w.fileOffset ≤ p.tail.toNat + old.length - m.tail.toNat) :
    FetchesRest host store m p old new w ↔
      p.tail.toNat = 0 ∧ p.tail.toNat + old.length ≤ m.tail.toNat + new.length := by
  have hle := h.tail_le_end
  have hwlen := hw.streamed.offset_le
  constructor
  · rintro ⟨range, w', hrange, hfirst, -, hpipe, hhashed, hfile, hall⟩
    have htail : p.tail.toNat = 0 := by
      rw [Rhizome.journalRange, if_pos h.journal] at hrange
      split at hrange
      · exact nomatch hrange
      split at hrange
      · exact nomatch hrange
      rename_i hge
      split at hrange
      · exact nomatch hrange
      obtain rfl : (⟨p.filesize - m.tail, m.filesize - 1⟩ : HttpRange) = range := by
        simpa using hrange
      have hsize := h.size_previous
      have hge : m.tail ≤ p.filesize := BitVec.not_lt.mp hge
      rw [BitVec.toNat_sub_of_le hge] at hfirst
      rw [BitVec.le_def] at hge
      omega
    refine ⟨htail, ?_⟩
    have hlen := congrArg List.length hall
    rw [hhashed, hw.hashed] at hlen
    simp only [length_append, length_take, length_drop] at hlen
    omega
  · rintro ⟨htail, hend⟩
    obtain ⟨range, hrange, hfirst, hlast⟩ := h.journalRange htail
    rw [htail, Nat.zero_add] at hend hoffset hle
    obtain ⟨w', hpipe, hseq, hfile⟩ := h.pipeJournal htail hend hw hoffset
    refine ⟨range, w', hrange, ?_, hlast, hpipe, ?_, ?_, ?_⟩
    · rwa [htail, Nat.zero_add]
    · rw [hseq.hashed, hw.hashed, hfile, htail, Nat.sub_zero]
      have hcopied := h.overlap htail hend w.fileOffset
      rw [take_of_length_le (by rw [length_drop]; omega)] at hcopied
      rw [hcopied, ← take_add, Nat.add_sub_cancel' hoffset]
    · rwa [htail, Nat.zero_add]
    · rw [hseq.hashed, hfile, hfirst, take_append_drop]

end Journals

section Samples

theorem newerJournal_sample (tail tail' : BitVec 64) (new : List Byte) (hnew : new ≠ [])
    (hsize : new.length < 2 ^ 64) (hle : tail.toNat ≤ tail'.toNat)
    (hend : tail'.toNat ≤ tail.toNat + 3) (hpositions : tail.toNat + 3 < 2 ^ 64 - 1)
    (hagree : ∀ i j, tail.toNat + i = tail'.toNat + j → i < 3 → j < new.length →
      [1#8, 2#8, 3#8][i]? = new[j]?) :
    NewerJournal journalHost journalStore
      (journalManifest tail' (BitVec.ofNat 64 new.length) new)
      (journalManifest tail 3 [1#8, 2#8, 3#8]) [1#8, 2#8, 3#8] new where
  journal := rfl
  journal_previous := rfl
  size := Nat.mod_eq_of_lt hsize
  size_previous := rfl
  nonempty := hnew
  tail_le := hle
  tail_le_end := hend
  positions := hpositions
  stored := ⟨⟨journalHash [1#8, 2#8, 3#8], length_replicate ..⟩, rfl, by decide, rfl⟩
  agree := hagree

/-- The first byte of the journal is gone and another one was added. -/
theorem fetchesRest_iff_shifted :
    FetchesRest journalHost journalStore (journalManifest 1 3 [2#8, 3#8, 4#8])
      (journalManifest 0 3 [1#8, 2#8, 3#8]) [1#8, 2#8, 3#8] [2#8, 3#8, 4#8]
      { RhizomeWrite.zero with fileLength := some 3 } := by
  have hnewer := newerJournal_sample 0 1 [2#8, 3#8, 4#8] (by simp) (by simp) (by decide)
    (by decide) (by decide) (by
      intro i j hij hi hj
      obtain rfl : i = j + 1 := by simpa [Nat.add_comm] using hij
      have hj : j < 2 := by omega
      interval_cases j <;> rfl)
  have hopen : rhizomeOpenWrite journalHost journalStore .zero none
      (some [2#8, 3#8, 4#8].length) =
      (.new, { RhizomeWrite.zero with fileLength := some 3 }, journalStore) := by decide
  have hplain : { RhizomeWrite.zero with fileLength := some 3 } =
      { RhizomeWrite.zero with
        fileLength := some 3, crypt := false, tail := 0, key := [], nonce := [] } := rfl
  have hstreamed := (streamed_open hopen hplain nofun).1
  exact (fetchesRest_iff hnewer ⟨hstreamed, nofun⟩ (Nat.zero_le _)).mpr (by decide)

/-- The previous version has a tail, and the daemon aborts. -/
theorem journalRange_tail :
    NewerJournal journalHost journalStore (journalManifest 4 1 [4#8])
        (journalManifest 1 3 [1#8, 2#8, 3#8]) [1#8, 2#8, 3#8] [4#8] ∧
      journalRange (journalManifest 4 1 [4#8]) (some (journalManifest 1 3 [1#8, 2#8, 3#8])) =
        .error .assertion := by
  refine ⟨newerJournal_sample 1 4 [4#8] (by simp) (by simp) (by decide) (by decide) (by decide) ?_,
    by decide⟩
  intro i j hij hi
  exact absurd hij (by simp; omega)

end Samples

end ServalMesh.Rhizome
