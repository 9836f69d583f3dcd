import ServalMesh.Rhizome.WriteRuns

/-!
# Writing in sequence

A payload that is written from its start to its end never waits for a missing piece: everything
that was received has been hashed, and is written or about to be written.
-/

namespace ServalMesh.Rhizome

open Lib Overlay List WriteLoop

variable {host : Host} {file e data : List Byte} {w w' : RhizomeWrite} {pieces : List WriteBuffer}

/-- Everything in the list has been hashed. -/
structure InSequence (host : Host) (file e : List Byte) (w : RhizomeWrite)
    (pieces : List WriteBuffer) : Prop where
  streamed : Streamed host file e w pieces
  below : ∀ p ∈ pieces, p.stop ≤ w.fileOffset

/-- Some data is in the file at an offset. -/
structure IsNext (file : List Byte) (offset : ℕ) (data : List Byte) : Prop where
  nonempty : data ≠ []
  fits : offset + data.length ≤ file.length
  eq : data = (file.drop offset).take data.length

section Loops

variable {sw : Bool} {s s' : WriteLoop} {total : ℕ}

/-- What holds whenever the loop starts again: the incoming data comes next, and nothing in the
list is beyond it. -/
structure Sequenced (host : Host) (file e : List Byte) (sw : Bool) (total : ℕ)
    (s : WriteLoop) : Prop where
  looping : Looping host file e sw s
  after : ∀ p ∈ s.after, p.stop ≤ s.write.fileOffset
  last_le : s.lastOffset ≤ s.offset
  offset_eq : s.offset = s.write.fileOffset
  total_eq : s.offset + s.buffer.length = total
  room : sw = false → s.write.bufferSize + s.buffer.length < rhizomeBufferMaximumSize

namespace Sequenced

section

variable (h : Sequenced host file e sw total s)

include h

theorem below {p : WriteBuffer} (hp : p ∈ s.before ++ s.after) : p.stop ≤ s.write.fileOffset := by
  rcases mem_append.mp hp with hp | hp
  · have hstop := (apart_append.mp h.looping.streamed.apart).1.stop_le hp
    have hmax := h.looping.le_max
    rw [max_eq_left h.last_le, h.offset_eq] at hmax
    exact hstop.trans hmax
  · exact h.after p hp

theorem processed : s.Processed := by
  intro p rest hafter
  have hmem : p ∈ s.before ++ s.after := by simp [hafter]
  have hlt := WriteBuffer.offset_lt_stop (h.looping.streamed.apart.data_ne hmem)
  exact (hlt.trans_le (h.below hmem)).ne

/-- Nothing in the list is to be processed. -/
theorem process : s.process host = some s := by
  rw [WriteLoop.process]
  cases hafter : s.after with
  | nil => rfl
  | cons p rest => exact if_neg (h.processed p rest hafter)

/-- None of the incoming data was received before. -/
theorem trim : s.trim = if s.buffer = [] then none else some s := by
  rw [WriteLoop.trim]
  simp only [Nat.sub_eq_zero_of_le h.last_le, Nat.le_zero, length_eq_zero_iff, add_zero, drop_zero]

theorem flush (hflush : s.flush host sw = some s') : Sequenced host file e sw total s' := by
  obtain ⟨hlooping, -⟩ := h.looping.flush h.processed hflush
  obtain ⟨p, rest, hafter, -, -, rfl⟩ := flush_some hflush
  have hfile := (writeGetLock_fileOffset host s.write p.offset p.data).1
  have hafter' := h.after
  rw [hafter, ← h.offset_eq] at hafter'
  refine ⟨hlooping, fun q hq => ?_, hafter' p mem_cons_self, h.offset_eq.trans hfile.symm,
    h.total_eq, Room.flush hflush⟩
  rw [hfile, ← h.offset_eq]
  exact hafter' q (mem_cons_of_mem _ hq)

theorem insert (hgap : s.Gap) (hbuffer : s.buffer ≠ [])
    (hready : sw = true → s.write.writtenOffset = s.write.fileOffset) :
    ∃ s', s.insert host sw = .again s' ∧ Sequenced host file e sw total s' := by
  have hoffset := h.offset_eq
  have htotal := h.total_eq
  have hnil : s.after = [] := by
    cases hafter : s.after with
    | nil => rfl
    | cons p rest =>
      have := hgap p rest hafter
      have := h.after p (by simp [hafter])
      have : p.offset ≤ p.stop := Nat.le_add_right ..
      omega
  have hsize : s.gap = s.buffer.length := by rw [gap, hnil]
  rcases h.looping.insert h.room hgap hbuffer h.last_le hready with
    ⟨s', hinsert, hlooping, -, hroom⟩ | ⟨-, -, hne⟩
  · obtain ⟨size, hlen, -, hoffset', hlast, hafter, -, hfile, -⟩ :=
      insert_sizes hinsert
    rw [if_pos hoffset] at hfile
    have hlast' := h.last_le
    -- everything was put into the list, because everything was processed
    have hle := hlooping.fileOffset_le (by simp [Gap, hafter, hnil]) (by omega)
    refine ⟨s', hinsert, hlooping, ?_, by omega, by omega, by omega, hroom⟩
    simp [hafter, hnil]
  · exact absurd hoffset hne

theorem step :
    (∃ s', s.step host sw = .again s' ∧ Sequenced host file e sw total s') ∨
      s.step host sw = .stop 0 s ∧ s.buffer = [] := by
  rcases step_cases h.process sw with
    ⟨s₂, hflush, hstep⟩ | ⟨hflush, ⟨htrim, hstep⟩ | ⟨s₂, htrim, hcases⟩⟩
  · exact .inl ⟨s₂, hstep, h.flush hflush⟩
  · rw [h.trim] at htrim
    split at htrim
    case isTrue hnil => exact .inr ⟨hstep, hnil⟩
    case isFalse => exact nomatch htrim
  rw [h.trim] at htrim
  split at htrim
  case isTrue => exact nomatch htrim
  rename_i hne
  cases htrim
  have hready : sw = true → s.write.writtenOffset = s.write.fileOffset := by
    rintro rfl
    exact h.looping.written_eq hflush
  rcases hcases with ⟨hgap, hstep⟩ | ⟨p, rest, hcons, hge, hstep⟩
  · obtain ⟨s', hinsert, h'⟩ := h.insert hgap hne hready
    exact .inl ⟨s', hstep.trans hinsert, h'⟩
  obtain ⟨hlooping, -⟩ := h.looping.skip hcons hge hready rfl
  have hafter := h.after
  rw [hcons] at hafter
  exact .inl ⟨_, hstep, hlooping, (forall_mem_cons.mp hafter).2,
    (hafter p mem_cons_self).trans h.offset_eq.ge, h.offset_eq, h.total_eq, h.room⟩

/-- The loop takes all of the data. -/
theorem writeLoop :
    ∃ s', writeLoop host sw s = (0, s') ∧ Sequenced host file e sw total s' ∧
      s'.buffer = [] := by
  induction hn : s.remaining using Nat.strong_induction_on generalizing s with
  | _ n ih =>
    rcases h.step with ⟨s', hstep, h'⟩ | ⟨hstep, hnil⟩
    · rw [writeLoop_again hstep]
      exact ih _ (hn ▸ step_remaining hstep) h' rfl
    · exact ⟨s, writeLoop_stop hstep, h, hnil⟩

end

end Sequenced

/-- The next data of a payload is accepted. -/
theorem InSequence.writeBuffer (h : InSequence host file e w w.bufferList)
    (hdata : IsNext file w.fileOffset data) :
    ∃ w', rhizomeWriteBuffer host w data = (0, w') ∧ InSequence host file e w' w'.bufferList ∧
      w'.fileOffset = w.fileOffset + data.length ∧ SameFile w w' := by
  have hpos := length_pos_of_ne_nil hdata.nonempty
  have hfits := hdata.fits
  have hlast := h.streamed.written_le
  have hcond : ¬(w.fileLength.any fun length => decide (length ≤ w.fileOffset)) = true := by
    simp only [h.streamed.length, Option.any_some, decide_eq_true_eq]
    omega
  rw [rhizomeWriteBuffer, rhizomeRandomWrite, if_neg hcond]
  simp only [h.streamed.length, Option.getD_some]
  rw [take_of_length_le (show data.length ≤ file.length - w.fileOffset by omega)]
  have hroom := @shouldWrite_room host w data data.length
  generalize shouldWrite host w (some data) data.length = sw at hroom
  have hstart : Sequenced host file e sw (w.fileOffset + data.length)
      ⟨w, [], w.bufferList, w.writtenOffset, w.fileOffset, data⟩ :=
    ⟨h.streamed.looping sw _ data hdata.eq hfits, h.below, hlast, rfl, rfl, hroom⟩
  obtain ⟨s, hs, hend, hnil⟩ := hstart.writeLoop
  have htotal := hend.total_eq
  rw [hnil, hend.offset_eq] at htotal
  have hsame := @writeLoop_sameFile host sw
    ⟨w, [], w.bufferList, w.writtenOffset, w.fileOffset, data⟩
  rw [hs] at hsame ⊢
  exact ⟨_, rfl, ⟨hend.looping.streamed.relabel _ _, fun p => hend.below⟩, htotal,
    { hsame with }⟩

end Loops

end ServalMesh.Rhizome
