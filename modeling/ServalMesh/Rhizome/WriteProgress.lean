import ServalMesh.Rhizome.WriteSequence

/-!
# Progress of writes

A piece of a file never harms, even if the list is full and some of it is dropped. A piece that
starts where processing stopped, or before, moves that position on.
-/

namespace ServalMesh.Rhizome

open Lib Overlay List

variable {host : Host} {file e : List Byte} {sw : Bool} {s s' : WriteLoop}

section Steps

/-- If everything that was processed has been written, no buffer is left to be processed. -/
def RhizomeWrite.Clear (w : RhizomeWrite) (pieces : List WriteBuffer) : Prop :=
  w.writtenOffset = w.fileOffset → ∀ p ∈ pieces, p.offset ≠ w.fileOffset

/-- What holds whenever the loop starts again, if it started with enough room. -/
structure Fed (host : Host) (file e : List Byte) (sw : Bool) (s : WriteLoop) : Prop where
  looping : Looping host file e sw s
  room : sw = false → s.write.bufferSize + s.buffer.length < rhizomeBufferMaximumSize
  passed : s.write.Clear s.before

/-- Processing has passed a position, or is about to: the incoming data has it. -/
def WriteLoop.Ahead (position : ℕ) (s : WriteLoop) : Prop :=
  position < s.write.fileOffset ∨ position = s.write.fileOffset ∧ s.offset ≤ position ∧
    position < s.offset + s.buffer.length ∧ s.lastOffset ≤ position

/-- A round of the loop, or its end. -/
def WriteLoop.Next.Fed (host : Host) (file e : List Byte) (sw : Bool) (s : WriteLoop) :
    WriteLoop.Next → Prop
  | .again s' => Rhizome.Fed host file e sw s' ∧ ∀ position, s.Ahead position → s'.Ahead position
  | .stop ret s' => ret = 0 ∧ Streamed host file e s'.write (s'.before ++ s'.after) ∧
    s'.write.Clear (s'.before ++ s'.after) ∧
    ∀ position, s.Ahead position → position < s'.write.fileOffset

theorem WriteLoop.Next.Fed.of_ahead {next : Next} (h : next.Fed host file e sw s')
    (hahead : ∀ position, s.Ahead position → s'.Ahead position) : next.Fed host file e sw s := by
  cases next with
  | again s₁ => exact ⟨h.1, fun position hpos => h.2 position (hahead position hpos)⟩
  | stop ret s₁ =>
    obtain ⟨hret, hstreamed, hclear, hpassed⟩ := h
    exact ⟨hret, hstreamed, hclear, fun position hpos => hpassed position (hahead position hpos)⟩

section

variable (h : Fed host file e sw s)

include h

open WriteLoop

theorem Fed.process :
    ∃ s', s.process host = some s' ∧ Fed host file e sw s' ∧ s'.Processed ∧
      ∀ position, s.Ahead position → s'.Ahead position := by
  obtain ⟨s', hprocess, h', -, hprocessed, -⟩ := h.looping.process
  obtain ⟨-, -, -, rfl | ⟨hwritten, hlt⟩⟩ := process_sizes hprocess
  · exact ⟨s', hprocess, h, hprocessed, fun position hpos => hpos⟩
  have hle := h.looping.streamed.written_le
  refine ⟨s', hprocess, ⟨h', Room.process h.room hprocess, ?_⟩, hprocessed, ?_⟩
  · intro heq
    omega
  · rintro position (hpos | ⟨hpos, -⟩)
    · exact .inl (hpos.trans hlt)
    · exact .inl (hpos ▸ hlt)

theorem Fed.flush (hprocessed : s.Processed) (hflush : s.flush host sw = some s') :
    Fed host file e sw s' ∧ ∀ position, s.Ahead position → s'.Ahead position := by
  obtain ⟨h', -⟩ := h.looping.flush hprocessed hflush
  have hwritten := h'.streamed.written_le
  obtain ⟨p, rest, hafter, -, hp, rfl⟩ := flush_some hflush
  have hnil := h.looping.before_eq_nil hafter hp
  have hne : p.data ≠ [] := h.looping.streamed.apart.data_ne (by simp [hafter])
  have hfile := (writeGetLock_fileOffset host s.write p.offset p.data).1
  rw [writeData_of_ne hne] at hwritten hfile
  dsimp only at hwritten hfile
  refine ⟨⟨h', Room.flush hflush, ?_⟩, ?_⟩
  · simp [RhizomeWrite.Clear, hnil]
  rintro position (hpos | ⟨hpos, hle, hlt, hlast⟩)
  · refine .inl ?_
    rw [writeData_of_ne hne]
    dsimp only
    omega
  refine .inr ⟨?_, hle, hlt, ?_⟩
  · rw [writeData_of_ne hne]
    dsimp only
    omega
  · dsimp only
    omega

/-- What the incoming data has at the position is not skipped. -/
theorem Fed.trim (htrim : s.trim = some s') :
    Fed host file e sw s' ∧ ∀ position, s.Ahead position → s'.Ahead position := by
  obtain ⟨h', hkept, -, -, hwrite⟩ := h.looping.trim htrim
  have hend := hkept.end_eq
  obtain ⟨hlen, rfl⟩ := trim_some htrim
  refine ⟨⟨h', Room.trim h.room htrim, h.passed⟩, ?_⟩
  rintro position (hpos | ⟨hpos, hle, hlt, hlast⟩)
  · exact .inl hpos
  · exact .inr ⟨hpos, by dsimp only; omega, by dsimp only at hend ⊢; omega, hlast⟩

omit h in
theorem Fed.trim_none {position : ℕ} (htrim : s.trim = none) (hpos : s.Ahead position) :
    position < s.write.fileOffset := by
  rcases hpos with hpos | ⟨-, hle, hlt, hlast⟩
  · exact hpos
  rw [WriteLoop.trim] at htrim
  split at htrim
  case isTrue hlen => omega
  case isFalse => cases htrim

/-- When the existing buffer cannot be processed, no buffer can. -/
theorem Fed.clear (hprocessed : s.Processed) : s.write.Clear (s.before ++ s.after) := by
  intro hwritten p hp
  rcases mem_append.mp hp with hp | hp
  · exact h.passed hwritten p hp
  obtain ⟨hbefore, hafter⟩ := apart_append.mp h.looping.streamed.apart
  have hle := hbefore.le_endOf
  obtain ⟨q, rest, hcons⟩ := exists_cons_of_ne_nil (ne_nil_of_mem hp)
  rw [hcons] at hp hafter
  obtain ⟨hq, hdata, hrest⟩ := hafter
  rcases mem_cons.mp hp with rfl | hmem
  · exact hprocessed p rest hcons
  · have := hrest.le_offset hmem
    have := WriteBuffer.offset_lt_stop hdata
    omega

theorem Fed.insert (hprocessed : s.Processed) (hgap : s.Gap) (hbuffer : s.buffer ≠ [])
    (hlast : s.lastOffset ≤ s.offset)
    (hready : sw = true → s.write.writtenOffset = s.write.fileOffset) :
    (s.insert host sw).Fed host file e sw s := by
  have hfile := h.looping.fileOffset_le hgap hlast
  have hpos := gap_pos hgap hbuffer
  rcases h.looping.insert h.room hgap hbuffer hlast hready with
    ⟨s', hinsert, hagain, -, hroom⟩ | ⟨hinsert, -, hne⟩
  · obtain ⟨size, hlen, -, -, -, -, -, hoffset, hbefore⟩ := insert_sizes hinsert
    rw [hinsert]
    refine ⟨⟨hagain, hroom, ?_⟩, ?_⟩
    · rcases hbefore with ⟨hwritten, hbefore⟩ | ⟨hwritten, -, data, hbefore⟩
      · -- nothing can come before what is written
        have hmax := h.looping.le_max
        have hnil : s.before = [] := by
          by_contra hne
          have := (apart_append.mp h.looping.streamed.apart).1.lt_endOf hne
          omega
        simp [RhizomeWrite.Clear, hbefore, hnil]
      · intro heq
        rw [hwritten] at heq
        have hle := h.looping.streamed.written_le
        split at hoffset
        case isTrue => omega
        case isFalse hne =>
          rw [hoffset] at heq ⊢
          rw [hbefore]
          exact forall_mem_append.mpr ⟨h.passed heq, forall_mem_singleton.mpr hne⟩
    rintro position (hpos' | ⟨hpos', hle, hlt, hlast'⟩)
    · refine .inl ?_
      split at hoffset <;> omega
    · rw [if_pos (by omega)] at hoffset
      exact .inl (by omega)
  · -- data that comes next is never dropped, and what is dropped changes nothing
    rw [hinsert]
    refine ⟨rfl, h.looping.streamed, h.clear hprocessed, ?_⟩
    rintro position (hpos' | ⟨hpos', hle, hlt, hlast'⟩)
    · exact hpos'
    · omega

theorem Fed.step : (s.step host sw).Fed host file e sw s := by
  obtain ⟨s₁, hprocess, h₁, hprocessed, hahead₁⟩ := h.process
  refine Next.Fed.of_ahead ?_ hahead₁
  rcases step_cases hprocess sw with
    ⟨s₂, hflush, hstep⟩ | ⟨hflush, ⟨htrim, hstep⟩ | ⟨s₂, htrim, hcases⟩⟩
  · rw [hstep]
    exact h₁.flush hprocessed hflush
  · rw [hstep]
    exact ⟨rfl, h₁.looping.streamed, h₁.clear hprocessed, fun position => trim_none htrim⟩
  obtain ⟨h₂, hahead₂⟩ := h₁.trim htrim
  obtain ⟨-, -, hlast, hafter, hwrite⟩ := h₁.looping.trim htrim
  have hready : sw = true → s₂.write.writtenOffset = s₂.write.fileOffset := by
    rintro rfl
    rw [hwrite]
    exact h₁.looping.written_eq hflush
  have hprocessed₂ : s₂.Processed := by
    intro p rest hcons
    rw [hwrite]
    exact hprocessed p rest (hafter.symm.trans hcons)
  refine Next.Fed.of_ahead ?_ hahead₂
  rcases hcases with ⟨hgap, hstep⟩ | ⟨p, rest, hcons, hge, hstep⟩
  · rw [hstep]
    exact h₂.insert hprocessed₂ hgap (trim_remaining htrim).2 hlast hready
  obtain ⟨h₃, -⟩ := h₂.looping.skip hcons hge hready rfl
  have hne := hprocessed₂ p rest hcons
  rw [hstep]
  refine ⟨⟨h₃, h₂.room, ?_⟩, ?_⟩
  · exact fun heq =>
      forall_mem_append.mpr ⟨h₂.passed heq, forall_mem_singleton.mpr hne⟩
  rintro position (hpos | ⟨hpos, hle, hlt, -⟩)
  · exact .inl hpos
  -- the buffer was processed, so it ends before the position
  have hstop := ((h₂.looping.streamed.correct p (by simp [hcons])).below (by omega)).1
  exact .inr ⟨hpos, hle, hlt, hpos ▸ hstop⟩

theorem Fed.writeLoop :
    ∃ s', writeLoop host sw s = (0, s') ∧ (Next.stop 0 s').Fed host file e sw s := by
  induction hn : s.remaining using Nat.strong_induction_on generalizing s with
  | _ n ih =>
    have hnext := h.step
    cases hstep : s.step host sw with
    | again s₁ =>
      rw [hstep] at hnext
      obtain ⟨h₁, hahead⟩ := hnext
      rw [writeLoop_again hstep]
      obtain ⟨s', hs', hstop⟩ := ih _ (hn ▸ step_remaining hstep) h₁ rfl
      exact ⟨s', hs', hstop.of_ahead hahead⟩
    | stop ret s' =>
      rw [hstep] at hnext
      obtain rfl := hnext.1
      exact ⟨s', writeLoop_stop hstep, hnext⟩

end

end Steps

section Writes

variable {w : RhizomeWrite}

/-- A piece of the file is written or dropped without harm. If it has the position where processing
stopped, processing goes on beyond that position. -/
theorem Streamed.randomWrite_progress (h : Streamed host file e w w.bufferList) {offset : ℕ}
    {data : List Byte} (hdata : IsPiece file offset data) :
    ∃ w', rhizomeRandomWrite host w offset (some data) = (0, w') ∧
      Streamed host file e w' w'.bufferList ∧
      (w.Clear w.bufferList → w'.Clear w'.bufferList) ∧ w.fileOffset ≤ w'.fileOffset ∧
      (offset ≤ w.fileOffset → w.fileOffset < offset + data.length →
        w.fileOffset < file.length → w.fileOffset < w'.fileOffset) := by
  rcases h.randomWrite_cases hdata with ⟨hoffset, hwrite⟩ | ⟨clipped, hlen, hlooping, hwrite⟩
  · exact ⟨w, hwrite, h, fun hclear => hclear, le_rfl, fun hle _ hlt => by omega⟩
  have hfed : Fed host file e _ ⟨w, [], w.bufferList, w.writtenOffset, offset, clipped⟩ :=
    ⟨hlooping _, @shouldWrite_room host w data _, nofun⟩
  obtain ⟨s', hs', -, hstreamed, hclear, hpassed⟩ := hfed.writeLoop
  refine ⟨_, hwrite _ _ hs', hstreamed.relabel _ _, fun _ => hclear, ?_, ?_⟩
  · exact le_of_forall_lt fun position hpos => hpassed position (.inl hpos)
  · intro hle hlt hend
    exact hpassed _ (.inr ⟨rfl, hle, by dsimp only; omega, h.written_le⟩)

end Writes

end ServalMesh.Rhizome
