import ServalMesh.Rhizome.WriteProgress

/-!
# The shape of writes

Where data is written or kept does not depend on the bytes. So whatever was received, the buffers
of a write are placed as if it had been a file of zeros.
-/

namespace ServalMesh.Rhizome

open Lib Overlay List Option

section Blank

/-- As many zeros. -/
def blank (data : List Byte) : List Byte := List.replicate data.length 0#8

@[simp]
theorem length_blank (data : List Byte) : (blank data).length = data.length := length_replicate

@[simp]
theorem blank_eq_nil {data : List Byte} : blank data = [] ↔ data = [] := by
  rw [← length_eq_zero_iff, length_blank, length_eq_zero_iff]

theorem blank_append (a b : List Byte) : blank (a ++ b) = blank a ++ blank b := by
  rw [blank, length_append, replicate_add]
  rfl

theorem blank_take (n : ℕ) (data : List Byte) : blank (data.take n) = (blank data).take n := by
  rw [blank, blank, take_replicate, length_take]

theorem blank_drop (n : ℕ) (data : List Byte) : blank (data.drop n) = (blank data).drop n := by
  rw [blank, blank, drop_replicate, length_drop]

def WriteBuffer.blank (p : WriteBuffer) : WriteBuffer := ⟨p.offset, Rhizome.blank p.data⟩

theorem WriteBuffer.stop_blank (p : WriteBuffer) : p.blank.stop = p.stop := by
  rw [stop, stop, blank, length_blank]

/-- The same write of zeros that are not encrypted. -/
def RhizomeWrite.blank (w : RhizomeWrite) : RhizomeWrite := { w with
  crypt := false
  bufferList := w.bufferList.map WriteBuffer.blank
  hashed := Rhizome.blank w.hashed
  writes := w.writes.map fun call => (call.1, Rhizome.blank call.2) }

def WriteLoop.blank (s : WriteLoop) : WriteLoop :=
  ⟨s.write.blank, s.before.map WriteBuffer.blank, s.after.map WriteBuffer.blank, s.lastOffset,
    s.offset, Rhizome.blank s.buffer⟩

def WriteLoop.Next.blank : WriteLoop.Next → WriteLoop.Next
  | .again s => .again s.blank
  | .stop ret s => .stop ret s.blank

end Blank

section Steps

variable (host : Host) (sw : Bool) (w : RhizomeWrite) (s : WriteLoop)

theorem prepareData_blank (buffer : List Byte) :
    prepareData host w.blank (blank buffer) =
      (prepareData host w buffer).map fun r => (blank r.1, r.2.blank) := by
  rw [prepareData, prepareData]
  by_cases hnil : buffer = []
  · rw [if_pos hnil, if_pos (blank_eq_nil.mpr hnil)]
    rfl
  rw [if_neg hnil, if_neg (blank_eq_nil.not.mpr hnil), length_blank]
  change (if (w.fileLength.any fun length => decide (length < w.fileOffset + buffer.length)) = true
    then _ else _) = _
  split
  · rfl
  · rw [map_some, RhizomeWrite.blank, RhizomeWrite.blank]
    dsimp only
    rw [if_neg Bool.false_ne_true, blank_append, length_blank, length_cryptIf]
    simp only [blank, length_cryptIf]

theorem writeGetLock_blank : writeGetLock host w.blank = (writeGetLock host w).blank := by
  rw [writeGetLock, writeGetLock]
  change (if (w.blobFd || w.sqlBlob) = true then _ else
    if host.maxBlobSize < w.fileLength.getD rhizomeSizeUnset ∨ w.fileLength = none then _
    else _) = _
  split_ifs <;> rfl

theorem writeData_blank (offset : ℕ) (data : List Byte) :
    writeData w.blank offset (blank data) = (writeData w offset data).blank := by
  rw [writeData, writeData]
  by_cases hnil : data = []
  · rw [if_pos hnil, if_pos (blank_eq_nil.mpr hnil)]
  · rw [if_neg hnil, if_neg (blank_eq_nil.not.mpr hnil), RhizomeWrite.blank, RhizomeWrite.blank]
    simp only [length_blank, map_append, map_cons, map_nil]

theorem WriteLoop.after_blank : s.blank.after = s.after.map WriteBuffer.blank := rfl

theorem WriteLoop.process_blank : s.blank.process host = (s.process host).map blank := by
  rw [process, process]
  cases hafter : s.after with
  | nil => simp [blank, hafter]
  | cons p rest =>
    rw [after_blank, hafter, map_cons]
    dsimp only
    change (if p.offset = s.write.fileOffset then _ else _) = _
    split
    · change (prepareData host s.write.blank (Rhizome.blank p.data) >>= _) = _
      rw [prepareData_blank]
      cases prepareData host s.write p.data with
      | none | some r => rfl
    · rfl

theorem WriteLoop.flush_blank :
    s.blank.flush host sw = (s.flush host sw).map blank := by
  rw [flush, flush]
  cases hafter : s.after with
  | nil => simp [blank, hafter]
  | cons p rest =>
    rw [after_blank, hafter, map_cons]
    dsimp only
    change (if (sw && decide (p.offset = s.write.writtenOffset)) = true then _ else _) = _
    split
    · have hwrite : writeData (writeGetLock host s.blank.write) p.blank.offset p.blank.data =
          (writeData (writeGetLock host s.write) p.offset p.data).blank := by
        rw [← writeData_blank, ← writeGetLock_blank]
        rfl
      rw [hwrite, map_some, blank, blank]
      simp only [WriteBuffer.blank, length_blank]
      rfl
    · rfl

theorem WriteLoop.trim_blank : s.blank.trim = s.trim.map WriteLoop.blank := by
  rw [WriteLoop.trim, WriteLoop.trim]
  change (if (Rhizome.blank s.buffer).length ≤ s.lastOffset - s.offset then _ else _) = _
  rw [length_blank]
  split
  · rfl
  · rw [map_some, WriteLoop.blank, WriteLoop.blank]
    simp only [blank_drop]

theorem WriteLoop.gap_blank : s.blank.gap = s.gap := by
  rw [WriteLoop.gap, WriteLoop.gap]
  cases hafter : s.after with
  | nil => simp [WriteLoop.blank, hafter]
  | cons p rest => simp [WriteLoop.blank, hafter, WriteBuffer.blank]

theorem WriteLoop.prepared_blank : s.blank.prepared host =
    (s.prepared host).map fun r => (Rhizome.blank r.1, r.2.blank) := by
  rw [WriteLoop.prepared, WriteLoop.prepared, WriteLoop.gap_blank]
  change (if s.offset = s.write.fileOffset then
      prepareData host s.write.blank ((Rhizome.blank s.buffer).take s.gap)
    else some ((Rhizome.blank s.buffer).take s.gap, s.write.blank)) = _
  rw [← blank_take]
  split
  · exact prepareData_blank host s.write _
  · rfl

theorem WriteLoop.insert_blank : s.blank.insert host sw = (s.insert host sw).blank := by
  have hprepared := s.prepared_blank host
  rw [WriteLoop.prepared, WriteLoop.gap_blank, WriteLoop.prepared] at hprepared
  rw [WriteLoop.insert, WriteLoop.insert, WriteLoop.gap_blank, hprepared]
  generalize (if s.offset = s.write.fileOffset then prepareData host s.write (s.buffer.take s.gap)
    else some (s.buffer.take s.gap, s.write)) = prepared
  cases prepared with
  | none => rfl
  | some r =>
    obtain ⟨data, write⟩ := r
    have hbuffer : Rhizome.blank data ++ s.blank.buffer.drop s.gap =
        Rhizome.blank (data ++ s.buffer.drop s.gap) := by
      rw [blank_append, blank_drop]
      rfl
    dsimp only [map_some]
    rw [hbuffer]
    generalize data ++ s.buffer.drop s.gap = buffer
    change (if (sw && decide (s.offset = write.writtenOffset)) = true then _ else _) = _
    split
    · have hwrite : writeData (writeGetLock host write.blank) s.blank.offset
          ((Rhizome.blank buffer).take s.gap) =
          (writeData (writeGetLock host write) s.offset (buffer.take s.gap)).blank := by
        rw [← writeData_blank, ← writeGetLock_blank, blank_take]
        rfl
      rw [hwrite, ← blank_drop]
      rfl
    · have hsize : write.blank.bufferSize = write.bufferSize := rfl
      rw [hsize]
      generalize (if rhizomeBufferMaximumSize < write.bufferSize + s.gap then
        rhizomeBufferMaximumSize - write.bufferSize else s.gap) = size
      split
      · rfl
      · rw [← blank_take, ← blank_drop]
        simp only [WriteLoop.Next.blank, WriteLoop.blank, WriteBuffer.blank, map_append,
          map_cons, map_nil]
        rfl

theorem WriteLoop.step_blank : s.blank.step host sw = (s.step host sw).blank := by
  rw [step, step, process_blank]
  cases s.process host with
  | none => rfl
  | some s =>
    dsimp only [map_some]
    rw [flush_blank]
    cases s.flush host sw with
    | some s => rfl
    | none =>
      rw [trim_blank]
      cases s.trim with
      | none => rfl
      | some s =>
        dsimp only [map_some]
        cases hafter : s.after with
        | nil =>
          rw [after_blank, hafter, map_nil]
          exact s.insert_blank host sw
        | cons p rest =>
          rw [after_blank, hafter, map_cons]
          dsimp only
          change (if s.offset < p.offset then _ else _) = _
          split
          · exact s.insert_blank host sw
          · simp [Next.blank, blank, WriteBuffer.blank]

theorem writeLoop_blank :
    writeLoop host sw s.blank = ((writeLoop host sw s).1, (writeLoop host sw s).2.blank) := by
  induction hn : s.remaining using Nat.strong_induction_on generalizing s with
  | _ n ih =>
    have hblank := s.step_blank host sw
    rcases hstep : s.step host sw with s' | ⟨ret, s'⟩ <;> rw [hstep] at hblank
    · rw [writeLoop_again hstep, writeLoop_again hblank]
      exact ih _ (hn ▸ WriteLoop.step_remaining hstep) s' rfl
    · rw [writeLoop_stop hstep, writeLoop_stop hblank]

theorem rhizomeRandomWrite_blank (offset : ℕ) (data : List Byte) :
    rhizomeRandomWrite host w.blank offset (some (blank data)) =
      ((rhizomeRandomWrite host w offset (some data)).1,
        (rhizomeRandomWrite host w offset (some data)).2.blank) := by
  rw [rhizomeRandomWrite, rhizomeRandomWrite]
  have hlength : w.blank.fileLength = w.fileLength := rfl
  have hloop : ∀ clipped, writeLoop host (shouldWrite host w.blank (some (blank data))
      (blank clipped).length)
      ⟨w.blank, [], w.blank.bufferList, w.blank.writtenOffset, offset, blank clipped⟩ =
      Prod.map id WriteLoop.blank (writeLoop host (shouldWrite host w (some data) clipped.length)
        ⟨w, [], w.bufferList, w.writtenOffset, offset, clipped⟩) := by
    intro clipped
    rw [length_blank]
    exact writeLoop_blank host _ ⟨w, [], w.bufferList, w.writtenOffset, offset, clipped⟩
  have hrelease : ∀ s : WriteLoop, writeReleaseLock { s.blank.write with
      bufferList := s.blank.before ++ s.blank.after } =
      (writeReleaseLock { s.write with bufferList := s.before ++ s.after }).blank := by
    intro s
    simp only [writeReleaseLock, RhizomeWrite.blank, WriteLoop.blank, map_append]
  rw [hlength]
  split
  · rfl
  cases w.fileLength with
  | none =>
    dsimp only [getD_some]
    rw [hloop data]
    exact Prod.ext rfl (hrelease _)
  | some length =>
    dsimp only [getD_some]
    rw [← blank_take, hloop (data.take (length - offset))]
    exact Prod.ext rfl (hrelease _)

theorem runWrites_blank (calls : List (ℕ × List Byte)) :
    runWrites host w.blank (calls.map fun call => (call.1, blank call.2)) =
      (runWrites host w calls).blank := by
  induction calls generalizing w with
  | nil => rfl
  | cons call rest ih =>
    have hcall := congrArg Prod.snd (rhizomeRandomWrite_blank host w call.1 call.2)
    rw [map_cons, runWrites, foldl_cons, runWrites, foldl_cons, hcall]
    exact ih _

end Steps

section Placed

variable {host : Host} {file e : List Byte} {w : RhizomeWrite} {length : ℕ}

/-- Pieces of a file are accepted whatever was dropped before. -/
theorem Streamed.runWrites_clear (h : Streamed host file e w w.bufferList)
    (hclear : w.Clear w.bufferList) {calls : List (ℕ × List Byte)}
    (hcalls : ∀ call ∈ calls, IsPiece file call.1 call.2) :
    Streamed host file e (Rhizome.runWrites host w calls)
        (Rhizome.runWrites host w calls).bufferList ∧
      (Rhizome.runWrites host w calls).Clear (Rhizome.runWrites host w calls).bufferList := by
  induction calls generalizing w with
  | nil => exact ⟨h, hclear⟩
  | cons call rest ih =>
    obtain ⟨w', hw', h', hclear', -⟩ := h.randomWrite_progress (hcalls call mem_cons_self)
    have hrest := ih h' (hclear' hclear) (forall_mem_cons.mp hcalls).2
    rwa [Rhizome.runWrites, foldl_cons, hw']

theorem isPiece_blank (length offset : ℕ) (data : List Byte) :
    IsPiece (List.replicate length 0#8) offset (blank data) := by
  rw [IsPiece, length_replicate, length_blank, blank, take_replicate,
    drop_replicate, take_replicate, min_comm]

/-- How the buffers of a write lie to each other and to what was processed and written. -/
structure Placed (length : ℕ) (w : RhizomeWrite) : Prop where
  offset_le : w.fileOffset ≤ length
  written_le : w.writtenOffset ≤ w.fileOffset
  apart : Apart w.writtenOffset w.bufferList
  below : ∀ p ∈ w.bufferList, p.offset < w.fileOffset → p.stop ≤ w.fileOffset
  covered : ∀ i < w.fileOffset, Received w w.bufferList i
  clear : w.Clear w.bufferList

theorem Streamed.placed (h : Streamed host file e w w.bufferList) (hclear : w.Clear w.bufferList) :
    Placed file.length w :=
  ⟨h.offset_le, h.written_le, h.apart, fun p hp hlt => ((h.correct p hp).below hlt).1, h.covered,
    hclear⟩

theorem apart_blank {lo : ℕ} {pieces : List WriteBuffer} :
    Apart lo (pieces.map WriteBuffer.blank) ↔ Apart lo pieces := by
  induction pieces generalizing lo with
  | nil => rfl
  | cons p rest ih =>
    simp only [map_cons, Apart, ih, WriteBuffer.stop_blank]
    simp only [WriteBuffer.blank, ne_eq, blank_eq_nil]

theorem Placed.of_blank (h : Placed length w.blank) : Placed length w := by
  have hmem : ∀ p ∈ w.bufferList, p.blank ∈ w.blank.bufferList := fun p hp =>
    mem_map_of_mem hp
  refine ⟨h.offset_le, h.written_le, apart_blank.mp h.apart, fun p hp hlt => ?_, fun i hi => ?_,
    fun hwritten p hp => h.clear hwritten p.blank (hmem p hp)⟩
  · rw [← p.stop_blank]
    exact h.below p.blank (hmem p hp) hlt
  · rcases h.covered i hi with hwritten | ⟨q, hq, hle, hlt⟩
    · exact .inl hwritten
    · obtain ⟨p, hp, rfl⟩ := mem_map.mp hq
      exact .inr ⟨p, hp, hle, p.stop_blank ▸ hlt⟩

/-- Whatever is written, the buffers are placed that way. -/
theorem runWrites_placed {store store' : Store} {id : Option (List Byte)} {opened : RhizomeWrite}
    (hopen : rhizomeOpenWrite host store .zero id (some length) = (.new, opened, store'))
    {crypt : Bool} {tail : ℕ} {key nonce : List Byte}
    (hw : w = { opened with crypt, tail, key, nonce }) (calls : List (ℕ × List Byte)) :
    Placed length (runWrites host w calls) := by
  have hlen : (List.replicate length 0#8).length = length := length_replicate
  rw [← hlen] at hopen ⊢
  have hblank : w.blank = { opened with crypt := false, tail, key, nonce } := by
    obtain ⟨rfl, -⟩ := rhizomeOpenWrite_new hopen
    rw [hw]
    rfl
  obtain ⟨h, -⟩ := streamed_open hopen hblank nofun
  have hclear : w.blank.Clear w.blank.bufferList := by
    obtain ⟨rfl, -⟩ := rhizomeOpenWrite_new hopen
    rw [hblank]
    exact nofun
  have hcalls : ∀ call ∈ calls.map fun call => (call.1, blank call.2),
      IsPiece (List.replicate length 0#8) call.1 call.2 :=
    forall_mem_map.mpr fun c _ => isPiece_blank length c.1 c.2
  obtain ⟨hrun, hrunClear⟩ := h.runWrites_clear hclear hcalls
  rw [runWrites_blank] at hrun hrunClear
  exact Placed.of_blank (hrun.placed hrunClear)

/-- A buffer that reaches beyond what was processed does not have the next byte, unless one before
it ends there. -/
theorem Placed.stop_le (h : Placed length w) {before after : List WriteBuffer} {p : WriteBuffer}
    (hlist : w.bufferList = before ++ p :: after) (hbefore : ∀ q ∈ before, q.stop < w.fileOffset)
    (hp : p.offset ≤ w.fileOffset) : p.stop ≤ w.fileOffset := by
  have hmem : p ∈ w.bufferList := by simp [hlist]
  rcases hp.lt_or_eq with hlt | heq
  · exact h.below p hmem hlt
  exfalso
  rcases h.written_le.lt_or_eq with hwritten | hwritten
  · -- the byte before is in another buffer, which has to be one before
    rcases h.covered (w.fileOffset - 1) (by omega) with hreceived | ⟨q, hq, hle, hlt⟩
    · omega
    have happart := h.apart
    rw [hlist] at hq happart
    rcases mem_append.mp hq with hq | hq
    · have := hbefore q hq
      omega
    · have := (apart_append.mp happart).2.head_le hq
      omega
  · exact h.clear hwritten p hmem heq

end Placed

end ServalMesh.Rhizome
