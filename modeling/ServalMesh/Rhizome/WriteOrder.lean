import ServalMesh.Rhizome.Write

/-!
# The order of writes

However the pieces of a file arrive, the hash and the blob receive the same bytes in the order
of the file, and the list holds what arrived too early.
-/

namespace ServalMesh.Rhizome

open Lib Overlay List

def WriteBuffer.stop (p : WriteBuffer) : ℕ := p.offset + p.data.length

section Lists

variable {lo : ℕ} {p : WriteBuffer} {a b : List WriteBuffer}

/-- The buffers are sorted and do not overlap, from a position on. -/
def Apart : ℕ → List WriteBuffer → Prop
  | _, [] => True
  | lo, p :: rest => lo ≤ p.offset ∧ p.data ≠ [] ∧ Apart p.stop rest

/-- Where the last buffer ends. -/
def endOf : ℕ → List WriteBuffer → ℕ
  | lo, [] => lo
  | _, p :: rest => endOf p.stop rest

theorem endOf_append (lo : ℕ) (a b : List WriteBuffer) :
    endOf lo (a ++ b) = endOf (endOf lo a) b := by
  induction a generalizing lo with
  | nil => rfl
  | cons p rest ih => exact ih p.stop

theorem apart_append : Apart lo (a ++ b) ↔ Apart lo a ∧ Apart (endOf lo a) b := by
  induction a generalizing lo with
  | nil => simp [Apart, endOf]
  | cons p rest ih => simp [Apart, endOf, ih, and_assoc]

theorem WriteBuffer.offset_lt_stop (h : p.data ≠ []) : p.offset < p.stop :=
  Nat.lt_add_of_pos_right (length_pos_of_ne_nil h)

theorem Apart.le_endOf (h : Apart lo a) : lo ≤ endOf lo a := by
  induction a generalizing lo with
  | nil => exact le_rfl
  | cons p rest ih =>
    obtain ⟨hlo, -, hrest⟩ := h
    have := ih hrest
    rw [endOf]
    have : p.offset ≤ p.stop := Nat.le_add_right ..
    omega

theorem Apart.mem (h : Apart lo a) (hp : p ∈ a) :
    lo ≤ p.offset ∧ p.stop ≤ endOf lo a ∧ p.data ≠ [] := by
  induction a generalizing lo with
  | nil => exact nomatch hp
  | cons q rest ih =>
    obtain ⟨hlo, hne, hrest⟩ := h
    rcases mem_cons.mp hp with rfl | hmem
    · exact ⟨hlo, hrest.le_endOf, hne⟩
    · obtain ⟨hoffset, hstop, hdata⟩ := ih hrest hmem
      have : q.offset ≤ q.stop := Nat.le_add_right ..
      exact ⟨by omega, hstop, hdata⟩

theorem Apart.le_offset (h : Apart lo a) (hp : p ∈ a) : lo ≤ p.offset := (h.mem hp).1

theorem Apart.head_le (h : Apart lo (p :: a)) {q : WriteBuffer} (hq : q ∈ p :: a) :
    p.offset ≤ q.offset :=
  (show Apart p.offset (p :: a) from ⟨le_rfl, h.2⟩).le_offset hq

theorem Apart.stop_le (h : Apart lo a) (hp : p ∈ a) : p.stop ≤ endOf lo a := (h.mem hp).2.1

theorem Apart.data_ne (h : Apart lo a) (hp : p ∈ a) : p.data ≠ [] := (h.mem hp).2.2

theorem Apart.lt_endOf (h : Apart lo a) (ha : a ≠ []) : lo < endOf lo a := by
  cases a with
  | nil => exact absurd rfl ha
  | cons p rest =>
    obtain ⟨hlo, hne, hrest⟩ := h
    have := WriteBuffer.offset_lt_stop hne
    have := hrest.le_endOf
    rw [endOf]
    omega

/-- Where the buffers start does not matter beyond the first one. -/
theorem Apart.start (h : Apart lo a) {lo' : ℕ} (hle : ∀ p ∈ a, lo' ≤ p.offset) : Apart lo' a := by
  cases a with
  | nil => trivial
  | cons p rest => exact ⟨hle p mem_cons_self, h.2⟩

end Lists

section Writes

/-- The writes come one after the other. -/
def InOrder : ℕ → List (ℕ × List Byte) → Prop
  | _, [] => True
  | lo, call :: rest => call.1 = lo ∧ InOrder (lo + call.2.length) rest

theorem inOrder_concat {lo : ℕ} {calls : List (ℕ × List Byte)} {call : ℕ × List Byte} :
    InOrder lo (calls ++ [call]) ↔
      InOrder lo calls ∧ call.1 = lo + (calls.flatMap Prod.snd).length := by
  induction calls generalizing lo with
  | nil => simp [InOrder]
  | cons c rest ih =>
    simp only [cons_append, InOrder, ih, flatMap_cons, length_append, and_assoc,
      add_assoc]

end Writes

section Streams

variable {host : Host} {file e : List Byte} {w : RhizomeWrite}
  {pieces before rest : List WriteBuffer}
  {p : WriteBuffer} {data : List Byte}

/-- The file as it should be hashed and stored. -/
def encrypted (host : Host) (w : RhizomeWrite) (file : List Byte) : List Byte :=
  if w.crypt then rhizomeCryptXorBlock host.stream file w.tail w.key w.nonce else file

theorem length_encrypted : (encrypted host w file).length = file.length := length_cryptIf ..

/-- A buffer is a piece of the file, and encrypted if it was processed. -/
structure WriteBuffer.Correct (file e : List Byte) (fileOffset : ℕ) (p : WriteBuffer) : Prop where
  within : p.stop ≤ file.length
  below : p.offset < fileOffset →
    p.stop ≤ fileOffset ∧ p.data = (e.drop p.offset).take p.data.length
  beyond : fileOffset ≤ p.offset → p.data = (file.drop p.offset).take p.data.length

/-- A position of the file has been received. -/
def Received (w : RhizomeWrite) (pieces : List WriteBuffer) (i : ℕ) : Prop :=
  i < w.writtenOffset ∨ ∃ p ∈ pieces, p.offset ≤ i ∧ i < p.stop

/-- What was hashed and written is the start of the encrypted file, and the buffers are pieces
of the file beyond that. -/
structure Streamed (host : Host) (file e : List Byte) (w : RhizomeWrite)
    (pieces : List WriteBuffer) : Prop where
  length : w.fileLength = some file.length
  cipher : encrypted host w file = e
  unwrapped : w.crypt = true → w.tail + file.length ≤ 2 ^ 64
  hashed : w.hashed = e.take w.fileOffset
  written : w.writes.flatMap Prod.snd = e.take w.writtenOffset
  inOrder : InOrder 0 w.writes
  written_le : w.writtenOffset ≤ w.fileOffset
  offset_le : w.fileOffset ≤ file.length
  apart : Apart w.writtenOffset pieces
  correct : ∀ p ∈ pieces, p.Correct file e w.fileOffset
  covered : ∀ i < w.fileOffset, Received w pieces i
  size : w.bufferSize = (pieces.map fun p => p.data.length).sum

theorem Streamed.length_e (h : Streamed host file e w pieces) : e.length = file.length := by
  rw [← h.cipher, length_encrypted]

/-- A piece of the encrypted file has been hashed. -/
def RhizomeWrite.processed (e : List Byte) (w : RhizomeWrite) (size : ℕ) : RhizomeWrite :=
  { w with hashed := e.take (w.fileOffset + size), fileOffset := w.fileOffset + size }

/-- The next piece of the file is encrypted at its place. -/
theorem Streamed.prepareData_eq (h : Streamed host file e w pieces) (hne : data ≠ [])
    (hle : w.fileOffset + data.length ≤ file.length)
    (hdata : data = (file.drop w.fileOffset).take data.length) :
    prepareData host w data =
      some ((e.drop w.fileOffset).take data.length, w.processed e data.length) := by
  have hpos := length_pos_of_ne_nil hne
  have hcipher : (if w.crypt then rhizomeCryptXorBlock host.stream data
      ((w.fileOffset + w.tail) % 2 ^ 64) w.key w.nonce else data) =
      (e.drop w.fileOffset).take data.length := by
    rw [← h.cipher, encrypted]
    cases hcrypt : w.crypt with
    | false => exact hdata
    | true =>
      have hbound := h.unwrapped hcrypt
      rw [if_pos rfl, if_pos rfl, rhizomeCryptXorBlock_eq, rhizomeCryptXorBlock_eq, drop_xorStream,
        take_xorStream, ← hdata, Nat.mod_eq_of_lt (by omega), add_comm]
  have hlen : ((e.drop w.fileOffset).take data.length).length = data.length := by
    rw [length_take, length_drop, h.length_e]
    omega
  rw [prepareData, if_neg hne, if_neg (by simp [h.length]; omega)]
  dsimp only
  rw [hcipher, hlen, h.hashed, ← take_add, RhizomeWrite.processed]

/-- If writing can continue from the list, then it continues with the first buffer. -/
theorem Received.first (h : Received w (p :: rest) w.writtenOffset)
    (hapart : Apart w.writtenOffset (p :: rest)) : p.offset = w.writtenOffset := by
  rcases h with habs | ⟨q, hq, hqle, hqlt⟩
  · exact absurd habs (lt_irrefl _)
  · exact le_antisymm ((hapart.head_le hq).trans hqle) hapart.1

theorem Received.replace {w' : RhizomeWrite} {p' : WriteBuffer} {i : ℕ}
    (h : Received w (before ++ p :: rest) i) (hw : w'.writtenOffset = w.writtenOffset)
    (hoffset : p'.offset = p.offset) (hstop : p'.stop = p.stop) :
    Received w' (before ++ p' :: rest) i := by
  rcases h with hlt | ⟨q, hq, hle, hlt⟩
  · exact .inl (hw ▸ hlt)
  rw [mem_append, mem_cons] at hq
  rcases hq with hq | rfl | hq
  · exact .inr ⟨q, by simp [hq], hle, hlt⟩
  · exact .inr ⟨p', by simp, by omega, by omega⟩
  · exact .inr ⟨q, by simp [hq], hle, hlt⟩

/-- A buffer in the list is processed. -/
theorem Streamed.process (h : Streamed host file e w (before ++ p :: rest))
    (hp : p.offset = w.fileOffset) (hencrypted : (e.drop w.fileOffset).take p.data.length = data) :
    prepareData host w p.data = some (data, w.processed e p.data.length) ∧
      data.length = p.data.length ∧
      Streamed host file e (w.processed e p.data.length) (before ++ { p with data } :: rest) := by
  have hmem : p ∈ before ++ p :: rest := by simp
  have hne := h.apart.data_ne hmem
  have hcorrect := h.correct p hmem
  have hwithin := hcorrect.within
  rw [WriteBuffer.stop, hp] at hwithin
  have hdata := hcorrect.beyond (by omega)
  rw [hp] at hdata
  have hprepare := h.prepareData_eq hne hwithin hdata
  rw [hencrypted] at hprepare
  have hlen : data.length = p.data.length := by
    rw [← hencrypted, length_take, length_drop, h.length_e]
    omega
  obtain ⟨hbefore, hle, -, hrest⟩ := apart_append.mp h.apart
  have hstop : (⟨p.offset, data⟩ : WriteBuffer).stop = p.stop := by
    rw [WriteBuffer.stop, WriteBuffer.stop, hlen]
  have hend : w.fileOffset + p.data.length = p.stop := by rw [WriteBuffer.stop, hp]
  have hold := h.correct
  rw [forall_mem_append, forall_mem_cons] at hold
  refine ⟨hprepare, hlen, { h with
    hashed := rfl
    written_le := h.written_le.trans (Nat.le_add_right ..)
    offset_le := hwithin
    apart := apart_append.mpr ⟨hbefore, hle, ?_, hstop ▸ hrest⟩
    correct := ?_
    covered := fun i hi => ?_
    size := ?_ }⟩
  · rwa [← length_pos_iff, hlen, length_pos_iff]
  · change ∀ q ∈ _, WriteBuffer.Correct file e (w.fileOffset + p.data.length) q
    rw [hend]
    refine forall_mem_append.mpr ⟨fun q hq => ?_, forall_mem_cons.mpr ⟨?_, fun q hq => ?_⟩⟩
    · have hlow := hbefore.stop_le hq
      have hlt := WriteBuffer.offset_lt_stop (hbefore.data_ne hq)
      exact ⟨(hold.1 q hq).within, fun _ => ⟨by omega, ((hold.1 q hq).below (by omega)).2⟩,
        fun hge => by omega⟩
    · refine ⟨hstop ▸ hcorrect.within, fun _ => ⟨hstop.le, ?_⟩, fun hge => ?_⟩
      · rw [hlen, ← hencrypted, hp]
      · exact absurd hge (not_le.mpr (WriteBuffer.offset_lt_stop hne))
    · have hhigh := hrest.le_offset hq
      exact ⟨(hold.2.2 q hq).within, fun hlt => by omega,
        fun _ => (hold.2.2 q hq).beyond (by omega)⟩
  · rw [RhizomeWrite.processed, hend] at hi
    by_cases hold : i < w.fileOffset
    · exact (h.covered i hold).replace rfl rfl hstop
    · exact .inr ⟨_, mem_append_right _ mem_cons_self, by dsimp only; omega, hstop ▸ hi⟩
  · have := h.size
    simp only [map_append, map_cons, sum_append, sum_cons] at this ⊢
    rw [hlen, ← this]
    rfl

/-- The first buffer is written. -/
theorem Streamed.flush (h : Streamed host file e w (p :: rest)) (hp : p.offset = w.writtenOffset)
    (hlt : p.offset < w.fileOffset) :
    Streamed host file e { writeData (writeGetLock host w) p.offset p.data with
      bufferSize := w.bufferSize - p.data.length } rest := by
  obtain ⟨-, hdata, hrest⟩ := h.apart
  have hcorrect := h.correct p mem_cons_self
  have hle := h.offset_le
  obtain ⟨hstop, hencrypted⟩ := hcorrect.below hlt
  obtain ⟨fd, blob, hlock⟩ := writeGetLock_eq host w
  rw [writeData, if_neg hdata, hlock]
  refine { h with
    written := ?_
    inOrder := ?_
    written_le := hstop
    apart := hrest
    correct := (forall_mem_cons.mp h.correct).2
    covered := fun i hi => ?_
    size := ?_ }
  · rw [flatMap_append, h.written, flatMap_singleton, take_add, ← hp, ← hencrypted]
  · rw [inOrder_concat, h.written, length_take, h.length_e]
    refine ⟨h.inOrder, ?_⟩
    omega
  · rcases h.covered i hi with hold | ⟨q, hq, hqle, hqlt⟩
    · left
      dsimp only
      omega
    · rcases mem_cons.mp hq with rfl | hmem
      · exact .inl hqlt
      · exact .inr ⟨q, hmem, hqle, hqlt⟩
  · have := h.size
    simp only [map_cons, sum_cons] at this
    dsimp only
    omega

/-- A piece of the file is put into a gap of the list. -/
theorem Streamed.insert (h : Streamed host file e w (before ++ rest)) {offset : ℕ} (hne : data ≠ [])
    (hoffset : w.fileOffset ≤ offset) (hwithin : offset + data.length ≤ file.length)
    (hdata : data = (file.drop offset).take data.length)
    (hbefore : endOf w.writtenOffset before ≤ offset)
    (hrest : ∀ p ∈ rest, offset + data.length ≤ p.offset) :
    Streamed host file e { w with bufferSize := w.bufferSize + data.length }
      (before ++ ⟨offset, data⟩ :: rest) := by
  obtain ⟨hlow, hhigh⟩ := apart_append.mp h.apart
  obtain ⟨hold, hold'⟩ := forall_mem_append.mp h.correct
  refine { h with
    apart := apart_append.mpr ⟨hlow, hbefore, hne, hhigh.start hrest⟩
    correct := forall_mem_append.mpr ⟨hold, forall_mem_cons.mpr ⟨?_, hold'⟩⟩
    covered := fun i hi => ?_
    size := ?_ }
  · exact ⟨hwithin, fun hlt => absurd hlt (not_lt.mpr hoffset), fun _ => hdata⟩
  · rcases h.covered i hi with hold | ⟨q, hq, hqle, hqlt⟩
    · exact .inl hold
    · exact .inr ⟨q, mem_append.mpr ((mem_append.mp hq).imp_right (mem_cons_of_mem _)), hqle, hqlt⟩
  · have := h.size
    simp only [map_append, map_cons, sum_append, sum_cons] at this ⊢
    omega

end Streams

section Loop

variable {host : Host} {file e : List Byte} {sw : Bool} {s s' : WriteLoop} {p : WriteBuffer}
  {rest : List WriteBuffer}

def WriteLoop.Has (s : WriteLoop) (i : ℕ) : Prop := Received s.write (s.before ++ s.after) i

/-- What holds whenever the loop starts again. -/
structure Looping (host : Host) (file e : List Byte) (sw : Bool) (s : WriteLoop) : Prop where
  streamed : Streamed host file e s.write (s.before ++ s.after)
  buffer : s.buffer = (file.drop s.offset).take s.buffer.length
  fits : s.offset + s.buffer.length ≤ file.length
  last_le : s.lastOffset ≤ endOf s.write.writtenOffset s.before
  le_max : endOf s.write.writtenOffset s.before ≤ max s.offset s.lastOffset
  skipped : ∀ i, s.offset ≤ i → i < s.lastOffset → s.Has i
  ready : sw = true → s.before ≠ [] → s.write.writtenOffset = s.write.fileOffset

/-- Nothing that was received is lost, and the incoming data is consumed from its start. -/
structure Kept (s s' : WriteLoop) : Prop where
  has : ∀ i, s.Has i → s'.Has i
  end_eq : s'.offset + s'.buffer.length = s.offset + s.buffer.length
  taken : ∀ i, s.offset ≤ i → i < s'.offset → s'.Has i

theorem Kept.refl (s : WriteLoop) : Kept s s := ⟨fun _ h => h, rfl, fun i hle hlt => by omega⟩

theorem Kept.trans {s₁ s₂ s₃ : WriteLoop} (h : Kept s₁ s₂) (h' : Kept s₂ s₃) : Kept s₁ s₃ := by
  refine ⟨fun i hi => h'.has i (h.has i hi), h'.end_eq.trans h.end_eq, fun i hle hlt => ?_⟩
  by_cases hi : i < s₂.offset
  · exact h'.has i (h.taken i hle hi)
  · exact h'.taken i (by omega) hlt

/-- Processing leaves no buffer that could be processed. -/
def WriteLoop.Processed (s : WriteLoop) : Prop :=
  ∀ p rest, s.after = p :: rest → p.offset ≠ s.write.fileOffset

/-- Only the first buffer can start where writing continues. -/
theorem Looping.before_eq_nil (h : Looping host file e sw s) (hafter : s.after = p :: rest)
    (hp : p.offset = s.write.writtenOffset) : s.before = [] := by
  by_contra hne
  have hapart := h.streamed.apart
  rw [hafter, apart_append] at hapart
  have := hapart.1.lt_endOf hne
  have := hapart.2.1
  omega

theorem Looping.process (h : Looping host file e sw s) :
    ∃ s', s.process host = some s' ∧ Looping host file e sw s' ∧ Kept s s' ∧ s'.Processed ∧
      s'.before = s.before ∧ s'.buffer = s.buffer := by
  cases hafter : s.after with
  | nil =>
    refine ⟨s, by rw [WriteLoop.process, hafter], h, .refl s, fun p rest hcons => ?_, rfl, rfl⟩
    cases hafter.symm.trans hcons
  | cons p rest =>
    by_cases hp : p.offset = s.write.fileOffset
    · have hstreamed := h.streamed
      rw [hafter] at hstreamed
      obtain ⟨hprepare, hlen, hstreamed'⟩ := hstreamed.process hp rfl
      generalize (e.drop s.write.fileOffset).take p.data.length = data at hprepare hlen hstreamed'
      set s' : WriteLoop := { s with
        write := s.write.processed e p.data.length
        after := { p with data } :: rest } with hs'
      have hhas : ∀ i, s.Has i → s'.Has i := by
        intro i hi
        rw [WriteLoop.Has, hafter] at hi
        exact hi.replace rfl rfl (by rw [WriteBuffer.stop, WriteBuffer.stop, hlen])
      refine ⟨s', ?_, ?_, ⟨hhas, rfl, fun i hle hlt => ?_⟩, ?_, rfl, rfl⟩
      · rw [WriteLoop.process, hafter]
        dsimp only
        rw [if_pos hp, hprepare]
        rfl
      · refine { h with streamed := hstreamed', skipped := ?_, ready := ?_ }
        · exact fun i hle hlt => hhas i (h.skipped i hle hlt)
        · intro hsw hne
          have := h.ready hsw hne
          exact absurd (h.before_eq_nil hafter (by omega)) hne
      · exact absurd hlt (not_lt.mpr hle)
      · intro q rest' hcons
        obtain ⟨rfl, -⟩ := List.cons.inj hcons
        have := length_pos_of_ne_nil (hstreamed.apart.data_ne (p := p) (by simp))
        simp only [hs', RhizomeWrite.processed]
        omega
    · refine ⟨s, by rw [WriteLoop.process, hafter]; exact if_neg hp, h, .refl s,
        fun q rest' hcons => ?_, rfl, rfl⟩
      cases hafter.symm.trans hcons
      exact hp

theorem writeData_of_ne {w : RhizomeWrite} {offset : ℕ} {data : List Byte} (hne : data ≠ []) :
    writeData w offset data = { w with
      writes := w.writes ++ [(offset, data)]
      writtenOffset := offset + data.length } := if_neg hne

theorem writeGetLock_bufferSize (host : Host) (w : RhizomeWrite) (size : ℕ) :
    writeGetLock host { w with bufferSize := size } =
      { writeGetLock host w with bufferSize := size } := by
  rw [writeGetLock, writeGetLock]
  split
  · rfl
  · split <;> rfl

/-- Writing does not depend on the amount of cached data. -/
theorem writeData_bufferSize (host : Host) (w : RhizomeWrite) (size offset : ℕ) (data : List Byte)
    {left : ℕ} (hleft : left = (writeData (writeGetLock host w) offset data).bufferSize) :
    { writeData (writeGetLock host { w with bufferSize := size }) offset data with
      bufferSize := left } = writeData (writeGetLock host w) offset data := by
  rw [hleft, writeGetLock_bufferSize, writeData, writeData]
  split <;> rfl

theorem Looping.flush (h : Looping host file e sw s) (hprocessed : s.Processed)
    (hflush : s.flush host sw = some s') : Looping host file e sw s' ∧ Kept s s' := by
  obtain ⟨p, rest, hafter, -, hp, rfl⟩ := WriteLoop.flush_some hflush
  have hnil := h.before_eq_nil hafter hp
  have hstreamed := h.streamed
  rw [hnil, nil_append, hafter] at hstreamed
  have hne := hstreamed.apart.2.1
  have hlt : p.offset < s.write.fileOffset :=
    lt_of_le_of_ne (hp ▸ hstreamed.written_le) (hprocessed p rest hafter)
  have hflushed := hstreamed.flush hp hlt
  rw [writeData_of_ne hne] at hflushed ⊢
  have hstop : ∀ i, i < p.stop → Received { writeGetLock host s.write with
      writes := (writeGetLock host s.write).writes ++ [(p.offset, p.data)]
      writtenOffset := p.offset + p.data.length
      bufferSize := s.write.bufferSize - p.data.length } (s.before ++ rest) i :=
    fun i hi => .inl hi
  constructor
  · refine ⟨?_, h.buffer, h.fits, ?_, ?_, fun i _ hlt => hstop i hlt, fun _ => absurd hnil⟩ <;>
      rw [hnil]
    · exact hflushed
    · exact le_rfl
    · exact le_max_right _ _
  · refine ⟨fun i hi => ?_, rfl, fun i hle hlt => absurd hlt (not_lt.mpr hle)⟩
    rw [WriteLoop.Has, hnil, nil_append, hafter] at hi
    rcases hi with hi | ⟨q, hq, hqle, hqlt⟩
    · refine hstop i ?_
      rw [WriteBuffer.stop]
      omega
    · rcases mem_cons.mp hq with rfl | hmem
      · exact hstop i hqlt
      · exact .inr ⟨q, mem_append_right _ hmem, hqle, hqlt⟩

/-- If nothing can be written, then nothing is processed and not written. -/
theorem Looping.written_eq (h : Looping host file e true s) (hflush : s.flush host true = none) :
    s.write.writtenOffset = s.write.fileOffset := by
  by_contra hne
  have hnil : s.before = [] := not_not.mp fun hbefore => hne (h.ready rfl hbefore)
  have hlt : s.write.writtenOffset < s.write.fileOffset :=
    lt_of_le_of_ne h.streamed.written_le hne
  have hcovered := h.streamed.covered _ hlt
  have hapart := h.streamed.apart
  rw [hnil, nil_append] at hcovered hapart
  cases hafter : s.after with
  | nil => simp [hafter, Received] at hcovered
  | cons p rest =>
    rw [hafter] at hcovered hapart
    rw [WriteLoop.flush, hafter] at hflush
    dsimp only at hflush
    rw [if_pos (by simpa using hcovered.first hapart)] at hflush
    cases hflush

section

variable (h : Looping host file e sw s) {data : List Byte} {size : ℕ}

include h

theorem Looping.trim_none (htrim : s.trim = none) (i : ℕ) (hle : s.offset ≤ i)
    (hlt : i < s.offset + s.buffer.length) : s.Has i := by
  rw [WriteLoop.trim] at htrim
  split at htrim
  case isTrue hlen => exact h.skipped i hle (by omega)
  case isFalse => cases htrim

theorem Looping.trim (htrim : s.trim = some s') :
    Looping host file e sw s' ∧ Kept s s' ∧ s'.lastOffset ≤ s'.offset ∧ s'.after = s.after ∧
      s'.write = s.write := by
  obtain ⟨hlen, rfl⟩ := WriteLoop.trim_some htrim
  have hfits := h.fits
  have hlast : s.lastOffset ≤ s.offset + (s.lastOffset - s.offset) := by omega
  refine ⟨⟨h.streamed, ?_, ?_, h.last_le, ?_, ?_, h.ready⟩, ⟨fun i hi => hi, ?_, ?_⟩, hlast, rfl,
    rfl⟩
  · conv_lhs => rw [h.buffer]
    rw [length_drop, drop_take, drop_drop]
  · simp only [length_drop]
    omega
  · have := h.le_max
    dsimp only
    omega
  · intro i hle hlt
    dsimp only at hle hlt
    omega
  · simp only [length_drop]
    omega
  · intro i hle hlt
    exact h.skipped i hle (by dsimp only at hlt; omega)

/-- Incoming data is beyond what was processed. -/
theorem Looping.fileOffset_le (hgap : s.Gap) (hlast : s.lastOffset ≤ s.offset) :
    s.write.fileOffset ≤ s.offset := by
  by_contra hlt
  have hmax := h.le_max
  obtain ⟨hbefore, hafter⟩ := apart_append.mp h.streamed.apart
  rcases h.streamed.covered s.offset (not_le.mp hlt) with hwritten | ⟨q, hq, hle, hstop⟩
  · have := hbefore.le_endOf
    omega
  rcases mem_append.mp hq with hq | hq
  · have := hbefore.stop_le hq
    omega
  obtain ⟨p, rest, hcons⟩ := exists_cons_of_ne_nil (ne_nil_of_mem hq)
  have hp := hgap p rest hcons
  rw [hcons] at hq hafter
  have := hafter.head_le hq
  omega

/-- The incoming data before the next buffer ends before all others. -/
theorem Looping.gap_le_offset (hgap : s.Gap) : ∀ p ∈ s.after, s.offset + s.gap ≤ p.offset := by
  intro q hq
  obtain ⟨p, rest, hcons⟩ := exists_cons_of_ne_nil (ne_nil_of_mem hq)
  have hp := hgap p rest hcons
  have hsize : s.gap = min s.buffer.length (p.offset - s.offset) := by
    rw [WriteLoop.gap, hcons]
  have hapart := (apart_append.mp h.streamed.apart).2
  rw [hcons] at hq hapart
  have hle := hapart.head_le hq
  omega

/-- A piece of the incoming data is in the list, or has already been written from there. -/
theorem Looping.inserted (hlast : s.lastOffset ≤ s.offset) (w : RhizomeWrite)
    {before : List WriteBuffer} (hw : s.write.writtenOffset ≤ w.writtenOffset)
    (hsize : size ≤ s.buffer.length) (hstreamed : Streamed host file e w (before ++ s.after))
    (hbefore : ∀ q ∈ s.before, q ∈ before) (hend : endOf w.writtenOffset before = s.offset + size)
    (hnew : ∀ i, s.offset ≤ i → i < s.offset + size → Received w (before ++ s.after) i)
    (hready : sw = true → before ≠ [] → w.writtenOffset = w.fileOffset) {buffer : List Byte}
    (hbuffer : buffer = s.buffer.drop size) :
    Looping host file e sw { s with write := w, before, offset := s.offset + size, buffer } ∧
      Kept s { s with write := w, before, offset := s.offset + size, buffer } := by
  subst hbuffer
  have hfits := h.fits
  constructor
  · refine ⟨hstreamed, ?_, ?_, ?_, ?_, ?_, hready⟩
    · conv_lhs => rw [h.buffer]
      rw [length_drop, drop_take, drop_drop]
    · simp only [length_drop]
      omega
    · dsimp only
      omega
    · dsimp only
      omega
    · intro i hle hlt
      dsimp only at hle hlt
      omega
  · refine ⟨?_, ?_, hnew⟩
    · rintro i (hi | ⟨q, hq, hle, hlt⟩)
      · exact .inl (lt_of_lt_of_le hi hw)
      · rcases mem_append.mp hq with hq | hq
        · exact .inr ⟨q, mem_append_left _ (hbefore q hq), hle, hlt⟩
        · exact .inr ⟨q, mem_append_right _ hq, hle, hlt⟩
    · simp only [length_drop]
      omega

/-- Incoming data before the next buffer can be put into the list. -/
theorem Looping.insert_take (hgap : s.Gap) (hlast : s.lastOffset ≤ s.offset) {n : ℕ} (hpos : 0 < n)
    (hn : n ≤ s.gap) :
    (s.buffer.take n).length = n ∧
      Streamed host file e { s.write with bufferSize := s.write.bufferSize + n }
        (s.before ++ ⟨s.offset, s.buffer.take n⟩ :: s.after) := by
  have hle := s.gap_le
  have hfits := h.fits
  have hmax := h.le_max
  rw [max_eq_left hlast] at hmax
  have hlen : (s.buffer.take n).length = n := by
    rw [length_take]
    omega
  have hdata : s.buffer.take n = (file.drop s.offset).take (s.buffer.take n).length := by
    rw [hlen]
    conv_lhs => rw [h.buffer]
    rw [take_take, min_eq_left (by omega)]
  have hnext := h.gap_le_offset hgap
  have hinsert := h.streamed.insert (by rw [← length_pos_iff, hlen]; exact hpos)
    (h.fileOffset_le hgap hlast) (by omega) hdata hmax (fun p hp => by have := hnext p hp; omega)
  rw [hlen] at hinsert
  exact ⟨hlen, hinsert⟩

/-- If the incoming data comes next, it is processed and could then be put into the list. -/
theorem Looping.prepared (hgap : s.Gap) (hbuffer : s.buffer ≠ [])
    (hlast : s.lastOffset ≤ s.offset) :
    ∃ data write, s.prepared host = some (data, write) ∧
      Streamed host file e { write with bufferSize := write.bufferSize + s.gap }
        (s.before ++ ⟨s.offset, data⟩ :: s.after) ∧
      (s.offset ≠ s.write.fileOffset → data = s.buffer.take s.gap ∧ write = s.write) := by
  obtain ⟨hlen, hinsert⟩ := h.insert_take hgap hlast (WriteLoop.gap_pos hgap hbuffer) le_rfl
  rw [WriteLoop.prepared]
  by_cases hoffset : s.offset = s.write.fileOffset
  · have hmem : (⟨s.offset, s.buffer.take s.gap⟩ : WriteBuffer) ∈
        s.before ++ ⟨s.offset, s.buffer.take s.gap⟩ :: s.after := by simp
    have hcorrect := hinsert.correct _ hmem
    have hprepare := h.streamed.prepareData_eq (hinsert.apart.data_ne hmem)
      (hoffset ▸ hcorrect.within) (hoffset ▸ hcorrect.beyond hoffset.ge)
    obtain ⟨-, -, hprocess⟩ := hinsert.process hoffset rfl
    rw [if_pos hoffset, hprepare]
    exact ⟨_, _, rfl, hprocess, fun hne => absurd hoffset hne⟩
  · rw [if_neg hoffset]
    exact ⟨_, _, rfl, hinsert, fun _ => ⟨rfl, rfl⟩⟩

/-- Data that is cached. -/
theorem Looping.cache (hlast : s.lastOffset ≤ s.offset) {write : RhizomeWrite}
    (hlen : data.length = size) (hwritten : write.writtenOffset = s.write.writtenOffset)
    (hsize : size ≤ s.buffer.length)
    (hstreamed : Streamed host file e { write with bufferSize := write.bufferSize + size }
      (s.before ++ ⟨s.offset, data⟩ :: s.after))
    (hready : sw = true → write.writtenOffset = write.fileOffset)
    (hs' : s' = { s with
      write := { write with bufferSize := write.bufferSize + size }
      before := s.before ++ [⟨s.offset, data⟩]
      offset := s.offset + size
      buffer := s.buffer.drop size }) : Looping host file e sw s' ∧ Kept s s' := by
  subst hs'
  refine h.inserted hlast { write with bufferSize := write.bufferSize + size } hwritten.ge hsize
    ?_ ?_ ?_ ?_ (fun hsw _ => hready hsw) rfl
  · simpa using hstreamed
  · exact fun q => mem_append_left _
  · rw [endOf_append, endOf, endOf, WriteBuffer.stop, hlen]
  · intro i hle hlt
    exact .inr ⟨⟨s.offset, data⟩, by simp, hle, by rw [WriteBuffer.stop, hlen]; exact hlt⟩

/-- Data that is written at once. -/
theorem Looping.write (hlast : s.lastOffset ≤ s.offset) {write : RhizomeWrite} (hne : data ≠ [])
    (hlen : data.length = s.gap) (hwritten : write.writtenOffset = s.write.writtenOffset)
    (hoffset : s.offset = s.write.writtenOffset) (hlt : s.offset < write.fileOffset)
    (hstreamed : Streamed host file e { write with bufferSize := write.bufferSize + s.gap }
      (s.before ++ ⟨s.offset, data⟩ :: s.after))
    (hs' : s' = { s with
      write := writeData (writeGetLock host write) s.offset data
      offset := s.offset + s.gap
      buffer := s.buffer.drop s.gap }) : Looping host file e sw s' ∧ Kept s s' := by
  have hmax := h.le_max
  have hnil : s.before = [] := by
    by_contra hbefore
    have := (apart_append.mp h.streamed.apart).1.lt_endOf hbefore
    omega
  rw [hnil, nil_append] at hstreamed
  have hflush := hstreamed.flush (hoffset.trans hwritten.symm) hlt
  have hsize : write.bufferSize + s.gap - data.length =
      (writeData (writeGetLock host write) s.offset data).bufferSize := by
    rw [(writeGetLock_fileOffset host write s.offset data).2, hlen, Nat.add_sub_cancel]
  have hwrite := writeData_bufferSize host write (write.bufferSize + s.gap) s.offset data hsize ▸
    hflush
  subst hs'
  refine h.inserted hlast _ ?_ s.gap_le (hnil.symm ▸ hwrite) (fun q hq => hq) ?_ ?_ ?_ rfl
  · rw [writeData_of_ne hne]
    dsimp only
    omega
  · rw [hnil, endOf, writeData_of_ne hne, hlen]
  · rw [writeData_of_ne hne]
    exact fun i _ hlt => .inl (by dsimp only; omega)
  · exact fun _ => absurd hnil

end

/-- As long as nothing is written, there is room for all of the incoming data. -/
def WriteLoop.Room (sw : Bool) (s : WriteLoop) : Prop :=
  sw = false → s.write.bufferSize + s.buffer.length < rhizomeBufferMaximumSize

theorem WriteLoop.Room.process (h : s.Room sw) (hprocess : s.process host = some s') :
    s'.Room sw := by
  obtain ⟨hsize, hbuffer, -⟩ := process_sizes hprocess
  rwa [Room, hsize, hbuffer]

theorem WriteLoop.Room.flush (hflush : s.flush host sw = some s') : s'.Room sw := by
  obtain ⟨p, rest, -, hsw, -⟩ := flush_some hflush
  exact fun hfalse => nomatch hsw.symm.trans hfalse

theorem WriteLoop.Room.trim (h : s.Room sw) (htrim : s.trim = some s') : s'.Room sw := by
  obtain ⟨-, rfl⟩ := trim_some htrim
  intro hsw
  have := h hsw
  rw [length_drop]
  dsimp only
  omega

section

variable (h : Looping host file e sw s)
include h

/-- Data that comes next is never lost, and other data only if the cache is full. -/
theorem Looping.insert (hroom : s.Room sw) (hgap : s.Gap)
    (hbuffer : s.buffer ≠ []) (hlast : s.lastOffset ≤ s.offset)
    (hready : sw = true → s.write.writtenOffset = s.write.fileOffset) :
    (∃ s', s.insert host sw = .again s' ∧ Looping host file e sw s' ∧ Kept s s' ∧ s'.Room sw) ∨
    s.insert host sw = .stop 0 s ∧ rhizomeBufferMaximumSize ≤ s.write.bufferSize ∧
      s.offset ≠ s.write.fileOffset := by
  have hpos := WriteLoop.gap_pos hgap hbuffer
  have hle := s.gap_le
  obtain ⟨data, write, hprepared, hstreamed, hsame⟩ := h.prepared hgap hbuffer hlast
  obtain ⟨hlen, hfile, hbufferSize, hwritten⟩ := WriteLoop.prepared_sizes hprepared
  have hagain : ∀ s', s.insert host sw = .again s' → Looping host file e sw s' ∧ Kept s s' →
      ∃ s', s.insert host sw = .again s' ∧ Looping host file e sw s' ∧ Kept s s' ∧ s'.Room sw := by
    rintro s' hinsert ⟨h', hkept⟩
    obtain ⟨size, hshorter, -, -, -, -, hsize, -⟩ := WriteLoop.insert_sizes hinsert
    refine ⟨s', hinsert, h', hkept, fun hsw => ?_⟩
    have := hroom hsw
    omega
  rcases s.insert_cases host sw with ⟨hnone, -⟩ | ⟨data', write', hprepared', hcases⟩
  · exact nomatch hnone.symm.trans hprepared
  cases hprepared.symm.trans hprepared'
  rcases hcases with ⟨⟨hsw, hoffset⟩, hinsert⟩ | ⟨hnot, size, hsize, hcases⟩
  · have hnext := hready hsw
    rw [if_pos (by omega)] at hfile
    have hne : data ≠ [] := by rwa [← length_pos_iff, hlen]
    exact .inl (hagain _ hinsert
      (h.write hlast hne hlen hwritten (by omega) (by omega) hstreamed rfl))
  have hlater : sw = false ∨ s.offset ≠ s.write.fileOffset := by
    cases sw with
    | false => exact .inl rfl
    | true =>
      refine .inr fun hoffset => hnot ⟨rfl, ?_⟩
      rw [hwritten, hready rfl, hoffset]
  rcases hcases with ⟨hzero, hinsert⟩ | ⟨hne, hinsert⟩
  · have hfull : rhizomeBufferMaximumSize ≤ s.write.bufferSize := by
      split at hsize <;> omega
    have hoffset := hlater.resolve_left fun hsw => by
      have := hroom hsw
      omega
    rw [(hsame hoffset).2] at hinsert
    exact .inr ⟨hinsert, hfull, hoffset⟩
  · refine .inl (hagain _ hinsert ?_)
    by_cases hoffset : s.offset = s.write.fileOffset
    · have hsw := hlater.resolve_right (not_not.mpr hoffset)
      have := hroom hsw
      rw [if_neg (by omega)] at hsize
      subst hsize
      exact h.cache hlast hlen hwritten hle hstreamed (fun htrue => nomatch htrue.symm.trans hsw)
        (by rw [take_left' hlen, drop_left' hlen])
    · obtain ⟨rfl, rfl⟩ := hsame hoffset
      have hsize' : size ≤ s.gap := by
        split at hsize <;> omega
      obtain ⟨hlen', hinsert'⟩ := h.insert_take hgap hlast (Nat.pos_of_ne_zero hne) hsize'
      rw [take_append_drop]
      exact h.cache hlast hlen' rfl (hsize'.trans hle) hinsert' hready rfl

/-- The existing buffer is left behind. -/
theorem Looping.skip (hafter : s.after = p :: rest) (hle : p.offset ≤ s.offset)
    (hready : sw = true → s.write.writtenOffset = s.write.fileOffset)
    (hs' : s' = { s with
      before := s.before ++ [p], after := rest, lastOffset := p.offset + p.data.length }) :
    Looping host file e sw s' ∧ Kept s s' := by
  subst hs'
  constructor
  · refine ⟨?_, h.buffer, h.fits, ?_, ?_, ?_, fun hsw _ => hready hsw⟩
    · have := h.streamed
      rw [hafter] at this
      simpa using this
    · rw [endOf_append]
      exact le_rfl
    · rw [endOf_append]
      exact le_max_right _ _
    · intro i hoffset hlt
      exact .inr ⟨p, by simp, hle.trans hoffset, hlt⟩
  · refine ⟨fun i hi => ?_, rfl, fun i hoffset hlt => absurd hlt (not_lt.mpr hoffset)⟩
    rw [WriteLoop.Has, hafter] at hi
    simpa [WriteLoop.Has] using hi

theorem Looping.step (hroom : s.Room sw) :
    (∃ s', s.step host sw = .again s' ∧ Looping host file e sw s' ∧ Kept s s' ∧ s'.Room sw) ∨
    ∃ s', s.step host sw = .stop 0 s' ∧ (rhizomeBufferMaximumSize ≤ s'.write.bufferSize ∨
      Streamed host file e s'.write (s'.before ++ s'.after) ∧ (∀ i, s.Has i → s'.Has i) ∧
        ∀ i, s.offset ≤ i → i < s.offset + s.buffer.length → s'.Has i) := by
  obtain ⟨s₁, hprocess, h₁, hkept₁, hprocessed, -⟩ := h.process
  have hroom₁ := hroom.process hprocess
  rcases WriteLoop.step_cases hprocess sw with
    ⟨s₂, hflush, hstep⟩ | ⟨hflush, ⟨htrim, hstep⟩ | ⟨s₂, htrim, hcases⟩⟩
  · obtain ⟨h₂, hkept₂⟩ := h₁.flush hprocessed hflush
    exact .inl ⟨s₂, hstep, h₂, hkept₁.trans hkept₂, .flush hflush⟩
  · refine .inr ⟨s₁, hstep, .inr ⟨h₁.streamed, hkept₁.has, fun i hle hlt => ?_⟩⟩
    have hend := hkept₁.end_eq
    by_cases hi : i < s₁.offset
    · exact hkept₁.taken i hle hi
    · exact h₁.trim_none htrim i (by omega) (by omega)
  obtain ⟨h₂, hkept₂, hlast, -, hwrite⟩ := h₁.trim htrim
  have hroom₂ := hroom₁.trim htrim
  have hready : sw = true → s₂.write.writtenOffset = s₂.write.fileOffset := by
    rintro rfl
    rw [hwrite]
    exact h₁.written_eq hflush
  have hkept := hkept₁.trans hkept₂
  rcases hcases with ⟨hgap, hstep⟩ | ⟨p, rest, hcons, hge, hstep⟩
  · rw [hstep]
    rcases h₂.insert hroom₂ hgap (WriteLoop.trim_remaining htrim).2 hlast hready with
      ⟨s', hs', h', hkept', hroom'⟩ | ⟨hs', hfull, -⟩
    · exact .inl ⟨s', hs', h', hkept.trans hkept', hroom'⟩
    · exact .inr ⟨s₂, hs', .inl hfull⟩
  · obtain ⟨h₃, hkept₃⟩ := h₂.skip hcons hge hready rfl
    exact .inl ⟨_, hstep, h₃, hkept.trans hkept₃, hroom₂⟩

end

end Loop

end ServalMesh.Rhizome
