import ServalMesh.Rhizome.WriteOrder

/-!
# Runs of writes

A file may be written in any number of calls, with overlaps and repeats. When the calls cover the
file, finishing the write leaves nothing in the list and everything in the blob.
-/

namespace ServalMesh.Rhizome

open Lib Overlay List RhizomeWrite WriteLoop

section Loop

variable {host : Host} {file e : List Byte} {sw : Bool} {s s' : WriteLoop}

theorem writeLoop_again (h : s.step host sw = .again s') :
    writeLoop host sw s = writeLoop host sw s' := by
  rw [writeLoop]
  split
  case h_1 s₁ hstep => rw [Next.again.inj (hstep.symm.trans h)]
  case h_2 ret s₁ hstep => exact absurd (hstep.symm.trans h) (by simp)

theorem writeLoop_stop {ret : ℤ} (h : s.step host sw = .stop ret s') :
    writeLoop host sw s = (ret, s') := by
  rw [writeLoop]
  split
  case h_1 s₁ hstep => exact absurd (hstep.symm.trans h) (by simp)
  case h_2 ret s₁ hstep =>
    obtain ⟨rfl, rfl⟩ := Next.stop.inj (hstep.symm.trans h)
    rfl

/-- The loop ends, and if the limit of the cache is not reached then all incoming data has been
received. -/
theorem Looping.writeLoop (h : Looping host file e sw s) (hroom : s.Room sw)
    (hlimit : (writeLoop host sw s).2.write.bufferSize < rhizomeBufferMaximumSize) :
    ∃ s', writeLoop host sw s = (0, s') ∧
      Streamed host file e s'.write (s'.before ++ s'.after) ∧ (∀ i, s.Has i → s'.Has i) ∧
      ∀ i, s.offset ≤ i → i < s.offset + s.buffer.length → s'.Has i := by
  induction hn : s.remaining using Nat.strong_induction_on generalizing s with
  | _ n ih =>
    rcases h.step hroom with ⟨s₁, hstep, h₁, hkept, hroom₁⟩ | ⟨s', hstep, hstop⟩
    · rw [writeLoop_again hstep] at hlimit ⊢
      obtain ⟨s', hs', hstreamed, hhas, hall⟩ :=
        ih _ (hn ▸ step_remaining hstep) h₁ hroom₁ hlimit rfl
      refine ⟨s', hs', hstreamed, fun i hi => hhas i (hkept.has i hi), fun i hle hlt => ?_⟩
      have hend := hkept.end_eq
      by_cases hi : i < s₁.offset
      · exact hhas i (hkept.taken i hle hi)
      · exact hall i (by omega) (by omega)
    · rw [writeLoop_stop hstep] at hlimit ⊢
      rcases hstop with hfull | ⟨hstreamed, hhas, hall⟩
      · exact absurd hfull (not_le.mpr hlimit)
      · exact ⟨s', rfl, hstreamed, hhas, hall⟩

/-- Once everything was received, the loop writes all that is left. -/
theorem Looping.writeLoop_flush (h : Looping host file e true s) (hbefore : s.before = [])
    (hbuffer : s.buffer = []) (hall : ∀ i < file.length, s.Has i) :
    ∃ s', Rhizome.writeLoop host true s = (0, s') ∧ s'.before = [] ∧ s'.after = [] ∧
      Streamed host file e s'.write [] ∧ ∀ i < file.length, s'.Has i := by
  induction hn : s.remaining using Nat.strong_induction_on generalizing s with
  | _ n ih =>
    obtain ⟨s₁, hprocess, h₁, hkept₁, hprocessed, hbefore₁, hbuffer₁⟩ := h.process
    rw [hbefore] at hbefore₁
    rw [hbuffer] at hbuffer₁
    cases hafter : s₁.after with
    | nil =>
      have hstep : s.step host true = .stop 0 s₁ := by
        simp [WriteLoop.step, hprocess, WriteLoop.flush, hafter, WriteLoop.trim, hbuffer₁]
      have hstreamed := h₁.streamed
      rw [hbefore₁, hafter] at hstreamed
      exact ⟨s₁, writeLoop_stop hstep, hbefore₁, hafter, hstreamed,
        fun i hi => hkept₁.has i (hall i hi)⟩
    | cons p rest =>
      have hstreamed := h₁.streamed
      rw [hbefore₁, hafter, nil_append] at hstreamed
      have hwithin := (hstreamed.correct p mem_cons_self).within
      obtain ⟨hle, hne, -⟩ := hstreamed.apart
      have hlt := WriteBuffer.offset_lt_stop hne
      have hhas := hkept₁.has _ (hall s₁.write.writtenOffset (by omega))
      rw [WriteLoop.Has, hbefore₁, hafter] at hhas
      have hfirst := hhas.first hstreamed.apart
      cases hflush : s₁.flush host true with
      | none =>
        rw [WriteLoop.flush, hafter] at hflush
        dsimp only at hflush
        rw [if_pos (by simpa using hfirst)] at hflush
        cases hflush
      | some s₂ =>
        have hstep : s.step host true = .again s₂ := by
          rw [WriteLoop.step, hprocess]
          dsimp only
          rw [hflush]
        obtain ⟨h₂, hkept₂⟩ := h₁.flush hprocessed hflush
        rw [writeLoop_again hstep]
        obtain ⟨_, _, -, -, -, rfl⟩ := WriteLoop.flush_some hflush
        exact ih _ (hn ▸ WriteLoop.step_remaining hstep) h₂ hbefore₁ hbuffer₁
          (fun i hi => hkept₂.has i (hkept₁.has i (hall i hi))) rfl

end Loop

section Calls

variable {host : Host} {file e : List Byte} {w : RhizomeWrite} {pieces : List WriteBuffer}
  {data : List Byte} {calls : List (ℕ × List Byte)} {store store' : Store} {offset : ℕ}

/-- The list and the lock do not matter by themselves. -/
theorem Streamed.relabel (h : Streamed host file e w pieces) (list : List WriteBuffer)
    (blob : Bool) : Streamed host file e { w with bufferList := list, sqlBlob := blob } pieces :=
  { h with }

/-- The data is what the file has at the offset, as far as the file goes. -/
def IsPiece (file : List Byte) (offset : ℕ) (data : List Byte) : Prop :=
  data.take (file.length - offset) = (file.drop offset).take data.length

theorem Streamed.looping (h : Streamed host file e w w.bufferList) (sw : Bool) (offset : ℕ)
    (data : List Byte) (hdata : data = (file.drop offset).take data.length)
    (hfits : offset + data.length ≤ file.length) :
    Looping host file e sw ⟨w, [], w.bufferList, w.writtenOffset, offset, data⟩ :=
  ⟨h, hdata, hfits, le_rfl, le_max_right _ _, fun _ _ hlt => .inl hlt, fun _ hne => absurd rfl hne⟩

theorem eq_take_length {l : List Byte} {n : ℕ} (h : data = l.take n) :
    data = l.take data.length := by
  rw [h, length_take, ← take_eq_take_min]

/-- A piece of the file is dropped, or goes through the loop as far as the file has it. -/
theorem Streamed.randomWrite_cases (h : Streamed host file e w w.bufferList)
    (hdata : IsPiece file offset data) :
    file.length ≤ offset ∧ rhizomeRandomWrite host w offset (some data) = (0, w) ∨
    ∃ clipped, clipped.length = min data.length (file.length - offset) ∧
      (∀ sw, Looping host file e sw ⟨w, [], w.bufferList, w.writtenOffset, offset, clipped⟩) ∧
      ∀ ret s, writeLoop host (shouldWrite host w (some data) clipped.length)
          ⟨w, [], w.bufferList, w.writtenOffset, offset, clipped⟩ = (ret, s) →
        rhizomeRandomWrite host w offset (some data) =
          (ret, writeReleaseLock { s.write with bufferList := s.before ++ s.after }) := by
  have hcond : (w.fileLength.any fun length => decide (length ≤ offset)) = true ↔
      file.length ≤ offset := by simp [h.length]
  rw [rhizomeRandomWrite]
  by_cases hoffset : file.length ≤ offset
  · rw [if_pos (hcond.mpr hoffset)]
    exact .inl ⟨hoffset, rfl⟩
  rw [if_neg (mt hcond.mp hoffset)]
  simp only [h.length, Option.getD_some]
  have hpiece : data.take (file.length - offset) = (file.drop offset).take data.length := hdata
  generalize data.take (file.length - offset) = clipped at hpiece ⊢
  have hlen : clipped.length = min data.length (file.length - offset) := by
    rw [hpiece, length_take, length_drop]
  refine .inr ⟨clipped, hlen, fun sw =>
    h.looping sw offset clipped (eq_take_length hpiece) (by omega), fun ret s hloop => ?_⟩
  rw [hloop]

/-- Data is only cached while there is room for it. -/
theorem shouldWrite_room {size : ℕ}
    (h : shouldWrite host w (some data) size = false) :
    w.bufferSize + size < rhizomeBufferMaximumSize := by
  rw [shouldWrite] at h
  split at h
  · exact nomatch h
  · rw [Bool.or_eq_false_iff, decide_eq_false_iff_not, not_le] at h
    omega

theorem Streamed.randomWrite (h : Streamed host file e w w.bufferList)
    (hdata : IsPiece file offset data)
    (hroom : (rhizomeRandomWrite host w offset (some data)).2.bufferSize <
      rhizomeBufferMaximumSize) :
    ∃ w', rhizomeRandomWrite host w offset (some data) = (0, w') ∧
      Streamed host file e w' w'.bufferList ∧
      (∀ i, Received w w.bufferList i → Received w' w'.bufferList i) ∧
      ∀ i, offset ≤ i → i < offset + data.length → i < file.length →
        Received w' w'.bufferList i := by
  rcases h.randomWrite_cases hdata with ⟨hoffset, hwrite⟩ | ⟨clipped, hlen, hlooping, hwrite⟩
  · exact ⟨w, hwrite, h, fun i hi => hi, fun i hle _ hlt => by omega⟩
  · rw [hwrite _ _ rfl] at hroom
    obtain ⟨s', hs', hstreamed, hhas, hall⟩ := (hlooping _).writeLoop shouldWrite_room hroom
    refine ⟨_, hwrite _ _ hs', hstreamed.relabel _ _, hhas, fun i hle hlt hi => ?_⟩
    exact hall i hle (by dsimp only; omega)

/-- Writes in the order of the calls. -/
def runWrites (host : Host) (w : RhizomeWrite) (calls : List (ℕ × List Byte)) : RhizomeWrite :=
  calls.foldl (fun w call => (rhizomeRandomWrite host w call.1 (some call.2)).2) w

/-- All calls so far have succeeded, and what they wrote was received. -/
theorem Streamed.runWrites (h : Streamed host file e w w.bufferList)
    (hcalls : ∀ call ∈ calls, IsPiece file call.1 call.2)
    (hroom : ∀ n, (runWrites host w (calls.take n)).bufferSize < rhizomeBufferMaximumSize) :
    ∀ w', w' = Rhizome.runWrites host w calls → Streamed host file e w' w'.bufferList ∧
      (∀ i, Received w w.bufferList i → Received w' w'.bufferList i) ∧
      ∀ call ∈ calls, ∀ i, call.1 ≤ i → i < call.1 + call.2.length → i < file.length →
        Received w' w'.bufferList i := by
  induction calls generalizing w with
  | nil =>
    rintro w' rfl
    exact ⟨h, fun i hi => hi, by simp⟩
  | cons call rest ih =>
    rintro w' hw'
    obtain ⟨hcall, hrest⟩ := forall_mem_cons.mp hcalls
    obtain ⟨w₁, hw₁, h₁, hhas₁, hall₁⟩ := h.randomWrite hcall (hroom 1)
    have hrun : ∀ calls, Rhizome.runWrites host w (call :: calls) =
        Rhizome.runWrites host w₁ calls := by
      intro calls
      rw [Rhizome.runWrites, foldl_cons, hw₁]
      rfl
    obtain ⟨h', hhas', hall'⟩ := ih h₁ hrest
      (fun n => by
        have := hroom (n + 1)
        rwa [take_succ_cons, hrun] at this) w' (hw'.trans (hrun rest))
    exact ⟨h', fun i hi => hhas' i (hhas₁ i hi), forall_mem_cons.mpr
      ⟨fun i hle hlt hi => hhas' i (hall₁ i hle hlt hi), hall'⟩⟩

/-- Once the whole file was received, finishing the write reaches the comparison of the hashes. -/
theorem Streamed.finishFlush (h : Streamed host file e w w.bufferList) (hfile : file ≠ [])
    (hall : ∀ i < file.length, Received w w.bufferList i) (store : Store) :
    ∃ w', finishFlush host store w = .ok (true, .new, w', store) ∧ w'.bufferList = [] ∧
      w'.fileOffset = file.length ∧ w'.writtenOffset = file.length ∧
      Streamed host file e w' [] := by
  have hlength : { w with fileLength := some (w.fileLength.getD w.fileOffset) } = w := by
    rw [h.length, Option.getD_some, ← h.length]
  have hpos := length_pos_of_ne_nil hfile
  -- what is known when nothing is left in the list
  have hdone : ∀ w', Streamed host file e w' [] → (∀ i < file.length, Received w' [] i) →
      w'.fileOffset = file.length ∧ w'.writtenOffset = file.length := by
    intro w' h' hall'
    have hle := h'.written_le
    have hoffset := h'.offset_le
    have hlast := hall' (file.length - 1) (by omega)
    simp only [Received, not_mem_nil, false_and, exists_false, or_false] at hlast
    omega
  have hflushed : ∃ w', (if w.bufferList = [] then (0, w) else rhizomeRandomWrite host w 0 none) =
      (0, w') ∧ w'.bufferList = [] ∧ Streamed host file e w' [] ∧
      ∀ i < file.length, Received w' [] i := by
    by_cases hnil : w.bufferList = []
    · rw [if_pos hnil]
      exact ⟨w, rfl, hnil, hnil ▸ h, hnil ▸ hall⟩
    have hcond : ¬(w.fileLength.any fun length => decide (length ≤ 0)) = true := by
      simpa [h.length] using hfile
    rw [if_neg hnil, rhizomeRandomWrite, if_neg hcond]
    have hsw : ∀ size, shouldWrite host w none size = true := by
      intro size
      simp [shouldWrite]
    simp only [h.length, Option.getD_none, take_nil, hsw]
    have hlooping := h.looping true 0 [] rfl (by simp)
    obtain ⟨s', hs', hbefore, hafter, hstreamed, hhas⟩ := hlooping.writeLoop_flush rfl rfl hall
    rw [hs']
    refine ⟨_, rfl, ?_, hstreamed.relabel _ _, fun i hi => ?_⟩
    · simp [writeReleaseLock, hbefore, hafter]
    · have := hhas i hi
      rwa [Has, hbefore, hafter] at this
  obtain ⟨w', hw', hlist, hstreamed, hhas⟩ := hflushed
  obtain ⟨hoffset, hwritten⟩ := hdone w' hstreamed hhas
  refine ⟨w', ?_, hlist, hoffset, hwritten, hstreamed⟩
  have hlen := hstreamed.length
  have hspace : finishLength host store w = (true, .new, store) := by
    rw [finishLength, h.length]
  rw [Rhizome.finishFlush, hspace]
  simp only [hlength, hw', hlist, hlen, hoffset, Bool.not_true, Bool.false_eq_true, if_false,
    ne_eq, not_true_eq_false, or_self, Option.any_some, lt_irrefl, decide_false,
    Option.some.injEq, hpos.ne']

/-- What was written in order. -/
theorem foldl_writeAt {bytes : List Byte}
    (h : InOrder bytes.length calls) :
    calls.foldl (fun bytes call => writeAt bytes call.1 call.2) bytes =
      bytes ++ calls.flatMap Prod.snd := by
  induction calls generalizing bytes with
  | nil => simp
  | cons call rest ih =>
    obtain ⟨hcall, hrest⟩ := h
    have hwrite : writeAt bytes call.1 call.2 = bytes ++ call.2 := by
      simp [writeAt, hcall]
    rw [foldl_cons, hwrite, ih (by rwa [length_append]), flatMap_cons,
      append_assoc]

theorem Streamed.blob_eq (h : Streamed host file e w pieces) : w.blob = e.take w.writtenOffset := by
  have hwrites : w.writes.foldl (fun bytes call => writeAt bytes call.1 call.2) [] = _ :=
    foldl_writeAt h.inOrder
  rw [blob, hwrites, nil_append, h.written]

/-- A write of a whole file ends with the file in the store, unless another hash was expected. -/
theorem Streamed.finishWrite (h : Streamed host file e w w.bufferList) (hfile : file ≠ [])
    (hend : w.fileOffset = file.length) (store : Store) :
    ∃ status w' store', rhizomeFinishWrite host store w = .ok (status, w', store') ∧
      w'.fileOffset = file.length ∧
      ((∃ id ∈ w.id, id ≠ host.sha512 e) ∧ status = .wrongHash ∧ store' = store ∨
        (∀ id ∈ w.id, id = host.sha512 e) ∧ status = .new ∧ w'.id = some (host.sha512 e) ∧
          store' = if rhizomeExists store (host.sha512 e) then store
            else (host.sha512 e, e) :: store) := by
  obtain ⟨w₁, hflush, -, hoffset, hwritten, hstreamed⟩ := h.finishFlush hfile
    (fun i hi => h.covered i (hend ▸ hi)) store
  have hlen := hstreamed.length_e
  have hhashed : w₁.hashed = e := by
    rw [hstreamed.hashed, hoffset, take_of_length_le hlen.le]
  have hblob : w₁.blob = e := by
    rw [hstreamed.blob_eq, hwritten, take_of_length_le hlen.le]
  rw [rhizomeFinishWrite, hflush]
  simp only [bind, Except.bind, if_true, hhashed, finishFlush_id hflush, Option.any_eq_true,
    decide_eq_true_eq]
  split
  case isTrue hother => exact ⟨_, _, _, rfl, hoffset, .inl ⟨hother, rfl, rfl⟩⟩
  case isFalse hsame =>
    refine ⟨_, _, _, rfl, hoffset, .inr ⟨?_, rfl, rfl, congrArg (fun blob =>
      if rhizomeExists store (host.sha512 e) then store else (host.sha512 e, blob) :: store) hblob⟩⟩
    exact fun id hid => not_not.mp fun hne => hsame ⟨id, hid, hne⟩

theorem rhizomeOpenWrite_new {id : Option (List Byte)} {n : ℕ}
    (h : rhizomeOpenWrite host store .zero id (some n) = (.new, w, store')) :
    w = { zero with id, fileLength := some n } ∧
      store' = (host.makeSpace n store).2 ∧ n ≠ 0 := by
  rw [rhizomeOpenWrite] at h
  split at h
  · exact nomatch congrArg Prod.fst h
  rename_i hn
  split at h
  · exact nomatch congrArg Prod.fst h
  dsimp only at h
  split at h
  case isTrue hstatus => exact absurd (congrArg Prod.fst h) hstatus
  case isFalse =>
    obtain ⟨-, rfl, rfl⟩ := h
    exact ⟨rfl, rfl, fun hzero => hn (congrArg some hzero)⟩

/-- Nothing has been received by a write that was just opened. -/
theorem streamed_open {id : Option (List Byte)} {opened : RhizomeWrite}
    (hopen : rhizomeOpenWrite host store .zero id (some file.length) = (.new, opened, store'))
    {crypt : Bool} {tail : ℕ} {key nonce : List Byte}
    (hw : w = { opened with crypt, tail, key, nonce })
    (hunwrapped : crypt = true → tail + file.length ≤ 2 ^ 64) :
    Streamed host file (encrypted host w file) w w.bufferList ∧ file ≠ [] := by
  obtain ⟨rfl, -, hlength⟩ := rhizomeOpenWrite_new hopen
  subst hw
  exact ⟨⟨rfl, rfl, hunwrapped, rfl, rfl, trivial, le_rfl, Nat.zero_le _, trivial, nofun, nofun,
    rfl⟩, ne_nil_of_length_pos (Nat.pos_of_ne_zero hlength)⟩

/-- Whatever the order, overlaps and repeats of the calls, all of them succeed, the hash and the
blob have received the start of the encrypted file, and the list holds pieces of the rest. When
the calls cover the file, then so has everything. -/
theorem rhizomeRandomWrite_any_order (store : Store) (id : Option (List Byte))
    {opened : RhizomeWrite} {store' : Store}
    (hopen : rhizomeOpenWrite host store .zero id (some file.length) = (.new, opened, store'))
    (crypt : Bool) (tail : ℕ) (key nonce : List Byte)
    (hw : w = { opened with crypt, tail, key, nonce })
    (hunwrapped : crypt = true → tail + file.length ≤ 2 ^ 64) (calls : List (ℕ × List Byte))
    (hcalls : ∀ call ∈ calls, IsPiece file call.1 call.2)
    (hroom : ∀ n, (runWrites host w (calls.take n)).bufferSize < rhizomeBufferMaximumSize) :
    (∀ n, Streamed host file (encrypted host w file) (runWrites host w (calls.take n))
      (runWrites host w (calls.take n)).bufferList) ∧
    (∀ n call, calls[n]? = some call →
      (rhizomeRandomWrite host (runWrites host w (calls.take n)) call.1 (some call.2)).1 = 0) ∧
    ((∀ i < file.length, ∃ call ∈ calls, call.1 ≤ i ∧ i < call.1 + call.2.length) →
      ∃ w', finishFlush host store' (runWrites host w calls) = .ok (true, .new, w', store') ∧
        w'.bufferList = [] ∧ w'.fileOffset = file.length ∧ w'.writtenOffset = file.length ∧
        Streamed host file (encrypted host w file) w' []) := by
  obtain ⟨h, hfile⟩ := streamed_open hopen hw hunwrapped
  have hstart : ∀ n, Streamed host file (encrypted host w file) (runWrites host w (calls.take n))
      (runWrites host w (calls.take n)).bufferList := by
    intro n
    refine (h.runWrites (fun call hcall => hcalls call (mem_of_mem_take hcall))
      (fun m => ?_) _ rfl).1
    rw [take_take]
    exact hroom _
  refine ⟨hstart, fun n call hcall => ?_, fun hcover => ?_⟩
  · have hnext : calls.take (n + 1) = calls.take n ++ [call] := by
      rw [take_add_one, hcall]
      rfl
    have hlast := hroom (n + 1)
    rw [hnext, runWrites, foldl_append] at hlast
    obtain ⟨w', hw', -⟩ :=
      (hstart n).randomWrite (hcalls call (mem_of_getElem? hcall)) hlast
    rw [hw']
  · obtain ⟨hall, -, hreceived⟩ := h.runWrites hcalls hroom _ rfl
    refine hall.finishFlush hfile (fun i hi => ?_) store'
    obtain ⟨call, hmem, hle, hlt⟩ := hcover i hi
    exact hreceived call hmem i hle hlt hi

/-- A host whose key stream depends on the nonce only. -/
def nonceHost : Host := ⟨2, fun nonce _ _ => nonce.getD 15 0#8, id, fun _ store => (.new, store)⟩

/-- A write of an encrypted file. -/
def encryptedWrite (size tail : ℕ) : RhizomeWrite :=
  { RhizomeWrite.zero with
    fileLength := some size, crypt := true, tail, nonce := List.replicate 24 0#8 }

/-- The calls that write a file of three bytes backwards, with an overlap. -/
def backwardCalls : List (ℕ × List Byte) := [(2, [3#8]), (1, [2#8, 3#8]), (0, [1#8])]

theorem rhizomeRandomWrite_any_order_backward :
    ∃ w', finishFlush nonceHost [] (runWrites nonceHost (encryptedWrite 3 7) backwardCalls) =
        .ok (true, .new, w', []) ∧ w'.bufferList = [] ∧ w'.fileOffset = 3 ∧ w'.writtenOffset = 3 ∧
      Streamed nonceHost [1#8, 2#8, 3#8]
        (encrypted nonceHost (encryptedWrite 3 7) [1#8, 2#8, 3#8]) w' [] := by
  have hopen : rhizomeOpenWrite nonceHost [] .zero none (some [1#8, 2#8, 3#8].length) =
      (.new, { zero with fileLength := some 3 }, []) := by decide +kernel
  have hw : encryptedWrite 3 7 = { zero with
    fileLength := some 3, crypt := true, tail := 7, key := [], nonce := List.replicate 24 0#8 } :=
    rfl
  refine (rhizomeRandomWrite_any_order [] none hopen true 7 [] (List.replicate 24 0#8) hw
    (by simp) backwardCalls ?_ ?_).2.2 ?_
  · intro call hcall
    simp only [backwardCalls, mem_cons, not_mem_nil, or_false] at hcall
    rcases hcall with rfl | rfl | rfl <;> rfl
  · intro n
    rcases n with _ | _ | _ | n
    · decide +kernel
    · decide +kernel
    · decide +kernel
    · rw [take_of_length_le (by simp [backwardCalls])]
      decide +kernel
  · intro i hi
    simp only [length_cons, length_nil] at hi
    interval_cases i <;> decide

/-- Where the position in the key stream exceeds 64 bits, the order of the calls matters. -/
theorem rhizomeRandomWrite_wrapped :
    let write := encryptedWrite 3 (2 ^ 64 - 2)
    let file := [0#8, 0#8, 0#8]
    (runWrites nonceHost write [(0, file)]).hashed = encrypted nonceHost write file ∧
      (runWrites nonceHost write [(0, file.take 2), (2, file.drop 2)]).hashed ≠
        encrypted nonceHost write file := by
  decide +kernel

end Calls

end ServalMesh.Rhizome
