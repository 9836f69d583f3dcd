import ServalMesh.Meshms.Thread

/-!
# Reading back a message

A message is appended with the time behind it. Read from the end of the ply, the time comes first
and then the message, unless its footer is on two pages, whatever the ply held before.
-/

namespace ServalMesh.Meshms

open Overlay Rhizome List

variable {myPly : Option (List Byte)} {message : List Byte}

/-- The message is sent, and the time and the message, followed by one NUL, are read back from the
end of the ply. The message starts where the ply ended before, and ends behind its footer. -/
def MessageReadsBack (myPly : Option (List Byte)) (message : List Byte) (now : BitVec 32) : Prop :=
  ∃ ply time sent, meshmsSendMessage myPly message now = .ok (.updated, some ply) ∧
    plyReadPrev (plyReadOpen ply) = .ok (.updated, time) ∧ time.type = meshmsBlockTypeTime ∧
    time.record = writeUint32 now ∧ plyReadPrev time = .ok (.updated, sent) ∧
    sent.type = meshmsBlockTypeMessage ∧ sent.record = message.takeWhile (· ≠ 0#8) ++ [0#8] ∧
    sent.offset = (myPly.getD []).length ∧
    sent.recordEndOffset = (myPly.getD []).length + sent.record.length + 2

/-- How long the message is with its NUL. -/
def storedLength (message : List Byte) : ℕ :=
  if message.getLast? = some 0#8 then message.length else message.length + 1

theorem meshmsSendMessage_too_long (hne : message ≠ [])
    (hle : message.length ≤ meshmsMessageMaxLen)
    (htext : meshmsMessageMaxLen < (messageText message).length) (now : BitVec 32) :
    meshmsSendMessage myPly message now = .error .assertion := by
  rw [meshmsSendMessage, if_neg hne, if_neg (not_lt.mpr hle)]
  dsimp only
  rw [appendFooter, if_neg (not_le.mpr htext)]

section Reading

variable {before : List Byte} {r : Record} {now : BitVec 32} {time : PlyRead}

/-- The reader has read the time that is behind a record. -/
structure TimeRead (before : List Byte) (r : Record) (now : BitVec 32) (time : PlyRead) : Prop where
  content : time.content = before ++ (r.encode ++ (Entry.time now).record.encode)
  offset : time.offset = before.length + r.encode.length
  type : time.type = meshmsBlockTypeTime
  record : time.record = writeUint32 now
  buff : ∃ last, time.offset ≤ last ∧ last < time.offset + 4 ∧ time.buff = pageOf time.content last

theorem plyReadPrev_time (before : List Byte) (r : Record) (now : BitVec 32) :
    ∃ time, plyReadPrev (plyReadOpen (before ++ (r.encode ++ (Entry.time now).record.encode))) =
      .ok (.updated, time) ∧ TimeRead before r now time := by
  obtain ⟨last, hle, hlt, hread⟩ := @plyReadPrev_record
    (plyReadOpen (before ++ (r.encode ++ (Entry.time now).record.encode))) (Entry.time now).record
    (before ++ r.encode) [] (by rw [append_nil, append_assoc]; rfl)
    (by rw [plyReadOpen, ← append_assoc, length_append]) (time_wellFormed now)
    (fun hends => Nat.not_lt_zero _ hends.1) (.inl rfl)
  exact ⟨_, hread, rfl, length_append, rfl, rfl, last, hle, hlt, rfl⟩

variable (h : TimeRead before r now time) (hr : r.WellFormed)
include h hr

/-- A record is read after the time behind it, if its footer is not on two pages. -/
theorem TimeRead.sent (hpage : time.offset % rhizomeCryptPageSize ≠ 1) :
    ∃ sent, plyReadPrev time = .ok (.updated, sent) ∧ sent.type = r.type ∧ sent.record = r.bytes ∧
      sent.offset = before.length ∧ sent.recordEndOffset = time.offset := by
  obtain ⟨last, -, -, hbuff⟩ := h.buff
  have hvalid : time.buff.Valid time.content := hbuff ▸ pageOf_valid time.content last
  obtain ⟨_, -, -, hsent⟩ := plyReadPrev_record h.content h.offset hr (hvalid.not_ends hpage) hvalid
  exact ⟨_, hsent, rfl, rfl, rfl, rfl⟩

/-- If its footer is on two pages, what is read after the time does not start with the record. -/
theorem TimeRead.lt {sent : PlyRead} (hpage : time.offset % rhizomeCryptPageSize = 1)
    (hsent : plyReadPrev time = .ok (.updated, sent)) : sent.offset < before.length := by
  obtain ⟨last, hle, hlt, hbuff⟩ := h.buff
  -- the time is on the page where the footer ends, which then is in the buffer
  have hsame : last / rhizomeCryptPageSize = time.offset / rhizomeCryptPageSize := by
    rw [pageSize_eq] at hpage ⊢
    omega
  rw [pageOf_congr hsame] at hbuff
  exact (plyReadPrev_twoPages h.content h.offset hr hpage hbuff).2 sent hsent

end Reading

/-- A message is read back exactly if there is room for its NUL, and its footer is not on two
pages. -/
theorem meshmsSendMessage_readsBack_iff (myPly : Option (List Byte)) (now : BitVec 32)
    (hne : message ≠ []) (hle : message.length ≤ meshmsMessageMaxLen)
    (hnul : 0#8 ∉ message.dropLast) :
    MessageReadsBack myPly message now ↔ storedLength message ≤ meshmsMessageMaxLen ∧
      ((myPly.getD []).length + storedLength message + 2) % rhizomeCryptPageSize ≠ 1 := by
  obtain ⟨htext, hlength⟩ := messageText_eq hne hnul
  have hencode := encode_length (Entry.message (messageText message)).record
  obtain ⟨time, htime, h⟩ :=
    plyReadPrev_time (myPly.getD []) (Entry.message (messageText message)).record now
  have hpage : (myPly.getD []).length + storedLength message + 2 = time.offset := by
    rw [h.offset, hencode, add_assoc, storedLength, ← hlength]
    rfl
  rw [hpage, storedLength, ← hlength]
  by_cases hfits : (messageText message).length ≤ meshmsMessageMaxLen
  · have hr : (Entry.message (messageText message)).record.WellFormed :=
      ⟨(by decide : 2 < 2 ^ 4), messageText_ne_nil hne, hfits⟩
    have hsend := meshmsSendMessage_eq hne hle hfits myPly now
    constructor
    · rintro ⟨ply, time', sent, hsent, htime', -, -, hprev, -, -, hstart, -⟩
      cases hsend.symm.trans hsent
      cases htime.symm.trans htime'
      exact ⟨hfits, fun hstraddles => hstart.not_lt (h.lt hr hstraddles hprev)⟩
    · rintro ⟨-, honePage⟩
      obtain ⟨sent, hprev, htype, hrecord, hstart, hend⟩ := h.sent hr honePage
      refine ⟨_, time, sent, hsend, htime, h.type, h.record, hprev, htype, hrecord.trans htext,
        hstart, ?_⟩
      rw [hend, h.offset, hencode, hrecord, add_assoc]
  · refine iff_of_false ?_ fun hcond => hfits hcond.1
    rintro ⟨ply, time', sent, hsent, -⟩
    cases (meshmsSendMessage_too_long hne hle (not_le.mp hfits) now).symm.trans hsent

theorem meshmsSendMessage_readsBack_hi :
    MessageReadsBack (some [7#8]) [104#8, 105#8] 5#32 ∧ storedLength [104#8, 105#8] = 3 :=
  ⟨(meshmsSendMessage_readsBack_iff _ _ (by decide) (by decide) (by decide)).mpr (by decide), rfl⟩

/-- There is no room for the NUL behind a message of the greatest length. -/
theorem meshmsSendMessage_longest :
    meshmsSendMessage none (replicate 4095 97#8) 0#32 = .error .assertion := by
  have hne : replicate 4095 97#8 ≠ [] := cons_ne_nil _ _
  refine meshmsSendMessage_too_long hne (by rw [length_replicate]; decide) ?_ _
  rw [messageText_replicate 4094, length_append, length_replicate]
  decide

end ServalMesh.Meshms
