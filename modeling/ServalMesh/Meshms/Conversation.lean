import ServalMesh.Meshms.Ply

/-!
# Conversations

A party of a conversation appends its messages to its own ply, and records that acknowledge the
messages in the other ply from and up to some place. The thread is shown backwards: the own ply is
read, and at each of these records that part of the other ply.
-/

namespace ServalMesh.Meshms

open Overlay

section Appending

def writeUint32 (v : BitVec 32) : List Byte :=
  [v.setWidth 8, (v >>> 8).setWidth 8, (v >>> 16).setWidth 8, (v >>> 24).setWidth 8]

def readUint32 (bytes : List Byte) : ℕ :=
  (bytes.take 4).reverse.foldl (fun v byte => v * 2 ^ 8 + byte.toNat) 0

def appendTimestamp (now : BitVec 32) : Except Abort (List Byte) :=
  match appendFooter meshmsBlockTypeTime 4 with
  | .error e => .error e
  | .ok footer => .ok (writeUint32 now ++ footer)

def strncpy (src : List Byte) (n : ℕ) : List Byte :=
  let str := (src.take n).takeWhile (· ≠ 0#8)
  str ++ List.replicate (n - str.length) 0#8

/-- The text of a message as it is stored, terminated. -/
def messageText (message : List Byte) : List Byte :=
  let text := strncpy message message.length
  if message.getLast? ≠ some 0#8 then text ++ [0#8] else text

/-- `meshms_send_message` appends to the ply of the sender, if there is one, or to a new one. -/
def meshmsSendMessage (myPly : Option (List Byte)) (message : List Byte) (now : BitVec 32) :
    Except Abort (MeshmsStatus × Option (List Byte)) :=
  if message = [] then .error .assertion
  else if meshmsMessageMaxLen < message.length then .ok (.error, myPly)
  else
    let text := messageText message
    match appendFooter meshmsBlockTypeMessage text.length, appendTimestamp now with
    | .error e, _ => .error e
    | _, .error e => .error e
    | .ok footer, .ok timestamp =>
      .ok (.updated, some (myPly.getD [] ++ (text ++ footer ++ timestamp)))

/-- What was acknowledged last. -/
def previousAck (shift : ℕ → ℕ → ℕ) (myPly : Option (List Byte)) :
    Except Abort (MeshmsStatus × ℕ) :=
  match myPly with
  | none => .ok (.ok, 0)
  | some myPly =>
    match plyFindPrev (plyReadOpen myPly) meshmsBlockTypeAck with
    | .error e => .error e
    | .ok (status, ply) =>
      if status = .updated then
        let (previousAck, ofs) := unpackUint shift ply.record
        .ok (.ok, if ofs = none then 0 else previousAck)
      else .ok (status, 0)

/-- The part of `update_conversation` that decides whether to acknowledge their last message, given
where it was found the last time. It returns where it is now, and what to acknowledge. -/
def ackDue (shift : ℕ → ℕ → ℕ) (myPly theirPly : Option (List Byte)) (theirLastMessage : ℕ) :
    Except Abort (MeshmsStatus × ℕ × Option (ℕ × ℕ)) :=
  match theirPly with
  | none => .ok (.ok, theirLastMessage, none)
  | some theirPly =>
    match plyFindPrev (plyReadOpen theirPly) meshmsBlockTypeMessage with
    | .error e => .error e
    | .ok (status, ply) =>
      if meshmsFailed status then .ok (status, theirLastMessage, none)
      else if theirLastMessage = ply.recordEndOffset then .ok (.ok, theirLastMessage, none)
      else
        let theirLastMessage := ply.recordEndOffset
        match previousAck shift myPly with
        | .error e => .error e
        | .ok (status, previous) =>
          if meshmsFailed status then .ok (status, theirLastMessage, none)
          else if theirLastMessage ≤ previous then .ok (.updated, theirLastMessage, none)
          else .ok (.updated, theirLastMessage, some (theirLastMessage, previous))

/-- The record that acknowledges messages. -/
def ackBytes (last previous : ℕ) : List Byte :=
  packUint last ++ if previous ≠ 0 then packUint (last - previous) else []

def updateConversation (shift : ℕ → ℕ → ℕ) (myPly theirPly : Option (List Byte))
    (theirLastMessage : ℕ) (now : BitVec 32) :
    Except Abort (MeshmsStatus × ℕ × Option (List Byte)) :=
  match ackDue shift myPly theirPly theirLastMessage with
  | .error e => .error e
  | .ok (status, theirLastMessage, none) => .ok (status, theirLastMessage, myPly)
  | .ok (_, theirLastMessage, some (last, previous)) =>
    let buffer := ackBytes last previous
    match appendFooter meshmsBlockTypeAck buffer.length, appendTimestamp now with
    | .error e, _ => .error e
    | _, .error e => .error e
    | .ok footer, .ok timestamp =>
      .ok (.updated, theirLastMessage, some (myPly.getD [] ++ (buffer ++ footer ++ timestamp)))

end Appending

section Iterating

/-- What the iterator is at: a message or an acknowledgement, and where it ends in its ply. -/
inductive Shown where
  | messageSent (offset : ℕ) (text : List Byte) (delivered : Bool)
  | messageReceived (offset : ℕ) (text : List Byte) (read : Bool)
  | ackReceived (offset ackOffset : ℕ)
deriving DecidableEq

/-- `struct meshms_message_iterator`. -/
structure MessageIterator where
  latestAckOffset : ℕ
  latestAckMyOffset : ℕ
  readOffset : ℕ
  timestamp : ℕ
  foundTheirPly : Bool
  myReader : PlyRead
  theirReader : PlyRead
  endRange : ℕ
  inAck : Bool

/-- `meshms_message_iterator_open`, after the conversation was found. -/
def meshmsMessageIteratorOpen (shift : ℕ → ℕ → ℕ) (myPly theirPly : Option (List Byte))
    (readOffset : ℕ) : Except Abort (MeshmsStatus × MessageIterator) :=
  let it : MessageIterator := ⟨0, 0, readOffset, 0, theirPly.isSome, .zero, .zero, 0, false⟩
  match myPly, theirPly with
  | none, _ => .ok (.ok, it)
  | some myPly, none => .ok (.ok, { it with myReader := plyReadOpen myPly })
  | some myPly, some theirPly =>
    let it := { it with myReader := plyReadOpen myPly }
    match plyFindPrev (plyReadOpen theirPly) meshmsBlockTypeAck with
    | .error e => .error e
    | .ok (status, ply) =>
      if meshmsFailed status then .ok (status, it)
      else
        let (ackOffset, ofs) := unpackUint shift ply.record
        let it := if status = .updated then
            if ofs = none then { it with latestAckMyOffset := 0 }
            else { it with latestAckMyOffset := ackOffset, latestAckOffset := ply.recordEndOffset }
          else it
        .ok (.ok, { it with theirReader := { ply with offset := ply.content.length } })

/-- How much is left to read. -/
def MessageIterator.rank (it : MessageIterator) : ℕ ×ₗ ℕ ×ₗ ℕ :=
  toLex (it.myReader.offset, toLex (it.inAck.toNat, it.theirReader.offset))

/-- Whether a message is delivered, as far as they have acknowledged. -/
def delivered (latestAckMyOffset offset : ℕ) : Bool :=
  latestAckMyOffset ≠ 0 && offset ≤ latestAckMyOffset

/-- A round of the loop of `meshms_message_iterator_prev`: a record is read from one of the plies.
Nothing is returned if the loop goes on. -/
def iteratorRound (shift : ℕ → ℕ → ℕ) (it : MessageIterator) :
    Except Abort (Option (MeshmsStatus × Option Shown) × MessageIterator) :=
  if it.inAck then
    match plyReadPrev it.theirReader with
    | .error e => .error e
    | .ok (status, ply) =>
      let it := { it with theirReader := ply }
      if meshmsFailed status then .ok (some (status, none), it)
      else if status = .updated ∧ it.endRange ≤ ply.offset then
        if ply.type = meshmsBlockTypeAck then
          let (ackOffset, ofs) := unpackUint shift ply.record
          let ackOffset := if ofs = none then 0 else ackOffset
          .ok (some (status, some (.ackReceived ply.recordEndOffset ackOffset)), it)
        else if ply.type = meshmsBlockTypeMessage then
          if ply.recordLength ≠ 0 ∧ ply.record.getLast? = some 0#8 then
            let read := decide (ply.recordEndOffset ≤ it.readOffset)
            .ok (some (status, some (.messageReceived ply.recordEndOffset ply.record read)), it)
          else .ok (some (.protocolFault, none), it)
        else .ok (none, it)
      else .ok (none, { it with inAck := false })
  else
    match plyReadPrev it.myReader with
    | .error e => .error e
    | .ok (status, ply) =>
      let it := { it with myReader := ply }
      if status ≠ .updated then .ok (some (status, none), it)
      else if ply.type = meshmsBlockTypeTime then
        if ply.recordLength < 4 then .ok (some (.protocolFault, none), it)
        else .ok (none, { it with timestamp := readUint32 ply.record })
      else if ply.type = meshmsBlockTypeAck then
        if it.foundTheirPly then
          match unpackUint shift ply.record with
          | (offset, none) =>
            .ok (some (.protocolFault, none),
              { it with theirReader := { it.theirReader with offset := offset } })
          | (offset, some ofs) =>
            let (range, x) := unpackUint shift (ply.record.drop ofs)
            .ok (none, { it with
              endRange := if x = none then 0 else (offset + 2 ^ 64 - range) % 2 ^ 64
              theirReader := { it.theirReader with
                offset := min offset it.theirReader.content.length }
              inAck := true })
        else .ok (none, it)
      else if ply.type = meshmsBlockTypeMessage then
        let delivered := delivered it.latestAckMyOffset ply.recordEndOffset
        .ok (some (status, some (.messageSent ply.recordEndOffset ply.record delivered)), it)
      else .ok (none, it)

variable {shift : ℕ → ℕ → ℕ} {it it' : MessageIterator} {shown : Option Shown}

theorem rank_my (hlt : it'.myReader.offset < it.myReader.offset) : it'.rank < it.rank :=
  Prod.Lex.toLex_lt_toLex.mpr (.inl hlt)

theorem rank_their (hmy : it'.myReader = it.myReader) (hack : it'.inAck = it.inAck)
    (hlt : it'.theirReader.offset < it.theirReader.offset) : it'.rank < it.rank :=
  Prod.Lex.toLex_lt_toLex.mpr (.inr ⟨congrArg PlyRead.offset hmy,
    Prod.Lex.toLex_lt_toLex.mpr (.inr ⟨congrArg Bool.toNat hack, hlt⟩)⟩)

theorem rank_inAck (hmy : it'.myReader = it.myReader) (hack : it.inAck) (hack' : ¬it'.inAck) :
    it'.rank < it.rank := by
  refine Prod.Lex.toLex_lt_toLex.mpr (.inr ⟨congrArg PlyRead.offset hmy, ?_⟩)
  refine Prod.Lex.toLex_lt_toLex.mpr (.inl ?_)
  rw [hack, Bool.eq_false_of_not_eq_true hack']
  exact Nat.zero_lt_one

/-- There is less to read after a round, unless nothing more is found. -/
theorem iteratorRound_rank {returned : Option (MeshmsStatus × Option Shown)}
    (h : iteratorRound shift it = .ok (returned, it'))
    (hreturned : ∀ r ∈ returned, r.1 = .updated) : it'.rank < it.rank := by
  rw [iteratorRound] at h
  split at h
  case isTrue hack =>
    split at h
    · exact nomatch h
    rename_i status ply hprev
    dsimp only at h
    split at h
    case isTrue hfailed =>
      cases h
      obtain rfl : status = .updated := hreturned _ rfl
      exact nomatch hfailed
    split at h
    case isTrue hstatus =>
      have hit : it' = { it with theirReader := ply } := by
        split_ifs at h <;> exact (Prod.mk.inj (Except.ok.inj h)).2.symm
      obtain ⟨rfl, -⟩ := hstatus
      rw [hit]
      exact rank_their rfl rfl (plyReadPrev_lt hprev)
    case isFalse =>
      cases h
      exact rank_inAck rfl hack Bool.false_ne_true
  case isFalse =>
    split at h
    · exact nomatch h
    rename_i status ply hprev
    dsimp only at h
    split at h
    case isTrue hstatus =>
      cases h
      exact absurd (hreturned _ rfl) hstatus
    rename_i hstatus
    rw [not_not] at hstatus
    subst hstatus
    have hmy : it'.myReader = ply := by
      repeat' split at h
      all_goals exact (congrArg (·.2.myReader) (Except.ok.inj h)).symm
    exact rank_my (hmy ▸ plyReadPrev_lt hprev)

def meshmsMessageIteratorPrev (shift : ℕ → ℕ → ℕ) (it : MessageIterator) :
    Except Abort (MeshmsStatus × Option Shown × MessageIterator) :=
  match _h : iteratorRound shift it with
  | .error e => .error e
  | .ok (some (status, shown), it') => .ok (status, shown, it')
  | .ok (none, it') => meshmsMessageIteratorPrev shift it'
termination_by it.rank
decreasing_by exact iteratorRound_rank _h nofun

theorem meshmsMessageIteratorPrev_rank
    (h : meshmsMessageIteratorPrev shift it = .ok (.updated, shown, it')) : it'.rank < it.rank := by
  fun_induction meshmsMessageIteratorPrev shift it with
  | case1 => exact nomatch h
  | case2 it status shown it₁ hround =>
    obtain ⟨rfl, -, rfl⟩ : status = .updated ∧ shown = _ ∧ it₁ = it' := by simpa using h
    exact iteratorRound_rank hround fun r hr => Option.some.inj hr ▸ rfl
  | case3 it it₁ hround ih => exact (ih h).trans (iteratorRound_rank hround nofun)

/-- Call `meshms_message_iterator_prev` until it stops, and note what it shows and when that was
written. -/
def iterate (shift : ℕ → ℕ → ℕ) (it : MessageIterator) :
    Except Abort (MeshmsStatus × List (ℕ × Shown)) :=
  match _h : meshmsMessageIteratorPrev shift it with
  | .error e => .error e
  | .ok (status, shown, it') =>
    if _hstatus : status = .updated then
      match iterate shift it' with
      | .error e => .error e
      | .ok (status, later) => .ok (status, (shown.map fun s => (it'.timestamp, s)).toList ++ later)
    else .ok (status, [])
termination_by it.rank
decreasing_by
  subst _hstatus
  exact meshmsMessageIteratorPrev_rank _h

section Rounds

variable {status : MeshmsStatus} {s : Shown} {later : List (ℕ × Shown)}

theorem prev_returns (h : iteratorRound shift it = .ok (some (status, shown), it')) :
    meshmsMessageIteratorPrev shift it = .ok (status, shown, it') := by
  rw [meshmsMessageIteratorPrev]
  split
  case h_1 herror => exact nomatch h.symm.trans herror
  case h_2 status₁ shown₁ it₁ hround =>
    obtain ⟨⟨rfl, rfl⟩, rfl⟩ : (status = status₁ ∧ shown = shown₁) ∧ it' = it₁ := by
      simpa using h.symm.trans hround
    rfl
  case h_3 hnone => exact nomatch h.symm.trans hnone

theorem prev_continues (h : iteratorRound shift it = .ok (none, it')) :
    meshmsMessageIteratorPrev shift it = meshmsMessageIteratorPrev shift it' := by
  rw [meshmsMessageIteratorPrev]
  split
  case h_1 herror => exact nomatch h.symm.trans herror
  case h_2 hsome => exact nomatch h.symm.trans hsome
  case h_3 it₁ hround =>
    obtain rfl : it' = it₁ := by simpa using h.symm.trans hround
    rfl

theorem iterate_eq (shift : ℕ → ℕ → ℕ) (it : MessageIterator) :
    iterate shift it =
      match meshmsMessageIteratorPrev shift it with
      | .error e => .error e
      | .ok (status, shown, it') =>
        if status = .updated then
          match iterate shift it' with
          | .error e => .error e
          | .ok (status, later) =>
            .ok (status, (shown.map fun s => (it'.timestamp, s)).toList ++ later)
        else .ok (status, []) := by
  rw [iterate]
  split
  case h_1 herror => rw [herror]
  rename_i status shown it' hprev
  rw [hprev]
  by_cases hstatus : status = .updated
  · rw [dif_pos hstatus]
    exact (if_pos hstatus).symm
  · rw [dif_neg hstatus]
    exact (if_neg hstatus).symm

theorem iterate_continues (h : iteratorRound shift it = .ok (none, it')) :
    iterate shift it = iterate shift it' := by
  rw [iterate_eq shift it, iterate_eq shift it', prev_continues h]

theorem iterate_shows (h : iteratorRound shift it = .ok (some (.updated, some s), it'))
    (hlater : iterate shift it' = .ok (status, later)) :
    iterate shift it = .ok (status, (it'.timestamp, s) :: later) := by
  rw [iterate_eq, prev_returns h]
  dsimp only
  rw [if_pos rfl, hlater]
  rfl

theorem iterate_stops (h : iteratorRound shift it = .ok (some (status, shown), it'))
    (hstatus : status ≠ .updated) : iterate shift it = .ok (status, []) := by
  rw [iterate_eq, prev_returns h]
  exact if_neg hstatus

end Rounds

end Iterating

end ServalMesh.Meshms
