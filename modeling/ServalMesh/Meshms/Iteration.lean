import ServalMesh.Meshms.Thread

/-!
# What the iterator shows

Each record of the own ply shows something: a message itself, and an acknowledgement the records of
the other ply that it is the first to cover. The iterator shows the same, from the last record to
the first.
-/

namespace ServalMesh.Meshms

open Overlay Rhizome List Option

section Thread

variable (shift : ℕ → ℕ → ℕ) (read latest : ℕ) (theirs : List Record)

/-- What a record of the other ply shows, with where it ends. -/
def theirItem (e : ℕ × Record) : Option Shown :=
  if e.2.type = meshmsBlockTypeAck then
    some (.ackReceived e.1 (match unpackUint shift e.2.bytes with
      | (_, none) => 0
      | (ackOffset, some _) => ackOffset))
  else if e.2.type = meshmsBlockTypeMessage then
    some (.messageReceived e.1 e.2.bytes (decide (e.1 ≤ read)))
  else none

/-- The records of the other ply that end behind one offset and not behind another. -/
def partOf (low high : ℕ) : List (ℕ × Record) :=
  (located 0 theirs).filter fun e => low < e.1 ∧ e.1 ≤ high

/-- What an entry shows that ends at an offset, if this much was acknowledged before. -/
def Entry.shows (acked stop : ℕ) : Entry → List Shown
  | .message text => [.messageSent stop text (delivered latest stop)]
  | .time _ => []
  | .ack last _ => (partOf theirs acked last).filterMap (theirItem shift read)

/-- The thread, from the first message to the last. -/
def threadOf : ℕ → ℕ → List Entry → List Shown
  | _, _, [] => []
  | start, acked, e :: entries =>
    let stop := start + e.record.encode.length
    e.shows shift read latest theirs acked stop ++ threadOf stop (e.acked acked) entries

variable {shift read latest theirs}

theorem threadOf_snoc (start last : ℕ) (entries : List Entry) (e : Entry) :
    threadOf shift read latest theirs start last (entries ++ [e]) =
      threadOf shift read latest theirs start last entries ++
        e.shows shift read latest theirs (entries.foldl Entry.acked last)
          (start + (encodeAll ((entries ++ [e]).map Entry.record)).length) := by
  induction entries generalizing start last with
  | nil =>
    rw [nil_append, threadOf, threadOf, threadOf, append_nil, nil_append,
      map_cons, map_nil, encodeAll_singleton]
    rfl
  | cons x entries ih =>
    rw [cons_append, threadOf, threadOf, ih, map_cons, encodeAll_cons,
      length_append, foldl_cons, ← Nat.add_assoc, append_assoc]

/-- The other ply up to where a record ends. -/
theorem located_split {last : ℕ} {r : Record} (h : (last, r) ∈ located 0 theirs) :
    ∃ records rest, theirs = records ++ rest ∧ (encodeAll records).length = last := by
  induction theirs using List.reverseRecOn with
  | nil => exact absurd h not_mem_nil
  | append_singleton theirs r' ih =>
    rw [located_snoc] at h
    rcases mem_append.mp h with h | h
    · obtain ⟨records, rest, rfl, hlast⟩ := ih h
      exact ⟨records, rest ++ [r'], append_assoc .., hlast⟩
    · obtain ⟨rfl, rfl⟩ := Prod.mk.inj (mem_singleton.mp h)
      exact ⟨theirs ++ [r], [], (append_nil _).symm, rfl⟩

theorem partOf_eq {records rest : List Record} (low : ℕ) :
    partOf (records ++ rest) low (encodeAll records).length =
      (located 0 records).filter fun e => low < e.1 := by
  rw [partOf, located_append, filter_append]
  have hrest : (located (0 + (encodeAll records).length) rest).filter
      (fun e => low < e.1 ∧ e.1 ≤ (encodeAll records).length) = [] := by
    refine filter_eq_nil_iff.mpr fun e he => ?_
    have := located_le he
    simp only [decide_eq_true_eq, not_and]
    omega
  rw [hrest, append_nil]
  refine filter_congr fun e he => ?_
  have := located_le he
  simp only [decide_eq_decide]
  omega

end Thread

section Part

variable {shift : ℕ → ℕ → ℕ} {it : MessageIterator} {ply : PlyRead} {r : Record} {recordEnd : ℕ}

/-- A round that reads a record of the other ply in the part that is shown. -/
theorem iteratorRound_part (shift : ℕ → ℕ → ℕ) (hack : it.inAck)
    (hprev : plyReadPrev it.theirReader = .ok (.updated, ply)) (hshows : Shows ply r recordEnd)
    (hr : Receivable r) (hrange : it.endRange ≤ ply.offset) :
    iteratorRound shift it =
      .ok ((theirItem shift it.readOffset (recordEnd, r)).map fun s => (.updated, some s),
        { it with theirReader := ply }) := by
  rw [iteratorRound, if_pos hack, hprev]
  dsimp only
  rw [if_neg (by decide), if_pos ⟨rfl, hrange⟩, hshows.type, hshows.record, hshows.recordLength,
    hshows.recordEndOffset, theirItem]
  by_cases hackType : r.type = meshmsBlockTypeAck
  · rw [if_pos hackType, if_pos hackType]
    rcases unpackUint shift r.bytes with ⟨ackOffset, ofs⟩
    cases ofs with
    | none | some ofs => rfl
  · rw [if_neg hackType, if_neg hackType]
    by_cases hmessage : r.type = meshmsBlockTypeMessage
    · have hne : r.bytes.length ≠ 0 := fun hnil =>
        hr.wellFormed.bytes_ne (eq_nil_of_length_eq_zero hnil)
      rw [if_pos hmessage, if_pos hmessage, if_pos ⟨hne, hr.terminated hmessage⟩]
      rfl
    · rw [if_neg hmessage, if_neg hmessage]
      rfl

/-- A round that reads a record before the part, or nothing more. -/
theorem iteratorRound_partEnd {status : MeshmsStatus} (hack : it.inAck)
    (hprev : plyReadPrev it.theirReader = .ok (status, ply)) (hfailed : ¬meshmsFailed status)
    (hrange : status = .updated → ply.offset < it.endRange) :
    iteratorRound shift it = .ok (none, { it with theirReader := ply, inAck := false }) := by
  rw [iteratorRound, if_pos hack, hprev]
  dsimp only
  rw [if_neg hfailed, if_neg]
  rintro ⟨hstatus, hle⟩
  have := hrange hstatus
  omega

variable {theirs records rest : List Record} {tail : List Shown}

/-- An offset that is not inside a record. -/
def Boundary (theirs : List Record) (offset : ℕ) : Prop :=
  offset = 0 ∨ ∃ r, (offset, r) ∈ located 0 theirs

theorem Boundary.cases {offset : ℕ} (h : Boundary (records ++ [r] ++ rest) offset) :
    offset ≤ (encodeAll records).length ∨ (encodeAll (records ++ [r])).length ≤ offset := by
  rcases h with rfl | ⟨r', h⟩
  · exact .inl (Nat.zero_le _)
  rw [located_append, located_snoc, Nat.zero_add] at h
  rcases mem_append.mp h with h | h
  · rcases mem_append.mp h with h | h
    · have hle := (located_le h).2
      exact .inl (by omega)
    · obtain ⟨rfl, -⟩ := Prod.mk.inj (mem_singleton.mp h)
      exact .inr le_rfl
  · exact .inr (located_le h).1.le

/-- In the part of the other ply that an acknowledgement covers, each record is shown, and then the
own ply goes on. -/
theorem iterate_part (hack : it.inAck) (h : Behind it.theirReader records rest)
    (htheirs : records ++ rest = theirs) (hreadable : Readable records)
    (hreceivable : ∀ r ∈ records, Receivable r) (hbound : Boundary theirs it.endRange)
    (hnext : ∀ ply : PlyRead, ply.content = encodeAll theirs → ply.buff.Valid ply.content →
      ∃ later, iterate shift { it with theirReader := ply, inAck := false } = .ok (.ok, later) ∧
        later.map Prod.snd = tail) :
    ∃ later, iterate shift it = .ok (.ok, later) ∧
      later.map Prod.snd = (((located 0 records).filter fun e => it.endRange < e.1).filterMap
        (theirItem shift it.readOffset)).reverse ++ tail := by
  induction records using List.reverseRecOn generalizing it rest with
  | nil =>
    obtain ⟨hprev, hbehind⟩ := h.start
    rw [iterate_continues (iteratorRound_partEnd hack hprev (by decide) nofun)]
    exact hnext _ (hbehind.content.trans (congrArg encodeAll htheirs)) hbehind.valid
  | append_singleton records r ih =>
    obtain ⟨ply, hprev, hbehind, hshows⟩ := h.read hreadable
    have hcontent : ply.content = encodeAll theirs := by
      rw [hbehind.content, append_cons, htheirs]
    rcases (htheirs ▸ hbound : Boundary (records ++ [r] ++ rest) it.endRange).cases with hle | hge
    · have hround := iteratorRound_part shift hack hprev hshows
        (hreceivable r (by simp)) (hbehind.offset ▸ hle)
      obtain ⟨later, hlater, hshown⟩ := @ih { it with theirReader := ply } (r :: rest) hack hbehind
        (by rw [append_cons]; exact htheirs) hreadable.left
        (fun x hx => hreceivable x (mem_append_left _ hx)) hbound hnext
      have hlt : it.endRange < (encodeAll (records ++ [r])).length := by
        rw [encodeAll_append, encodeAll_singleton, length_append, encode_length]
        omega
      rw [located_snoc, filter_append, filterMap_append, reverse_append,
        append_assoc, filter_cons_of_pos (by simpa using hlt), filter_nil]
      cases hitem : theirItem shift it.readOffset ((encodeAll (records ++ [r])).length, r) with
      | none =>
        rw [hitem, map_none] at hround
        refine ⟨later, (iterate_continues hround).trans hlater, ?_⟩
        rwa [filterMap_cons_none hitem]
      | some s =>
        rw [hitem, map_some] at hround
        refine ⟨_, iterate_shows hround hlater, ?_⟩
        rw [filterMap_cons_some hitem, map_cons, hshown]
        rfl
    · -- the record before the part ends where the part starts
      have hempty : ((located 0 (records ++ [r])).filter fun e => it.endRange < e.1) = [] := by
        refine filter_eq_nil_iff.mpr fun e he => ?_
        have := (located_le he).2
        simp only [decide_eq_true_eq]
        omega
      have hlt : ply.offset < it.endRange := by
        rw [encodeAll_append, encodeAll_singleton, length_append, encode_length] at hge
        rw [hbehind.offset]
        omega
      rw [hempty, iterate_continues (iteratorRound_partEnd hack hprev (by decide) fun _ => hlt)]
      exact hnext ply hcontent hbehind.valid

end Part

section Own

variable {shift : ℕ → ℕ → ℕ} {it : MessageIterator} {ply : PlyRead} {theirs : List Record}
  {entries rest : List Entry} {recordEnd : ℕ}

/-- The iterator reads the own ply and is behind some entries of it. -/
structure Walks (it : MessageIterator) (theirs : List Record) (entries rest : List Entry) :
    Prop where
  own : Behind it.myReader (entries.map Entry.record) (rest.map Entry.record)
  notInAck : it.inAck = false
  content : it.theirReader.content = encodeAll theirs
  valid : it.theirReader.buff.Valid it.theirReader.content
  found : theirs ≠ [] → it.foundTheirPly

/-- Where the part of an acknowledgement starts. -/
theorem unpackUint_range (hshift : ShiftsInt shift) {last previous : ℕ} (hlt : previous < last)
    (hlast : last < 2 ^ 31) :
    (if (unpackUint shift ((ackBytes last previous).drop (packUint last).length)).2 = none then 0
      else (last + 2 ^ 64 -
        (unpackUint shift ((ackBytes last previous).drop (packUint last).length)).1) % 2 ^ 64) =
      previous := by
  rw [ackBytes, drop_left]
  split
  case isTrue hprevious =>
    have hunpack := unpackUint_packUint hshift (show last - previous < 2 ^ 31 by omega) []
    rw [append_nil] at hunpack
    rw [hunpack, if_neg (some_ne_none _)]
    omega
  case isFalse hprevious =>
    rw [not_not.mp hprevious]
    rfl

section

variable (hack : it.inAck = false) (hprev : plyReadPrev it.myReader = .ok (.updated, ply))

include hack hprev

/-- A round that reads an acknowledgement in the own ply. -/
theorem iteratorRound_ack (hshift : ShiftsInt shift) {last previous recordEnd : ℕ}
    (hshows : Shows ply (Entry.ack last previous).record recordEnd) (hlt : previous < last)
    (hlast : last < 2 ^ 31) (hfound : it.foundTheirPly)
    (hlength : last ≤ it.theirReader.content.length) :
    iteratorRound shift it = .ok (none, { it with
      myReader := ply
      endRange := previous
      theirReader := { it.theirReader with offset := last }
      inAck := true }) := by
  have hrange := unpackUint_range hshift hlt hlast
  have hunpack := unpackUint_ackBytes hshift hlast previous
  have htype : ply.type = meshmsBlockTypeAck := hshows.type
  have hrecord : ply.record = ackBytes last previous := hshows.record
  rw [iteratorRound, if_neg (by rw [hack]; decide), hprev]
  dsimp only
  rw [if_neg (not_not.mpr rfl), htype, hrecord,
    if_neg (show meshmsBlockTypeAck ≠ meshmsBlockTypeTime by decide), if_pos rfl, if_pos hfound,
    hunpack]
  dsimp only
  rw [hrange, Nat.min_eq_left hlength]

theorem iteratorRound_message (shift : ℕ → ℕ → ℕ) {text : List Byte}
    (hshows : Shows ply (Entry.message text).record recordEnd) :
    iteratorRound shift it =
      .ok (some (.updated, some (.messageSent recordEnd text
        (delivered it.latestAckMyOffset recordEnd))), { it with myReader := ply }) := by
  have htype : ply.type = meshmsBlockTypeMessage := hshows.type
  have hrecord : ply.record = text := hshows.record
  rw [iteratorRound, if_neg (by rw [hack]; decide), hprev]
  dsimp only
  rw [if_neg (not_not.mpr rfl), htype, hrecord, hshows.recordEndOffset,
    if_neg (show meshmsBlockTypeMessage ≠ meshmsBlockTypeTime by decide),
    if_neg (show meshmsBlockTypeMessage ≠ meshmsBlockTypeAck by decide), if_pos rfl]

theorem iteratorRound_time (shift : ℕ → ℕ → ℕ) {now : BitVec 32}
    (hshows : Shows ply (Entry.time now).record recordEnd) :
    iteratorRound shift it =
      .ok (none, { it with myReader := ply, timestamp := readUint32 (writeUint32 now) }) := by
  have htype : ply.type = meshmsBlockTypeTime := hshows.type
  have hrecord : ply.record = writeUint32 now := hshows.record
  have hlength : ply.recordLength = 4 := hshows.recordLength
  rw [iteratorRound, if_neg (by rw [hack]; decide), hprev]
  dsimp only
  rw [if_neg (not_not.mpr rfl), if_pos htype, hlength, if_neg (Nat.lt_irrefl 4), hrecord]

end

theorem iteratorRound_start (shift : ℕ → ℕ → ℕ) (hack : it.inAck = false)
    (hprev : plyReadPrev it.myReader = .ok (.ok, ply)) :
    iteratorRound shift it = .ok (some (.ok, none), { it with myReader := ply }) := by
  rw [iteratorRound, if_neg (by rw [hack]; decide), hprev]
  rfl

/-- Every acknowledgement begins where the last one ended, and ends behind a record. -/
def AcksInOrder (theirs : List Record) (entries : List Entry) : Prop :=
  ∀ before last previous after, entries = before ++ .ack last previous :: after →
    previous = acked before ∧ previous < last ∧ ∃ r, (last, r) ∈ located 0 theirs

theorem AcksInOrder.init {e : Entry} (h : AcksInOrder theirs (entries ++ [e])) :
    AcksInOrder theirs entries := by
  intro before last previous after hsplit
  refine h before last previous (after ++ [e]) ?_
  rw [hsplit, append_assoc, cons_append]

theorem boundary_acked (hacks : AcksInOrder theirs entries) : Boundary theirs (acked entries) := by
  induction entries using List.reverseRecOn with
  | nil => exact .inl rfl
  | append_singleton entries e ih =>
    have ih := ih hacks.init
    cases e with
    | message | time =>
      rwa [acked_append]
      nofun
    | ack last previous =>
      rw [acked_ack]
      exact .inr (hacks entries last previous [] rfl).2.2

/-- The iterator shows the thread, from the last message to the first. -/
theorem iterate_own (hshift : ShiftsInt shift) (h : Walks it theirs entries rest)
    (hreadable : Readable (entries.map Entry.record)) (htheirs : Readable theirs)
    (hreceivable : ∀ r ∈ theirs, Receivable r) (hsize : (encodeAll theirs).length < 2 ^ 31)
    (hacks : AcksInOrder theirs entries) :
    ∃ later, iterate shift it = .ok (.ok, later) ∧ later.map Prod.snd =
      (threadOf shift it.readOffset it.latestAckMyOffset theirs 0 0 entries).reverse := by
  induction entries using List.reverseRecOn generalizing it rest with
  | nil =>
    obtain ⟨hprev, -⟩ := h.own.start
    exact ⟨[], iterate_stops (iteratorRound_start shift h.notInAck hprev) (by decide), rfl⟩
  | append_singleton entries e ih =>
    have hown := h.own
    rw [map_append, map_singleton] at hown hreadable
    obtain ⟨ply, hprev, hbehind, hshows⟩ := hown.read hreadable
    have hacks' := hacks.init
    have hwalks : ∀ it' : MessageIterator, it'.myReader = ply → it'.inAck = false →
        it'.theirReader.content = encodeAll theirs →
        it'.theirReader.buff.Valid it'.theirReader.content →
        it'.foundTheirPly = it.foundTheirPly → Walks it' theirs entries (e :: rest) := by
      intro it' hmy hack hcontent hvalid hfound
      exact ⟨hmy ▸ hbehind, hack, hcontent, hvalid, fun hne => hfound ▸ h.found hne⟩
    rw [threadOf_snoc, reverse_append, Nat.zero_add, map_append, map_singleton,
      ← acked]
    cases e with
    | message text =>
      have hround := iteratorRound_message h.notInAck hprev shift hshows
      obtain ⟨later, hlater, hshown⟩ :=
        ih (hwalks { it with myReader := ply } rfl h.notInAck h.content h.valid rfl)
          hreadable.left hacks'
      refine ⟨_, iterate_shows hround hlater, ?_⟩
      rw [map_cons, hshown]
      rfl
    | time now =>
      have hround := iteratorRound_time h.notInAck hprev shift hshows
      obtain ⟨later, hlater, hshown⟩ := ih (hwalks { it with
          myReader := ply
          timestamp := readUint32 (writeUint32 now) } rfl h.notInAck h.content h.valid rfl)
        hreadable.left hacks'
      exact ⟨later, (iterate_continues hround).trans hlater, hshown⟩
    | ack last previous =>
      obtain ⟨rfl, hlt, r, hlast⟩ := hacks entries last previous [] rfl
      obtain ⟨records, others, rfl, rfl⟩ := located_split hlast
      have hne : records ++ others ≠ [] := by
        intro hnil
        rw [hnil] at hlast
        cases hlast
      have hle := (located_le hlast).2
      rw [Nat.zero_add, ← h.content] at hle
      have hround := iteratorRound_ack h.notInAck hprev hshift hshows hlt
        (by rw [h.content] at hle; omega) (h.found hne) hle
      obtain ⟨later, hlater, hshown⟩ := @iterate_part shift { it with
          myReader := ply
          endRange := acked entries
          theirReader := { it.theirReader with offset := (encodeAll records).length }
          inAck := true } (records ++ others) records others
        (threadOf shift it.readOffset it.latestAckMyOffset (records ++ others) 0 0 entries).reverse
        rfl ⟨h.content, rfl, h.valid⟩ rfl
        htheirs.left (fun x hx => hreceivable x (mem_append_left _ hx))
        (boundary_acked hacks')
        (fun theirReader hcontent hvalid => ih (hwalks { it with
            myReader := ply
            endRange := acked entries
            theirReader
            inAck := false } rfl rfl hcontent hvalid rfl) hreadable.left hacks')
      refine ⟨later, (iterate_continues hround).trans hlater, ?_⟩
      rw [hshown, Entry.shows, partOf_eq]

end Own

section Shown

variable {shift : ℕ → ℕ → ℕ} {theirs : List Record} {entries : List Entry} {t : Thread}
  {message : List Byte}

/-- The message that a record holds, with where it ends. -/
def messageOf (e : ℕ × Record) : Option (ℕ × List Byte) :=
  if e.2.type = meshmsBlockTypeMessage then some (e.1, e.2.bytes) else none

def Shown.sent : Shown → Option (ℕ × List Byte)
  | .messageSent offset text _ => some (offset, text)
  | _ => none

def Shown.received : Shown → Option (ℕ × List Byte)
  | .messageReceived offset text _ => some (offset, text)
  | _ => none

theorem sent_theirItem (shift : ℕ → ℕ → ℕ) (read : ℕ) (e : ℕ × Record) :
    (theirItem shift read e).bind Shown.sent = none := by
  rw [theirItem]
  split
  · rfl
  · split <;> rfl

theorem received_theirItem (shift : ℕ → ℕ → ℕ) (read : ℕ) (e : ℕ × Record) :
    (theirItem shift read e).bind Shown.received = messageOf e := by
  rw [theirItem, messageOf]
  split
  case isTrue hack =>
    rw [hack]
    rfl
  · split <;> rfl

/-- The messages that were sent are shown once. -/
theorem threadOf_sent (read latest start last : ℕ) :
    (threadOf shift read latest theirs start last entries).filterMap Shown.sent =
      (located start (entries.map Entry.record)).filterMap messageOf := by
  induction entries generalizing start last with
  | nil => rfl
  | cons e entries ih =>
    rw [threadOf, filterMap_append, ih, map_cons, located]
    cases e with
    | message text | time now => rfl
    | ack last' previous =>
      rw [Entry.shows, filterMap_filterMap, filterMap_congr fun e _ =>
        sent_theirItem shift read e, filterMap_cons_none (by rfl)]
      simp

/-- No record ends before the first one starts. -/
theorem located_filter_nil {start low : ℕ} (h : low ≤ start) :
    ((located start theirs).filter fun e => e.1 ≤ low) = [] := by
  refine filter_eq_nil_iff.mpr fun e he => ?_
  have := (located_le he).1
  simp only [decide_eq_true_eq]
  omega

/-- The records that end by an offset, and those that end between it and another. -/
theorem located_filter {start low high : ℕ} (hle : low ≤ high) :
    ((located start theirs).filter fun e => e.1 ≤ low) ++
        ((located start theirs).filter fun e => low < e.1 ∧ e.1 ≤ high) =
      (located start theirs).filter fun e => e.1 ≤ high := by
  induction theirs generalizing start with
  | nil => rfl
  | cons r theirs ih =>
    have ih := @ih (start + r.encode.length)
    rw [located]
    by_cases hlow : start + r.encode.length ≤ low
    · rw [filter_cons_of_pos (by simpa using hlow),
        filter_cons_of_neg (by simp; omega), filter_cons_of_pos (by simp; omega),
        cons_append, ih]
    -- all the others end later
    have hnone := @located_filter_nil theirs _ _ (not_le.mp hlow).le
    rw [hnone, nil_append] at ih
    rw [filter_cons_of_neg (by simpa using hlow), hnone, nil_append, filter_cons,
      filter_cons, ih]
    exact if_congr (by simp; omega) rfl rfl

/-- The messages that were received and acknowledged are shown once. -/
theorem threadOf_received (read latest : ℕ) (hacks : AcksInOrder theirs entries) :
    (threadOf shift read latest theirs 0 0 entries).filterMap Shown.received =
      ((located 0 theirs).filter fun e => e.1 ≤ acked entries).filterMap messageOf := by
  induction entries using List.reverseRecOn with
  | nil =>
    rw [located_filter_nil (show acked [] ≤ 0 from le_rfl)]
    rfl
  | append_singleton entries e ih =>
    rw [threadOf_snoc, filterMap_append, ih hacks.init, ← acked]
    cases e with
    | message | time =>
      rw [acked_append]
      · exact append_nil _
      · exact forall_mem_singleton.mpr (of_decide_eq_true rfl)
    | ack last previous =>
      obtain ⟨rfl, hlt, -⟩ := hacks entries last previous [] rfl
      rw [Entry.shows, filterMap_filterMap, filterMap_congr fun e _ =>
        received_theirItem shift read e, acked_ack, ← filterMap_append, partOf,
        located_filter hlt.le]

/-- The iterator is opened behind both plies. -/
theorem Thread.Logged.iteratorOpen (h : t.Logged) (hpaged : t.Paged) (shift : ℕ → ℕ → ℕ)
    (readOffset : ℕ) (hmine : t.myPly ≠ none) :
    ∃ it, meshmsMessageIteratorOpen shift t.myPly t.theirPly readOffset = .ok (.ok, it) ∧
      it.readOffset = readOffset ∧ Walks it t.theirs t.mine [] := by
  obtain ⟨myPly, hmy⟩ := ne_none_iff_exists'.mp hmine
  have hmyContent := h.mine
  rw [hmy, getD_some] at hmyContent
  have hown := behind_open (t.mine.map Entry.record)
  rw [hmy, hmyContent]
  cases htheir : t.theirPly with
  | none =>
    refine ⟨_, rfl, rfl, hown, rfl, ?_, .inl rfl, fun hne => absurd (h.noTheirs htheir) hne⟩
    rw [h.noTheirs htheir]
    rfl
  | some theirPly =>
    have htheirContent := h.theirs
    rw [htheir, getD_some] at htheirContent
    rw [htheirContent, meshmsMessageIteratorOpen]
    rcases (behind_open t.theirs).find (h.readable_theirs hpaged) meshmsBlockTypeAck with
      ⟨before, r, after, ply, hsplit, -, -, hfind, hbehind, -⟩ | ⟨ply, -, hfind, hbehind, -⟩
    · have hcontent := hbehind.content
      rw [append_nil, ← hsplit] at hcontent
      rw [hfind]
      dsimp only
      rcases unpackUint shift ply.record with ⟨ackOffset, ofs⟩
      cases ofs with
      | none | some ofs => exact ⟨_, rfl, rfl, hown, rfl, hcontent, hbehind.valid, fun _ => rfl⟩
    · have hcontent := hbehind.content
      rw [nil_append, append_nil] at hcontent
      rw [hfind]
      dsimp only
      exact ⟨_, rfl, rfl, hown, rfl, hcontent, hbehind.valid, fun _ => rfl⟩

/-- Without an own ply there is nothing to show. -/
theorem iterate_noPly (shift : ℕ → ℕ → ℕ) (theirPly : Option (List Byte)) (readOffset : ℕ) :
    ∃ it, meshmsMessageIteratorOpen shift none theirPly readOffset = .ok (.ok, it) ∧
      iterate shift it = .ok (.ok, []) := by
  have hprev := @plyReadPrev_start PlyRead.zero rfl
  exact ⟨_, rfl, iterate_stops (iteratorRound_start shift rfl hprev) (by decide)⟩

/-- In every thread whose plies have no footer on two pages, the iterator stops after it has shown
the thread backwards: each message sent is shown once, and each message received that was
acknowledged, where it was acknowledged. -/
theorem iterate_shows_thread {steps : List ThreadStep} (hshift : ShiftsInt shift)
    (hrun : runThread shift steps Thread.empty = .ok t) (hpaged : t.Paged) (readOffset : ℕ) :
    ∃ it shown, meshmsMessageIteratorOpen shift t.myPly t.theirPly readOffset = .ok (.ok, it) ∧
      iterate shift it = .ok (.ok, shown) ∧
      (shown.map Prod.snd).reverse =
        threadOf shift readOffset it.latestAckMyOffset t.theirs 0 0 t.mine ∧
      (shown.map Prod.snd).reverse.filterMap Shown.sent =
        (located 0 (t.mine.map Entry.record)).filterMap messageOf ∧
      (shown.map Prod.snd).reverse.filterMap Shown.received =
        ((located 0 t.theirs).filter fun e => e.1 ≤ acked t.mine).filterMap messageOf := by
  have h := Thread.Logged.empty.run hshift hrun hpaged
  have hiterate : ∃ it shown,
      meshmsMessageIteratorOpen shift t.myPly t.theirPly readOffset = .ok (.ok, it) ∧
      iterate shift it = .ok (.ok, shown) ∧ (shown.map Prod.snd).reverse =
        threadOf shift readOffset it.latestAckMyOffset t.theirs 0 0 t.mine := by
    by_cases hmine : t.myPly = none
    · obtain ⟨it, hopen, hit⟩ := iterate_noPly shift t.theirPly readOffset
      rw [hmine, h.noMine hmine]
      exact ⟨it, [], hopen, hit, rfl⟩
    obtain ⟨it, hopen, hread, hwalks⟩ := h.iteratorOpen hpaged shift readOffset hmine
    obtain ⟨shown, hit, hshown⟩ := iterate_own hshift hwalks (h.readable_mine hpaged)
      (h.readable_theirs hpaged) h.receivable hpaged.size h.acks
    refine ⟨it, shown, hopen, hit, ?_⟩
    rw [hshown, reverse_reverse, hread]
  obtain ⟨it, shown, hopen, hit, hshown⟩ := hiterate
  refine ⟨it, shown, hopen, hit, hshown, ?_, ?_⟩
  · rw [hshown, threadOf_sent]
  · rw [hshown, threadOf_received _ _ h.acks]

/-- A message is received and acknowledged, one is sent, and a second one waits for its ACK. -/
theorem iterate_shows_thread_acked :
    let steps : List ThreadStep := [
      .receive ⟨meshmsBlockTypeMessage, [111#8, 0#8]⟩
        ⟨⟨by decide, by decide, by decide⟩, fun _ => rfl⟩,
      .update 0 5#32, .send [104#8, 105#8] 7#32,
      .receive ⟨meshmsBlockTypeMessage, [112#8, 0#8]⟩
        ⟨⟨by decide, by decide, by decide⟩, fun _ => rfl⟩]
    ∃ t it shown, runThread (shiftUint .x86) steps Thread.empty = .ok t ∧
      meshmsMessageIteratorOpen (shiftUint .x86) t.myPly t.theirPly 0 = .ok (.ok, it) ∧
      iterate (shiftUint .x86) it = .ok (.ok, shown) ∧
      (shown.map Prod.snd).reverse.filterMap Shown.sent = [(14, [104#8, 105#8, 0#8])] ∧
      (shown.map Prod.snd).reverse.filterMap Shown.received = [(4, [111#8, 0#8])] := by
  intro steps
  let t : Thread := ⟨some [4#8, 17#8, 0#8, 5#8, 0#8, 0#8, 0#8, 67#8, 0#8, 104#8, 105#8, 0#8, 50#8,
      0#8, 7#8, 0#8, 0#8, 0#8, 67#8, 0#8],
    some [111#8, 0#8, 34#8, 0#8, 112#8, 0#8, 34#8, 0#8],
    [.ack 4 0, .time 5#32, .message [104#8, 105#8, 0#8], .time 7#32],
    [⟨meshmsBlockTypeMessage, [111#8, 0#8]⟩, ⟨meshmsBlockTypeMessage, [112#8, 0#8]⟩]⟩
  have hrun : runThread (shiftUint .x86) steps Thread.empty = .ok t := by
    with_unfolding_all rfl
  obtain ⟨it, shown, hopen, hit, -, hsent, hreceived⟩ := iterate_shows_thread
    (shiftsInt_shiftUint .x86) hrun ⟨by decide +kernel, by decide, by decide +kernel⟩ 0
  exact ⟨t, it, shown, hrun, hopen, hit, hsent.trans (by decide +kernel),
    hreceived.trans (by decide +kernel)⟩

theorem runThread_send {now : BitVec 32} {myPly : List Byte}
    (hsend : meshmsSendMessage none message now = .ok (.updated, some myPly)) :
    runThread shift [.send message now] Thread.empty =
      .ok ⟨some myPly, none, [.message (messageText message), .time now], []⟩ := by
  rw [runThread, Thread.step, Thread.empty]
  rw [hsend]
  rfl

/-- A message that was sent is not shown. -/
theorem iterate_loses_message :
    ∃ t it, runThread (fun v i => v * 2 ^ i) [.send (List.replicate 4094 97#8) 0#32] Thread.empty =
        .ok t ∧
      meshmsMessageIteratorOpen (fun v i => v * 2 ^ i) t.myPly t.theirPly 0 = .ok (.ok, it) ∧
      iterate (fun v i => v * 2 ^ i) it = .ok (.ok, []) ∧
      (located 0 (t.mine.map Entry.record)).filterMap messageOf =
        [(4097, List.replicate 4094 97#8 ++ [0#8])] := by
  have htext := messageText_replicate 4093
  have hlength : (List.replicate 4094 97#8 ++ [0#8]).length = 4095 := by
    rw [length_append, length_replicate]
    rfl
  have hsend := @meshmsSendMessage_eq (List.replicate 4094 97#8)
    (ne_nil_of_length_pos (by rw [length_replicate]; decide))
    (by rw [length_replicate]; decide) (by rw [htext, hlength]; decide) none 0#32
  have hrun := @runThread_send (fun v i => v * 2 ^ i) _ _ _ hsend
  rw [htext, getD_none, nil_append] at hrun
  generalize List.replicate 4094 97#8 ++ [0#8] = text at *
  have hencode : (Entry.message text).record.encode.length = 4097 := by
    rw [encode_length]
    exact congrArg (· + 2) hlength
  have hr : (Entry.message text).record.WellFormed :=
    ⟨(by decide : 2 < 2 ^ 4), ne_nil_of_length_pos (by rw [Entry.record, hlength]; decide),
      hlength.le⟩
  refine ⟨_, _, hrun, rfl, ?_, ?_⟩
  · -- the time is read from the second page, which then is in the buffer
    have htime := @plyReadPrev_page (plyReadOpen _) (Entry.time 0#32).record
      (Entry.message text).record.encode [] (by rw [append_nil]; rfl) (length_append ..)
      (time_wellFormed _) (by rw [hencode]; decide) (.inl rfl)
    obtain ⟨ply, hmessage⟩ := (@plyReadPrev_twoPages { plyReadOpen
        ((Entry.message text).record.encode ++ (Entry.time 0#32).record.encode) with
      offset := (Entry.message text).record.encode.length
      buff := pageOf ((Entry.message text).record.encode ++ (Entry.time 0#32).record.encode)
        (Entry.message text).record.encode.length
      recordEndOffset := (plyReadOpen
        ((Entry.message text).record.encode ++ (Entry.time 0#32).record.encode)).offset
      recordLength := (Entry.time 0#32).record.bytes.length
      type := (Entry.time 0#32).record.type
      record := (Entry.time 0#32).record.bytes } _ [] _ rfl (Nat.zero_add _).symm hr
      (by dsimp only; rw [hencode]; rfl) rfl).1 rfl
    rw [iterate_continues (iteratorRound_time rfl htime _ ⟨rfl, rfl, rfl, rfl⟩)]
    exact iterate_stops (iteratorRound_start _ rfl hmessage) (by decide)
  · rw [map_cons, located, hencode]
    rfl

end Shown

end ServalMesh.Meshms
