import ServalMesh.Meshms.Conversation

/-!
# Threads

The records of the own ply that acknowledge messages divide the other ply into consecutive parts.
Reading the thread backwards therefore shows every message once, as long as no footer is on two
pages: then the reader loses its place.
-/

namespace ServalMesh.Meshms

open Overlay Rhizome List

section Runs

/-- What a party appends to its ply. -/
inductive Entry where
  | message (text : List Byte)
  | time (now : BitVec 32)
  | ack (last previous : ℕ)
deriving DecidableEq

def Entry.record : Entry → Record
  | .message text => ⟨meshmsBlockTypeMessage, text⟩
  | .time now => ⟨meshmsBlockTypeTime, writeUint32 now⟩
  | .ack last previous => ⟨meshmsBlockTypeAck, ackBytes last previous⟩

/-- A record that the other party may append to its ply. -/
structure Receivable (r : Record) : Prop where
  wellFormed : r.WellFormed
  terminated : r.type = meshmsBlockTypeMessage → r.bytes.getLast? = some 0#8

/-- The plies of a conversation, and what was appended to them. -/
structure Thread where
  myPly : Option (List Byte)
  theirPly : Option (List Byte)
  mine : List Entry
  theirs : List Record

def Thread.empty : Thread := ⟨none, none, [], []⟩

inductive ThreadStep where
  | send (message : List Byte) (now : BitVec 32)
  | receive (r : Record) (h : Receivable r)
  | update (theirLastMessage : ℕ) (now : BitVec 32)

def Thread.step (shift : ℕ → ℕ → ℕ) (t : Thread) : ThreadStep → Except Abort Thread
  | .send message now =>
    match meshmsSendMessage t.myPly message now with
    | .error e => .error e
    | .ok (status, myPly) =>
      let sent := if status = .updated then [.message (messageText message), .time now] else []
      .ok { t with myPly, mine := t.mine ++ sent }
  | .receive r _ =>
    .ok { t with theirPly := some (t.theirPly.getD [] ++ r.encode), theirs := t.theirs ++ [r] }
  | .update theirLastMessage now =>
    match ackDue shift t.myPly t.theirPly theirLastMessage,
        updateConversation shift t.myPly t.theirPly theirLastMessage now with
    | .error e, _ => .error e
    | _, .error e => .error e
    | .ok (_, _, due), .ok (_, _, myPly) =>
      let acks := due.toList.flatMap fun (last, previous) => [.ack last previous, .time now]
      .ok { t with myPly, mine := t.mine ++ acks }

def runThread (shift : ℕ → ℕ → ℕ) : List ThreadStep → Thread → Except Abort Thread
  | [], t => .ok t
  | s :: steps, t =>
    match t.step shift s with
    | .error e => .error e
    | .ok t => runThread shift steps t

/-- What was acknowledged last, behind an entry. -/
def Entry.acked (last : ℕ) : Entry → ℕ
  | .ack last' _ => last'
  | _ => last

def acked (mine : List Entry) : ℕ := mine.foldl Entry.acked 0

end Runs

section Acknowledged

variable {mine before after : List Entry} {last previous : ℕ}

theorem acked_append (hafter : ∀ e ∈ after, e.record.type ≠ meshmsBlockTypeAck) :
    acked (before ++ after) = acked before := by
  rw [acked, foldl_append, ← acked]
  induction after with
  | nil => rfl
  | cons e after ih =>
    have he := hafter e mem_cons_self
    have ih := ih (forall_mem_cons.mp hafter).2
    cases e with
    | message text | time now => exact ih
    | ack last' previous => exact absurd rfl he

theorem acked_ack (before : List Entry) (last previous : ℕ) :
    acked (before ++ [.ack last previous]) = last := by
  rw [acked, foldl_append]
  rfl

end Acknowledged

section Logged

/-- The plies hold what was appended, and what was acknowledged divides the other ply. -/
structure Thread.Logged (t : Thread) : Prop where
  mine : t.myPly.getD [] = encodeAll (t.mine.map Entry.record)
  theirs : t.theirPly.getD [] = encodeAll t.theirs
  noMine : t.myPly = none → t.mine = []
  noTheirs : t.theirPly = none → t.theirs = []
  wellFormed : ∀ e ∈ t.mine, e.record.WellFormed
  receivable : ∀ r ∈ t.theirs, Receivable r
  acks : ∀ before last previous after, t.mine = before ++ .ack last previous :: after →
    previous = acked before ∧ previous < last ∧ ∃ r, (last, r) ∈ located 0 t.theirs

/-- No footer is on two pages, and offsets in their ply fit into an `int`. -/
structure Thread.Paged (t : Thread) : Prop where
  mine : OnePage (t.mine.map Entry.record)
  theirs : OnePage t.theirs
  size : (encodeAll t.theirs).length < 2 ^ 31

variable {shift : ℕ → ℕ → ℕ} {t t' : Thread} {steps : List ThreadStep} {s : ThreadStep}

theorem Thread.Logged.readable_mine (h : t.Logged) (hpaged : t.Paged) :
    Readable (t.mine.map Entry.record) :=
  ⟨forall_mem_map.mpr h.wellFormed, hpaged.mine⟩

theorem Thread.Logged.readable_theirs (h : t.Logged) (hpaged : t.Paged) : Readable t.theirs :=
  ⟨fun r hr => (h.receivable r hr).wellFormed, hpaged.theirs⟩

theorem unpackUint_ackBytes (hshift : ShiftsInt shift) {last : ℕ} (hlast : last < 2 ^ 31)
    (previous : ℕ) :
    unpackUint shift (ackBytes last previous) = (last, some (packUint last).length) :=
  unpackUint_packUint hshift hlast _

/-- What was acknowledged last is found in the own ply. -/
theorem Thread.Logged.previousAck (h : t.Logged) (hpaged : t.Paged) (hshift : ShiftsInt shift) :
    previousAck shift t.myPly = .ok (.ok, acked t.mine) := by
  cases hply : t.myPly with
  | none =>
    rw [h.noMine hply]
    rfl
  | some myPly =>
    have hmine := h.mine
    rw [hply, Option.getD_some] at hmine
    rw [Meshms.previousAck, hmine]
    rcases (behind_open (t.mine.map Entry.record)).find (h.readable_mine hpaged)
        meshmsBlockTypeAck with
      ⟨records, r, records', ply, hsplit, htype, hrecords', hfind, -, hshows⟩ |
      ⟨ply, hnone, hfind, -, -⟩
    · obtain ⟨before, rest, hentries, rfl, hrest⟩ := map_eq_append_iff.mp hsplit
      obtain ⟨e, after, rfl, rfl, rfl⟩ := map_eq_cons_iff.mp hrest
      cases e with
      | message text | time now => exact nomatch htype
      | ack last previous =>
        obtain ⟨-, -, r, hlast⟩ := h.acks before last previous after hentries
        have hlt := (located_le hlast).2
        have hsize := hpaged.size
        have hunpack := unpackUint_ackBytes hshift (show last < 2 ^ 31 by omega) previous
        have hacked : acked t.mine = last := by
          rw [hentries, append_cons, acked_append, acked_ack]
          exact fun x hx => hrecords' _ (mem_map_of_mem hx)
        rw [hfind]
        dsimp only
        rw [if_pos rfl, hshows.record, Entry.record]
        rw [hunpack, hacked]
        rfl
    · have hacked : acked ([] ++ t.mine) = acked [] :=
        acked_append fun x hx => hnone _ (mem_map_of_mem hx)
      rw [nil_append] at hacked
      rw [hfind, hacked]
      rfl

/-- What is acknowledged comes behind what was acknowledged before, and ends with a record. -/
theorem Thread.Logged.ackDue (h : t.Logged) (hpaged : t.Paged) (hshift : ShiftsInt shift)
    {status : MeshmsStatus} {theirLastMessage theirLastMessage' last previous : ℕ}
    (hdue : ackDue shift t.myPly t.theirPly theirLastMessage =
      .ok (status, theirLastMessage', some (last, previous))) :
    previous = acked t.mine ∧ previous < last ∧ ∃ r, (last, r) ∈ located 0 t.theirs := by
  cases hply : t.theirPly with
  | none =>
    rw [hply, Meshms.ackDue] at hdue
    exact nomatch hdue
  | some theirPly =>
    have htheirs := h.theirs
    rw [hply, Option.getD_some] at htheirs
    rw [hply, Meshms.ackDue, htheirs, h.previousAck hpaged hshift] at hdue
    rcases (behind_open t.theirs).find (h.readable_theirs hpaged) meshmsBlockTypeMessage with
      ⟨before, r, after, ply, hsplit, -, -, hfind, -, hshows⟩ | ⟨ply, -, hfind, -, hend⟩
    · rw [hfind] at hdue
      dsimp only at hdue
      rw [hshows.recordEndOffset, if_neg (by decide)] at hdue
      split at hdue
      · exact nomatch hdue
      rw [if_neg (by decide)] at hdue
      split at hdue
      · exact nomatch hdue
      case isFalse hlt =>
        obtain ⟨-, -, rfl, rfl⟩ := hdue
        refine ⟨rfl, not_le.mp hlt, r, ?_⟩
        rw [hsplit, append_cons, located_append, located_snoc]
        exact mem_append_left _ (mem_append_right _ mem_cons_self)
    · rw [hfind] at hdue
      dsimp only at hdue
      rw [hend, if_neg (by decide)] at hdue
      split at hdue <;> exact nomatch hdue

theorem appendFooter_ok {type messageLen : ℕ} {bytes : List Byte}
    (h : appendFooter type messageLen = .ok bytes) :
    messageLen ≤ meshmsMessageMaxLen ∧ bytes = footer type messageLen := by
  rw [appendFooter] at h
  split at h
  case isTrue hle => exact ⟨hle, (Except.ok.inj h).symm⟩
  case isFalse => exact nomatch h

theorem appendTimestamp_eq (now : BitVec 32) :
    appendTimestamp now = .ok (Entry.time now).record.encode := rfl

theorem time_wellFormed (now : BitVec 32) : (Entry.time now).record.WellFormed :=
  ⟨(by decide : 3 < 2 ^ 4), cons_ne_nil _ _, (by decide : 4 ≤ 4095)⟩

/-- Appending a record and the time to the own ply. -/
theorem Thread.Logged.append (h : t.Logged) (e : Entry) (now : BitVec 32) (he : e.record.WellFormed)
    (hack : ∀ last previous, e = .ack last previous →
      previous = acked t.mine ∧ previous < last ∧ ∃ r, (last, r) ∈ located 0 t.theirs) :
    Logged { t with
      myPly := some (t.myPly.getD [] ++ (e.record.encode ++ (Entry.time now).record.encode))
      mine := t.mine ++ [e, .time now] } where
  mine := by
    rw [Option.getD_some, h.mine, map_append, encodeAll_append, map_cons, map_cons,
      map_nil, encodeAll_cons, encodeAll_singleton]
  theirs := h.theirs
  noMine hnone := nomatch hnone
  noTheirs := h.noTheirs
  wellFormed := forall_mem_append.mpr ⟨h.wellFormed,
    forall_mem_cons.mpr ⟨he, forall_mem_singleton.mpr (time_wellFormed now)⟩⟩
  receivable := h.receivable
  acks before last previous after hsplit := by
    rcases append_eq_append_iff.mp hsplit with ⟨more, rfl, hmore⟩ | ⟨more, hmine, hmore⟩
    · -- the new record is before the acknowledgement, or it is the acknowledgement
      rcases cons_eq_append_iff.mp hmore with ⟨rfl, hcons⟩ | ⟨more', rfl, hmore'⟩
      · obtain ⟨rfl, -⟩ := List.cons.inj hcons
        rw [append_nil]
        exact hack last previous rfl
      · rcases cons_eq_append_iff.mp hmore' with ⟨-, hcons⟩ | ⟨more'', -, hnil⟩
        · exact nomatch (List.cons.inj hcons).1
        · exact absurd hnil.symm (append_ne_nil_of_right_ne_nil _ (cons_ne_nil _ _))
    · rcases cons_eq_append_iff.mp hmore with ⟨rfl, hcons⟩ | ⟨more', rfl, hmore'⟩
      · obtain ⟨rfl, -⟩ := List.cons.inj hcons.symm
        rw [append_nil] at hmine
        rw [← hmine]
        exact hack last previous rfl
      · exact h.acks before last previous more' hmine

theorem messageText_ne_nil {message : List Byte} (hne : message ≠ []) :
    messageText message ≠ [] := by
  have hlength : message.length ≤ (strncpy message message.length).length := by
    rw [strncpy, length_append, length_replicate]
    omega
  have hpos := length_pos_iff.mpr hne
  intro hnil
  rw [messageText] at hnil
  split at hnil
  · exact absurd hnil (append_ne_nil_of_right_ne_nil _ (cons_ne_nil _ _))
  · rw [hnil, length_nil] at hlength
    omega

/-- A message without a NUL before its end is terminated by one NUL. -/
theorem messageText_eq {message : List Byte} (hne : message ≠ [])
    (hnul : 0#8 ∉ message.dropLast) :
    messageText message = message.takeWhile (· ≠ 0#8) ++ [0#8] ∧ (messageText message).length =
      if message.getLast? = some 0#8 then message.length else message.length + 1 := by
  obtain ⟨init, last, rfl⟩ := (eq_nil_or_concat' message).resolve_left hne
  rw [dropLast_concat] at hnul
  have hinit : ∀ c ∈ init, decide (c ≠ 0#8) = true := by
    intro c hc
    rw [decide_eq_true_eq]
    rintro rfl
    exact hnul hc
  rw [messageText, strncpy, take_length, takeWhile_append_of_pos hinit, getLast?_concat]
  by_cases hlast : last = 0#8
  · subst hlast
    simp
  · simp [hlast]

theorem messageText_replicate (n : ℕ) :
    messageText (replicate (n + 1) 97#8) = replicate (n + 1) 97#8 ++ [0#8] := by
  have hne : replicate (n + 1) 97#8 ≠ [] := cons_ne_nil _ _
  have hnul : 0#8 ∉ (replicate (n + 1) 97#8).dropLast := fun hmem =>
    absurd (eq_of_mem_replicate (mem_of_mem_dropLast hmem)) (by decide)
  rw [(messageText_eq hne hnul).1, takeWhile_replicate, if_pos (by decide)]

theorem meshmsSendMessage_eq {message : List Byte} (hne : message ≠ [])
    (hle : message.length ≤ meshmsMessageMaxLen)
    (htext : (messageText message).length ≤ meshmsMessageMaxLen) (myPly : Option (List Byte))
    (now : BitVec 32) :
    meshmsSendMessage myPly message now = .ok (.updated, some (myPly.getD [] ++
      ((Entry.message (messageText message)).record.encode ++
        (Entry.time now).record.encode))) := by
  rw [meshmsSendMessage, if_neg hne, if_neg (not_lt.mpr hle)]
  dsimp only
  rw [appendFooter, if_pos htext, appendTimestamp_eq]
  rfl

theorem ackBytes_ne_nil (last previous : ℕ) : ackBytes last previous ≠ [] :=
  append_ne_nil_of_left_ne_nil (packUint_ne_nil last) _

/-- Nothing changes, or something is appended, and plies are only appended to. -/
theorem Thread.step_append (hstep : t.step shift s = .ok t') :
    t.mine <+: t'.mine ∧ t.theirs <+: t'.theirs := by
  cases s with
  | send message now =>
    rw [step] at hstep
    split at hstep
    · exact nomatch hstep
    · cases hstep
      exact ⟨prefix_append _ _, prefix_rfl⟩
  | receive r hr =>
    cases hstep
    exact ⟨prefix_rfl, prefix_append _ _⟩
  | update theirLastMessage now =>
    rw [step] at hstep
    split at hstep
    · exact nomatch hstep
    · exact nomatch hstep
    · cases hstep
      exact ⟨prefix_append _ _, prefix_rfl⟩

theorem runThread_append (hrun : runThread shift steps t = .ok t') :
    t.mine <+: t'.mine ∧ t.theirs <+: t'.theirs := by
  induction steps generalizing t with
  | nil =>
    cases hrun
    exact ⟨prefix_rfl, prefix_rfl⟩
  | cons s steps ih =>
    rw [runThread] at hrun
    split at hrun
    · exact nomatch hrun
    case h_2 t₁ hstep =>
      obtain ⟨hmine, htheirs⟩ := Thread.step_append hstep
      obtain ⟨hmine', htheirs'⟩ := ih hrun
      exact ⟨hmine.trans hmine', htheirs.trans htheirs'⟩

theorem Thread.Paged.of_append (h : t'.Paged) (hmine : t.mine <+: t'.mine)
    (htheirs : t.theirs <+: t'.theirs) : t.Paged := by
  obtain ⟨entries, hentries⟩ := hmine
  obtain ⟨records, hrecords⟩ := htheirs
  refine ⟨?_, ?_, ?_⟩
  · have hpaged := h.mine
    rw [← hentries, map_append] at hpaged
    exact hpaged.left
  · have hpaged := h.theirs
    rw [← hrecords] at hpaged
    exact hpaged.left
  · have hsize := h.size
    rw [← hrecords, encodeAll_append, length_append] at hsize
    omega

theorem Thread.Logged.receive (h : t.Logged) {r : Record} (hr : Receivable r) :
    Logged { t with
      theirPly := some (t.theirPly.getD [] ++ r.encode)
      theirs := t.theirs ++ [r] } where
  mine := h.mine
  theirs := by rw [Option.getD_some, h.theirs, encodeAll_append, encodeAll_singleton]
  noMine := h.noMine
  noTheirs hnone := nomatch hnone
  wellFormed := h.wellFormed
  receivable := forall_mem_append.mpr ⟨h.receivable, forall_mem_singleton.mpr hr⟩
  acks before last previous after hsplit := by
    obtain ⟨hprevious, hlt, r', hlast⟩ := h.acks before last previous after hsplit
    refine ⟨hprevious, hlt, r', ?_⟩
    rw [located_append]
    exact mem_append_left _ hlast

theorem Thread.Logged.step (h : t.Logged) (hpaged : t.Paged) (hshift : ShiftsInt shift)
    (hstep : t.step shift s = .ok t') : t'.Logged := by
  cases s with
  | send message now =>
    rw [step, meshmsSendMessage] at hstep
    split at hstep
    case h_1 => exact nomatch hstep
    rename_i status myPly hsend
    split at hsend
    · exact nomatch hsend
    rename_i hne
    split at hsend
    · cases hsend
      cases hstep
      simpa using h
    dsimp only at hsend
    split at hsend
    · exact nomatch hsend
    · exact nomatch hsend
    case h_3 footer timestamp hfooter htime =>
      cases hsend
      cases hstep
      cases htime
      obtain ⟨hle, rfl⟩ := appendFooter_ok hfooter
      exact h.append (.message (messageText message)) now
        ⟨(by decide : 2 < 2 ^ 4), messageText_ne_nil hne, hle⟩ nofun
  | receive r hr =>
    cases hstep
    exact h.receive hr
  | update theirLastMessage now =>
    rw [step, updateConversation] at hstep
    split at hstep
    · exact nomatch hstep
    · exact nomatch hstep
    rename_i status last due status' last' myPly hdue hupdate
    cases hstep
    rw [hdue] at hupdate
    cases due with
    | none =>
      obtain ⟨-, -, rfl⟩ : _ ∧ _ ∧ t.myPly = myPly := by simpa using hupdate
      simpa using h
    | some due =>
      obtain ⟨ack, previous⟩ := due
      dsimp only at hupdate
      split at hupdate
      · exact nomatch hupdate
      · exact nomatch hupdate
      case h_3 footer timestamp hfooter htime =>
        cases htime
        obtain ⟨hle, rfl⟩ := appendFooter_ok hfooter
        cases hupdate
        refine h.append (.ack ack previous) now
          ⟨(by decide : 1 < 2 ^ 4), ackBytes_ne_nil _ _, hle⟩ fun last₁ previous₁ he => ?_
        obtain ⟨rfl, rfl⟩ : ack = last₁ ∧ previous = previous₁ := by simpa using he
        exact h.ackDue hpaged hshift hdue

theorem Thread.Logged.run (h : t.Logged) (hshift : ShiftsInt shift)
    (hrun : runThread shift steps t = .ok t') (hpaged : t'.Paged) : t'.Logged := by
  induction steps generalizing t with
  | nil =>
    cases hrun
    exact h
  | cons s steps ih =>
    obtain ⟨hmine, htheirs⟩ := runThread_append hrun
    rw [runThread] at hrun
    split at hrun
    · exact nomatch hrun
    case h_2 t₁ hstep => exact ih (h.step (hpaged.of_append hmine htheirs) hshift hstep) hrun

theorem Thread.Logged.empty : empty.Logged where
  mine := rfl
  theirs := rfl
  noMine _ := rfl
  noTheirs _ := rfl
  wellFormed _ he := absurd he not_mem_nil
  receivable _ hr := absurd hr not_mem_nil
  acks _ _ _ _ hsplit :=
    absurd hsplit.symm (append_ne_nil_of_right_ne_nil _ (cons_ne_nil _ _))

end Logged

end ServalMesh.Meshms
