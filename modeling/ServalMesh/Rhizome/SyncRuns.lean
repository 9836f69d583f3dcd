import ServalMesh.Rhizome.SyncWindow

/-!
# Syncing with a peer

The messages of a peer are answers to requests and announcements of a table in which rows come and
go. They may be delayed, lost, duplicated and reordered.
-/

namespace ServalMesh.Rhizome

open Lib Overlay List

section System

/-- A node that syncs with a peer: the peer's table and `max_token`, everything that the peer ever
sent, all requests of the node, and the state that the node keeps for the peer. -/
structure SyncSystem where
  table : Manifests
  maxToken : ℕ
  sent : List (List Byte)
  requests : List (ℕ × Bool)
  syncing : Syncing

/-- The beginning, with any table at the peer. -/
def SyncSystem.start (table : Manifests) (maxToken now : ℕ) : SyncSystem :=
  ⟨table, maxToken, [], [], .new now⟩

/-- What can happen. Messages are numbered in the order in which they were sent; one that is lost
is never received. -/
inductive SyncOp where
  | insert (row : Row)
  | delete (rowid : ℕ)
  /-- The peer is asked by others. -/
  | others (maxToken : ℕ)
  | announce
  /-- A request is received by the peer. -/
  | answer (i : ℕ)
  /-- A message is received by the node. -/
  | deliver (i now : ℕ) (interesting : Bar → Bool) (fetching : Fetching)
  /-- A request of the peer is received by the node. -/
  | asked (now : ℕ) (fetching : Fetching)
  /-- The node has inserted a bundle. -/
  | inserted (bar : Bar)

/-- A response is sent if there is something in it. -/
def SyncSystem.send (sys : SyncSystem) (r : Response × ℕ) : SyncSystem :=
  { sys with
    maxToken := r.2
    sent := if r.1.count = 0 then sys.sent else sys.sent ++ [responsePayload r.1.entries] }

/-- The node sends what it has to ask. -/
def SyncSystem.ask (sys : SyncSystem) (fetching : Fetching) (now : ℕ) : SyncSystem :=
  let r := rhizomeSyncSendRequests fetching now sys.syncing.state
  { sys with
    syncing := { sys.syncing with state := r.1 }
    requests := sys.requests ++ r.2.toList }

def syncStep (sys : SyncSystem) : SyncOp → Except Abort SyncSystem
  | .insert row => .ok { sys with table := sys.table.insert row }
  | .delete rowid => .ok { sys with table := sys.table.delete rowid }
  | .others maxToken => .ok { sys with maxToken }
  | .announce =>
    .ok (sys.send (syncSendResponse sys.table sys.maxToken false (BitVec.ofNat 64 headFlag) 5))
  | .answer i =>
    match sys.requests[i]? with
    | none => .ok sys
    | some (token, forwards) =>
      let token := (obGetPackedUi64 (packedBytes 10 (BitVec.ofNat 64 token))).1
      .ok (sys.send (syncSendResponse sys.table sys.maxToken forwards token 0))
  | .deliver i now interesting fetching =>
    match sys.sent[i]? with
    | none => .ok sys
    | some payload =>
      match syncProcessBarList interesting now sys.syncing payload with
      | .error abort => .error abort
      | .ok syncing => .ok (({ sys with syncing } : SyncSystem).ask fetching now)
  | .asked now fetching => .ok (sys.ask fetching now)
  | .inserted bar =>
    let state := sys.syncing.state
    .ok { sys with syncing := { sys.syncing with
      state := { state with bars := syncBundleInserted bar state.bars } } }

def runSync (sys : SyncSystem) : List SyncOp → Except Abort SyncSystem
  | [] => .ok sys
  | op :: ops =>
    match syncStep sys op with
    | .error abort => .error abort
    | .ok sys => runSync sys ops

/-- The rowids fit in an `int`, and a list starts the window only from the end. -/
def orderly (sys : SyncSystem) : SyncOp → Bool
  | .insert row => row.rowid < 2 ^ 31
  | .deliver i now _ _ => sys.sent[i]?.all fun payload => startsAtEnd now sys.syncing payload
  | _ => true

/-- All steps of a run are orderly. -/
def orderlyRun (sys : SyncSystem) : List SyncOp → Bool
  | [] => true
  | op :: ops =>
    orderly sys op && match syncStep sys op with
    | .error _ => true
    | .ok sys => orderlyRun sys ops

end System

section Invariant

variable {sys sys' : SyncSystem} {forwards : Bool} {t : Manifests} {s : Syncing}

/-- What holds in every state. -/
structure Syncs (sys : SyncSystem) : Prop where
  largest : sys.table.largest < 2 ^ 31
  sent : ∀ payload ∈ sys.sent, ∃ entries, payload = responsePayload entries ∧
    Listed sys.table entries
  requests : ∀ request ∈ sys.requests, request.1 ≤ sys.table.largest
  window : Window sys.table sys.syncing

theorem Syncs.start {table : Manifests} (h : table.largest < 2 ^ 31) (maxToken now : ℕ) :
    Syncs (.start table maxToken now) where
  largest := h
  sent := nofun
  requests := nofun
  window := .new table now

theorem Window.delete (h : Window t s) (rowid : ℕ) : Window (t.delete rowid) s :=
  { h with checked := fun row hrow => h.checked row (mem_filter.mp hrow).1 }

/-- A new row is above the window. -/
theorem Window.insert (h : Window t s) (row : Row) : Window (t.insert row) s := by
  have hle := t.largest_le_insert row
  refine ⟨h.start_le, h.end_le.trans hle, h.highest_le.trans hle, h.bars,
    fun other hother hge hother' => ?_, h.remembered⟩
  rcases Manifests.mem_insert hother with hold | hnew
  · exact h.checked other hold hge hother'
  · exact absurd (hother'.trans h.end_le) (not_le.mpr hnew)

theorem Syncs.send (h : Syncs sys) {token maxCount : ℕ}
    (htoken : token ≤ sys.table.largest ∨ token = headFlag) (htwo : 2 ≤ responseLimit maxCount) :
    Syncs (sys.send
      (syncSendResponse sys.table sys.maxToken forwards (BitVec.ofNat 64 token) maxCount)) := by
  refine ⟨h.largest, ?_, h.requests, h.window⟩
  rw [SyncSystem.send]
  split
  · exact h.sent
  · exact forall_mem_append.mpr ⟨h.sent, forall_mem_singleton.mpr
      ⟨_, rfl, syncSendResponse_listed htoken sys.maxToken forwards htwo⟩⟩

theorem requestLoop_nil (fetching : Fetching) (now n : ℕ) (asked : List Bar) :
    requestLoop fetching now [] asked n = ([], asked) := by
  induction n with
  | zero => rfl
  | succ n ih => exact ih

/-- Asking does not change the window, and the tokens that are asked for are those of its edges. -/
theorem rhizomeSyncSendRequests_spec (fetching : Fetching) (now : ℕ) (state : RhizomeSync) :
    let r := rhizomeSyncSendRequests fetching now state
    r.1.syncStart = state.syncStart ∧ r.1.syncEnd = state.syncEnd ∧
      r.1.highestSeen = state.highestSeen ∧ (state.bars = [] → r.1.bars = []) ∧
      ∀ request ∈ r.2, request.1 = state.syncStart ∨ request.1 = state.syncEnd := by
  have hbars : state.bars = [] →
      (requestLoop fetching now state.bars [] state.bars.length).1 = [] := by
    intro hnil
    rw [hnil, requestLoop_nil]
  rw [rhizomeSyncSendRequests]
  split
  · exact ⟨rfl, rfl, rfl, hbars, by simp⟩
  split
  · exact ⟨rfl, rfl, rfl, hbars, by simp⟩
  split
  case isTrue =>
    refine ⟨rfl, rfl, rfl, hbars, ?_⟩
    intro request hrequest
    split at hrequest
    · exact .inl (by rw [← Option.some.inj hrequest])
    · exact nomatch hrequest
  case isFalse => exact ⟨rfl, rfl, rfl, hbars, by simp⟩

theorem Syncs.ask (h : Syncs sys) (fetching : Fetching) (now : ℕ) :
    Syncs (sys.ask fetching now) := by
  obtain ⟨hstart, hend, hhighest, hbars, hrequest⟩ :=
    rhizomeSyncSendRequests_spec fetching now sys.syncing.state
  refine ⟨h.largest, h.sent, forall_mem_append.mpr ⟨h.requests, fun request hnew => ?_⟩,
    h.window.congr rfl rfl hstart hend (hhighest.trans_le h.window.highest_le) hbars⟩
  have hle := h.window.end_le
  rcases hrequest request (Option.mem_toList.mp hnew) with heq | heq
  · rw [heq]
    exact h.window.start_le.trans hle
  · rwa [heq]

theorem Syncs.answer (h : Syncs sys) {token : ℕ} (hmem : (token, forwards) ∈ sys.requests) :
    Syncs (sys.send (syncSendResponse sys.table sys.maxToken forwards
      (obGetPackedUi64 (packedBytes 10 (BitVec.ofNat 64 token))).1 0)) := by
  have htoken : token ≤ sys.table.largest := h.requests _ hmem
  have hget := obGetPackedUi64_packedBytes (htoken.trans_lt h.largest) []
  rw [append_nil] at hget
  rw [hget]
  exact h.send (.inl htoken) (by decide)

/-- One orderly step keeps the invariant. -/
theorem Syncs.step (h : Syncs sys) {op : SyncOp} (horderly : orderly sys op = true)
    (hstep : syncStep sys op = .ok sys') : Syncs sys' := by
  cases op with
  | insert row =>
    cases hstep
    refine ⟨?_, fun payload hpayload => ?_, fun request hrequest => ?_, h.window.insert row⟩
    · rw [Manifests.largest_insert]
      exact max_lt h.largest (by simpa [orderly] using horderly)
    · exact (h.sent payload hpayload).imp fun _ => And.imp_right (·.insert row)
    · exact (h.requests request hrequest).trans (sys.table.largest_le_insert row)
  | delete rowid =>
    cases hstep
    refine ⟨h.largest, fun payload hpayload => ?_, h.requests, h.window.delete rowid⟩
    exact (h.sent payload hpayload).imp fun _ => And.imp_right (·.delete rowid)
  | others maxToken =>
    cases hstep
    exact { h with }
  | announce =>
    cases hstep
    exact h.send (.inr rfl) (by decide)
  | answer i =>
    rw [syncStep] at hstep
    split at hstep
    case h_1 => exact Except.ok.inj hstep ▸ h
    case h_2 token forwards hrequest =>
      cases hstep
      exact h.answer (mem_of_getElem? hrequest)
  | deliver i now interesting fetching =>
    rw [syncStep] at hstep
    split at hstep
    case h_1 => exact Except.ok.inj hstep ▸ h
    rename_i payload hpayload
    split at hstep
    case h_1 => exact nomatch hstep
    case h_2 syncing hprocess =>
      obtain ⟨entries, rfl, hlisted⟩ := h.sent payload (mem_of_getElem? hpayload)
      have hend : startsAtEnd now sys.syncing (responsePayload entries) = true := by
        rwa [orderly, hpayload] at horderly
      have hdelivered : Syncs { sys with syncing } := ⟨h.largest, h.sent, h.requests,
        h.window.syncProcessBarList hlisted h.largest hend hprocess⟩
      cases hstep
      exact hdelivered.ask fetching now
  | asked now fetching =>
    cases hstep
    exact h.ask fetching now
  | inserted bar =>
    cases hstep
    exact ⟨h.largest, h.sent, h.requests,
      h.window.congr rfl rfl rfl rfl h.window.highest_le fun hnil => by rw [hnil]; rfl⟩

theorem Syncs.run (h : Syncs sys) {ops : List SyncOp} (horderly : orderlyRun sys ops = true)
    (hrun : runSync sys ops = .ok sys') : Syncs sys' := by
  induction ops generalizing sys with
  | nil => exact Except.ok.inj hrun ▸ h
  | cons op ops ih =>
    rw [orderlyRun, Bool.and_eq_true] at horderly
    rw [runSync] at hrun
    cases hstep : syncStep sys op with
    | error abort =>
      rw [hstep] at hrun
      exact nomatch hrun
    | ok sys₁ =>
      rw [hstep] at hrun horderly
      exact ih (h.step horderly.1 hstep) horderly.2 hrun

end Invariant

/-- Nothing is missed in the window of a run in which no list starts the window below a token that
was seen: each row in it has been checked since the last restart, and what was interesting has been
remembered. -/
theorem runSync_window {table : Manifests} {maxToken now : ℕ} {ops : List SyncOp}
    {sys : SyncSystem} (hlargest : table.largest < 2 ^ 31)
    (horderly : orderlyRun (.start table maxToken now) ops = true)
    (hrun : runSync (.start table maxToken now) ops = .ok sys) :
    ∀ row ∈ sys.table.rows, sys.syncing.state.syncStart ≤ row.rowid →
      row.rowid ≤ sys.syncing.state.syncEnd →
      ∃ answer, (row.rowid, row.bar, answer) ∈ sys.syncing.checked ∧
        (answer = true → (row.rowid, row.bar) ∈ sys.syncing.cached) := by
  have hsyncs := (Syncs.start hlargest maxToken now).run horderly hrun
  intro row hrow hge hle
  obtain ⟨answer, hmem⟩ := hsyncs.window.checked row hrow hge hle
  refine ⟨answer, hmem, ?_⟩
  rintro rfl
  exact hsyncs.window.remembered _ _ hmem

section Samples

/-- A row with a BAR of equal bytes. -/
def syncedRow (n : ℕ) (h : 0 < n ∧ n < 2 ^ 63) : Row where
  rowid := n
  bar := ⟨List.replicate rhizomeBarBytes (BitVec.ofNat 8 n), length_replicate ..⟩
  pos := h.1
  lt := h.2

def syncedTable : Manifests :=
  (Manifests.empty.insert (syncedRow 1 (by decide))).insert (syncedRow 2 (by decide))

/-- Nothing is ignored, and nothing can be fetched. -/
def noFetching : Fetching := ⟨fun _ => false, fun _ => false, fun _ => false⟩

/-- The first list is received, six rows are added and announced, and the node asks for what is in
between. -/
def syncedOps : List SyncOp :=
  [.announce, .deliver 0 0 (fun _ => true) noFetching,
    .insert (syncedRow 3 (by decide)), .insert (syncedRow 4 (by decide)),
    .insert (syncedRow 5 (by decide)), .insert (syncedRow 6 (by decide)),
    .insert (syncedRow 7 (by decide)), .insert (syncedRow 8 (by decide)),
    .announce, .deliver 1 10000 (fun _ => true) noFetching, .answer 0]

/-- The answer closes the gap. -/
theorem runSync_window_answered :
    (runSync (.start syncedTable 0 0)
        (syncedOps ++ [.deliver 2 20000 (fun _ => true) noFetching])).toOption.map
      (fun sys => (sys.syncing.state.syncStart, sys.syncing.state.syncEnd)) = some (0, 8) ∧
    ∀ sys, runSync (.start syncedTable 0 0)
        (syncedOps ++ [.deliver 2 20000 (fun _ => true) noFetching]) = .ok sys →
      ∀ row ∈ sys.table.rows, sys.syncing.state.syncStart ≤ row.rowid →
        row.rowid ≤ sys.syncing.state.syncEnd →
        ∃ answer, (row.rowid, row.bar, answer) ∈ sys.syncing.checked ∧
          (answer = true → (row.rowid, row.bar) ∈ sys.syncing.cached) :=
  ⟨by decide +kernel, fun _ hrun => runSync_window (by decide) (by decide +kernel) hrun⟩

/-- After an hour the answer is ignored except for its highest token, and then the first list, which
is received once more, starts a window that reaches up to that token. -/
theorem runSync_missed_rows :
    (runSync (.start syncedTable 0 0)
        (syncedOps ++ [.deliver 2 4000000 (fun _ => true) noFetching,
          .deliver 0 4000001 (fun _ => true) noFetching])).toOption.map
      (fun sys => (sys.syncing.state.syncStart, sys.syncing.state.syncEnd,
        sys.table.rows.map Row.rowid, sys.syncing.checked.map Prod.fst)) =
      some (0, 8, [1, 2, 3, 4, 5, 6, 7, 8], [2, 1]) := by
  decide +kernel

end Samples

end ServalMesh.Rhizome
