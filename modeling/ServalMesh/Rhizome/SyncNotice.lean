import ServalMesh.Rhizome.SyncSend

/-!
# Noticing new bundles

Whoever answers a request compares each row with `max_token`, and then raises it to the token of
the request. That is right for an announcement, which starts from the last row, and for a request
for rows that were noticed before.
-/

namespace ServalMesh.Rhizome

open Lib Overlay List Manifests

section Removal

variable {bar : Bar} {bars : List BarEntry} {entry : BarEntry}

theorem mem_of_mem_removeBar {i : ℕ} (h : entry ∈ removeBar bars i) : entry ∈ bars := by
  rw [removeBar] at h
  split at h
  case h_1 => exact h
  case h_2 last hlast =>
    rcases mem_or_eq_of_mem_set (mem_of_mem_dropLast h) with hmem | rfl
    · exact hmem
    · exact mem_of_getLast? hlast

/-- What is removed leaves only BARs behind it that were there before. -/
theorem getElem?_removeBar {i j : ℕ} (hij : i ≤ j) (h : (removeBar bars i)[j]? = some entry) :
    ∃ k, i < k ∧ bars[k]? = some entry := by
  rw [removeBar] at h
  split at h
  case h_1 hnil =>
    rw [getLast?_eq_none_iff.mp hnil] at h
    exact nomatch h
  rename_i last hlast
  rw [getElem?_dropLast, length_set, getElem?_set] at h
  split at h
  case isFalse => exact nomatch h
  case isTrue hj =>
    split at h
    case isTrue heq =>
      refine ⟨bars.length - 1, by omega, ?_⟩
      rw [if_pos (by omega)] at h
      rw [← getLast?_eq_getElem?, hlast, h]
    case isFalse hne => exact ⟨j, by omega, h⟩

/-- The entries that the loop has passed stay. -/
theorem bundleInsertedLoop_spec {n : ℕ}
    (hpassed : ∀ j entry, n ≤ j → bars[j]? = some entry → supersedes bar entry.bar = false)
    (h : entry ∈ bundleInsertedLoop bar bars n) :
    entry ∈ bars ∧ supersedes bar entry.bar = false := by
  induction n generalizing bars with
  | zero =>
    obtain ⟨j, hj⟩ := mem_iff_getElem?.mp h
    exact ⟨h, hpassed j entry (Nat.zero_le _) hj⟩
  | succ i ih =>
    rw [bundleInsertedLoop] at h
    split at h
    case isTrue hany =>
      refine (ih ?_ h).imp_left mem_of_mem_removeBar
      intro j entry hij hentry
      obtain ⟨k, hk, hk'⟩ := getElem?_removeBar hij hentry
      exact hpassed k entry hk hk'
    case isFalse hany =>
      refine ih ?_ h
      intro j entry hij hentry
      rcases hij.eq_or_lt with rfl | hlt
      · rw [hentry] at hany
        simpa using hany
      · exact hpassed j entry hlt hentry

theorem syncBundleInserted_spec (h : entry ∈ syncBundleInserted bar bars) :
    entry ∈ bars ∧ supersedes bar entry.bar = false := by
  refine bundleInsertedLoop_spec ?_ h
  intro j entry hj hentry
  rw [getElem?_eq_none hj] at hentry
  exact nomatch hentry

end Removal

section Loop

variable {maxToken maxCount : ℕ} {r : Response} {row : Row} {rows : List Row}

theorem appendResponse_token (r : Response) (token : ℕ) (bar : Option Bar) :
    (appendResponse r token bar).token = r.token := by
  rw [appendResponse]
  split <;> rfl

theorem appendResponse_inserted (r : Response) (token : ℕ) (bar : Option Bar) :
    (appendResponse r token bar).inserted = r.inserted := by
  rw [appendResponse]
  split <;> rfl

theorem respondToken_inserted (r : Response) (row : Row) :
    (respondToken r row).inserted = r.inserted := by
  rw [respondToken]
  split
  · split
    · exact appendResponse_inserted ..
    · rfl
  · rfl

theorem respondToken_token (r : Response) (row : Row) : (respondToken r row).token = r.token ∨
    (r.token = headFlag ∧ (respondToken r row).token = row.rowid) := by
  rw [respondToken]
  split
  · split
    · exact .inl (appendResponse_token ..)
    case isFalse h => exact .inr ⟨not_not.mp h, rfl⟩
  · exact .inl rfl

/-- The row is noticed before the response is written. -/
def noticeRow (maxToken : ℕ) (r : Response) (row : Row) : Response :=
  if maxToken < row.rowid then { r with inserted := r.inserted ++ [row] } else r

theorem noticeRow_token (r : Response) (row : Row) :
    (noticeRow maxToken r row).token = r.token := by
  rw [noticeRow]
  split <;> rfl

theorem respondRow_eq (r : Response) (row : Row) : respondRow maxToken maxCount r row =
    if (noticeRow maxToken r row).count < maxCount then
      appendResponse (respondToken (noticeRow maxToken r row) row) row.rowid (some row.bar)
    else noticeRow maxToken r row := rfl

theorem respondRow_inserted (r : Response) (row : Row) :
    (respondRow maxToken maxCount r row).inserted =
      if maxToken < row.rowid then r.inserted ++ [row] else r.inserted := by
  have hnotice : (noticeRow maxToken r row).inserted =
      if maxToken < row.rowid then r.inserted ++ [row] else r.inserted := by
    rw [noticeRow]
    split <;> rfl
  rw [respondRow_eq, ← hnotice]
  split
  · rw [appendResponse_inserted, respondToken_inserted]
  · rfl

theorem respondRow_token (maxToken maxCount : ℕ) (r : Response) (row : Row) :
    (respondRow maxToken maxCount r row).token = r.token ∨
      (r.token = headFlag ∧ (respondRow maxToken maxCount r row).token = row.rowid) := by
  rw [respondRow_eq]
  split
  · rw [appendResponse_token, ← noticeRow_token r row]
    exact respondToken_token ..
  · exact .inl (noticeRow_token ..)

/-- All new rows are noticed if the rows that are not new come after them. -/
theorem mem_inserted_responseLoop
    (hrows : rows.Pairwise fun a b => a.rowid ≤ maxToken → b.rowid ≤ maxToken) {row : Row} :
    row ∈ (responseLoop maxToken maxCount r rows).inserted ↔
      row ∈ r.inserted ∨ (row ∈ rows ∧ maxToken < row.rowid) := by
  induction rows generalizing r with
  | nil => simp [responseLoop]
  | cons first rows ih =>
    obtain ⟨hfirst, hrest⟩ := pairwise_cons.mp hrows
    have hmem : row ∈ (respondRow maxToken maxCount r first).inserted ↔
        row ∈ r.inserted ∨ (row = first ∧ maxToken < row.rowid) := by
      rw [respondRow_inserted]
      split
      case isTrue hnew =>
        rw [mem_append, mem_singleton]
        exact or_congr_right ⟨fun h => ⟨h, h ▸ hnew⟩, And.left⟩
      case isFalse hold => exact ⟨.inl, fun h => h.resolve_right fun habs => hold (habs.1 ▸ habs.2)⟩
    rw [responseLoop]
    split
    case isTrue hbreak =>
      rw [hmem, mem_cons]
      refine or_congr_right ⟨fun h => ⟨.inl h.1, h.2⟩, fun h => ⟨?_, h.2⟩⟩
      rcases h.1 with heq | hrow
      · exact heq
      · exact absurd (hfirst row hrow hbreak.2) (not_le.mpr h.2)
    case isFalse => rw [ih hrest, hmem, mem_cons, or_assoc, or_and_right]

/-- What each row keeps is kept by the loop. -/
theorem responseLoop_keeps (P : Response → Prop)
    (hrow : ∀ r, ∀ row ∈ rows, P r → P (respondRow maxToken maxCount r row)) (h : P r) :
    P (responseLoop maxToken maxCount r rows) := by
  induction rows generalizing r with
  | nil => exact h
  | cons first rows ih =>
    have hfirst := hrow r first mem_cons_self h
    rw [responseLoop]
    split
    · exact hfirst
    · exact ih (fun r row hmem => hrow r row (mem_cons_of_mem _ hmem)) hfirst

theorem mem_of_mem_inserted {row : Row} :
    row ∈ (responseLoop maxToken maxCount r rows).inserted → row ∈ r.inserted ∨ row ∈ rows := by
  refine responseLoop_keeps (fun r' => row ∈ r'.inserted → row ∈ r.inserted ∨ row ∈ rows) ?_ .inl
  intro r' first hfirst h
  rw [respondRow_inserted]
  split
  · exact fun hrow => (mem_append.mp hrow).elim h fun hrow => .inr (mem_singleton.mp hrow ▸ hfirst)
  · exact h

theorem responseLoop_token :
    (responseLoop maxToken maxCount r rows).token = r.token ∨ (r.token = headFlag ∧
      ∃ row ∈ rows, (responseLoop maxToken maxCount r rows).token = row.rowid) := by
  refine responseLoop_keeps (fun r' => r'.token = r.token ∨ (r.token = headFlag ∧
    ∃ row ∈ rows, r'.token = row.rowid)) ?_ (.inl rfl)
  intro r' first hfirst h
  rcases respondRow_token maxToken maxCount r' first with heq | ⟨hhead, heq⟩
  · rwa [heq]
  · refine .inr ⟨?_, first, hfirst, heq⟩
    rcases h with hsame | ⟨hhead', -⟩
    · exact hsame.symm.trans hhead
    · exact hhead'

end Loop

section Node

/-- A node as far as it notices its new bundles: the table, `max_token` and the list of each
subscriber that has one, and the rows that were passed to `rhizome_sync_bundle_inserted`. -/
structure Node where
  manifests : Manifests
  maxToken : ℕ
  lists : List (List BarEntry)
  inserted : List Row

/-- `rhizome_is_bar_interesting`, if the payloads of the stored bundles are there. -/
def Node.isInteresting (n : Node) (bar : Bar) : Bool :=
  n.manifests.rows.all fun row => !supersedes row.bar bar

/-- What a response does to the node that sends it. -/
def Node.respond (n : Node) (forwards : Bool) (token : BitVec 64) (maxCount : ℕ) : Node :=
  let (r, maxToken) := syncSendResponse n.manifests n.maxToken forwards token maxCount
  { n with
    maxToken
    lists := r.inserted.foldl (fun lists row => rhizomeSyncBundleInserted lists row.bar) n.lists
    inserted := n.inserted ++ r.inserted }

/-- What can happen at a node. -/
inductive NodeOp where
  | insert (row : Row)
  | delete (rowid : ℕ)
  | announce
  | request (forwards : Bool) (token : BitVec 64)
  | cacheBar (subscriber : ℕ) (entry : BarEntry)

def NodeOp.run (n : Node) : NodeOp → Node
  | .insert row => { n with manifests := n.manifests.insert row }
  | .delete rowid => { n with manifests := n.manifests.delete rowid }
  | .announce => n.respond false (BitVec.ofNat 64 headFlag) 5
  | .request forwards token => n.respond forwards token 0
  | .cacheBar subscriber entry =>
    if n.isInteresting entry.bar then
      { n with lists := n.lists.modify subscriber (· ++ [entry]) }
    else n

def runNode (n : Node) (ops : List NodeOp) : Node := ops.foldl NodeOp.run n

/-- `max_token` is no larger than any rowid, and all rows up to it have been noticed. -/
structure Noticed (n : Node) : Prop where
  le_largest : n.maxToken ≤ n.manifests.largest
  inserted : ∀ row ∈ n.manifests.rows, row.rowid ≤ n.maxToken → row ∈ n.inserted

/-- No list has a BAR that a noticed row supersedes. -/
def Cleared (n : Node) : Prop :=
  ∀ row ∈ n.manifests.rows, row ∈ n.inserted →
    ∀ bars ∈ n.lists, ∀ entry ∈ bars, supersedes row.bar entry.bar = false

/-- Whether a request leaves `max_token` at a row that was noticed together with all before it. -/
def heeds (n : Node) : NodeOp → Bool
  | .request forwards token =>
    token.toNat = headFlag || token.toNat ≤ n.maxToken ||
      (token.toNat ≤ n.manifests.largest && (!forwards || n.manifests.rows.all fun row =>
        row.rowid ≤ n.maxToken || token.toNat ≤ row.rowid || row ∈ n.inserted))
  | _ => true

end Node

section Respond

variable {n : Node} {forwards : Bool} {token : BitVec 64} {maxCount : ℕ} {row : Row}

/-- The response before the zero lower bound. -/
def Node.response (n : Node) (forwards : Bool) (token : BitVec 64) (maxCount : ℕ) : Response :=
  responseLoop n.maxToken (responseLimit maxCount) ⟨token.toNat, [], 1, []⟩
    (n.manifests.select forwards token)

theorem respond_maxToken : (n.respond forwards token maxCount).maxToken =
    if (n.response forwards token maxCount).token ≠ headFlag ∧
      n.maxToken < (n.response forwards token maxCount).token
    then (n.response forwards token maxCount).token else n.maxToken := rfl

theorem syncSendResponse_inserted :
    (syncSendResponse n.manifests n.maxToken forwards token maxCount).1.inserted =
      (n.response forwards token maxCount).inserted := by
  rw [syncSendResponse]
  split
  · exact appendResponse_inserted ..
  · rfl

theorem respond_inserted : (n.respond forwards token maxCount).inserted =
    n.inserted ++ (n.response forwards token maxCount).inserted := by
  rw [← syncSendResponse_inserted]
  rfl

theorem respond_lists : (n.respond forwards token maxCount).lists =
    (n.response forwards token maxCount).inserted.foldl
      (fun lists row => rhizomeSyncBundleInserted lists row.bar) n.lists := by
  rw [← syncSendResponse_inserted]
  rfl

theorem response_token (htoken : token.toNat ≠ headFlag) :
    (n.response forwards token maxCount).token = token.toNat := by
  rcases responseLoop_token with heq | ⟨habs, -⟩
  · exact heq
  · exact absurd habs htoken

theorem mem_response_backwards : row ∈ (n.response false token maxCount).inserted ↔
    row ∈ n.manifests.rows ∧ (row.rowid : ℤ) ≤ token.toInt ∧ n.maxToken < row.rowid := by
  have hdesc : (n.manifests.select false token).Pairwise fun a b =>
      a.rowid ≤ n.maxToken → b.rowid ≤ n.maxToken := by
    refine pairwise_reverse.mpr ((n.manifests.ascending.filter _).imp ?_)
    intro a b hab hb
    exact hab.le.trans hb
  rw [Node.response, mem_inserted_responseLoop hdesc, select]
  simp [and_assoc]

theorem mem_response_forwards (htoken : (n.maxToken : ℤ) < token.toInt) :
    row ∈ (n.response true token maxCount).inserted ↔
      row ∈ n.manifests.rows ∧ token.toInt ≤ row.rowid := by
  have hnew : ∀ row ∈ n.manifests.select true token, n.maxToken < row.rowid := by
    intro row hrow
    have := of_decide_eq_true (mem_filter.mp hrow).2
    omega
  have hasc : (n.manifests.select true token).Pairwise fun a b =>
      a.rowid ≤ n.maxToken → b.rowid ≤ n.maxToken :=
    pairwise_of_forall_mem_list fun a ha b _ habs => absurd habs (not_le.mpr (hnew a ha))
  rw [Node.response, mem_inserted_responseLoop hasc]
  constructor
  · rintro (habs | ⟨hrow, -⟩)
    · exact nomatch habs
    · exact ⟨(mem_filter.mp hrow).1, of_decide_eq_true (mem_filter.mp hrow).2⟩
  · rintro ⟨hrow, hle⟩
    have hselect : row ∈ n.manifests.select true token :=
      mem_filter.mpr ⟨hrow, decide_eq_true hle⟩
    exact .inr ⟨hselect, hnew row hselect⟩

/-- The sign of a token does not matter below the largest rowid. -/
theorem toInt_of_le_largest (h : token.toNat ≤ n.manifests.largest) :
    token.toInt = token.toNat := by
  have := n.manifests.largest_lt
  rw [BitVec.toInt_eq_toNat_cond, if_pos (by omega)]

theorem toInt_headFlag (htoken : token.toNat = headFlag) : token.toInt = 2 ^ 63 - 1 := by
  rw [BitVec.toInt_eq_toNat_cond, htoken]
  decide

section

variable (h : Noticed n)
include h

/-- A response that leaves `max_token` alone. -/
theorem noticed_of_maxToken_eq (heq : (n.respond forwards token maxCount).maxToken = n.maxToken) :
    Noticed (n.respond forwards token maxCount) := by
  refine ⟨?_, fun row hrow hle => ?_⟩
  · rw [heq]
    exact h.le_largest
  · rw [heq] at hle
    exact mem_append_left _ (h.inserted row hrow hle)

/-- A request for rows that were noticed before. -/
theorem noticed_old (hhead : token.toNat ≠ headFlag)
    (htoken : token.toNat ≤ n.maxToken) : Noticed (n.respond forwards token maxCount) := by
  refine noticed_of_maxToken_eq h ?_
  rw [respond_maxToken, response_token hhead, if_neg fun habs => absurd habs.2 (not_lt.mpr htoken)]

/-- Going backwards, all new rows up to the new `max_token` are noticed. -/
theorem noticed_backwards
    (hlargest : (n.respond false token maxCount).maxToken ≤ n.manifests.largest)
    (htoken : ((n.respond false token maxCount).maxToken : ℤ) ≤ token.toInt) :
    Noticed (n.respond false token maxCount) := by
  refine ⟨hlargest, fun row hrow hle => ?_⟩
  rw [respond_inserted, mem_append, mem_response_backwards]
  by_cases hold : row.rowid ≤ n.maxToken
  · exact .inl (h.inserted row hrow hold)
  · exact .inr ⟨hrow, by omega, by omega⟩

/-- A response that starts from the last row. -/
theorem noticed_head (htoken : token.toNat = headFlag) :
    Noticed (n.respond forwards token maxCount) := by
  have hint := toInt_headFlag htoken
  by_cases heq : (n.response forwards token maxCount).token = headFlag
  · refine noticed_of_maxToken_eq h ?_
    rw [respond_maxToken, if_neg fun habs => habs.1 heq]
  rcases responseLoop_token with habs | ⟨-, row, hrow, hrowid⟩
  · exact absurd (habs.trans htoken) heq
  have hrowid' : (n.response forwards token maxCount).token = row.rowid := hrowid
  have hlt := row.lt
  cases forwards with
  | true =>
    have hle : token.toInt ≤ row.rowid := of_decide_eq_true (mem_filter.mp hrow).2
    rw [hrowid', headFlag] at heq
    omega
  | false =>
    have hmem : row ∈ n.manifests.rows :=
      (mem_filter.mp (mem_reverse.mp hrow)).1
    have hlargest := n.manifests.le_largest row hmem
    have hmax : (n.respond false token maxCount).maxToken ≤ n.manifests.largest := by
      rw [respond_maxToken, hrowid']
      split
      · exact hlargest
      · exact h.le_largest
    have := n.manifests.largest_lt
    exact noticed_backwards h hmax (by omega)

theorem noticed_new_iff (hhead : token.toNat ≠ headFlag) (htoken : n.maxToken < token.toNat) :
    Noticed (n.respond forwards token maxCount) ↔
      token.toNat ≤ n.manifests.largest ∧ (forwards = false ∨ ∀ row ∈ n.manifests.rows,
        row.rowid ≤ n.maxToken ∨ token.toNat ≤ row.rowid ∨ row ∈ n.inserted) := by
  have hmax : (n.respond forwards token maxCount).maxToken = token.toNat := by
    rw [respond_maxToken, response_token hhead, if_pos ⟨hhead, htoken⟩]
  constructor
  · intro hnoticed
    have hlargest : token.toNat ≤ n.manifests.largest := hmax ▸ hnoticed.le_largest
    refine ⟨hlargest, ?_⟩
    cases forwards with
    | false => exact .inl rfl
    | true =>
      refine .inr fun row hrow => ?_
      have hint := toInt_of_le_largest hlargest
      by_cases hle : row.rowid ≤ token.toNat
      · have hmem := hnoticed.inserted row hrow (hmax ▸ hle)
        rw [respond_inserted, mem_append, mem_response_forwards (by omega)] at hmem
        rcases hmem with hmem | ⟨-, hge⟩
        · exact .inr (.inr hmem)
        · exact .inr (.inl (by omega))
      · exact .inr (.inl (by omega))
  · rintro ⟨hlargest, hrows⟩
    have hint := toInt_of_le_largest hlargest
    cases forwards with
    | false => exact noticed_backwards h (hmax ▸ hlargest) (by rw [hmax, hint])
    | true =>
      refine ⟨hmax ▸ hlargest, fun row hrow hle => ?_⟩
      rw [respond_inserted, mem_append, mem_response_forwards (by omega)]
      rcases (hrows.resolve_left (by simp)) row hrow with hold | hge | hmem
      · exact .inl (h.inserted row hrow hold)
      · exact .inr ⟨hrow, by omega⟩
      · exact .inl hmem

end

end Respond

section Steps

variable {n : Node} {op : NodeOp}

theorem noticed_insert (h : Noticed n) (row : Row) :
    Noticed { n with manifests := n.manifests.insert row } := by
  refine ⟨h.le_largest.trans (n.manifests.largest_le_insert row), fun other hother hle => ?_⟩
  rcases mem_insert hother with hold | hnew
  · exact h.inserted other hold hle
  · exact absurd (hle.trans h.le_largest) (not_le.mpr hnew)

/-- A step keeps all rows up to `max_token` noticed exactly if it heeds them. -/
theorem noticed_iff (h : Noticed n) : Noticed (op.run n) ↔ heeds n op = true := by
  cases op with
  | insert row => exact iff_of_true (noticed_insert h row) rfl
  | delete rowid =>
    exact iff_of_true ⟨h.le_largest, fun row hrow => h.inserted row (mem_filter.mp hrow).1⟩ rfl
  | announce => exact iff_of_true (noticed_head h (by decide)) rfl
  | request forwards token =>
    rw [heeds, NodeOp.run]
    by_cases hhead : token.toNat = headFlag
    · exact iff_of_true (noticed_head h hhead) (by simp [hhead])
    · by_cases hold : token.toNat ≤ n.maxToken
      · exact iff_of_true (noticed_old h hhead hold) (by simp [hold])
      · rw [noticed_new_iff h hhead (not_le.mp hold)]
        simp [hhead, hold, or_assoc]
  | cacheBar subscriber entry =>
    refine iff_of_true ?_ rfl
    rw [NodeOp.run]
    split
    · exact ⟨h.le_largest, h.inserted⟩
    · exact h

/-- What holds of a node whatever is requested of it. -/
structure Tracked (n : Node) : Prop where
  inserted_le : ∀ row ∈ n.inserted, row.rowid ≤ n.manifests.largest
  cleared : Cleared n

theorem mem_rhizomeSyncBundleInserted {rows : List Row} {lists : List (List BarEntry)}
    {bars : List BarEntry} {entry : BarEntry}
    (hbars : bars ∈ rows.foldl (fun lists row => rhizomeSyncBundleInserted lists row.bar) lists)
    (hentry : entry ∈ bars) :
    (∃ bars₀ ∈ lists, entry ∈ bars₀) ∧ ∀ row ∈ rows, supersedes row.bar entry.bar = false := by
  induction rows generalizing lists with
  | nil => exact ⟨⟨bars, hbars, hentry⟩, by simp⟩
  | cons row rows ih =>
    obtain ⟨⟨bars₁, hbars₁, hentry₁⟩, hrows⟩ := ih hbars
    obtain ⟨bars₀, hbars₀, rfl⟩ := mem_map.mp hbars₁
    obtain ⟨hmem, hnot⟩ := syncBundleInserted_spec hentry₁
    exact ⟨⟨bars₀, hbars₀, hmem⟩, forall_mem_cons.mpr ⟨hnot, hrows⟩⟩

theorem tracked_respond (h : Tracked n) (forwards : Bool) (token : BitVec 64) (maxCount : ℕ) :
    Tracked (n.respond forwards token maxCount) := by
  have hrows : ∀ row ∈ (n.response forwards token maxCount).inserted, row ∈ n.manifests.rows := by
    intro row hrow
    rcases mem_of_mem_inserted hrow with habs | hselect
    · exact nomatch habs
    · rw [select] at hselect
      split at hselect
      · exact (mem_filter.mp hselect).1
      · exact (mem_filter.mp (mem_reverse.mp hselect)).1
  refine ⟨?_, fun row hrow hinserted bars hbars entry hentry => ?_⟩
  · rw [respond_inserted]
    exact forall_mem_append.mpr
      ⟨h.inserted_le, fun row hnew => n.manifests.le_largest row (hrows row hnew)⟩
  rw [respond_lists] at hbars
  obtain ⟨⟨bars₀, hbars₀, hentry₀⟩, hnot⟩ := mem_rhizomeSyncBundleInserted hbars hentry
  rw [respond_inserted] at hinserted
  rcases mem_append.mp hinserted with hold | hnew
  · exact h.cleared row hrow hold bars₀ hbars₀ entry hentry₀
  · exact hnot row hnew

theorem tracked_insert (h : Tracked n) (row : Row) :
    Tracked { n with manifests := n.manifests.insert row } := by
  refine ⟨fun other hother => ?_, fun other hother hinserted => ?_⟩
  · exact (h.inserted_le other hother).trans (n.manifests.largest_le_insert row)
  · rcases mem_insert hother with hold | hnew
    · exact h.cleared other hold hinserted
    · exact absurd (h.inserted_le other hinserted) (not_le.mpr hnew)

theorem tracked_cacheBar (h : Tracked n) (subscriber : ℕ) (entry : BarEntry)
    (hnew : n.isInteresting entry.bar = true) :
    Tracked { n with lists := n.lists.modify subscriber (· ++ [entry]) } := by
  refine ⟨h.inserted_le, fun row hrow hinserted bars hbars other hother => ?_⟩
  have hcleared := h.cleared row hrow hinserted
  obtain ⟨i, hi⟩ := mem_iff_getElem?.mp hbars
  rw [getElem?_modify] at hi
  obtain ⟨bars₀, hbars₀, rfl⟩ := Option.map_eq_some_iff.mp hi
  have hmem := mem_of_getElem? hbars₀
  split at hother
  · rcases mem_append.mp hother with hother | hother
    · exact hcleared bars₀ hmem other hother
    · rw [mem_singleton.mp hother]
      simpa using all_eq_true.mp hnew row hrow
  · exact hcleared bars₀ hmem other hother

theorem Tracked.run (h : Tracked n) (op : NodeOp) : Tracked (op.run n) := by
  cases op with
  | insert row => exact tracked_insert h row
  | delete rowid => exact ⟨h.inserted_le, fun row hrow => h.cleared row (mem_filter.mp hrow).1⟩
  | announce | request forwards token => exact tracked_respond h ..
  | cacheBar subscriber entry =>
    rw [NodeOp.run]
    split
    case isTrue hnew => exact tracked_cacheBar h subscriber entry hnew
    case isFalse => exact h

end Steps

section Runs

/-- A condition on every step of a run, in the state that it is made in. -/
def throughout (p : Node → NodeOp → Bool) : Node → List NodeOp → Bool
  | _, [] => true
  | n, op :: ops => p n op && throughout p (op.run n) ops

/-- A node that has just been started: nothing has been noticed. -/
def Node.start (manifests : Manifests) (lists : List (List BarEntry)) : Node where
  manifests := manifests
  maxToken := 0
  lists := lists
  inserted := []

/-- All is noticed, and after an announcement that is all rows. -/
structure Notices (n : Node) (last : Option NodeOp) : Prop where
  noticed : Noticed n
  announced : last = some .announce → ∀ row ∈ n.manifests.rows,
    row ∈ n.inserted ∧ ∀ bars ∈ n.lists, ∀ entry ∈ bars, supersedes row.bar entry.bar = false

/-- After an announcement all rows have been noticed. -/
theorem announce_inserted {n : Node} (h : Noticed n) {row : Row}
    (hrow : row ∈ n.manifests.rows) : row ∈ (NodeOp.announce.run n).inserted := by
  rw [NodeOp.run, respond_inserted, mem_append, mem_response_backwards]
  by_cases hold : row.rowid ≤ n.maxToken
  · exact .inl (h.inserted row hrow hold)
  · have hint : (BitVec.ofNat 64 headFlag).toInt = 2 ^ 63 - 1 := toInt_headFlag (by decide)
    have hlt := row.lt
    exact .inr ⟨hrow, by omega, by omega⟩

theorem runNode_notices_iff_of {n : Node} (h : Noticed n) (ht : Tracked n) (ops : List NodeOp) :
    (∀ k < ops.length, Notices (runNode n (ops.take (k + 1))) ops[k]?) ↔
      throughout heeds n ops = true := by
  induction ops generalizing n with
  | nil => simp [throughout]
  | cons op ops ih =>
    rw [throughout, Bool.and_eq_true, ← noticed_iff h]
    constructor
    · intro hall
      have hop : Noticed (op.run n) := (hall 0 (by simp)).noticed
      exact ⟨hop, (ih hop (ht.run op)).mp fun k hk => hall (k + 1) (by simpa using hk)⟩
    rintro ⟨hop, hops⟩ k hk
    cases k with
    | zero =>
      refine ⟨hop, fun hannounce row hrow => ?_⟩
      obtain rfl : op = .announce := by simpa using hannounce
      have hinserted := announce_inserted h hrow
      exact ⟨hinserted, (ht.run .announce).cleared row hrow hinserted⟩
    | succ k => exact (ih hop (ht.run op)).mpr hops k (by simpa using hk)

def sampleBar : Bar := ⟨List.replicate 32 0x42#8, length_replicate ..⟩

def sampleRow : Row := ⟨1, sampleBar, by decide, by decide⟩

end Runs

end ServalMesh.Rhizome
