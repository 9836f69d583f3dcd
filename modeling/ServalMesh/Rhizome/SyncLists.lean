import ServalMesh.Rhizome.SyncReceive

/-!
# The lists of BARs that are sent

A response is a list of tokens in ascending or descending order that has every row of the table
between its first and its last token. The receiver decodes it as long as the tokens fit in an
`int`.
-/

namespace ServalMesh.Rhizome

open Lib Overlay List

section Wire

theorem obGetPackedUi64_packedBytes {token : ℕ} (h : token < 2 ^ 31) (rest : List Byte) :
    obGetPackedUi64 (packedBytes 10 (BitVec.ofNat 64 token) ++ rest) =
      (BitVec.ofNat 64 token, rest) := by
  have hbytes : packedBytes 10 (BitVec.ofNat 64 token) = packedBytes 5 (BitVec.ofNat 32 token) :=
    packedBytes_width (by decide) 4 5 (by simp only [BitVec.toNat_ofNat]; omega)
      (lt_trans (BitVec.isLt _) (by decide))
  have hmsb : (BitVec.ofNat 32 token).msb = false := by
    rw [BitVec.msb_eq_false_iff_two_mul_lt, BitVec.toNat_ofNat]
    omega
  rw [obGetPackedUi64_eq, hbytes, obGetPackedUi32_packedBytes,
    BitVec.signExtend_eq_setWidth_of_msb_false hmsb]
  congr 1
  apply BitVec.eq_of_toNat_eq
  simp only [BitVec.toNat_setWidth, BitVec.toNat_ofNat]
  omega

/-- The BAR of an entry on the wire: an edge of the range is one that is all zero. -/
def wireBar : Option Bar → Bar
  | some bar => bar
  | none => ⟨List.replicate rhizomeBarBytes 0#8, length_replicate ..⟩

theorem responsePayload_cons (entry : ℕ × Option Bar) (entries : List (ℕ × Option Bar)) :
    responsePayload (entry :: entries) = packedBytes 10 (BitVec.ofNat 64 entry.1) ++
      ((wireBar entry.2).bytes ++ responsePayload entries) := by
  obtain ⟨token, bar⟩ := entry
  cases bar <;> simp [responsePayload, wireBar]

/-- The receiver gets the tokens and BARs that were sent. -/
theorem decodeBars_responsePayload {entries : List (ℕ × Option Bar)}
    (h : ∀ entry ∈ entries, entry.1 < 2 ^ 31) :
    decodeBars (responsePayload entries) = entries.map fun entry => (entry.1, wireBar entry.2) := by
  induction entries with
  | nil =>
    rw [decodeBars, dif_neg (by decide)]
    rfl
  | cons entry entries ih =>
    have htoken := h entry mem_cons_self
    have hget := obGetPackedUi64_packedBytes htoken
      ((wireBar entry.2).bytes ++ responsePayload entries)
    have hlength := (wireBar entry.2).size
    have htake : ((wireBar entry.2).bytes ++ responsePayload entries).take rhizomeBarBytes =
        (wireBar entry.2).bytes := take_left' hlength
    have hdrop : ((wireBar entry.2).bytes ++ responsePayload entries).drop rhizomeBarBytes =
        responsePayload entries := drop_left' hlength
    rw [← responsePayload_cons] at hget
    rw [decodeBars, map_cons, ← ih (forall_mem_cons.mp h).2]
    simp only [hget, htake, hdrop, hlength, dif_pos, BitVec.toNat_ofNat]
    rw [Nat.mod_eq_of_lt (htoken.trans (by decide))]

end Wire

section Sender

/-- How a row is listed. -/
def rowEntry (row : Row) : ℕ × Option Bar := (row.rowid, some row.bar)

/-- The entry that marks the token that was asked for. -/
def marker (token : ℕ) : List Row → List (ℕ × Option Bar)
  | [] => []
  | row :: _ => if row.rowid ≠ token ∧ token ≠ headFlag then [(token, none)] else []

/-- No entry takes more than 42 bytes. -/
def Response.Compact (r : Response) : Prop := r.size ≤ 1 + 42 * r.count

variable {r : Response} {maxToken maxCount : ℕ}

/-- There is always space for the entries of one response. -/
theorem Response.Compact.append (h : r.Compact) (hcount : r.count ≤ barsPerResponse) (token : ℕ)
    (bar : Option Bar) :
    (appendResponse r token bar).entries = r.entries ++ [(token, bar)] ∧
      (appendResponse r token bar).Compact := by
  have hpacked := length_packedBytes_le 10 (BitVec.ofNat 64 token)
  have hsize : r.size + (packedBytes 10 (BitVec.ofNat 64 token)).length + rhizomeBarBytes ≤
      1 + 42 * (r.count + 1) := by
    rw [Response.Compact] at h
    rw [rhizomeBarBytes]
    omega
  have hfits : ¬mdpMtu < r.size + (packedBytes 10 (BitVec.ofNat 64 token)).length +
      rhizomeBarBytes := by
    have : barsPerResponse = 12 := rfl
    rw [mdpMtu]
    omega
  rw [appendResponse, if_neg hfits]
  refine ⟨rfl, ?_⟩
  rwa [Response.Compact, Response.count, length_append, length_singleton]

/-- Noticing a new row does not change what is sent. -/
theorem respondRow_sends (maxToken maxCount : ℕ) (r : Response) (row : Row) :
    ∃ inserted, respondRow maxToken maxCount r row =
      if r.count < maxCount then
        appendResponse (respondToken { r with inserted } row) row.rowid (some row.bar)
      else { r with inserted } := by
  rw [respondRow]
  split
  · exact ⟨_, rfl⟩
  · exact ⟨r.inserted, rfl⟩

theorem respondRow_entries (maxToken : ℕ) (hlimit : maxCount ≤ barsPerResponse) (h : r.Compact)
    (hpos : r.count ≠ 0) (row : Row) :
    (respondRow maxToken maxCount r row).entries =
        r.entries ++ ([row].take (maxCount - r.count)).map rowEntry ∧
      (respondRow maxToken maxCount r row).Compact := by
  obtain ⟨inserted, heq⟩ := respondRow_sends maxToken maxCount r row
  have hcompact : ({ r with inserted } : Response).Compact := h
  rw [heq]
  split
  case isTrue hlt =>
    rw [respondToken, if_neg fun hc => hpos hc.1]
    obtain ⟨happend, hkeep⟩ := hcompact.append (hlt.le.trans hlimit) row.rowid (some row.bar)
    rw [happend, take_of_length_le (by rw [length_singleton]; omega)]
    exact ⟨rfl, hkeep⟩
  case isFalse hge =>
    rw [Nat.sub_eq_zero_of_le (not_lt.mp hge)]
    exact ⟨(append_nil _).symm, hcompact⟩

/-- After the first entry each row is appended until there are enough. -/
theorem responseLoop_entries (maxToken : ℕ) (hlimit : maxCount ≤ barsPerResponse) (h : r.Compact)
    (hpos : r.count ≠ 0) (rows : List Row) :
    (responseLoop maxToken maxCount r rows).entries =
        r.entries ++ (rows.take (maxCount - r.count)).map rowEntry ∧
      (responseLoop maxToken maxCount r rows).Compact := by
  induction rows generalizing r with
  | nil => exact ⟨by simp [responseLoop], h⟩
  | cons row rows ih =>
    obtain ⟨hentries, hcompact⟩ := respondRow_entries maxToken hlimit h hpos row
    have hcount : (respondRow maxToken maxCount r row).count =
        r.count + min (maxCount - r.count) 1 := by
      rw [Response.count, hentries]
      simp [Response.count]
    have hsplit : ([row] ++ rows).take (maxCount - r.count) =
        [row].take (maxCount - r.count) ++ rows.take (maxCount - r.count - 1) := take_append
    rw [responseLoop, ← singleton_append, hsplit, map_append, ← append_assoc,
      ← hentries]
    split
    case isTrue hbreak =>
      have hfull : maxCount - r.count - 1 = 0 := by omega
      rw [hfull]
      exact ⟨(append_nil _).symm, hcompact⟩
    case isFalse =>
      obtain ⟨hloop, hkeep⟩ := ih hcompact (by omega)
      rw [hloop, hcount, show maxCount - (r.count + min (maxCount - r.count) 1) =
        maxCount - r.count - 1 by omega]
      exact ⟨rfl, hkeep⟩

/-- The first row is preceded by the token that was asked for if that is not its own. -/
theorem respondRow_first (maxToken : ℕ) (hpos : 0 < maxCount) (token : ℕ) (row : Row)
    (rows : List Row) :
    (respondRow maxToken maxCount ⟨token, [], 1, []⟩ row).entries =
        marker token (row :: rows) ++ [rowEntry row] ∧
      (respondRow maxToken maxCount ⟨token, [], 1, []⟩ row).Compact := by
  obtain ⟨inserted, heq⟩ := respondRow_sends maxToken maxCount ⟨token, [], 1, []⟩ row
  have hcompact : ∀ token, (⟨token, [], 1, inserted⟩ : Response).Compact := fun _ => le_rfl
  rw [heq, if_pos (show Response.count ⟨token, [], 1, []⟩ < maxCount from hpos), respondToken,
    marker]
  by_cases hrow : row.rowid ≠ token
  · rw [if_pos ⟨rfl, hrow⟩]
    by_cases hhead : token ≠ headFlag
    · rw [if_pos hhead, if_pos ⟨hrow, hhead⟩]
      obtain ⟨hmark, hkeep⟩ := (hcompact token).append (Nat.zero_le _) token none
      have hcount : (appendResponse ⟨token, [], 1, inserted⟩ token none).count ≤
          barsPerResponse := by
        rw [Response.count, hmark]
        exact (by decide : 1 ≤ barsPerResponse)
      obtain ⟨hentry, hkeep⟩ := hkeep.append hcount row.rowid (some row.bar)
      rw [hentry, hmark]
      exact ⟨rfl, hkeep⟩
    · rw [if_neg hhead, if_neg fun hc => hhead hc.2]
      exact (hcompact row.rowid).append (Nat.zero_le _) row.rowid (some row.bar)
  · rw [if_neg fun hc => hrow hc.2, if_neg fun hc => hrow hc.1]
    exact (hcompact token).append (Nat.zero_le _) row.rowid (some row.bar)

theorem length_marker_le (token : ℕ) (rows : List Row) : (marker token rows).length ≤ 1 := by
  rw [marker.eq_def]
  split
  · exact Nat.zero_le 1
  · split <;> simp

/-- What one response lists, before the lower bound. -/
theorem responseLoop_first (maxToken : ℕ) (hlimit : maxCount ≤ barsPerResponse)
    (htwo : 2 ≤ maxCount) (token : ℕ) (rows : List Row) :
    (responseLoop maxToken maxCount ⟨token, [], 1, []⟩ rows).entries =
        marker token rows ++
          (rows.take (maxCount - (marker token rows).length)).map rowEntry ∧
      (responseLoop maxToken maxCount ⟨token, [], 1, []⟩ rows).Compact := by
  cases rows with
  | nil => exact ⟨by simp [responseLoop, marker], le_rfl⟩
  | cons row rows =>
    have hlength := length_marker_le token (row :: rows)
    obtain ⟨hentries, hcompact⟩ :=
      respondRow_first maxToken (show 0 < maxCount by omega) token row rows
    have hcount : (respondRow maxToken maxCount ⟨token, [], 1, []⟩ row).count =
        (marker token (row :: rows)).length + 1 := by
      rw [Response.count, hentries, length_append, length_singleton]
    obtain ⟨k, hk⟩ : ∃ k, maxCount - (marker token (row :: rows)).length = k + 1 :=
      ⟨maxCount - (marker token (row :: rows)).length - 1, by omega⟩
    rw [hk, take_succ_cons, map_cons, append_cons, ← hentries, responseLoop]
    split
    case isTrue hbreak =>
      rw [show k = 0 by omega]
      exact ⟨(append_nil _).symm, hcompact⟩
    case isFalse =>
      obtain ⟨hloop, hkeep⟩ := responseLoop_entries maxToken hlimit hcompact (by omega) rows
      rw [hloop, hcount, show maxCount - ((marker token (row :: rows)).length + 1) = k by omega]
      exact ⟨rfl, hkeep⟩

theorem responseLimit_le (maxCount : ℕ) : responseLimit maxCount ≤ barsPerResponse := by
  rw [responseLimit]
  split <;> omega

/-- The lower bound, which is sent if all rows were listed. -/
def lowerBound (forwards : Bool) (listed limit : ℕ) : List (ℕ × Option Bar) :=
  if listed ≠ 0 ∧ listed < limit ∧ !forwards then [(0, none)] else []

/-- The entries of a response to a token. -/
def response (token : ℕ) (rows : List Row) (forwards : Bool) (limit : ℕ) :
    List (ℕ × Option Bar) :=
  let listed := marker token rows ++
    (rows.take (limit - (marker token rows).length)).map rowEntry
  listed ++ lowerBound forwards listed.length limit

theorem syncSendResponse_entries (t : Manifests) (maxToken : ℕ) (forwards : Bool)
    (token : BitVec 64) (htwo : 2 ≤ responseLimit maxCount) :
    (syncSendResponse t maxToken forwards token maxCount).1.entries =
      response token.toNat (t.select forwards token) forwards (responseLimit maxCount) := by
  obtain ⟨hentries, hcompact⟩ := responseLoop_first maxToken (responseLimit_le maxCount) htwo
    token.toNat (t.select forwards token)
  have hcount : (responseLoop maxToken (responseLimit maxCount) ⟨token.toNat, [], 1, []⟩
      (t.select forwards token)).count = _ := congrArg List.length hentries
  rw [syncSendResponse, response, lowerBound, hcount]
  split
  case isTrue hc =>
    have hless : _ < responseLimit maxCount := hcount ▸ hc.2.1
    rw [← hentries]
    exact (hcompact.append (hless.le.trans (responseLimit_le maxCount)) 0 none).1
  case isFalse => exact hentries.trans (append_nil _).symm

end Sender

section Listed

/-- A list of BARs that represents a range of a table: its tokens are in order, and each row
between two of them is listed. -/
structure Listed (t : Manifests) (entries : List (ℕ × Option Bar)) : Prop where
  ordered : entries.Pairwise (fun a b => a.1 < b.1) ∨ entries.Pairwise (fun a b => b.1 < a.1)
  le_largest : ∀ entry ∈ entries, entry.1 ≤ t.largest
  complete : ∀ row ∈ t.rows, ∀ a ∈ entries, ∀ b ∈ entries, a.1 ≤ row.rowid → row.rowid ≤ b.1 →
    rowEntry row ∈ entries
  length_le : entries.length ≤ barsPerResponse

variable {t : Manifests} {entries : List (ℕ × Option Bar)}

theorem Listed.delete (h : Listed t entries) (rowid : ℕ) : Listed (t.delete rowid) entries where
  ordered := h.ordered
  le_largest := h.le_largest
  complete := fun row hrow => h.complete row (mem_filter.mp hrow).1
  length_le := h.length_le

/-- A new row is behind all that was listed before it. -/
theorem Listed.insert (h : Listed t entries) (row : Row) : Listed (t.insert row) entries := by
  refine ⟨h.ordered, fun entry hentry => ?_, fun other hother a ha b hb hle hge => ?_, h.length_le⟩
  · exact (h.le_largest entry hentry).trans (t.largest_le_insert row)
  · rcases Manifests.mem_insert hother with hold | hnew
    · exact h.complete other hold a ha b hb hle hge
    · exact absurd (hge.trans (h.le_largest b hb)) (not_le.mpr hnew)

variable {R : ℕ → ℕ → Prop} {entry : ℕ × Option Bar} {k : ℕ}

section

variable (hR : ∀ a b, R a b → ¬R b a) {rows : List Row}
include hR

theorem not_before {a b : ℕ} (h : R b a) : ¬(a = b ∨ R a b) := by
  rintro (rfl | h')
  · exact hR _ _ h h
  · exact hR _ _ h h'

/-- Of rows that are in order, those before one of the first ones are among them. -/
theorem mem_take_of_before
    (hrows : rows.Pairwise fun a b => R a.rowid b.rowid) {row other : Row} (hrow : row ∈ rows)
    (hother : other ∈ rows.take k) (hbefore : row.rowid = other.rowid ∨ R row.rowid other.rowid) :
    row ∈ rows.take k := by
  rw [← take_append_drop k rows] at hrow hrows
  rcases mem_append.mp hrow with htake | hdrop
  · exact htake
  exact absurd hbefore (not_before hR ((pairwise_append.mp hrows).2.2 other hother row hdrop))

/-- The rows of one response: in order, and all that come before another entry. -/
theorem listed_rows {mark bound : List (ℕ × Option Bar)}
    (hrows : rows.Pairwise fun a b => R a.rowid b.rowid)
    (hmark : mark.Pairwise fun a b => R a.1 b.1)
    (hfirst : ∀ entry ∈ mark, ∀ row ∈ rows, R entry.1 row.rowid)
    (hbound : bound.Pairwise fun a b => R a.1 b.1)
    (hlast : ∀ entry ∈ bound, (∀ a ∈ mark, R a.1 entry.1) ∧ (∀ row ∈ rows, R row.rowid entry.1) ∧
      rows.take k = rows) :
    (mark ++ (rows.take k).map rowEntry ++ bound).Pairwise (fun a b => R a.1 b.1) ∧
      ∀ row ∈ rows, ∀ entry ∈ mark ++ (rows.take k).map rowEntry ++ bound,
        row.rowid = entry.1 ∨ R row.rowid entry.1 →
          rowEntry row ∈ mark ++ (rows.take k).map rowEntry ++ bound := by
  constructor
  · refine pairwise_append.mpr ⟨pairwise_append.mpr ⟨hmark, ?_, ?_⟩, hbound, ?_⟩
    · exact pairwise_map.mpr (hrows.sublist (take_sublist k rows))
    · intro a ha
      exact forall_mem_map.mpr fun row hrow => hfirst a ha row (mem_of_mem_take hrow)
    intro a ha b hb
    obtain ⟨hmarks, hall, -⟩ := hlast b hb
    exact forall_mem_append.mpr ⟨hmarks, forall_mem_map.mpr fun row hrow =>
      hall row (mem_of_mem_take hrow)⟩ a ha
  · intro row hrow entry hentry hbefore
    suffices hmem : row ∈ rows.take k by
      exact mem_append_left _ (mem_append_right _ (mem_map_of_mem hmem))
    rcases mem_append.mp hentry with hentry | hentry
    · rcases mem_append.mp hentry with hentry | hentry
      · exact absurd hbefore (not_before hR (hfirst entry hentry row hrow))
      · obtain ⟨other, hother, rfl⟩ := mem_map.mp hentry
        exact mem_take_of_before hR hrows hrow hother hbefore
    · rwa [(hlast entry hentry).2.2]

end

theorem mem_marker {token : ℕ} {rows : List Row} (h : entry ∈ marker token rows) :
    entry = (token, none) ∧ token ≠ headFlag ∧ ∃ row ∈ rows.head?, row.rowid ≠ token := by
  rw [marker.eq_def] at h
  split at h
  case h_1 => exact absurd h not_mem_nil
  case h_2 row rows =>
    split at h
    case isTrue hmark => exact ⟨mem_singleton.mp h, hmark.2, row, rfl, hmark.1⟩
    case isFalse => exact absurd h not_mem_nil

theorem pairwise_marker (token : ℕ) (rows : List Row) :
    (marker token rows).Pairwise fun a b => R a.1 b.1 := by
  rw [marker.eq_def]
  split
  · exact .nil
  · split <;> simp

theorem mem_lowerBound {forwards : Bool} {listed limit : ℕ}
    (h : entry ∈ lowerBound forwards listed limit) :
    entry = (0, none) ∧ listed < limit ∧ forwards = false := by
  rw [lowerBound] at h
  split at h
  case isTrue hc => exact ⟨mem_singleton.mp h, hc.2.1, by simpa using hc.2.2⟩
  case isFalse => exact absurd h not_mem_nil

theorem pairwise_lowerBound (forwards : Bool) (listed limit : ℕ) :
    (lowerBound forwards listed limit).Pairwise fun a b => R a.1 b.1 := by
  rw [lowerBound]
  split <;> simp

variable {maxCount token : ℕ}

theorem token_lt (h : token ≤ t.largest ∨ token = headFlag) : token < 2 ^ 63 := by
  rcases h with h | rfl
  · exact lt_of_le_of_lt h t.largest_lt
  · decide

theorem toInt_token (h : token < 2 ^ 63) :
    (BitVec.ofNat 64 token).toInt = token ∧ (BitVec.ofNat 64 token).toNat = token := by
  have hnat : (BitVec.ofNat 64 token).toNat = token := Nat.mod_eq_of_lt (by omega)
  refine ⟨?_, hnat⟩
  rw [BitVec.toInt_eq_toNat_of_lt (by omega), hnat]

variable {rows : List Row} {forwards : Bool} {limit : ℕ}

theorem length_response_le (token : ℕ) (rows : List Row) (forwards : Bool) (htwo : 2 ≤ limit) :
    (response token rows forwards limit).length ≤ limit := by
  have hmark := length_marker_le token rows
  have hlisted : (marker token rows ++
      (rows.take (limit - (marker token rows).length)).map rowEntry).length ≤ limit := by
    rw [length_append, length_map, length_take]
    omega
  rw [response, length_append, lowerBound]
  split
  · rw [length_singleton]
    omega
  · exact hlisted

theorem forall_mem_response (P : ℕ → Prop) (forwards : Bool) (limit : ℕ)
    (hmark : token ≠ headFlag → P token)
    (hrows : ∀ row ∈ rows, P row.rowid) (hbound : forwards = false → P 0) :
    ∀ entry ∈ response token rows forwards limit, P entry.1 := by
  refine forall_mem_append.mpr ⟨forall_mem_append.mpr ⟨fun entry hentry => ?_,
    forall_mem_map.mpr fun row hrow => hrows row (mem_of_mem_take hrow)⟩, fun entry hentry => ?_⟩
  · obtain ⟨rfl, hhead, -⟩ := mem_marker hentry
    exact hmark hhead
  · obtain ⟨rfl, -, hbackwards⟩ := mem_lowerBound hentry
    exact hbound hbackwards

section

variable (htrans : ∀ a b c, R a b → R b c → R a c)
  (hrows : rows.Pairwise fun a b => R a.rowid b.rowid)
  (hselect : ∀ row ∈ rows, token = row.rowid ∨ R token row.rowid)
include htrans hrows hselect

/-- The token that was asked for comes before all rows that there are. -/
theorem marker_before (h : entry ∈ marker token rows) : ∀ row ∈ rows, R entry.1 row.rowid := by
  obtain ⟨rfl, -, first, hfirst, hne⟩ := mem_marker h
  cases rows with
  | nil => exact nofun
  | cons head rows =>
    obtain rfl : head = first := Option.some.inj hfirst
    have hhead : R token head.rowid :=
      (hselect head mem_cons_self).resolve_left fun heq => hne heq.symm
    exact forall_mem_cons.mpr ⟨hhead, fun row hrow =>
      htrans _ _ _ hhead (rel_of_pairwise_cons hrows hrow)⟩

/-- A response is in the order of its rows and has all of them up to its last entry. -/
theorem response_ordered (forwards : Bool) (limit : ℕ) (hR : ∀ a b, R a b → ¬R b a)
    (hbound : forwards = false → ∀ row : Row, R row.rowid 0) :
    (response token rows forwards limit).Pairwise (fun a b => R a.1 b.1) ∧
      ∀ row ∈ rows, ∀ entry ∈ response token rows forwards limit,
        row.rowid = entry.1 ∨ R row.rowid entry.1 →
          rowEntry row ∈ response token rows forwards limit := by
  refine listed_rows hR hrows (pairwise_marker token rows)
    (fun entry => marker_before htrans hrows hselect) (pairwise_lowerBound ..) ?_
  intro entry hentry
  obtain ⟨rfl, hless, hbackwards⟩ := mem_lowerBound hentry
  refine ⟨?_, fun row _ => hbound hbackwards row, ?_⟩
  · intro a ha
    obtain ⟨rfl, -, first, hfirst, -⟩ := mem_marker ha
    have hmem := mem_of_mem_head? hfirst
    exact htrans _ _ _ (marker_before htrans hrows hselect ha first hmem) (hbound hbackwards first)
  · apply take_of_length_le
    rw [length_append, length_map, length_take] at hless
    omega

end

/-- Every response lists a range of the table, whatever is asked for. -/
theorem syncSendResponse_listed (htoken : token ≤ t.largest ∨ token = headFlag) (maxToken : ℕ)
    (forwards : Bool) (htwo : 2 ≤ responseLimit maxCount) :
    Listed t (syncSendResponse t maxToken forwards (BitVec.ofNat 64 token) maxCount).1.entries := by
  obtain ⟨hint, hnat⟩ := toInt_token (token_lt htoken)
  rw [syncSendResponse_entries t maxToken forwards (BitVec.ofNat 64 token) htwo, hnat]
  have hlength := (length_response_le token (t.select forwards (BitVec.ofNat 64 token)) forwards
    htwo).trans (responseLimit_le maxCount)
  have hrows : ∀ row ∈ t.select forwards (BitVec.ofNat 64 token), row ∈ t.rows := by
    cases forwards <;> simp +contextual [Manifests.select]
  have hle := forall_mem_response (· ≤ t.largest) forwards (responseLimit maxCount)
    htoken.resolve_right (fun row hrow => t.le_largest row (hrows row hrow)) fun _ => Nat.zero_le _
  cases forwards with
  | true =>
    have hmem : ∀ row, row ∈ t.select true (BitVec.ofNat 64 token) ↔
        row ∈ t.rows ∧ token ≤ row.rowid := by
      intro row
      simp [Manifests.select, hint]
    have hafter := forall_mem_response (token ≤ ·) true (responseLimit maxCount)
      (fun _ => le_rfl) (fun row hrow => ((hmem row).mp hrow).2) nofun
    obtain ⟨hordered, hcomplete⟩ := response_ordered (R := (· < ·)) (fun a b c => lt_trans)
      (t.ascending.filter _) (fun row hrow => ((hmem row).mp hrow).2.eq_or_lt) true
      (responseLimit maxCount) (fun a b hab => hab.asymm) nofun
    refine ⟨.inl hordered, hle, ?_, hlength⟩
    intro row hrow a ha b hb hge hlt
    exact hcomplete row ((hmem row).mpr ⟨hrow, (hafter a ha).trans hge⟩) b hb hlt.eq_or_lt
  | false =>
    have hmem : ∀ row, row ∈ t.select false (BitVec.ofNat 64 token) ↔
        row ∈ t.rows ∧ row.rowid ≤ token := by
      intro row
      simp [Manifests.select, hint]
    have hbefore := forall_mem_response (· ≤ token) false (responseLimit maxCount)
      (fun _ => le_rfl) (fun row hrow => ((hmem row).mp hrow).2) (fun _ => Nat.zero_le _)
    obtain ⟨hordered, hcomplete⟩ := response_ordered (R := (· > ·)) (fun a b c => gt_trans)
      (pairwise_reverse.mpr (t.ascending.filter _))
      (fun row hrow => ((hmem row).mp hrow).2.eq_or_lt.imp_left Eq.symm) false
      (responseLimit maxCount) (fun a b hab => hab.asymm) (fun _ row => row.pos)
    refine ⟨.inr hordered, hle, ?_, hlength⟩
    intro row hrow a ha b hb hge hlt
    exact hcomplete row ((hmem row).mpr ⟨hrow, hlt.trans (hbefore b hb)⟩) a ha
      (hge.eq_or_lt.imp_left Eq.symm)

end Listed

end ServalMesh.Rhizome
