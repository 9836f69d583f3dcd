import ServalMesh.Rhizome.Text
import ServalMesh.Overlay.Overrun

/-!
# Answering with a list of BARs

A node answers a request, or announces what it has, with the BARs of consecutive rows of its
manifest table. On the way it notices the bundles that are new since the last time.
-/

namespace ServalMesh.Rhizome

open Lib Overlay

def rhizomeBarBytes : ℕ := 32

/-- `rhizome_bar_t`. -/
abbrev Bar := Binary rhizomeBarBytes

def rhizomeBarPrefix (bar : Bar) : List Byte := bar.bytes.take 15

/-- The version has seven bytes, the first one being the most significant. -/
def rhizomeBarVersion (bar : Bar) : ℕ :=
  ((bar.bytes.drop 16).take 7).foldl (fun version byte => 256 * version + byte.toNat) 0

def rhizomeIsBarNone (bar : Bar) : Bool := bar.bytes.all (· = 0#8)

def maxTries : ℕ := 10

def cacheBars : ℕ := 60

def maxOldBars : ℕ := 40

def barsPerResponse : ℕ := 400 / rhizomeBarBytes

/-- `HEAD_FLAG`. -/
def headFlag : ℕ := 2 ^ 63 - 1

/-- `struct bar_entry`. -/
structure BarEntry where
  bar : Bar
  tries : ℕ
  nextRequest : ℕ
deriving DecidableEq

section Inserted

/-- A bundle that makes a BAR pointless: the same one in the same version or a later one. -/
def supersedes (bar old : Bar) : Bool :=
  rhizomeBarPrefix old = rhizomeBarPrefix bar && rhizomeBarVersion old ≤ rhizomeBarVersion bar

/-- The last BAR is shifted down to the position of the one that is removed. -/
def removeBar (bars : List BarEntry) (i : ℕ) : List BarEntry :=
  match bars.getLast? with
  | none => bars
  | some last => (bars.set i last).dropLast

/-- The loop of `sync_bundle_inserted`, which still has so many entries to look at. -/
def bundleInsertedLoop (bar : Bar) (bars : List BarEntry) : ℕ → List BarEntry
  | 0 => bars
  | i + 1 =>
    if bars[i]?.any fun entry => supersedes bar entry.bar then
      bundleInsertedLoop bar (removeBar bars i) i
    else bundleInsertedLoop bar bars i

def syncBundleInserted (bar : Bar) (bars : List BarEntry) : List BarEntry :=
  bundleInsertedLoop bar bars bars.length

/-- `rhizome_sync_bundle_inserted` for the lists of all subscribers. -/
def rhizomeSyncBundleInserted (lists : List (List BarEntry)) (bar : Bar) :
    List (List BarEntry) := lists.map (syncBundleInserted bar)

end Inserted

section Table

/-- A row of the manifest table. -/
structure Row where
  rowid : ℕ
  bar : Bar
  pos : 0 < rowid
  lt : rowid < 2 ^ 63
deriving DecidableEq

/-- The manifest table, with the largest rowid that it ever had. -/
structure Manifests where
  rows : List Row
  largest : ℕ
  ascending : rows.Pairwise fun a b => a.rowid < b.rowid
  le_largest : ∀ row ∈ rows, row.rowid ≤ largest
  largest_lt : largest < 2 ^ 63

namespace Manifests

def empty : Manifests where
  rows := []
  largest := 0
  ascending := .nil
  le_largest := by simp
  largest_lt := by decide

/-- A new row has a rowid that is larger than all that there were. -/
def insert (t : Manifests) (row : Row) : Manifests :=
  if h : t.largest < row.rowid then
    { rows := t.rows ++ [row]
      largest := row.rowid
      ascending := by
        refine List.pairwise_append.mpr ⟨t.ascending, List.pairwise_singleton .., ?_⟩
        intro a ha b hb
        rw [List.mem_singleton.mp hb]
        exact lt_of_le_of_lt (t.le_largest a ha) h
      le_largest := by
        intro a ha
        rcases List.mem_append.mp ha with ha | ha
        · exact (t.le_largest a ha).trans h.le
        · rw [List.mem_singleton.mp ha]
      largest_lt := row.lt }
  else t

theorem mem_insert {t : Manifests} {row other : Row} (h : other ∈ (t.insert row).rows) :
    other ∈ t.rows ∨ t.largest < other.rowid := by
  rw [insert] at h
  split at h
  case isTrue hnew =>
    refine (List.mem_append.mp h).imp_right fun hother => ?_
    rwa [List.mem_singleton.mp hother]
  case isFalse => exact .inl h

theorem largest_insert (t : Manifests) (row : Row) :
    (t.insert row).largest = max t.largest row.rowid := by
  rw [insert]
  split
  case isTrue hnew => exact (max_eq_right hnew.le).symm
  case isFalse hold => exact (max_eq_left (not_lt.mp hold)).symm

theorem largest_le_insert (t : Manifests) (row : Row) : t.largest ≤ (t.insert row).largest := by
  rw [largest_insert]
  exact le_max_left _ _

/-- A row that is deleted, or replaced by a new one. -/
def delete (t : Manifests) (rowid : ℕ) : Manifests where
  rows := t.rows.filter fun row => row.rowid ≠ rowid
  largest := t.largest
  ascending := t.ascending.filter _
  le_largest := fun row hrow => t.le_largest row (List.mem_filter.mp hrow).1
  largest_lt := t.largest_lt

/-- The rows from a token on, as the database compares and orders them. -/
def select (t : Manifests) (forwards : Bool) (token : BitVec 64) : List Row :=
  if forwards then t.rows.filter fun row => token.toInt ≤ row.rowid
  else (t.rows.filter fun row => row.rowid ≤ token.toInt).reverse

end Manifests

end Table

section Response

/-- What `sync_send_response` changes while it goes through the rows: the BARs that it appended,
the bytes that they take, and the rows that it found to be new. -/
structure Response where
  token : ℕ
  entries : List (ℕ × Option Bar)
  size : ℕ
  inserted : List Row
deriving DecidableEq

def Response.count (r : Response) : ℕ := r.entries.length

/-- An entry for which there is no space is undone. -/
def appendResponse (r : Response) (token : ℕ) (bar : Option Bar) : Response :=
  let size := r.size + (packedBytes 10 (BitVec.ofNat 64 token)).length + rhizomeBarBytes
  if mdpMtu < size then r else { r with entries := r.entries ++ [(token, bar)], size }

/-- The token that was asked for comes first, even if there is no such row; `HEAD_FLAG` stands for
the first row that there is. -/
def respondToken (r : Response) (row : Row) : Response :=
  if r.count = 0 ∧ row.rowid ≠ r.token then
    if r.token ≠ headFlag then appendResponse r r.token none else { r with token := row.rowid }
  else r

def respondRow (maxToken maxCount : ℕ) (r : Response) (row : Row) : Response :=
  let r := if maxToken < row.rowid then { r with inserted := r.inserted ++ [row] } else r
  if r.count < maxCount then appendResponse (respondToken r row) row.rowid (some row.bar) else r

def responseLoop (maxToken maxCount : ℕ) (r : Response) : List Row → Response
  | [] => r
  | row :: rows =>
    let r := respondRow maxToken maxCount r row
    if maxCount ≤ r.count ∧ row.rowid ≤ maxToken then r
    else responseLoop maxToken maxCount r rows

/-- How many BARs there may be in one response. -/
def responseLimit (maxCount : ℕ) : ℕ :=
  if maxCount = 0 ∨ barsPerResponse < maxCount then barsPerResponse else maxCount

/-- `sync_send_response`, with the new `max_token`. What is sent is a zero lower bound more if
the end of the table was reached. -/
def syncSendResponse (t : Manifests) (maxToken : ℕ) (forwards : Bool) (token : BitVec 64)
    (maxCount : ℕ) : Response × ℕ :=
  let maxCount := responseLimit maxCount
  let r := responseLoop maxToken maxCount ⟨token.toNat, [], 1, []⟩ (t.select forwards token)
  let maxToken := if r.token ≠ headFlag ∧ maxToken < r.token then r.token else maxToken
  (if r.count ≠ 0 ∧ r.count < maxCount ∧ !forwards then appendResponse r 0 none else r, maxToken)

end Response

end ServalMesh.Rhizome
