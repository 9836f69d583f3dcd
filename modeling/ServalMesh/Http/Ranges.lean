import Mathlib

/-!
# Byte ranges

A request asks for ranges of the bytes of a resource. They are closed when its length is known,
which goes wrong for a resource without bytes: there the last byte is the last that a number counts.
-/

namespace ServalMesh.Http

open List

inductive HttpRangeType
  | closed | opened | suffix
deriving DecidableEq

/-- A range that `_parse_ranges` accepts. -/
structure HttpRange where
  type : HttpRangeType
  first : BitVec 64
  last : BitVec 64
  ordered : type = .closed → first ≤ last
deriving DecidableEq

variable {range : HttpRange} {resourceLength : BitVec 64}

/-- `last` in `http_range_close`. -/
def HttpRange.closeLast (range : HttpRange) (resourceLength : BitVec 64) : BitVec 64 :=
  if range.type = .closed ∧ range.last < resourceLength then range.last else resourceLength - 1

/-- `first` in `http_range_close`. -/
def HttpRange.closeFirst (range : HttpRange) (resourceLength : BitVec 64) : BitVec 64 :=
  if range.type = .suffix then
    if range.last < resourceLength then resourceLength - range.last else 0
  else if range.first < resourceLength then range.first else resourceLength

def httpRangeClose (ranges : List HttpRange) (resourceLength : BitVec 64) : List HttpRange :=
  ranges.filterMap fun range =>
    if h : range.closeFirst resourceLength ≤ range.closeLast resourceLength then
      some ⟨.closed, range.closeFirst resourceLength, range.closeLast resourceLength, fun _ => h⟩
    else none

/-- `http_range_bytes`, or none if an assertion fails. -/
def httpRangeBytes (ranges : List HttpRange) : Option (BitVec 64) :=
  ranges.foldlM (fun bytes range =>
    if range.type = .closed ∧ range.first ≤ range.last then
      some (bytes + (range.last - range.first + 1))
    else none) 0

/-- Whether a range asks for the byte at an offset of a resource with `n` bytes. -/
def HttpRange.asks (range : HttpRange) (n i : ℕ) : Bool :=
  match range.type with
  | .closed => range.first.toNat ≤ i ∧ i ≤ range.last.toNat
  | .opened => range.first.toNat ≤ i
  | .suffix => n ≤ i + range.last.toNat

/-- A closed range of just the bytes that there are and that were asked for. -/
structure Closes (n : ℕ) (range closed : HttpRange) : Prop where
  type : closed.type = .closed
  first_le : closed.first ≤ closed.last
  last_lt : closed.last.toNat < n
  asked : ∀ i, closed.first.toNat ≤ i ∧ i ≤ closed.last.toNat ↔ i < n ∧ range.asks n i
  bytes : ∃ bytes, httpRangeBytes [closed] = some bytes ∧ bytes.toNat ≤ n ∧
    bytes.toNat = closed.last.toNat + 1 - closed.first.toNat

open HttpRange

/-- The bounds that are found are those of the bytes that there are and that are asked for. -/
theorem closeFirst_le_iff (hlength : resourceLength ≠ 0) (i : ℕ) :
    (range.closeFirst resourceLength).toNat ≤ i ∧ i ≤ (range.closeLast resourceLength).toNat ↔
      i < resourceLength.toNat ∧ range.asks resourceLength.toNat i := by
  obtain ⟨type, first, last, hordered⟩ := range
  cases type <;> simp [closeFirst, closeLast, asks] at hordered ⊢ <;>
    split_ifs <;> bv_omega

theorem closeLast_lt (hlength : resourceLength ≠ 0) :
    (range.closeLast resourceLength).toNat < resourceLength.toNat := by
  unfold closeLast
  split <;> bv_omega

/-- The ranges of a request are closed to what there is of each that can be satisfied, exactly if
the resource has bytes. -/
theorem httpRangeClose_closes_iff (ranges : List HttpRange) (resourceLength : BitVec 64) :
    Forall₂ (Closes resourceLength.toNat) (ranges.filter fun range =>
        ∃ i < resourceLength.toNat, range.asks resourceLength.toNat i)
      (httpRangeClose ranges resourceLength) ↔ resourceLength ≠ 0 ∨ ranges = [] := by
  by_cases hlength : resourceLength = 0
  · subst hlength
    have hclose : ∀ range : HttpRange, range.closeFirst 0#64 ≤ range.closeLast 0#64 := by
      simp [closeFirst, closeLast]
    cases ranges <;> simp [httpRangeClose, hclose]
  refine iff_of_true ?_ (.inl hlength)
  induction ranges with
  | nil => exact .nil
  | cons range ranges ih =>
    have hasked := @closeFirst_le_iff range resourceLength hlength
    have hlt := @closeLast_lt range resourceLength hlength
    rw [httpRangeClose, filterMap_cons]
    by_cases hle : range.closeFirst resourceLength ≤ range.closeLast resourceLength
    · rw [dif_pos hle, filter_cons_of_pos]
      · refine .cons ⟨rfl, hle, hlt, hasked,
          range.closeLast resourceLength - range.closeFirst resourceLength + 1, ?_, ?_⟩ ih
        · simp [httpRangeBytes, hle]
        · have hle : (range.closeFirst _).toNat ≤ (range.closeLast resourceLength).toNat := hle
          bv_omega
      · exact decide_eq_true ⟨_, (hasked _).mp ⟨le_rfl, hle⟩⟩
    · rw [dif_neg hle, filter_cons_of_neg]
      · exact ih
      · rw [decide_eq_true_eq]
        rintro ⟨i, hi⟩
        exact hle (((hasked i).mpr hi).1.trans ((hasked i).mpr hi).2)

/-- Of a resource without bytes more bytes are offered than their number can say. -/
theorem httpRangeClose_empty :
    httpRangeClose [⟨.opened, 0, 0, nofun⟩] 0 = [⟨.closed, 0, BitVec.allOnes 64, by decide⟩] ∧
      httpRangeBytes [⟨.closed, 0, BitVec.allOnes 64, by decide⟩] = some 0 := by
  decide

end ServalMesh.Http
