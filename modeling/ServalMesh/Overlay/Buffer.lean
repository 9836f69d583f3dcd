import ServalMesh.Overlay.Subscribers

/-!
# Overlay buffers

A buffer being written counts what was appended even where it no longer fits;
whoever appends then looks for an overrun. The encoders never look at the buffer
in between, so they produce the list of their appends.
-/

namespace ServalMesh.Overlay

open List

def mdpMtu : ℕ := 1200

def broadcastLen : ℕ := 8

/-- `sid_t`. -/
structure Sid where
  bytes : List Byte
  size : bytes.length = sidSize
deriving DecidableEq

/-- `struct broadcast`. -/
structure Broadcast where
  id : List Byte
  size : id.length = broadcastLen
deriving DecidableEq

/-- What ends the daemon. -/
inductive Abort where
  | assertion
  | fatal
  | nullPointer
  | outOfBounds
  | endless
deriving DecidableEq

/-- The bytes, each of them shifted. -/
def orShifted {w : ℕ} : List ℕ → List Byte → BitVec w
  | shift :: shifts, byte :: bytes => byte.setWidth w <<< shift ||| orShifted shifts bytes
  | _, _ => 0#w

/-- What `ob_get_ui16` makes of two bytes, and of fewer. -/
def ui16Value (bytes : Option (List Byte)) : BitVec 16 := bytes.elim 0xFFFF#16 (orShifted [8, 0])

theorem toNat_ui16Value (a b : Byte) :
    (ui16Value (some [a, b])).toNat = a.toNat * 2 ^ 8 + b.toNat := by
  have ha := a.isLt
  have hb := b.isLt
  have hor : a.toNat * 2 ^ 8 ||| b.toNat = a.toNat * 2 ^ 8 + b.toNat := by
    rw [mul_comm, Nat.two_pow_add_eq_or_of_lt hb]
  have hvalue : ui16Value (some [a, b]) = a.setWidth 16 <<< 8 ||| (b.setWidth 16 <<< 0 ||| 0#16) :=
    rfl
  rw [hvalue, BitVec.or_zero, BitVec.shiftLeft_zero, BitVec.toNat_or, BitVec.toNat_shiftLeft,
    BitVec.toNat_setWidth, BitVec.toNat_setWidth, Nat.shiftLeft_eq, ← hor]
  congr 1 <;> omega

/-- A growing `struct overlay_buffer`: the bytes that were written and the number
of further ones that were only counted. -/
structure OutBuf where
  bytes : List Byte
  beyond : ℕ
  checkpointLength : ℕ
  sizeLimit : ℕ
deriving DecidableEq

namespace OutBuf

def position (b : OutBuf) : ℕ := b.bytes.length + b.beyond

/-- `ob_new` and `ob_limitsize`. -/
def new (limit : ℕ) : OutBuf where
  bytes := []
  beyond := 0
  checkpointLength := 0
  sizeLimit := limit

def checkpoint (b : OutBuf) : OutBuf := { b with checkpointLength := b.position }

def rewind (b : OutBuf) : OutBuf :=
  { b with
    bytes := b.bytes.take b.checkpointLength
    beyond := b.checkpointLength - b.bytes.length }

def overrun (b : OutBuf) : Bool := b.sizeLimit < b.position

/-- `ob_append_byte`, `ob_append_ui16` and `ob_append_bytes` assert that there is
something to append and, in `ob_makespace`, that there has been no overrun before. -/
def append (b : OutBuf) (data : List Byte) : Except Abort OutBuf :=
  if data ≠ [] ∧ b.position ≤ b.sizeLimit then
    if b.position + data.length ≤ b.sizeLimit then .ok { b with bytes := b.bytes ++ data }
    else .ok { b with beyond := b.beyond + data.length }
  else .error .assertion

def appendAll (b : OutBuf) : List (List Byte) → Except Abort OutBuf
  | [] => .ok b
  | data :: rest => do
    let b ← b.append data
    b.appendAll rest

variable {b b' : OutBuf} {data : List Byte} {appends : List (List Byte)}

/-- What an append can do. -/
structure Appended (b : OutBuf) (data : List Byte) (b' : OutBuf) : Prop where
  position_eq : b'.position = b.position + data.length
  sizeLimit_eq : b'.sizeLimit = b.sizeLimit
  checkpoint_eq : b'.checkpointLength = b.checkpointLength
  keeps : b.bytes <+: b'.bytes
  written : b'.overrun = false → b'.bytes = b.bytes ++ data ∧ b'.beyond = b.beyond

theorem append_eq_ok (h : b.append data = .ok b') : Appended b data b' := by
  unfold append at h
  split at h
  · split at h
    · cases h
      refine ⟨?_, rfl, rfl, prefix_append _ _, fun _ => ⟨rfl, rfl⟩⟩
      simp only [position, length_append]
      omega
    rename_i hlimit
    cases h
    refine ⟨by simp only [position]; omega, rfl, rfl, prefix_rfl, fun hfit => ?_⟩
    have hover := of_decide_eq_false hfit
    simp only [position] at hover hlimit
    omega
  · cases h

theorem appendAll_eq_ok (h : b.appendAll appends = .ok b') : Appended b appends.flatten b' := by
  induction appends generalizing b with
  | nil =>
    cases h
    exact ⟨by simp, rfl, rfl, prefix_rfl, fun _ => by simp⟩
  | cons data rest ih =>
    rcases hb : b.append data with e | b₁
    · rw [appendAll, hb] at h
      cases h
    rw [appendAll, hb] at h
    have hfirst := append_eq_ok hb
    have hrest := ih h
    refine ⟨?_, hrest.sizeLimit_eq.trans hfirst.sizeLimit_eq,
      hrest.checkpoint_eq.trans hfirst.checkpoint_eq, hfirst.keeps.trans hrest.keeps, ?_⟩
    · rw [hrest.position_eq, hfirst.position_eq, flatten_cons, length_append]
      omega
    intro hfit
    have hfit₁ : b₁.overrun = false := by
      have hpos := hrest.position_eq
      have hlimit := hrest.sizeLimit_eq
      simp only [overrun, decide_eq_false_iff_not] at hfit ⊢
      omega
    obtain ⟨hbytes, hbeyond⟩ := hrest.written hfit
    obtain ⟨hbytes₁, hbeyond₁⟩ := hfirst.written hfit₁
    exact ⟨by rw [hbytes, hbytes₁, flatten_cons, append_assoc],
      hbeyond.trans hbeyond₁⟩

/-- Rewinding to the checkpoint undoes appends. -/
theorem rewind_appendAll (hb : b.beyond = 0) (h : b.checkpoint.appendAll appends = .ok b') :
    b'.rewind.bytes = b.bytes ∧ b'.rewind.beyond = 0 := by
  have happ := appendAll_eq_ok h
  obtain ⟨more, hmore⟩ := happ.keeps
  have hcheck : b'.checkpointLength = b.bytes.length := by
    rw [happ.checkpoint_eq]
    simp [checkpoint, position, hb]
  rw [rewind, hcheck, ← hmore]
  constructor
  · exact take_left
  · exact Nat.sub_eq_zero_of_le (prefix_append _ _).length_le

end OutBuf

end ServalMesh.Overlay
