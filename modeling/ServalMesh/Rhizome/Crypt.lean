import ServalMesh.Lib.KeyStream
import ServalMesh.Lib.RippleCounter
import ServalMesh.Overlay.Subscribers

/-!
# Encryption of payloads

A payload is encrypted in pages. The nonce of a page is the nonce of the payload plus the
position of the page, so a block can be encrypted wherever it starts.
-/

namespace ServalMesh.Rhizome

open Lib Overlay List

def rhizomeCryptPageSize : ℕ := 4096

/-- The loop of `add_nonce`, over the bytes from the last one on. -/
def addCarry : List Byte → ℕ → List Byte
  | [], _ => []
  | byte :: rest, value =>
    if value = 0 then byte :: rest
    else
      let x := byte.toNat + value % 256
      BitVec.ofNat 8 x :: addCarry rest (value / 256 + x / 256)

def addNonce (nonce : List Byte) (value : ℕ) : List Byte := (addCarry nonce.reverse value).reverse

section Blocks

-- `crypto_stream_xsalsa20`: the bytes of the stream for a nonce and a key.
variable (stream : List Byte → List Byte → ℕ → Byte)

/-- The loop of `rhizome_crypt_xor_block`, over whole pages. -/
def xorPages (key blockNonce : List Byte) (buffer : List Byte) : List Byte :=
  if _h : buffer = [] then []
  else
    xorStream (stream blockNonce key) 0 (buffer.take rhizomeCryptPageSize) ++
      xorPages key (addNonce blockNonce rhizomeCryptPageSize) (buffer.drop rhizomeCryptPageSize)
termination_by buffer.length
decreasing_by
  have := length_pos_of_ne_nil _h
  rw [length_drop, rhizomeCryptPageSize]
  omega

def rhizomeCryptXorBlock (buffer : List Byte) (streamOffset : ℕ) (key nonce : List Byte) :
    List Byte :=
  let padding := streamOffset % rhizomeCryptPageSize
  let nonceOffset := streamOffset - padding
  let blockNonce := addNonce nonce nonceOffset
  if nonceOffset < streamOffset then
    -- the first page starts with bytes that are not part of the buffer
    let size := rhizomeCryptPageSize - padding
    let temp := List.replicate padding 0#8 ++ buffer.take size
    (xorStream (stream blockNonce key) 0 temp).drop padding ++
      xorPages stream key (addNonce blockNonce rhizomeCryptPageSize) (buffer.drop size)
  else xorPages stream key blockNonce buffer

/-- Consecutive pieces, each of them encrypted at its own offset. -/
def xorPieces (key nonce : List Byte) : ℕ → List (List Byte) → List Byte
  | _, [] => []
  | streamOffset, piece :: pieces =>
    rhizomeCryptXorBlock stream piece streamOffset key nonce ++
      xorPieces key nonce (streamOffset + piece.length) pieces

/-- The key stream of a whole payload. -/
def payloadStream (key nonce : List Byte) (position : ℕ) : Byte :=
  stream (addNonce nonce (position - position % rhizomeCryptPageSize)) key
    (position % rhizomeCryptPageSize)

end Blocks

section Nonces

theorem addCarry_zero (bytes : List Byte) : addCarry bytes 0 = bytes := by
  cases bytes <;> simp [addCarry]

theorem addCarry_cons (byte : Byte) (rest : List Byte) (value : ℕ) :
    addCarry (byte :: rest) value = BitVec.ofNat 8 (byte.toNat + value % 256) ::
      addCarry rest (value / 256 + (byte.toNat + value % 256) / 256) := by
  rw [addCarry]
  split
  case isTrue h =>
    have hbyte := byte.isLt
    rw [h, Nat.zero_mod, Nat.zero_div, add_zero, zero_add,
      Nat.div_eq_of_lt (by simpa using hbyte), addCarry_zero, BitVec.ofNat_toNat,
      BitVec.setWidth_eq]
  case isFalse => rfl

theorem addCarry_add (bytes : List Byte) (a b : ℕ) :
    addCarry (addCarry bytes a) b = addCarry bytes (a + b) := by
  induction bytes generalizing a b with
  | nil => rfl
  | cons byte rest ih =>
    rw [addCarry_cons, addCarry_cons, addCarry_cons, ih]
    congr 1
    · apply BitVec.eq_of_toNat_eq
      simp only [BitVec.toNat_ofNat]
      omega
    · congr 1
      simp only [BitVec.toNat_ofNat]
      omega

theorem addNonce_add (nonce : List Byte) (a b : ℕ) :
    addNonce (addNonce nonce a) b = addNonce nonce (a + b) := by
  rw [addNonce, addNonce, addNonce, reverse_reverse, addCarry_add]

theorem counterValue_addCarry (bytes : List Byte) (value : ℕ) :
    counterValue (addCarry bytes value) =
      (counterValue bytes + value) % 2 ^ (8 * bytes.length) := by
  induction bytes generalizing value with
  | nil => simp [addCarry, counterValue, Nat.mod_one]
  | cons byte rest ih =>
    rw [addCarry_cons, counterValue_cons, counterValue_cons, ih, length_cons, Nat.mul_succ,
      add_comm (8 * _), pow_add, Nat.mod_mul, BitVec.toNat_ofNat]
    congr 1
    · omega
    · congr 2
      omega

/-- No byte of a stream is used for two positions in a payload. -/
theorem addNonce_page_ne {nonce : List Byte} (hnonce : nonce.length = 24) {p q : ℕ}
    (hp : p < 2 ^ 192) (hq : q < 2 ^ 192) (hne : p ≠ q) :
    (addNonce nonce (p - p % rhizomeCryptPageSize), p % rhizomeCryptPageSize) ≠
      (addNonce nonce (q - q % rhizomeCryptPageSize), q % rhizomeCryptPageSize) := by
  intro h
  obtain ⟨hpage, hbyte⟩ := Prod.mk.inj h
  have hvalue := congrArg (fun nonce => counterValue nonce.reverse) hpage
  simp only [addNonce, reverse_reverse, counterValue_addCarry, length_reverse, hnonce] at hvalue
  rw [rhizomeCryptPageSize] at hvalue hbyte
  omega

theorem addNonce_page_ne_wrapping : (addNonce (List.replicate 24 255#8) 0, 5) ≠
    (addNonce (List.replicate 24 255#8) rhizomeCryptPageSize, 5) :=
  addNonce_page_ne (length_replicate (a := 255#8)) (p := 5) (q := rhizomeCryptPageSize + 5)
    (by decide) (by decide) (by decide)

end Nonces

section Blocks

variable (stream : List Byte → List Byte → ℕ → Byte)

theorem payloadStream_page (key nonce : List Byte) {page i : ℕ}
    (hpage : page % rhizomeCryptPageSize = 0) (hi : i < rhizomeCryptPageSize) :
    payloadStream stream key nonce (page + i) = stream (addNonce nonce page) key i := by
  have hmod : (page + i) % rhizomeCryptPageSize = i := by
    rw [Nat.add_mod, hpage, zero_add, Nat.mod_mod, Nat.mod_eq_of_lt hi]
  rw [payloadStream, hmod, Nat.add_sub_cancel]

theorem xorPages_eq (key nonce : List Byte) (buffer : List Byte) (page : ℕ)
    (hpage : page % rhizomeCryptPageSize = 0) :
    xorPages stream key (addNonce nonce page) buffer =
      xorStream (payloadStream stream key nonce) page buffer := by
  induction hlen : buffer.length using Nat.strong_induction_on generalizing buffer page with
  | _ len ih =>
    rw [xorPages]
    split
    case isTrue h => rw [h, xorStream]
    rename_i h
    have hpos := length_pos_of_ne_nil h
    have hrest := ih (buffer.drop rhizomeCryptPageSize).length
      (by rw [length_drop, rhizomeCryptPageSize]; omega) (buffer.drop rhizomeCryptPageSize)
      (page + rhizomeCryptPageSize) (by rw [Nat.add_mod_right, hpage]) rfl
    have hfirst : xorStream (stream (addNonce nonce page) key) 0
        (buffer.take rhizomeCryptPageSize) =
        xorStream (payloadStream stream key nonce) page (buffer.take rhizomeCryptPageSize) := by
      refine xorStream_congr fun i hi => ?_
      rw [length_take] at hi
      rw [zero_add, payloadStream_page stream key nonce hpage (by omega)]
    rw [addNonce_add, hrest, hfirst, ← drop_xorStream, ← take_xorStream, take_append_drop]

/-- Each byte is combined with the byte of the key stream at its position. -/
theorem rhizomeCryptXorBlock_eq (buffer : List Byte) (streamOffset : ℕ) (key nonce : List Byte) :
    rhizomeCryptXorBlock stream buffer streamOffset key nonce =
      xorStream (payloadStream stream key nonce) streamOffset buffer := by
  have hpage : (streamOffset - streamOffset % rhizomeCryptPageSize) % rhizomeCryptPageSize = 0 := by
    rw [rhizomeCryptPageSize]
    omega
  have hlt : streamOffset % rhizomeCryptPageSize < rhizomeCryptPageSize :=
    Nat.mod_lt _ (by simp [rhizomeCryptPageSize])
  rw [rhizomeCryptXorBlock]
  generalize hpadding : streamOffset % rhizomeCryptPageSize = padding at hpage hlt ⊢
  generalize hstart : streamOffset - padding = page at hpage ⊢
  have hle : padding ≤ streamOffset := hpadding ▸ Nat.mod_le _ _
  have hoffset : streamOffset = page + padding := by omega
  split
  case isTrue h =>
    have hfirst : (xorStream (stream (addNonce nonce page) key) 0 (List.replicate padding 0#8 ++
        buffer.take (rhizomeCryptPageSize - padding))).drop padding =
        xorStream (payloadStream stream key nonce) streamOffset
          (buffer.take (rhizomeCryptPageSize - padding)) := by
      rw [drop_xorStream, drop_left' (length_replicate ..), zero_add]
      refine xorStream_congr fun i hi => ?_
      rw [length_take] at hi
      rw [hoffset, add_assoc, payloadStream_page stream key nonce hpage (by omega)]
    dsimp only
    rw [addNonce_add, hfirst, xorPages_eq stream key nonce _ _ (by rw [Nat.add_mod_right, hpage])]
    have hnext : page + rhizomeCryptPageSize = streamOffset + (rhizomeCryptPageSize - padding) := by
      omega
    rw [hnext, ← drop_xorStream, ← take_xorStream, take_append_drop]
  case isFalse h =>
    have hzero : page = streamOffset := by omega
    rw [xorPages_eq stream key nonce _ _ hpage, hzero]

theorem xorPieces_eq (key nonce : List Byte) (streamOffset : ℕ) (pieces : List (List Byte)) :
    xorPieces stream key nonce streamOffset pieces =
      xorStream (payloadStream stream key nonce) streamOffset pieces.flatten := by
  induction pieces generalizing streamOffset with
  | nil => rfl
  | cons piece pieces ih =>
    rw [xorPieces, rhizomeCryptXorBlock_eq, ih, flatten_cons, xorStream_append]

theorem length_cryptIf (crypt : Bool) (buffer : List Byte) (streamOffset : ℕ)
    (key nonce : List Byte) :
    (if crypt then rhizomeCryptXorBlock stream buffer streamOffset key nonce
      else buffer).length = buffer.length := by
  split
  · rw [rhizomeCryptXorBlock_eq, length_xorStream]
  · rfl

/-- A buffer may be encrypted in any pieces, and encrypting it again decrypts it. A nonce is a
number to which offsets are added. -/
theorem rhizomeCryptXorBlock_pieces (key nonce : List Byte) (streamOffset : ℕ)
    (pieces : List (List Byte)) :
    xorPieces stream key nonce streamOffset pieces =
        rhizomeCryptXorBlock stream pieces.flatten streamOffset key nonce ∧
      (∀ buffer, rhizomeCryptXorBlock stream
        (rhizomeCryptXorBlock stream buffer streamOffset key nonce) streamOffset key nonce =
          buffer) ∧
      (∀ a b, addNonce (addNonce nonce a) b = addNonce nonce (a + b)) ∧
      ∀ a, counterValue (addNonce nonce a).reverse =
        (counterValue nonce.reverse + a) % 2 ^ (8 * nonce.length) := by
  refine ⟨?_, fun buffer => ?_, addNonce_add nonce, fun a => ?_⟩
  · rw [xorPieces_eq, rhizomeCryptXorBlock_eq]
  · rw [rhizomeCryptXorBlock_eq, rhizomeCryptXorBlock_eq, xorStream_xorStream]
  · rw [addNonce, reverse_reverse, counterValue_addCarry, length_reverse]

end Blocks

end ServalMesh.Rhizome
