import ServalMesh.Lib.ShiftRegister
import ServalMesh.Msp.Socket
import ServalMesh.Rhizome.Crypt

/-!
# Plies

A ply is the half of a conversation that one of its parties writes: a journal of records, each of
which is followed by a footer with its type and its length, so that it can be read backwards. All
input and output succeeds, and reading a payload returns what is stored.
-/

namespace ServalMesh.Meshms

open Lib Overlay Rhizome List

def meshmsMessageMaxLen : ℕ := 4095

def meshmsBlockTypeAck : ℕ := 1
def meshmsBlockTypeMessage : ℕ := 2
def meshmsBlockTypeTime : ℕ := 3

inductive MeshmsStatus where
  | error
  | ok
  | updated
  | sidLocked
  | protocolFault
deriving DecidableEq

def meshmsFailed (status : MeshmsStatus) : Bool := status ≠ .ok && status ≠ .updated

section Packed

def packUint (v : ℕ) : List Byte :=
  if v < 2 ^ 7 then [BitVec.ofNat 8 v]
  else BitVec.ofNat 8 (v % 2 ^ 7 + 2 ^ 7) :: packUint (v / 2 ^ 7)

/-- The loop of `unpack_uint` at a byte. The bits of the byte are an `int` when they are shifted, so
how they are shifted out of it depends on the compiler. -/
def unpackLoop (shift : ℕ → ℕ → ℕ) : List Byte → ℕ → ℕ → ℕ × Option ℕ
  | [], _, v => (v, none)
  | byte :: buffer, i, v =>
    let v := v ||| shift (byte.toNat % 2 ^ 7) (i * 7)
    if byte.toNat < 2 ^ 7 then (v, some (i + 1)) else unpackLoop shift buffer (i + 1) v

/-- The number, and how many bytes it takes if there are enough. -/
def unpackUint (shift : ℕ → ℕ → ℕ) (buffer : List Byte) : ℕ × Option ℕ :=
  unpackLoop shift buffer 0 0

/-- Shifting is defined by less than the width, as long as the result is an `int`. -/
def ShiftsInt (shift : ℕ → ℕ → ℕ) : Prop :=
  ∀ v i, i < 32 → v * 2 ^ i < 2 ^ 31 → shift v i = v * 2 ^ i

/-- The bits of a byte, shifted as an `int` and used as a `uint64_t`. -/
def shiftUint (u : UndefinedShifts) (v i : ℕ) : ℕ :=
  ((u.shlInt (BitVec.ofNat 32 v) i).signExtend 64).toNat

theorem shiftsInt_shiftUint (u : UndefinedShifts) : ShiftsInt (shiftUint u) := by
  intro v i hi hv
  have hshift : (BitVec.ofNat 32 v <<< i).toNat = v * 2 ^ i := by
    rw [BitVec.toNat_shiftLeft, BitVec.toNat_ofNat, Nat.shiftLeft_eq, Nat.mod_mul_mod,
      Nat.mod_eq_of_lt (by omega)]
  rw [shiftUint, UndefinedShifts.shlInt_of_lt hi, BitVec.signExtend_eq_setWidth_of_msb_false,
    BitVec.toNat_setWidth, hshift]
  · omega
  · rw [BitVec.msb_eq_false_iff_two_mul_lt, hshift]
    omega

variable {shift : ℕ → ℕ → ℕ}

theorem packUint_ne_nil (v : ℕ) : packUint v ≠ [] := by
  rw [packUint]
  split <;> exact cons_ne_nil _ _

/-- What was packed is unpacked, as long as it fits into an `int`. -/
theorem unpackLoop_packUint (hshift : ShiftsInt shift) {v i acc : ℕ} (rest : List Byte)
    (hi : i * 7 < 32) (hacc : acc < 2 ^ (i * 7)) (hv : acc + v * 2 ^ (i * 7) < 2 ^ 31) :
    unpackLoop shift (packUint v ++ rest) i acc =
      (acc + v * 2 ^ (i * 7), some (i + (packUint v).length)) := by
  induction v using Nat.strongRecOn generalizing i acc with
  | ind v ih =>
    have hor : ∀ b, acc ||| b * 2 ^ (i * 7) = acc + b * 2 ^ (i * 7) := by
      intro b
      rw [Nat.or_comm, mul_comm, ← Nat.two_pow_add_eq_or_of_lt hacc, add_comm]
    rw [packUint]
    split
    case isTrue hsmall =>
      have hbyte : (BitVec.ofNat 8 v).toNat = v := by
        rw [BitVec.toNat_ofNat]
        omega
      rw [singleton_append, unpackLoop, hbyte, Nat.mod_eq_of_lt hsmall,
        hshift _ _ hi (by omega), hor, if_pos hsmall]
      rfl
    case isFalse hlarge =>
      have hbyte : (BitVec.ofNat 8 (v % 2 ^ 7 + 2 ^ 7)).toNat = v % 2 ^ 7 + 2 ^ 7 := by
        rw [BitVec.toNat_ofNat]
        omega
      have hlow : (v % 2 ^ 7 + 2 ^ 7) % 2 ^ 7 = v % 2 ^ 7 := by omega
      have hpow : 2 ^ ((i + 1) * 7) = 2 ^ 7 * 2 ^ (i * 7) := by
        rw [← pow_add]
        congr 1
        omega
      have hsum : acc + v % 2 ^ 7 * 2 ^ (i * 7) + v / 2 ^ 7 * 2 ^ ((i + 1) * 7) =
          acc + v * 2 ^ (i * 7) := by
        rw [hpow, ← mul_assoc, add_assoc, ← add_mul, mul_comm (v / 2 ^ 7),
          Nat.mod_add_div]
      have hlt : acc + v % 2 ^ 7 * 2 ^ (i * 7) < 2 ^ ((i + 1) * 7) := by
        have hle : (v % 2 ^ 7 + 1) * 2 ^ (i * 7) ≤ 2 ^ 7 * 2 ^ (i * 7) :=
          Nat.mul_le_mul_right _ (Nat.mod_lt _ (by decide))
        rw [add_mul, one_mul] at hle
        omega
      have hnext : 2 ^ ((i + 1) * 7) < 2 ^ 32 := by
        have := Nat.mul_le_mul_right (2 ^ (i * 7)) (not_lt.mp hlarge)
        omega
      rw [cons_append, unpackLoop, hbyte, hlow, hshift _ _ hi (by omega), hor,
        if_neg (by omega), ih _ (Nat.div_lt_self (by omega) (by decide))
        ((Nat.pow_lt_pow_iff_right (by decide)).mp hnext) hlt (by omega), hsum, length_cons]
      congr 2
      omega

theorem unpackUint_packUint (hshift : ShiftsInt shift) {v : ℕ} (hv : v < 2 ^ 31)
    (rest : List Byte) :
    unpackUint shift (packUint v ++ rest) = (v, some (packUint v).length) := by
  rw [unpackUint, unpackLoop_packUint hshift rest (by decide) (by decide) (by simpa using hv)]
  simp

end Packed

section Buffered

/-- `struct rhizome_read_buffer`. -/
structure ReadBuffer where
  offset : ℕ
  data : List Byte
deriving DecidableEq

theorem pageSize_eq : rhizomeCryptPageSize = 4096 := rfl

/-- The page of an offset, as it is read into the buffer. -/
def pageOf (content : List Byte) (offset : ℕ) : ReadBuffer :=
  let page := offset / rhizomeCryptPageSize * rhizomeCryptPageSize
  ⟨page, (content.drop page).take rhizomeCryptPageSize⟩

/-- A round of the loop of `rhizome_read_buffered`: take the start of what is wanted from the
buffer, or the end of it, or fill the buffer with the page of the start. Only the first advances the
offset. -/
def readRounds (content : List Byte) : ℕ → ℕ → ReadBuffer → ℕ → List Byte → List Byte →
    Except Abort (List Byte × ℕ × ReadBuffer)
  | 0, _, _, _, _, _ => .error .endless
  | rounds + 1, offset, buffer, len, front, back =>
    if len = 0 then .ok (front ++ back, offset, buffer)
    else
      let len := if content.length < offset + len then content.length - offset else len
      let ofs := offset - buffer.offset
      let size := min len (buffer.data.length - ofs)
      if buffer.offset ≤ offset ∧ ofs ≤ buffer.data.length ∧ 0 < size then
        readRounds content rounds (offset + size) buffer (len - size)
          (front ++ (buffer.data.drop ofs).take size) back
      else
        let ofs := offset + len - buffer.offset
        let size := min len ofs
        if buffer.offset < offset + len ∧ ofs ≤ buffer.data.length ∧ 0 < size then
          readRounds content rounds offset buffer (len - size) front
            ((buffer.data.drop (ofs - size)).take size ++ back)
        else
          readRounds content rounds offset (pageOf content offset) len front back

/-- Two rounds are enough for each byte, unless there is nothing to read. -/
def rhizomeReadBuffered (content : List Byte) (offset : ℕ) (buffer : ReadBuffer) (len : ℕ) :
    Except Abort (List Byte × ℕ × ReadBuffer) :=
  readRounds content (2 * len + 1) offset buffer len [] []

variable {content front back : List Byte} {rounds offset len : ℕ} {buffer : ReadBuffer}

/-- The buffer is empty or holds a page. -/
def ReadBuffer.Valid (content : List Byte) (buffer : ReadBuffer) : Prop :=
  buffer.data = [] ∨ ∃ page, buffer.offset = page * rhizomeCryptPageSize ∧
    buffer.data = (content.drop buffer.offset).take rhizomeCryptPageSize

/-- What is taken from the buffer is what is stored. -/
theorem ReadBuffer.Valid.slice (h : buffer.Valid content) {start size : ℕ}
    (hsize : start + size ≤ buffer.data.length) :
    (buffer.data.drop start).take size = (content.drop (buffer.offset + start)).take size := by
  rcases h with hdata | ⟨page, -, hdata⟩
  · rw [hdata, length_nil] at hsize
    obtain rfl : size = 0 := by omega
    rw [take_zero, take_zero]
  · rw [hdata] at hsize ⊢
    have hle := hsize.trans (length_take_le _ _)
    rw [drop_take, take_take, min_eq_left (by omega), drop_drop]

section Rounds

variable {size : ℕ} {offset' : ℕ}

theorem clip_eq (content : List Byte) (offset len : ℕ) :
    (if content.length < offset + len then content.length - offset else len) =
      min len (content.length - offset) := by
  split <;> omega

/-- The start of what is wanted is not in the buffer. -/
def ReadBuffer.Misses (buffer : ReadBuffer) (offset len : ℕ) : Prop :=
  ¬(buffer.offset ≤ offset ∧ offset - buffer.offset ≤ buffer.data.length ∧
    0 < min len (buffer.data.length - (offset - buffer.offset)))

theorem pageOf_valid (content : List Byte) (offset : ℕ) : (pageOf content offset).Valid content :=
  .inr ⟨_, rfl, rfl⟩

theorem pageOf_offset (content : List Byte) (offset : ℕ) :
    (pageOf content offset).offset + offset % rhizomeCryptPageSize = offset :=
  Nat.div_add_mod' offset rhizomeCryptPageSize

theorem pageOf_length (content : List Byte) (offset : ℕ) :
    (pageOf content offset).data.length =
      min rhizomeCryptPageSize (content.length - (pageOf content offset).offset) := by
  rw [pageOf, length_take, length_drop]

theorem pageOf_congr (h : offset / rhizomeCryptPageSize = offset' / rhizomeCryptPageSize) :
    pageOf content offset = pageOf content offset' := by
  rw [pageOf, pageOf, h]

section Fits

variable (hlen : 0 < len) (hfits : offset + len ≤ content.length)
include hlen hfits

theorem readRounds_front (hbuffer : buffer.offset ≤ offset)
    (hsize : min len (buffer.data.length - (offset - buffer.offset)) = size) (hpos : 0 < size) :
    readRounds content (rounds + 1) offset buffer len front back =
      readRounds content rounds (offset + size) buffer (len - size)
        (front ++ (buffer.data.drop (offset - buffer.offset)).take size) back := by
  rw [readRounds, if_neg (by omega), clip_eq, min_eq_left (by omega)]
  dsimp only
  rw [hsize, if_pos ⟨hbuffer, by omega, hpos⟩]

theorem readRounds_back (hmiss : buffer.Misses offset len) (hbuffer : buffer.offset < offset + len)
    (hback : offset + len - buffer.offset ≤ buffer.data.length)
    (hsize : min len (offset + len - buffer.offset) = size) (hpos : 0 < size) :
    readRounds content (rounds + 1) offset buffer len front back =
      readRounds content rounds offset buffer (len - size) front
        ((buffer.data.drop (offset + len - buffer.offset - size)).take size ++ back) := by
  rw [readRounds, if_neg (by omega), clip_eq, min_eq_left (by omega)]
  dsimp only
  rw [if_neg hmiss, hsize, if_pos ⟨hbuffer, hback, hpos⟩]

theorem readRounds_fill (hmiss : buffer.Misses offset len)
    (hback : ¬(buffer.offset < offset + len ∧ offset + len - buffer.offset ≤ buffer.data.length ∧
      0 < min len (offset + len - buffer.offset))) :
    readRounds content (rounds + 1) offset buffer len front back =
      readRounds content rounds offset (pageOf content offset) len front back := by
  rw [readRounds, if_neg (by omega), clip_eq, min_eq_left (by omega)]
  rw [if_neg hmiss, if_neg hback]

/-- After the page of the start was read, the start is taken from it. -/
theorem readRounds_filled
    (hsize : min len (rhizomeCryptPageSize - offset % rhizomeCryptPageSize) = size) :
    readRounds content (rounds + 1) offset (pageOf content offset) len front back =
      readRounds content rounds (offset + size) (pageOf content offset) (len - size)
        (front ++ (content.drop offset).take size) back := by
  have hoffset := pageOf_offset content offset
  have hlength := pageOf_length content offset
  have hmod := Nat.mod_lt offset (show 0 < rhizomeCryptPageSize by decide)
  have hsize' : min len ((pageOf content offset).data.length -
      (offset - (pageOf content offset).offset)) = size := by omega
  rw [readRounds_front hlen hfits (by omega) hsize' (by omega),
    (pageOf_valid content offset).slice (by omega)]
  congr 4
  omega

/-- Once the page of the start is in the buffer, the pages are read one after the other. -/
theorem readRounds_pageOf (hrounds : 2 * len ≤ rounds) (front back : List Byte) :
    readRounds content rounds offset (pageOf content offset) len front back =
      .ok (front ++ (content.drop offset).take len ++ back, offset + len,
        pageOf content (offset + len - 1)) := by
  induction len using Nat.strongRecOn generalizing rounds offset front with
  | ind len ih =>
    obtain ⟨rounds, rfl⟩ := Nat.exists_eq_add_of_le' (show 2 ≤ rounds by omega)
    have hmod := Nat.mod_lt offset (show 0 < rhizomeCryptPageSize by decide)
    have hoffset := pageOf_offset content offset
    have hlength := pageOf_length content offset
    generalize hsize : min len (rhizomeCryptPageSize - offset % rhizomeCryptPageSize) = size
    rw [readRounds_filled hlen hfits hsize]
    rcases Nat.eq_zero_or_pos (len - size) with hdone | hmore
    · have hpage : offset / rhizomeCryptPageSize = (offset + len - 1) / rhizomeCryptPageSize := by
        rw [pageSize_eq] at hmod hsize ⊢
        omega
      rw [hdone, readRounds, if_pos rfl, show size = len by omega, pageOf_congr hpage]
    have hmiss : (pageOf content offset).Misses (offset + size) (len - size) := by
      rw [ReadBuffer.Misses]
      omega
    rw [readRounds_fill hmore (by omega) hmiss (by omega), ih (len - size) (by omega) hmore
      (by omega) (by omega), append_assoc front, ← drop_drop, ← take_add,
      show size + (len - size) = len by omega, show offset + size + (len - size) = offset + len by
        omega]

end Fits

/-- A buffer with the byte at an offset holds its page. -/
theorem ReadBuffer.Valid.eq_pageOf (h : buffer.Valid content) (hbuffer : buffer.offset ≤ offset)
    (hlength : offset - buffer.offset < buffer.data.length) : buffer = pageOf content offset := by
  rcases h with hdata | ⟨page, hpage, hdata⟩
  · rw [hdata, length_nil] at hlength
    omega
  have hdataLength := congrArg List.length hdata
  rw [length_take, length_drop] at hdataLength
  have hdiv : offset / rhizomeCryptPageSize = page := by
    refine Nat.div_eq_of_lt_le (by omega) ?_
    rw [Nat.succ_mul]
    omega
  cases buffer
  rw [pageOf, hdiv, ← hpage]
  exact congrArg _ hdata

/-- What is wanted ends in the buffer and starts before it. -/
def ReadBuffer.Ends (buffer : ReadBuffer) (offset len : ℕ) : Prop :=
  offset < buffer.offset ∧ buffer.offset < offset + len ∧
    offset + len ≤ buffer.offset + buffer.data.length

instance (buffer : ReadBuffer) (offset len : ℕ) : Decidable (buffer.Ends offset len) :=
  inferInstanceAs (Decidable (_ ∧ _ ∧ _))

theorem ReadBuffer.Valid.not_ends (h : buffer.Valid content)
    (hpage : offset % rhizomeCryptPageSize ≠ 1) : ¬buffer.Ends (offset - 2) 2 := by
  rintro ⟨hstart, hinside, hend⟩
  rcases h with hdata | ⟨page, hpageOf, -⟩
  · rw [hdata, length_nil] at hend
    omega
  · rw [pageSize_eq] at hpage hpageOf
    omega

/-- What is wanted is read, but the offset is not advanced by what the end was taken from. -/
theorem readRounds_spec (hvalid : buffer.Valid content) (hlen : 0 < len)
    (hfits : offset + len ≤ content.length) (hrounds : 2 * len + 1 ≤ rounds) :
    ∃ offset', offset' = (if buffer.Ends offset len then buffer.offset else offset + len) ∧
      readRounds content rounds offset buffer len [] [] =
        .ok ((content.drop offset).take len, offset', pageOf content (offset' - 1)) := by
  refine ⟨_, rfl, ?_⟩
  obtain ⟨rounds, rfl⟩ := Nat.exists_eq_add_of_le' (show 2 ≤ rounds by omega)
  by_cases hmiss : buffer.Misses offset len
  · by_cases hends : buffer.Ends offset len
    · obtain ⟨hstart, hinside, hend⟩ := hends
      have hmiss' : buffer.Misses offset (buffer.offset - offset) := by
        rw [ReadBuffer.Misses]
        omega
      have hjoin : (content.drop offset).take (buffer.offset - offset) ++
          (content.drop buffer.offset).take (offset + len - buffer.offset) =
            (content.drop offset).take len := by
        have hdrop : content.drop buffer.offset =
            (content.drop offset).drop (buffer.offset - offset) := by
          rw [drop_drop, Nat.add_sub_cancel' hstart.le]
        rw [hdrop, ← take_add]
        congr 1
        omega
      rw [if_pos ⟨hstart, hinside, hend⟩, readRounds_back hlen hfits hmiss hinside (by omega)
        (show min len (offset + len - buffer.offset) = offset + len - buffer.offset by omega)
        (by omega), hvalid.slice (by omega), show len - (offset + len - buffer.offset) =
          buffer.offset - offset by omega, readRounds_fill (by omega) (by omega) hmiss' (by omega),
        readRounds_pageOf (by omega) (by omega) (by omega), Nat.sub_self, Nat.add_zero, nil_append,
        append_nil, hjoin, Nat.add_sub_cancel' hstart.le]
    · rw [if_neg hends]
      rw [ReadBuffer.Misses] at hmiss
      rw [ReadBuffer.Ends] at hends
      rw [readRounds_fill hlen hfits hmiss (by omega), readRounds_pageOf hlen hfits (by omega),
        nil_append, append_nil]
  · obtain ⟨hbuffer, -, hpos⟩ := not_not.mp hmiss
    rw [if_neg fun hends => absurd hends.1 (not_lt.mpr hbuffer),
      hvalid.eq_pageOf hbuffer (by omega), readRounds_pageOf hlen hfits (by omega), nil_append,
      append_nil]

/-- The offset is never advanced by more than what was wanted. -/
theorem readRounds_le {bytes : List Byte} {buffer' : ReadBuffer}
    (h : readRounds content rounds offset buffer len front back = .ok (bytes, offset', buffer')) :
    offset' ≤ offset + len := by
  induction rounds generalizing offset buffer len front back with
  | zero => exact nomatch h
  | succ rounds ih =>
    rw [readRounds] at h
    split at h
    · simp only [Except.ok.injEq, Prod.mk.injEq] at h
      omega
    rw [clip_eq] at h
    dsimp only at h
    repeat' split at h
    all_goals
      have hle := ih h
      omega

theorem readRounds_clip (hpos : 0 < min len (content.length - offset)) :
    readRounds content (rounds + 1) offset buffer len front back =
      readRounds content (rounds + 1) offset buffer (min len (content.length - offset)) front
        back := by
  conv_rhs => rw [readRounds, if_neg (by omega), clip_eq, min_eq_left (by omega)]
  rw [readRounds, if_neg (by omega), clip_eq]

/-- A read of any length gives what there is. -/
theorem rhizomeReadBuffered_spec (hvalid : buffer.Valid content) (hoffset : offset ≤ content.length)
    (len : ℕ) :
    ∃ offset' buffer', rhizomeReadBuffered content offset buffer len =
        .ok ((content.drop offset).take len, offset', buffer') ∧ buffer'.Valid content ∧
      offset' = if buffer.Ends offset (min len (content.length - offset)) then buffer.offset
        else offset + min len (content.length - offset) := by
  rcases Nat.eq_zero_or_pos (min len (content.length - offset)) with hnone | hpos
  · have hends : ¬buffer.Ends offset 0 := by
      rintro ⟨hstart, hinside, -⟩
      omega
    have hbytes : (content.drop offset).take len = [] := by
      rw [← length_eq_zero_iff, length_take, length_drop, hnone]
    rw [hnone, if_neg hends, hbytes]
    rcases Nat.eq_zero_or_pos len with rfl | hlen
    · exact ⟨offset, buffer, rfl, hvalid, rfl⟩
    refine ⟨offset, pageOf content offset, ?_, pageOf_valid .., rfl⟩
    obtain ⟨k, hk⟩ := Nat.exists_eq_add_of_le' (show 2 ≤ 2 * len + 1 by omega)
    rw [rhizomeReadBuffered, hk, readRounds, if_neg (by omega), clip_eq, hnone]
    simp [readRounds]
  · obtain ⟨offset', hoffset', hread⟩ := readRounds_spec hvalid hpos
      (show offset + min len (content.length - offset) ≤ content.length by omega)
      (show 2 * min len (content.length - offset) + 1 ≤ 2 * len + 1 by omega)
    refine ⟨offset', _, ?_, pageOf_valid content (offset' - 1), hoffset'⟩
    rw [rhizomeReadBuffered, readRounds_clip hpos, hread]
    congr 2
    rw [take_eq_take_iff, length_drop]
    omega

end Rounds

/-- Reads at any offsets, one after the other. -/
def readAll (content : List Byte) (buffer : ReadBuffer) (reads : List (ℕ × ℕ)) :
    Except Abort ReadBuffer :=
  reads.foldlM (fun buffer read =>
    (rhizomeReadBuffered content read.1 buffer read.2).map fun answer => answer.2.2) buffer

theorem readAll_singleton {bytes : List Byte} {offset' : ℕ} {buffer' : ReadBuffer}
    (h : rhizomeReadBuffered content offset buffer len = .ok (bytes, offset', buffer')) :
    readAll content buffer [(offset, len)] = .ok buffer' :=
  congrArg (fun read => read.map (·.2.2) >>= fun buffer => pure buffer) h

theorem readAll_valid (hvalid : buffer.Valid content) {reads : List (ℕ × ℕ)}
    (hreads : ∀ read ∈ reads, read.1 ≤ content.length) :
    ∃ buffer', readAll content buffer reads = .ok buffer' ∧ buffer'.Valid content := by
  induction reads generalizing buffer with
  | nil => exact ⟨buffer, rfl, hvalid⟩
  | cons read reads ih =>
    obtain ⟨hfirst, hlater⟩ := forall_mem_cons.mp hreads
    obtain ⟨offset', next, hread, hnext, -⟩ := rhizomeReadBuffered_spec hvalid hfirst read.2
    obtain ⟨buffer', hall, hvalid'⟩ := ih hnext hlater
    refine ⟨buffer', ?_, hvalid'⟩
    rwa [readAll, foldlM_cons, hread]

/-- After any reads, a read gives the bytes at its offset. It advances the offset by their number,
unless their end was taken from the start of the buffer. -/
theorem rhizomeReadBuffered_sequential_iff (content : List Byte) (reads : List (ℕ × ℕ))
    (hreads : ∀ read ∈ reads, read.1 ≤ content.length) (hoffset : offset ≤ content.length)
    (len : ℕ) :
    ∃ buffer offset' buffer', readAll content ⟨0, []⟩ reads = .ok buffer ∧
      rhizomeReadBuffered content offset buffer len =
        .ok ((content.drop offset).take len, offset', buffer') ∧
      (offset' = offset + min len (content.length - offset) ↔
        ¬buffer.Ends offset (min len (content.length - offset))) := by
  obtain ⟨buffer, hall, hvalid⟩ :=
    readAll_valid (show (⟨0, []⟩ : ReadBuffer).Valid content from .inl rfl) hreads
  obtain ⟨offset', buffer', hread, -, hoffset'⟩ := rhizomeReadBuffered_spec hvalid hoffset len
  refine ⟨buffer, offset', buffer', hall, hread, ?_⟩
  by_cases hends : buffer.Ends offset (min len (content.length - offset))
  · have hinside := hends.2.1
    rw [if_pos hends] at hoffset'
    exact iff_of_false (by omega) (not_not.mpr hends)
  · rw [if_neg hends] at hoffset'
    exact iff_of_true hoffset' hends

theorem rhizomeReadBuffered_sequential_twice :
    ∃ buffer buffer', readAll [7#8, 8#8, 9#8] ⟨0, []⟩ [(1, 1)] = .ok buffer ∧
      rhizomeReadBuffered [7#8, 8#8, 9#8] 0 buffer 2 = .ok ([7#8, 8#8], 2, buffer') := by
  obtain ⟨buffer, offset', buffer', hall, hread, hiff⟩ :=
    @rhizomeReadBuffered_sequential_iff 0 [7#8, 8#8, 9#8] [(1, 1)] (by decide) (Nat.zero_le _) 2
  have hpage : readAll [7#8, 8#8, 9#8] ⟨0, []⟩ [(1, 1)] = .ok ⟨0, [7#8, 8#8, 9#8]⟩ := by
    with_unfolding_all rfl
  obtain rfl : ⟨0, [7#8, 8#8, 9#8]⟩ = buffer := Except.ok.inj (hpage.symm.trans hall)
  obtain rfl : offset' = 2 := hiff.mpr (by decide)
  exact ⟨_, buffer', hall, hread⟩

/-- The end of what is wanted is on the page that was read before. -/
theorem rhizomeReadBuffered_straddles :
    ∃ buffer buffer', readAll (replicate 4097 0#8) ⟨0, []⟩ [(4096, 1)] = .ok buffer ∧
      rhizomeReadBuffered (replicate 4097 0#8) 4095 buffer 2 = .ok ([0#8, 0#8], 4096, buffer') := by
  have hstart : (pageOf (replicate 4097 0#8) 4096).offset = 4096 := rfl
  have hlength := pageOf_length (replicate 4097 0#8) 4096
  rw [hstart, length_replicate, pageSize_eq] at hlength
  obtain ⟨first, hfirst, hread⟩ := @readRounds_spec (replicate 4097 0#8) 3 4096 1 ⟨0, []⟩ (.inl rfl)
    (by decide) (by rw [length_replicate]) (by decide)
  obtain ⟨second, hsecond, hread'⟩ := readRounds_spec (pageOf_valid (replicate 4097 0#8) 4096)
    (show 0 < 2 by decide) (show 4095 + 2 ≤ _ by rw [length_replicate])
    (show 2 * 2 + 1 ≤ 5 by decide)
  rw [if_pos (by rw [ReadBuffer.Ends]; omega), hstart] at hsecond
  rw [hfirst] at hread
  rw [hsecond, drop_replicate, take_replicate] at hread'
  exact ⟨_, _, readAll_singleton hread, hread'⟩

end Buffered

section Records

/-- `append_footer` without its assertion. -/
def footer (type messageLen : ℕ) : List Byte :=
  Msp.writeUint16 (BitVec.ofNat 16 (messageLen * 2 ^ 4 + type % 2 ^ 4))

def appendFooter (type messageLen : ℕ) : Except Abort (List Byte) :=
  if messageLen ≤ meshmsMessageMaxLen then .ok (footer type messageLen) else .error .assertion

structure Record where
  type : ℕ
  bytes : List Byte
deriving DecidableEq

/-- A record as it is stored. -/
def Record.encode (r : Record) : List Byte := r.bytes ++ footer r.type r.bytes.length

structure Record.WellFormed (r : Record) : Prop where
  type_lt : r.type < 2 ^ 4
  bytes_ne : r.bytes ≠ []
  length_le : r.bytes.length ≤ meshmsMessageMaxLen

/-- What a ply with these records is stored as. -/
def encodeAll (records : List Record) : List Byte := records.flatMap Record.encode

/-- `struct meshms_ply_read`, where `content` is what can be read. -/
structure PlyRead where
  content : List Byte
  offset : ℕ
  buff : ReadBuffer
  recordEndOffset : ℕ
  recordLength : ℕ
  type : ℕ
  record : List Byte
deriving DecidableEq

/-- The struct as it is cleared. -/
def PlyRead.zero : PlyRead := ⟨[], 0, ⟨0, []⟩, 0, 0, 0, []⟩

/-- `ply_read_open`, at the end of the payload. -/
def plyReadOpen (content : List Byte) : PlyRead := { PlyRead.zero with
  content, offset := content.length }

/-- Read the record before the offset. -/
def plyReadPrev (ply : PlyRead) : Except Abort (MeshmsStatus × PlyRead) :=
  let ply := { ply with recordEndOffset := ply.offset }
  if ply.offset ≤ 2 then .ok (.ok, ply)
  else
    match rhizomeReadBuffered ply.content (ply.offset - 2) ply.buff 2 with
    | .error e => .error e
    | .ok (footer, offset, buff) =>
      let ply := { ply with offset, buff }
      if footer.length ≠ 2 then .ok (.protocolFault, ply)
      else
        let recordLength := (Msp.readUint16 footer 0).toNat
        let ply := { ply with type := recordLength % 2 ^ 4, recordLength := recordLength / 2 ^ 4 }
        if ply.offset < ply.recordLength + 2 then .ok (.ok, ply)
        else
          let recordStart := ply.offset - (ply.recordLength + 2)
          match rhizomeReadBuffered ply.content recordStart ply.buff ply.recordLength with
          | .error e => .error e
          | .ok (record, offset, buff) =>
            if record.length ≠ ply.recordLength then
              .ok (.protocolFault, { ply with offset, buff, record })
            else .ok (.updated, { ply with offset := recordStart, buff, record })

variable {ply ply' : PlyRead} {r : Record} {before after : List Byte}

/-- Each record that is read is before the one read last. -/
theorem plyReadPrev_lt (h : plyReadPrev ply = .ok (.updated, ply')) : ply'.offset < ply.offset := by
  rw [plyReadPrev] at h
  dsimp only at h
  split at h
  · exact nomatch h
  split at h
  · exact nomatch h
  rename_i bytes offset buff hread
  have hle := readRounds_le hread
  split at h
  · exact nomatch h
  split at h
  · exact nomatch h
  split at h
  · exact nomatch h
  split at h
  · exact nomatch h
  · cases h
    dsimp only
    omega

theorem footer_length (type messageLen : ℕ) : (footer type messageLen).length = 2 := rfl

theorem encode_length (r : Record) : r.encode.length = r.bytes.length + 2 := by
  rw [Record.encode, length_append, footer_length]

/-- The footer holds the type and the length. -/
theorem readUint16_footer (hr : r.WellFormed) :
    (Msp.readUint16 (footer r.type r.bytes.length) 0).toNat =
      r.bytes.length * 2 ^ 4 + r.type := by
  have htype := hr.type_lt
  have hlength : r.bytes.length ≤ 4095 := hr.length_le
  have hread : Msp.readUint16 (footer r.type r.bytes.length) 0 =
      BitVec.ofNat 16 (r.bytes.length * 2 ^ 4 + r.type % 2 ^ 4) := Msp.uint16_of_bytes _
  rw [hread, BitVec.toNat_ofNat]
  omega

/-- The reader after it has read a record. -/
def PlyRead.reading (ply : PlyRead) (r : Record) (offset : ℕ) (buff : ReadBuffer) : PlyRead :=
  { ply with
    offset, buff
    recordEndOffset := ply.offset
    recordLength := r.bytes.length
    type := r.type
    record := r.bytes }

section Record

variable (hcontent : ply.content = before ++ (r.encode ++ after))
  (hoffset : ply.offset = before.length + r.encode.length) (hr : r.WellFormed)
include hcontent hoffset

theorem footer_at : (ply.content.drop (ply.offset - 2)).take 2 = footer r.type r.bytes.length ∧
    ply.content.length = ply.offset + after.length := by
  have hlength := encode_length r
  constructor
  · rw [hcontent, Record.encode, append_assoc, ← append_assoc before,
      drop_left' (by rw [length_append]; omega), take_left' (footer_length _ _)]
  · rw [hcontent, hoffset, length_append, length_append, add_assoc]

include hr

/-- A record is read, if the offset is behind its footer after that was read. -/
theorem plyReadPrev_read {buff buff' : ReadBuffer} {offset' : ℕ}
    (hfooter : rhizomeReadBuffered ply.content (ply.offset - 2) ply.buff 2 =
      .ok ((ply.content.drop (ply.offset - 2)).take 2, ply.offset - 2 + 2, buff))
    (hrecord : rhizomeReadBuffered ply.content before.length buff r.bytes.length =
      .ok ((ply.content.drop before.length).take r.bytes.length, offset', buff')) :
    plyReadPrev ply = .ok (.updated, ply.reading r before.length buff') := by
  have hlength := encode_length r
  have hpos := length_pos_iff.mpr hr.bytes_ne
  have htype := hr.type_lt
  rw [(footer_at hcontent hoffset).1, Nat.sub_add_cancel (by omega)] at hfooter
  rw [hcontent, drop_left' rfl, Record.encode, append_assoc, take_left' rfl,
    ← append_assoc r.bytes, ← Record.encode, ← hcontent] at hrecord
  have hstart : ply.offset - (r.bytes.length + 2) = before.length := by omega
  rw [plyReadPrev]
  dsimp only
  rw [if_neg (by omega), hfooter]
  dsimp only
  rw [if_neg (not_not.mpr (footer_length _ _)), readUint16_footer hr,
    show (r.bytes.length * 2 ^ 4 + r.type) / 2 ^ 4 = r.bytes.length by omega,
    show (r.bytes.length * 2 ^ 4 + r.type) % 2 ^ 4 = r.type by omega, if_neg (by omega), hstart,
    hrecord]
  dsimp only
  rw [if_neg (not_not.mpr rfl)]
  rfl

/-- A record is read, if its footer does not start before the page in the buffer. -/
theorem plyReadPrev_record (hends : ¬ply.buff.Ends (ply.offset - 2) 2)
    (hvalid : ply.buff.Valid ply.content) :
    ∃ last, before.length ≤ last ∧ last < before.length + r.bytes.length ∧
      plyReadPrev ply = .ok (.updated, ply.reading r before.length (pageOf ply.content last)) := by
  have hlength := encode_length r
  have hpos := length_pos_iff.mpr hr.bytes_ne
  have htotal := (footer_at hcontent hoffset).2
  obtain ⟨_, rfl, hfooter⟩ := readRounds_spec hvalid (by decide)
    (show ply.offset - 2 + 2 ≤ ply.content.length by omega) (show 2 * 2 + 1 ≤ 5 by decide)
  obtain ⟨offset', hoffset', hrecord⟩ := readRounds_spec
    (pageOf_valid ply.content (ply.offset - 2 + 2 - 1)) hpos
    (show before.length + r.bytes.length ≤ ply.content.length by omega) le_rfl
  rw [if_neg hends] at hfooter
  refine ⟨offset' - 1, ?_, ?_, plyReadPrev_read hcontent hoffset hr hfooter hrecord⟩
  all_goals
    split at hoffset'
    case isTrue hends =>
      rw [ReadBuffer.Ends] at hends
      omega
    case isFalse => omega

/-- A record on one page is read from the page in the buffer. -/
theorem plyReadPrev_page
    (hpage : before.length % rhizomeCryptPageSize + r.encode.length ≤ rhizomeCryptPageSize)
    (hvalid : ply.buff.Valid ply.content) :
    plyReadPrev ply =
      .ok (.updated, ply.reading r before.length (pageOf ply.content before.length)) := by
  have hlength := encode_length r
  rw [pageSize_eq] at hpage
  obtain ⟨last, hfirst, hlast, hread⟩ := plyReadPrev_record hcontent hoffset hr
    (hvalid.not_ends (by rw [pageSize_eq]; omega)) hvalid
  have hsame : last / rhizomeCryptPageSize = before.length / rhizomeCryptPageSize := by
    rw [pageSize_eq]
    omega
  rw [hread, pageOf_congr hsame]

/-- If the footer of a record is on two pages and the second of them was read before, what is read
starts before the record. The first record of a ply is then not read at all. -/
theorem plyReadPrev_twoPages (hpage : ply.offset % rhizomeCryptPageSize = 1)
    (hbuff : ply.buff = pageOf ply.content ply.offset) :
    (before = [] → ∃ ply', plyReadPrev ply = .ok (.ok, ply')) ∧
      ∀ ply', plyReadPrev ply = .ok (.updated, ply') → ply'.offset < before.length := by
  have hlength := encode_length r
  have hpos := length_pos_iff.mpr hr.bytes_ne
  have htype := hr.type_lt
  obtain ⟨hfooter, htotal⟩ := footer_at hcontent hoffset
  obtain ⟨_, rfl, hread⟩ := readRounds_spec (pageOf_valid ply.content ply.offset) (by decide)
    (show ply.offset - 2 + 2 ≤ ply.content.length by omega) (show 2 * 2 + 1 ≤ 5 by decide)
  have hstart := pageOf_offset ply.content ply.offset
  have hsize := pageOf_length ply.content ply.offset
  have hends : (pageOf ply.content ply.offset).Ends (ply.offset - 2) 2 := by
    rw [pageSize_eq] at hsize
    rw [ReadBuffer.Ends]
    omega
  rw [if_pos hends, hfooter] at hread
  rw [plyReadPrev]
  dsimp only
  rw [if_neg (by omega), hbuff, rhizomeReadBuffered, hread]
  dsimp only
  rw [if_neg (not_not.mpr (footer_length _ _)), readUint16_footer hr,
    show (r.bytes.length * 2 ^ 4 + r.type) / 2 ^ 4 = r.bytes.length by omega]
  constructor
  · rintro rfl
    rw [length_nil] at hoffset
    rw [if_pos (by omega)]
    exact ⟨_, rfl⟩
  · intro ply' h
    split at h
    · exact nomatch h
    split at h
    · exact nomatch h
    split at h
    · exact nomatch h
    · cases h
      dsimp only
      omega

end Record

/-- At the start of a ply there is nothing to read. -/
theorem plyReadPrev_start (hoffset : ply.offset = 0) :
    plyReadPrev ply = .ok (.ok, { ply with recordEndOffset := 0 }) := by
  rw [plyReadPrev]
  dsimp only
  rw [if_pos (by omega), hoffset]

/-- Keep reading until there is a record of this type. -/
def plyFindPrev (ply : PlyRead) (type : ℕ) : Except Abort (MeshmsStatus × PlyRead) :=
  match _h : plyReadPrev ply with
  | .error e => .error e
  | .ok (status, ply') =>
    if _hstatus : status = .updated ∧ ply'.type ≠ type then plyFindPrev ply' type
    else .ok (status, ply')
termination_by ply.offset
decreasing_by
  obtain ⟨rfl, -⟩ := _hstatus
  exact plyReadPrev_lt _h

theorem plyFindPrev_eq {status : MeshmsStatus} (type : ℕ)
    (hprev : plyReadPrev ply = .ok (status, ply')) : plyFindPrev ply type =
      if status = .updated ∧ ply'.type ≠ type then plyFindPrev ply' type
      else .ok (status, ply') := by
  rw [plyFindPrev]
  split
  case h_1 herror => exact nomatch hprev.symm.trans herror
  case h_2 status' ply'' hprev' =>
    cases hprev.symm.trans hprev'
    exact dite_eq_ite

end Records

section Positions

/-- The records of a ply with the offsets where they end. -/
def located : ℕ → List Record → List (ℕ × Record)
  | _, [] => []
  | start, r :: records => (start + r.encode.length, r) :: located (start + r.encode.length) records

/-- No record has a footer on two pages. -/
def OnePage (records : List Record) : Prop :=
  ∀ e ∈ located 0 records, e.1 % rhizomeCryptPageSize ≠ 1

instance : DecidablePred OnePage := fun records =>
  inferInstanceAs (Decidable (∀ e ∈ located 0 records, e.1 % rhizomeCryptPageSize ≠ 1))

/-- All records can be read. -/
structure Readable (records : List Record) : Prop where
  wellFormed : ∀ r ∈ records, r.WellFormed
  onePage : OnePage records

variable {records more rest : List Record} {r : Record} {ply : PlyRead} {type : ℕ}

theorem encodeAll_append (records more : List Record) :
    encodeAll (records ++ more) = encodeAll records ++ encodeAll more :=
  flatMap_append

theorem encodeAll_singleton (r : Record) : encodeAll [r] = r.encode := flatMap_singleton ..

theorem encodeAll_cons (r : Record) (records : List Record) :
    encodeAll (r :: records) = r.encode ++ encodeAll records :=
  flatMap_cons ..

theorem located_append (start : ℕ) (records more : List Record) :
    located start (records ++ more) =
      located start records ++ located (start + (encodeAll records).length) more := by
  induction records generalizing start with
  | nil => rfl
  | cons r records ih =>
    rw [cons_append, located, ih, located, encodeAll_cons, length_append,
      cons_append, add_assoc]

theorem located_snoc (records : List Record) (r : Record) :
    located 0 (records ++ [r]) =
      located 0 records ++ [((encodeAll (records ++ [r])).length, r)] := by
  rw [located_append, located, located, zero_add, encodeAll_append, encodeAll_singleton,
    length_append]

theorem OnePage.left (h : OnePage (records ++ more)) : OnePage records := by
  intro e he
  apply h
  rw [located_append]
  exact mem_append_left _ he

theorem Readable.left (h : Readable (records ++ more)) : Readable records :=
  ⟨fun r hr => h.wellFormed r (mem_append_left _ hr), h.onePage.left⟩

theorem Readable.last (h : Readable (records ++ [r])) :
    r.WellFormed ∧ (encodeAll (records ++ [r])).length % rhizomeCryptPageSize ≠ 1 := by
  refine ⟨h.wellFormed r (mem_append_right _ mem_cons_self), h.onePage (_, r) ?_⟩
  rw [located_snoc]
  exact mem_append_right _ mem_cons_self

/-- A record ends within its ply. -/
theorem located_le {start : ℕ} {e : ℕ × Record} (h : e ∈ located start records) :
    start < e.1 ∧ e.1 ≤ start + (encodeAll records).length := by
  induction records generalizing start with
  | nil => exact absurd h not_mem_nil
  | cons r records ih =>
    rw [located, mem_cons] at h
    rw [encodeAll_cons, length_append]
    have hpos := encode_length r
    rcases h with rfl | h
    · omega
    · obtain ⟨hlt, hle⟩ := ih h
      omega

/-- The reader is behind some records of its ply. -/
structure Behind (ply : PlyRead) (records rest : List Record) : Prop where
  content : ply.content = encodeAll (records ++ rest)
  offset : ply.offset = (encodeAll records).length
  valid : ply.buff.Valid ply.content

theorem behind_open (records : List Record) : Behind (plyReadOpen (encodeAll records)) records [] :=
  ⟨by rw [append_nil]; rfl, rfl, .inl rfl⟩

theorem Behind.start (h : Behind ply [] rest) :
    plyReadPrev ply = .ok (.ok, { ply with recordEndOffset := 0 }) ∧
      Behind { ply with recordEndOffset := 0 } [] rest :=
  ⟨plyReadPrev_start h.offset, h.content, h.offset, h.valid⟩

/-- What the reader says about the record that it has read. -/
structure Shows (ply : PlyRead) (r : Record) (recordEnd : ℕ) : Prop where
  recordEndOffset : ply.recordEndOffset = recordEnd
  recordLength : ply.recordLength = r.bytes.length
  type : ply.type = r.type
  record : ply.record = r.bytes

theorem Behind.read (h : Behind ply (records ++ [r]) rest) (hread : Readable (records ++ [r])) :
    ∃ ply', plyReadPrev ply = .ok (.updated, ply') ∧ Behind ply' records (r :: rest) ∧
      Shows ply' r (encodeAll (records ++ [r])).length := by
  obtain ⟨hr, hpage⟩ := hread.last
  have hoffset := h.offset
  rw [← hoffset] at hpage ⊢
  have hcontent : ply.content = encodeAll records ++ (r.encode ++ encodeAll rest) := by
    rw [h.content, encodeAll_append, encodeAll_append, encodeAll_singleton, append_assoc]
  rw [encodeAll_append, encodeAll_singleton, length_append] at hoffset
  obtain ⟨last, -, -, hprev⟩ :=
    plyReadPrev_record hcontent hoffset hr (h.valid.not_ends hpage) h.valid
  refine ⟨_, hprev, ⟨?_, rfl, pageOf_valid _ last⟩, ⟨rfl, rfl, rfl, rfl⟩⟩
  rw [append_cons]
  exact h.content

/-- The last record of a type is found, or there is none. -/
theorem Behind.find (h : Behind ply records rest) (hread : Readable records) (type : ℕ) :
    (∃ before r after ply', records = before ++ r :: after ∧ r.type = type ∧
      (∀ x ∈ after, x.type ≠ type) ∧ plyFindPrev ply type = .ok (.updated, ply') ∧
      Behind ply' before (r :: after ++ rest) ∧
      Shows ply' r (encodeAll (before ++ [r])).length) ∨
    ∃ ply', (∀ x ∈ records, x.type ≠ type) ∧ plyFindPrev ply type = .ok (.ok, ply') ∧
      Behind ply' [] (records ++ rest) ∧ ply'.recordEndOffset = 0 := by
  induction records using List.reverseRecOn generalizing ply rest with
  | nil =>
    obtain ⟨hprev, hbehind⟩ := h.start
    refine .inr ⟨_, nofun, ?_, hbehind, rfl⟩
    exact (plyFindPrev_eq type hprev).trans (if_neg fun hstatus => nomatch hstatus.1)
  | append_singleton records r ih =>
    obtain ⟨ply', hprev, hbehind, hshows⟩ := h.read hread
    have hfind := plyFindPrev_eq type hprev
    rw [hshows.type] at hfind
    by_cases htype : r.type = type
    · rw [if_neg fun hstatus => hstatus.2 htype] at hfind
      exact .inl ⟨records, r, [], ply', rfl, htype, nofun, hfind, hbehind, hshows⟩
    rw [if_pos ⟨rfl, htype⟩] at hfind
    rcases ih hbehind hread.left with ⟨before, r', after, ply'', rfl, hr', hafter, hfound⟩ | hnone
    · refine .inl ⟨before, r', after ++ [r], ply'', ?_, hr',
        forall_mem_append.mpr ⟨hafter, forall_mem_singleton.mpr htype⟩, hfind.trans hfound.1, ?_,
        hfound.2.2⟩
      · rw [append_assoc, cons_append]
      · rw [cons_append, append_assoc, singleton_append]
        exact hfound.2.1
    · obtain ⟨ply'', hnone, hfound, hbehind', hend⟩ := hnone
      refine .inr ⟨ply'', forall_mem_append.mpr ⟨hnone, forall_mem_singleton.mpr htype⟩,
        hfind.trans hfound, ?_, hend⟩
      rwa [append_assoc]

end Positions

end ServalMesh.Meshms
