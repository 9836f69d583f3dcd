import Mathlib.Data.List.TakeWhile
import ServalMesh.Lib.Ascii
import ServalMesh.Lib.Memory

/-!
# String buffers

A `strbuf` assembles a string in a buffer of fixed size and counts what no longer fits. The current
position may run past the end of the buffer, and is brought back by a truncation.
-/

namespace ServalMesh.Util

open Lib List Memory

abbrev Mem := Memory (BitVec 8)

/-- `struct strbuf`. An address is zero if the pointer is NULL. -/
structure Strbuf where
  start : ℕ
  stop : ℕ
  current : ℕ
deriving DecidableEq

section Operations

def strbufReset (m : Mem) (sb : Strbuf) : Mem × Strbuf :=
  (if sb.start ≠ 0 then m.write sb.start 0#8 else m, { sb with current := sb.start })

/-- `strbuf_init`, with no size for a buffer without a limit. -/
def strbufInit (m : Mem) (buffer : ℕ) (size : Option ℕ) : Mem × Strbuf :=
  strbufReset m ⟨buffer, match size with | some size => buffer + size - 1 | none => 0, buffer⟩

/-- The copy loops of `strbuf_ncat` and `strbuf_puts`: at most so many bytes, up to a NUL. Beyond
the end of a text there is its NUL. What is left of the text is returned. -/
def copyLoop (m : Mem) (c : ℕ) (text : List (BitVec 8)) : ℕ → Mem × ℕ × List (BitVec 8)
  | 0 => (m, c, text)
  | n + 1 =>
    let m := m.write c (text.headD 0#8)
    if text.headD 0#8 = 0#8 then (m, c, text) else copyLoop m (c + 1) text.tail n

def strbufNcat (m : Mem) (sb : Strbuf) (text : List (BitVec 8)) (len : ℕ) : Mem × Strbuf :=
  let m :=
    if sb.start ≠ 0 ∧ (sb.stop = 0 ∨ sb.current < sb.stop) then
      let n := if sb.stop ≠ 0 then min (sb.stop - sb.current) len else len
      let (m, c, _) := copyLoop m sb.current text n
      m.write c 0#8
    else m
  (m, { sb with current := sb.current + len })

/-- The copy loop of `strbuf_puts` for a buffer without a limit. -/
def putsLoop (m : Mem) (c : ℕ) : List (BitVec 8) → Mem × ℕ × List (BitVec 8)
  | [] => (m.write c 0#8, c, [])
  | ch :: text =>
    if ch = 0#8 then (m.write c ch, c, ch :: text) else putsLoop (m.write c ch) (c + 1) text

/-- How many characters of a text come before its NUL. -/
def strlen (text : List (BitVec 8)) : ℕ := (text.takeWhile (· ≠ 0#8)).length

def strbufPuts (m : Mem) (sb : Strbuf) (text : List (BitVec 8)) : Mem × Strbuf :=
  let (m, current, text) :=
    if sb.start ≠ 0 then
      if sb.stop = 0 then putsLoop m sb.current text
      else if sb.current < sb.stop then
        let (m, c, text) := copyLoop m sb.current text (sb.stop - sb.current)
        (m.write c 0#8, c, text)
      else (m, sb.current, text)
    else (m, sb.current, text)
  (m, { sb with current := current + strlen text })

/-- The loop of `strbuf_tohex`, from one digit on. -/
def tohexLoop (e : ℕ) (m : Mem) (p i : ℕ) (data : List (BitVec 8)) : ℕ → Mem
  | 0 => m
  | n + 1 =>
    if p < e then
      if i % 2 = 1 then
        tohexLoop e (m.write p (hexdigitUpper ((data.headD 0#8).toNat % 16))) (p + 1) (i + 1)
          data.tail n
      else
        tohexLoop e (m.write p (hexdigitUpper ((data.headD 0#8).toNat / 16))) (p + 1) (i + 1) data n
    else m

def strbufTohex (m : Mem) (sb : Strbuf) (len : ℕ) (data : List (BitVec 8)) : Mem × Strbuf :=
  let p := sb.current
  let sb := { sb with current := sb.current + len }
  if sb.start ≠ 0 then
    let e := if sb.stop ≠ 0 ∧ sb.stop < sb.current then sb.stop else sb.current
    ((tohexLoop e m p 0 data len).write e 0#8, sb)
  else (m, sb)

def strbufPutc (m : Mem) (sb : Strbuf) (ch : BitVec 8) : Mem × Strbuf :=
  let m :=
    if sb.start ≠ 0 ∧ (sb.stop = 0 ∨ sb.current < sb.stop) then
      (m.write sb.current ch).write (sb.current + 1) 0#8
    else m
  (m, { sb with current := sb.current + 1 })

/-- The address of the NUL. -/
def strbufEnd (sb : Strbuf) : ℕ :=
  if sb.stop ≠ 0 ∧ sb.stop < sb.current then sb.stop else sb.current

def strbufTrunc (m : Mem) (sb : Strbuf) (offset : ℤ) : Mem × Strbuf :=
  let current :=
    if offset < 0 then
      if offset ≤ (sb.start : ℤ) - strbufEnd sb then sb.start
      else (strbufEnd sb + offset).toNat
    else min sb.current (sb.start + offset.toNat)
  (if sb.start ≠ 0 ∧ (sb.stop = 0 ∨ current < sb.stop) then m.write current 0#8 else m,
    { sb with current })

def strbufLen (sb : Strbuf) : ℕ := strbufEnd sb - sb.start

def strbufCount (sb : Strbuf) : ℕ := sb.current - sb.start

def strbufOverrun (sb : Strbuf) : Bool := sb.stop ≠ 0 && sb.stop < sb.current

end Operations

section Runs

/-- The operations, as they are called. -/
inductive StrbufOp where
  | reset
  | ncat (text : List (BitVec 8)) (len : ℕ)
  | puts (text : List (BitVec 8))
  | putc (ch : BitVec 8)
  | tohex (len : ℕ) (data : List (BitVec 8))
  | trunc (offset : ℤ)

def StrbufOp.run (s : Mem × Strbuf) : StrbufOp → Mem × Strbuf
  | .reset => strbufReset s.1 s.2
  | .ncat text len => strbufNcat s.1 s.2 text len
  | .puts text => strbufPuts s.1 s.2 text
  | .putc ch => strbufPutc s.1 s.2 ch
  | .tohex len data => strbufTohex s.1 s.2 len data
  | .trunc offset => strbufTrunc s.1 s.2 offset

def runStrbuf (s : Mem × Strbuf) (ops : List StrbufOp) : Mem × Strbuf := ops.foldl StrbufOp.run s

/-- What an operation does to a string without a limit. -/
def StrbufOp.apply (text : List (BitVec 8)) : StrbufOp → List (BitVec 8)
  | .reset => []
  | .ncat more len => text ++ more.take len
  | .puts more => text ++ more
  | .putc ch => text ++ [ch]
  | .tohex len data => text ++ (Lib.tohex data).take len
  | .trunc offset => text.take offset.toNat

/-- How much of a string is stored in a buffer of some size. -/
def stored (size : Option ℕ) (text : List (BitVec 8)) : ℕ :=
  match size with
  | some size => min text.length (size - 1)
  | none => text.length

/-- Texts have no NUL in them and as many characters as are asked for, and a truncation is not
beyond the stored part. -/
def StrbufOp.valid (size : Option ℕ) (text : List (BitVec 8)) : StrbufOp → Bool
  | .reset => true
  | .ncat more len => len ≤ more.length && (more.take len).all (· ≠ 0#8)
  | .puts more => more.all (· ≠ 0#8)
  | .putc ch => ch ≠ 0#8
  | .tohex len data => len ≤ 2 * data.length
  | .trunc offset => 0 ≤ offset && offset.toNat ≤ stored size text

/-- The string that a run stands for. -/
def runText (ops : List StrbufOp) : List (BitVec 8) := ops.foldl StrbufOp.apply []

/-- All operations of a run are valid. -/
def validRun (size : Option ℕ) (text : List (BitVec 8)) : List StrbufOp → Bool
  | [] => true
  | op :: ops => op.valid size text && validRun size (op.apply text) ops

end Runs

section Appending

variable {m m' : Mem} {sb sb' : Strbuf} {text more : List (BitVec 8)} {len : ℕ}

/-- Whether the NUL can be moved. -/
def Strbuf.HasRoom (sb : Strbuf) : Prop := sb.stop = 0 ∨ sb.current < sb.stop

/-- How much of what is appended is stored. -/
def Strbuf.room (sb : Strbuf) (more : List (BitVec 8)) : ℕ :=
  if sb.stop = 0 then more.length else min (sb.stop - sb.current) more.length

/-- A text is appended as far as there is room, and counted. -/
structure Appends (m : Mem) (sb : Strbuf) (more : List (BitVec 8)) (m' : Mem) (sb' : Strbuf) :
    Prop where
  start : sb'.start = sb.start
  stop : sb'.stop = sb.stop
  current : sb'.current = sb.current + more.length
  null : sb.start = 0 → m' = m
  room : sb.start ≠ 0 → sb.HasRoom →
    m.Puts m' sb.current (more.take (sb.room more) ++ [0#8])
  full : sb.start ≠ 0 → ¬sb.HasRoom → m' = m ∨ m.Puts m' sb.stop [0#8]

/-- The loop copies a text, or so much of it as there is room for. -/
theorem copyLoop_spec (m : Mem) (c : ℕ) (text : List (BitVec 8)) {n : ℕ}
    (htext : ∀ ch ∈ text.take n, ch ≠ 0#8) :
    ∃ m', copyLoop m c text n = (m', c + min n text.length, text.drop n) ∧
      m.Puts (m'.write (c + min n text.length) 0#8) c (text.take n ++ [0#8]) := by
  induction n generalizing m c text with
  | zero =>
    refine ⟨m, by simp [copyLoop], ?_⟩
    exact puts_write m c 0#8
  | succ n ih =>
    cases text with
    | nil =>
      refine ⟨m.write c 0#8, by simp [copyLoop], ?_⟩
      exact Puts.rewrite [] (puts_write m c 0#8)
    | cons ch text =>
      have hch : ch ≠ 0#8 := htext ch (by simp)
      obtain ⟨m', hloop, hputs⟩ := ih (m.write c ch) (c + 1) text
        (forall_mem_cons.mp htext).2
      have hlength : c + 1 + min n text.length = c + min (n + 1) (ch :: text).length := by
        rw [length_cons]
        omega
      rw [hlength] at hloop hputs
      refine ⟨m', ?_, (puts_write m c ch).append hputs⟩
      rwa [copyLoop, headD_cons, if_neg hch]

theorem putsLoop_spec (m : Mem) (c : ℕ) {text : List (BitVec 8)} (htext : ∀ ch ∈ text, ch ≠ 0#8) :
    ∃ m', putsLoop m c text = (m', c + text.length, []) ∧ m.Puts m' c (text ++ [0#8]) := by
  induction text generalizing m c with
  | nil => exact ⟨m.write c 0#8, rfl, puts_write m c 0#8⟩
  | cons ch text ih =>
    obtain ⟨m', hloop, hputs⟩ := ih (m.write c ch) (c + 1)
      (forall_mem_cons.mp htext).2
    refine ⟨m', ?_, (puts_write m c ch).append hputs⟩
    rw [putsLoop, if_neg (htext ch mem_cons_self), hloop, length_cons,
      Nat.add_assoc, Nat.add_comm 1]

/-- The digits are those of the data, up to the end. -/
theorem tohexLoop_eq (e : ℕ) (m : Mem) (p i : ℕ) (data : List (BitVec 8)) (n : ℕ)
    (hn : n ≤ ((tohex data).drop (i % 2)).length) :
    tohexLoop e m p i data n = m.put p (((tohex data).drop (i % 2)).take (min n (e - p))) := by
  induction n generalizing m p i data with
  | zero => simp [tohexLoop, put]
  | succ n ih =>
    rw [tohexLoop]
    by_cases hp : p < e
    · rw [if_pos hp]
      cases data with
      | nil => exact absurd hn (by simp [tohex])
      | cons byte data =>
        have hmin : min (n + 1) (e - p) = min n (e - (p + 1)) + 1 := by omega
        rcases Nat.mod_two_eq_zero_or_one i with hi | hi
        · have hnext : (i + 1) % 2 = 1 := by omega
          rw [hi, drop_zero, tohex] at hn ⊢
          rw [if_neg (by decide), hmin, take_succ_cons, put, ih _ _ _ _ (by
            rw [hnext, tohex]
            simpa using hn), hnext, tohex]
          rfl
        · have hnext : (i + 1) % 2 = 0 := by omega
          rw [hi, tohex] at hn ⊢
          rw [if_pos rfl, drop_succ_cons, drop_zero, hmin, take_succ_cons,
            put, tail_cons, ih _ _ _ _ (by
              rw [hnext]
              simpa using hn), hnext]
          rfl
    · rw [if_neg hp, show e - p = 0 by omega, Nat.min_zero]
      rfl

theorem strlen_eq (htext : ∀ ch ∈ text, ch ≠ 0#8) : strlen text = text.length := by
  rw [strlen, takeWhile_eq_self_iff.mpr (by simpa using htext)]

theorem strbufNcat_appends (hlen : len ≤ more.length) (hmore : ∀ ch ∈ more.take len, ch ≠ 0#8) :
    Appends m sb (more.take len) (strbufNcat m sb more len).1 (strbufNcat m sb more len).2 := by
  have hlength : (more.take len).length = len := length_take_of_le hlen
  refine ⟨rfl, rfl, congrArg (sb.current + ·) hlength.symm, ?_, ?_, ?_⟩
  · intro hnull
    exact if_neg fun h => h.1 hnull
  · intro hstart hroom
    have hn : (if sb.stop ≠ 0 then min (sb.stop - sb.current) len else len) =
        sb.room (more.take len) := by
      rw [Strbuf.room, hlength, ite_not]
    have hle : sb.room (more.take len) ≤ len := by
      rw [← hn]
      split <;> omega
    obtain ⟨m', hloop, hputs⟩ := copyLoop_spec m sb.current more
      fun ch hch => hmore ch (mem_of_mem_take (i := sb.room (more.take len)) (by
        rw [take_take, min_eq_left hle]
        exact hch))
    rw [strbufNcat]
    dsimp only
    rwa [if_pos ⟨hstart, hroom⟩, hn, hloop, take_take, min_eq_left hle]
  · intro hstart hfull
    exact .inl (if_neg fun h => hfull h.2)

theorem strbufPuts_appends (hmore : ∀ ch ∈ more, ch ≠ 0#8) :
    Appends m sb more (strbufPuts m sb more).1 (strbufPuts m sb more).2 := by
  have hlen := strlen_eq hmore
  rw [strbufPuts]
  by_cases hstart : sb.start ≠ 0
  · rw [if_pos hstart]
    by_cases hstop : sb.stop = 0
    · obtain ⟨m', hloop, hputs⟩ := putsLoop_spec m sb.current hmore
      rw [if_pos hstop, hloop]
      refine ⟨rfl, rfl, rfl, fun hnull => absurd hnull hstart, fun _ _ => ?_,
        fun _ hfull => absurd (.inl hstop) hfull⟩
      rwa [Strbuf.room, if_pos hstop, take_length]
    · rw [if_neg hstop]
      by_cases hroom : sb.current < sb.stop
      · obtain ⟨m', hloop, hputs⟩ := copyLoop_spec m sb.current more
          fun ch hch => hmore ch (mem_of_mem_take (i := sb.stop - sb.current) hch)
        have hrest : strlen (more.drop (sb.stop - sb.current)) =
            more.length - (sb.stop - sb.current) := by
          rw [strlen_eq fun ch hch => hmore ch (mem_of_mem_drop hch), length_drop]
        rw [if_pos hroom, hloop]
        refine ⟨rfl, rfl, ?_, fun hnull => absurd hnull hstart, fun _ _ => ?_,
          fun _ hfull => absurd (.inr hroom) hfull⟩
        · dsimp only
          omega
        · rwa [Strbuf.room, if_neg hstop, ← take_take, take_length]
      · rw [if_neg hroom]
        refine ⟨rfl, rfl, congrArg (sb.current + ·) hlen, fun _ => rfl, fun _ h => ?_,
          fun _ _ => .inl rfl⟩
        exact absurd h (by rintro (h | h) <;> contradiction)
  · rw [if_neg hstart]
    exact ⟨rfl, rfl, congrArg (sb.current + ·) hlen, fun _ => rfl, fun h => absurd h hstart,
      fun h => absurd h hstart⟩

theorem strbufPutc_appends (ch : BitVec 8) :
    Appends m sb [ch] (strbufPutc m sb ch).1 (strbufPutc m sb ch).2 := by
  refine ⟨rfl, rfl, rfl, fun hnull => if_neg fun h => h.1 hnull, ?_,
    fun _ hfull => .inl (if_neg fun h => hfull h.2)⟩
  intro hstart hroom
  have htake : [ch].take (sb.room [ch]) = [ch] := by
    apply take_of_length_le
    rw [Strbuf.room, length_singleton]
    rcases hroom with hroom | hroom
    · rw [if_pos hroom]
    · split <;> omega
  rw [htake, strbufPutc, if_pos ⟨hstart, hroom⟩]
  exact (puts_write m sb.current ch).append (puts_write _ (sb.current + 1) 0#8)

theorem strbufTohex_appends {data : List (BitVec 8)} (hlen : len ≤ 2 * data.length) :
    Appends m sb ((tohex data).take len) (strbufTohex m sb len data).1
      (strbufTohex m sb len data).2 := by
  have hle : len ≤ (tohex data).length := by rwa [length_tohex]
  have hlength : ((tohex data).take len).length = len := length_take_of_le hle
  rw [strbufTohex]
  dsimp only
  by_cases hstart : sb.start ≠ 0
  · rw [if_pos hstart]
    generalize he : (if sb.stop ≠ 0 ∧ sb.stop < sb.current + len then sb.stop
      else sb.current + len) = e
    have hloop := tohexLoop_eq e m sb.current 0 data len (by simpa using hle)
    refine ⟨rfl, rfl, congrArg (sb.current + ·) hlength.symm, fun hnull => absurd hnull hstart,
      ?_, ?_⟩
    · intro _ hroom
      have hroomlen : min len (e - sb.current) = sb.room ((tohex data).take len) := by
        rw [Strbuf.room, hlength]
        rcases hroom with hroom | hroom
        · rw [if_pos hroom, ← he, if_neg fun h => h.1 hroom]
          omega
        · rw [if_neg (show sb.stop ≠ 0 by omega), ← he]
          split <;> omega
      have hend : e = sb.current +
          ((tohex data).take (sb.room ((tohex data).take len))).length := by
        rw [length_take, ← hroomlen, ← he]
        rcases hroom with hroom | hroom <;> split <;> omega
      rw [hloop, take_take, hroomlen, min_eq_left (by rw [← hroomlen]; omega), hend]
      exact (puts_put ..).append (puts_write ..)
    · intro _ hfull
      right
      have hstop : sb.stop ≠ 0 := fun h => hfull (.inl h)
      have hpast : ¬sb.current < sb.stop := fun h => hfull (.inr h)
      have hend : e = sb.stop := by
        rw [← he]
        split <;> omega
      rw [hloop, hend, show sb.stop - sb.current = 0 by omega, Nat.min_zero]
      exact puts_write m sb.stop 0#8
  · rw [if_neg hstart]
    exact ⟨rfl, rfl, congrArg (sb.current + ·) hlength.symm, fun _ => rfl,
      fun h => absurd h hstart, fun h => absurd h hstart⟩

end Appending

section Refinement

variable {m m' : Mem} {sb sb' : Strbuf} {text more : List (BitVec 8)} {base limit : ℕ}
  {s : Mem × Strbuf}

/-- How much of a string is stored in a buffer that ends at an address. -/
def kept (base limit : ℕ) (text : List (BitVec 8)) : ℕ :=
  if limit = 0 then text.length else min text.length (limit - base)

/-- The buffer has the stored part of a string and a NUL, and only the buffer was written. -/
structure Assembles (base limit : ℕ) (m : Mem) (sb : Strbuf) (text : List (BitVec 8)) : Prop where
  start : sb.start = base
  stop : sb.stop = limit
  current : sb.current = base + text.length
  holds : base ≠ 0 → m.Holds base (text.take (kept base limit text) ++ [0#8])
  written : ∀ a ∈ m.written, base ≠ 0 ∧ base ≤ a ∧ (limit ≠ 0 → a ≤ limit)

section

variable (h : Assembles base limit m sb text)

include h

/-- Writing inside the buffer leaves everything else alone. -/
theorem Assembles.written_within {low high : ℕ} (hbase : base ≠ 0) (hwithin : m.Within m' low high)
    (hlow : base ≤ low) (hhigh : limit ≠ 0 → high ≤ limit + 1) :
    ∀ a ∈ m'.written, base ≠ 0 ∧ base ≤ a ∧ (limit ≠ 0 → a ≤ limit) := by
  intro a ha
  rcases hwithin.written a ha with ha | ⟨hge, hlt⟩
  · exact h.written a ha
  · refine ⟨hbase, hlow.trans hge, fun hlimit => ?_⟩
    omega

theorem Assembles.kept_room (hroom : sb.HasRoom) (more : List (BitVec 8)) :
    kept base limit text = text.length ∧
      kept base limit (text ++ more) = text.length + sb.room more := by
  rw [Strbuf.HasRoom, h.stop, h.current] at hroom
  rw [kept, kept, Strbuf.room, h.stop, h.current, length_append]
  by_cases hlimit : limit = 0
  · exact ⟨if_pos hlimit, by rw [if_pos hlimit, if_pos hlimit]⟩
  · rw [if_neg hlimit, if_neg hlimit, if_neg hlimit]
    omega

theorem Assembles.kept_full (hfull : ¬sb.HasRoom) (more : List (BitVec 8)) :
    limit ≠ 0 ∧ kept base limit (text ++ more) = limit - base ∧ limit - base ≤ text.length := by
  rw [Strbuf.HasRoom, h.stop, h.current, not_or, not_lt] at hfull
  rw [kept, if_neg hfull.1, length_append]
  exact ⟨hfull.1, by omega, by omega⟩

/-- What fits is appended to the string, and the rest is counted. -/
theorem Assembles.append (happend : Appends m sb more m' sb') (hlimit : limit ≠ 0 → base ≤ limit) :
    Assembles base limit m' sb' (text ++ more) := by
  have hcurrent : sb'.current = base + (text ++ more).length := by
    rw [happend.current, h.current, length_append, Nat.add_assoc]
  obtain ⟨hstart, hstop, -, hnull, hroom, hfull⟩ := happend
  by_cases hbase : base = 0
  · rw [hnull (h.start.trans hbase)]
    exact ⟨hstart.trans h.start, hstop.trans h.stop, hcurrent, fun hne => absurd hbase hne,
      h.written⟩
  have hne : sb.start ≠ 0 := h.start ▸ hbase
  have hold := h.holds hbase
  refine ⟨hstart.trans h.start, hstop.trans h.stop, hcurrent, fun _ => ?_, ?_⟩
  · by_cases hhas : sb.HasRoom
    · have hputs := hroom hne hhas
      obtain ⟨hkept, hkept'⟩ := h.kept_room hhas more
      rw [h.current] at hputs
      rw [hkept, take_length] at hold
      rw [hkept', take_length_add_append, append_assoc]
      exact Memory.holds_append.mpr
        ⟨(Memory.holds_append.mp hold).1.within hputs.within (.inl le_rfl), hputs.holds⟩
    · obtain ⟨hpos, hkept', hle⟩ := h.kept_full hhas more
      obtain ⟨-, hkept, -⟩ := h.kept_full hhas []
      rw [append_nil] at hkept
      rw [hkept', take_append_of_le_length hle]
      rw [hkept] at hold
      rcases hfull hne hhas with rfl | hputs
      · exact hold
      have hlength : base + (text.take (limit - base)).length = sb.stop := by
        rw [length_take, h.stop]
        omega
      rw [← hlength] at hputs
      exact Memory.holds_append.mpr
        ⟨(Memory.holds_append.mp hold).1.within hputs.within (.inl le_rfl), hputs.holds⟩
  · by_cases hhas : sb.HasRoom
    · have hputs := hroom hne hhas
      refine h.written_within hbase hputs.within (by rw [h.current]; omega) fun hpos => ?_
      have hlt := hhas.resolve_left (by rwa [h.stop])
      rw [length_append, length_take, Strbuf.room, if_neg (by rwa [h.stop]),
        length_singleton, ← h.stop]
      omega
    · obtain ⟨hpos, -, -⟩ := h.kept_full hhas more
      rcases hfull hne hhas with rfl | hputs
      · exact h.written
      · exact h.written_within hbase hputs.within (by rw [h.stop]; exact hlimit hpos)
          fun _ => by rw [h.stop, length_singleton]

end

theorem kept_le (base limit : ℕ) (text : List (BitVec 8)) :
    kept base limit text ≤ text.length := by
  rw [kept]
  split <;> omega

/-- A truncation inside the stored part moves the NUL, unless it is there already. -/
theorem Assembles.trunc (h : Assembles base limit m sb text) {offset : ℤ} (hpos : 0 ≤ offset)
    (hle : offset.toNat ≤ kept base limit text) :
    Assembles base limit (strbufTrunc m sb offset).1 (strbufTrunc m sb offset).2
      (text.take offset.toNat) := by
  have hlength : (text.take offset.toNat).length = offset.toNat :=
    length_take_of_le (hle.trans (kept_le ..))
  have hcurrent : min sb.current (sb.start + offset.toNat) = base + offset.toNat := by
    have := hle.trans (kept_le ..)
    rw [h.current, h.start]
    omega
  have hkept : (text.take offset.toNat).take (kept base limit (text.take offset.toNat)) =
      (text.take (kept base limit text)).take offset.toNat := by
    rw [take_take, take_take, kept, hlength, min_eq_left hle]
    congr 1
    rw [kept] at hle
    split at hle
    · rw [if_pos ‹_›, min_self]
    · rw [if_neg ‹_›]
      omega
  rw [strbufTrunc, if_neg (not_lt.mpr hpos), hcurrent, h.start, h.stop]
  refine ⟨rfl, rfl, by rw [hlength], fun hbase => ?_, ?_⟩
  · have hold := h.holds hbase
    rw [hkept]
    split
    case isTrue =>
      have hputs := puts_write m (base + offset.toNat) 0#8
      have hprefix : base + ((text.take (kept base limit text)).take offset.toNat).length =
          base + offset.toNat := by
        rw [take_take, min_eq_left hle, hlength]
      rw [← hprefix] at hputs ⊢
      exact holds_append.mpr
        ⟨((holds_append.mp hold).1.take _).within hputs.within (.inl le_rfl), hputs.holds⟩
    case isFalse hfull =>
      have hend : kept base limit text ≤ offset.toNat := by
        rw [kept]
        split
        case isTrue hzero => exact absurd ⟨hbase, .inl hzero⟩ hfull
        case isFalse => omega
      rwa [take_of_length_le (by rw [length_take]; omega)]
  · split
    case isTrue hwrite =>
      refine h.written_within hwrite.1 (within_write m _ 0#8) (Nat.le_add_right _ _) ?_
      intro hlimit
      omega
    case isFalse => exact h.written

theorem strbufReset_assembles (hstart : sb.start = base) (hstop : sb.stop = limit)
    (hlimit : limit ≠ 0 → base ≤ limit)
    (hwritten : ∀ a ∈ m.written, base ≠ 0 ∧ base ≤ a ∧ (limit ≠ 0 → a ≤ limit)) :
    Assembles base limit (strbufReset m sb).1 (strbufReset m sb).2 [] := by
  rw [strbufReset, hstart]
  refine ⟨rfl, hstop, rfl, fun hbase => ?_, ?_⟩
  · rw [if_pos hbase, take_nil]
    exact (puts_write m base 0#8).holds
  split
  case isTrue hbase =>
    exact forall_mem_append.mpr ⟨hwritten, forall_mem_singleton.mpr ⟨hbase, le_rfl, hlimit⟩⟩
  case isFalse => exact hwritten

section

variable (h : Assembles base limit s.1 s.2 text) (hlimit : limit ≠ 0 → base ≤ limit)
  {size : Option ℕ}
include h hlimit

open StrbufOp

/-- One operation does to the buffer what it does to the string. -/
theorem Assembles.run {op : StrbufOp} (hsize : stored size text ≤ kept base limit text)
    (hvalid : op.valid size text = true) :
    Assembles base limit (op.run s).1 (op.run s).2 (op.apply text) := by
  cases op with
  | reset => exact strbufReset_assembles h.start h.stop hlimit h.written
  | ncat more len =>
    simp only [valid, Bool.and_eq_true, decide_eq_true_eq, all_eq_true] at hvalid
    exact h.append (strbufNcat_appends hvalid.1 hvalid.2) hlimit
  | puts more =>
    simp only [valid, all_eq_true, decide_eq_true_eq] at hvalid
    exact h.append (strbufPuts_appends hvalid) hlimit
  | putc ch => exact h.append (strbufPutc_appends ch) hlimit
  | tohex len data =>
    exact h.append (strbufTohex_appends (by simpa [valid] using hvalid)) hlimit
  | trunc offset =>
    simp only [valid, Bool.and_eq_true, decide_eq_true_eq] at hvalid
    exact h.trunc hvalid.1 (hvalid.2.trans hsize)

theorem Assembles.runs {ops : List StrbufOp}
    (hsize : ∀ text, stored size text ≤ kept base limit text)
    (hvalid : validRun size text ops = true) :
    Assembles base limit (runStrbuf s ops).1 (runStrbuf s ops).2
      (ops.foldl apply text) := by
  induction ops generalizing s text with
  | nil => exact h
  | cons op ops ih =>
    rw [validRun, Bool.and_eq_true] at hvalid
    exact ih (h.run hlimit (hsize text) hvalid.1) hvalid.2

end

/-- A buffer represents a string of any length: it counts all of it and has as much as fits, with a
NUL, and no byte outside was written. -/
structure Represents (buffer : ℕ) (size : Option ℕ) (m : Mem) (sb : Strbuf)
    (text : List (BitVec 8)) : Prop where
  count : strbufCount sb = text.length
  len : strbufLen sb = stored size text
  overrun : strbufOverrun sb = true ↔ ∃ n ∈ size, n - 1 < text.length
  holds : buffer ≠ 0 → m.Holds buffer (text.take (stored size text) ++ [0#8])
  written : ∀ a ∈ m.written, buffer ≠ 0 ∧ buffer ≤ a ∧ ∀ n ∈ size, a < buffer + n

/-- The last address of a buffer, if it has a limit. -/
def limitOf (buffer : ℕ) : Option ℕ → ℕ
  | some size => buffer + size - 1
  | none => 0

variable {buffer : ℕ} {size : Option ℕ}

section

variable (hsize : ∀ n ∈ size, 1 ≤ n)
include hsize

theorem le_limitOf (hlimit : limitOf buffer size ≠ 0) :
    buffer ≤ limitOf buffer size := by
  cases size with
  | none => exact absurd rfl hlimit
  | some n =>
    have := hsize n rfl
    rw [limitOf]
    omega

/-- The limit of a buffer is known, but for one byte at NULL. -/
theorem kept_limitOf (h : buffer ≠ 0 ∨ size ≠ some 1)
    (text : List (BitVec 8)) : kept buffer (limitOf buffer size) text = stored size text := by
  cases size with
  | none => exact if_pos rfl
  | some n =>
    have hpos := hsize n rfl
    have hne : buffer + n - 1 ≠ 0 := by
      intro hzero
      obtain ⟨rfl, rfl⟩ : buffer = 0 ∧ n = 1 := by omega
      exact h.elim (fun hc => hc rfl) fun hc => hc rfl
    rw [limitOf, kept, if_neg hne, stored]
    omega

theorem stored_le_kept (text : List (BitVec 8)) :
    stored size text ≤ kept buffer (limitOf buffer size) text := by
  by_cases h : buffer ≠ 0 ∨ size ≠ some 1
  · exact (kept_limitOf hsize h text).ge
  · obtain ⟨rfl, rfl⟩ : buffer = 0 ∧ size = some 1 := by simpa using h
    exact (min_le_right _ _).trans (Nat.zero_le _)

end

theorem strbufEnd_eq (h : Assembles base limit m sb text) (hlimit : limit ≠ 0 → base ≤ limit) :
    strbufEnd sb = base + kept base limit text := by
  rw [strbufEnd, h.stop, h.current, kept]
  by_cases hzero : limit = 0
  · rw [if_neg fun hc => hc.1 hzero, if_pos hzero]
  · split <;> omega

/-- One byte at NULL is taken for a buffer without a limit. All others represent the string. -/
theorem Assembles.represents_iff (h : Assembles buffer (limitOf buffer size) m sb text)
    (hsize : ∀ n ∈ size, 1 ≤ n) :
    Represents buffer size m sb text ↔ buffer ≠ 0 ∨ size ≠ some 1 ∨ text = [] := by
  have hlen : strbufLen sb = kept buffer (limitOf buffer size) text := by
    rw [strbufLen, strbufEnd_eq h (le_limitOf hsize), h.start, Nat.add_sub_cancel_left]
  have hcount : strbufCount sb = text.length := by
    rw [strbufCount, h.current, h.start, Nat.add_sub_cancel_left]
  have hoverrun : strbufOverrun sb = true ↔
      limitOf buffer size ≠ 0 ∧ limitOf buffer size < buffer + text.length := by
    simp [strbufOverrun, h.stop, h.current]
  by_cases hlimit : buffer ≠ 0 ∨ size ≠ some 1
  · refine iff_of_true ⟨hcount, ?_, hoverrun.trans ?_, ?_, ?_⟩ (or_assoc.mp (.inl hlimit))
    · rw [hlen, kept_limitOf hsize hlimit]
    · cases size with
      | none => simp [limitOf]
      | some n =>
        have hpos := hsize n rfl
        have hne : buffer ≠ 0 ∨ n ≠ 1 := by simpa using hlimit
        simp only [limitOf, Option.mem_some_iff, exists_eq_left']
        omega
    · rw [← kept_limitOf hsize hlimit]
      exact h.holds
    · intro a ha
      obtain ⟨hbase, hle, hlast⟩ := h.written a ha
      refine ⟨hbase, hle, ?_⟩
      rintro n rfl
      have hpos := hsize n rfl
      have := hlast (by rw [limitOf]; omega)
      rw [limitOf] at this
      omega
  · obtain ⟨rfl, rfl⟩ : buffer = 0 ∧ size = some 1 := by simpa using hlimit
    constructor
    · intro hrep
      have hzero : text.length = 0 := hlen.symm.trans (hrep.len.trans (Nat.min_zero _))
      exact .inr (.inr (length_eq_zero_iff.mp hzero))
    rintro (hc | hc | rfl)
    · exact absurd rfl hc
    · exact absurd rfl hc
    · refine ⟨hcount, hlen, hoverrun.trans (by simp [limitOf]), fun hc => absurd rfl hc, ?_⟩
      intro a ha
      exact absurd rfl (h.written a ha).1

/-- For every buffer and all operations: what the buffer has, counts and reports is that of the
string of any length, unless one byte at NULL is to be counted. -/
theorem runStrbuf_represents_iff (bytes : ℕ → BitVec 8) (buffer : ℕ) (size : Option ℕ)
    (ops : List StrbufOp) (hsize : ∀ n ∈ size, 1 ≤ n) (hvalid : validRun size [] ops = true) :
    Represents buffer size (runStrbuf (strbufInit ⟨bytes, []⟩ buffer size) ops).1
        (runStrbuf (strbufInit ⟨bytes, []⟩ buffer size) ops).2 (runText ops) ↔
      buffer ≠ 0 ∨ size ≠ some 1 ∨ runText ops = [] := by
  have hinit : Assembles buffer (limitOf buffer size) (strbufInit ⟨bytes, []⟩ buffer size).1
      (strbufInit ⟨bytes, []⟩ buffer size).2 [] :=
    strbufReset_assembles rfl (by cases size <;> rfl) (le_limitOf hsize)
      nofun
  exact (hinit.runs (le_limitOf hsize) (stored_le_kept hsize) hvalid).represents_iff hsize

/-- Four bytes are overrun, truncated and filled again. -/
def truncatedOps : List StrbufOp :=
  [.puts [0x61#8, 0x62#8], .tohex 3 [0x1f#8, 0x2e#8], .trunc 3, .trunc 1,
    .ncat [0x63#8, 0x64#8] 1, .putc 0x65#8]

theorem runStrbuf_represents_truncated :
    runText truncatedOps = [0x61#8, 0x63#8, 0x65#8] ∧
      Represents 4096 (some 4)
        (runStrbuf (strbufInit ⟨fun _ => 0xff#8, []⟩ 4096 (some 4)) truncatedOps).1
        (runStrbuf (strbufInit ⟨fun _ => 0xff#8, []⟩ 4096 (some 4)) truncatedOps).2
        (runText truncatedOps) :=
  ⟨by decide, (runStrbuf_represents_iff _ 4096 (some 4) _ (by simp) (by decide)).mpr
    (.inl (by decide))⟩

/-- A count with NULL and the size of one byte never gets to an overrun. -/
theorem runStrbuf_null_one_byte :
    strbufCount (runStrbuf (strbufInit ⟨fun _ => 0#8, []⟩ 0 (some 1)) [.putc 0x61#8]).2 = 1 ∧
      strbufLen (runStrbuf (strbufInit ⟨fun _ => 0#8, []⟩ 0 (some 1)) [.putc 0x61#8]).2 = 1 ∧
      strbufOverrun (runStrbuf (strbufInit ⟨fun _ => 0#8, []⟩ 0 (some 1)) [.putc 0x61#8]).2 =
        false := by
  decide

end Refinement

end ServalMesh.Util
