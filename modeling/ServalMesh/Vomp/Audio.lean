import ServalMesh.Vomp.Calls

/-!
# Audio frames

A frame carries the lower halves of its two counters. The receiver completes them with those of the
last frame that was ahead in both.
-/

namespace ServalMesh.Vomp

open Overlay List

/-- A time in units of 20 ms, and a sequence. -/
structure Counters where
  time : ℕ
  sequence : ℕ
deriving DecidableEq

def toAbsoluteValue (shortValue referenceValue : ℕ) : ℕ :=
  let absValue := referenceValue / 2 ^ 16 * 2 ^ 16 + shortValue
  let absValue :=
    if (absValue + 0x8000) % 2 ^ 32 < referenceValue then
      (absValue + 0x10000) % 2 ^ 32
    else absValue
  if absValue > (referenceValue + 0x8000) % 2 ^ 32 then (absValue + 2 ^ 32 - 0x10000) % 2 ^ 32
  else absValue

/-- The arguments of `vomp_received_audio`. -/
structure AudioFrame where
  codec : ℕ
  time : ℕ
  sequence : ℕ
  audio : List Byte

/-- What a frame holds behind its header. -/
def vompReceivedAudio (f : AudioFrame) : List Byte :=
  let time := f.time / 20
  [f.codec, time / 2 ^ 8, time, f.sequence / 2 ^ 8, f.sequence].map (BitVec.ofNat 8) ++ f.audio

/-- The references after a frame, and the time and sequence of the frame. -/
def vompProcessAudio (remote : Counters) (payload : List Byte) : Counters × Option (ℕ × ℕ) :=
  if payload = [] then (remote, none)
  else
    let time := obGetUi16 (obGet payload).2
    let sequence := obGetUi16 time.2
    let decodedTime := toAbsoluteValue (time.1 % 2 ^ 16) remote.time
    let decodedSequence := toAbsoluteValue (sequence.1 % 2 ^ 16) remote.sequence
    (if remote.time < decodedTime ∧ remote.sequence < decodedSequence then
        ⟨decodedTime, decodedSequence⟩
      else remote,
      some (decodedTime * 20 % 2 ^ 32, decodedSequence))

/-- The time and sequence of each frame that arrives. -/
def heard (remote : Counters) : List AudioFrame → List (Option (ℕ × ℕ))
  | [] => []
  | f :: fs =>
    let (remote', out) := vompProcessAudio remote (vompReceivedAudio f)
    out :: heard remote' fs

namespace AudioFrame

def counters (f : AudioFrame) : Counters := ⟨f.time / 20, f.sequence⟩

/-- What the sender said of a frame, in full units of time. -/
def said (f : AudioFrame) : Option (ℕ × ℕ) := some (f.time / 20 * 20 % 2 ^ 32, f.sequence)

end AudioFrame

namespace Counters

def join (c d : Counters) : Counters := ⟨max c.time d.time, max c.sequence d.sequence⟩

abbrev Before (c d : Counters) : Prop := c.time < d.time ∧ c.sequence < d.sequence

/-- One of two frames was sent before the other. -/
abbrev Ordered (c d : Counters) : Prop := c = d ∨ c.Before d ∨ d.Before c

abbrev Close (c d : Counters) : Prop :=
  (c.time < d.time + 2 ^ 15 ∧ d.time < c.time + 2 ^ 15) ∧
    c.sequence < d.sequence + 2 ^ 15 ∧ d.sequence < c.sequence + 2 ^ 15

/-- A first frame that the next cannot be too far ahead of, though it may not become the
reference. -/
abbrev Start (c : Counters) : Prop := (c.time = 0 → c.sequence ≤ 1) ∧ (c.sequence = 0 → c.time ≤ 1)

/-- The reference is the newest frame, unless that is the first one with a counter of zero. -/
def Refers (remote newest : Counters) : Prop :=
  remote = newest ∨ remote = ⟨0, 0⟩ ∧ newest.Start ∧ (newest.time = 0 ∨ newest.sequence = 0)

end Counters

/-- Frames arrive of a sender whose first one is given, in any order, each of them close to the
newest one before it. -/
def Arrives (first newest : Counters) : List AudioFrame → Prop
  | [] => True
  | f :: fs =>
    ((f.counters = first ∨ first.Before f.counters) ∧ f.counters.time ≤ 2 ^ 31 ∧
      f.counters.sequence ≤ 2 ^ 31) ∧ (∀ g ∈ fs, f.counters.Ordered g.counters) ∧
      f.counters.Close newest ∧ Arrives first (newest.join f.counters) fs

open Counters

theorem toAbsoluteValue_eq {v r : ℕ} (hv : v ≤ 2 ^ 31) (hlow : r < v + 2 ^ 15)
    (hhigh : v < r + 2 ^ 15 ∨ r = 0 ∧ v ≤ 2 ^ 15) : toAbsoluteValue (v % 2 ^ 16) r = v := by
  simp only [toAbsoluteValue]
  split_ifs <;> omega

theorem toAbsoluteValue_far {v : ℕ} (hlow : 2 ^ 15 < v) (hhigh : v < 2 ^ 16) :
    toAbsoluteValue (v % 2 ^ 16) 0 = v + (2 ^ 32 - 2 ^ 16) := by
  simp only [toAbsoluteValue]
  split_ifs <;> omega

theorem vompProcessAudio_sent (remote : Counters) (f : AudioFrame) :
    vompProcessAudio remote (vompReceivedAudio f) =
      let time := toAbsoluteValue (f.time / 20 % 2 ^ 16) remote.time
      let sequence := toAbsoluteValue (f.sequence % 2 ^ 16) remote.sequence
      (if remote.time < time ∧ remote.sequence < sequence then ⟨time, sequence⟩ else remote,
        some (time * 20 % 2 ^ 32, sequence)) := by
  have hbytes (v : ℕ) : (v / 256 % 256 * 256 + v % 256) % 65536 = v % 65536 := by omega
  simp [vompProcessAudio, vompReceivedAudio, obGet, obGetUi16, toNat_ui16Value, hbytes]

variable {first remote newest : Counters} {f g : AudioFrame} {arrivals : List AudioFrame}

open AudioFrame

theorem vompProcessAudio_said (h : Refers remote newest) (hstart : f.counters.Start)
    (hf : f.counters.time ≤ 2 ^ 31 ∧ f.counters.sequence ≤ 2 ^ 31)
    (horder : newest = ⟨0, 0⟩ ∨ newest.Ordered f.counters) (hclose : f.counters.Close newest) :
    ∃ remote', vompProcessAudio remote (vompReceivedAudio f) = (remote', f.said) ∧
      Refers remote' (newest.join f.counters) := by
  rw [vompProcessAudio_sent]
  obtain ⟨t, s⟩ := newest
  obtain ⟨t', s'⟩ := remote
  simp only [counters, Refers, Start, Close, Ordered, Before, join,
    Counters.mk.injEq] at *
  rw [toAbsoluteValue_eq hf.1 (by omega) (by omega), toAbsoluteValue_eq hf.2 (by omega) (by omega)]
  refine ⟨_, rfl, ?_⟩
  split_ifs <;> simp only [Counters.mk.injEq] <;> omega

theorem heard_said (hstart : first.Start)
    (horder : newest = ⟨0, 0⟩ ∨ ∀ f ∈ arrivals, newest.Ordered f.counters)
    (h : Refers remote newest) (harrives : Arrives first newest arrivals) :
    heard remote arrivals = arrivals.map said := by
  induction arrivals generalizing remote newest with
  | nil => rfl
  | cons f fs ih =>
    obtain ⟨⟨hsent, hbound⟩, hordered, hclose, hrest⟩ := harrives
    have horder' := horder.imp_right (forall_mem_cons.mp · |>.1)
    obtain ⟨remote', hstep, hrefers⟩ := vompProcessAudio_said h (by grind) hbound horder' hclose
    have hjoin : newest.join f.counters = f.counters ∨ newest.join f.counters = newest := by
      generalize f.counters = c at horder'
      obtain ⟨t, s⟩ := c
      obtain ⟨t', s'⟩ := newest
      simp only [join, Ordered, Before, Counters.mk.injEq] at *
      omega
    simp only [heard, hstep, map_cons, cons.injEq, true_and]
    apply ih _ hrefers hrest
    rcases hjoin with hjoin | hjoin <;> grind

/-- A first frame with one counter of zero is no reference, so that the next may be too far
ahead. -/
theorem heard_ne (hzero : f.counters.time = 0 ∨ f.counters.sequence = 0)
    (hf : f.counters.time < 2 ^ 15 ∧ f.counters.sequence < 2 ^ 15)
    (hg : g.counters.time < 2 ^ 16 ∧ g.counters.sequence < 2 ^ 16)
    (hfar : 2 ^ 15 < g.counters.time ∨ 2 ^ 15 < g.counters.sequence) :
    heard ⟨0, 0⟩ [f, g] ≠ [f, g].map said := by
  simp only [counters] at *
  simp only [heard, vompProcessAudio_sent]
  rw [toAbsoluteValue_eq (v := f.time / 20) (by omega) (by omega) (by omega),
    toAbsoluteValue_eq (v := f.sequence) (by omega) (by omega) (by omega), if_neg (by omega)]
  simp only [said, map_cons, map_nil, ne_eq, cons.injEq, Option.some.injEq,
    Prod.mk.injEq]
  rcases hfar with hfar | hfar
  · rw [toAbsoluteValue_far hfar hg.1]
    omega
  · rw [toAbsoluteValue_far hfar hg.2]
    omega

/-- Every run of frames of a sender, each close to the newest one before it, is heard as it was said
exactly if the first frame is a start. -/
theorem heard_eq_said_iff (hnear : first.time < 2 ^ 15 ∧ first.sequence < 2 ^ 15) :
    (∀ arrivals, Arrives first ⟨0, 0⟩ arrivals →
      heard ⟨0, 0⟩ arrivals = arrivals.map AudioFrame.said) ↔ first.Start := by
  refine ⟨fun h => ?_, fun h arrivals => heard_said h (.inl rfl) (.inl rfl)⟩
  by_contra hstart
  have hframe (c : Counters) : ∃ f : AudioFrame, f.counters = c :=
    ⟨⟨0, c.time * 20, c.sequence, []⟩, by simp [counters]⟩
  -- The second frame is as far ahead of the first as it may be.
  obtain ⟨f, hf⟩ := hframe first
  obtain ⟨g, hg⟩ := hframe ⟨first.time + (if first.time = 0 then 1 else 0x7FFF),
    first.sequence + (if first.time = 0 then 0x7FFF else 1)⟩
  refine heard_ne ?_ ?_ ?_ ?_ (h [f, g] ?_)
  case refine_5 =>
    simp only [Arrives, join, hf, hg, forall_mem_singleton]
    grind
  all_goals grind

theorem heard_eq_said_one : heard ⟨0, 0⟩ [⟨0, 0, 1, []⟩, ⟨0, 20, 0x8000, []⟩] =
    [some (0, 1), some (20, 0x8000)] :=
  (@heard_eq_said_iff ⟨0, 1⟩ (by decide)).mpr (by decide) _
    ⟨by decide, by decide, by decide, by decide, by decide, by decide, trivial⟩

theorem heard_ne_said_two : Arrives ⟨0, 2⟩ ⟨0, 0⟩ [⟨0, 0, 2, []⟩, ⟨0, 20, 0x8001, []⟩] ∧
    heard ⟨0, 0⟩ [⟨0, 0, 2, []⟩, ⟨0, 20, 0x8001, []⟩] =
      [some (0, 2), some (20, 0xFFFF8001)] :=
  ⟨⟨by decide, by decide, by decide, by decide, by decide, by decide, trivial⟩, by decide⟩

end ServalMesh.Vomp
