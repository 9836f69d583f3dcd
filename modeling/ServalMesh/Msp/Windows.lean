import ServalMesh.Msp.Socket

/-!
# Windows of packets

A window is a list of packets in the order of their numbers. Numbers wrap around, but while
less than half of them are in use they can be compared as if they did not.
-/

namespace ServalMesh.Msp

open Lib Overlay List

section Counting

variable {w : MspWindow} {seq : BitVec 16} {flags : Byte} {payload : List Byte}

/-- `packet_count` is the length of the list. -/
def MspWindow.Counted (w : MspWindow) : Prop := w.packetCount = w.packets.length

theorem insertPacket_counted {before after : List MspPacket} {packet : MspPacket}
    (hw : w.Counted) (hpackets : w.packets = before ++ after) :
    (insertPacket w before after packet).Counted := by
  rw [MspWindow.Counted, hpackets] at hw
  simp only [MspWindow.Counted, insertPacket, hw, length_append, length_cons]
  omega

theorem addPacket_cases (w : MspWindow) (seq : BitVec 16) (flags : Byte) (payload : List Byte) :
    ((addPacket w seq flags payload).1 = w ∧ (addPacket w seq flags payload).2 ≠ .added) ∨
    ∃ before after, w.packets = before ++ after ∧ addPacket w seq flags payload =
      (insertPacket w before after ⟨seq, flags, timeMsNeverHas, payload, 0⟩, .added) := by
  rcases hpackets : w.packets with _ | ⟨head, rest⟩
  · exact .inr ⟨[], [], rfl, by rw [addPacket, hpackets]⟩
  rw [addPacket, hpackets]
  dsimp only
  rw [← hpackets]
  split
  · exact .inl ⟨rfl, by simp⟩
  split
  · split
    · exact .inl ⟨rfl, by simp⟩
    · exact .inr ⟨w.packets, [], by simp, rfl⟩
  · split
    · exact .inl ⟨rfl, by simp⟩
    · exact .inr ⟨_, _, (takeWhile_append_dropWhile).symm, rfl⟩

theorem addPacket_counted (hw : w.Counted) (seq : BitVec 16) (flags : Byte) (payload : List Byte) :
    (addPacket w seq flags payload).1.Counted := by
  rcases addPacket_cases w seq flags payload with ⟨h, -⟩ | ⟨before, after, hpackets, h⟩
  · rwa [h]
  · rw [h]
    exact insertPacket_counted hw hpackets

theorem mem_addPacket {p : MspPacket} (hp : p ∈ (addPacket w seq flags payload).1.packets) :
    p ∈ w.packets ∨ p = ⟨seq, flags, timeMsNeverHas, payload, 0⟩ := by
  rcases addPacket_cases w seq flags payload with ⟨h, -⟩ | ⟨before, after, hpackets, h⟩
  · rw [h] at hp
    exact .inl hp
  · rw [h] at hp
    rw [hpackets]
    simp only [insertPacket, mem_append, mem_cons] at hp ⊢
    tauto

theorem addPacket_nextSeq : (addPacket w seq flags payload).1.nextSeq = w.nextSeq := by
  rcases addPacket_cases w seq flags payload with ⟨h, -⟩ | ⟨before, after, -, h⟩
  · rw [h]
  · rw [h]
    rfl

theorem addPacket_packetCount_le (w : MspWindow) (seq : BitVec 16) (flags : Byte)
    (payload : List Byte) : w.packetCount ≤ (addPacket w seq flags payload).1.packetCount := by
  rcases addPacket_cases w seq flags payload with ⟨h, -⟩ | ⟨before, after, -, h⟩
  · rw [h]
  · rw [h]
    exact Nat.le_succ _

theorem freeAckedPackets_counted (hw : w.Counted) : (freeAckedPackets w seq).Counted := by
  have hsplit := congrArg List.length (takeWhile_append_dropWhile
    (l := w.packets) (p := fun p => compareWrappedUint16 p.seq seq ≤ 0))
  rw [length_append] at hsplit
  simp only [MspWindow.Counted, freeAckedPackets] at hw ⊢
  omega

end Counting

section Numbers

variable {w : MspWindow} {first : ℕ} {flags : Byte} {payload : List Byte}

/-- So many packets can be told apart. -/
def maxSequenced : ℕ := 2 ^ 15

theorem compareWrappedUint16_ofNat {a b : ℕ} (ha : a < maxSequenced) (hb : b < maxSequenced) :
    compareWrappedUint16 (BitVec.ofNat 16 a) (BitVec.ofNat 16 b) = a - b := by
  rw [maxSequenced] at ha hb
  exact distance_ofNat (by omega) (by omega)

theorem compareWrappedUint16_pred {a k : ℕ} (hlow : k ≤ maxSequenced + (a + 1))
    (hhigh : a + 1 < maxSequenced + k) :
    compareWrappedUint16 (BitVec.ofNat 16 a) (BitVec.ofNat 16 k - 1) = a + 1 - k := by
  rw [maxSequenced] at hlow hhigh
  exact distance_ofNat_sub_one (by omega) (by omega)

theorem seq_toNat {i : ℕ} (hi : i < maxSequenced) : (BitVec.ofNat 16 i).toNat = i := by
  rw [maxSequenced] at hi
  rw [BitVec.toNat_ofNat]
  omega

/-- The packets have consecutive numbers. -/
def Numbered (packets : List MspPacket) (first : ℕ) : Prop :=
  ∀ j p, packets[j]? = some p → p.seq = BitVec.ofNat 16 (first + j)

/-- The packet with the next number goes to the end. -/
theorem addPacket_next (hseq : Numbered w.packets first)
    (hnext : w.nextSeq = BitVec.ofNat 16 (first + w.packets.length))
    (hbound : first + w.packets.length < maxSequenced) :
    addPacket w w.nextSeq flags payload =
      (insertPacket w w.packets [] ⟨w.nextSeq, flags, timeMsNeverHas, payload, 0⟩, .added) := by
  rcases hpackets : w.packets with _ | ⟨head, rest⟩
  · rw [addPacket, hpackets]
  have hhead : head.seq = BitVec.ofNat 16 (first + 0) := hseq 0 head (by rw [hpackets]; rfl)
  have htail : (rest.getLastD head).seq = BitVec.ofNat 16 (first + rest.length) := by
    apply hseq
    rw [hpackets, getLastD_eq_getLast?, getLast?_eq_getElem?]
    cases rest with
    | nil => rfl
    | cons q rest => simp
  rw [hpackets, length_cons] at hbound hnext
  rw [addPacket, hpackets]
  dsimp only
  have hne : (rest.getLastD head).seq ≠ w.nextSeq := by
    rw [htail, hnext]
    intro h
    have := ofNat_inj (by rw [maxSequenced] at hbound; omega)
      (by rw [maxSequenced] at hbound; omega) h
    omega
  rw [if_neg hne, htail, hhead, hnext, compareWrappedUint16_ofNat (by omega) (by omega),
    if_pos (by omega), compareWrappedUint16_ofNat (by omega) (by omega), if_neg (by omega)]

theorem exists_dropWhile_eq_drop {α : Type} (q : α → Bool) (l : List α) :
    ∃ n ≤ l.length, l.dropWhile q = l.drop n ∧ ∀ j a, j < n → l[j]? = some a → q a = true := by
  induction l with
  | nil => exact ⟨0, le_rfl, rfl, by simp⟩
  | cons b l ih =>
    cases hb : q b with
    | false => exact ⟨0, by simp, by simp [hb], by simp⟩
    | true =>
      obtain ⟨n, hn, hdrop, hall⟩ := ih
      refine ⟨n + 1, by simpa using hn, by simpa [hb] using hdrop, ?_⟩
      rintro (_ | j) a hj ha
      · rw [getElem?_cons_zero, Option.some_inj] at ha
        rw [← ha, hb]
      · exact hall j a (by omega) (by simpa using ha)

/-- Packets up to the number before `k` are freed. -/
theorem freeAckedPackets_numbered {k : ℕ} (hseq : Numbered w.packets first)
    (hbound : first + w.packets.length < maxSequenced) (hk : k < maxSequenced) :
    ∃ n ≤ w.packets.length,
      (freeAckedPackets w (BitVec.ofNat 16 k - 1)).packets = w.packets.drop n ∧
      (n = 0 ∨ first + n ≤ k) := by
  obtain ⟨n, hn, hdrop, hall⟩ := exists_dropWhile_eq_drop (fun p : MspPacket =>
    decide (compareWrappedUint16 p.seq (BitVec.ofNat 16 k - 1) ≤ 0)) w.packets
  refine ⟨n, hn, hdrop, ?_⟩
  rcases Nat.eq_zero_or_pos n with h | h
  · exact .inl h
  -- the last packet that is freed is acknowledged
  have hlast := getElem?_eq_getElem (l := w.packets) (i := n - 1) (by omega)
  have hle := hall (n - 1) _ (by omega) hlast
  rw [decide_eq_true_eq, hseq _ _ hlast, compareWrappedUint16_pred (by omega) (by omega)] at hle
  exact .inr (by omega)

end Numbers

section Sorting

variable {w : MspWindow} {seq : BitVec 16} {flags : Byte} {payload : List Byte} {l : List MspPacket}
  {i : ℕ}

/-- The packets are in the order of their numbers, with numbers that can be compared. -/
structure Sorted (packets : List MspPacket) : Prop where
  pairwise : packets.Pairwise fun p q => p.seq.toNat < q.seq.toNat
  bound : ∀ p ∈ packets, p.seq.toNat < maxSequenced

theorem Sorted.sublist {l l' : List MspPacket} (h : Sorted l) (hsub : l'.Sublist l) : Sorted l' :=
  ⟨h.pairwise.sublist hsub, fun p hp => h.bound p (hsub.mem hp)⟩

/-- No two packets have the same number. -/
theorem Sorted.index_unique {i j : ℕ} {p q : MspPacket} (h : Sorted l) (hp : l[i]? = some p)
    (hq : l[j]? = some q) (hseq : p.seq = q.seq) : i = j := by
  obtain ⟨hi, rfl⟩ := List.getElem?_eq_some_iff.mp hp
  obtain ⟨hj, rfl⟩ := List.getElem?_eq_some_iff.mp hq
  have hpair := List.pairwise_iff_getElem.mp h.pairwise
  rcases Nat.lt_trichotomy i j with hlt | heq | hgt
  · exact absurd (hseq ▸ hpair i j hi hj hlt) (lt_irrefl _)
  · exact heq
  · exact absurd (hseq ▸ hpair j i hj hi hgt) (lt_irrefl _)

theorem map_modify_same {α β : Type} {l : List α} {f : α → α} {g : α → β}
    (hfg : ∀ a, g (f a) = g a) :
    (l.modify i f).map g = l.map g := by
  apply ext_getElem?
  intro j
  rw [getElem?_map, getElem?_map, getElem?_modify]
  cases l[j]? with
  | none => rfl
  | some a =>
    simp only [Option.map_eq_map, Option.map_some, Option.some_inj]
    split <;> simp [hfg]

theorem Sorted.modify {f : MspPacket → MspPacket} (h : Sorted l) (hf : ∀ p, (f p).seq = p.seq) :
    Sorted (l.modify i f) := by
  have hmap : (l.modify i f).map (fun p => p.seq.toNat) = l.map fun p => p.seq.toNat :=
    map_modify_same fun p => by rw [hf]
  constructor
  · have := pairwise_map.mpr h.pairwise
    rw [← hmap] at this
    exact pairwise_map.mp this
  intro p hp
  have hmem := mem_map_of_mem (f := fun p : MspPacket => p.seq.toNat) hp
  rw [hmap] at hmem
  obtain ⟨q, hq, heq⟩ := mem_map.mp hmem
  exact heq ▸ h.bound q hq

theorem compareWrappedUint16_toNat {a b : BitVec 16} (ha : a.toNat < maxSequenced)
    (hb : b.toNat < maxSequenced) : compareWrappedUint16 a b = a.toNat - b.toNat := by
  have := compareWrappedUint16_ofNat ha hb
  rwa [BitVec.ofNat_toNat, BitVec.ofNat_toNat, BitVec.setWidth_eq, BitVec.setWidth_eq] at this

theorem Sorted.insert {before after : List MspPacket} {p : MspPacket}
    (h : Sorted (before ++ after)) (hbefore : ∀ q ∈ before, q.seq.toNat < p.seq.toNat)
    (hafter : ∀ q ∈ after, p.seq.toNat < q.seq.toNat) (hp : p.seq.toNat < maxSequenced) :
    Sorted (before ++ p :: after) := by
  obtain ⟨hb, ha, hba⟩ := pairwise_append.mp h.pairwise
  constructor
  · exact pairwise_append.mpr ⟨hb, pairwise_cons.mpr ⟨hafter, ha⟩, fun q hq =>
      forall_mem_cons.mpr ⟨hbefore q hq, hba q hq⟩⟩
  · obtain ⟨hb, ha⟩ := forall_mem_append.mp h.bound
    exact forall_mem_append.mpr ⟨hb, forall_mem_cons.mpr ⟨hp, ha⟩⟩

/-- A packet is only added if there is none with its number. -/
theorem addPacket_sorted (hw : Sorted w.packets) (hseq : seq.toNat < maxSequenced) (flags : Byte)
    (payload : List Byte) :
    (addPacket w seq flags payload).1 = w ∨
    ∃ before after, w.packets = before ++ after ∧
      (addPacket w seq flags payload).1 =
        insertPacket w before after ⟨seq, flags, timeMsNeverHas, payload, 0⟩ ∧
      (∀ q ∈ before, q.seq.toNat < seq.toNat) ∧ ∀ q ∈ after, seq.toNat < q.seq.toNat := by
  rcases hpackets : w.packets with _ | ⟨head, rest⟩
  · refine .inr ⟨[], [], rfl, ?_, by simp, by simp⟩
    rw [addPacket, hpackets]
  have hsplit : w.packets = w.packets.dropLast ++ [rest.getLastD head] := by
    rw [hpackets]
    refine (dropLast_append_getLast? _ ?_).symm
    rw [getLast?_cons, getLastD_eq_getLast?]
    rfl
  have htail : rest.getLastD head ∈ w.packets := by
    rw [hsplit]
    simp
  have hlast : ∀ q ∈ w.packets, q.seq.toNat ≤ (rest.getLastD head).seq.toNat := by
    have hpair := hw.pairwise
    rw [hsplit, pairwise_append] at hpair
    rw [hsplit]
    exact forall_mem_append.mpr ⟨fun q hq => (hpair.2.2 q hq _ (by simp)).le,
      forall_mem_singleton.mpr le_rfl⟩
  rw [addPacket, hpackets]
  dsimp only
  rw [← hpackets]
  split
  · exact .inl rfl
  rename_i hne
  rw [compareWrappedUint16_toNat (hw.bound _ htail) hseq]
  split
  · rename_i hlt
    split
    · exact .inl rfl
    · exact .inr ⟨w.packets, [], by simp, rfl, fun q hq => by have := hlast q hq; omega, by simp⟩
  rename_i hge
  split
  · exact .inl rfl
  rename_i hfirst
  refine .inr ⟨_, _, takeWhile_append_dropWhile.symm, rfl, ?_, ?_⟩
  · intro q hq
    have := mem_takeWhile_imp hq
    rw [decide_eq_true_eq, compareWrappedUint16_toNat
      (hw.bound _ ((takeWhile_sublist _).mem hq)) hseq] at this
    omega
  · rcases hafter : w.packets.dropWhile
        (fun p => decide (compareWrappedUint16 p.seq seq < 0)) with _ | ⟨r, after⟩
    · rw [hafter]
      simp
    rw [hafter]
    have hpair := hw.pairwise.sublist (dropWhile_sublist
      fun p => decide (compareWrappedUint16 p.seq seq < 0))
    have hr := head?_dropWhile_not (fun p => decide (compareWrappedUint16 p.seq seq < 0))
      w.packets
    have hmem : r ∈ w.packets := (dropWhile_sublist _).mem (hafter ▸ mem_cons_self)
    rw [hafter] at hpair hfirst hr
    simp only [head?_cons, Option.map_some, Option.some_inj] at hfirst hr
    rw [decide_eq_false_iff_not, compareWrappedUint16_toNat (hw.bound _ hmem) hseq] at hr
    have hne' : r.seq.toNat ≠ seq.toNat := fun h => hfirst (BitVec.eq_of_toNat_eq h)
    have hrest := (pairwise_cons.mp hpair).1
    exact forall_mem_cons.mpr ⟨by omega, fun q hq => by have := hrest q hq; omega⟩

end Sorting

end ServalMesh.Msp
