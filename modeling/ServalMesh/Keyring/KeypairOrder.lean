import ServalMesh.Keyring.Identity

/-!
# The order of key pairs

Key pairs are kept in the order of their types, public keys and private keys. The comparison takes
an empty key for equal to any other of its type, or fails an assertion, so that a key pair is only
added if it joins the others.
-/

namespace ServalMesh.Keyring

open Overlay List Except

variable {a b x kp : Keypair} {keypairs : List Keypair} {scalarmultBase : List Byte → List Byte}

section Comparison

/-- The numbers that the bytes of a key stand for. -/
def values (key : List Byte) : List ℕ := key.map BitVec.toNat

theorem values_inj {a b : List Byte} : values a = values b ↔ a = b :=
  (map_injective_iff.mpr fun _ _ h => BitVec.eq_of_toNat_eq h).eq_iff

/-- What key pairs are ordered by. -/
def Keypair.key (kp : Keypair) : ℕ ×ₗ (List ℕ ×ₗ List ℕ) :=
  toLex (kp.type, toLex (values kp.pub, values kp.priv))

/-- There is neither a public nor a private key. -/
def Keypair.Empty (kp : Keypair) : Prop := kp.pub = [] ∧ kp.priv = []

/-- The sizes are those of the type, and the public key of `CRYPTOBOX` belongs to the private
key. -/
def Keypair.WellSized (scalarmultBase : List Byte → List Byte) (kp : Keypair) : Prop :=
  match keytypes kp.type with
  | some kt =>
    if kt.packedSize = 0 then kp.priv = []
    else kp.priv.length = kt.privateKeySize ∧ kp.pub.length = kt.publicKeySize ∧
      (kp.type = keytypeCryptobox → kp.pub = scalarmultBase kp.priv)
  | none => True

/-- A key pair of an unknown type has no public key, which would not be packed. -/
def Keypair.Kept (kp : Keypair) : Prop := keytypes kp.type = none → kp.pub = []

/-- A key pair as it is unpacked. -/
structure Stored (scalarmultBase : List Byte → List Byte) (kp : Keypair) : Prop where
  wellSized : kp.WellSized scalarmultBase
  kept : kp.Kept
  tag : kp.type = keytypePublicTag → kp.publicKey.isSome
  unknown : keytypes kp.type = none → kp.privateKey = newKey kp.priv

theorem cmpKey_spec (a b : List Byte) :
    (cmpKey a b < 0 ↔ values a < values b) ∧ (cmpKey a b = 0 ↔ a = b) := by
  induction a generalizing b with
  | nil =>
    cases b with
    | nil => simp [cmpKey, values]
    | cons y b =>
      simp only [cmpKey, values, map_nil, map_cons, nil_lt_cons, iff_true,
        reduceCtorEq, iff_false]
      omega
  | cons x a ih =>
    cases b with
    | nil =>
      simp only [cmpKey, values, map_nil, not_lt_nil, iff_false, reduceCtorEq]
      omega
    | cons y b =>
      rw [cmpKey, values, values, map_cons, map_cons, cons_lt_cons_iff,
        List.cons.injEq]
      rcases lt_trichotomy x.toNat y.toNat with hlt | heq | hgt
      · have hne : x ≠ y := fun h => hlt.ne (congrArg _ h)
        simp [BitVec.lt_def, hlt, hne]
      · obtain rfl := BitVec.eq_of_toNat_eq heq
        simpa [BitVec.lt_def, values] using ih b
      · have hne : x ≠ y := fun h => hgt.ne' (congrArg _ h)
        simp [BitVec.lt_def, hgt, hgt.not_gt, hgt.ne', hne]

theorem key_lt_iff : a.key < b.key ↔ a.type < b.type ∨ a.type = b.type ∧
    (values a.pub < values b.pub ∨ a.pub = b.pub ∧ values a.priv < values b.priv) := by
  rw [Keypair.key, Keypair.key, Prod.Lex.toLex_lt_toLex, Prod.Lex.toLex_lt_toLex, values_inj]

theorem key_eq_iff : a.key = b.key ↔ a.type = b.type ∧ a.pub = b.pub ∧ a.priv = b.priv := by
  simp [Keypair.key, values_inj]

theorem key_type_le (h : a.key ≤ b.key) : a.type ≤ b.type := by
  rcases h.lt_or_eq with h | h
  · rcases key_lt_iff.mp h with h | h
    · exact h.le
    · exact h.1.le
  · exact (key_eq_iff.mp h).1.le

/-- The empty key pair is the first one of its type. -/
theorem Keypair.Empty.not_lt (h : b.Empty) (htype : a.type = b.type) : ¬a.key < b.key := by
  rw [key_lt_iff, h.1, h.2]
  simp [htype, values]

theorem cmpKeypair_type (h : a.type ≠ b.type) :
    ∃ c, cmpKeypair a b = .ok c ∧ (c < 0 ↔ a.key < b.key) ∧ c ≠ 0 := by
  rw [cmpKeypair]
  rcases Nat.lt_or_gt_of_ne h with hlt | hgt
  · refine ⟨-1, by simp [hlt], ?_, by decide⟩
    rw [key_lt_iff]
    simp [hlt]
  · refine ⟨1, by simp [hgt, hgt.not_gt], ?_, by decide⟩
    rw [key_lt_iff]
    simp only [hgt.not_gt, hgt.ne', false_and, or_self, iff_false]
    decide

theorem cmpKeypair_empty (htype : a.type = b.type) (h : a.Empty) : cmpKeypair a b = .ok 0 := by
  simp [cmpKeypair, htype, h.1, h.2]

theorem isNone_of_getD {key : Option (List Byte)} (h : key.getD [] ≠ []) : key.isNone = false := by
  cases key with
  | none => exact absurd rfl h
  | some key => rfl

/-- Keys that can be compared. -/
theorem cmpKeypair_keys (htype : a.type = b.type)
    (hpub : a.pub ≠ [] → b.publicKey.isNone = false) (hpub' : a.pub = [] → b.pub = [])
    (hpriv : a.pub = b.pub → a.priv ≠ [] → b.privateKey.isNone = false)
    (hpriv' : a.pub = b.pub → a.priv = [] → b.priv = []) :
    ∃ c, cmpKeypair a b = .ok c ∧ (c < 0 ↔ a.key < b.key) ∧ (c = 0 ↔ a.key = b.key) := by
  have hkey : a.key < b.key ↔
      values a.pub < values b.pub ∨ a.pub = b.pub ∧ values a.priv < values b.priv := by
    rw [key_lt_iff]
    simp [htype]
  have hkey' : a.key = b.key ↔ a.pub = b.pub ∧ a.priv = b.priv := by
    rw [key_eq_iff]
    simp [htype]
  obtain ⟨hlt, hzero⟩ := cmpKey_spec a.pub b.pub
  obtain ⟨hlt', hzero'⟩ := cmpKey_spec a.priv b.priv
  -- the public keys first, which are equal if there are none
  have hfirst : (if a.pub ≠ [] then
      if b.publicKey.isNone then error Abort.assertion else .ok (cmpKey a.pub b.pub)
      else .ok 0) = .ok (cmpKey a.pub b.pub) := by
    by_cases hnil : a.pub = []
    · rw [if_neg (by simp [hnil]), hzero.mpr (hnil.trans (hpub' hnil).symm)]
    · rw [if_pos hnil, hpub hnil]
      rfl
  rw [cmpKeypair]
  simp only [htype, lt_irrefl, if_false, true_and]
  rw [hfirst]
  dsimp only
  by_cases hsame : a.pub = b.pub
  · rw [hzero.mpr hsame]
    by_cases hnil : a.priv = []
    · have hnil' := hpriv' hsame hnil
      exact ⟨0, by rw [if_neg (by simp [hnil])], by simp [hkey, hnil, hnil', hsame],
        by simp [hkey', hnil, hnil', hsame]⟩
    · exact ⟨_, by rw [if_pos ⟨rfl, hnil⟩, hpriv hsame hnil]; rfl, by simp [hkey, hlt', hsame],
        by simp [hkey', hzero', hsame]⟩
  · exact ⟨_, by rw [if_neg fun h => hsame (hzero.mp h.1)], by simp [hkey, hlt, hsame],
      by simp [hkey', hzero, hsame]⟩

/-- Only the public tag has no size of its own. -/
theorem keytypes_size {ktype : ℕ} {kt : Keytype} (h : keytypes ktype = some kt) :
    kt.packedSize = 0 ∧ ktype = keytypePublicTag ∨
      kt.packedSize ≠ 0 ∧ ktype ≠ keytypePublicTag ∧ kt.privateKeySize ≠ 0 := by
  obtain _ | _ | _ | _ | _ | _ | n := ktype
  all_goals simp only [keytypes, Option.some.injEq, reduceCtorEq] at h
  all_goals
    subst h
    simp [keytypePublicTag]

section

variable (ha : Stored scalarmultBase a) (hb : Stored scalarmultBase b) (htype : a.type = b.type)
  (hempty : ¬a.Empty)
include ha hb htype hempty

/-- The comparison of stored key pairs, where it does not go wrong. -/
theorem cmpKeypair_stored (htag : b.Empty → b.type = keytypePublicTag) :
    ∃ c, cmpKeypair a b = .ok c ∧ (c < 0 ↔ a.key < b.key) ∧ (c = 0 ↔ a.key = b.key) := by
  have hsa := ha.wellSized
  have hsb := hb.wellSized
  rw [Keypair.WellSized] at hsa hsb
  rw [← htype] at hsb
  rcases hkt : keytypes a.type with _ | kt <;> rw [hkt] at hsa hsb
  · have hpa := ha.kept hkt
    have hpb := hb.kept (htype ▸ hkt)
    have hne : b.priv ≠ [] := by
      intro hnil
      have hpub := htag ⟨hpb, hnil⟩
      rw [← htype] at hpub
      rw [hpub] at hkt
      exact nomatch hkt
    refine cmpKeypair_keys htype (fun h => absurd hpa h) (fun _ => hpb)
      (fun _ _ => isNone_of_getD hne) (fun _ hnil => absurd ⟨hpa, hnil⟩ hempty)
  · dsimp only at hsa hsb
    rcases keytypes_size hkt with ⟨hsize, htag'⟩ | ⟨hsize, -⟩
    · rw [if_pos hsize] at hsa hsb
      have hsome : b.publicKey.isNone = false := by
        have := hb.tag (htype.symm.trans htag')
        rwa [Option.isNone_eq_false_iff]
      exact cmpKeypair_keys htype (fun _ => hsome) (fun hnil => absurd ⟨hnil, hsa⟩ hempty)
        (fun _ h => absurd hsa h) (fun _ _ => hsb)
    · rw [if_neg hsize] at hsa hsb
      obtain ⟨hpriv, hpub, -⟩ := hsa
      obtain ⟨hpriv', hpub', -⟩ := hsb
      -- keys of the same sizes
      have hnil : ∀ {k k' : List Byte} {n : ℕ}, k.length = n → k'.length = n → k = [] →
          k' = [] := by
        intro k k' n hk hk' hnil
        rw [hnil, length_nil] at hk
        exact eq_nil_of_length_eq_zero (hk'.trans hk.symm)
      exact cmpKeypair_keys htype
        (fun h => isNone_of_getD fun h' => h (hnil hpub' hpub h')) (hnil hpub hpub')
        (fun _ h => isNone_of_getD fun h' => h (hnil hpriv' hpriv h'))
        (fun _ => hnil hpriv hpriv')

/-- An empty key of an unknown type cannot be compared with. -/
theorem cmpKeypair_null (hnull : b.Empty)
    (htag : b.type ≠ keytypePublicTag) : cmpKeypair a b = .error .assertion := by
  have hsb := hb.wellSized
  rw [Keypair.WellSized, ← htype] at hsb
  have hkt : keytypes a.type = none := by
    cases hkt : keytypes a.type with
    | none => rfl
    | some kt =>
      rw [hkt] at hsb
      dsimp only at hsb
      rcases keytypes_size hkt with ⟨-, htag'⟩ | ⟨hsize, -, hprivate⟩
      · exact absurd (htype.symm.trans htag') htag
      · rw [if_neg hsize, hnull.2] at hsb
        exact absurd hsb.1.symm hprivate
  have hpub := ha.kept hkt
  have hnone : b.privateKey = none := by
    rw [hb.unknown (htype ▸ hkt), hnull.2]
    rfl
  have hpriv : a.priv ≠ [] := fun h => hempty ⟨hpub, h⟩
  rw [cmpKeypair]
  simp [htype, hpub, hpriv, hnone]

end

end Comparison

section Adding

variable {previous : Option Keypair} {added : List Keypair}

/-- A key pair that can be added to those that are there: none of its type is empty, it is not
empty itself unless it is a tag or the only one of its type, and no empty one of a type before it
has others next to it. -/
structure Joins (keypairs : List Keypair) (kp : Keypair) : Prop where
  alone : ∀ x ∈ keypairs, x.type = kp.type → ¬x.Empty ∧ (kp.Empty → kp.type = keytypePublicTag)
  apart : ∀ p ∈ keypairs, ∀ x ∈ keypairs, p.Empty → x.type = p.type → p.type < kp.type →
    ¬p.key < x.key

/-- Key pairs of one type can be compared if the first is not empty, and the second is not or is a
tag. -/
def Comparable (a b : Keypair) : Prop :=
  a.type = b.type → ¬a.Empty ∧ (b.Empty → b.type = keytypePublicTag)

theorem Comparable.cmpKeypair (h : Comparable a b) (ha : Stored scalarmultBase a)
    (hb : Stored scalarmultBase b) (hne : a.key ≠ b.key) :
    ∃ c, cmpKeypair a b = .ok c ∧ (c < 0 ↔ a.key < b.key) ∧ c ≠ 0 := by
  by_cases htype : a.type = b.type
  · obtain ⟨hempty, htag⟩ := h htype
    obtain ⟨c, hc, hlt, hzero⟩ := cmpKeypair_stored ha hb htype hempty htag
    exact ⟨c, hc, hlt, hzero.not.mpr hne⟩
  · exact cmpKeypair_type htype

theorem cmpKeypair_not_comparable (ha : Stored scalarmultBase a) (hb : Stored scalarmultBase b)
    (h : ¬Comparable a b) : cmpKeypair a b = .ok 0 ∨ cmpKeypair a b = .error .assertion := by
  rw [Comparable, Classical.not_imp, not_and_or, not_not, Classical.not_imp] at h
  obtain ⟨htype, hempty⟩ := h
  by_cases hnull : a.Empty
  · exact .inl (cmpKeypair_empty htype hnull)
  · obtain ⟨hempty, htag⟩ := hempty.resolve_left hnull
    exact .inr (cmpKeypair_null ha hb htype hnull hempty htag)

/-- The key pairs in the loop are in order, unless an empty one has others next to it. -/
theorem checkOrder_ok (hp : ∀ p ∈ previous, Stored scalarmultBase p ∧ p.key < x.key)
    (hx : Stored scalarmultBase x) (hempty : ∀ p ∈ previous, p.Empty → x.type ≠ p.type) :
    checkOrder previous x = .ok () := by
  obtain _ | p := previous
  · rfl
  obtain ⟨hp, hlt⟩ := hp p rfl
  have hcomparable : Comparable p x := fun htype =>
    ⟨fun h => hempty p rfl h htype.symm, fun h => absurd hlt (h.not_lt htype)⟩
  obtain ⟨c, hc, hc', -⟩ := hcomparable.cmpKeypair hp hx hlt.ne
  rw [checkOrder, hc]
  exact if_pos (hc'.mpr hlt)

/-- What is added is the key pair and nothing else. -/
theorem addLoop_perm (hadd : addLoop kp previous keypairs = .ok (some added)) :
    added.Perm (kp :: keypairs) := by
  induction keypairs generalizing previous added with
  | nil => rw [← Option.some.inj (ok.inj hadd)]
  | cons x rest ih =>
    rw [addLoop] at hadd
    split at hadd
    · exact nomatch hadd
    split at hadd
    · split at hadd
      · exact nomatch hadd
      split at hadd
      · exact nomatch hadd
      case h_2 added' hadd' =>
        obtain ⟨l, rfl, rfl⟩ := Option.map_eq_some_iff.mp (ok.inj hadd)
        exact ((ih hadd').cons x).trans (List.Perm.swap _ _ _)
    split at hadd
    · exact nomatch hadd
    · rw [← Option.some.inj (ok.inj hadd)]

theorem mem_of_previous_lt {p : Keypair} (hp : p ∈ previous.toList)
    (hx : x ∈ previous.toList ++ keypairs) (hlt : p.key < x.key) : x ∈ keypairs := by
  rcases mem_append.mp hx with hx | hx
  · obtain rfl := Option.some.inj ((Option.mem_toList.mp hp).symm.trans (Option.mem_toList.mp hx))
    exact absurd hlt (lt_irrefl _)
  · exact hx

/-- A key pair is added exactly if it joins the one passed last and those to come. -/
theorem addLoop_spec (hkp : Stored scalarmultBase kp)
    (hstored : ∀ x ∈ previous.toList ++ keypairs, Stored scalarmultBase x)
    (hsorted : (previous.toList ++ keypairs).Pairwise fun a b => a.key < b.key)
    (hne : ∀ x ∈ keypairs, x.key ≠ kp.key)
    (hprevious : ∀ p ∈ previous.toList, p.key < kp.key ∧ Comparable p kp) :
    (Joins (previous.toList ++ keypairs) kp ↔
        ∃ added, addLoop kp previous keypairs = .ok (some added)) ∧
      ∀ added, addLoop kp previous keypairs = .ok (some added) →
        added.Pairwise fun a b => a.key < b.key := by
  induction keypairs generalizing previous with
  | nil =>
    refine ⟨⟨fun _ => ⟨_, rfl⟩, fun _ => ⟨fun x hx => ?_, fun p hp x hx _ _ _ hlt => ?_⟩⟩, ?_⟩
    · exact (hprevious x (by simpa using hx)).2
    · exact not_mem_nil (mem_of_previous_lt (by simpa using hp) hx hlt)
    · intro added hadd
      rw [← Option.some.inj (ok.inj hadd)]
      exact pairwise_singleton _ _
  | cons x rest ih =>
    have hx : x ∈ previous.toList ++ x :: rest := by simp
    obtain ⟨-, hsorted₁, hsorted₂⟩ := pairwise_append.mp hsorted
    obtain ⟨hxrest, -⟩ := pairwise_cons.mp hsorted₁
    have hle : ∀ y ∈ x :: rest, x.key ≤ y.key :=
      forall_mem_cons.mpr ⟨le_rfl, fun y hy => (hxrest y hy).le⟩
    by_cases hcomparable : Comparable x kp
    swap
    · have hnone : ¬∃ added, addLoop kp previous (x :: rest) = .ok (some added) := by
        rintro ⟨added, hadd⟩
        rw [addLoop] at hadd
        rcases cmpKeypair_not_comparable (hstored x hx) hkp hcomparable with h | h
        all_goals
          rw [h] at hadd
          exact nomatch hadd
      exact ⟨⟨fun h => absurd (h.alone x hx) hcomparable, fun h => absurd h hnone⟩,
        fun added hadd => absurd ⟨added, hadd⟩ hnone⟩
    obtain ⟨c, hc, hlt, hzero⟩ := hcomparable.cmpKeypair (hstored x hx) hkp (hne x mem_cons_self)
    rw [addLoop, hc]
    dsimp only
    by_cases hc0 : c < 0
    · have hxlt := hlt.mp hc0
      rw [if_pos hc0]
      by_cases hpass : ∀ p ∈ previous, p.Empty → x.type ≠ p.type
      · rw [checkOrder_ok (fun p hp => ⟨hstored p (mem_append_left _ (Option.mem_toList.mpr hp)),
          hsorted₂ p (Option.mem_toList.mpr hp) x mem_cons_self⟩) (hstored x hx) hpass]
        obtain ⟨hiff, hadded⟩ := @ih (some x) (fun y hy => hstored y (mem_append_right _ hy))
          hsorted₁ (fun y hy => hne y (mem_cons_of_mem _ hy)) fun p hp => by
            rw [mem_singleton.mp hp]
            exact ⟨hxlt, hcomparable⟩
        have hjoins : Joins (previous.toList ++ x :: rest) kp ↔ Joins (x :: rest) kp := by
          refine ⟨fun h => ⟨fun y hy => h.alone y (mem_append_right _ hy), fun p hp y hy =>
            h.apart p (mem_append_right _ hp) y (mem_append_right _ hy)⟩, fun h => ⟨?_, ?_⟩⟩
          · exact forall_mem_append.mpr ⟨fun y hy => (hprevious y hy).2, h.alone⟩
          intro p hp y hy hempty htype hlt' hpy
          rcases mem_append.mp hp with hp | hp
          · have hpx := key_type_le (hsorted₂ p hp x mem_cons_self).le
            have hxy := key_type_le (hle y (mem_of_previous_lt hp hy hpy))
            exact hpass p (Option.mem_toList.mp hp) hempty (by omega)
          · rcases mem_append.mp hy with hy | hy
            · exact lt_asymm hpy (hsorted₂ y hy p hp)
            · exact h.apart p hp y hy hempty htype hlt' hpy
        rw [hjoins]
        refine ⟨hiff.trans ?_, ?_⟩
        all_goals rcases hadd : addLoop kp (some x) rest with e | _ | added
        all_goals simp
        refine ⟨fun y hy => ?_, hadded added hadd⟩
        rcases mem_cons.mp ((addLoop_perm hadd).mem_iff.mp hy) with rfl | hy
        · exact hxlt
        · exact hxrest y hy
      · -- an empty key pair of the type of the next one cannot be passed
        push Not at hpass
        obtain ⟨p, hp, hempty, htype⟩ := hpass
        obtain rfl := hp
        rw [checkOrder, cmpKeypair_empty htype.symm hempty]
        refine ⟨⟨fun h => ?_, fun ⟨_, hadd⟩ => nomatch hadd⟩, nofun⟩
        obtain ⟨hlt', hcomparable'⟩ := hprevious p mem_cons_self
        rcases (key_type_le hlt'.le).lt_or_eq with hlt' | heq
        · exact absurd (hsorted₂ p mem_cons_self x mem_cons_self)
            (h.apart p mem_cons_self x hx hempty htype hlt')
        · exact absurd hempty (hcomparable' heq).1
    · have hkplt : kp.key < x.key :=
        lt_of_le_of_ne (not_lt.mp (hlt.not.mp hc0)) (hne x mem_cons_self).symm
      have hkpx := key_type_le hkplt.le
      rw [if_neg hc0, if_neg hzero]
      refine ⟨⟨fun _ => ⟨_, rfl⟩, fun _ => ⟨fun y hy htype => ?_, ?_⟩⟩, fun added hadd => ?_⟩
      · rcases mem_append.mp hy with hy | hy
        · exact (hprevious y hy).2 htype
        have hxy := key_type_le (hle y hy)
        obtain ⟨hempty, htag⟩ := hcomparable (by omega)
        refine ⟨fun hnull => ?_, htag⟩
        rcases mem_cons.mp hy with rfl | hy
        · exact hempty hnull
        · exact hnull.not_lt (by omega) (hxrest y hy)
      · intro p hp y hy _ htype hlt' hpy
        rcases mem_append.mp hp with hp | hp
        · have hxy := key_type_le (hle y (mem_of_previous_lt hp hy hpy))
          omega
        · have hxp := key_type_le (hle p hp)
          omega
      · rw [← Option.some.inj (ok.inj hadd)]
        exact pairwise_cons.mpr ⟨fun y hy => hkplt.trans_le (hle y hy), hsorted₁⟩

/-- Only the bytes of the keys matter. -/
theorem Joins.congr {others : List Keypair} {kp' : Keypair} (h : Joins keypairs kp)
    (hsub : ∀ x ∈ others, ∃ y ∈ keypairs, y.key = x.key) (hkey : kp.key = kp'.key) :
    Joins others kp' := by
  obtain ⟨htype, hpub, hpriv⟩ := key_eq_iff.mp hkey
  have hempty : ∀ {a b : Keypair}, a.key = b.key → (a.Empty ↔ b.Empty) := by
    intro a b hab
    obtain ⟨-, hpub, hpriv⟩ := key_eq_iff.mp hab
    rw [Keypair.Empty, Keypair.Empty, hpub, hpriv]
  constructor
  · intro x hx hxtype
    obtain ⟨y, hy, hyx⟩ := hsub x hx
    have hytype := (key_eq_iff.mp hyx).1
    have halone := h.alone y hy (by omega)
    rwa [hempty hyx, hempty hkey, htype] at halone
  · intro p hp x hx hpempty hxtype hlt
    obtain ⟨q, hq, hqp⟩ := hsub p hp
    obtain ⟨y, hy, hyx⟩ := hsub x hx
    have hqtype := (key_eq_iff.mp hqp).1
    have hytype := (key_eq_iff.mp hyx).1
    have hapart := h.apart q hq y hy ((hempty hqp).mpr hpempty) (by omega) (by omega)
    rwa [hqp, hyx] at hapart

/-- Each key pair joins those before it. -/
def JoinAll : List Keypair → List Keypair → Prop
  | _, [] => True
  | before, kp :: rest => Joins before kp ∧ JoinAll (before ++ [kp]) rest

end Adding

end ServalMesh.Keyring
