import ServalMesh.Lib.Run
import ServalMesh.Rhizome.Manifest

/-!
# The two copies of a manifest's fields

What a call does to the variables it also does to the struct, except that a new id drops the
bundle key from the struct only, and that some setters accept the value that stands for a field
that is not set.
-/

namespace ServalMesh.Rhizome

open Lib Overlay List Prod

section Variables

variable {m m' : Manifest} {var value : List Byte} {vars : List (List Byte × List Byte)}

/-- The value of a label. -/
def lookup (var : List Byte) (vars : List (List Byte × List Byte)) : Option (List Byte) :=
  (vars.find? fun entry => entry.1 = var).map Prod.snd

theorem lookup_cons (entry : List Byte × List Byte) (rest : List (List Byte × List Byte)) :
    lookup var (entry :: rest) = if entry.1 = var then some entry.2 else lookup var rest := by
  by_cases h : entry.1 = var <;> simp [h, lookup]

theorem lookup_eq_none : lookup var vars = none ↔ var ∉ vars.map fst := by
  rw [lookup, Option.map_eq_none_iff, find?_eq_none]
  simp only [decide_eq_true_eq, mem_map, not_exists, not_and]

theorem replaceVar_eq_none : replaceVar var value vars = none ↔ var ∉ vars.map fst := by
  induction vars with
  | nil => simp [replaceVar]
  | cons entry rest ih =>
    rw [replaceVar, map_cons, mem_cons, not_or, ← ih]
    by_cases h : entry.1 = var
    · simp [h]
    · simp [h, Ne.symm h]

theorem replaceVar_spec {vars vars' : List (List Byte × List Byte)}
    (h : replaceVar var value vars = some vars') : vars'.map fst = vars.map fst ∧
      ∀ label, lookup label vars' = if label = var then some value else lookup label vars := by
  induction vars generalizing vars' with
  | nil => exact absurd h (by simp [replaceVar])
  | cons entry rest ih =>
    rw [replaceVar] at h
    split at h
    case isTrue heq =>
      cases h
      refine ⟨rfl, fun label => ?_⟩
      rw [lookup_cons, lookup_cons]
      by_cases hlabel : label = var
      · simp [hlabel, heq]
      · have : ¬entry.1 = label := fun hne => hlabel (hne.symm.trans heq)
        simp [hlabel, this]
    case isFalse hne =>
      obtain ⟨rest', hrest', rfl⟩ := Option.map_eq_some_iff.mp h
      obtain ⟨hlabels, hlookup⟩ := ih hrest'
      refine ⟨by rw [map_cons, map_cons, hlabels], fun label => ?_⟩
      rw [lookup_cons, lookup_cons, hlookup]
      by_cases hlabel : label = var
      · simp [hlabel, hne]
      · simp [hlabel]

theorem lookup_append (hvar : var ∉ vars.map fst) (label : List Byte) :
    lookup label (vars ++ [(var, value)]) =
      if label = var then some value else lookup label vars := by
  by_cases h : label = var
  · have hnone := lookup_eq_none.mpr hvar
    rw [lookup, Option.map_eq_none_iff] at hnone
    simp [lookup, find?_append, h, hnone]
  · simp [lookup, find?_append, h, Ne.symm h]

theorem lookup_eraseP (var : List Byte) (hnodup : (vars.map fst).Nodup) (label : List Byte) :
    lookup label (vars.eraseP fun entry => entry.1 = var) =
      if label = var then none else lookup label vars := by
  induction vars with
  | nil => simp [lookup]
  | cons entry rest ih =>
    rw [map_cons, nodup_cons] at hnodup
    by_cases hentry : entry.1 = var
    · rw [eraseP_cons_of_pos (by simpa using hentry), lookup_cons]
      by_cases hlabel : label = var
      · rw [if_pos hlabel, hlabel, lookup_eq_none, ← hentry]
        exact hnodup.1
      · have : ¬entry.1 = label := fun heq => hlabel (heq.symm.trans hentry)
        simp [hlabel, this]
    · rw [eraseP_cons_of_neg (by simpa using hentry), lookup_cons, lookup_cons,
        ih hnodup.2]
      by_cases hlabel : label = var
      · simp [hlabel, hentry]
      · simp [hlabel]

end Variables

section Fields

variable {m m' : Manifest} {f g : Field}

theorem Field.label_injective : Function.Injective label := by
  intro f g h
  cases f <;> cases g <;> first | rfl | exact absurd h (by decide)

/-- The text that a variable should have, if the struct has the field. -/
def Manifest.fieldText (m : Manifest) : Field → Option (List Byte)
  | .id => m.cryptoSignPublic.map fun bid => tohex bid.bytes
  | .version => if m.version = 0 then none else some (printUint64 m.version)
  | .filehash => m.filehash.map fun hash => tohex hash.bytes
  | .filesize => if m.filesize = sizeUnset then none else some (printUint64 m.filesize)
  | .tail => if m.isJournal then some (printUint64 m.tail) else none
  | .bk => m.bundleKey.map fun bk => tohex bk.bytes
  | .service => m.service
  | .date => m.date.map printUint64
  | .sender => m.sender.map fun sid => tohex sid.bytes
  | .recipient => m.recipient.map fun sid => tohex sid.bytes
  | .name => m.name
  | .crypt =>
    match m.payloadEncryption with
    | .payloadCryptUnknown => none
    | .payloadClear => some (ascii ['0'])
    | .payloadEncrypted => some (ascii ['1'])

@[simp]
theorem Manifest.unfinalised_vars (m : Manifest) : m.unfinalised.vars = m.vars := rfl

@[simp]
theorem Manifest.unfinalised_fieldText (m : Manifest) (f : Field) :
    m.unfinalised.fieldText f = m.fieldText f := by cases f <;> rfl

@[simp]
theorem Manifest.vars_fieldText (m : Manifest) (vars : List (List Byte × List Byte)) (f : Field) :
    ({ m with vars } : Manifest).fieldText f = m.fieldText f := by cases f <;> rfl

/-- A journal is a manifest with a tail. -/
def Manifest.Journal (m : Manifest) : Prop := m.isJournal = decide (m.tail ≠ sizeUnset)

/-- All variables are known fields, each is there once, and its text is related to the struct. -/
structure Sound (R : Field → Option (List Byte) → Option (List Byte) → Prop) (m : Manifest) :
    Prop where
  nodup : (m.vars.map Prod.fst).Nodup
  known : ∀ label ∈ m.vars.map Prod.fst, ∃ f : Field, f.label = label
  related : ∀ f : Field, R f (m.fieldText f) (rhizomeManifestGet m f.label)
  journal : m.Journal

/-- The variables and the struct agree. -/
def InStep : Manifest → Prop := Sound fun _ text var => var = text

/-- The texts that a setter may give a field. -/
def Written : Field → List Byte → Prop
  | .id, text | .bk, text | .sender, text | .recipient, text =>
    ∃ id : Binary 32, text = tohex id.bytes
  | .filehash, text => ∃ hash : RhizomeFilehash, text = tohex hash.bytes
  | .version, text | .filesize, text | .tail, text | .date, text =>
    ∃ value, text = printUint64 value
  | .service, text => rhizomeStrIsManifestService text = true
  | .name, text => rhizomeStrIsManifestName text = true ∧ 0#8 ∉ text
  | .crypt, text => text = ascii ['0'] ∨ text = ascii ['1']

/-- A field that both copies have, or that neither has, is related. -/
structure Reflects (R : Field → Option (List Byte) → Option (List Byte) → Prop) : Prop where
  absent : ∀ f, R f none none
  written : ∀ f text, Written f text → R f (some text) (some text)

theorem Field.mem_all (f : Field) : f ∈ all := by cases f <;> decide

variable {R : Field → Option (List Byte) → Option (List Byte) → Prop} {update : Manifest → Manifest}
  {text : Option (List Byte)}

theorem Sound.length_lt (h : Sound R m) : m.vars.length < maxManifestVars := by
  have hsubset : m.vars.map fst ⊆ Field.all.map Field.label := by
    intro label hlabel
    obtain ⟨f, rfl⟩ := h.known label hlabel
    exact mem_map_of_mem f.mem_all
  have hle := (h.nodup.subperm hsubset).length_le
  rw [length_map, length_map] at hle
  exact lt_of_le_of_lt hle (by decide)

/-- One variable was set or deleted. -/
structure Edited (f : Field) (text : Option (List Byte)) (m m' : Manifest) : Prop where
  nodup : (m'.vars.map Prod.fst).Nodup
  known : ∀ label ∈ m'.vars.map Prod.fst, ∃ f : Field, f.label = label
  get : ∀ g : Field, rhizomeManifestGet m' g.label =
    if g = f then text else rhizomeManifestGet m g.label

theorem Edited.sound (h : Edited f text m m') (hjournal : m'.Journal)
    (hthis : R f (m'.fieldText f) text)
    (hother : ∀ g, g ≠ f → R g (m'.fieldText g) (rhizomeManifestGet m g.label)) : Sound R m' := by
  refine ⟨h.nodup, h.known, fun g => ?_, hjournal⟩
  rw [h.get]
  by_cases hg : g = f
  · rwa [if_pos hg, hg]
  · rw [if_neg hg]
    exact hother g hg

/-- What the values of the labels are is what the fields' texts are. -/
theorem get_of_lookup {vars : List (List Byte × List Byte)} (hvars : m'.vars = vars)
    (hlookup : ∀ label, lookup label vars = if label = f.label then text else lookup label m.vars)
    (g : Field) :
    rhizomeManifestGet m' g.label =
      if g = f then text else rhizomeManifestGet m g.label := by
  have := hlookup g.label
  simp only [Field.label_injective.eq_iff] at this
  rwa [rhizomeManifestGet, hvars]

section

variable (h : Sound R m) {text : List Byte}
include h

theorem append_edited (hnew : f.label ∉ m.vars.map fst)
    (hvars : m'.vars = m.vars ++ [(f.label, text)]) : Edited f (some text) m m' := by
  refine ⟨?_, ?_, get_of_lookup hvars (lookup_append hnew)⟩
  · rw [hvars, map_append, map_singleton, ← concat_eq_append]
    exact h.nodup.concat hnew
  · rw [hvars, map_append]
    exact forall_mem_append.mpr ⟨h.known, forall_mem_singleton.mpr ⟨f, rfl⟩⟩

open Manifest

theorem setField_edited (f : Field) (text : List Byte)
    (update : Manifest → Manifest) (hvars : ∀ m, (update m).vars = m.vars) :
    ∃ vars, setField m f text update = .ok (update { m with vars }).unfinalised ∧
      Edited f (some text) m (update { m with vars }).unfinalised := by
  rw [setField, rhizomeManifestSet]
  cases hreplace : replaceVar f.label text m.vars with
  | some vars =>
    obtain ⟨hlabels, hlookup⟩ := replaceVar_spec hreplace
    refine ⟨vars, rfl, ?_, ?_, get_of_lookup (hvars _) hlookup⟩ <;>
      rw [unfinalised_vars, hvars, hlabels]
    · exact h.nodup
    · exact h.known
  | none =>
    rw [if_neg (not_le.mpr h.length_lt)]
    exact ⟨m.vars ++ [(f.label, text)], rfl,
      append_edited h (replaceVar_eq_none.mp hreplace) (hvars _)⟩

theorem del_edited (f : Field)
    (hvars : m'.vars = (rhizomeManifestDel m f.label).vars) : Edited f none m m' := by
  have hsub : (m'.vars.map fst).Sublist (m.vars.map fst) := by
    rw [hvars]
    exact eraseP_sublist.map _
  exact ⟨h.nodup.sublist hsub, fun label hlabel => h.known label (hsub.subset hlabel),
    get_of_lookup hvars (lookup_eraseP f.label h.nodup)⟩

/-- A setter that changes one element of the struct. -/
theorem setField_sound (hrun : setField m f text update = .ok m')
    (hthis : ∀ m, R f ((update m).fieldText f) (some text))
    (hvars : ∀ m, (update m).vars = m.vars := by exact fun _ => rfl)
    (hjournal : ∀ m, m.Journal → (update m).Journal := by exact fun _ h => h)
    (hother : ∀ m g, g ≠ f → (update m).fieldText g = m.fieldText g := by
      intro _ g hg; cases g <;> first | rfl | exact absurd rfl hg) : Sound R m' := by
  obtain ⟨vars, hset, hedited⟩ := setField_edited h f text update hvars
  cases hset.symm.trans hrun
  refine hedited.sound (hjournal { m with vars } h.journal) (hthis _) fun g hg => ?_
  rw [unfinalised_fieldText, hother _ g hg, vars_fieldText]
  exact h.related g

theorem del_sound (hR : Reflects R) (hvars : m'.vars = (rhizomeManifestDel m f.label).vars)
    (hjournal : m'.Journal) (hthis : m'.fieldText f = none)
    (hother : ∀ g, g ≠ f → m'.fieldText g = m.fieldText g := by
      intro g hg; cases g <;> first | rfl | exact absurd rfl hg) : Sound R m' := by
  refine (del_edited h f hvars).sound hjournal ?_ fun g hg => ?_
  · rw [hthis]
    exact hR.absent f
  · rw [hother g hg]
    exact h.related g

theorem delField_sound (hR : Reflects R) {present : Bool}
    (hrun : delField m f present update = .ok m') (hvars : ∀ m, (update m).vars = m.vars)
    (hjournal : ∀ m, m.Journal → (update m).Journal) (hthis : ∀ m, (update m).fieldText f = none)
    (hother : ∀ m g, g ≠ f → (update m).fieldText g = m.fieldText g) : Sound R m' := by
  rw [delField] at hrun
  split at hrun
  case isTrue =>
    cases hrun
    refine del_sound h hR (hvars _) (hjournal (rhizomeManifestDel m f.label) h.journal) ?_
      fun g hg => ?_
    · rw [unfinalised_fieldText, hthis]
    · rw [unfinalised_fieldText, hother _ g hg, rhizomeManifestDel,
        vars_fieldText]
  case isFalse =>
    split at hrun
    case isTrue =>
      cases hrun
      exact h
    case isFalse => exact nomatch hrun

/-- The struct's elements that are not fields do not matter. -/
theorem Sound.apart {cryptoSignSecret manifestdata : List Byte} {haveSecret : HaveSecret}
    {malformed : Option String} {authorship : Authorship} {rowid inserttime : BitVec 64}
    {author : Binary 32} {manifestBodyBytes : ℕ} :
    Sound R { m with
      cryptoSignSecret, haveSecret, malformed, authorship, rowid, inserttime, author
      manifestBodyBytes, manifestdata } := by
  refine ⟨h.nodup, h.known, fun g => ?_, h.journal⟩
  cases g <;> exact h.related _

end

/-- A new id drops the bundle key from the struct. -/
def dropsKey (m : Manifest) (bid : RhizomeBid) (own : Bool) : Bool :=
  !own && m.cryptoSignPublic.any fun old => old ≠ bid

/-- What has to be related so that a call keeps the relation. -/
def Admits (R : Field → Option (List Byte) → Option (List Byte) → Prop) (m : Manifest) :
    ManifestOp → Prop
  | .setId bid => dropsKey m bid false = true →
      R .bk none (rhizomeManifestGet m Field.bk.label)
  | .setVersion v => v = 0 → R .version none (some (printUint64 v))
  | .setFilesize v => v = sizeUnset → R .filesize none (some (printUint64 v))
  | .setTail v => v = sizeUnset → R .tail none (some (printUint64 v))
  | _ => True

theorem assignId_vars (m : Manifest) (bid : RhizomeBid) (own : Bool) :
    (assignId m bid own).vars = m.vars := by
  rw [assignId, resetId]
  split_ifs <;> rfl

theorem assignId_journal (m : Manifest) (bid : RhizomeBid) (own : Bool) (h : m.Journal) :
    (assignId m bid own).Journal := by
  rw [assignId, resetId]
  split_ifs <;> exact h

theorem assignId_fieldText (m : Manifest) (bid : RhizomeBid) (own : Bool) {g : Field}
    (hg : g ≠ .id) : (assignId m bid own).fieldText g =
      if g = .bk ∧ dropsKey m bid own = true then none else m.fieldText g := by
  rw [assignId, resetId, dropsKey]
  cases own with
  | true => cases g <;> first | rfl | exact absurd rfl hg
  | false =>
    cases hreset : m.cryptoSignPublic.any fun old => decide (old ≠ bid) with
    | true | false => cases g <;> first | rfl | exact absurd rfl hg

section

variable (h : Sound R m) (hR : Reflects R)
include h hR

theorem setId_sound {bid : RhizomeBid} {own : Bool}
    (hbk : dropsKey m bid own = true → R .bk none (rhizomeManifestGet m Field.bk.label))
    (hrun : rhizomeManifestSetId m bid own = .ok m') : Sound R m' := by
  obtain ⟨vars, hset, hedited⟩ := setField_edited h .id (tohex bid.bytes)
    (fun m => assignId m bid own) (fun m => assignId_vars m bid own)
  cases hset.symm.trans hrun
  refine hedited.sound (assignId_journal _ _ _ h.journal) ?_ fun g hg => ?_
  · have : (assignId { m with vars } bid own).fieldText .id = some (tohex bid.bytes) := by
      rw [assignId]
      split <;> rfl
    rw [Manifest.unfinalised_fieldText, this]
    exact hR.written .id _ ⟨bid, rfl⟩
  · rw [Manifest.unfinalised_fieldText, assignId_fieldText _ _ _ hg, Manifest.vars_fieldText]
    split
    case isTrue hdrop =>
      obtain ⟨rfl, hdrop⟩ := hdrop
      exact hbk hdrop
    case isFalse => exact h.related g

theorem delBundleKey_sound (hrun : rhizomeManifestDelBundleKey m = .ok m') : Sound R m' := by
  obtain ⟨m₁, hdel, hm₁⟩ := ok_of_bind hrun
  cases hm₁
  have h₁ : Sound R m₁ := delField_sound h hR hdel (fun _ => rfl) (fun _ h => h) (fun _ => rfl)
    fun _ g hg => by cases g <;> first | rfl | exact absurd rfl hg
  exact h₁.apart

theorem createid_sound {key : RhizomeBid} {secret : List Byte}
    (hrun : rhizomeManifestCreateid m key secret = .ok m') : Sound R m' := by
  obtain ⟨m₁, hid, hdel⟩ := ok_of_bind hrun
  have h₀ : Sound R { m with cryptoSignSecret := secret } := h.apart
  have h₁ := setId_sound h₀ hR (fun habs => absurd habs (by simp [dropsKey])) hid
  have h₂ : Sound R { m₁ with haveSecret := .newBundleId } := h₁.apart
  exact delBundleKey_sound h₂ hR hdel

theorem setFilehash_sound
    {hash : Option RhizomeFilehash} (hrun : rhizomeManifestSetFilehash m hash = .ok m') :
    Sound R m' := by
  unfold rhizomeManifestSetFilehash at hrun
  split at hrun
  case isTrue => exact nomatch hrun
  case isFalse =>
    cases hash with
    | some hash => exact setField_sound h hrun fun _ => hR.written _ _ ⟨hash, rfl⟩
    | none =>
      cases hrun
      exact del_sound (f := .filehash) h hR rfl h.journal rfl

theorem setCrypt_sound {flag : ManifestCrypt}
    (hrun : rhizomeManifestSetCrypt m flag = .ok m') : Sound R m' := by
  cases flag with
  | payloadCryptUnknown =>
    cases hrun
    exact del_sound (f := .crypt) h hR rfl h.journal rfl
  | payloadClear => exact setField_sound h hrun fun _ => hR.written _ _ (.inl rfl)
  | payloadEncrypted => exact setField_sound h hrun fun _ => hR.written _ _ (.inr rfl)

end

theorem setAuthor_sound (h : Sound R m) (sid : Option (Binary 32)) :
    Sound R (rhizomeManifestSetAuthor m sid) := by
  unfold rhizomeManifestSetAuthor rhizomeManifestDelAuthor
  cases sid with
  | some sid =>
    dsimp only
    split
    case isTrue => exact h.apart
    case isFalse => exact h
  | none =>
    dsimp only
    split
    case isTrue => exact h
    case isFalse => exact h.apart

/-- What the calls do that delete a field and nothing else. -/
theorem run_del_sound (h : Sound R m) (hR : Reflects R) (op : ManifestOp)
    (hop : op ∈ [.delService, .delName, .delSender, .delRecipient]) (hrun : op.run m = .ok m') :
    Sound R m' := by
  simp only [mem_cons, not_mem_nil, or_false] at hop
  rcases hop with rfl | rfl | rfl | rfl
  all_goals
    simp only [ManifestOp.run, rhizomeManifestDelService, rhizomeManifestDelName,
      rhizomeManifestDelSender, rhizomeManifestDelRecipient] at hrun
    exact delField_sound h hR hrun (fun _ => rfl) (fun _ h => h) (fun _ => rfl)
      fun _ g hg => by cases g <;> first | rfl | exact absurd rfl hg

/-- What one call does to the relation between the variables and the struct. -/
theorem run_sound (h : Sound R m) (hR : Reflects R) {op : ManifestOp}
    (hop : Admits R m op) (hrun : op.run m = .ok m') : Sound R m' := by
  cases op with
  | setId bid => exact setId_sound h hR hop hrun
  | createid key secret => exact createid_sound h hR hrun
  | setVersion number | setFilesize number =>
    refine setField_sound h hrun fun m => ?_
    rw [Manifest.fieldText]
    split
    case isTrue hv => exact hop hv
    case isFalse => exact hR.written _ _ ⟨number, rfl⟩
  | setFilehash hash => exact setFilehash_sound h hR hrun
  | setTail tail =>
    refine setField_sound h hrun (fun m => ?_) (fun _ => rfl) (fun _ _ => rfl)
    rw [Manifest.fieldText]
    split
    case isTrue => exact hR.written _ _ ⟨tail, rfl⟩
    case isFalse hv => exact hop (by simpa using hv)
  | setBundleKey bk =>
    cases bk with
    | some bk => exact setField_sound h hrun fun _ => hR.written _ _ ⟨bk, rfl⟩
    | none => exact delBundleKey_sound h hR hrun
  | delBundleKey => exact delBundleKey_sound h hR hrun
  | setService service =>
    cases service with
    | some service =>
      rw [ManifestOp.run, rhizomeManifestSetService] at hrun
      split at hrun
      case isTrue hvalid => exact setField_sound h hrun fun _ => hR.written _ _ hvalid
      case isFalse => exact nomatch hrun
    | none => exact run_del_sound h hR .delService (by simp) hrun
  | setName name =>
    cases name with
    | some name =>
      rw [ManifestOp.run, rhizomeManifestSetName] at hrun
      split at hrun
      case isTrue hvalid => exact setField_sound h hrun fun _ => hR.written _ _ ⟨hvalid, name.noNul⟩
      case isFalse => exact nomatch hrun
    | none =>
      cases hrun
      exact del_sound (f := .name) h hR rfl h.journal rfl
  | setDate date => exact setField_sound h hrun fun _ => hR.written _ _ ⟨date, rfl⟩
  | setSender sid | setRecipient sid =>
    cases sid with
    | some sid => exact setField_sound h hrun fun _ => hR.written _ _ ⟨sid, rfl⟩
    | none =>
      first
      | exact run_del_sound h hR .delSender (by simp) hrun
      | exact run_del_sound h hR .delRecipient (by simp) hrun
  | delService | delName | delSender | delRecipient => exact run_del_sound h hR _ (by simp) hrun
  | setCrypt flag => exact setCrypt_sound h hR hrun
  | setRowid _ | setInserttime _ =>
    cases hrun
    exact h.apart
  | setAuthor sid =>
    cases hrun
    exact setAuthor_sound h sid
  | delAuthor =>
    cases hrun
    exact setAuthor_sound h none

end Fields

end ServalMesh.Rhizome
