import ServalMesh.Rhizome.ManifestSteps

/-!
# Runs of calls on a manifest

From a fresh manifest the variables and the struct stay in step exactly as long as every call
changes both copies.
-/

namespace ServalMesh.Rhizome

open Lib Overlay List

variable {R : Field → Option (List Byte) → Option (List Byte) → Prop} {m m' : Manifest} {f : Field}

/-- What the assertions of a call ask of its caller. -/
def precondition (m : Manifest) : ManifestOp → Bool
  | .setFilehash _ => m.filesize ≠ sizeUnset
  | .setService (some service) => rhizomeStrIsManifestService service.bytes
  | .setName (some name) => rhizomeStrIsManifestName name.bytes
  | _ => true

/-- Whether a call changes both copies. -/
def keepsStep (m : Manifest) : ManifestOp → Bool
  | .setId bid => !dropsKey m bid false || m.bundleKey.isNone
  | .setVersion version => version ≠ 0
  | .setFilesize size => size ≠ sizeUnset
  | .setTail tail => tail ≠ sizeUnset
  | _ => true

section Steps

theorem inStep_reflects : Reflects fun _ text var => var = text := ⟨fun _ => rfl, fun _ _ _ => rfl⟩

theorem InStep.get_eq (h : InStep m) (f : Field) :
    rhizomeManifestGet m f.label = m.fieldText f := h.related f

theorem setField_ok (h : Sound R m) (f : Field) (text : List Byte)
    (update : Manifest → Manifest) : ∃ m', setField m f text update = .ok m' := by
  rw [setField, rhizomeManifestSet]
  cases replaceVar f.label text m.vars with
  | some vars => exact ⟨_, rfl⟩
  | none =>
    rw [if_neg (not_le.mpr h.length_lt)]
    exact ⟨_, rfl⟩

section

variable (h : InStep m)
include h

/-- The assertion of a deletion holds if the struct and the variables agree. -/
theorem delField_ok {present : Bool} (update : Manifest → Manifest)
    (hpresent : present = (m.fieldText f).isSome) : ∃ m', delField m f present update = .ok m' := by
  rw [delField, h.get_eq]
  rcases htext : m.fieldText f with _ | text <;> rw [htext] at hpresent
  · exact ⟨m, by rw [hpresent]; rfl⟩
  · exact ⟨_, if_pos hpresent⟩

theorem delBundleKey_ok : ∃ m', rhizomeManifestDelBundleKey m = .ok m' := by
  obtain ⟨m₁, hm₁⟩ := delField_ok (f := .bk) h (fun m => { m with bundleKey := none })
    (by rw [Manifest.fieldText, Option.isSome_map])
  rw [rhizomeManifestDelBundleKey, hm₁]
  exact ⟨_, rfl⟩

theorem delService_ok : ∃ m', rhizomeManifestDelService m = .ok m' :=
  delField_ok h _ rfl

theorem delSender_ok : ∃ m', rhizomeManifestDelSender m = .ok m' :=
  delField_ok (f := .sender) h _ (by rw [Manifest.fieldText, Option.isSome_map])

theorem delRecipient_ok : ∃ m', rhizomeManifestDelRecipient m = .ok m' :=
  delField_ok (f := .recipient) h _ (by rw [Manifest.fieldText, Option.isSome_map])

theorem createid_ok (key : RhizomeBid) (secret : List Byte) :
    ∃ m', rhizomeManifestCreateid m key secret = .ok m' := by
  have h₀ : InStep { m with cryptoSignSecret := secret } := Sound.apart h
  obtain ⟨m₁, hm₁⟩ := setField_ok h₀ .id (tohex key.bytes) fun m => assignId m key true
  have h₁ : InStep m₁ :=
    setId_sound h₀ inStep_reflects (fun habs => absurd habs (by simp [dropsKey])) hm₁
  have h₂ : InStep { m₁ with haveSecret := .newBundleId } := Sound.apart h₁
  rw [rhizomeManifestCreateid, rhizomeManifestSetId, hm₁]
  exact delBundleKey_ok h₂

/-- No assertion fails while the copies agree. -/
theorem InStep.run_ok {op : ManifestOp} (hop : precondition m op = true) :
    ∃ m', op.run m = .ok m' := by
  cases op with
  | setId _ | setVersion _ | setFilesize _ | setTail _ | setDate _ => exact setField_ok h ..
  | createid key secret => exact createid_ok h key secret
  | setFilehash hash =>
    rw [ManifestOp.run]
    unfold rhizomeManifestSetFilehash
    rw [if_neg (of_decide_eq_true hop)]
    cases hash with
    | some hash => exact setField_ok h ..
    | none => exact ⟨_, rfl⟩
  | setBundleKey bk =>
    cases bk with
    | some bk => exact setField_ok h ..
    | none => exact delBundleKey_ok h
  | delBundleKey => exact delBundleKey_ok h
  | setService service =>
    cases service with
    | some service =>
      have hvalid : rhizomeStrIsManifestService service.bytes = true := hop
      rw [ManifestOp.run, rhizomeManifestSetService, if_pos hvalid]
      exact setField_ok h ..
    | none => exact delService_ok h
  | delService => exact delService_ok h
  | setName name =>
    cases name with
    | some name =>
      have hvalid : rhizomeStrIsManifestName name.bytes = true := hop
      rw [ManifestOp.run, rhizomeManifestSetName, if_pos hvalid]
      exact setField_ok h ..
    | none => exact ⟨_, rfl⟩
  | delName =>
    rw [ManifestOp.run, rhizomeManifestDelName]
    exact delField_ok h _ rfl
  | setSender sid =>
    cases sid with
    | some sid => exact setField_ok h ..
    | none => exact delSender_ok h
  | delSender => exact delSender_ok h
  | setRecipient sid =>
    cases sid with
    | some sid => exact setField_ok h ..
    | none => exact delRecipient_ok h
  | delRecipient => exact delRecipient_ok h
  | setCrypt flag =>
    cases flag with
    | payloadCryptUnknown => exact ⟨_, rfl⟩
    | payloadClear | payloadEncrypted => exact setField_ok h ..
  | setRowid _ | setInserttime _ | setAuthor _ | delAuthor => exact ⟨_, rfl⟩

end

/-- What a setter wrote is what the struct has, if the copies agree afterwards. -/
theorem setField_text (h : Sound R m) {text : List Byte} {update : Manifest → Manifest}
    (hrun : setField m f text update = .ok m') (hvars : ∀ m, (update m).vars = m.vars)
    (h' : InStep m') : ∃ vars, (update { m with vars }).fieldText f = some text := by
  obtain ⟨vars, hset, hedited⟩ := setField_edited h f text update hvars
  cases hset.symm.trans hrun
  refine ⟨vars, ?_⟩
  have hget := hedited.get f
  rwa [if_pos rfl, h'.get_eq, Manifest.unfinalised_fieldText] at hget

theorem setId_keepsStep (h : InStep m) {bid : RhizomeBid} {own : Bool}
    (hrun : rhizomeManifestSetId m bid own = .ok m') (h' : InStep m')
    (hdrops : dropsKey m bid own = true) : m.bundleKey = none := by
  obtain ⟨vars, hset, hedited⟩ := setField_edited h .id (tohex bid.bytes)
    (fun m => assignId m bid own) (fun m => assignId_vars m bid own)
  cases hset.symm.trans hrun
  have hbk := hedited.get .bk
  have hnone : (assignId { m with vars } bid own).fieldText .bk = none := by
    rw [assignId_fieldText _ _ _ (by decide), if_pos ⟨rfl, hdrops⟩]
  rw [if_neg (by decide), h'.get_eq, h.get_eq, Manifest.unfinalised_fieldText, hnone] at hbk
  exact Option.map_eq_none_iff.mp hbk.symm

/-- A call keeps the copies in step exactly if it changes both. -/
theorem InStep.run_iff (h : InStep m) {op : ManifestOp} (hrun : op.run m = .ok m') :
    InStep m' ↔ keepsStep m op = true := by
  constructor
  · intro h'
    cases op with
    | setId bid =>
      rw [keepsStep, Bool.or_eq_true, Bool.not_eq_true']
      cases hdrops : dropsKey m bid false with
      | true => exact .inr (Option.isNone_iff_eq_none.mpr (setId_keepsStep h hrun h' hdrops))
      | false => exact .inl rfl
    | setVersion number | setFilesize number | setTail number =>
      obtain ⟨vars, htext⟩ := setField_text h hrun (fun _ => rfl) h'
      refine decide_eq_true ?_
      rintro rfl
      exact absurd htext (by simp [Manifest.fieldText])
    | _ => rfl
  · intro hop
    refine run_sound h inStep_reflects ?_ hrun
    cases op with
    | setId bid =>
      intro hdrops
      rw [keepsStep, hdrops] at hop
      have hnone : m.bundleKey = none := Option.isNone_iff_eq_none.mp hop
      rw [h.get_eq, Manifest.fieldText, hnone]
      rfl
    | setVersion _ | setFilesize _ | setTail _ =>
      exact fun habs => absurd habs (of_decide_eq_true hop)
    | _ => trivial

end Steps

section Runs

/-- A condition on every call of a run, in the state that it is made in. -/
def along (p : Manifest → ManifestOp → Bool) : Manifest → List ManifestOp → Bool
  | _, [] => true
  | m, op :: ops => p m op && match op.run m with
    | .ok m' => along p m' ops
    | .error _ => true

theorem along_cons {p : Manifest → ManifestOp → Bool} {op : ManifestOp}
    (hrun : op.run m = .ok m') (ops : List ManifestOp) :
    along p m (op :: ops) = true ↔ p m op = true ∧ along p m' ops = true := by
  rw [along, hrun, Bool.and_eq_true]

/-- The text that would be signed has only fields that the struct has. -/
def PacksPresent (m : Manifest) : Prop :=
  ∀ packed, rhizomeManifestPackVariables m = some packed → ∃ lines : List (Field × List Byte),
    packed.manifestdata = lines.flatMap (fun line => packLine (line.1.label, line.2)) ++ [0#8] ∧
    ∀ line ∈ lines, m.fieldText line.1 = some line.2

theorem runManifestOps_cons (m : Manifest) (op : ManifestOp) (ops : List ManifestOp) :
    runManifestOps m (op :: ops) = op.run m >>= fun m => runManifestOps m ops :=
  foldlM_cons ..

variable {entry : List Byte × List Byte} {ops : List ManifestOp}

theorem lookup_of_mem {vars : List (List Byte × List Byte)} (hnodup : (vars.map Prod.fst).Nodup)
    (hentry : entry ∈ vars) : lookup entry.1 vars = some entry.2 := by
  induction vars with
  | nil => exact nomatch hentry
  | cons first rest ih =>
    rw [map_cons, nodup_cons] at hnodup
    rw [lookup_cons]
    rcases mem_cons.mp hentry with rfl | hrest
    · rw [if_pos rfl]
    · rw [if_neg, ih hnodup.2 hrest]
      intro heq
      exact hnodup.1 (heq ▸ mem_map_of_mem hrest)

/-- A relation that no call can break holds after every run. -/
theorem runManifestOps_sound (hR : Reflects R) (hadmits : ∀ m op, Sound R m → Admits R m op)
    (h : Sound R m) (hrun : runManifestOps m ops = .ok m') : Sound R m' := by
  induction ops generalizing m with
  | nil =>
    cases hrun
    exact h
  | cons op ops ih =>
    obtain ⟨m₁, hop, hops⟩ := ok_of_bind hrun
    exact ih (run_sound h hR (hadmits m op h) hop) hops

/-- Each variable is a field with its text. -/
theorem Sound.exists_field (h : Sound R m) (hentry : entry ∈ m.vars) :
    ∃ f : Field, f.label = entry.1 ∧ rhizomeManifestGet m f.label = some entry.2 := by
  obtain ⟨f, hf⟩ := h.known entry.1 (mem_map_of_mem hentry)
  refine ⟨f, hf, ?_⟩
  rw [hf]
  exact lookup_of_mem h.nodup hentry

theorem rhizomeManifestPackVariables_spec {packed : Manifest}
    (h : rhizomeManifestPackVariables m = some packed) :
    packed.manifestdata = m.vars.flatMap packLine ++ [0#8] ∧
      packed.manifestBodyBytes = packed.manifestdata.length ∧
      packed.manifestdata.length ≤ maxManifestBytes := by
  rw [rhizomeManifestPackVariables] at h
  split at h
  case isTrue => exact nomatch h
  case isFalse hfits =>
    cases h
    refine ⟨rfl, ?_, ?_⟩ <;> rw [length_append, length_singleton]
    exact not_le.mp hfits

theorem InStep.packsPresent (h : InStep m) : PacksPresent m := by
  intro packed hpack
  have hall : ∀ entry ∈ m.vars, ∃ line : Field × List Byte,
      (line.1.label, line.2) = entry ∧ m.fieldText line.1 = some line.2 := by
    intro entry hentry
    obtain ⟨f, hf, hget⟩ := Sound.exists_field h hentry
    exact ⟨(f, entry.2), by rw [hf], by rw [← h.get_eq, hget]⟩
  have : Nonempty Field := ⟨.id⟩
  choose! line hline htext using hall
  refine ⟨m.vars.map line, ?_, forall_mem_map.mpr htext⟩
  rw [(rhizomeManifestPackVariables_spec hpack).1, flatMap_map]
  exact congrArg (· ++ _) (flatMap_congr fun e he => by rw [hline e he])

theorem runManifestOps_inStep_iff_of (h : InStep m) (hops : along precondition m ops = true) :
    (∀ k, ∃ m', runManifestOps m (ops.take k) = .ok m' ∧ InStep m' ∧ PacksPresent m') ↔
      along keepsStep m ops = true := by
  induction ops generalizing m with
  | nil =>
    refine ⟨fun _ => rfl, fun _ k => ⟨m, ?_, h, h.packsPresent⟩⟩
    rw [take_nil]
    rfl
  | cons op ops ih =>
    obtain ⟨m₁, hrun⟩ := h.run_ok (Bool.and_eq_true_iff.mp hops).1
    have hrest := ((along_cons hrun ops).mp hops).2
    have hnext : ∀ k, runManifestOps m ((op :: ops).take (k + 1)) =
        runManifestOps m₁ (ops.take k) := by
      intro k
      rw [take_succ_cons, runManifestOps_cons, hrun]
      rfl
    rw [along_cons hrun]
    constructor
    · intro hall
      have h₁ : InStep m₁ := by
        obtain ⟨m₂, hm₂, hstep, -⟩ := hall 1
        rw [hnext 0, take_zero] at hm₂
        rwa [Except.ok.inj hm₂]
      exact ⟨(h.run_iff hrun).mp h₁, (ih h₁ hrest).mp fun k => hnext k ▸ hall (k + 1)⟩
    · rintro ⟨hkeeps, hkeepsRest⟩ k
      have h₁ := (h.run_iff hrun).mpr hkeeps
      cases k with
      | zero => exact ⟨m, rfl, h, h.packsPresent⟩
      | succ k =>
        rw [hnext]
        exact (ih h₁ hrest).mpr hkeepsRest k

theorem rhizomeNewManifest_sound (hR : Reflects R) : Sound R rhizomeNewManifest := by
  refine ⟨nodup_nil, fun label hlabel => absurd hlabel (by simp [rhizomeNewManifest]),
    fun f => ?_, rfl⟩
  have hnone : rhizomeNewManifest.fieldText f = none := by cases f <;> rfl
  rw [hnone]
  exact hR.absent f

/-- All states of a run are in step, and no assertion fails, exactly if every call of the run
changes both copies. -/
theorem runManifestOps_inStep_iff (ops : List ManifestOp)
    (hops : along precondition rhizomeNewManifest ops = true) :
    (∀ k, ∃ m, runManifestOps rhizomeNewManifest (ops.take k) = .ok m ∧
        InStep m ∧ PacksPresent m) ↔
      along keepsStep rhizomeNewManifest ops = true :=
  runManifestOps_inStep_iff_of (rhizomeNewManifest_sound inStep_reflects) hops

/-- An id of equal bytes. -/
def sampleBid (b : Byte) : RhizomeBid := ⟨List.replicate 32 b, length_replicate ..⟩

def sampleBk : RhizomeBk := ⟨List.replicate 32 0x55#8, length_replicate ..⟩

def sampleHash : RhizomeFilehash := ⟨List.replicate 64 0xee#8, length_replicate ..⟩

/-- A run that ends with the variables of a journal. -/
def sampleJournal : List ManifestOp :=
  [.createid (sampleBid 1#8) (List.replicate 64 7#8), .setBundleKey (some sampleBk),
    .setId (sampleBid 1#8), .setVersion 3, .setFilesize 3, .setFilehash (some sampleHash),
    .setTail 0, .setName (some ⟨ascii ['a', '.', 'b'], by decide⟩), .delName,
    .setCrypt .payloadEncrypted]

theorem runManifestOps_inStep_journal :
    along precondition rhizomeNewManifest sampleJournal = true ∧
      along keepsStep rhizomeNewManifest sampleJournal = true ∧
      ∀ k, ∃ m, runManifestOps rhizomeNewManifest (sampleJournal.take k) = .ok m ∧
        InStep m ∧ PacksPresent m :=
  ⟨by decide +kernel, by decide +kernel,
    (runManifestOps_inStep_iff sampleJournal (by decide +kernel)).mpr (by decide +kernel)⟩

/-- A second id makes the struct forget a bundle key whose variable stays, and the assertion of
the deletion fails. -/
theorem runManifestOps_stale_key :
    along precondition rhizomeNewManifest [.setId (sampleBid 1#8), .setBundleKey (some sampleBk),
        .setId (sampleBid 2#8), .delBundleKey] = true ∧
      (runManifestOps rhizomeNewManifest [.setId (sampleBid 1#8), .setBundleKey (some sampleBk),
          .setId (sampleBid 2#8)]).toOption.map
        (fun m => (m.bundleKey, rhizomeManifestGet m Field.bk.label)) =
        some (none, some (tohex sampleBk.bytes)) ∧
      runManifestOps rhizomeNewManifest [.setId (sampleBid 1#8), .setBundleKey (some sampleBk),
        .setId (sampleBid 2#8), .delBundleKey] = .error .assertion := by
  decide +kernel

end Runs

end ServalMesh.Rhizome
