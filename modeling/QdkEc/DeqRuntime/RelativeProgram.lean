import QdkEc.DeqRuntime.PauliFrameTracker

/-!
# Relative programs

This module models how a list of gadgets is rewritten so that it does not depend on the
identifiers of its gadgets, check models and error models: each of them gets the position
at which it is instantiated, and the references are rewritten after that.  Programs that
differ in their identifiers only have the same relative program.
-/

namespace QdkEc

open List

/-- The check model of a gadget. -/
structure ExpandedCheckModel where
  cid : ℕ
  ctype : ℕ
  remoteGadgets : List (Option ℕ)
  countChecks : ℕ

/-- An error model of a gadget. -/
structure ExpandedErrorModel where
  eid : ℕ
  etype : ℕ
  remoteCheckModels : List (Option ℕ)

/-- A gadget with its check model and its error models. -/
structure ExpandedGadget where
  gid : ℕ
  gtype : ℕ
  inputs : List (Option Connector)
  outputs : List (Option Connector)
  checkModel : Option ExpandedCheckModel
  errorModels : List ExpandedErrorModel

/-- A program with local identifiers. -/
structure RelativeProgram where
  localGadgets : List ExpandedGadget
  countChecks : ℕ

/-- The local identifiers of global ones, and the global identifiers of local ones. -/
structure IdMapping where
  localOf : GidMap ℕ
  globalOf : List ℕ

/-- The identifiers of a program, and where its checks and error models are. -/
structure RelativeMapping where
  gids : IdMapping
  cids : IdMapping
  eids : IdMapping
  localGidOfLocalEid : List ℕ
  startIndices : List ℕ
  localEidBias : List ℕ

/-- The next local identifier is for a global one. -/
def IdMapping.push (ids : IdMapping) (id : ℕ) : IdMapping where
  localOf := ids.localOf.insert id ids.globalOf.length
  globalOf := ids.globalOf ++ [id]

/-- Local and global identifiers are inverse to one another. -/
def IdMapping.IsInverse (ids : IdMapping) : Prop :=
  ∀ id i, ids.localOf.lookup id = some i ↔ ids.globalOf[i]? = some id

namespace RelativeProgram

/-- What is built from a part of the gadgets. -/
structure Building where
  mapping : RelativeMapping
  localGadgets : List ExpandedGadget
  countChecks : ℕ

/-- Nothing is built. -/
def empty : Building :=
  ⟨⟨⟨∅, []⟩, ⟨∅, []⟩, ⟨∅, []⟩, [], [], []⟩, [], 0⟩

/-- Number the check model of a gadget. -/
def addCheckModel (building : Building) (checkModel : ExpandedCheckModel) : Building :=
  { building with
    mapping := { building.mapping with
      cids := building.mapping.cids.push checkModel.cid
      startIndices := building.mapping.startIndices ++ [building.countChecks] }
    countChecks := building.countChecks + checkModel.countChecks }

def addErrorModel (localGid : ℕ) (numbered : RelativeMapping × List ExpandedErrorModel)
    (errorModel : ExpandedErrorModel) : RelativeMapping × List ExpandedErrorModel :=
  ({ numbered.1 with
      eids := numbered.1.eids.push errorModel.eid
      localGidOfLocalEid := numbered.1.localGidOfLocalEid ++ [localGid] },
    numbered.2 ++ [{ errorModel with eid := numbered.1.eids.globalOf.length }])

/-- Number a gadget with its check model and its error models; its references stay global. -/
def addGadget (building : Building) (gadget : ExpandedGadget) : Building :=
  let localGid := building.mapping.gids.globalOf.length
  let localCid := building.mapping.cids.globalOf.length
  let checked := gadget.checkModel.elim building (addCheckModel building)
  let numbered := gadget.errorModels.foldl (addErrorModel localGid)
    ({ checked.mapping with
        localEidBias := checked.mapping.localEidBias ++ [checked.mapping.eids.globalOf.length] },
          [])
  { mapping := { numbered.1 with gids := numbered.1.gids.push gadget.gid }
    localGadgets := checked.localGadgets ++ [{ gadget with
      gid := localGid
      checkModel := gadget.checkModel.map ({ · with cid := localCid })
      errorModels := numbered.2 }]
    countChecks := checked.countChecks }

/-- The local identifier of a reference; an unknown reference is dropped. -/
def translate (ids : IdMapping) (reference : Option ℕ) : Option ℕ :=
  reference.bind ids.localOf.lookup

/-- A connector to the local identifier of a gadget. -/
def translateConnector (ids : IdMapping) (connector : Option Connector) : Option Connector :=
  connector.bind fun connector => (ids.localOf.lookup connector.gid).map (⟨·, connector.port⟩)

/-- A gadget with local references. -/
def translateGadget (mapping : RelativeMapping) (gadget : ExpandedGadget) : ExpandedGadget :=
  { gadget with
    inputs := gadget.inputs.map (translateConnector mapping.gids)
    outputs := gadget.outputs.map (translateConnector mapping.gids)
    checkModel := gadget.checkModel.map fun checkModel =>
      { checkModel with remoteGadgets := checkModel.remoteGadgets.map (translate mapping.gids) }
    errorModels := gadget.errorModels.map fun errorModel => { errorModel with
      remoteCheckModels := errorModel.remoteCheckModels.map (translate mapping.cids) } }

/-- The relative program of some gadgets. -/
def new (expandedGadgets : List ExpandedGadget) : RelativeProgram × RelativeMapping :=
  let building := expandedGadgets.foldl addGadget empty
  (⟨building.localGadgets.map (translateGadget building.mapping), building.countChecks⟩,
    building.mapping)

/-- The local identifiers of some global ones. -/
def numbering (ids : List ℕ) : IdMapping :=
  ids.foldl IdMapping.push ⟨∅, []⟩

theorem numbering_concat (ids : List ℕ) (id : ℕ) :
    numbering (ids ++ [id]) = (numbering ids).push id := by
  rw [numbering, foldl_append]
  rfl

theorem foldl_push_numbering (ids more : List ℕ) :
    more.foldl IdMapping.push (numbering ids) = numbering (ids ++ more) := by
  rw [numbering, numbering, foldl_append]

@[simp]
theorem globalOf_numbering (ids : List ℕ) : (numbering ids).globalOf = ids := by
  induction ids using List.reverseRecOn with
  | nil => rfl
  | append_singleton ids id ih => rw [numbering_concat, IdMapping.push, ih]

theorem lookup_numbering_of_notMem {ids : List ℕ} {id : ℕ} (h : id ∉ ids) :
    (numbering ids).localOf.lookup id = none := by
  induction ids using List.reverseRecOn with
  | nil => rfl
  | append_singleton ids last ih =>
    rw [mem_append, mem_singleton, not_or] at h
    rw [numbering_concat, IdMapping.push, AList.lookup_insert_ne h.2, ih h.1]

/-- The arrays are inverse to one another. -/
theorem lookup_numbering_iff {ids : List ℕ} (h : ids.Nodup) {id i : ℕ} :
    (numbering ids).localOf.lookup id = some i ↔ ids[i]? = some id := by
  induction ids using List.reverseRecOn with
  | nil => simp [numbering]
  | append_singleton ids last ih =>
    obtain ⟨hids, -, hlast⟩ := nodup_append.mp h
    rw [numbering_concat, IdMapping.push, globalOf_numbering]
    by_cases hid : id = last
    · subst hid
      rw [AList.lookup_insert, Option.some_inj]
      constructor
      · rintro rfl
        exact List.getElem?_concat_length
      · intro hget
        by_contra hne
        have hlt : i < ids.length := by
          have := (List.getElem?_eq_some_iff.mp hget).1
          rw [List.length_append, List.length_singleton] at this
          omega
        rw [List.getElem?_append_left hlt] at hget
        exact hlast _ (List.mem_of_getElem? hget) _ List.mem_cons_self rfl
    · rw [AList.lookup_insert_ne hid, ih hids, getElem?_append]
      split_ifs with hlt
      · rfl
      · rw [getElem?_eq_none (not_lt.mp hlt)]
        refine iff_of_false (by simp) fun hget => hid ?_
        exact (mem_singleton.mp (List.mem_of_getElem? hget))

theorem lookup_numbering_map {rename : ℕ → ℕ} (h : rename.Injective) (ids : List ℕ) (id : ℕ) :
    (numbering (ids.map rename)).localOf.lookup (rename id) =
      (numbering ids).localOf.lookup id := by
  induction ids using List.reverseRecOn with
  | nil => rfl
  | append_singleton ids last ih =>
    rw [map_append, map_singleton, numbering_concat, numbering_concat, IdMapping.push,
      IdMapping.push, globalOf_numbering, globalOf_numbering, length_map]
    by_cases hid : id = last
    · subst hid
      rw [AList.lookup_insert, AList.lookup_insert]
    · rw [AList.lookup_insert_ne (h.ne hid), AList.lookup_insert_ne hid, ih]

/-- The sums of what comes before each number. -/
def prefixSums (counts : List ℕ) : List ℕ :=
  (List.range counts.length).map fun i => (counts.take i).sum

def checkModels (gadgets : List ExpandedGadget) : List ExpandedCheckModel :=
  gadgets.filterMap ExpandedGadget.checkModel

def errorModels (gadgets : List ExpandedGadget) : List ExpandedErrorModel :=
  gadgets.flatMap ExpandedGadget.errorModels

/-- The positions of the gadgets of the error models. -/
def owners (gadgets : List ExpandedGadget) : List ℕ :=
  gadgets.zipIdx.flatMap fun gadget => List.replicate gadget.1.errorModels.length gadget.2

/-- A gadget with local identifiers and global references, after some others. -/
def numbered (before : List ExpandedGadget) (gadget : ExpandedGadget) : ExpandedGadget :=
  { gadget with
    gid := before.length
    checkModel := gadget.checkModel.map ({ · with cid := (checkModels before).length })
    errorModels := gadget.errorModels.mapIdx fun j errorModel =>
      { errorModel with eid := (errorModels before).length + j } }

/-- Some gadgets with local identifiers and global references. -/
def numberedFrom (before : List ExpandedGadget) : List ExpandedGadget → List ExpandedGadget
  | [] => []
  | gadget :: rest => numbered before gadget :: numberedFrom (before ++ [gadget]) rest

def mappingOf (gadgets : List ExpandedGadget) : RelativeMapping where
  gids := numbering (gadgets.map ExpandedGadget.gid)
  cids := numbering ((checkModels gadgets).map ExpandedCheckModel.cid)
  eids := numbering ((errorModels gadgets).map ExpandedErrorModel.eid)
  localGidOfLocalEid := owners gadgets
  startIndices := prefixSums ((checkModels gadgets).map ExpandedCheckModel.countChecks)
  localEidBias := prefixSums (gadgets.map fun gadget => gadget.errorModels.length)

theorem prefixSums_concat (counts : List ℕ) (count : ℕ) :
    prefixSums (counts ++ [count]) = prefixSums counts ++ [counts.sum] := by
  rw [prefixSums, List.length_append, List.length_singleton, range_succ, map_append,
    map_singleton, List.take_left]
  refine congrArg (· ++ [counts.sum]) (map_congr_left fun i hi => ?_)
  rw [List.take_append_of_le_length (mem_range.mp hi).le]

variable (gadgets : List ExpandedGadget)

variable (gadget : ExpandedGadget)

theorem checkModels_concat :
    checkModels (gadgets ++ [gadget]) = checkModels gadgets ++ gadget.checkModel.toList := by
  rw [checkModels, filterMap_append]
  cases h : gadget.checkModel <;> simp [checkModels, h]

theorem errorModels_concat :
    errorModels (gadgets ++ [gadget]) = errorModels gadgets ++ gadget.errorModels := by
  simp [errorModels]

theorem owners_concat :
    owners (gadgets ++ [gadget]) =
      owners gadgets ++ List.replicate gadget.errorModels.length gadgets.length := by
  simp [owners, zipIdx_append]

theorem mappingOf_concat :
    mappingOf (gadgets ++ [gadget]) = {
      gids := (mappingOf gadgets).gids.push gadget.gid
      cids := gadget.checkModel.elim (mappingOf gadgets).cids fun checkModel =>
        (mappingOf gadgets).cids.push checkModel.cid
      eids := (gadget.errorModels.map ExpandedErrorModel.eid).foldl IdMapping.push
        (mappingOf gadgets).eids
      localGidOfLocalEid := (mappingOf gadgets).localGidOfLocalEid ++
        List.replicate gadget.errorModels.length gadgets.length
      startIndices := gadget.checkModel.elim (mappingOf gadgets).startIndices fun _ =>
        (mappingOf gadgets).startIndices ++
          [((checkModels gadgets).map ExpandedCheckModel.countChecks).sum]
      localEidBias := (mappingOf gadgets).localEidBias ++ [(errorModels gadgets).length] } := by
  have hcounts : (gadgets.map fun gadget => gadget.errorModels.length).sum =
      (errorModels gadgets).length := by
    rw [errorModels, List.length_flatMap]
  cases hcheck : gadget.checkModel with
  | none =>
    simp [mappingOf, checkModels_concat, errorModels_concat, owners_concat, hcheck,
      numbering_concat, prefixSums_concat, foldl_push_numbering, hcounts]
  | some checkModel =>
    simp [mappingOf, checkModels_concat, errorModels_concat, owners_concat, hcheck,
      numbering_concat, prefixSums_concat, foldl_push_numbering, hcounts]

theorem numberedFrom_concat (before gadgets : List ExpandedGadget) (gadget : ExpandedGadget) :
    numberedFrom before (gadgets ++ [gadget]) =
      numberedFrom before gadgets ++ [numbered (before ++ gadgets) gadget] := by
  induction gadgets generalizing before with
  | nil => simp [numberedFrom]
  | cons head gadgets ih => simp [numberedFrom, ih]

theorem getElem?_numberedFrom (before gadgets : List ExpandedGadget) (i : ℕ) :
    (numberedFrom before gadgets)[i]? = gadgets[i]?.map (numbered (before ++ gadgets.take i)) := by
  induction gadgets generalizing before i with
  | nil => simp [numberedFrom]
  | cons head gadgets ih =>
    cases i with
    | zero => simp [numberedFrom]
    | succ i => simp [numberedFrom, ih]

theorem foldl_addErrorModel (localGid : ℕ) (mapping : RelativeMapping)
    (numbered models : List ExpandedErrorModel) :
    models.foldl (addErrorModel localGid) (mapping, numbered) = ({ mapping with
          eids := (models.map ExpandedErrorModel.eid).foldl IdMapping.push mapping.eids
          localGidOfLocalEid :=
            mapping.localGidOfLocalEid ++ List.replicate models.length localGid },
        numbered ++ models.mapIdx fun j errorModel =>
          { errorModel with eid := mapping.eids.globalOf.length + j }) := by
  induction models generalizing mapping numbered with
  | nil => simp
  | cons head models ih =>
    rw [foldl_cons, addErrorModel, ih]
    simp [IdMapping.push, mapIdx_cons, replicate_succ, Nat.add_assoc, Nat.add_comm 1]

theorem foldl_addGadget : gadgets.foldl addGadget empty = {
      mapping := mappingOf gadgets
      localGadgets := numberedFrom [] gadgets
      countChecks := ((checkModels gadgets).map ExpandedCheckModel.countChecks).sum } := by
  induction gadgets using List.reverseRecOn with
  | nil => rfl
  | append_singleton gadgets gadget ih =>
    rw [foldl_append, ih, foldl_cons, foldl_nil, addGadget, foldl_addErrorModel,
      numberedFrom_concat, mappingOf_concat, checkModels_concat]
    cases hcheck : gadget.checkModel with
    | none => simp [mappingOf, numbered, hcheck]
    | some checkModel => simp [mappingOf, numbered, hcheck, addCheckModel]

theorem new_eq :
    new gadgets = (⟨(numberedFrom [] gadgets).map (translateGadget (mappingOf gadgets)),
      ((checkModels gadgets).map ExpandedCheckModel.countChecks).sum⟩, mappingOf gadgets) := by
  rw [new, foldl_addGadget]

section Rename

variable (renameGid renameCid renameEid : ℕ → ℕ)

def renameReferences (gadget : ExpandedGadget) : ExpandedGadget :=
  { gadget with
    inputs := gadget.inputs.map (Option.map fun c => ⟨renameGid c.gid, c.port⟩)
    outputs := gadget.outputs.map (Option.map fun c => ⟨renameGid c.gid, c.port⟩)
    checkModel := gadget.checkModel.map fun checkModel => { checkModel with
      remoteGadgets := checkModel.remoteGadgets.map (Option.map renameGid) }
    errorModels := gadget.errorModels.map fun errorModel => { errorModel with
      remoteCheckModels := errorModel.remoteCheckModels.map (Option.map renameCid) } }

/-- A gadget with renamed identifiers and references. -/
def rename (gadget : ExpandedGadget) : ExpandedGadget :=
  let renamed := renameReferences renameGid renameCid gadget
  { renamed with
    gid := renameGid renamed.gid
    checkModel := renamed.checkModel.map fun checkModel =>
      { checkModel with cid := renameCid checkModel.cid }
    errorModels := renamed.errorModels.map fun errorModel =>
      { errorModel with eid := renameEid errorModel.eid } }

variable {renameGid renameCid renameEid}

theorem map_checkModels_rename {B : Type} (f : ExpandedCheckModel → B)
    (gadgets : List ExpandedGadget) :
    (checkModels (gadgets.map (rename renameGid renameCid renameEid))).map f =
      (checkModels gadgets).map fun checkModel => f ⟨renameCid checkModel.cid, checkModel.ctype,
        checkModel.remoteGadgets.map (Option.map renameGid), checkModel.countChecks⟩ := by
  induction gadgets using List.reverseRecOn with
  | nil => rfl
  | append_singleton gadgets gadget ih =>
    rw [map_append, map_singleton, checkModels_concat, checkModels_concat,
      map_append, map_append, ih]
    cases h : gadget.checkModel <;> simp [rename, renameReferences, h]

theorem length_errorModels_rename :
    (errorModels (gadgets.map (rename renameGid renameCid renameEid))).length =
      (errorModels gadgets).length := by
  simp [errorModels, List.length_flatMap, rename, renameReferences, Function.comp_def]

theorem numbered_rename (before : List ExpandedGadget) (gadget : ExpandedGadget) :
    numbered (before.map (rename renameGid renameCid renameEid))
        (rename renameGid renameCid renameEid gadget) =
      renameReferences renameGid renameCid (numbered before gadget) := by
  have hchecks : (checkModels (before.map (rename renameGid renameCid renameEid))).length =
      (checkModels before).length := by
    simpa using congrArg List.length (map_checkModels_rename (fun _ => ()) before)
  simp only [numbered, rename, renameReferences, ExpandedGadget.mk.injEq, length_map, hchecks,
    length_errorModels_rename, Option.map_map, true_and]
  refine ⟨rfl, ?_⟩
  rw [mapIdx_eq_iff]
  intro j
  simp [Function.comp_def]

theorem numberedFrom_rename (before gadgets : List ExpandedGadget) :
    numberedFrom (before.map (rename renameGid renameCid renameEid))
        (gadgets.map (rename renameGid renameCid renameEid)) =
      (numberedFrom before gadgets).map (renameReferences renameGid renameCid) := by
  induction gadgets generalizing before with
  | nil => rfl
  | cons gadget gadgets ih =>
    rw [map_cons, numberedFrom, numberedFrom, map_cons, numbered_rename, ← ih,
      map_append, map_singleton]

theorem translateGadget_renameReferences {mapping mapping' : RelativeMapping}
    (hgids : ∀ id, mapping'.gids.localOf.lookup (renameGid id) = mapping.gids.localOf.lookup id)
    (hcids : ∀ id, mapping'.cids.localOf.lookup (renameCid id) = mapping.cids.localOf.lookup id)
    (gadget : ExpandedGadget) :
    translateGadget mapping' (renameReferences renameGid renameCid gadget) =
      translateGadget mapping gadget := by
  have hgid : translate mapping'.gids ∘ Option.map renameGid = translate mapping.gids := by
    funext reference
    cases reference <;> simp [translate, hgids]
  have hcid : translate mapping'.cids ∘ Option.map renameCid = translate mapping.cids := by
    funext reference
    cases reference <;> simp [translate, hcids]
  have hconnector : (translateConnector mapping'.gids ∘
      Option.map fun c => ⟨renameGid c.gid, c.port⟩) = translateConnector mapping.gids := by
    funext connector
    cases connector <;> simp [translateConnector, hgids]
  cases h : gadget.checkModel <;>
    simp [translateGadget, renameReferences, h, hgid, hcid, hconnector, Function.comp_def]

theorem new_rename (hgid : renameGid.Injective) (hcid : renameCid.Injective)
    (gadgets : List ExpandedGadget) :
    (new (gadgets.map (rename renameGid renameCid renameEid))).1 = (new gadgets).1 := by
  have hgids : ∀ id, (mappingOf (gadgets.map (rename renameGid renameCid
      renameEid))).gids.localOf.lookup (renameGid id) =
        (mappingOf gadgets).gids.localOf.lookup id := by
    intro id
    have hmap : (gadgets.map (rename renameGid renameCid renameEid)).map ExpandedGadget.gid =
        (gadgets.map ExpandedGadget.gid).map renameGid := by
      simp [rename, renameReferences, Function.comp_def]
    rw [mappingOf, hmap]
    exact lookup_numbering_map hgid _ id
  have hcids : ∀ id, (mappingOf (gadgets.map (rename renameGid renameCid
      renameEid))).cids.localOf.lookup (renameCid id) =
        (mappingOf gadgets).cids.localOf.lookup id := by
    intro id
    have hmap : (checkModels (gadgets.map (rename renameGid renameCid renameEid))).map
        ExpandedCheckModel.cid =
          ((checkModels gadgets).map ExpandedCheckModel.cid).map renameCid := by
      rw [map_checkModels_rename, map_map]
      rfl
    rw [mappingOf, hmap]
    exact lookup_numbering_map hcid _ id
  rw [new_eq, new_eq]
  refine congrArg₂ RelativeProgram.mk ?_ (by rw [map_checkModels_rename])
  change ((numberedFrom ([].map (rename renameGid renameCid renameEid)) _).map _) = _
  rw [numberedFrom_rename, map_map]
  exact map_congr_left fun gadget _ => translateGadget_renameReferences hgids hcids gadget

end Rename

theorem exists_owner {gadgets : List ExpandedGadget} {localEid : ℕ}
    {errorModel : ExpandedErrorModel} (h : (errorModels gadgets)[localEid]? = some errorModel) :
    ∃ i gadget, (owners gadgets)[localEid]? = some i ∧ gadgets[i]? = some gadget ∧
      (errorModels (gadgets.take i)).length ≤ localEid ∧
        gadget.errorModels[localEid - (errorModels (gadgets.take i)).length]? =
          some errorModel := by
  have hlength : ∀ gadgets, (owners gadgets).length = (errorModels gadgets).length := by
    intro gadgets
    induction gadgets using List.reverseRecOn with
    | nil => rfl
    | append_singleton gadgets gadget ih => simp [owners_concat, errorModels_concat, ih]
  induction gadgets using List.reverseRecOn with
  | nil => simp [errorModels] at h
  | append_singleton gadgets last ih =>
    rw [owners_concat]
    rw [errorModels_concat] at h
    by_cases hlt : localEid < (errorModels gadgets).length
    · rw [List.getElem?_append_left hlt] at h
      obtain ⟨i, gadget, howner, hgadget, hbias, hmodel⟩ := ih h
      have hi := (List.getElem?_eq_some_iff.mp hgadget).1
      refine ⟨i, gadget, ?_, ?_, ?_⟩
      · rw [List.getElem?_append_left (by rwa [hlength]), howner]
      · rw [List.getElem?_append_left hi, hgadget]
      · rw [List.take_append_of_le_length hi.le]
        exact ⟨hbias, hmodel⟩
    · rw [not_lt] at hlt
      rw [List.getElem?_append_right hlt] at h
      have hmodel := (List.getElem?_eq_some_iff.mp h).1
      refine ⟨gadgets.length, last, ?_, List.getElem?_concat_length, ?_⟩
      · rw [List.getElem?_append_right (by rwa [hlength]), hlength,
          List.getElem?_replicate_of_lt hmodel]
      · rw [List.take_left]
        exact ⟨hlt, h⟩

theorem getElem?_prefixSums {counts : List ℕ} {i : ℕ} (h : i < counts.length) :
    (prefixSums counts)[i]? = some (counts.take i).sum := by
  rw [prefixSums, getElem?_map, getElem?_range h, Option.map_some]

/-- What a relative program and its mapping are for some gadgets. -/
structure Describes (gadgets : List ExpandedGadget) (program : RelativeProgram)
    (mapping : RelativeMapping) : Prop where
  gids : mapping.gids.IsInverse ∧ mapping.gids.globalOf = gadgets.map ExpandedGadget.gid
  cids : mapping.cids.IsInverse ∧
    mapping.cids.globalOf = (checkModels gadgets).map ExpandedCheckModel.cid
  eids : mapping.eids.IsInverse ∧
    mapping.eids.globalOf = (errorModels gadgets).map ExpandedErrorModel.eid
  startIndices : mapping.startIndices =
    prefixSums ((checkModels gadgets).map ExpandedCheckModel.countChecks)
  countChecks : program.countChecks =
    ((checkModels gadgets).map ExpandedCheckModel.countChecks).sum
  localGadgets : ∀ i, program.localGadgets[i]? =
    gadgets[i]?.map fun gadget => translateGadget mapping (numbered (gadgets.take i) gadget)
  errorModels : ∀ localEid < mapping.eids.globalOf.length, ∃ localGid bias gadget,
    mapping.localGidOfLocalEid[localEid]? = some localGid ∧
      mapping.localEidBias[localGid]? = some bias ∧ bias ≤ localEid ∧
        program.localGadgets[localGid]? = some gadget ∧
          gadget.errorModels[localEid - bias]?.map ExpandedErrorModel.eid = some localEid
  unknownGid : ∀ gid ∉ gadgets.map ExpandedGadget.gid, translate mapping.gids (some gid) = none ∧
    ∀ port, translateConnector mapping.gids (some ⟨gid, port⟩) = none
  unknownCid : ∀ cid ∉ (checkModels gadgets).map ExpandedCheckModel.cid,
    translate mapping.cids (some cid) = none

/-- A relative program describes its gadgets, and it does not depend on their identifiers. -/
theorem new_spec (gadgets : List ExpandedGadget) (hgids : (gadgets.map ExpandedGadget.gid).Nodup)
    (hcids : ((checkModels gadgets).map ExpandedCheckModel.cid).Nodup)
    (heids : ((errorModels gadgets).map ExpandedErrorModel.eid).Nodup) :
    Describes gadgets (new gadgets).1 (new gadgets).2 ∧
      ∀ renameGid renameCid renameEid : ℕ → ℕ, renameGid.Injective → renameCid.Injective →
        renameEid.Injective →
          (new (gadgets.map (rename renameGid renameCid renameEid))).1 = (new gadgets).1 := by
  refine ⟨?_, fun _ _ _ hgid hcid _ => new_rename hgid hcid gadgets⟩
  have hlocal : ∀ i, (new gadgets).1.localGadgets[i]? = gadgets[i]?.map fun gadget =>
      translateGadget (mappingOf gadgets) (numbered (gadgets.take i) gadget) := by
    intro i
    rw [new_eq, getElem?_map, getElem?_numberedFrom, Option.map_map]
    rfl
  rw [new_eq] at hlocal ⊢
  refine {
    gids := ⟨fun _ _ => by rw [mappingOf, lookup_numbering_iff hgids, globalOf_numbering],
      globalOf_numbering _⟩
    cids := ⟨fun _ _ => by rw [mappingOf, lookup_numbering_iff hcids, globalOf_numbering],
      globalOf_numbering _⟩
    eids := ⟨fun _ _ => by rw [mappingOf, lookup_numbering_iff heids, globalOf_numbering],
      globalOf_numbering _⟩
    startIndices := rfl
    countChecks := rfl
    localGadgets := hlocal
    errorModels := fun localEid hlt => ?_
    unknownGid := fun gid hgid => ?_
    unknownCid := fun cid hcid => lookup_numbering_of_notMem hcid }
  · simp only [mappingOf, globalOf_numbering, length_map] at hlt
    obtain ⟨i, gadget, howner, hgadget, hbias, hmodel⟩ :=
      exists_owner (List.getElem?_eq_getElem hlt)
    have hi : i < gadgets.length := (List.getElem?_eq_some_iff.mp hgadget).1
    have hsum : ((gadgets.map fun gadget => gadget.errorModels.length).take i).sum =
        (errorModels (gadgets.take i)).length := by
      rw [errorModels, List.length_flatMap, List.map_take]
    refine ⟨i, (errorModels (gadgets.take i)).length, _, howner, ?_, hbias,
      (hlocal i).trans (by rw [hgadget, Option.map_some]), ?_⟩
    · rw [mappingOf, getElem?_prefixSums (by rwa [length_map]), hsum]
    · simp [translateGadget, numbered, hmodel, Nat.add_sub_cancel' hbias]
  · have hnone : (mappingOf gadgets).gids.localOf.lookup gid = none :=
      lookup_numbering_of_notMem hgid
    exact ⟨hnone, fun port => by simp [translateConnector, hnone]⟩

/-- Two gadgets that refer to one another and to a gadget that is not there. -/
def sampleGadgets : List ExpandedGadget :=
  [{ gid := 7, gtype := 1, inputs := [some ⟨3, 0⟩], outputs := [some ⟨9, 1⟩],
     checkModel := some ⟨5, 2, [some 9], 4⟩, errorModels := [⟨6, 1, [some 8]⟩] },
   { gid := 9, gtype := 1, inputs := [some ⟨7, 0⟩], outputs := [none],
     checkModel := some ⟨8, 2, [none], 1⟩, errorModels := [⟨2, 1, []⟩, ⟨1, 3, [some 5, some 4]⟩] }]

theorem new_spec_sampleGadgets :
    Describes sampleGadgets (new sampleGadgets).1 (new sampleGadgets).2 ∧
      ∀ renameGid renameCid renameEid : ℕ → ℕ, renameGid.Injective → renameCid.Injective →
        renameEid.Injective → (new (sampleGadgets.map (rename renameGid renameCid renameEid))).1 =
            (new sampleGadgets).1 :=
  new_spec sampleGadgets (by decide) (by decide) (by decide)

end RelativeProgram

end QdkEc
