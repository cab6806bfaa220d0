import IronAuth.Store.Snapshot

/-!
# The difference of two snapshots

`diff` lists, type by type and in the order of the natural keys, what has to be created, updated or
deleted in the target for it to match the source. The versions of a journey are only ever added: a
version that the target alone has is no difference.

The value of a resource in a change is its record rather than the JSON of it.
-/

namespace IronAuth.Store.Promotion

open Lib List

/-- `PromotedResourceType`. -/
inductive PromotedResourceType
  | resourceServer
  | dcrPolicy
  | envVariable
  | brand
  | localeBundle
  | flowVersion
  | messageTemplate
  deriving DecidableEq

/-- `PromotedResourceType::ALL`. -/
def PromotedResourceType.all : List PromotedResourceType :=
  [.resourceServer, .dcrPolicy, .envVariable, .brand, .localeBundle, .flowVersion, .messageTemplate]

inductive ChangeKind
  | create
  | update
  | delete
  deriving DecidableEq

/-- The value of a resource in a difference. That of a version is its artifact. -/
inductive ResourceValue (J : Type)
  | resourceServer (server : ResourceServerSnapshot)
  | dcrPolicy (policy : DcrPolicySnapshot J)
  | envVariable (envVariable : VariableSnapshot)
  | brand (brand : BrandSnapshot J)
  | localeBundle (bundle : LocaleBundleSnapshot J)
  | flowVersion (artifact : J)
  | messageTemplate (template : MessageTemplateSnapshot)
  deriving DecidableEq

structure ResourceChange (J : Type) where
  resourceType : PromotedResourceType
  key : Text
  kind : ChangeKind
  before : Option (ResourceValue J)
  after : Option (ResourceValue J)
  deriving DecidableEq

variable {J : Type}

/-- A `BTreeMap` from natural keys to values. -/
abbrev Keyed (J : Type) := List (Text × ResourceValue J)

variable (resources : SnapshotResources J)

def keyedResourceServers : Keyed J :=
  SortedMap.collect (resources.resourceServer.map fun server => (server.audience, .resourceServer server))

def keyedDcrPolicies : Keyed J :=
  SortedMap.collect (resources.dcrPolicy.map fun policy => (policy.name, .dcrPolicy policy))

def keyedVariables : Keyed J :=
  SortedMap.collect (resources.envVariable.map fun envVariable => (envVariable.name, .envVariable envVariable))

def keyedBrands : Keyed J :=
  SortedMap.collect (resources.brand.map fun brand => (brand.slug, .brand (promotedBrand brand)))

def keyedLocaleBundles : Keyed J :=
  SortedMap.collect (resources.localeBundle.map fun bundle => (bundle.locale, .localeBundle bundle))

def keyedFlowVersions : Keyed J :=
  SortedMap.collect (resources.flowVersion.map fun version =>
    (flowVersionKey version.journeyId version.version, .flowVersion version.artifact))

def keyedMessageTemplates : Keyed J :=
  SortedMap.collect (resources.messageTemplate.map fun template =>
    (messageTemplateKey template.kind template.locale, .messageTemplate template))

/-- The resources of one type, by natural key. -/
def keyed : PromotedResourceType → Keyed J
  | .resourceServer => keyedResourceServers resources
  | .dcrPolicy => keyedDcrPolicies resources
  | .envVariable => keyedVariables resources
  | .brand => keyedBrands resources
  | .localeBundle => keyedLocaleBundles resources
  | .flowVersion => keyedFlowVersions resources
  | .messageTemplate => keyedMessageTemplates resources

/-- The value of a resource in a snapshot. -/
def Snapshot.valueAt (snapshot : Snapshot J) (resourceType : PromotedResourceType) (key : Text) : Option (ResourceValue J) :=
  (keyed snapshot.resources resourceType).lookup key

theorem ordered_keyed (r : SnapshotResources J) (rt : PromotedResourceType) :
    SortedMap.Ordered (keyed r rt) := by
  cases rt <;> exact SortedMap.ordered_collect _

/-! ### Snapshots in the order of their keys -/

namespace KeyOrdered

variable {snapshot : Snapshot J} (h : KeyOrdered snapshot) (key : Text)

include h

theorem valueAt_resourceServer :
    snapshot.valueAt .resourceServer key =
      (findKey ResourceServerSnapshot.audience key snapshot.resources.resourceServer).map .resourceServer :=
  lookup_collect_map (nodup_of_pairwise_lt h.resourceServer) _ key

theorem valueAt_dcrPolicy :
    snapshot.valueAt .dcrPolicy key = (findKey DcrPolicySnapshot.name key snapshot.resources.dcrPolicy).map .dcrPolicy :=
  lookup_collect_map (nodup_of_pairwise_lt h.dcrPolicy) _ key

theorem valueAt_envVariable :
    snapshot.valueAt .envVariable key = (findKey VariableSnapshot.name key snapshot.resources.envVariable).map .envVariable :=
  lookup_collect_map (nodup_of_pairwise_lt h.envVariable) _ key

theorem valueAt_brand :
    snapshot.valueAt .brand key =
      (findKey BrandSnapshot.slug key snapshot.resources.brand).map fun brand => .brand (promotedBrand brand) :=
  lookup_collect_map (nodup_of_pairwise_lt h.brand) _ key

theorem valueAt_localeBundle :
    snapshot.valueAt .localeBundle key =
      (findKey LocaleBundleSnapshot.locale key snapshot.resources.localeBundle).map .localeBundle :=
  lookup_collect_map (nodup_of_pairwise_lt h.localeBundle) _ key

theorem valueAt_flowVersion :
    snapshot.valueAt .flowVersion key =
      (findKey FlowVersionSnapshot.key key snapshot.resources.flowVersion).map fun version => .flowVersion version.artifact :=
  lookup_collect_map h.flowVersion_nodup _ key

theorem valueAt_messageTemplate :
    snapshot.valueAt .messageTemplate key =
      (findKey MessageTemplateSnapshot.key key snapshot.resources.messageTemplate).map .messageTemplate :=
  lookup_collect_map h.messageTemplate_nodup _ key

end KeyOrdered

/-- Two collections in order are equal when the values under each key are, of which the rows are part. -/
theorem eq_of_values {α ι : Type} [LinearOrder ι] {od : α → ι} {key : α → Text} {va : α → ResourceValue J}
    {r others : List α} (hr : (r.map od).Pairwise (· < ·)) (ho : (others.map od).Pairwise (· < ·))
    (hk : (r.map key).Nodup) (hk' : (others.map key).Nodup) (hv : Function.Injective va)
    {v o : Text → Option (ResourceValue J)} (hat : ∀ k, v k = (findKey key k r).map va)
    (hot : ∀ k, o k = (findKey key k others).map va) (h : ∀ k, v k = o k) : r = others := by
  refine eq_of_findKey hr ho hk hk' fun k => ?_
  apply Option.map_injective hv
  rw [← hat, ← hot, h]

section projection

variable {source target : Snapshot J} (hsource : KeyOrdered source) (htarget : KeyOrdered target)

include hsource htarget

theorem map_promotedBrand_eq (h : ∀ key, target.valueAt .brand key = source.valueAt .brand key) :
    target.resources.brand.map promotedBrand = source.resources.brand.map promotedBrand := by
  have hs : ∀ brand : BrandSnapshot J, (promotedBrand brand).slug = brand.slug := fun _ => rfl
  have ho : ∀ snapshot : Snapshot J, KeyOrdered snapshot →
      ((snapshot.resources.brand.map promotedBrand).map (·.slug)).Pairwise (· < ·) := by
    intro snapshot hsn
    rw [map_map]
    exact hsn.brand
  refine eq_of_findKey (ho target htarget) (ho source hsource) (nodup_of_pairwise_lt (ho target htarget))
    (nodup_of_pairwise_lt (ho source hsource)) fun key => ?_
  have hk := h key
  rw [htarget.valueAt_brand, hsource.valueAt_brand] at hk
  rw [findKey_map hs, findKey_map hs]
  apply Option.map_injective (f := ResourceValue.brand) fun _ _ => ResourceValue.brand.inj
  rw [Option.map_map, Option.map_map]
  exact hk

theorem map_unpinned_eq (h : ∀ key, target.valueAt .flowVersion key = source.valueAt .flowVersion key) :
    target.resources.flowVersion.map FlowVersionSnapshot.unpinned =
      source.resources.flowVersion.map FlowVersionSnapshot.unpinned := by
  have hu : ∀ version : FlowVersionSnapshot J, version.unpinned.key = version.key := fun _ => rfl
  have ho : ∀ snapshot : Snapshot J, KeyOrdered snapshot →
      ((snapshot.resources.flowVersion.map FlowVersionSnapshot.unpinned).map
        fun version => toLex (version.journeyId, version.version)).Pairwise (· < ·) := by
    intro snapshot hs
    rw [map_map]
    exact hs.flowVersion
  have hnd : ∀ snapshot : Snapshot J, KeyOrdered snapshot →
      ((snapshot.resources.flowVersion.map FlowVersionSnapshot.unpinned).map FlowVersionSnapshot.key).Nodup := by
    intro snapshot hs
    rw [map_map]
    exact hs.flowVersion_nodup
  refine eq_of_findKey (ho target htarget) (ho source hsource) (hnd target htarget) (hnd source hsource)
    fun key => ?_
  have hk := h key
  rw [htarget.valueAt_flowVersion, hsource.valueAt_flowVersion] at hk
  rw [findKey_map hu, findKey_map hu]
  -- a version is its natural key, which is the key that it is found under, and its artifact
  cases hold : findKey FlowVersionSnapshot.key key target.resources.flowVersion with
  | none =>
    rw [hold, Option.map_none] at hk
    rw [Option.map_eq_none_iff.mp hk.symm]
  | some version =>
    rw [hold, Option.map_some] at hk
    obtain ⟨other, hot, hv⟩ := Option.map_eq_some_iff.mp hk.symm
    have hn : (version.journeyId, version.version) = (other.journeyId, other.version) :=
      flowVersionKey_injective ((key_of_findKey hold).trans (key_of_findKey hot).symm)
    obtain ⟨hid, hve⟩ := Prod.mk.inj hn
    rw [hot, Option.map_some, Option.map_some, FlowVersionSnapshot.unpinned, FlowVersionSnapshot.unpinned, hid, hve,
      ResourceValue.flowVersion.inj hv]

/-- **Two snapshots with the same values have the same projection.** -/
theorem promotedProjection_eq_of_valueAt (hv : target.schemaVersion = source.schemaVersion)
    (h : ∀ resourceType key, target.valueAt resourceType key = source.valueAt resourceType key) :
    promotedProjection target = promotedProjection source := by
  have hs : target.resources.resourceServer = source.resources.resourceServer :=
    eq_of_values htarget.resourceServer hsource.resourceServer (nodup_of_pairwise_lt htarget.resourceServer)
      (nodup_of_pairwise_lt hsource.resourceServer) (fun _ _ => ResourceValue.resourceServer.inj)
      htarget.valueAt_resourceServer hsource.valueAt_resourceServer (h .resourceServer)
  have hp : target.resources.dcrPolicy = source.resources.dcrPolicy :=
    eq_of_values htarget.dcrPolicy hsource.dcrPolicy (nodup_of_pairwise_lt htarget.dcrPolicy)
      (nodup_of_pairwise_lt hsource.dcrPolicy) (fun _ _ => ResourceValue.dcrPolicy.inj)
      htarget.valueAt_dcrPolicy hsource.valueAt_dcrPolicy (h .dcrPolicy)
  have hva : target.resources.envVariable = source.resources.envVariable :=
    eq_of_values htarget.envVariable hsource.envVariable (nodup_of_pairwise_lt htarget.envVariable)
      (nodup_of_pairwise_lt hsource.envVariable) (fun _ _ => ResourceValue.envVariable.inj)
      htarget.valueAt_envVariable hsource.valueAt_envVariable (h .envVariable)
  have hb : target.resources.localeBundle = source.resources.localeBundle :=
    eq_of_values htarget.localeBundle hsource.localeBundle (nodup_of_pairwise_lt htarget.localeBundle)
      (nodup_of_pairwise_lt hsource.localeBundle) (fun _ _ => ResourceValue.localeBundle.inj)
      htarget.valueAt_localeBundle hsource.valueAt_localeBundle (h .localeBundle)
  have ht : target.resources.messageTemplate = source.resources.messageTemplate :=
    eq_of_values htarget.messageTemplate hsource.messageTemplate htarget.messageTemplate_nodup
      hsource.messageTemplate_nodup (fun _ _ => ResourceValue.messageTemplate.inj)
      htarget.valueAt_messageTemplate hsource.valueAt_messageTemplate (h .messageTemplate)
  have hbr := map_promotedBrand_eq hsource htarget (h .brand)
  have hvr := map_unpinned_eq hsource htarget (h .flowVersion)
  rw [promotedProjection, promotedProjection, hv, hs, hp, hva, hb, ht, hbr, hvr]

end projection

/-! ### The difference -/

variable [DecidableEq J]

/-- What has to be done about one resource, given the source's value and the target's. -/
def changeOf (resourceType : PromotedResourceType) (key : Text) :
    Option (ResourceValue J) → Option (ResourceValue J) → Option (ResourceChange J)
  | some after, none => some ⟨resourceType, key, .create, none, some after⟩
  | none, some before => some ⟨resourceType, key, .delete, some before, none⟩
  | some after, some before => if after ≠ before then some ⟨resourceType, key, .update, some before, some after⟩ else none
  | none, none => none

/-- `diff_keyed`. -/
def diffKeyed (resourceType : PromotedResourceType) (source target : Keyed J) : List (ResourceChange J) :=
  (SortedMap.unionKeys source target).filterMap fun key => changeOf resourceType key (source.lookup key) (target.lookup key)

/-- `diff_flow_versions`: a version that the target alone has is not deleted. -/
def diffFlowVersions (source target : Keyed J) : List (ResourceChange J) :=
  source.filterMap fun entry => changeOf .flowVersion entry.1 (some entry.2) (target.lookup entry.1)

/-- `diff`. -/
def diff (source target : Snapshot J) : List (ResourceChange J) :=
  PromotedResourceType.all.flatMap fun promoted =>
    if promoted = .flowVersion then diffFlowVersions (keyedFlowVersions source.resources) (keyedFlowVersions target.resources)
    else diffKeyed promoted (keyed source.resources promoted) (keyed target.resources promoted)

/-! ### What is in a difference -/

/-- Nothing has to be done in the target about a resource. -/
def Agrees (source target : Snapshot J) (resourceType : PromotedResourceType) (key : Text) : Prop :=
  target.valueAt resourceType key = source.valueAt resourceType key ∨
    resourceType = .flowVersion ∧ source.valueAt resourceType key = none

variable {after before : Option (ResourceValue J)}

variable {key : Text} {rt : PromotedResourceType} {source target : Snapshot J}

theorem changeOf_eq_none_iff :
    changeOf rt key after before = none ↔ before = after := by
  cases after with
  | none => cases before <;> simp [changeOf]
  | some after =>
    cases before with
    | none => simp [changeOf]
    | some before => simp [changeOf, eq_comm]

variable {change : ResourceChange J}

/-- What a change is about, and its kind against what the source and the target have. -/
theorem changeOf_eq_some (h : changeOf rt key after before = some change) :
    (change.resourceType = rt ∧ change.key = key) ∧
      (change.kind = .delete ↔ after = none) ∧ (change.kind = .create ↔ before = none) := by
  cases after with
  | none =>
    cases before with
    | none => cases h
    | some before => cases h; simp
  | some after =>
    cases before with
    | none => cases h; simp
    | some before =>
      rw [changeOf] at h
      split_ifs at h
      cases h
      simp

theorem ne_of_changeOf (h : changeOf rt key after before = some change) : before ≠ after := by
  intro heq
  rw [changeOf_eq_none_iff.mpr heq] at h
  cases h

theorem mem_diffKeyed_iff {source target : Keyed J} :
    change ∈ diffKeyed rt source target ↔
      ∃ key, changeOf rt key (source.lookup key) (target.lookup key) = some change := by
  rw [diffKeyed, mem_filterMap]
  refine ⟨fun h => h.imp fun key h => h.2, fun h => h.imp fun key h => ⟨?_, h⟩⟩
  -- a key that neither has is no difference
  rw [SortedMap.mem_unionKeys_iff]
  by_contra hn
  push Not at hn
  rw [hn.1, hn.2] at h
  cases h

theorem mem_diffFlowVersions_iff {source target : Keyed J} (hsource : SortedMap.Ordered source) :
    change ∈ diffFlowVersions source target ↔
      ∃ key, source.lookup key ≠ none ∧ changeOf .flowVersion key (source.lookup key) (target.lookup key) = some change := by
  rw [diffFlowVersions, mem_filterMap]
  constructor
  · rintro ⟨entry, hm, h⟩
    have hlk : source.lookup entry.1 = some entry.2 := hsource.lookup_eq_some_iff.mpr hm
    exact ⟨entry.1, by simp [hlk], by rwa [hlk]⟩
  · rintro ⟨key, hk, h⟩
    obtain ⟨value, hv⟩ := Option.ne_none_iff_exists'.mp hk
    exact ⟨(key, value), hsource.lookup_eq_some_iff.mp hv, by rwa [← hv]⟩

/-- **A change is in the difference when it is the one that makes the target agree with the source
about a resource.** -/
theorem mem_diff_iff :
    change ∈ diff source target ↔ ¬ Agrees source target change.resourceType change.key ∧
      changeOf change.resourceType change.key (source.valueAt change.resourceType change.key)
        (target.valueAt change.resourceType change.key) = some change := by
  have ha : ∀ promoted, promoted ∈ PromotedResourceType.all := by
    intro promoted
    cases promoted <;> decide
  simp only [diff, mem_flatMap, ha, true_and]
  constructor
  · rintro ⟨promoted, hm⟩
    split_ifs at hm with hf
    · subst hf
      obtain ⟨key, hsource, h⟩ := (mem_diffFlowVersions_iff (ordered_keyed source.resources .flowVersion)).mp hm
      obtain ⟨⟨ht, hk⟩, -⟩ := changeOf_eq_some h
      rw [ht, hk]
      refine ⟨?_, h⟩
      rintro (hag | ⟨-, hn⟩)
      · exact ne_of_changeOf h hag
      · exact hsource hn
    · obtain ⟨key, h⟩ := mem_diffKeyed_iff.mp hm
      obtain ⟨⟨ht, hk⟩, -⟩ := changeOf_eq_some h
      rw [ht, hk]
      refine ⟨?_, h⟩
      rintro (hag | ⟨hf', -⟩)
      · exact ne_of_changeOf h hag
      · exact hf hf'
  · rintro ⟨hd, h⟩
    refine ⟨change.resourceType, ?_⟩
    split_ifs with hf
    · rw [hf] at h hd
      refine (mem_diffFlowVersions_iff (ordered_keyed source.resources .flowVersion)).mpr ⟨change.key, ?_, h⟩
      exact fun hn => hd (.inr ⟨rfl, hn⟩)
    · exact mem_diffKeyed_iff.mpr ⟨change.key, h⟩

/-- The resource that a change is about. -/
def ResourceChange.subject (change : ResourceChange J) : PromotedResourceType × Text := (change.resourceType, change.key)

/-- A change is about each resource on which the target and the source do not agree. -/
theorem mem_map_subject_of_not_agrees {s : PromotedResourceType × Text}
    (h : ¬ Agrees source target s.1 s.2) : s ∈ (diff source target).map ResourceChange.subject := by
  have hne : changeOf s.1 s.2 (source.valueAt s.1 s.2) (target.valueAt s.1 s.2) ≠ none :=
    fun hn => h (.inl (changeOf_eq_none_iff.mp hn))
  obtain ⟨change, hc⟩ := Option.ne_none_iff_exists'.mp hne
  obtain ⟨⟨ht, hk⟩, -⟩ := changeOf_eq_some hc
  refine mem_map.mpr ⟨change, mem_diff_iff.mpr ?_, Prod.ext ht hk⟩
  rw [ht, hk]
  exact ⟨h, hc⟩

/-- **The difference is empty when the target agrees with the source about everything.** -/
theorem diff_eq_nil_iff :
    diff source target = [] ↔ ∀ resourceType key, Agrees source target resourceType key := by
  constructor
  · intro h resourceType key
    by_contra hd
    have hm : (resourceType, key) ∈ (diff source target).map ResourceChange.subject :=
      mem_map_subject_of_not_agrees hd
    rw [h] at hm
    cases hm
  · intro h
    rw [eq_nil_iff_forall_not_mem]
    intro change hm
    exact (mem_diff_iff.mp hm).1 (h _ _)

omit [DecidableEq J] in
/-- The resources of a type that changes are about are among those that were compared. -/
theorem sublist_map_subject {β : Type} (rt : PromotedResourceType) (n : β → Text) {f : β → Option (ResourceChange J)}
    (hf : ∀ it change, f it = some change → change.resourceType = rt ∧ change.key = n it) (i : List β) :
    ((i.filterMap f).map ResourceChange.subject).Sublist ((i.map n).map (Prod.mk rt)) := by
  induction i with
  | nil => exact .slnil
  | cons it i ih =>
    cases hi : f it with
    | none =>
      rw [filterMap_cons_none hi]
      exact ih.cons _
    | some change =>
      obtain ⟨ht, hn⟩ := hf it change hi
      rw [filterMap_cons_some hi, map_cons, map_cons, map_cons, ResourceChange.subject, ht, hn]
      exact ih.cons_cons _

/-- **No two changes are about the same resource.** -/
theorem nodup_diff (source target : Snapshot J) : ((diff source target).map ResourceChange.subject).Nodup := by
  rw [diff, map_flatMap, nodup_flatMap]
  have hp : ∀ promoted, ∃ keys : List Text, keys.Nodup ∧
      List.Sublist (List.map ResourceChange.subject (if promoted = .flowVersion then
        diffFlowVersions (keyedFlowVersions source.resources) (keyedFlowVersions target.resources)
        else diffKeyed promoted (keyed source.resources promoted) (keyed target.resources promoted)))
      (keys.map (Prod.mk promoted)) := by
    intro promoted
    split_ifs with hf
    · subst hf
      exact ⟨_, (ordered_keyed source.resources .flowVersion).nodup,
        sublist_map_subject .flowVersion Prod.fst (fun _ _ h => (changeOf_eq_some h).1) (keyed source.resources .flowVersion)⟩
    · have hk := SortedMap.nodup_unionKeys (keyed source.resources promoted) (keyed target.resources promoted)
      rw [← map_id (SortedMap.unionKeys _ _)] at hk
      exact ⟨_, hk, sublist_map_subject promoted id (fun _ _ h => (changeOf_eq_some h).1) _⟩
  constructor
  · intro promoted _
    obtain ⟨keys, hk, hu⟩ := hp promoted
    exact hu.nodup (hk.map (Prod.mk_right_injective promoted))
  · -- the changes of different types are about resources of different types
    have ha : PromotedResourceType.all.Nodup := by decide
    refine ha.imp fun hne subject hl hr => hne ?_
    obtain ⟨_, _, hs⟩ := hp _
    obtain ⟨_, _, hsu⟩ := hp _
    obtain ⟨_, _, rfl⟩ := mem_map.mp (hs.subset hl)
    obtain ⟨_, _, heq⟩ := mem_map.mp (hsu.subset hr)
    exact (Prod.mk.inj heq).1.symm

end IronAuth.Store.Promotion
