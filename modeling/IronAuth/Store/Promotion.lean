import IronAuth.Lib.Fallible
import IronAuth.Store.ConfigDiff

/-!
# Applying a promotion

The target of a promotion is an environment's tables, with the unique indexes that the database
enforces on them. `apply_promotion` reads the target's promotable configuration. It does nothing when that
has the source's revision, and refuses when it has another than the plan was made for. Otherwise it
applies the changes of the difference one by one, all in one transaction.

Collecting the references of a snapshot, the validation of an artifact, and the digest are parameters.
Identifiers, timestamps, versions of variables, the audit row and the event are left out, as is the
`client_id` of a brand, which a promotion neither reads nor writes. A message template is a row of the
environment's level that is not deleted.
-/

namespace IronAuth.Store.Promotion

open Lib Fallible

/-! ### The target's tables -/

structure BrandRow (J : Type) where
  slug : Text
  isDefault : Bool
  productName : Text
  showWordmark : Bool
  brandToken : Option Text
  tokens : J
  tokensDark : Option J
  slots : J
  hostPattern : Option CanonicalHost
  deriving DecidableEq

structure BrandAssetRow where
  brandSlug : Text
  kind : Text
  contentType : Text
  bytes : List UInt8
  sha256 : Text
  sizeBytes : ℤ
  deriving DecidableEq

structure FlowVersionRow (J : Type) where
  journeyId : Text
  version : ℤ
  artifact : J
  deriving DecidableEq

/-- The entry of a row in an index on the rows that are marked as the default. -/
def defaultEntry (isDefault : Bool) : Option Unit := if isDefault then some () else none

/-- The table `brands`. -/
structure Brands (J : Type) extends Table (BrandRow J) BrandRow.slug where
  /-- `brands_default_idx` -/
  oneDefault : (rows.filterMap fun row => defaultEntry row.isDefault).Nodup
  /-- `brands_host_pattern_idx` -/
  oneClaim : (rows.filterMap BrandRow.hostPattern).Nodup

/-- The table `brand_assets`. -/
abbrev BrandAssets := Table BrandAssetRow fun row => (row.brandSlug, row.kind)

/-- The table `locale_bundles`. -/
structure LocaleBundles (J : Type) extends Table (LocaleBundleSnapshot J) LocaleBundleSnapshot.locale where
  /-- `locale_bundles_default_idx` -/
  oneDefault : (rows.filterMap fun row => defaultEntry row.isEnvDefault).Nodup

/-- The tables of an environment that a promotion reads. -/
structure Target (J : Type) where
  resourceServers : Table ResourceServerSnapshot ResourceServerSnapshot.audience
  dcrPolicies : Table (DcrPolicySnapshot J) DcrPolicySnapshot.name
  environmentVariables : Table VariableSnapshot VariableSnapshot.name
  brands : Brands J
  brandAssets : BrandAssets
  localeBundles : LocaleBundles J
  flowVersions : Table (FlowVersionRow J) fun row => (row.journeyId, row.version)
  messageTemplates : Table MessageTemplateSnapshot fun template => (template.kind, template.locale)
  environmentSecrets : List Text

variable {J : Type}

/-! ### Reading the target -/

variable (source : Snapshot J) (change : ResourceChange J) (target : Target J)

def readPromotedResourceServers : List ResourceServerSnapshot :=
  sortBy ResourceServerSnapshot.audience target.resourceServers.rows

def readPromotedDcrPolicies : List (DcrPolicySnapshot J) :=
  sortBy DcrPolicySnapshot.name target.dcrPolicies.rows

def readPromotedVariables : List VariableSnapshot :=
  sortBy VariableSnapshot.name target.environmentVariables.rows

/-- What is read of an asset: its bytes stay where they are. -/
def BrandAssetRow.metadata (row : BrandAssetRow) : BrandAssetMetaSnapshot where
  kind := row.kind
  contentType := row.contentType
  sha256 := row.sha256
  sizeBytes := row.sizeBytes

/-- What is read of the assets of a brand, in the order of their kinds. -/
def readAssets (assets : List BrandAssetRow) (slug : Text) : List BrandAssetMetaSnapshot :=
  sortBy BrandAssetMetaSnapshot.kind ((assets.filter fun row => row.brandSlug = slug).map BrandAssetRow.metadata)

/-- What is read of a brand. -/
def readBrand (assets : List BrandAssetRow) (row : BrandRow J) : BrandSnapshot J where
  slug := row.slug
  isDefault := row.isDefault
  productName := row.productName
  showWordmark := row.showWordmark
  brandToken := row.brandToken
  tokens := row.tokens
  tokensDark := row.tokensDark
  slots := row.slots
  hostPattern := row.hostPattern.map Subtype.val
  clientId := none
  assets := readAssets assets row.slug

def readPromotedBrands : List (BrandSnapshot J) :=
  sortBy BrandSnapshot.slug (target.brands.rows.map (readBrand target.brandAssets.rows))

def readPromotedLocaleBundles : List (LocaleBundleSnapshot J) :=
  sortBy LocaleBundleSnapshot.locale target.localeBundles.rows

/-- What is read of a version. It is read as not pinned. -/
def readFlowVersion (row : FlowVersionRow J) : FlowVersionSnapshot J := ⟨row.journeyId, row.version, row.artifact, false⟩

def readPromotedFlowVersions : List (FlowVersionSnapshot J) :=
  sortBy (fun version => toLex (version.journeyId, version.version)) (target.flowVersions.rows.map readFlowVersion)

def readPromotedMessageTemplates : List MessageTemplateSnapshot :=
  sortBy (fun template => toLex (template.kind, template.locale)) target.messageTemplates.rows

/-- `read_promoted_snapshot`. -/
def readPromotedSnapshot : Snapshot J where
  schemaVersion := snapshotSchemaVersion
  resources :=
    { resourceServer := readPromotedResourceServers target
      dcrPolicy := readPromotedDcrPolicies target
      envVariable := readPromotedVariables target
      brand := readPromotedBrands target
      localeBundle := readPromotedLocaleBundles target
      flowVersion := readPromotedFlowVersions target
      messageTemplate := readPromotedMessageTemplates target }

theorem nodup_map_kind_filter (a : BrandAssets) (slug : Text) :
    (((a.rows.filter fun row => row.brandSlug = slug).map BrandAssetRow.metadata).map (·.kind)).Nodup := by
  rw [List.map_map]
  -- the assets of one brand differ in their kinds, since they differ in their keys
  have hk : ((a.rows.filter fun row => row.brandSlug = slug).map fun row => (row.brandSlug, row.kind)).Nodup :=
    (List.filter_sublist.map _).nodup a.unique
  refine List.Nodup.of_map (Prod.mk slug) ?_
  rw [List.map_map]
  convert hk using 1
  refine List.map_congr_left fun row hr => ?_
  have hs : row.brandSlug = slug := by simpa using (List.mem_filter.mp hr).2
  exact congrArg (fun s => (s, row.kind)) hs.symm

theorem nodup_map_kind (a : BrandAssets) (s : Text) : ((readAssets a.rows s).map (·.kind)).Nodup := by
  rw [readAssets, ((perm_sortBy _ _).map _).nodup_iff]
  exact nodup_map_kind_filter a s

/-- **A read is in the order of the natural keys, each once.** -/
theorem keyOrdered_readPromotedSnapshot (tgt : Target J) : KeyOrdered (readPromotedSnapshot tgt) where
  resourceServer := pairwise_sortBy tgt.resourceServers.unique
  dcrPolicy := pairwise_sortBy tgt.dcrPolicies.unique
  envVariable := pairwise_sortBy tgt.environmentVariables.unique
  brand := by
    refine pairwise_sortBy ?_
    rw [List.map_map]
    exact tgt.brands.unique
  assets := by
    intro brand hb
    obtain ⟨row, -, rfl⟩ := List.mem_map.mp (mem_sortBy.mp hb)
    exact nodup_map_kind tgt.brandAssets row.slug
  localeBundle := pairwise_sortBy tgt.localeBundles.unique
  flowVersion := by
    refine pairwise_sortBy ?_
    rw [List.map_map]
    exact tgt.flowVersions.unique
  messageTemplate := pairwise_sortBy tgt.messageTemplates.unique

/-! ### Errors and parameters -/

inductive StoreError
  | notFound
  | conflict
  | journeyInvalid
  | database
  deriving DecidableEq

inductive ReferenceKind
  | envVariable
  | secret
  deriving DecidableEq

structure Reference where
  kind : ReferenceKind
  name : Text
  deriving DecidableEq

inductive PromotionApplyError (Rev : Type)
  | drift (expected found : Rev)
  | unresolvedReference (reference : Reference)
  | flowVersionArtifactConflict (journeyId : Text) (version : ℤ)
  | brandAssetBytesUnavailable (slug kind sha256 : Text)
  | store (error : StoreError)
  deriving DecidableEq

/-- What is not modelled of the engine. -/
structure Engine (J Rev : Type) where
  /-- `collect_references` -/
  collectReferences : Snapshot J → List Reference
  /-- `validate_artifact_json`: the artifact can be loaded and compiled. -/
  validArtifact : J → Bool
  /-- The digest of a projection: SHA-256 of the canonical bytes. -/
  digest : Snapshot J → Rev

variable {Rev : Type}

/-! ### Applying a change -/

/-- The row is created, or takes the place of the one with its key. -/
def writeRow {α κ : Type} [DecidableEq κ] {key : α → κ} (kind : ChangeKind) (row : α) (t : Table α key) :
    Except StoreError (Table α key) :=
  if kind = .create then okOr (t.insert row) .database else .ok (t.replace row)

/-- One change of a table, by key: what is written is the source's row. -/
def applyKeyed {α κ : Type} [DecidableEq κ] {key : α → κ} (source : List α) (k : κ) (kind : ChangeKind) (t : Table α key) :
    Except StoreError (Table α key) :=
  if kind = .delete then .ok (t.delete fun row => key row = k)
  else do
    let row ← okOr (findKey key k source) .notFound
    writeRow kind row t

def applyResourceServerChange : Except StoreError (Target J) := do
  let resourceServers ← applyKeyed source.resources.resourceServer change.key change.kind target.resourceServers
  .ok { target with resourceServers }

def applyDcrPolicyChange : Except StoreError (Target J) := do
  let dcrPolicies ← applyKeyed source.resources.dcrPolicy change.key change.kind target.dcrPolicies
  .ok { target with dcrPolicies }

def applyVariableChange : Except StoreError (Target J) := do
  let environmentVariables ← applyKeyed source.resources.envVariable change.key change.kind target.environmentVariables
  .ok { target with environmentVariables }

def applyMessageTemplateChange :
    Except StoreError (Target J) := do
  let natural ← okOr (splitMessageTemplateKey change.key) .notFound
  let messageTemplates ← applyKeyed source.resources.messageTemplate natural change.kind target.messageTemplates
  .ok { target with messageTemplates }

/-- A custom-journey version is only created. -/
def applyFlowVersionChange (validArtifact : J → Bool) (source : Snapshot J) (change : ResourceChange J) (target : Target J) :
    Except StoreError (Target J) :=
  match change.kind with
  | .create => do
    let natural ← okOr (parseFlowVersionKey change.key) .notFound
    let version ← okOr (findKey (fun version => (version.journeyId, version.version)) natural source.resources.flowVersion) .notFound
    refuseIf (validArtifact version.artifact = false) .journeyInvalid
    let flowVersions ← okOr (target.flowVersions.insert ⟨natural.1, natural.2, version.artifact⟩) .conflict
    .ok { target with flowVersions }
  | .update | .delete => .error .conflict

/-- The write of a bundle, checked against the index. -/
def LocaleBundles.checked (t : Table (LocaleBundleSnapshot J) LocaleBundleSnapshot.locale) : Except StoreError (LocaleBundles J) :=
  if h : (t.rows.filterMap fun row => defaultEntry row.isEnvDefault).Nodup then .ok ⟨t, h⟩ else .error .database

/-- The other bundles are no longer the default. -/
def demoteOtherDefaultBundles (locale : Text) (t : Table (LocaleBundleSnapshot J) LocaleBundleSnapshot.locale) :
    Table (LocaleBundleSnapshot J) LocaleBundleSnapshot.locale :=
  t.modify (fun row => { row with isEnvDefault := row.isEnvDefault && row.locale = locale }) fun _ => rfl

def LocaleBundles.delete (bundles : LocaleBundles J) (locale : Text) : LocaleBundles J where
  toTable := bundles.toTable.delete fun row => row.locale = locale
  oneDefault := (List.filter_sublist.filterMap _).nodup bundles.oneDefault

/-- A bundle is written after it took the default mark from the others, if it is the default. -/
def writeLocaleBundle (kind : ChangeKind) (bundle : LocaleBundleSnapshot J) (bundles : LocaleBundles J) :
    Except StoreError (LocaleBundles J) := do
  let written ← writeRow kind bundle
    (if bundle.isEnvDefault then demoteOtherDefaultBundles bundle.locale bundles.toTable else bundles.toTable)
  LocaleBundles.checked written

def applyLocaleBundleChange : Except StoreError (Target J) :=
  if change.kind = .delete then .ok { target with localeBundles := target.localeBundles.delete change.key }
  else do
    let bundle ← okOr (findKey LocaleBundleSnapshot.locale change.key source.resources.localeBundle) .notFound
    let localeBundles ← writeLocaleBundle change.kind bundle target.localeBundles
    .ok { target with localeBundles }

/-! ### Brands -/

/-- The columns that a promoted brand writes. -/
def promotedBrandRow (brand : BrandSnapshot J) : BrandRow J where
  slug := brand.slug
  isDefault := brand.isDefault
  productName := brand.productName
  showWordmark := brand.showWordmark
  brandToken := brand.brandToken
  tokens := brand.tokens
  tokensDark := brand.tokensDark
  slots := brand.slots
  hostPattern := promotedHostPattern brand.hostPattern

/-- `demote_other_default_brands`. -/
def demoteOtherDefaultBrands (slug : Text) (t : Table (BrandRow J) BrandRow.slug) : Table (BrandRow J) BrandRow.slug :=
  t.modify (fun row => { row with isDefault := row.isDefault && row.slug = slug }) fun _ => rfl

/-- `release_other_host_claims`. -/
def releaseOtherHostClaims (slug : Text) (host : CanonicalHost) (t : Table (BrandRow J) BrandRow.slug) :
    Table (BrandRow J) BrandRow.slug :=
  t.modify (fun row => { row with hostPattern := if row.hostPattern = some host ∧ row.slug ≠ slug then none else row.hostPattern })
    fun _ => rfl

/-- The write of a brand, checked against the indexes. -/
def Brands.checked (t : Table (BrandRow J) BrandRow.slug) : Except StoreError (Brands J) :=
  if h : (t.rows.filterMap fun row => defaultEntry row.isDefault).Nodup ∧ (t.rows.filterMap BrandRow.hostPattern).Nodup then
    .ok ⟨t, h.1, h.2⟩
  else .error .database

def Brands.delete (brands : Brands J) (slug : Text) : Brands J where
  toTable := brands.toTable.delete fun row => row.slug = slug
  oneDefault := (List.filter_sublist.filterMap _).nodup brands.oneDefault
  oneClaim := (List.filter_sublist.filterMap _).nodup brands.oneClaim

/-- `i32::try_from`. -/
def toI32 (value : ℤ) : Option ℤ := if -2 ^ 31 ≤ value ∧ value < 2 ^ 31 then some value else none

/-- `ResolvedAssetBytes`: bytes by digest, content type and size. -/
abbrev ResolvedAssetBytes := List ((Text × Text × ℤ) × List UInt8)

/-- The key under which the bytes of an asset are found, when its size is one that the table can hold. -/
def assetKey (slug : Text) (asset : BrandAssetMetaSnapshot) : Except (PromotionApplyError Rev) (Text × Text × ℤ) := do
  let sizeBytes ← okOr (toI32 asset.sizeBytes) (.brandAssetBytesUnavailable slug asset.kind asset.sha256)
  .ok (asset.sha256, asset.contentType, sizeBytes)

/-- The bytes of one more asset. -/
def resolveAsset (assets : List BrandAssetRow) (slug : Text) (resolved : ResolvedAssetBytes) (asset : BrandAssetMetaSnapshot) :
    Except (PromotionApplyError Rev) ResolvedAssetBytes := do
  let key ← assetKey slug asset
  if (resolved.lookup key).isSome then .ok resolved
  else
    let row ← okOr (assets.find? fun row => (row.sha256, row.contentType, row.sizeBytes) = key)
      (.brandAssetBytesUnavailable slug asset.kind asset.sha256)
    .ok ((key, row.bytes) :: resolved)

/-- `resolve_promoted_brand_asset_bytes`. -/
def resolvePromotedBrandAssetBytes (changes : List (ResourceChange J)) (target : Target J) :
    Except (PromotionApplyError Rev) ResolvedAssetBytes :=
  changes.foldlM (fun resolved change =>
    if change.resourceType ≠ .brand ∨ change.kind = .delete then .ok resolved
    else do
      let brand ← okOr (findKey BrandSnapshot.slug change.key source.resources.brand) (.store .notFound)
      brand.assets.foldlM (resolveAsset target.brandAssets.rows brand.slug) resolved) []

/-- One asset of a promoted brand, written with the bytes that were resolved. -/
def applyBrandAsset (assetBytes : ResolvedAssetBytes) (slug : Text) (t : BrandAssets) (asset : BrandAssetMetaSnapshot) :
    Except (PromotionApplyError Rev) BrandAssets := do
  let key ← assetKey slug asset
  let bytes ← okOr (assetBytes.lookup key) (.brandAssetBytesUnavailable slug asset.kind asset.sha256)
  .ok (t.upsert ⟨slug, asset.kind, asset.contentType, bytes, asset.sha256, key.2.2⟩)

/-- `apply_brand_assets`: the assets of the other kinds are removed. -/
def applyBrandAssets (assetBytes : ResolvedAssetBytes) (slug : Text) (assets : List BrandAssetMetaSnapshot)
    (t : BrandAssets) : Except (PromotionApplyError Rev) BrandAssets := do
  let written ← assets.foldlM (applyBrandAsset assetBytes slug) t
  .ok (written.delete fun row => row.brandSlug = slug ∧ row.kind ∉ assets.map BrandAssetMetaSnapshot.kind)

/-- No other brand holds what a brand claims. -/
def yieldToBrand (brand : BrandSnapshot J) (t : Table (BrandRow J) BrandRow.slug) : Table (BrandRow J) BrandRow.slug :=
  let demoted := if brand.isDefault then demoteOtherDefaultBrands brand.slug t else t
  match promotedHostPattern brand.hostPattern with
  | some host => releaseOtherHostClaims brand.slug host demoted
  | none => demoted

/-- A brand is written after it took the default mark and its host from the others. -/
def writePromotedBrand (kind : ChangeKind) (brand : BrandSnapshot J) (brands : Brands J) : Except StoreError (Brands J) := do
  let written ← writeRow kind (promotedBrandRow brand) (yieldToBrand brand brands.toTable)
  Brands.checked written

def applyBrandChange (assetBytes : ResolvedAssetBytes) (source : Snapshot J) (change : ResourceChange J) (target : Target J) :
    Except (PromotionApplyError Rev) (Target J) :=
  if change.kind = .delete then
    .ok { target with
      brands := target.brands.delete change.key
      brandAssets := target.brandAssets.delete fun row => row.brandSlug = change.key }
  else do
    let brand ← okOr (findKey BrandSnapshot.slug change.key source.resources.brand) (.store .notFound)
    let brands ← (writePromotedBrand change.kind brand target.brands).mapError .store
    let brandAssets ← applyBrandAssets assetBytes brand.slug brand.assets target.brandAssets
    .ok { target with brands, brandAssets }

/-! ### Applying a promotion -/

/-- `apply_change`. -/
def applyChange (engine : Engine J Rev) (source : Snapshot J) (assetBytes : ResolvedAssetBytes) (target : Target J)
    (change : ResourceChange J) : Except (PromotionApplyError Rev) (Target J) :=
  match change.resourceType with
  | .resourceServer => (applyResourceServerChange source change target).mapError .store
  | .dcrPolicy => (applyDcrPolicyChange source change target).mapError .store
  | .envVariable => (applyVariableChange source change target).mapError .store
  | .brand => applyBrandChange assetBytes source change target
  | .localeBundle => (applyLocaleBundleChange source change target).mapError .store
  | .messageTemplate => (applyMessageTemplateChange source change target).mapError .store
  | .flowVersion => (applyFlowVersionChange engine.validArtifact source change target).mapError .store

/-- One turn of the loop over the changes: a version that exists with another artifact is refused. -/
def applyTurn (engine : Engine J Rev) (source : Snapshot J) (assetBytes : ResolvedAssetBytes) (target : Target J)
    (change : ResourceChange J) : Except (PromotionApplyError Rev) (Target J) :=
  if change.resourceType = .flowVersion ∧ change.kind = .update then do
    let natural ← okOr (parseFlowVersionKey change.key) (.store .notFound)
    .error (.flowVersionArtifactConflict natural.1 natural.2)
  else applyChange engine source assetBytes target change

variable [DecidableEq J] [DecidableEq Rev]

/-- The target with every change of the difference applied. -/
def applyDiff (engine : Engine J Rev) (source : Snapshot J) (target : Target J) : Except (PromotionApplyError Rev) (Target J) := do
  let changes := diff source (readPromotedSnapshot target)
  let assetBytes ← resolvePromotedBrandAssetBytes source changes target
  changes.foldlM (applyTurn engine source assetBytes) target

inductive PromotionOutcome (J : Type)
  | applied (changes : List (ResourceChange J))
  | noOp
  deriving DecidableEq

/-- A reference of the source resolves: a variable in the source or the target, a secret in the target. -/
def resolves (reference : Reference) : Bool :=
  match reference.kind with
  | .envVariable => source.resources.envVariable.any (·.name = reference.name) ||
      (readPromotedSnapshot target).resources.envVariable.any (·.name = reference.name)
  | .secret => reference.name ∈ target.environmentSecrets

/-- `apply_promotion_with_event`. -/
def applyPromotion (engine : Engine J Rev) (source : Snapshot J) (baseRevision : Rev) (target : Target J) :
    Except (PromotionApplyError Rev) (PromotionOutcome J × Target J) :=
  let current := readPromotedSnapshot target
  let currentRevision := revision engine.digest current
  if currentRevision = revision engine.digest source then .ok (.noOp, target)
  else do
    refuseIf (currentRevision ≠ baseRevision) (.drift baseRevision currentRevision)
    (engine.collectReferences source).forM fun reference =>
      refuseIf (resolves source target reference = false) (.unresolvedReference reference)
    let applied ← applyDiff engine source target
    .ok (.applied (diff source current), applied)

end IronAuth.Store.Promotion
