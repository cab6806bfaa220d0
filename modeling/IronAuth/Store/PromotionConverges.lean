import IronAuth.Store.Promotion

/-!
# A promotion converges

After a promotion, the target has the source's value under each natural key that the difference named.
A change of one brand or bundle may take the default mark or a host from another, but not from one that
the source wants to have it.

A version of a journey that the target alone has is no difference, and it is in the revision: a target
that has one never gets the revision of the source, however often the promotion is applied.

## What is proved

* `advances_applyTurn`: a change puts the source's value under its key, and what agreed with the source
  agrees still.
* `promotion_converges_iff`: the promotion converges exactly when the source claims nothing twice and
  has every version that the target has.
* `localTarget_never_settles`: a target with a version of its own.
-/

namespace IronAuth.Store.Promotion

open Lib Fallible List

variable {J Rev : Type}

/-! ### The values of a target -/

/-- The value of a resource in a target. -/
def Target.valueAt (target : Target J) : PromotedResourceType → Text → Option (ResourceValue J) :=
  (readPromotedSnapshot target).valueAt

variable {α κ : Type} {key : α → κ} {t t' : Table α key} {ki : ChangeKind}

theorem findKey_sortBy {ι : Type} [DecidableEq κ] [LinearOrder ι] {rows : List α} (o : α → ι)
    (h : (rows.map key).Nodup) (k : κ) : findKey key k (sortBy o rows) = findKey key k rows :=
  (findKey_eq_of_perm (perm_sortBy o rows).symm h k).symm

namespace Target

variable (target : Target J) (key : Text)

theorem valueAt_resourceServer : target.valueAt .resourceServer key = (target.resourceServers.find key).map .resourceServer := by
  rw [valueAt, (keyOrdered_readPromotedSnapshot target).valueAt_resourceServer]
  exact congrArg _ (findKey_sortBy _ target.resourceServers.unique key)

theorem valueAt_dcrPolicy : target.valueAt .dcrPolicy key = (target.dcrPolicies.find key).map .dcrPolicy := by
  rw [valueAt, (keyOrdered_readPromotedSnapshot target).valueAt_dcrPolicy]
  exact congrArg _ (findKey_sortBy _ target.dcrPolicies.unique key)

theorem valueAt_envVariable : target.valueAt .envVariable key = (target.environmentVariables.find key).map .envVariable := by
  rw [valueAt, (keyOrdered_readPromotedSnapshot target).valueAt_envVariable]
  exact congrArg _ (findKey_sortBy _ target.environmentVariables.unique key)

theorem valueAt_brand :
    target.valueAt .brand key =
      (target.brands.find key).map fun row => .brand (promotedBrand (readBrand target.brandAssets.rows row)) := by
  have hs : ∀ row : BrandRow J, (readBrand target.brandAssets.rows row).slug = row.slug := fun _ => rfl
  have hu : ((target.brands.rows.map (readBrand target.brandAssets.rows)).map (·.slug)).Nodup := by
    rw [map_map]
    exact target.brands.unique
  rw [valueAt, (keyOrdered_readPromotedSnapshot target).valueAt_brand]
  rw [show (readPromotedSnapshot target).resources.brand = readPromotedBrands target from rfl, readPromotedBrands,
    findKey_sortBy _ hu, findKey_map hs, Option.map_map]
  rfl

theorem valueAt_localeBundle : target.valueAt .localeBundle key = (target.localeBundles.find key).map .localeBundle := by
  rw [valueAt, (keyOrdered_readPromotedSnapshot target).valueAt_localeBundle]
  exact congrArg _ (findKey_sortBy _ target.localeBundles.unique key)

theorem valueAt_flowVersion :
    target.valueAt .flowVersion key =
      (findKey (fun row => flowVersionKey row.journeyId row.version) key target.flowVersions.rows).map
        fun row => .flowVersion row.artifact := by
  have hk : ∀ row : FlowVersionRow J, (readFlowVersion row).key = flowVersionKey row.journeyId row.version := fun _ => rfl
  have hu : ((target.flowVersions.rows.map readFlowVersion).map FlowVersionSnapshot.key).Nodup := by
    have hnd := target.flowVersions.unique.map flowVersionKey_injective
    rw [map_map] at hnd ⊢
    exact hnd
  rw [valueAt, (keyOrdered_readPromotedSnapshot target).valueAt_flowVersion]
  rw [show (readPromotedSnapshot target).resources.flowVersion = readPromotedFlowVersions target from rfl,
    readPromotedFlowVersions, findKey_sortBy _ hu, findKey_map hk, Option.map_map]
  rfl

theorem valueAt_messageTemplate :
    target.valueAt .messageTemplate key =
      (findKey MessageTemplateSnapshot.key key target.messageTemplates.rows).map .messageTemplate := by
  have hu : (target.messageTemplates.rows.map MessageTemplateSnapshot.key).Nodup := by
    have hnd := target.messageTemplates.unique.map messageTemplateKey_injective
    rw [map_map] at hnd
    exact hnd
  rw [valueAt, (keyOrdered_readPromotedSnapshot target).valueAt_messageTemplate]
  exact congrArg _ (findKey_sortBy _ hu key)

end Target

/-! ### What a change does -/

/-- A change of the values of one type: under its key stands the source's value, what agreed with the
source under another key agrees still, and no other key comes or goes. -/
structure Moves (source before after : Text → Option (ResourceValue J)) (key : Text) : Prop where
  own : after key = source key
  settled : ∀ k ≠ key, before k = source k → after k = source k
  present : ∀ k ≠ key, (after k).isSome = (before k).isSome

theorem Moves.of_eq {source pre a : Text → Option (ResourceValue J)} {key : Text}
    (h : ∀ k, a k = if k = key then source key else pre k) : Moves source pre a key where
  own := by rw [h, if_pos rfl]
  settled k hk hb := by rw [h, if_neg hk, hb]
  present k hk := by rw [h, if_neg hk]

/-- What a change that is to come says of the source and of the target. -/
structure Pending (source : Snapshot J) (change : ResourceChange J) (target : Target J) : Prop where
  create : change.kind = .create → (source.valueAt change.resourceType change.key).isSome
  update : change.kind = .update → (target.valueAt change.resourceType change.key).isSome
  delete : change.kind = .delete →
    source.valueAt change.resourceType change.key = none ∧ (target.valueAt change.resourceType change.key).isSome

/-- The row that is written stands under its key. -/
theorem find_writeRow [DecidableEq κ] {row : α}
    (h : writeRow ki row t = .ok t') (hp : ki ≠ .create → (t.find (key row)).isSome) (k : κ) :
    t'.find k = if k = key row then some row else t.find k := by
  rw [writeRow] at h
  split_ifs at h with hki
  · exact (Table.find_insert (okOr_eq_ok_iff.mp h) k).trans (if_congr eq_comm rfl rfl)
  · cases h
    rw [Table.find_replace]
    by_cases hk : k = key row
    · obtain ⟨old, ho⟩ := Option.isSome_iff_exists.mp (hp hki)
      rw [if_pos hk.symm, if_pos hk, hk, ho]
      rfl
    · rw [if_neg (Ne.symm hk), if_neg hk]

/-- The same, when the other rows are changed first. -/
theorem find_writeRow_yielding [DecidableEq κ] {row : α} {y : Table α key} {g g' : α → α}
    (h : writeRow ki row y = .ok t') (hp : ki ≠ .create → (t.find (key row)).isSome) (hy : ∀ k, y.find k = (t.find k).map g)
    (hg : ∀ other, key other ≠ key row → g other = g' other) (k : κ) :
    t'.find k = if k = key row then some row else (t.find k).map g' := by
  rw [find_writeRow h (by simpa [hy] using hp), hy]
  split_ifs with hk
  · rfl
  · exact Option.map_congr fun other ho => hg other fun heq => hk ((key_of_findKey ho).symm.trans heq)

theorem ChangeKind.eq_update (hd : ki ≠ .delete) (hc : ki ≠ .create) : ki = .update := by
  cases ki <;> simp at hd hc ⊢

/-- **A change of a table by key puts the source's row, or its absence, under the key.** -/
theorem applyKeyed_find [DecidableEq κ] {source : List α} {k0 : κ}
    (h : applyKeyed source k0 ki t = .ok t') (hu : ki = .update → (t.find k0).isSome)
    (hd : ki = .delete → findKey key k0 source = none) (k : κ) :
    t'.find k = if k = k0 then findKey key k0 source else t.find k := by
  rw [applyKeyed] at h
  split_ifs at h with hk
  · cases h
    rw [Table.find_delete_key, hd hk]
  · obtain ⟨row, hr, hw⟩ := bind_eq_ok_iff.mp h
    have hf := okOr_eq_ok_iff.mp hr
    rw [hf, ← key_of_findKey hf]
    refine find_writeRow hw (fun hc => ?_) k
    rw [key_of_findKey hf]
    exact hu (ChangeKind.eq_update hk hc)

/-- What a change does to a target. -/
structure Advances (source : Snapshot J) (change : ResourceChange J) (target next : Target J) : Prop where
  moves : Moves (source.valueAt change.resourceType) (target.valueAt change.resourceType) (next.valueAt change.resourceType)
    change.key
  frame : ∀ resourceType ≠ change.resourceType, next.valueAt resourceType = target.valueAt resourceType

section changes

variable {source : Snapshot J} {change : ResourceChange J} {target next : Target J}

/-- A change of a resource that is kept in one table, under its key. -/
theorem advances_of_applyKeyed {α : Type} {key : α → Text} {v : α → ResourceValue J} {r : List α} {t : Table α key}
    {put : Table α key → Target J} {rt : PromotedResourceType} (ht : change.resourceType = rt)
    (hs : ∀ k, source.valueAt rt k = (findKey key k r).map v) (hb : ∀ k, target.valueAt rt k = (t.find k).map v)
    (ha : ∀ t k, (put t).valueAt rt k = (t.find k).map v)
    (hfr : ∀ t, ∀ other ≠ rt, (put t).valueAt other = target.valueAt other) (hpd : Pending source change target)
    (h : (applyKeyed r change.key change.kind t >>= fun t => .ok (put t)) = .ok next) :
    Advances source change target next := by
  obtain ⟨t', hta, hn⟩ := bind_eq_ok_iff.mp h
  cases hn
  subst ht
  refine ⟨Moves.of_eq fun k => ?_, hfr t'⟩
  have hf := applyKeyed_find hta (fun hk => by simpa [hb] using hpd.update hk)
    (fun hk => by simpa [hs] using (hpd.delete hk).1) k
  rw [ha, hf, hs, hb]
  split_ifs <;> rfl

/-- A change that is to come names a resource that the source or the target has. -/
theorem Pending.named (h : Pending source change target) :
    (source.valueAt change.resourceType change.key).isSome ∨ (target.valueAt change.resourceType change.key).isSome := by
  cases hk : change.kind with
  | create => exact .inl (h.create hk)
  | update => exact .inr (h.update hk)
  | delete => exact .inr (h.delete hk).2

theorem advances_messageTemplate (hs : KeyOrdered source) (ht : change.resourceType = .messageTemplate)
    (hpd : Pending source change target) (h : applyMessageTemplateChange source change target = .ok next) :
    Advances source change target next := by
  obtain ⟨natural, hna, h⟩ := bind_eq_ok_iff.mp h
  obtain ⟨ta, hta, hn⟩ := bind_eq_ok_iff.mp h
  cases hn
  -- the key is that of a template, so it is split into what it was made of
  have hke : change.key = messageTemplateKey natural.1 natural.2 := by
    have hsp := okOr_eq_ok_iff.mp hna
    have hnm := hpd.named
    rw [ht, hs.valueAt_messageTemplate, target.valueAt_messageTemplate, Option.isSome_map, Option.isSome_map,
      Option.isSome_iff_exists, Option.isSome_iff_exists] at hnm
    rcases hnm with ⟨t, hf⟩ | ⟨t, hf⟩
    all_goals
      rw [MessageTemplateSnapshot.key_of_find hf, splitMessageTemplateKey_messageTemplateKey] at hsp
      obtain rfl := Option.some.inj hsp
      exact MessageTemplateSnapshot.key_of_find hf
  obtain ⟨-, hu, hd⟩ := hpd
  rw [ht, target.valueAt_messageTemplate, hke, MessageTemplateSnapshot.findKey_key, Option.isSome_map] at hu
  rw [ht, hs.valueAt_messageTemplate, hke, MessageTemplateSnapshot.findKey_key, Option.map_eq_none_iff] at hd
  have hf := applyKeyed_find hta hu fun hk => (hd hk).1
  constructor
  · rw [ht]
    refine Moves.of_eq fun k => ?_
    have hnm := findKey_named messageTemplateKey_injective hf k
    rw [Target.valueAt_messageTemplate, target.valueAt_messageTemplate, hs.valueAt_messageTemplate, hke,
      MessageTemplateSnapshot.findKey_key]
    refine (congrArg _ hnm).trans ?_
    split_ifs <;> rfl
  · intro resourceType hne
    rw [ht] at hne
    cases resourceType with
    | messageTemplate => exact absurd rfl hne
    | _ => rfl

variable {v : J → Bool} {t t' a : BrandAssets} {b : LocaleBundles J} {k slug : Text} {ki : ChangeKind}
   {assets : List BrandAssetMetaSnapshot} {o : ResourceChange J}

theorem advances_flowVersion (hs : KeyOrdered source) (ht : change.resourceType = .flowVersion)
    (hpd : Pending source change target) (h : applyFlowVersionChange v source change target = .ok next) :
    Advances source change target next := by
  cases hk : change.kind with
  | update | delete => rw [applyFlowVersionChange, hk] at h; cases h
  | create =>
    rw [applyFlowVersionChange, hk] at h
    obtain ⟨natural, hna, h⟩ := bind_eq_ok_iff.mp h
    obtain ⟨version, hv, h⟩ := bind_eq_ok_iff.mp h
    obtain ⟨-, h⟩ := check_bind_eq_ok_iff.mp h
    obtain ⟨t, hta, hn⟩ := bind_eq_ok_iff.mp h
    cases hn
    have hke : change.key = flowVersionKey natural.1 natural.2 := by
      have hp := okOr_eq_ok_iff.mp hna
      have hc := hpd.create hk
      rw [ht, hs.valueAt_flowVersion, Option.isSome_map, Option.isSome_iff_exists] at hc
      obtain ⟨other, ho⟩ := hc
      rw [FlowVersionSnapshot.key_of_find ho, parseFlowVersionKey_flowVersionKey] at hp
      obtain rfl := Option.some.inj hp
      exact FlowVersionSnapshot.key_of_find ho
    have hf : ∀ k, t.find k = if k = natural then some ⟨natural.1, natural.2, version.artifact⟩ else target.flowVersions.find k := by
      intro k
      exact (Table.find_insert (okOr_eq_ok_iff.mp hta) k).trans (if_congr eq_comm rfl rfl)
    constructor
    · rw [ht]
      refine Moves.of_eq fun k => ?_
      have hnm := findKey_named flowVersionKey_injective hf k
      rw [Target.valueAt_flowVersion, target.valueAt_flowVersion, hs.valueAt_flowVersion, hke,
        FlowVersionSnapshot.findKey_key, okOr_eq_ok_iff.mp hv]
      refine (congrArg _ hnm).trans ?_
      split_ifs <;> rfl
    · intro resourceType hne
      rw [ht] at hne
      cases resourceType with
      | flowVersion => exact absurd rfl hne
      | _ => rfl

/-! ### Bundles and brands -/

/-- At most one brand is the default, at most one brand claims each host, and at most one bundle is the default. -/
structure Unambiguous (source : Snapshot J) : Prop where
  oneDefaultBrand : (source.resources.brand.filterMap fun brand => defaultEntry brand.isDefault).Nodup
  oneClaim : (source.resources.brand.filterMap fun brand => promotedHostPattern brand.hostPattern).Nodup
  oneDefaultBundle : (source.resources.localeBundle.filterMap fun bundle => defaultEntry bundle.isEnvDefault).Nodup

theorem defaultEntry_eq_some {i : Bool} (h : i = true) : defaultEntry i = some () := if_pos h

theorem LocaleBundles.toTable_of_checked {t : Table (LocaleBundleSnapshot J) LocaleBundleSnapshot.locale}
    (h : LocaleBundles.checked t = .ok b) : b.toTable = t := by
  rw [LocaleBundles.checked] at h
  split at h
  · cases h; rfl
  · cases h

/-- A bundle that becomes the default takes the mark from the others. -/
theorem find_writeLocaleBundle {bdl : LocaleBundleSnapshot J} {b' : LocaleBundles J}
    (h : writeLocaleBundle ki bdl b = .ok b')
    (hp : ki ≠ .create → (b.find bdl.locale).isSome) (k : Text) :
    b'.find k = if k = bdl.locale then some bdl else
      (b.find k).map fun row => { row with isEnvDefault := row.isEnvDefault && !bdl.isEnvDefault } := by
  obtain ⟨w, hw, hc⟩ := bind_eq_ok_iff.mp h
  rw [LocaleBundles.toTable_of_checked hc]
  refine find_writeRow_yielding hw hp (Table.find_ite_modify _ _ _ _) (fun row hr => ?_) k
  cases bdl.isEnvDefault <;> simp [hr]

theorem advances_localeBundle (hsr : KeyOrdered source) (ho : Unambiguous source)
    (ht : change.resourceType = .localeBundle) (hpd : Pending source change target)
    (h : applyLocaleBundleChange source change target = .ok next) : Advances source change target next := by
  obtain ⟨-, hu, hd⟩ := hpd
  rw [ht] at hu hd
  have hfr : ∀ localeBundles : LocaleBundles J, ∀ resourceType ≠ change.resourceType,
      Target.valueAt { target with localeBundles } resourceType = target.valueAt resourceType := by
    intro localeBundles resourceType hne
    rw [ht] at hne
    cases resourceType with
    | localeBundle => exact absurd rfl hne
    | _ => rfl
  rw [applyLocaleBundleChange] at h
  split_ifs at h with hki
  · cases h
    refine ⟨?_, hfr _⟩
    rw [ht]
    refine Moves.of_eq fun k => ?_
    rw [Target.valueAt_localeBundle, target.valueAt_localeBundle, (hd hki).1]
    refine (congrArg _ (Table.find_delete_key target.localeBundles.toTable change.key k)).trans ?_
    split_ifs <;> rfl
  · obtain ⟨bdl, hbu, h⟩ := bind_eq_ok_iff.mp h
    obtain ⟨b, hbn, hn⟩ := bind_eq_ok_iff.mp h
    cases hn
    have hbu := okOr_eq_ok_iff.mp hbu
    have hl : bdl.locale = change.key := key_of_findKey hbu
    have hf := find_writeLocaleBundle hbn fun hc => by
      simpa [hl, target.valueAt_localeBundle] using hu (ChangeKind.eq_update hki hc)
    refine ⟨?_, hfr _⟩
    rw [ht]
    constructor
    · rw [Target.valueAt_localeBundle, hsr.valueAt_localeBundle, hbu]
      exact congrArg _ ((hf change.key).trans (if_pos hl.symm))
    · intro k hk hbe
      have hk' : k ≠ bdl.locale := fun heq => hk (heq.trans hl)
      rw [← hbe, Target.valueAt_localeBundle, target.valueAt_localeBundle]
      rw [target.valueAt_localeBundle, hsr.valueAt_localeBundle] at hbe
      have ha := Option.map_injective (fun _ _ => ResourceValue.localeBundle.inj) hbe
      refine congrArg _ ((hf k).trans ?_)
      rw [if_neg hk']
      cases hr : target.localeBundles.find k with
      | none => rfl
      | some row =>
        -- two bundles of the source cannot both be the default
        rw [hr] at ha
        have hno : (row.isEnvDefault && bdl.isEnvDefault) = false := by
          by_contra hb
          rw [Bool.not_eq_false, Bool.and_eq_true] at hb
          have heq := eq_of_nodup_filterMap ho.oneDefaultBundle (mem_of_findKey ha.symm) (mem_of_findKey hbu)
            (defaultEntry_eq_some hb.1) (defaultEntry_eq_some hb.2)
          exact hk' (heq ▸ (key_of_findKey hr).symm)
        have hs : (row.isEnvDefault && !bdl.isEnvDefault) = row.isEnvDefault := by
          revert hno
          cases row.isEnvDefault <;> cases bdl.isEnvDefault <;> decide
        rw [Option.map_some, hs]
    · intro k hk
      have hk' : k ≠ bdl.locale := fun heq => hk (heq.trans hl)
      rw [Target.valueAt_localeBundle, target.valueAt_localeBundle, Option.isSome_map, Option.isSome_map]
      refine (congrArg _ (hf k)).trans ?_
      rw [if_neg hk', Option.isSome_map]

/-- What another brand keeps of its row when a brand is written. -/
def BrandRow.yieldedTo (brand : BrandSnapshot J) (row : BrandRow J) : BrandRow J :=
  { row with
    isDefault := row.isDefault && !brand.isDefault
    hostPattern := if row.hostPattern = promotedHostPattern brand.hostPattern then none else row.hostPattern }

theorem Brands.toTable_of_checked {t : Table (BrandRow J) BrandRow.slug} {b : Brands J}
    (h : Brands.checked t = .ok b) : b.toTable = t := by
  rw [Brands.checked] at h
  split at h
  · cases h; rfl
  · cases h

theorem find_yieldToBrand (b : BrandSnapshot J) (t : Table (BrandRow J) BrandRow.slug) :
    ∃ g, (∀ k, (yieldToBrand b t).find k = (t.find k).map g) ∧ ∀ row, row.slug ≠ b.slug → g row = row.yieldedTo b := by
  unfold yieldToBrand BrandRow.yieldedTo
  cases promotedHostPattern b.hostPattern with
  | none =>
    refine ⟨_, Table.find_ite_modify _ _ _ _, fun row hs => ?_⟩
    have hn : (if row.hostPattern = none then none else row.hostPattern) = row.hostPattern := by simp [eq_comm]
    cases b.isDefault <;> simp [hn, hs]
  | some ho =>
    refine ⟨_, fun k => (Table.find_modify _ _ _ k).trans ((congrArg _ (Table.find_ite_modify _ _ _ _ k)).trans
      (Option.map_map _ _ _)), fun row hs => ?_⟩
    cases b.isDefault <;> simp [hs]

/-! ### Assets -/

theorem findKey_readAssets (a : BrandAssets) (s k : Text) :
    findKey BrandAssetMetaSnapshot.kind k (readAssets a.rows s) = (a.find (s, k)).map BrandAssetRow.metadata := by
  have hk : ∀ row : BrandAssetRow, row.metadata.kind = row.kind := fun _ => rfl
  rw [readAssets, findKey_sortBy _ (nodup_map_kind_filter a s), findKey_map hk, Table.find, findKey, findKey,
    List.find?_filter]
  congr 2
  simp [Prod.ext_iff]

/-- The assets that were written stand under their kinds, over those that were there. -/
theorem find_foldlM_applyBrandAsset {assetBytes : ResolvedAssetBytes}
    (hkin : (assets.map (·.kind)).Nodup)
    (h : (assets.foldlM (applyBrandAsset assetBytes slug) t : Except (PromotionApplyError Rev) BrandAssets) = .ok t') (kind : Text) :
    (t'.find (slug, kind)).map BrandAssetRow.metadata =
        (findKey BrandAssetMetaSnapshot.kind kind assets).or ((t.find (slug, kind)).map BrandAssetRow.metadata) ∧
      ∀ other ≠ slug, t'.find (other, kind) = t.find (other, kind) := by
  induction assets generalizing t with
  | nil =>
    cases h
    exact ⟨rfl, fun _ _ => rfl⟩
  | cons asset assets ih =>
    rw [foldlM_cons, bind_eq_ok_iff] at h
    obtain ⟨next, hn, h⟩ := h
    obtain ⟨row, hs, hm, rfl⟩ : ∃ row : BrandAssetRow, row.brandSlug = slug ∧ row.metadata = asset ∧ next = t.upsert row := by
      obtain ⟨key, hk, hn⟩ := bind_eq_ok_iff.mp hn
      obtain ⟨bytes, hb, hn⟩ := bind_eq_ok_iff.mp hn
      obtain ⟨size, hs, hk⟩ := bind_eq_ok_iff.mp hk
      cases hk
      cases hn
      refine ⟨_, rfl, ?_, rfl⟩
      have hs := okOr_eq_ok_iff.mp hs
      rw [toI32] at hs
      split_ifs at hs
      cases hs
      rfl
    have hki : row.kind = asset.kind := congrArg BrandAssetMetaSnapshot.kind hm
    rw [map_cons, nodup_cons] at hkin
    obtain ⟨ho, hot⟩ := ih hkin.2 h
    rw [ho, Table.find_upsert, findKey_cons, hs, hki]
    refine ⟨?_, fun other hne => ?_⟩
    · by_cases hk : asset.kind = kind
      · have hno : findKey BrandAssetMetaSnapshot.kind kind assets = none :=
          findKey_eq_none_iff.mpr fun other hme heq => hkin.1 (hk ▸ heq ▸ mem_map_of_mem hme)
        rw [hno, hk, if_pos rfl, if_pos rfl, Option.map_some, hm]
        rfl
      · rw [if_neg fun heq => hk (Prod.mk.inj heq).2, if_neg hk]
    · rw [hot other hne, Table.find_upsert, if_neg fun heq => hne ((Prod.mk.inj heq).1.symm.trans hs)]

/-- **The assets of a promoted brand are the source's, and those of other brands are left alone.** -/
theorem find_applyBrandAssets {assetBytes : ResolvedAssetBytes}
    (hki : (assets.map (·.kind)).Nodup)
    (h : (applyBrandAssets assetBytes slug assets t : Except (PromotionApplyError Rev) BrandAssets) = .ok t') (kind : Text) :
    (t'.find (slug, kind)).map BrandAssetRow.metadata = findKey BrandAssetMetaSnapshot.kind kind assets ∧
      ∀ other ≠ slug, t'.find (other, kind) = t.find (other, kind) := by
  obtain ⟨written, hw, h⟩ := bind_eq_ok_iff.mp h
  cases h
  obtain ⟨ho, hot⟩ := find_foldlM_applyBrandAsset hki hw kind
  constructor
  · rw [Table.find_delete]
    cases hf : findKey BrandAssetMetaSnapshot.kind kind assets with
    | some asset =>
      rw [hf, Option.some_or] at ho
      obtain ⟨row, hr, hm⟩ := Option.map_eq_some_iff.mp ho
      have hme : row.kind ∈ assets.map BrandAssetMetaSnapshot.kind := by
        rw [show row.kind = asset.kind from congrArg BrandAssetMetaSnapshot.kind hm]
        exact mem_map_of_mem (mem_of_findKey hf)
      rw [hr, Option.filter_some_pos (by simp [hme]), Option.map_some, hm]
    | none =>
      cases hr : written.find (slug, kind) with
      | none => rfl
      | some row =>
        -- a kind that the source lacks is removed
        obtain ⟨hs, hk⟩ : row.brandSlug = slug ∧ row.kind = kind := Prod.ext_iff.mp (Table.key_of_find hr)
        have hn : row.kind ∉ assets.map BrandAssetMetaSnapshot.kind := by
          rw [hk, mem_map]
          rintro ⟨asset, hme, heq⟩
          exact findKey_eq_none_iff.mp hf asset hme heq
        rw [Option.filter_some_neg (by simp [hs, hn])]
        rfl
  · intro other hne
    rw [Table.find_delete, ← hot other hne]
    cases hr : written.find (other, kind) with
    | none => rfl
    | some row =>
      have hs : row.brandSlug = other := congrArg Prod.fst (Table.key_of_find hr)
      refine Option.filter_some_pos ?_
      simp [hs, hne]

theorem readAssets_congr {o : BrandAssets}
    (h : ∀ kind, a.find (slug, kind) = o.find (slug, kind)) : readAssets a.rows slug = readAssets o.rows slug := by
  have ho : ∀ t : BrandAssets, ((readAssets t.rows slug).map (·.kind)).Pairwise (· < ·) := fun t =>
    pairwise_sortBy (nodup_map_kind_filter t slug)
  refine eq_of_findKey (ho a) (ho o) (nodup_map_kind a slug) (nodup_map_kind o slug) fun kind => ?_
  rw [findKey_readAssets, findKey_readAssets, h]

/-- **What is read of a brand that was written is the brand, as it is promoted.** -/
theorem promotedBrand_readBrand {brand : BrandSnapshot J} (hk : (brand.assets.map (·.kind)).Nodup)
    (h : ∀ kind, (a.find (brand.slug, kind)).map BrandAssetRow.metadata = findKey BrandAssetMetaSnapshot.kind kind brand.assets) :
    promotedBrand (readBrand a.rows (promotedBrandRow brand)) = promotedBrand brand := by
  have ha : sortBy BrandAssetMetaSnapshot.kind (readAssets a.rows brand.slug) = sortBy BrandAssetMetaSnapshot.kind brand.assets := by
    have hk' := nodup_map_kind a brand.slug
    refine sortBy_congr hk' hk hk' hk fun kind => ?_
    rw [findKey_readAssets, h]
  simp only [promotedBrand, readBrand, promotedBrandRow, promotedHostPattern_map_val, ha]

theorem valueAt_brand_congr (hf : next.brands.find k = target.brands.find k)
    (ha : ∀ kind, next.brandAssets.find (k, kind) = target.brandAssets.find (k, kind)) :
    next.valueAt .brand k = target.valueAt .brand k := by
  rw [Target.valueAt_brand, target.valueAt_brand, hf]
  refine Option.map_congr fun row hr => ?_
  obtain rfl := Table.key_of_find hr
  rw [readBrand, readBrand, readAssets_congr ha]

/-- A brand that agrees with the source holds nothing that another brand of the source claims. -/
theorem yieldedTo_eq_self (ho : Unambiguous source) {b o : BrandSnapshot J} (hbr : b ∈ source.resources.brand)
    (hot : o ∈ source.resources.brand) (hne : o ≠ b) {a : List BrandAssetRow} {row : BrandRow J}
    (ha : promotedBrand (readBrand a row) = promotedBrand o) : row.yieldedTo b = row := by
  have hd : row.isDefault = o.isDefault := congrArg BrandSnapshot.isDefault ha
  have hh : row.hostPattern = promotedHostPattern o.hostPattern := by
    have hr : (promotedHostPattern (row.hostPattern.map Subtype.val)).map Subtype.val =
        (promotedHostPattern o.hostPattern).map Subtype.val := congrArg BrandSnapshot.hostPattern ha
    rw [promotedHostPattern_map_val] at hr
    exact Option.map_injective Subtype.val_injective hr
  have hs : (row.isDefault && !b.isDefault) = row.isDefault := by
    cases hm : b.isDefault with
    | false => simp
    | true =>
      have hn : o.isDefault = false := by
        by_contra hb
        rw [Bool.not_eq_false] at hb
        exact hne (eq_of_nodup_filterMap ho.oneDefaultBrand hot hbr (defaultEntry_eq_some hb) (defaultEntry_eq_some hm))
      rw [hd, hn]
      rfl
  have hk : (if row.hostPattern = promotedHostPattern b.hostPattern then none else row.hostPattern) = row.hostPattern := by
    split_ifs with hc
    · by_contra hso
      obtain ⟨host, hcl⟩ := Option.ne_none_iff_exists'.mp (Ne.symm hso)
      exact hne (eq_of_nodup_filterMap ho.oneClaim hot hbr (hh.symm.trans hcl) (hc.symm.trans hcl))
    · rfl
  rw [BrandRow.yieldedTo, hs, hk]

theorem advances_brand {assetBytes : ResolvedAssetBytes} (hsr : KeyOrdered source) (ho : Unambiguous source)
    (ht : change.resourceType = .brand) (hpd : Pending source change target)
    (h : (applyBrandChange assetBytes source change target : Except (PromotionApplyError Rev) (Target J)) = .ok next) :
    Advances source change target next := by
  obtain ⟨-, hu, hd⟩ := hpd
  rw [ht] at hu hd
  have hfr : ∀ (brands : Brands J) (brandAssets : BrandAssets), ∀ resourceType ≠ change.resourceType,
      Target.valueAt { target with brands, brandAssets } resourceType = target.valueAt resourceType := by
    intro brands brandAssets resourceType hne
    rw [ht] at hne
    cases resourceType with
    | brand => exact absurd rfl hne
    | _ => rfl
  rw [applyBrandChange] at h
  split_ifs at h with hki
  · cases h
    refine ⟨?_, hfr _ _⟩
    rw [ht]
    refine Moves.of_eq fun k => ?_
    rw [(hd hki).1]
    by_cases hk : k = change.key
    · rw [if_pos hk, Target.valueAt_brand]
      exact congrArg _ ((Table.find_delete_key target.brands.toTable change.key k).trans (if_pos hk))
    · rw [if_neg hk]
      refine valueAt_brand_congr ((Table.find_delete_key target.brands.toTable change.key k).trans (if_neg hk)) fun kind => ?_
      rw [Table.find_delete]
      cases hr : target.brandAssets.find (k, kind) with
      | none => rfl
      | some row =>
        have hs : row.brandSlug = k := congrArg Prod.fst (Table.key_of_find hr)
        exact Option.filter_some_pos (by simp [hs, hk])
  · obtain ⟨brand, hb, h⟩ := bind_eq_ok_iff.mp h
    obtain ⟨brands, hbr, h⟩ := bind_eq_ok_iff.mp h
    obtain ⟨assets, ha, hn⟩ := bind_eq_ok_iff.mp h
    cases hn
    have hb := okOr_eq_ok_iff.mp hb
    have hs : brand.slug = change.key := key_of_findKey hb
    have hkin := hsr.assets brand (mem_of_findKey hb)
    obtain ⟨w, hw, hc⟩ := bind_eq_ok_iff.mp (mapError_eq_ok_iff.mp hbr)
    obtain ⟨g, hy, hg⟩ := find_yieldToBrand brand target.brands.toTable
    have hf : ∀ k, brands.find k = if k = brand.slug then some (promotedBrandRow brand) else
        (target.brands.find k).map (BrandRow.yieldedTo brand) := by
      rw [Brands.toTable_of_checked hc]
      refine find_writeRow_yielding hw (fun hc => ?_) hy hg
      show (target.brands.find brand.slug).isSome
      simpa [hs, target.valueAt_brand] using hu (ChangeKind.eq_update hki hc)
    have ha := find_applyBrandAssets hkin ha
    refine ⟨?_, hfr _ _⟩
    rw [ht]
    constructor
    · rw [Target.valueAt_brand, hsr.valueAt_brand, hb]
      refine (congrArg _ ((hf change.key).trans (if_pos hs.symm))).trans ?_
      rw [Option.map_some, Option.map_some, promotedBrand_readBrand hkin fun kind => (ha kind).1]
    · intro k hk hbe
      have hk' : k ≠ brand.slug := fun heq => hk (heq.trans hs)
      rw [← hbe]
      refine valueAt_brand_congr ((hf k).trans ?_) fun kind => (ha kind).2 k hk'
      rw [if_neg hk']
      cases hr : target.brands.find k with
      | none => rfl
      | some row =>
        rw [target.valueAt_brand, hsr.valueAt_brand, hr, Option.map_some] at hbe
        obtain ⟨other, hot, hv⟩ := Option.map_eq_some_iff.mp hbe.symm
        have hne : other ≠ brand := fun heq => hk' ((key_of_findKey hot).symm.trans (congrArg _ heq))
        rw [Option.map_some, yieldedTo_eq_self ho (mem_of_findKey hb) (mem_of_findKey hot) hne
          (ResourceValue.brand.inj hv).symm]
    · intro k hk
      have hk' : k ≠ brand.slug := fun heq => hk (heq.trans hs)
      rw [Target.valueAt_brand, target.valueAt_brand, Option.isSome_map, Option.isSome_map]
      refine (congrArg _ (hf k)).trans ?_
      rw [if_neg hk', Option.isSome_map]

/-! ### The loop over the changes -/

variable {engine : Engine J Rev} {assetBytes : ResolvedAssetBytes}

theorem advances_applyTurn (hs : KeyOrdered source) (ho : Unambiguous source) (hpd : Pending source change target)
    (h : applyTurn engine source assetBytes target change = .ok next) : Advances source change target next := by
  rw [applyTurn] at h
  split_ifs at h
  · obtain ⟨_, _, h⟩ := bind_eq_ok_iff.mp h
    cases h
  · rw [applyChange] at h
    cases ht : change.resourceType with
    | resourceServer =>
      rw [ht] at h
      refine advances_of_applyKeyed ht hs.valueAt_resourceServer target.valueAt_resourceServer
        (fun _ => Target.valueAt_resourceServer _) (fun _ other hne => ?_) hpd (mapError_eq_ok_iff.mp h)
      cases other with
      | resourceServer => exact absurd rfl hne
      | _ => rfl
    | dcrPolicy =>
      rw [ht] at h
      refine advances_of_applyKeyed ht hs.valueAt_dcrPolicy target.valueAt_dcrPolicy
        (fun _ => Target.valueAt_dcrPolicy _) (fun _ other hne => ?_) hpd (mapError_eq_ok_iff.mp h)
      cases other with
      | dcrPolicy => exact absurd rfl hne
      | _ => rfl
    | envVariable =>
      rw [ht] at h
      refine advances_of_applyKeyed ht hs.valueAt_envVariable target.valueAt_envVariable
        (fun _ => Target.valueAt_envVariable _) (fun _ other hne => ?_) hpd (mapError_eq_ok_iff.mp h)
      cases other with
      | envVariable => exact absurd rfl hne
      | _ => rfl
    | brand =>
      rw [ht] at h
      exact advances_brand hs ho ht hpd h
    | localeBundle =>
      rw [ht] at h
      exact advances_localeBundle hs ho ht hpd (mapError_eq_ok_iff.mp h)
    | flowVersion =>
      rw [ht] at h
      exact advances_flowVersion hs ht hpd (mapError_eq_ok_iff.mp h)
    | messageTemplate =>
      rw [ht] at h
      exact advances_messageTemplate hs ht hpd (mapError_eq_ok_iff.mp h)

section

variable (h : Advances source change target next)

include h

theorem Advances.agrees {s : PromotedResourceType × Text}
    (hne : s ≠ change.subject) (ha : Agrees source (readPromotedSnapshot target) s.1 s.2) :
    Agrees source (readPromotedSnapshot next) s.1 s.2 := by
  refine ha.imp_left fun heq => ?_
  by_cases ht : s.1 = change.resourceType
  · have hk : s.2 ≠ change.key := fun hk => hne (Prod.ext ht hk)
    rw [ht] at heq ⊢
    exact h.moves.settled s.2 hk heq
  · exact (congrFun (h.frame s.1 ht) s.2).trans heq

theorem Advances.isSome_valueAt {s : PromotedResourceType × Text} (hne : s ≠ change.subject) :
    (next.valueAt s.1 s.2).isSome = (target.valueAt s.1 s.2).isSome := by
  by_cases ht : s.1 = change.resourceType
  · have hk : s.2 ≠ change.key := fun hk => hne (Prod.ext ht hk)
    rw [ht]
    exact h.moves.present s.2 hk
  · rw [h.frame s.1 ht]

end

theorem Pending.keep (ha : Advances source change target next)
    (hne : o.subject ≠ change.subject) (h : Pending source o target) : Pending source o next where
  create := h.create
  update hk := (ha.isSome_valueAt hne).trans (h.update hk)
  delete hk := ⟨(h.delete hk).1, (ha.isSome_valueAt hne).trans (h.delete hk).2⟩

theorem pending_of_mem_diff [DecidableEq J] (h : change ∈ diff source (readPromotedSnapshot target)) :
    Pending source change target := by
  obtain ⟨-, hc⟩ := mem_diff_iff.mp h
  obtain ⟨-, hd, hcr⟩ := changeOf_eq_some hc
  have hs : ∀ value : Option (ResourceValue J), value ≠ none → value.isSome := fun value => Option.isSome_iff_ne_none.mpr
  have hp : change.kind ≠ .create → (target.valueAt change.resourceType change.key).isSome := fun hk =>
    hs _ fun hn => hk (hcr.mpr hn)
  refine ⟨fun hk => ?_, fun hk => hp (by rw [hk]; decide),
    fun hk => ⟨hd.mp hk, hp (by rw [hk]; decide)⟩⟩
  refine hs _ fun hn => ?_
  rw [hd.mpr hn] at hk
  cases hk

/-- **When every change of the difference is applied, the target agrees with the source about everything**,
and it has a version that the source lacks if it had it before. -/
theorem agrees_of_applyDiff [DecidableEq J] (hs : KeyOrdered source) (ho : Unambiguous source)
    (h : applyDiff engine source target = .ok next) (rt : PromotedResourceType) (key : Text) :
    Agrees source (readPromotedSnapshot next) rt key ∧ (rt = .flowVersion → source.valueAt rt key = none →
      (next.valueAt rt key).isSome = (target.valueAt rt key).isSome) := by
  obtain ⟨assetBytes, -, hr⟩ := bind_eq_ok_iff.mp h
  refine foldlM_settles ResourceChange.subject
    (fun subject now => Agrees source (readPromotedSnapshot now) subject.1 subject.2 ∧
      (subject.1 = .flowVersion → source.valueAt subject.1 subject.2 = none →
        (now.valueAt subject.1 subject.2).isSome = (target.valueAt subject.1 subject.2).isSome))
    (fun change now => Pending source change now ∧
      ¬ (change.resourceType = .flowVersion ∧ source.valueAt change.resourceType change.key = none))
    (fun now change next hpd ht => ⟨.inl (advances_applyTurn hs ho hpd.1 ht).moves.own, fun hf hn => absurd ⟨hf, hn⟩ hpd.2⟩)
    (fun now change next hpd ht subject hne hse => ?_)
    (fun now change next hpd ht other hne hot => ⟨hot.1.keep (advances_applyTurn hs ho hpd.1 ht) hne, hot.2⟩)
    (nodup_diff source (readPromotedSnapshot target))
    (fun change hc => ⟨pending_of_mem_diff hc, fun hv => (mem_diff_iff.mp hc).1 (.inr hv)⟩)
    (fun subject hn => ⟨?_, fun _ _ => rfl⟩) hr (rt, key)
  · have ha := advances_applyTurn hs ho hpd.1 ht
    exact ⟨ha.agrees hne hse.1, fun hf hn => (ha.isSome_valueAt hne).trans (hse.2 hf hn)⟩
  · -- what no change is about agreed before
    by_contra hd
    exact hn (mem_map_subject_of_not_agrees hd)

/-- The natural key of every version of the target is that of a version of the source. -/
def VersionsOf (source : Snapshot J) (target : Target J) : Prop :=
  ∀ row ∈ target.flowVersions.rows, ∃ version ∈ source.resources.flowVersion,
    version.journeyId = row.journeyId ∧ version.version = row.version

theorem versionsOf_iff (hs : KeyOrdered source) :
    VersionsOf source target ↔
      ∀ key, source.valueAt .flowVersion key = none → (target.valueAt .flowVersion key).isSome = false := by
  simp only [hs.valueAt_flowVersion, target.valueAt_flowVersion, Option.isSome_map, Option.isSome_eq_false_iff,
    Option.isNone_iff_eq_none, Option.map_eq_none_iff, findKey_eq_none_iff]
  constructor
  · intro hv key hn row hr heq
    obtain ⟨version, hm, hid, hve⟩ := hv row hr
    refine hn version hm ?_
    rw [FlowVersionSnapshot.key, hid, hve]
    exact heq
  · intro hv row hr
    by_contra hno
    refine hv (flowVersionKey row.journeyId row.version) (fun version hm heq => hno ⟨version, hm, ?_⟩) row hr rfl
    exact Prod.mk.inj (flowVersionKey_injective heq)

end changes

/-! ### Convergence -/

/-- What a promotion converges for: a source of the engine's version in which no two brands or bundles
claim the same, and no version in the target that the source lacks. -/
structure Promotable (source : Snapshot J) (target : Target J) : Prop where
  schemaVersion : source.schemaVersion = snapshotSchemaVersion
  unambiguous : Unambiguous source
  versions : VersionsOf source target

section convergence

variable [DecidableEq J] {engine : Engine J Rev} {source : Snapshot J} {target next : Target J}

/-- **The target has the source's projection after a promotion.** -/
theorem promotedProjection_of_applyDiff (hs : KeyOrdered source) (hp : Promotable source target)
    (h : applyDiff engine source target = .ok next) :
    promotedProjection (readPromotedSnapshot next) = promotedProjection source := by
  refine promotedProjection_eq_of_valueAt hs (keyOrdered_readPromotedSnapshot next) hp.schemaVersion.symm
    fun resourceType key => ?_
  obtain ⟨ha | ⟨rfl, hn⟩, hk⟩ := agrees_of_applyDiff hs hp.unambiguous h resourceType key
  · exact ha
  · -- a version that the source lacks was not in the target, so it is not there now
    have hno := (hk rfl hn).trans ((versionsOf_iff hs).mp hp.versions key hn)
    exact (by simpa using hno : next.valueAt .flowVersion key = none).trans hn.symm

omit [DecidableEq J] in
/-- A source with the projection of a target is as unambiguous as the target's indexes. -/
theorem unambiguous_of_promotedProjection
    (h : promotedProjection (readPromotedSnapshot next) = promotedProjection source) : Unambiguous source := by
  have hb : (readPromotedBrands next).map promotedBrand = source.resources.brand.map promotedBrand :=
    congrArg (fun snapshot => snapshot.resources.brand) h
  have hbu : readPromotedLocaleBundles next = source.resources.localeBundle :=
    congrArg (fun snapshot => snapshot.resources.localeBundle) h
  -- an index on the projected brands is one on the rows of the table
  have hi : ∀ {κ : Type} (index : BrandSnapshot J → Option κ), (∀ brand, index (promotedBrand brand) = index brand) →
      (next.brands.rows.filterMap fun row => index (readBrand next.brandAssets.rows row)).Nodup →
      (source.resources.brand.filterMap index).Nodup := by
    intro κ index hp hnd
    have hs : ∀ brands : List (BrandSnapshot J), brands.filterMap index = (brands.map promotedBrand).filterMap index := by
      intro brands
      rw [filterMap_map]
      exact filterMap_congr fun brand _ => (hp brand).symm
    rw [hs, ← hb, ← hs, readPromotedBrands, ((perm_sortBy _ _).filterMap index).nodup_iff, filterMap_map]
    exact hnd
  refine ⟨hi _ (fun _ => rfl) next.brands.oneDefault, hi _ (fun brand => ?_) ?_, ?_⟩
  · exact promotedHostPattern_map_val _
  · have hr : ∀ row : BrandRow J, promotedHostPattern (readBrand next.brandAssets.rows row).hostPattern = row.hostPattern :=
      fun row => promotedHostPattern_map_val row.hostPattern
    simp only [hr]
    exact next.brands.oneClaim
  · rw [← hbu, readPromotedLocaleBundles, ((perm_sortBy _ _).filterMap _).nodup_iff]
    exact next.localeBundles.oneDefault

theorem versionsOf_of_promotedProjection (hs : KeyOrdered source) (ho : Unambiguous source)
    (h : applyDiff engine source target = .ok next)
    (hp : promotedProjection (readPromotedSnapshot next) = promotedProjection source) : VersionsOf source target := by
  have hv : (readPromotedFlowVersions next).map FlowVersionSnapshot.unpinned =
      source.resources.flowVersion.map FlowVersionSnapshot.unpinned :=
    congrArg (fun snapshot => snapshot.resources.flowVersion) hp
  have hof : VersionsOf source next := by
    intro row hro
    have hr : readFlowVersion row ∈ readPromotedFlowVersions next := mem_sortBy.mpr (mem_map_of_mem hro)
    have hm := mem_map_of_mem (f := FlowVersionSnapshot.unpinned) hr
    rw [hv] at hm
    obtain ⟨version, hvr, heq⟩ := mem_map.mp hm
    exact ⟨version, hvr, congrArg FlowVersionSnapshot.journeyId heq, congrArg FlowVersionSnapshot.version heq⟩
  rw [versionsOf_iff hs] at hof ⊢
  exact fun key hn => ((agrees_of_applyDiff hs ho h .flowVersion key).2 rfl hn).symm.trans (hof key hn)

/-- **A promotion converges** — the difference is empty, the revisions are equal, and the same promotion
again is a no-op — when the source claims nothing twice and has every version that the target has. A
version that the target alone has stays there, and the revisions differ for as long as it does. -/
theorem promotion_converges_iff [DecidableEq Rev] (hdigest : Function.Injective engine.digest) (hsource : KeyOrdered source)
    (h : applyDiff engine source target = .ok next) :
    (diff source (readPromotedSnapshot next) = [] ∧
      revision engine.digest (readPromotedSnapshot next) = revision engine.digest source ∧
      ∀ baseRevision, applyPromotion engine source baseRevision next = .ok (.noOp, next)) ↔ Promotable source target := by
  constructor
  · rintro ⟨-, hre, -⟩
    have hpr : promotedProjection (readPromotedSnapshot next) = promotedProjection source := hdigest hre
    have hve : snapshotSchemaVersion = source.schemaVersion := congrArg Snapshot.schemaVersion hpr
    have ho := unambiguous_of_promotedProjection hpr
    exact ⟨hve.symm, ho, versionsOf_of_promotedProjection hsource ho h hpr⟩
  · intro hro
    have hre : revision engine.digest (readPromotedSnapshot next) = revision engine.digest source :=
      congrArg engine.digest (promotedProjection_of_applyDiff hsource hro h)
    exact ⟨diff_eq_nil_iff.mpr fun rt key => (agrees_of_applyDiff hsource hro.unambiguous h rt key).1, hre, fun _ => if_pos hre⟩

end convergence

/-! ### A version that the target alone has -/

/-- An engine whose digest is the projection. -/
def plainEngine : Engine ℕ (Snapshot ℕ) where
  collectReferences _ := []
  validArtifact _ := true
  digest := id

/-- A source without resources. -/
def bareSource : Snapshot ℕ := ⟨snapshotSchemaVersion, ⟨[], [], [], [], [], [], []⟩⟩

/-- A target with the given versions of journeys, and nothing else. -/
def versionsTarget (flowVersions : Table (FlowVersionRow ℕ) fun row => (row.journeyId, row.version)) : Target ℕ where
  resourceServers := ⟨[], .nil⟩
  dcrPolicies := ⟨[], .nil⟩
  environmentVariables := ⟨[], .nil⟩
  brands := ⟨⟨[], .nil⟩, .nil, .nil⟩
  brandAssets := ⟨[], .nil⟩
  localeBundles := ⟨⟨[], .nil⟩, .nil⟩
  flowVersions := flowVersions
  messageTemplates := ⟨[], .nil⟩
  environmentSecrets := []

/-- A target with a version of a journey of its own. -/
def localTarget : Target ℕ := versionsTarget ⟨[⟨"login".toList, 1, 0⟩], nodup_singleton _⟩

/-- Nothing is to be done for a source without resources, and still the promotion is applied every time. -/
theorem localTarget_never_settles :
    KeyOrdered bareSource ∧ applyDiff plainEngine bareSource localTarget = .ok localTarget ∧
      diff bareSource (readPromotedSnapshot localTarget) = [] ∧
      ¬ (diff bareSource (readPromotedSnapshot localTarget) = [] ∧
        revision plainEngine.digest (readPromotedSnapshot localTarget) = revision plainEngine.digest bareSource ∧
        ∀ baseRevision, applyPromotion plainEngine bareSource baseRevision localTarget = .ok (.noOp, localTarget)) ∧
      applyPromotion plainEngine bareSource (revision plainEngine.digest (readPromotedSnapshot localTarget)) localTarget =
        .ok (.applied [], localTarget) := by
  have hre : revision plainEngine.digest (readPromotedSnapshot localTarget) ≠ revision plainEngine.digest bareSource := by
    decide
  refine ⟨⟨.nil, .nil, .nil, .nil, ?_, .nil, .nil, .nil⟩, rfl, by decide, fun h => hre h.2.1, ?_⟩
  · exact forall_mem_nil _
  · rw [applyPromotion, if_neg hre]
    rfl

/-- A brand of the source, with a host that is not in canonical form. -/
def acmeBrand : BrandSnapshot ℕ :=
  ⟨"acme".toList, true, "Acme".toList, true, none, 0, none, 0, some "Login.Acme.Test:8443".toList, none, []⟩

/-- A source with a brand, a bundle and a version. -/
def acmeSource : Snapshot ℕ :=
  ⟨snapshotSchemaVersion, ⟨[], [], [], [acmeBrand], [⟨"en".toList, true, 0⟩], [⟨"login".toList, 1, 0, true⟩], []⟩⟩

theorem acmeSource_converges :
    ∃ next, applyDiff plainEngine acmeSource localTarget = .ok next ∧ Promotable acmeSource localTarget ∧
      diff acmeSource (readPromotedSnapshot next) = [] ∧
      revision plainEngine.digest (readPromotedSnapshot next) = revision plainEngine.digest acmeSource ∧
      ∀ baseRevision, applyPromotion plainEngine acmeSource baseRevision next = .ok (.noOp, next) := by
  have hor : KeyOrdered acmeSource :=
    ⟨.nil, .nil, .nil, pairwise_singleton _ _, by decide, pairwise_singleton _ _, pairwise_singleton _ _, .nil⟩
  have hpr : Promotable acmeSource localTarget := by
    refine ⟨rfl, ⟨nodup_singleton _, nodup_singleton _, nodup_singleton _⟩, fun row hrow => ?_⟩
    rw [mem_singleton.mp hrow]
    exact ⟨_, mem_singleton_self _, rfl, rfl⟩
  have hok : ∃ next, applyDiff plainEngine acmeSource localTarget = .ok next := ⟨_, rfl⟩
  obtain ⟨next, hne⟩ := hok
  exact ⟨next, hne, hpr, (promotion_converges_iff Function.injective_id hor hne).mpr hpr⟩

end IronAuth.Store.Promotion
