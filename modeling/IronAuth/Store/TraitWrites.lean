import IronAuth.Store.TraitSchema

/-!
# Trait writes

`set_traits_with_visibility` replaces the traits of an identity, after a check against the active
schema of its scope. A self-service write may not name a member that is for administrators only, and
the members of this kind that the identity has are carried over from the stored document, which the
writer was never shown.

The transaction holds a lock on the schemas of the scope, so that the write is one step on the state
that it reads. Sealing is left out: the stored document is the one that was sealed. So are the login
index, the audit row and the event, which no answer depends on.
-/

namespace IronAuth.Store.Traits

open Lib Lib.Fallible List

variable {F R : Type} {serde : Serde F R}

/-! ### The surface of a write -/

/-- `TraitWriteVisibility`. -/
inductive TraitWriteVisibility where
  | admin
  | selfService
  deriving DecidableEq

/-- The errors of a trait write. -/
inductive StoreError where
  | notFound
  | encryption
  | noActiveTraitSchema
  | schemaMalformed (error : SchemaError)
  | traitsInvalid (failures : List ValidationFailure)
  deriving DecidableEq

variable (schema : TraitSchema serde)

/-- `redact_for_user`. -/
def TraitSchema.redactForUser (traits : Json F) : Json F :=
  match traits with
  | .object fields => .object (fields.filter fun field => !schema.isAdminOnly field.1)
  | other => other

/-- `self_service_violations`. -/
def TraitSchema.selfServiceViolations (traits : Json F) : List ValidationFailure :=
  ((traits.asObject.getD []).filter fun field => schema.isAdminOnly field.1).map fun field =>
    ⟨'/' :: escapeToken field.1, "admin-only trait cannot be written through a self-service surface".toList⟩

/-- The members of a document that are for administrators only. -/
def TraitSchema.adminOnlyFields (traits : Json F) : List (Text × Json F) :=
  (traits.asObject.getD []).filter fun field => schema.isAdminOnly field.1

/-- `preserve_admin_only`. -/
def TraitSchema.preserveAdminOnly (submitted existing : Json F) : Json F :=
  match submitted with
  | .object fields => .object (SortedMap.extend fields (schema.adminOnlyFields existing))
  | other => other

theorem TraitSchema.preserveAdminOnly_ordered {s old : Json F}
    (hs : s.Ordered) (he : old.Ordered) : (schema.preserveAdminOnly s old).Ordered := by
  cases s with
  | object fields =>
    refine hs.extend fun f hm => ?_
    cases old with
    | object old => exact he.of_mem (mem_filter.mp hm).1
    | _ => cases hm
  | _ => exact hs

/-- The answer to a submission that is not an object, where the stored document is one. -/
def nonObjectFailure : ValidationFailure where
  pointer := []
  message :=
    "a self-service submission must be an object where the identity's stored traits are, because ".toList ++
      "a non-object replacement would clear admin-only metadata it is not allowed to write".toList

/-- `TraitWriteVisibility::apply`. -/
def TraitWriteVisibility.apply (visibility : TraitWriteVisibility) (schema : TraitSchema serde) (submitted : Document F)
    (existing : Option (Document F)) : Except StoreError (Document F) :=
  match visibility with
  | .admin => .ok submitted
  | .selfService => do
    refuseIf (schema.selfServiceViolations submitted.value ≠ [])
      (.traitsInvalid (schema.selfServiceViolations submitted.value))
    match existing with
    | none => .ok submitted
    | some existing =>
      refuseIf (submitted.value.asObject.isNone ∧ existing.value.asObject.isSome ∧ schema.adminOnly ≠ [])
        (.traitsInvalid [nonObjectFailure])
      .ok ⟨schema.preserveAdminOnly submitted.value existing.value,
        schema.preserveAdminOnly_ordered submitted.ordered existing.ordered⟩

/-- The document that a write is about to store: the class of the surface is applied first, and its result is
checked against the schema. -/
def toStore (visibility : TraitWriteVisibility) (schema : TraitSchema serde) (submitted : Document F)
    (existing : Option (Document F)) : Except StoreError (Document F) := do
  let value ← visibility.apply schema submitted existing
  refuseIf (schema.validate value.value ≠ []) (.traitsInvalid (schema.validate value.value))
  .ok value

/-! ### The write -/

/-- The active version of the schema of a scope. -/
structure ActiveSchema where
  version : ℤ
  schemaJson : Text

/-- The traits of a user, and the version that they were checked against. -/
structure UserRow (F : Type) where
  traits : Option (Document F)
  traitsSchemaVersion : Option ℤ

/-- The state that a trait write of a scope reads and writes: whether there is a master key, the active schema, and
the users that are not deleted. -/
structure TraitStore (F : Type) where
  master : Bool
  active : Option ActiveSchema
  users : Text → Option (UserRow F)

/-- `user_traits_in_tx`. -/
def TraitStore.userTraits (store : TraitStore F) (id : Text) : Option (Document F) := (store.users id).bind UserRow.traits

/-- The state with other traits of a user. -/
def TraitStore.withUser (store : TraitStore F) (id : Text) (row : UserRow F) : TraitStore F :=
  { store with users := Function.update store.users id (some row) }

theorem users_withUser (s : TraitStore F) (id : Text) (row : UserRow F) : (s.withUser id row).users id = some row :=
  Function.update_self ..

variable (serde) in
/-- `set_traits_with_visibility`, with the version that it answers and the state that it leaves. -/
def TraitStore.setTraitsWithVisibility (store : TraitStore F) (inScope : Bool) (id : Text) (traitsJson : Text)
    (visibility : TraitWriteVisibility) : Except StoreError (ℤ × TraitStore F) := do
  refuseIf (inScope = false) .notFound
  refuseIf (store.master = false) .encryption
  let submitted ← (serde.parse traitsJson).mapError fun err =>
    .traitsInvalid [⟨[], "traits are not valid JSON: ".toList ++ err⟩]
  let active ← okOr store.active .noActiveTraitSchema
  let schema ← (TraitSchema.compile serde active.schemaJson).mapError .schemaMalformed
  let value ← toStore visibility schema submitted (store.userTraits id)
  refuseIf ((store.users id).isNone) .notFound
  .ok (active.version, store.withUser id ⟨some value, some active.version⟩)

/-! ### What a self-service write keeps -/

section selfService

variable {schema : TraitSchema serde}

theorem selfServiceViolations_eq_nil_iff {t : Json F} :
    schema.selfServiceViolations t = [] ↔ schema.adminOnlyFields t = [] :=
  map_eq_nil_iff

/-- A document without admin-only members is what a user sees of it. -/
theorem redactForUser_of_no_adminOnly {traits : Json F} (h : schema.adminOnlyFields traits = []) :
    schema.redactForUser traits = traits := by
  cases traits with
  | object fields =>
    have hf : ∀ f ∈ fields, ¬ schema.isAdminOnly f.1 = true := filter_eq_nil_iff.mp h
    simp only [TraitSchema.redactForUser]
    rw [filter_eq_self.mpr]
    intro f hm
    simpa using hf f hm
  | _ => rfl

variable {name : Text} {old o : Document F} {f map : List (Text × Json F)} {l : ℕ}

theorem lookup_adminOnlyFields {t : Json F} (h : schema.isAdminOnly name = true) :
    (schema.adminOnlyFields t).lookup name = t.get name := by
  have hk := SortedMap.lookup_filter h (t.asObject.getD [])
  cases t <;> exact hk

theorem adminOnlyFields_nodup (t : Document F) : ((schema.adminOnlyFields t.value).map Prod.fst).Nodup := by
  obtain ⟨value, hv⟩ := t
  cases value with
  | object fields => exact (hv.fields.nodup).sublist ((filter_sublist ..).map _)
  | _ => exact nodup_nil

/-- What a user sees of a document does not change when admin-only members are carried over. -/
theorem redactForUser_preserveAdminOnly {submitted old : Json F} :
    schema.redactForUser (schema.preserveAdminOnly submitted old) = schema.redactForUser submitted := by
  cases submitted with
  | object fields =>
    simp only [TraitSchema.preserveAdminOnly, TraitSchema.redactForUser]
    rw [SortedMap.filter_extend (p := fun name => !schema.isAdminOnly name)]
    intro f hm
    simpa using (mem_filter.mp hm).2
  | _ => rfl

/-- An admin-only member of the result is the one that was stored. -/
theorem lookup_extend_adminOnlyFields (hf : schema.adminOnlyFields (.object f) = [])
    (old : Document F) (h : schema.isAdminOnly name = true) :
    (SortedMap.extend f (schema.adminOnlyFields old.value)).lookup name = old.value.get name := by
  have hn : f.lookup name = none := by
    change (Json.object f).get name = none
    rw [← lookup_adminOnlyFields h, hf]
    rfl
  rw [SortedMap.lookup_extend (adminOnlyFields_nodup old), lookup_adminOnlyFields h, hn, Option.or_none]

theorem get_preserveAdminOnly {s : Json F} (hs : schema.adminOnlyFields s = [])
    (ho : s.asObject.isNone → old.value.asObject.isNone) (h : schema.isAdminOnly name = true) :
    (schema.preserveAdminOnly s old.value).get name = old.value.get name := by
  have hn : ∀ value : Json F, value.asObject.isNone → value.get name = none := by
    intro value hv
    cases value with
    | object fields => cases hv
    | _ => rfl
  cases s with
  | object fields => exact lookup_extend_adminOnlyFields hs old h
  | _ => exact (hn old.value (ho rfl)).symm

/-- **A self-service write keeps the admin-only members of the stored document and takes everything else from the
submission.** -/
theorem apply_selfService {su s : Document F}
    (h : TraitWriteVisibility.selfService.apply schema su (some old) = .ok s) :
    (∀ name, schema.isAdminOnly name = true → s.value.get name = old.value.get name) ∧
      schema.redactForUser s.value = su.value := by
  simp only [TraitWriteVisibility.apply, check_bind_eq_ok_iff, refuseIf_eq_ok_iff, ne_eq, not_not] at h
  obtain ⟨hv, hr, hs⟩ := h
  have hn := selfServiceViolations_eq_nil_iff.mp hv
  obtain rfl := Except.ok.inj hs
  refine ⟨fun name hna => ?_, ?_⟩
  · -- where there is something to keep, a submission that is not an object was refused
    have ha : schema.adminOnly ≠ [] := ne_nil_of_mem (of_decide_eq_true hna)
    refine get_preserveAdminOnly hn (fun hsu => ?_) hna
    rw [← Option.not_isSome_iff_eq_none.trans Option.isNone_iff_eq_none.symm]
    exact fun he => hr ⟨hsu, he, ha⟩
  · rw [redactForUser_preserveAdminOnly, redactForUser_of_no_adminOnly hn]

/-! ### What a self-service write reveals -/

/-- Without an `enum`, only the members of an object can be wrong. -/
theorem validateNode_object_congr {o : List (Text × Json F)} {pointer : Text}
    (he : map.lookup "enum".toList = none)
    (h : validateObject (validateNode serde l) map f pointer =
      validateObject (validateNode serde l) map o pointer) :
    validateNode serde (l + 1) (.object map) (.object f) pointer =
      validateNode serde (l + 1) (.object map) (.object o) pointer := by
  have ht : ∀ t, typeMatches serde t (.object f) = typeMatches serde t (.object o) := fun _ => rfl
  have hn : ∀ v, enumFailures serde map v pointer = [] := by
    intro v
    rw [enumFailures, he]
    rfl
  simp [validateNode, ht, hn, h]

/-- What the validity of a stored document says about its members. -/
theorem get_of_validateNode {v : Json F} {p : Text}
    (h : validateNode serde (l + 1) (.object map) v p = []) (ho : v.asObject.isSome) :
    (∀ name ∈ requiredNames map, (v.get name).isSome) ∧
      ∀ pr ∈ properties map, ∀ member, v.get pr.1 = some member →
        validateNode serde l pr.2 member (pushToken p pr.1) = [] := by
  cases v with
  | object fields =>
    rw [validateNode] at h
    split at h
    · cases h
    · exact of_validateObject_eq_nil (append_eq_nil_iff.mp h).2
  | _ => cases ho

theorem sameVisible_extend (f : List (Text × Json F)) (old o : Json F) :
    SameVisible schema.isAdminOnly (SortedMap.extend f (schema.adminOnlyFields old))
      (SortedMap.extend f (schema.adminOnlyFields o)) := by
  have hk : ∀ doc : Json F, ((SortedMap.extend f (schema.adminOnlyFields doc)).filter fun fi =>
      !schema.isAdminOnly fi.1) = f.filter fun fi => !schema.isAdminOnly fi.1 := by
    intro doc
    refine SortedMap.filter_extend (p := fun name => !schema.isAdminOnly name) (fun fi hm => ?_) f
    simpa using (mem_filter.mp hm).2
  exact (hk old).trans (hk o).symm

/-- **The failures of a submission are the same over two valid documents.** -/
theorem validate_preserveAdminOnly_eq (he : schema.root.get "enum".toList = none) {s : Json F}
    (hs : schema.adminOnlyFields s = [])
    (hx : schema.validate old.value = []) (ho : schema.validate o.value = [])
    (hob : old.value.asObject.isSome = o.value.asObject.isSome) :
    schema.validate (schema.preserveAdminOnly s old.value) =
      schema.validate (schema.preserveAdminOnly s o.value) := by
  cases s with
  | object fields =>
    simp only [TraitSchema.preserveAdminOnly]
    cases hf : old.value.asObject with
    | none =>
      -- nothing is carried over
      have hf2 : o.value.asObject = none := by simpa [hf] using hob.symm
      simp [TraitSchema.adminOnlyFields, hf, hf2]
    | some stored =>
      rw [hf] at hob
      have hi : ∀ doc : Document F, doc = old ∨ doc = o → doc.value.asObject.isSome := by
        rintro doc (rfl | rfl)
        · rw [hf]; rfl
        · rw [← hob]; rfl
      have hv : ∀ doc : Document F, doc = old ∨ doc = o → schema.validate doc.value = [] := by
        rintro doc (rfl | rfl)
        · exact hx
        · exact ho
      have hlk : ∀ (doc : Document F) {name : Text}, schema.isAdminOnly name = true →
          (SortedMap.extend fields (schema.adminOnlyFields doc.value)).lookup name = doc.value.get name :=
        fun doc _ hn => lookup_extend_adminOnlyFields hs doc hn
      unfold TraitSchema.validate at hv ⊢
      cases hro : schema.root with
      | object map =>
        rw [hro] at he hv
        have hr := fun doc hd => get_of_validateNode (hv doc hd) (hi doc hd)
        refine validateNode_object_congr he (validateObject_congr (sameVisible_extend fields _ _)
          (fun name hn => isAdminOnly_declared hn hro) ?_ ?_)
        · intro name hn ha
          rw [hlk old ha, hlk o ha]
          exact ⟨(hr old (.inl rfl)).1 name hn, (hr o (.inr rfl)).1 name hn⟩
        · intro p hp ha member hmb
          rw [hlk old ha, hlk o ha] at hmb
          rcases hmb with hmb | hmb
          · exact (hr old (.inl rfl)).2 p hp member hmb
          · exact (hr o (.inr rfl)).2 p hp member hmb
      | bool value => cases value <;> rfl
      | _ => rfl
  | _ => rfl

/-- The checks answer alike over two valid documents that look alike to a user. -/
theorem toStore_selfService_eq (he : schema.root.get "enum".toList = none) (s : Document F)
    (hx : schema.validate old.value = [])
    (ho : schema.validate o.value = [])
    (hr : schema.redactForUser o.value = schema.redactForUser old.value) :
    (fun _ => ()) <$> toStore .selfService schema s (some o) =
      (fun _ => ()) <$> toStore .selfService schema s (some old) := by
  have hob : o.value.asObject.isSome = old.value.asObject.isSome := by
    have hi : ∀ v : Json F, (schema.redactForUser v).asObject.isSome = v.asObject.isSome := fun v => by cases v <;> rfl
    rw [← hi o.value, ← hi old.value, hr]
  simp only [toStore, TraitWriteVisibility.apply]
  by_cases hv : schema.selfServiceViolations s.value = []
  · have hva := validate_preserveAdminOnly_eq he (selfServiceViolations_eq_nil_iff.mp hv) ho hx
      hob
    rw [refuseIf_neg (not_not.mpr hv), ok_bind, ok_bind, hob]
    by_cases hre : s.value.asObject.isNone ∧ old.value.asObject.isSome ∧ schema.adminOnly ≠ []
    · rw [refuseIf_pos hre]
      rfl
    · rw [refuseIf_neg hre]
      simp only [ok_bind, hva]
      by_cases hvl : schema.validate (schema.preserveAdminOnly s.value old.value) = []
      · rw [refuseIf_neg (not_not.mpr hvl)]
        rfl
      · rw [refuseIf_pos hvl]
        rfl
  · rw [refuseIf_pos hv]
    rfl

end selfService

/-- What a write of an identity with stored traits answers. -/
theorem fst_setTraitsWithVisibility (s : TraitStore F) {a : ActiveSchema} (ha : s.active = some a)
    {schema : TraitSchema serde} (hs : TraitSchema.compile serde a.schemaJson = .ok schema) {id : Text}
    {existing : Document F} {ver : Option ℤ} (hu : s.users id = some ⟨some existing, ver⟩) (i : Bool)
    (t : Text) (v : TraitWriteVisibility) :
    Prod.fst <$> s.setTraitsWithVisibility serde i id t v = (do
      refuseIf (i = false) .notFound
      refuseIf (s.master = false) .encryption
      let submitted ← (serde.parse t).mapError fun err =>
        .traitsInvalid [⟨[], "traits are not valid JSON: ".toList ++ err⟩]
      (fun _ => a.version) <$> (fun _ => ()) <$> toStore v schema submitted (some existing)) := by
  have ht : s.userTraits id = some existing := by rw [TraitStore.userTraits, hu]; rfl
  have hfd : refuseIf ((s.users id).isNone) StoreError.notFound = .ok () := by rw [hu]; rfl
  have hm : ∀ (x : Except StoreError (Document F)) (f : Document F → ℤ × TraitStore F),
      (∀ value, (f value).1 = a.version) →
      (x >>= fun value => Prod.fst <$> (.ok (f value) : Except StoreError _)) = (fun _ => a.version) <$> (fun _ => ()) <$> x := by
    intro x f hf
    cases x with
    | error e => rfl
    | ok value => exact congrArg Except.ok (hf value)
  have hc : (TraitSchema.compile serde a.schemaJson).mapError StoreError.schemaMalformed = .ok schema := by
    rw [hs]; rfl
  simp only [TraitStore.setTraitsWithVisibility, ha, okOr, hc, ht, hfd, map_bind, ok_bind]
  refine congrArg _ (funext fun _ => congrArg _ (funext fun _ => congrArg _ (funext fun submitted => ?_)))
  exact hm _ _ fun _ => rfl

/-- **A self-service write neither changes nor reveals admin-only traits.** If it succeeds, the admin-only members are
as they were and everything else is the submission; and over another valid document that looks alike to the user it
answers alike. -/
theorem selfService_hides_adminOnly {store : TraitStore F} {active : ActiveSchema} (hactive : store.active = some active)
    {schema : TraitSchema serde} (hschema : TraitSchema.compile serde active.schemaJson = .ok schema)
    (henum : schema.root.get "enum".toList = none) {id : Text} {existing : Document F} {version : Option ℤ}
    (huser : store.users id = some ⟨some existing, version⟩) (hvalid : schema.validate existing.value = []) (inScope : Bool)
    (traitsJson : Text) :
    (∀ answer after, store.setTraitsWithVisibility serde inScope id traitsJson .selfService = .ok (answer, after) →
      ∃ submitted stored, serde.parse traitsJson = .ok submitted ∧ after.userTraits id = some stored ∧
        (∀ name, schema.isAdminOnly name = true → stored.value.get name = existing.value.get name) ∧
        schema.redactForUser stored.value = submitted.value) ∧
      ∀ other : Document F, schema.validate other.value = [] →
        schema.redactForUser other.value = schema.redactForUser existing.value →
        Prod.fst <$> (store.withUser id ⟨some other, version⟩).setTraitsWithVisibility serde inScope id traitsJson .selfService =
          Prod.fst <$> store.setTraitsWithVisibility serde inScope id traitsJson .selfService := by
  constructor
  · intro answer after hset
    have htr : store.userTraits id = some existing := by rw [TraitStore.userTraits, huser]; rfl
    simp only [TraitStore.setTraitsWithVisibility, hactive, htr, bind_eq_ok_iff, okOr_eq_ok_iff,
      mapError_eq_ok_iff, Option.some.injEq] at hset
    obtain ⟨-, -, -, -, submitted, hpa, _, rfl, _, hco, stored, hst, -, -, haf⟩ := hset
    obtain rfl := Except.ok.inj (hschema.symm.trans hco)
    simp only [toStore, bind_eq_ok_iff] at hst
    obtain ⟨_, hap, -, -, hst⟩ := hst
    obtain rfl := Except.ok.inj hst
    obtain ⟨rfl, rfl⟩ := Prod.mk.inj (Except.ok.inj haf)
    exact ⟨submitted, _, hpa, by rw [TraitStore.userTraits, users_withUser]; rfl, apply_selfService hap⟩
  · intro other hot hre
    rw [fst_setTraitsWithVisibility (store.withUser id _) hactive hschema (users_withUser ..),
      fst_setTraitsWithVisibility store hactive hschema huser]
    simp only [toStore_selfService_eq henum _ hvalid hot hre]
    rfl

/-! ### An identity with a score that only administrators see -/

/-- The schema of an object with a score for administrators. -/
def scoreRoot : Json Unit :=
  .object [("properties".toList, .object [("score".toList,
    .object [("x-ironauth".toList, .object [("visibility".toList, .string "admin".toList)])])])]

/-- A document with a score. -/
def scored (high : Bool) : Document Unit where
  value := .object [("score".toList, .bool high)]
  ordered := .object (pairwise_singleton _ _) fun _ hmem => by
    cases mem_singleton.mp hmem
    exact .bool high

/-- A document without one. -/
def named : Document Unit where
  value := .object [("name".toList, .string "n".toList)]
  ordered := .object (pairwise_singleton _ _) fun _ hmem => by
    cases mem_singleton.mp hmem
    exact .string _

theorem scoreRoot_ordered : scoreRoot.Ordered := by
  have ho : ∀ {key : Text} {v : Json Unit}, v.Ordered → (Json.object [(key, v)]).Ordered := by
    intro key v hv
    refine .object (pairwise_singleton _ _) fun f hm => ?_
    cases mem_singleton.mp hm
    exact hv
  exact ho (ho (ho (ho (.string _))))

/-- A reader that knows the texts of two documents. -/
def scoreSerde : Serde Unit Unit where
  parse text :=
    if text = "schema".toList then .ok ⟨scoreRoot, scoreRoot_ordered⟩
    else if text = "named".toList then .ok named
    else .error []
  display _ := []
  same _ _ := true
  asI64 _ := none
  asU64 _ := none
  asF64 _ := none
  lt _ _ := false
  isIntegral _ := false
  displayFloat _ := []

/-- The schema, compiled. -/
def scoreSchema : TraitSchema scoreSerde := ⟨scoreRoot, rfl⟩

/-- A scope with the schema and an identity that has a score. -/
def scoreStore : TraitStore Unit where
  master := true
  active := some ⟨1, "schema".toList⟩
  users id := if id = "u".toList then some ⟨some (scored true), some 1⟩ else none

theorem scoreStore_hides :
    Prod.fst <$> scoreStore.setTraitsWithVisibility scoreSerde true "u".toList "named".toList .selfService = .ok 1 ∧
      Prod.fst <$> (scoreStore.withUser "u".toList ⟨some (scored false), some 1⟩).setTraitsWithVisibility scoreSerde true
          "u".toList "named".toList .selfService =
        Prod.fst <$> scoreStore.setTraitsWithVisibility scoreSerde true "u".toList "named".toList .selfService := by
  have hsc : TraitSchema.compile scoreSerde "schema".toList = .ok scoreSchema := rfl
  have hus : scoreStore.users "u".toList = some ⟨some (scored true), some 1⟩ := rfl
  have hac : scoreStore.active = some ⟨1, "schema".toList⟩ := rfl
  refine ⟨rfl, ?_⟩
  exact (selfService_hides_adminOnly hac hsc rfl hus rfl true _).2 (scored false) rfl rfl

end IronAuth.Store.Traits
