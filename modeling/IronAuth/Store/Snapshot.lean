import IronAuth.Lib.Table
import IronAuth.Lib.Text

/-!
# Snapshots of an environment's configuration

The part of a configuration snapshot that promotion carries: resource servers, policies of dynamic
registration, variables, brands with their assets, locale bundles, versions of custom journeys, and
message templates, each with a natural key that means the same in every environment. `promoted_projection`
normalises what a promotion must not carry, and the revision of a snapshot is a digest of that.

JSON documents are values of a type `J`; writing a document to a column and reading it back gives the
same value. The digest of a projection (canonical JSON, SHA-256, hexadecimal) is a parameter. The
resource types that the projection empties are left out. Texts are ordered by their characters, which
is the order of their bytes in UTF-8.
-/

namespace IronAuth.Store.Promotion

open Lib List

/-! ### Hosts -/

/-- The host without its port. The port of a bracketed address follows the bracket. -/
def withoutPort (host : Text) : Text :=
  if host.head? = some '[' ∧ ']' ∈ host then host.takeWhile (· ≠ ']') ++ [']'] else host.takeWhile (· ≠ ':')

/-- `canonicalize_host`. -/
def canonicalizeHost (raw : Text) : Option Text :=
  let normalized := (Text.trim (withoutPort (Text.trim raw))).toAsciiLowercase
  if normalized = [] then none else some normalized

variable {c d : Char} {t host : Text}

/-- A character that is no letter is the lower case of itself only. -/
theorem toLower_eq_iff (hd : d.isAlpha = false) : c.toLower = d ↔ c = d := by
  have hs : ∀ c : Char, c.isAlpha = false → c.toLower = c := by
    intro c hc
    rw [Char.isAlpha, Bool.or_eq_false_iff] at hc
    exact Char.toLower_eq_of_not_isUpper (by simp [hc.1])
  constructor
  · intro h
    have hc : c.isAlpha = false := by rw [← Char.isAlpha_toLower_eq_isAlpha, h, hd]
    rw [← hs c hc, h]
  · rintro rfl
    exact hs c hd

theorem isAlpha_of_isWhiteSpace (h : Text.isWhiteSpace c = true) : c.isAlpha = false := by
  by_contra hal
  rw [Bool.not_eq_false] at hal
  simp only [Char.isAlpha, Char.isUpper, Char.isLower, Bool.or_eq_true, Bool.and_eq_true, decide_eq_true_eq,
    UInt32.le_iff_toNat_le, ge_iff_le] at hal
  simp only [Text.isWhiteSpace, Bool.or_eq_true, Bool.and_eq_true, decide_eq_true_eq] at h
  have hv : c.toNat = c.val.toNat := rfl
  have hA : 'A'.val.toNat = 65 := rfl
  have hZ : 'Z'.val.toNat = 90 := rfl
  have ha : 'a'.val.toNat = 97 := rfl
  have hz : 'z'.val.toNat = 122 := rfl
  omega

theorem isWhiteSpace_toLower (c : Char) : Text.isWhiteSpace c.toLower = Text.isWhiteSpace c := by
  rw [Bool.eq_iff_iff]
  constructor
  · intro h
    rwa [(toLower_eq_iff (isAlpha_of_isWhiteSpace h)).mp rfl]
  · intro h
    rwa [(toLower_eq_iff (isAlpha_of_isWhiteSpace h)).mpr rfl]

theorem trimmed_toAsciiLowercase (h : Text.Trimmed t) : Text.Trimmed t.toAsciiLowercase := by
  unfold Text.toAsciiLowercase
  refine ⟨?_, ?_⟩
  · rw [List.head?_map]
    intro c hc
    obtain ⟨d, hd, rfl⟩ := Option.mem_map.mp hc
    rw [isWhiteSpace_toLower, h.1 d hd]
  · rw [List.getLast?_map]
    intro c hc
    obtain ⟨d, hd, rfl⟩ := Option.mem_map.mp hc
    rw [isWhiteSpace_toLower, h.2 d hd]

theorem mem_toAsciiLowercase_iff (hd : d.isAlpha = false) {text : Text} : d ∈ text.toAsciiLowercase ↔ d ∈ text := by
  simp [Text.toAsciiLowercase, toLower_eq_iff hd]

theorem head?_toAsciiLowercase_iff (hd : d.isAlpha = false) :
    t.toAsciiLowercase.head? = some d ↔ t.head? = some d := by
  rw [Text.toAsciiLowercase, List.head?_map, Option.map_eq_some_iff]
  simp [toLower_eq_iff hd]

theorem toAsciiLowercase_idem (t : Text) : t.toAsciiLowercase.toAsciiLowercase = t.toAsciiLowercase := by
  simp [Text.toAsciiLowercase, Function.comp_def, Char.toLower_toLower_eq_toLower]

/-- A host that has no port. -/
theorem withoutPort_eq_self_of_bracketed {i : Text} (h : ']' ∉ i) :
    withoutPort ('[' :: i ++ [']']) = '[' :: i ++ [']'] := by
  have hne : ∀ c ∈ '[' :: i, decide (c ≠ ']') = true := by
    intro c hc
    rw [decide_eq_true_eq]
    rcases mem_cons.mp hc with rfl | hc
    · decide
    · exact fun heq => h (heq ▸ hc)
  rw [withoutPort, if_pos ⟨rfl, by simp⟩, takeWhile_append_of_pos hne]
  simp

/-- The first character of a beginning is the first one of the whole. -/
theorem head?_eq_of_isPrefix {s : Text} (h : s <+: t) (hc : s.head? = some c) :
    t.head? = some c := by
  obtain ⟨rest, rfl⟩ := h
  rw [List.head?_append, hc]
  rfl

/-- The normal form of a host has no port to cut off. -/
theorem withoutPort_normalized (hh : Text.Trimmed host) :
    withoutPort (Text.trim (withoutPort host)).toAsciiLowercase = (Text.trim (withoutPort host)).toAsciiLowercase := by
  by_cases hb : host.head? = some '[' ∧ ']' ∈ host
  · obtain ⟨rest, rfl⟩ : ∃ rest, host = '[' :: rest := by
      cases host with
      | nil => cases hb.1
      | cons c rest => exact ⟨rest, by rw [Option.some.inj hb.1]⟩
    have hi : ']' ∉ rest.takeWhile (· ≠ ']') := by
      intro hm
      simpa using mem_takeWhile_imp hm
    have hcu : withoutPort ('[' :: rest) = '[' :: rest.takeWhile (· ≠ ']') ++ [']'] := by
      rw [withoutPort, if_pos hb, takeWhile_cons_of_pos (by decide)]
    have ht : Text.Trimmed ('[' :: rest.takeWhile (· ≠ ']') ++ [']']) := by
      constructor
      · intro c hc
        cases Option.some.inj hc
        decide
      · intro c hc
        rw [List.getLast?_append] at hc
        cases Option.some.inj hc
        decide
    have hl : Text.toAsciiLowercase ('[' :: rest.takeWhile (· ≠ ']') ++ [']']) =
        '[' :: Text.toAsciiLowercase (rest.takeWhile (· ≠ ']')) ++ [']'] := by
      simp [Text.toAsciiLowercase]
    rw [hcu, Text.trim_eq_self ht, hl]
    exact withoutPort_eq_self_of_bracketed fun hm => hi ((mem_toAsciiLowercase_iff (by decide)).mp hm)
  · have hcu : withoutPort host = host.takeWhile (· ≠ ':') := by rw [withoutPort, if_neg hb]
    have hst : withoutPort host <+: host := hcu ▸ takeWhile_prefix _
    have hs : ∀ c ∈ Text.trim (withoutPort host), c ∈ withoutPort host := (Text.trim_isInfix _).subset
    refine (if_neg ?_).trans (takeWhile_eq_self_iff.mpr fun c hc => decide_eq_true ?_)
    · -- a bracket in front was in front of the host already, since the host was trimmed
      rw [head?_toAsciiLowercase_iff (by decide), mem_toAsciiLowercase_iff (by decide)]
      rintro ⟨hhe, hm⟩
      have hd : (withoutPort host).dropWhile Text.isWhiteSpace = withoutPort host :=
        Text.dropWhile_eq_self fun c hc => hh.1 c (head?_eq_of_isPrefix hst hc)
      have hbe := Text.trim_isPrefix (withoutPort host)
      rw [hd] at hbe
      exact hb ⟨head?_eq_of_isPrefix (hbe.trans hst) hhe, hst.subset (hs _ hm)⟩
    · rintro rfl
      have := hs _ ((mem_toAsciiLowercase_iff (by decide)).mp hc)
      rw [hcu] at this
      simpa using mem_takeWhile_imp this

/-- **The canonical form of a canonical host is the host.** -/
theorem canonicalizeHost_idem {raw : Text} (h : canonicalizeHost raw = some host) : canonicalizeHost host = some host := by
  unfold canonicalizeHost at h
  simp only at h
  split_ifs at h with hn
  obtain rfl := Option.some.inj h
  have ht := trimmed_toAsciiLowercase (Text.trimmed_trim (withoutPort (Text.trim raw)))
  unfold canonicalizeHost
  rw [Text.trim_eq_self ht, withoutPort_normalized (Text.trimmed_trim raw), Text.trim_eq_self ht,
    toAsciiLowercase_idem, if_neg hn]

/-- A host in canonical form. -/
def CanonicalHost := { host : Text // canonicalizeHost host = some host }
  deriving DecidableEq

/-- `promoted_host_pattern`: the canonical host of a pattern. A blank pattern names no host. -/
def promotedHostPattern (raw : Option Text) : Option CanonicalHost :=
  (raw.bind canonicalizeHost).pmap Subtype.mk fun _ hhost => by
    obtain ⟨_, _, hcanonical⟩ := Option.bind_eq_some_iff.mp hhost
    exact canonicalizeHost_idem hcanonical

@[simp]
theorem map_val_promotedHostPattern (raw : Option Text) :
    (promotedHostPattern raw).map Subtype.val = raw.bind canonicalizeHost := by
  have hv : ∀ (host : Option Text) (h : ∀ canonical ∈ host, canonicalizeHost canonical = some canonical),
      (host.pmap Subtype.mk h).map Subtype.val = host := by
    intro host h
    cases host <;> rfl
  exact hv _ _

@[simp]
theorem promotedHostPattern_map_val (host : Option CanonicalHost) : promotedHostPattern (host.map Subtype.val) = host := by
  cases host with
  | none => rfl
  | some host =>
    apply Option.map_injective Subtype.val_injective
    rw [map_val_promotedHostPattern]
    exact host.property

/-! ### Snapshots -/

structure ResourceServerSnapshot where
  audience : Text
  tokenFormat : Text
  accessTokenTtlSecs : Option ℤ
  permissionClaimsEnabled : Bool
  deriving DecidableEq

structure DcrPolicySnapshot (J : Type) where
  name : Text
  primitives : J
  deriving DecidableEq

structure VariableSnapshot where
  name : Text
  value : Text
  deriving DecidableEq

structure BrandAssetMetaSnapshot where
  kind : Text
  contentType : Text
  sha256 : Text
  sizeBytes : ℤ
  deriving DecidableEq

structure BrandSnapshot (J : Type) where
  slug : Text
  isDefault : Bool
  productName : Text
  showWordmark : Bool
  brandToken : Option Text
  tokens : J
  tokensDark : Option J
  slots : J
  hostPattern : Option Text
  clientId : Option Text
  assets : List BrandAssetMetaSnapshot
  deriving DecidableEq

structure LocaleBundleSnapshot (J : Type) where
  locale : Text
  isEnvDefault : Bool
  entries : J
  deriving DecidableEq

structure FlowVersionSnapshot (J : Type) where
  journeyId : Text
  version : ℤ
  artifact : J
  pinned : Bool
  deriving DecidableEq

structure MessageTemplateSnapshot where
  kind : Text
  locale : Text
  subject : Text
  bodyText : Text
  bodyHtml : Option Text
  locked : Bool
  deriving DecidableEq

/-- The resources of a snapshot that are promoted. -/
structure SnapshotResources (J : Type) where
  resourceServer : List ResourceServerSnapshot
  dcrPolicy : List (DcrPolicySnapshot J)
  envVariable : List VariableSnapshot
  brand : List (BrandSnapshot J)
  localeBundle : List (LocaleBundleSnapshot J)
  flowVersion : List (FlowVersionSnapshot J)
  messageTemplate : List MessageTemplateSnapshot
  deriving DecidableEq

structure Snapshot (J : Type) where
  schemaVersion : Text
  resources : SnapshotResources J
  deriving DecidableEq

/-- `SNAPSHOT_SCHEMA_VERSION`. -/
def snapshotSchemaVersion : Text := "ironauth.config-snapshot/v1".toList

/-! ### The projection that is promoted -/

variable {J : Type}

/-- `promoted_brand`. -/
def promotedBrand (brand : BrandSnapshot J) : BrandSnapshot J :=
  { brand with
    hostPattern := (promotedHostPattern brand.hostPattern).map Subtype.val
    clientId := none
    assets := sortBy (·.kind) brand.assets }

/-- A version without its pin. -/
def FlowVersionSnapshot.unpinned (version : FlowVersionSnapshot J) : FlowVersionSnapshot J :=
  ⟨version.journeyId, version.version, version.artifact, false⟩

/-- `promoted_projection`. -/
def promotedProjection (snapshot : Snapshot J) : Snapshot J where
  schemaVersion := snapshot.schemaVersion
  resources :=
    { resourceServer := snapshot.resources.resourceServer
      dcrPolicy := snapshot.resources.dcrPolicy
      envVariable := snapshot.resources.envVariable
      brand := snapshot.resources.brand.map promotedBrand
      localeBundle := snapshot.resources.localeBundle
      messageTemplate := snapshot.resources.messageTemplate
      flowVersion := snapshot.resources.flowVersion.map FlowVersionSnapshot.unpinned }

/-- `revision`. -/
def revision {Rev : Type} (digest : Snapshot J → Rev) (snapshot : Snapshot J) : Rev := digest (promotedProjection snapshot)

/-! ### Natural keys of two parts -/

/-- The text of an `i32`. -/
def displayInt (value : ℤ) : Text := if value < 0 then '-' :: Nat.toDigits 10 value.natAbs else Nat.toDigits 10 value.natAbs

/-- The number that a text of digits, at least one, stands for. -/
def parseDigits (text : Text) : Option ℕ :=
  if text ≠ [] ∧ text.all Char.isDigit then some (Nat.ofDigitChars 10 text 0) else none

/-- `i32::from_str`. Only texts of numbers in range are read here, so the range is not checked. -/
def parseInt : Text → Option ℤ
  | [] => none
  | c :: rest =>
    if c = '-' then (parseDigits rest).map fun n : ℕ => -(n : ℤ)
    else if c = '+' then (parseDigits rest).map fun n : ℕ => (n : ℤ)
    else (parseDigits (c :: rest)).map fun n : ℕ => (n : ℤ)

/-- `flow_version_key`. -/
def flowVersionKey (journeyId : Text) (version : ℤ) : Text := journeyId ++ '@' :: displayInt version

/-- `parse_flow_version_key`. -/
def parseFlowVersionKey (key : Text) : Option (Text × ℤ) := do
  let (journeyId, version) ← Text.rsplitOnce (· = '@') key
  let version ← parseInt version
  some (journeyId, version)

/-- `escape_key_segment`. -/
def escapeKeySegment (segment : Text) : Text :=
  (segment.flatMap fun c => if c = '\\' then ['\\', '\\'] else [c]).flatMap fun c => if c = '/' then ['\\', '/'] else [c]

/-- `message_template_key`. -/
def messageTemplateKey (kind locale : Text) : Text := escapeKeySegment kind ++ '/' :: escapeKeySegment locale

/-- The second half of a key, without its escapes. -/
def unescapeKeySegment : Text → Option Text
  | [] => some []
  | '\\' :: c :: rest => (unescapeKeySegment rest).map (c :: ·)
  | '\\' :: [] => none
  | c :: rest => (unescapeKeySegment rest).map (c :: ·)

/-- `split_message_template_key`. -/
def splitMessageTemplateKey : Text → Option (Text × Text)
  | [] => none
  | '/' :: rest => (unescapeKeySegment rest).map fun locale => ([], locale)
  | '\\' :: c :: rest => (splitMessageTemplateKey rest).map fun halves => (c :: halves.1, halves.2)
  | '\\' :: [] => none
  | c :: rest => (splitMessageTemplateKey rest).map fun halves => (c :: halves.1, halves.2)

theorem parseDigits_toDigits (n : ℕ) : parseDigits (Nat.toDigits 10 n) = some n := by
  have ha : (Nat.toDigits 10 n).all Char.isDigit = true :=
    all_eq_true.mpr fun c hc => Nat.isDigit_of_mem_toDigits (by decide) (by decide) hc
  rw [parseDigits, if_pos ⟨Nat.toDigits_ne_nil, ha⟩, Nat.ofDigitChars_ten_toDigits]

theorem parseInt_displayInt (value : ℤ) : parseInt (displayInt value) = some value := by
  unfold displayInt
  split_ifs with hn
  · rw [parseInt, if_pos rfl, parseDigits_toDigits, Option.map_some, Option.some.injEq]
    omega
  · have hd := parseDigits_toDigits value.natAbs
    cases ht : Nat.toDigits 10 value.natAbs with
    | nil => exact absurd ht Nat.toDigits_ne_nil
    | cons c rest =>
      -- the first character is a digit, not a sign
      have hc : c.isDigit = true := Nat.isDigit_of_mem_toDigits (by decide) (by decide) (ht ▸ mem_cons_self ..)
      have hm : c ≠ '-' := by
        rintro rfl
        exact absurd hc (by decide)
      have hp : c ≠ '+' := by
        rintro rfl
        exact absurd hc (by decide)
      rw [ht] at hd
      rw [parseInt, if_neg hm, if_neg hp, hd, Option.map_some, Option.some.injEq]
      omega

theorem at_not_mem_displayInt (v : ℤ) : ∀ c ∈ displayInt v, decide (c = '@') = false := by
  have hd : ∀ n : ℕ, '@' ∉ Nat.toDigits 10 n := fun n hm =>
    absurd (Nat.isDigit_of_mem_toDigits (by decide) (by decide) hm) (by decide)
  intro c hc
  rw [decide_eq_false_iff_not]
  rintro rfl
  unfold displayInt at hc
  split_ifs at hc
  · rcases mem_cons.mp hc with heq | hc
    · exact absurd heq (by decide)
    · exact hd _ hc
  · exact hd _ hc

/-- **The key of a version is read back as it was written.** -/
theorem parseFlowVersionKey_flowVersionKey (j : Text) (ver : ℤ) :
    parseFlowVersionKey (flowVersionKey j ver) = some (j, ver) := by
  rw [parseFlowVersionKey, flowVersionKey, Text.rsplitOnce_append (at_not_mem_displayInt ver) (by decide)]
  simp [parseInt_displayInt]

/-- One character of a segment, escaped. -/
def escapeKeyChar (c : Char) : Text := if c = '\\' then ['\\', '\\'] else if c = '/' then ['\\', '/'] else [c]

theorem escapeKeySegment_eq (s : Text) : escapeKeySegment s = s.flatMap escapeKeyChar := by
  rw [escapeKeySegment, flatMap_assoc]
  refine flatMap_congr fun c _ => ?_
  unfold escapeKeyChar
  by_cases hc : c = '\\'
  · subst hc; decide
  · simp [hc]

theorem unescapeKeySegment_escapeKeySegment (segment : Text) : unescapeKeySegment (escapeKeySegment segment) = some segment := by
  rw [escapeKeySegment_eq]
  induction segment with
  | nil => rfl
  | cons c segment ih =>
    rw [flatMap_cons, escapeKeyChar]
    split_ifs with hb hs
    · subst hb
      simp [unescapeKeySegment, ih]
    · subst hs
      simp [unescapeKeySegment, ih]
    · rw [singleton_append, unescapeKeySegment, ih]
      · rfl
      · exact fun d rest heq _ => hb heq
      · exact fun heq => absurd heq hb

/-- **The key of a template is read back as it was written.** -/
theorem splitMessageTemplateKey_messageTemplateKey (k l : Text) :
    splitMessageTemplateKey (messageTemplateKey k l) = some (k, l) := by
  rw [messageTemplateKey, escapeKeySegment_eq k]
  induction k with
  | nil => simp [splitMessageTemplateKey, unescapeKeySegment_escapeKeySegment]
  | cons c k ih =>
    rw [flatMap_cons, append_assoc, escapeKeyChar]
    split_ifs with hb hs
    · subst hb
      simp [splitMessageTemplateKey, ih]
    · subst hs
      simp [splitMessageTemplateKey, ih]
    · rw [singleton_append, splitMessageTemplateKey, ih]
      · rfl
      · exact hs
      · exact fun d rest heq _ => hb heq
      · exact fun heq => absurd heq hb

theorem flowVersionKey_injective : Function.Injective fun natural : Text × ℤ => flowVersionKey natural.1 natural.2 := by
  intro natural other h
  have hp := congrArg parseFlowVersionKey h
  simpa only [parseFlowVersionKey_flowVersionKey, Option.some.injEq] using hp

theorem messageTemplateKey_injective : Function.Injective fun natural : Text × Text => messageTemplateKey natural.1 natural.2 := by
  intro natural other h
  have hs := congrArg splitMessageTemplateKey h
  simpa only [splitMessageTemplateKey_messageTemplateKey, Option.some.injEq] using hs

/-! ### Snapshots in the order of their keys -/

/-- The natural key of a version. -/
def FlowVersionSnapshot.key (version : FlowVersionSnapshot J) : Text := flowVersionKey version.journeyId version.version

/-- The natural key of a template. -/
def MessageTemplateSnapshot.key (template : MessageTemplateSnapshot) : Text := messageTemplateKey template.kind template.locale

theorem FlowVersionSnapshot.key_of_find {r : List (FlowVersionSnapshot J)} {key : Text} {v : FlowVersionSnapshot J}
    (h : findKey FlowVersionSnapshot.key key r = some v) : key = flowVersionKey v.journeyId v.version :=
  (key_of_findKey h).symm

theorem MessageTemplateSnapshot.key_of_find {r : List MessageTemplateSnapshot} {key : Text} {t : MessageTemplateSnapshot}
    (h : findKey MessageTemplateSnapshot.key key r = some t) : key = messageTemplateKey t.kind t.locale :=
  (key_of_findKey h).symm

/-- A version is found under its natural key as it is under the parts of it. -/
theorem FlowVersionSnapshot.findKey_key (n : Text × ℤ) (rows : List (FlowVersionSnapshot J)) :
    findKey FlowVersionSnapshot.key (flowVersionKey n.1 n.2) rows =
      findKey (fun version => (version.journeyId, version.version)) n rows := by
  simp only [findKey, ← flowVersionKey_injective.eq_iff]
  rfl

/-- A template is found under its natural key as it is under the parts of it. -/
theorem MessageTemplateSnapshot.findKey_key (n : Text × Text) (rows : List MessageTemplateSnapshot) :
    findKey MessageTemplateSnapshot.key (messageTemplateKey n.1 n.2) rows =
      findKey (fun t => (t.kind, t.locale)) n rows := by
  simp only [findKey, ← messageTemplateKey_injective.eq_iff]
  rfl

/-- The natural keys are unique, and each collection is in the order of its keys. -/
structure KeyOrdered (snapshot : Snapshot J) : Prop where
  resourceServer : (snapshot.resources.resourceServer.map (·.audience)).Pairwise (· < ·)
  dcrPolicy : (snapshot.resources.dcrPolicy.map (·.name)).Pairwise (· < ·)
  envVariable : (snapshot.resources.envVariable.map (·.name)).Pairwise (· < ·)
  brand : (snapshot.resources.brand.map (·.slug)).Pairwise (· < ·)
  assets : ∀ brand ∈ snapshot.resources.brand, (brand.assets.map (·.kind)).Nodup
  localeBundle : (snapshot.resources.localeBundle.map (·.locale)).Pairwise (· < ·)
  flowVersion : (snapshot.resources.flowVersion.map fun version => toLex (version.journeyId, version.version)).Pairwise (· < ·)
  messageTemplate : (snapshot.resources.messageTemplate.map fun template => toLex (template.kind, template.locale)).Pairwise (· < ·)

theorem nodup_of_pairwise_lt {α ι : Type} [LinearOrder ι] {key : α → ι} {r : List α} (h : (r.map key).Pairwise (· < ·)) :
    (r.map key).Nodup := h.imp ne_of_lt

/-- Keys of two parts are unique as texts when they are as pairs. -/
theorem nodup_map_name {α β γ : Type} {p : α → β × γ} {n : β × γ → Text} (hn : Function.Injective n)
    {r : List α} (h : (r.map fun row => toLex (p row)).Nodup) : (r.map fun row => n (p row)).Nodup := by
  have hi : Function.Injective fun natural : β ×ₗ γ => n (ofLex natural) := hn.comp ofLex.injective
  have hm := h.map hi
  rwa [map_map] at hm

namespace KeyOrdered

variable {snapshot : Snapshot J}

theorem flowVersion_nodup (h : KeyOrdered snapshot) : (snapshot.resources.flowVersion.map FlowVersionSnapshot.key).Nodup :=
  nodup_map_name flowVersionKey_injective (nodup_of_pairwise_lt h.flowVersion)

theorem messageTemplate_nodup (h : KeyOrdered snapshot) :
    (snapshot.resources.messageTemplate.map MessageTemplateSnapshot.key).Nodup :=
  nodup_map_name messageTemplateKey_injective (nodup_of_pairwise_lt h.messageTemplate)

end KeyOrdered

end IronAuth.Store.Promotion
