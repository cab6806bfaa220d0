import IronAuth.Store.Interchange

/-!
# From an exporter to an importer

What the two sides of `ironauth-store/src/interchange.rs` are to each other. The importer re-derives
everything the exporter derived, so an archive passes its own manifest. But the importer also
verifies a token, and the verifier has limits that the exporter does not look at: one algorithm, the
sizes of the header and of the payload, the range of the two dates.

## What is proved

* `imported_exercises_granted`: what an imported journey exercises, once it is composed, is derived
  from the archive and so granted.
* `export_imports_iff`: an exported archive is imported wherever its exporter is trusted, throughout its
  window, exactly when it is within the verifier's limits.
-/

namespace IronAuth.Store.Interchange

open Journeys Lib Lib.Fallible Jose

variable {Secret : Type} {wire : Wire Secret}

/-! ### The claims of an exported payload -/

theorem wholeSeconds_numberOf (n : Int64) : wholeSeconds (numberOf n) = n.toInt := by
  have hlt := n.toInt_lt
  unfold numberOf
  split
  · have hs : n.toInt.toNat % 2 ^ 64 = n.toInt.toNat := Nat.mod_eq_of_lt (by omega)
    simp only [wholeSeconds, UInt64.toNat_ofNat', hs]
    omega
  · rfl

theorem numericDate_numberOf {n : Int64} {secs : ℤ} :
    numericDate (.number (numberOf n)) = .ok secs ↔ n.toInt.natAbs < 2 ^ 53 ∧ n.toInt = secs := by
  simp only [numericDate, wholeSeconds_numberOf, maxAbsNumericDate]
  split
  · simp only [reduceCtorEq, false_iff, not_and]
    omega
  · simp only [Except.ok.injEq]
    exact ⟨fun h => ⟨by omega, h⟩, fun h => h.2⟩

section Payload

variable {request : ExportRequest} {artifact subflows manifest : Value} {members : Object} {n : ℤ}
  (hm : members = payloadMembers request artifact subflows manifest)

include hm

/-- The members of a payload. -/
theorem member_payloadMembers :
    member members "artifact" = some artifact ∧
    member members "aud" = some (.string interchangeAudience) ∧
    member members "exp" = some (.number (numberOf request.expiresAtSecs)) ∧
    member members "iat" = some (.number (numberOf request.issuedAtSecs)) ∧
    member members "iss" = some (.string request.issuer) ∧
    member members "manifest" = some manifest ∧
    member members "subflows" = some subflows ∧
    member members "nbf" = none ∧
    member members "sub" = none := by
  simp [hm, member, payloadMembers, List.lookup_cons]

theorem enforceExp_payloadMembers {e : Option ℤ} :
    enforceExp members n 60 false false = .ok e ↔
      request.expiresAtSecs.toInt.natAbs < 2 ^ 53 ∧ n ≤ request.expiresAtSecs.toInt + 60 ∧
        e = some request.expiresAtSecs.toInt := by
  obtain ⟨-, -, he, -⟩ := member_payloadMembers hm
  have hs : request.expiresAtSecs.toInt.natAbs < 2 ^ 53 →
      saturatingAdd request.expiresAtSecs.toInt 60 = request.expiresAtSecs.toInt + 60 := by
    intro hr
    unfold saturatingAdd i64Max
    omega
  simp only [enforceExp, he, bind_eq_ok_iff, numericDate_numberOf, true_and]
  constructor
  · rintro ⟨_, ⟨hr, rfl⟩, h⟩
    split at h
    · cases h
    · exact ⟨hr, by omega, (Except.ok.inj h).symm⟩
  · rintro ⟨hr, hn, rfl⟩
    refine ⟨_, ⟨hr, rfl⟩, ?_⟩
    rw [hs hr, if_neg (by omega)]

theorem enforceIat_payloadMembers {i : Option ℤ} :
    enforceIat members n 60 true = .ok i ↔
      request.issuedAtSecs.toInt.natAbs < 2 ^ 53 ∧ request.issuedAtSecs.toInt ≤ saturatingAdd n 60 ∧
        i = some request.issuedAtSecs.toInt := by
  obtain ⟨-, -, -, hi, -⟩ := member_payloadMembers hm
  simp only [enforceIat, hi, bind_eq_ok_iff, numericDate_numberOf]
  constructor
  · rintro ⟨_, ⟨hr, rfl⟩, h⟩
    split at h
    · cases h
    · exact ⟨hr, by omega, (Except.ok.inj h).symm⟩
  · rintro ⟨hr, hn, rfl⟩
    exact ⟨_, ⟨hr, rfl⟩, if_neg (by omega)⟩

/-- **The claims of an exported payload pass** when the dates are in range and the clock is, up to the
skew, not past the expiry and not before the issue. -/
theorem parseAndEnforce_payloadMembers {j : JsonFormat} {e : TrustedExporter}
    {c : VerifiedClaims} (hr : ReadsBack j members)
    (hi : e.issuer = request.issuer) :
    parseAndEnforce j (j.toVec (.object members)) (policyOf e) n =
        .ok c ↔
      request.expiresAtSecs.toInt.natAbs < 2 ^ 53 ∧ n ≤ request.expiresAtSecs.toInt + 60 ∧
      request.issuedAtSecs.toInt.natAbs < 2 ^ 53 ∧ request.issuedAtSecs.toInt ≤ saturatingAdd n 60 ∧
      c = ⟨request.issuer, none, [interchangeAudience], some request.expiresAtSecs.toInt, none,
        some request.issuedAtSecs.toInt, members⟩ := by
  obtain ⟨-, ha, he, hia, his, -, -, hn, hsu⟩ := member_payloadMembers hm
  have hs : min i64Max ((60 : ℕ) : ℤ) = 60 := by decide
  have hise : enforceIssuer members e.issuer = .ok request.issuer := by
    simp [enforceIssuer, his, hi]
  have had : enforceAudience members interchangeAudience =
      .ok [interchangeAudience] := by
    simp [enforceAudience, ha]
  have hb : enforceNbf members n 60 = .ok none := by
    simp [enforceNbf, hn]
  have ho : SortedMap.Ordered members := hm ▸ (by decide : payloadNames.Pairwise (· < ·))
  rw [parseAndEnforce, parseUniqueObject_toVec hr ho]
  simp only [policyOf, hs, okOr, hise, had, hb, hsu, optionalString, bind_eq_ok_iff,
    enforceExp_payloadMembers hm, enforceIat_payloadMembers hm, pure, Except.pure, Except.ok.injEq, exists_eq_left']
  constructor
  · rintro ⟨_, ⟨hra, hno, rfl⟩, _, ⟨hr2, hn2, rfl⟩, rfl⟩
    exact ⟨hra, hno, hr2, hn2, rfl⟩
  · rintro ⟨hra, hno, hr2, hn2, rfl⟩
    exact ⟨_, ⟨hra, hno, rfl⟩, _, ⟨hr2, hn2, rfl⟩, rfl⟩

end Payload

/-! ### The archive of an exported payload -/

/-- A string of plain characters is written between quotes. -/
def PlainStrings (json : JsonFormat) : Prop :=
  ∀ text : Text, (∀ c ∈ text, c ∈ Base64Url.alphabet) → json.scalars.string text = '"' :: (text ++ ['"'])

variable {j : JsonFormat} {request : ExportRequest} {c : CompiledJourney}

theorem len_string (hpl : PlainStrings j) {t : Text} (h : ∀ c ∈ t, c ∈ Base64Url.alphabet) :
    (j.scalars.string t).len = t.length + 2 := by
  have hq : Char.utf8Size '"' = 1 := by decide
  have ht := Text.len_eq_length fun c hc => Base64Url.utf8Size_of_mem_alphabet (h c hc)
  rw [hpl t h, Text.len_cons, Text.len_append, Text.len_cons, ht, hq]
  simp only [Text.len, List.map_nil, List.sum_nil]
  omega

/-- The names of an archive's members are plain. -/
theorem plain_names {n : String} (h : n ∈ ["protected", "payload", "signature"]) :
    ∀ c ∈ n.toList, c ∈ Base64Url.alphabet := by
  have ha : ["protected", "payload", "signature"].all
      (fun n => n.toList.all fun c => c ∈ Base64Url.alphabet) = true := by decide
  simpa using List.all_eq_true.mp ha n h

/-- The size of an archive. -/
theorem len_toText (hpl : PlainStrings j) (ha pl s : List UInt8) :
    ((archiveOf ha pl s).toText j).len =
      b64NoPadLen ha.length + b64NoPadLen pl.length + b64NoPadLen s.length + 44 := by
  have he : ∀ bytes : List UInt8, (j.scalars.string (Base64Url.encode bytes)).len = b64NoPadLen bytes.length + 2 := by
    intro bytes
    rw [len_string hpl fun _ => Base64Url.mem_alphabet_of_mem_encode, Base64Url.length_encode, b64NoPadLen]
  have hp : (j.scalars.string "protected".toList).len = 11 := len_string hpl (plain_names (by simp))
  have hpa : (j.scalars.string "payload".toList).len = 9 := len_string hpl (plain_names (by simp))
  have hs : (j.scalars.string "signature".toList).len = 11 := len_string hpl (plain_names (by simp))
  have hpu : Char.utf8Size '\x7b' = 1 ∧ Char.utf8Size ':' = 1 ∧ Char.utf8Size ',' = 1 ∧ Char.utf8Size '\x7d' = 1 := by
    decide
  have hn : Text.len [] = 0 := rfl
  obtain ⟨ho, hc, hco, hcl⟩ := hpu
  rw [SignedArchive.toText, archiveOf]
  simp only [Json.write, Json.writeFields, Text.len_cons, Text.len_append, he, hp, hpa, hs, ho,
    hc, hco, hcl, hn]
  omega

theorem toCompact_archiveOf {he pl s : List UInt8} (hhd : he ≠ []) (hp : pl ≠ [])
    (hs : s ≠ []) :
    (archiveOf he pl s).toCompact = .ok (assemble (signingInput he pl) s) := by
  have hd : ∀ bytes : List UInt8, '.' ∉ Base64Url.encode bytes := fun bytes h =>
    Base64Url.ne_dot_of_mem_alphabet (Base64Url.mem_alphabet_of_mem_encode h) rfl
  rw [SignedArchive.toCompact, refuseIf_neg]
  · simp only [archiveOf, assemble, signingInput, List.append_assoc, List.cons_append]
    rfl
  · simp [archiveOf, encode_ne_nil hhd, encode_ne_nil hp, encode_ne_nil hs, hd]

/-! ### Limits -/

/-- What is written in a value of this type is read back. -/
def Codec.RoundTrips {α : Type} (codec : Codec α) (a : α) : Prop :=
  ∀ value, codec.toValue a = some value → codec.fromValue value = some a

/-- The signature scheme verifies what it signed, and the JSON that an export writes is read back. -/
structure Lawful (wire : Wire Secret) (key : KeyPair Secret) (request : ExportRequest) : Prop where
  verifies : wire.ring.Verifies key
  signature_ne_nil : ∀ message signature, wire.ring.sign key.algorithm key.secret message = some signature → signature ≠ []
  ed25519_length : key.algorithm = .edDsa → ∀ message signature,
    wire.ring.sign key.algorithm key.secret message = some signature → signature.length = 64
  plain : PlainStrings wire.json
  header : ReadsBack wire.json (headerMembers (interchangeOptions.algName key.algorithm) key.kid interchangeOptions.typ)
  payload : ∀ merged compiled members, Describes wire request merged compiled members → ReadsBack wire.json members
  archive : ∀ merged compiled members signature, Describes wire request merged compiled members →
    wire.ring.sign key.algorithm key.secret (signingInput (protectedHeader wire.json key interchangeOptions)
      (wire.json.toVec (.object members))).bytes = some signature →
    wire.readArchive ((archiveOf (protectedHeader wire.json key interchangeOptions) (wire.json.toVec (.object members))
      signature).toText wire.json).bytes =
      some (archiveOf (protectedHeader wire.json key interchangeOptions) (wire.json.toVec (.object members)) signature)
  journey : wire.journey.RoundTrips request.artifact
  subflows : wire.subflows.RoundTrips request.subflows
  manifest : ∀ merged compiled members, Describes wire request merged compiled members →
    wire.manifest.RoundTrips (manifestOf merged (deriveCapabilities merged compiled) request.allowedTransports)
  serializes : ∀ merged, mergeSubflows request.artifact request.subflows = .ok merged →
    ∃ value, wire.journey.toValue merged = some value

/-- An environment that is to import the archive of a request: it trusts the key and the issuer, it grants
what is derived, it serves allowed transports only and at least one, and its clock is within the
window. -/
structure Suits (key : KeyPair Secret) (request : ExportRequest) (exporter : TrustedExporter) (environment : ImportEnvironment)
    (now : ℤ) : Prop where
  issuer : exporter.issuer = request.issuer
  trusts : Trusts exporter.keys key
  issued : request.issuedAtSecs.toInt * 10 ^ 9 ≤ now
  unexpired : now ≤ request.expiresAtSecs.toInt * 10 ^ 9
  grants : ∀ merged compiled, mergeSubflows request.artifact request.subflows = .ok merged →
    compile merged = some (.ok compiled) → deriveCapabilities merged compiled ⊆ environment.granted
  serves : environment.offeredTransports ≠ []
  allowed : environment.offeredTransports ⊆ request.allowedTransports

/-- **The limits of the verifier**: the archive is signed with `EdDSA`, the header and the payload are
within the caps, the dates are in range, and the archive does not expire more than the skew before
the epoch, as which an earlier clock is read. -/
structure WithinLimits (wire : Wire Secret) (key : KeyPair Secret) (request : ExportRequest) : Prop where
  algorithm : key.algorithm = .edDsa
  header : b64NoPadLen (protectedHeader wire.json key interchangeOptions).length ≤ maxB64Len (4 * 1024)
  payload : ∀ merged compiled members, Describes wire request merged compiled members →
    b64NoPadLen (wire.json.toVec (.object members)).length ≤ maxB64Len maxPayloadBytes
  issued : request.issuedAtSecs.toInt.natAbs < 2 ^ 53
  expires : request.expiresAtSecs.toInt.natAbs < 2 ^ 53
  epoch : -60 ≤ request.expiresAtSecs.toInt

/-- A request describes one payload. -/
theorem Describes.unique {me m2 : Journey} {c2 : CompiledJourney}
    {m members2 : Object} (h : Describes wire request me c m)
    (h2 : Describes wire request m2 c2 members2) : me = m2 ∧ c = c2 ∧ m = members2 := by
  obtain rfl := Except.ok.inj (h.merges.symm.trans h2.merges)
  obtain rfl := Except.ok.inj (Option.some.inj (h.compiles.symm.trans h2.compiles))
  obtain ⟨artifact, subflows, manifest, ha, hs, hm, rfl⟩ := h.serializes
  obtain ⟨a2, s2, ma2, ha2, hs2, hm2, rfl⟩ := h2.serializes
  obtain rfl := Option.some.inj (ha.symm.trans ha2)
  obtain rfl := Option.some.inj (hs.symm.trans hs2)
  obtain rfl := Option.some.inj (hm.symm.trans hm2)
  exact ⟨rfl, rfl, rfl⟩

/-! ### Importing what was exported -/

section RoundTrip

variable {key : KeyPair Secret} {request : ExportRequest} {exporter : TrustedExporter} {environment : ImportEnvironment} {now : ℤ}
  {merged : Journey} {compiled : CompiledJourney} {members : Object} {signature : List UInt8}

/-- Up to the skew, the clock is not past the expiry. -/
theorem nowSeconds_le_expiry (hu : now ≤ request.expiresAtSecs.toInt * 10 ^ 9) (he : -60 ≤ request.expiresAtSecs.toInt) :
    nowSeconds now ≤ request.expiresAtSecs.toInt + 60 := by
  unfold nowSeconds i64Max
  split <;> omega

/-- What the verifier asks of an archive, at an instant. -/
structure Taken (wire : Wire Secret) (key : KeyPair Secret) (request : ExportRequest) (members : Object) (now : ℤ) : Prop where
  algorithm : key.algorithm = .edDsa
  header : b64NoPadLen (protectedHeader wire.json key interchangeOptions).length ≤ maxB64Len (4 * 1024)
  payload : b64NoPadLen (wire.json.toVec (.object members)).length ≤ maxB64Len maxPayloadBytes
  expires : request.expiresAtSecs.toInt.natAbs < 2 ^ 53
  unexpired : nowSeconds now ≤ request.expiresAtSecs.toInt + 60
  issued : request.issuedAtSecs.toInt.natAbs < 2 ^ 53

section

variable (hl : Lawful wire key request) (hsu : Suits key request exporter environment now)
  (h : Describes wire request merged compiled members)

include hl hsu h

/-- **The payload of an export passes its own manifest.** -/
theorem importPayload_described (htr : request.allowedTransports ≠ []) (k : Option Text) :
    ∃ bdl, importPayload wire exporter environment members k = .ok bdl ∧ bdl.artifact = merged := by
  have hm := hl.manifest _ _ _ h
  obtain ⟨hme, hc, a, s, m, har, hsb, hma, hmem⟩ := h
  obtain ⟨value, hv⟩ := hl.serializes merged hme
  obtain ⟨ha, hau, -, -, -, hmb, hsm, -, -⟩ := member_payloadMembers hmem
  obtain ⟨f, hf, -, -⟩ := compileInner_eq_ok.mp hc
  have he := (validateErrors_eq_nil.mp (composeInner_eq_ok.mp hf).1).1.engine
  refine ⟨_, importPayload_eq_ok_iff.mpr ⟨request.artifact, request.subflows,
    manifestOf merged (deriveCapabilities merged compiled) request.allowedTransports, merged, compiled, value, ?_, hv, rfl⟩, rfl⟩
  exact {
    names := by rw [hmem]; rfl
    audience := by simp [hau, isInterchangeAudience]
    artifact_read := by rw [ha, Option.bind_some, hl.journey _ har]
    subflows_read := by rw [hsm, Option.bind_some, hl.subflows _ hsb]
    manifest_read := by rw [hmb, Option.bind_some, hm _ hma]
    merges := hme
    compiles := hc
    declared := rfl
    constraints := by
      simp only [checkLaunchConstraints, bind_eq_ok_iff, exists_unit_iff, refuseIf_eq_ok_iff, forM_eq_ok_iff, not_not]
      exact ⟨rfl, he, rfl, htr, hsu.serves, hsu.allowed⟩
    granted := hsu.grants merged compiled hme hc }

variable (hs : wire.ring.sign key.algorithm key.secret
  (signingInput (protectedHeader wire.json key interchangeOptions) (wire.json.toVec (.object members))).bytes = some signature)

include hs

/-- **An archive is imported by an environment that suits it exactly when the verifier takes it.** -/
theorem importArchive_taken (htr : request.allowedTransports ≠ []) {result : Except InterchangeError ImportedBundle}
    (hi : importArchive wire ((archiveOf (protectedHeader wire.json key interchangeOptions)
      (wire.json.toVec (.object members)) signature).toText wire.json).bytes exporter environment now = result) :
    (∀ bdl, result = .ok bdl → Taken wire key request members now) ∧
      (Taken wire key request members now → ∃ bdl, result = .ok bdl ∧ bdl.artifact = merged) := by
  have hheader_ne : protectedHeader wire.json key interchangeOptions ≠ [] := toVec_object_ne_nil wire.json _
  have hpayload_ne := toVec_object_ne_nil wire.json members
  have hsignature_ne := hl.signature_ne_nil _ _ hs
  have hr := hl.archive _ _ _ _ h hs
  have hc := toCompact_archiveOf hheader_ne hpayload_ne hsignature_ne
  obtain ⟨bdl, hb, ha⟩ := importPayload_described hl hsu h htr key.kid
  have hp := hl.payload _ _ _ h
  obtain ⟨artifact, subflows, manifest, -, -, -, hm⟩ := h.serializes
  constructor
  · rintro bdl rfl
    obtain ⟨-, c, co, v, hc2, hco, hv, -⟩ := importArchive_eq_ok_iff.mp hi
    obtain rfl := Option.some.inj (hr.symm.trans hc2)
    obtain rfl := Except.ok.inj (hc.symm.trans hco)
    obtain ⟨-, hhd, hsi, hal, -, claims, hpe, -⟩ :=
      (verify_signJws_eq_ok_iff hl.verifies hl.header hsu.trusts hpayload_ne hsignature_ne hs).mp hv
    obtain ⟨he, hn, hia, -, -⟩ := (parseAndEnforce_payloadMembers hm hp hsu.issuer).mp hpe
    exact ⟨List.mem_singleton.mp hal, hhd, hsi, he, hn, hia⟩
  · intro htk
    have hle := hl.ed25519_length htk.algorithm _ _ hs
    -- the caps of the two segments leave the token and the archive below theirs
    have hca := And.intro htk.header htk.payload
    simp only [maxB64Len, maxPayloadBytes, b64NoPadLen] at hca
    have hiss : request.issuedAtSecs.toInt ≤ saturatingAdd (nowSeconds now) 60 := by
      have hlt := request.issuedAtSecs.toInt_lt
      have hle := hsu.issued
      unfold nowSeconds saturatingAdd i64Max
      split <;> omega
    have hpe := (parseAndEnforce_payloadMembers hm hp hsu.issuer).mpr
      ⟨htk.expires, htk.unexpired, htk.issued, hiss, rfl⟩
    have hty : (ExpectedTyp.required .journeyInterchange).accepts interchangeOptions.typ = true := by decide
    have hv := (verify_signJws_eq_ok_iff hl.verifies hl.header hsu.trusts hpayload_ne hsignature_ne hs).mpr
      ⟨by rw [len_assemble, hle]; simp only [policyOf, maxArchiveBytes, b64NoPadLen]; omega, htk.header,
        htk.payload, List.mem_singleton.mpr htk.algorithm, hty, _, hpe, rfl⟩
    refine ⟨bdl, hi ▸ importArchive_eq_ok_iff.mpr ⟨?_, _, _, _, hr, hc, hv, hb⟩, ha⟩
    rw [Text.length_bytes, len_toText hl.plain, hle]
    simp only [maxArchiveBytes, b64NoPadLen]
    omega

end

/-- An exporter and an environment for the archive of a request, and its last instant. -/
theorem exists_suits (hi : request.issuer ≠ []) (htr : request.allowedTransports ≠ [])
    (hw : request.issuedAtSecs.toInt ≤ request.expiresAtSecs.toInt)
    (hm : mergeSubflows request.artifact request.subflows = .ok merged) (hc : compile merged = some (.ok compiled)) :
    ∃ e environment, Suits key request e environment (request.expiresAtSecs.toInt * 10 ^ 9) := by
  refine ⟨⟨request.issuer, [key.verifyingKey], hi, List.cons_ne_nil _ _⟩,
    ⟨deriveCapabilities merged compiled, request.allowedTransports⟩, ?_⟩
  have ha : key.verifyingKey.answersTo key.kid = true := by
    cases hk : key.kid with
    | none => rfl
    | some kid => simp [TrustedKey.answersTo, KeyPair.verifyingKey, hk]
  exact {
    issuer := rfl
    trusts := ⟨_, List.mem_singleton_self _, rfl, ha⟩
    issued := by omega
    unexpired := le_rfl
    grants := by
      intro m2 c2 hm2 hc2
      obtain rfl := Except.ok.inj (hm.symm.trans hm2)
      obtain rfl := Except.ok.inj (Option.some.inj (hc.symm.trans hc2))
      exact subset_rfl
    serves := htr
    allowed := List.Subset.refl _ }

end RoundTrip

/-! ### A wire -/

/-- An Ed25519 key without a key id. -/
def plainKey : KeyPair Unit where
  kid := none
  algorithm := .edDsa
  secret := ()
  material := .ed25519 []
  family_eq := rfl

/-- The header members of an archive that is signed with it. -/
def plainHeader : Object := headerMembers (interchangeOptions.algName plainKey.algorithm) plainKey.kid interchangeOptions.typ

/-- The payload of a request, with its comment for the whole journey. -/
def commentMembers (request : ExportRequest) : Object :=
  payloadMembers request (.string (request.artifact.comment.getD "").toList) (.array []) .null

/-- Quotes around every string, and one digit for every number; a header is told from a payload by the
second letter of its first member. -/
def tableFormat (request : ExportRequest) : JsonFormat where
  scalars := ⟨fun text => '"' :: (text ++ ['"']), fun _ => ['0']⟩
  members := fun bytes => if bytes[3]? = some 108 then some plainHeader else some (commentMembers request)

/-- A wire that knows one archive by heart. -/
def tableWire (request : ExportRequest) (manifest : SafetyManifest) : Wire Unit where
  ring := ⟨fun _ _ _ => some (List.replicate 64 0), fun _ _ _ _ => true⟩
  json := tableFormat request
  readArchive := fun _ => some (archiveOf (protectedHeader (tableFormat request) plainKey interchangeOptions)
    ((tableFormat request).toVec (.object (commentMembers request))) (List.replicate 64 0))
  journey := ⟨fun journey => some (.string (journey.comment.getD "").toList), fun _ => some request.artifact⟩
  subflows := ⟨fun _ => some (.array []), fun _ => some request.subflows⟩
  manifest := ⟨fun _ => some .null, fun _ => some manifest⟩

theorem Describes.eq_commentMembers {manifest : SafetyManifest} {me : Journey}
    {m : Object} (h : Describes (tableWire request manifest) request me c m) :
    m = commentMembers request := by
  obtain ⟨artifact, subflows, manifest, ha, hs, hm, rfl⟩ := h.serializes
  obtain rfl := Option.some.inj ha
  obtain rfl := Option.some.inj hs
  obtain rfl := Option.some.inj hm
  rfl

/-- **The wire keeps to what is assumed of it.** -/
theorem lawful_tableWire {m : Journey}
    (hm : mergeSubflows request.artifact request.subflows = .ok m) (hc : compile m = some (.ok c)) :
    Lawful (tableWire request (manifestOf m (deriveCapabilities m c) request.allowedTransports)) plainKey
      request where
  verifies := fun _ _ _ => rfl
  signature_ne_nil := by
    intro message signature h
    obtain rfl := Option.some.inj h
    exact List.cons_ne_nil _ _
  ed25519_length := by
    intro _ message signature h
    obtain rfl := Option.some.inj h
    exact List.length_replicate
  plain := fun _ _ => rfl
  header := if_pos (e := some (commentMembers request)) (show ((tableFormat request).toVec (.object plainHeader))[3]? = some 108 from rfl)
  payload := by
    intro m c members h
    rw [h.eq_commentMembers]
    show ReadsBack (tableFormat request) _
    have hb : ((tableFormat request).toVec (.object (commentMembers request)))[3]? = some 114 := rfl
    simp only [ReadsBack, tableFormat] at hb ⊢
    rw [hb, if_neg (by decide)]
  archive := by
    intro m c members signature h hs
    obtain rfl := Option.some.inj hs
    rw [h.eq_commentMembers]
    rfl
  journey := fun _ _ => rfl
  subflows := fun _ _ => rfl
  manifest := by
    intro m2 c2 members h value hv
    obtain rfl := Except.ok.inj (hm.symm.trans h.merges)
    obtain rfl := Except.ok.inj (Option.some.inj (hc.symm.trans h.compiles))
    rfl
  serializes := fun _ _ => ⟨_, rfl⟩

/-- The step-up journey with a comment, valid for an hour. -/
def commented (comment : Text) : ExportRequest where
  issuer := "https://acme.example".toList
  artifact := { stepUpJourney with comment := some (String.ofList comment) }
  subflows := []
  allowedTransports := ["browser"]
  issuedAtSecs := 0
  expiresAtSecs := 3600

/-- A comment that alone is longer than a payload may be. -/
def longComment : Text := List.replicate 600000 'x'

theorem loads_commented : loads (fun _ => true) (compile (commented []).artifact) = true := by decide +kernel

/-- The text that the wire exports. -/
def tableText (request : ExportRequest) : Text :=
  (archiveOf (protectedHeader (tableFormat request) plainKey interchangeOptions)
    ((tableFormat request).toVec (.object (commentMembers request))) (List.replicate 64 0)).toText (tableFormat request)

/-- **The step-up journey is exported** when it compiles, and there is an environment that suits the
archive. -/
theorem exists_export_commented {c : Text} (h : loads (fun _ => true) (compile (commented c).artifact) = true) :
    ∃ manifest co,
      Describes (tableWire (commented c) manifest) (commented c) (commented c).artifact co
        (commentMembers (commented c)) ∧
      Lawful (tableWire (commented c) manifest) plainKey (commented c) ∧
      exportArchive (tableWire (commented c) manifest) plainKey (commented c) = .ok (tableText (commented c)) ∧
      ∃ e environment, Suits plainKey (commented c) e environment (3600 * 10 ^ 9) := by
  obtain ⟨co, hc, -⟩ := loads_eq_true.mp h
  have hm : mergeSubflows (commented c).artifact (commented c).subflows = .ok (commented c).artifact := rfl
  have hi : "https://acme.example".toList ≠ [] := by decide
  have htr : (commented c).allowedTransports ≠ [] := List.cons_ne_nil _ _
  have hw : (0 : Int64).toInt ≤ (3600 : Int64).toInt := by decide
  have hd : ∀ manifest, Describes (tableWire (commented c) manifest) (commented c) (commented c).artifact
      co (commentMembers (commented c)) :=
    fun manifest => ⟨hm, hc, _, _, _, rfl, rfl, rfl, rfl⟩
  exact ⟨_, co, hd _, lawful_tableWire hm hc,
    exportArchive_eq_ok_iff.mpr ⟨htr, _, co, _, _, hd _, rfl, rfl⟩,
    exists_suits hi htr hw hm hc⟩

/-- With an empty comment, the archive is within the limits. -/
theorem withinLimits_commented (manifest : SafetyManifest) :
    WithinLimits (tableWire (commented []) manifest) plainKey (commented []) where
  algorithm := rfl
  header := by
    have hhd : b64NoPadLen (protectedHeader (tableFormat (commented [])) plainKey interchangeOptions).length ≤
        maxB64Len (4 * 1024) := by decide +kernel
    exact hhd
  payload := by
    intro m c members h
    rw [h.eq_commentMembers]
    have hp : b64NoPadLen ((tableFormat (commented [])).toVec (.object (commentMembers (commented [])))).length ≤
        maxB64Len maxPayloadBytes := by decide +kernel
    exact hp
  issued := by decide
  expires := by decide
  epoch := by decide

/-- The payload is longer than the comment. -/
theorem comment_lt_payload (comment : Text) :
    comment.len < ((tableFormat (commented comment)).toVec (.object (commentMembers (commented comment)))).length := by
  have ha : (commented comment).artifact.comment.getD "" = String.ofList comment := rfl
  obtain ⟨fields, hf⟩ : ∃ fields, commentMembers (commented comment) = ("artifact".toList, .string comment) :: fields := by
    rw [commentMembers, ha, String.toList_ofList]
    exact ⟨_, rfl⟩
  have hp := Char.utf8Size_pos '\x7b'
  rw [JsonFormat.toVec, Text.length_bytes, hf]
  cases fields with
  | nil | cons other fields =>
    simp only [Json.write, Json.writeFields, tableFormat, Text.len_cons, Text.len_append]
    omega

theorem len_longComment : longComment.len = 600000 := by
  rw [Text.len_eq_length, longComment, List.length_replicate]
  intro c hc
  rw [List.eq_of_mem_replicate hc]
  decide

/-! ### What is granted and what is exported -/

/-- **An imported journey exercises granted capabilities only**: those of every step and of every edge of
the composed journey, and those of every built-in subflow that is spliced in, at any depth. -/
theorem imported_exercises_granted {archive : List UInt8} {exporter : TrustedExporter} {environment : ImportEnvironment} {now : ℤ}
    {bundle : ImportedBundle} (h : importArchive wire archive exporter environment now = .ok bundle) :
    ∃ flat compiled, compose bundle.artifact = some (.ok flat) ∧ compile bundle.artifact = some (.ok compiled) ∧
      (∀ step ∈ flat.steps, ∀ c ∈ stepCapabilities step, c ∈ deriveCapabilities bundle.artifact compiled) ∧
      (∀ t ∈ flat.transitions, ∀ c ∈ guardCapabilities t.guard, c ∈ deriveCapabilities bundle.artifact compiled) ∧
      (∀ name ∈ splicedBuiltins bundle.artifact,
        Capability.builtinSubflow name ∈ deriveCapabilities bundle.artifact compiled) ∧
      bundle.capabilities = deriveCapabilities bundle.artifact compiled ∧
      deriveCapabilities bundle.artifact compiled ⊆ environment.granted := by
  obtain ⟨-, con, com, ver, -, -, -, hay⟩ := importArchive_eq_ok_iff.mp h
  obtain ⟨artifact, subflows, manifest, mer, compiled, value, hpa, -, rfl⟩ := importPayload_eq_ok_iff.mp hay
  obtain ⟨flat, hfl, rfl, -⟩ := compileInner_eq_ok.mp hpa.compiles
  have hdoc := (validateErrors_eq_nil.mp (composeInner_eq_ok.mp hfl).1).1
  exact ⟨flat, lower flat, hfl, hpa.compiles, fun step hst c hc => step_mem_deriveCapabilities hfl hst hc,
    fun t ht c hc => transition_mem_deriveCapabilities ht hc,
    fun name hna => builtinSubflow_mem_deriveCapabilities hdoc _ hna, rfl, hpa.granted⟩

theorem commented_exercises_granted :
    ∃ (wire : Wire Unit) (text : Text) (exporter : TrustedExporter) (environment : ImportEnvironment) (now : ℤ)
      (bundle : ImportedBundle), importArchive wire text.bytes exporter environment now = .ok bundle ∧
        ∃ compiled, compile bundle.artifact = some (.ok compiled) ∧
          deriveCapabilities bundle.artifact compiled ⊆ environment.granted := by
  obtain ⟨manifest, compiled, hde, hlaw, -, exporter, environment, hsu⟩ := exists_export_commented loads_commented
  have hli := withinLimits_commented manifest
  obtain ⟨bundle, him, -⟩ := (importArchive_taken hlaw hsu hde rfl (by decide) rfl).2
    ⟨hli.algorithm, hli.header, hli.payload _ _ _ hde, hli.expires,
      nowSeconds_le_expiry hsu.unexpired hli.epoch, hli.issued⟩
  obtain ⟨flat, com2, -, hco, -, -, -, -, hgr⟩ := imported_exercises_granted him
  exact ⟨_, _, _, _, _, bundle, him, com2, hco, hgr⟩

section Exported

variable {key : KeyPair Secret} {request : ExportRequest}

/-- **What is exported is imported** by every environment that suits it, and is the journey with the
subflows of the bundle, exactly when the archive is within the limits of the verifier, unless there
is no such environment at all. -/
theorem export_imports_iff {text : Text} (hlaw : Lawful wire key request) (hexport : exportArchive wire key request = .ok text) :
    (∀ exporter environment now, Suits key request exporter environment now →
      ∃ bundle, importArchive wire text.bytes exporter environment now = .ok bundle ∧
        bundle.artifact = withSubflows request.artifact request.subflows) ↔
      request.issuer = [] ∨ request.expiresAtSecs.toInt < request.issuedAtSecs.toInt ∨ WithinLimits wire key request := by
  obtain ⟨htr, mer, com, members, signature, hde, hsi, rfl⟩ := exportArchive_eq_ok_iff.mp hexport
  have hmg := hde.merges
  unfold mergeSubflows at hmg
  split at hmg
  · cases hmg
  rw [Except.ok.inj hmg]
  constructor
  · intro him
    by_cases his : request.issuer = []
    · exact .inl his
    by_cases hwi : request.expiresAtSecs.toInt < request.issuedAtSecs.toInt
    · exact .inr (.inl hwi)
    obtain ⟨exporter, environment, hsu⟩ :=
      exists_suits his htr (not_lt.mp hwi) hde.merges hde.compiles
    obtain ⟨bundle, hmp, -⟩ := him _ _ _ hsu
    have hta := (importArchive_taken hlaw hsu hde hsi htr hmp).1 bundle rfl
    refine .inr (.inr ⟨hta.algorithm, hta.header, ?_, hta.issued, hta.expires, ?_⟩)
    · intro mer2 com2 mem2 hde2
      obtain ⟨-, -, rfl⟩ := hde.unique hde2
      exact hta.payload
    · have hnow := hta.unexpired
      unfold nowSeconds at hnow
      split at hnow <;> omega
  · rintro (his | hwi | hli) exporter environment now hsu
    · exact absurd (hsu.issuer.trans his) exporter.issuer_ne_nil
    · exact absurd (hsu.issued.trans hsu.unexpired) (by omega)
    · exact (importArchive_taken hlaw hsu hde hsi htr rfl).2
        ⟨hli.algorithm, hli.header, hli.payload _ _ _ hde, hli.expires,
          nowSeconds_le_expiry hsu.unexpired hli.epoch, hli.issued⟩

end Exported

theorem commented_imports :
    ∃ wire : Wire Unit, exportArchive wire plainKey (commented []) = .ok (tableText (commented [])) ∧
      ∀ exporter environment now, Suits plainKey (commented []) exporter environment now →
        ∃ bundle, importArchive wire (tableText (commented [])).bytes exporter environment now = .ok bundle ∧
          bundle.artifact = (commented []).artifact := by
  obtain ⟨manifest, com, -, hlaw, hxp, -⟩ := exists_export_commented loads_commented
  exact ⟨_, hxp, (export_imports_iff hlaw hxp).mpr (.inr (.inr (withinLimits_commented manifest)))⟩

/-- A journey with a long comment is exported, and refused by an environment that suits it. -/
theorem longComment_exported_not_imported :
    ∃ wire : Wire Unit, Lawful wire plainKey (commented longComment) ∧
      exportArchive wire plainKey (commented longComment) = .ok (tableText (commented longComment)) ∧
      ∃ exporter environment now, Suits plainKey (commented longComment) exporter environment now ∧
        ∀ bundle, importArchive wire (tableText (commented longComment)).bytes exporter environment now ≠ .ok bundle := by
  obtain ⟨manifest, com, hde, hlaw, hxp, exporter, environment, hsu⟩ :=
    exists_export_commented (c := longComment) (by decide +kernel)
  refine ⟨_, hlaw, hxp, exporter, environment, _, hsu, fun bundle him => ?_⟩
  have hcap := ((importArchive_taken hlaw hsu hde rfl (by decide) him).1 bundle rfl).payload
  have hlo := comment_lt_payload longComment
  rw [len_longComment] at hlo
  simp only [maxB64Len, maxPayloadBytes, b64NoPadLen, tableWire] at hcap
  omega

end IronAuth.Store.Interchange
