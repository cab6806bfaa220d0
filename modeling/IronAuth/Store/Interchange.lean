import IronAuth.Jose.Mint
import IronAuth.Store.Capabilities

/-!
# Journey interchange

The signed journey archive of `ironauth-store/src/interchange.rs`. `export_archive` merges the
subflows of a bundle into its journey, compiles it, derives the manifest and signs the whole;
`import_archive` verifies an archive against the keys and the issuer of a trusted exporter, merges
and compiles again, derives the capabilities again, and compares them with the manifest and with
what the environment grants.

What third-party code does is a parameter (`Wire`): `ring`, `serde_json`, and the derived readers and
writers of the types that travel.
-/

namespace IronAuth.Store.Interchange

open Journeys Lib Lib.Fallible Jose

/-! ### The bundle -/

/-- `INTERCHANGE_AUDIENCE`. -/
def interchangeAudience : Text := "urn:ironauth:journey-interchange".toList

/-- `MAX_ARCHIVE_BYTES`. -/
def maxArchiveBytes : ℕ := 2 ^ 20

/-- `MAX_PAYLOAD_BYTES`. -/
def maxPayloadBytes : ℕ := 512 * 1024

/-- `PAYLOAD_MEMBERS`. -/
def payloadNames : List Text :=
  ["artifact", "aud", "exp", "iat", "iss", "manifest", "subflows"].map String.toList

/-- A set of transports, in order. -/
abbrev Transports := List String

structure LaunchConstraints where
  minEngineVersion : UInt32
  allowedTransports : Transports
  requiresSandbox : Bool

/-- What the exporter declares about the bundle. -/
structure SafetyManifest where
  requiredCapabilities : Capabilities
  launchConstraints : LaunchConstraints

/-- The flattened JWS: three encoded segments. -/
structure SignedArchive where
  «protected» : Text
  payload : Text
  signature : Text

/-- The derived reader and writer of a type. -/
structure Codec (α : Type) where
  toValue : α → Option Value
  fromValue : Value → Option α

/-- What interchange takes from third-party code. -/
structure Wire (Secret : Type) where
  ring : Signatures Secret
  json : JsonFormat
  readArchive : List UInt8 → Option SignedArchive
  journey : Codec Journey
  subflows : Codec (List Subflow)
  manifest : Codec SafetyManifest

inductive InterchangeError where
  | archiveTooLarge (limit : ℕ)
  | archiveMalformed
  | archiveSegmentMalformed
  | signatureRejected (reason : RejectReason)
  | payloadShape (detail : String)
  | subflowIdConflict (id : SubflowId)
  | journeyInvalid (errors : List JourneyError)
  | capabilityUnderDeclared (missing : Capabilities)
  | capabilityOverDeclared (extra : Capabilities)
  | capabilityNotGranted (missing : Capabilities)
  | engineVersionMisdeclared (declared derived : UInt32)
  | engineVersionUnsupported (declared supported : UInt32)
  | sandboxMisdeclared (declared derived : Bool)
  | noAllowedTransport
  | environmentServesNoTransport
  | transportNotAllowed (transport : String)
  | trustAnchorUnusable
  | signingFailed

/-- An exporter that is trusted: an issuer, and the keys it signs with. -/
structure TrustedExporter where
  issuer : Text
  keys : List TrustedKey
  issuer_ne_nil : issuer ≠ []
  keys_ne_nil : keys ≠ []

/-- `TrustedExporter::from_keys`. -/
def TrustedExporter.fromKeys (issuer : Text) (keys : List TrustedKey) : Except InterchangeError TrustedExporter :=
  if h : issuer ≠ [] ∧ keys ≠ [] then .ok ⟨issuer, keys, h.1, h.2⟩ else .error .trustAnchorUnusable

/-- What an environment grants, and the transports it serves. -/
structure ImportEnvironment where
  granted : Capabilities
  offeredTransports : Transports

structure ImportedBundle where
  artifact : Journey
  artifactJson : Text
  capabilities : Capabilities
  exporterIssuer : Text
  keyId : Option Text

/-! ### What both sides do -/

/-- The first id that is there already. -/
def firstConflict (seen : List SubflowId) : List Subflow → Option SubflowId
  | [] => none
  | definition :: rest =>
    if definition.id ∈ seen then some definition.id else firstConflict (definition.id :: seen) rest

/-- The journey with the bundle's subflows behind its own. -/
def withSubflows (artifact : Journey) (subflows : List Subflow) : Journey :=
  if subflows.isEmpty then artifact
  else { artifact with subflowDefinitions := some (inlineDefinitions artifact ++ subflows) }

def mergeSubflows (artifact : Journey) (subflows : List Subflow) : Except InterchangeError Journey :=
  match firstConflict [] (inlineDefinitions artifact ++ subflows) with
  | some id => .error (.subflowIdConflict id)
  | none => .ok (withSubflows artifact subflows)

/-- `compile`, with its errors. It always answers (`exists_compile_eq`). -/
def compileMerged (merged : Journey) : Except InterchangeError CompiledJourney :=
  match compile merged with
  | some (.ok compiled) => .ok compiled
  | some (.error errors) => .error (.journeyInvalid errors)
  | none => .error (.journeyInvalid [])

def deriveMinEngineVersion (source : Journey) : UInt32 := source.engineVersion

def requiresSandbox (capabilities : Capabilities) : Bool := Capability.fixed .decisionSandbox ∈ capabilities

/-! ### Export -/

structure ExportRequest where
  issuer : Text
  artifact : Journey
  subflows : List Subflow
  allowedTransports : Transports
  issuedAtSecs : Int64
  expiresAtSecs : Int64

/-- The manifest of a merged journey. -/
def manifestOf (merged : Journey) (capabilities : Capabilities) (allowedTransports : Transports) : SafetyManifest where
  requiredCapabilities := capabilities
  launchConstraints := {
    minEngineVersion := deriveMinEngineVersion merged
    allowedTransports := allowedTransports
    requiresSandbox := requiresSandbox capabilities }

/-- `Value::from` of an `i64`. -/
def numberOf (n : Int64) : Number := if 0 ≤ n.toInt then .posInt (UInt64.ofNat n.toInt.toNat) else .negInt n

/-- The members of the payload, in the order of their names. -/
def payloadMembers (request : ExportRequest) (artifact subflows manifest : Value) : Object :=
  [("artifact".toList, artifact), ("aud".toList, .string interchangeAudience),
    ("exp".toList, .number (numberOf request.expiresAtSecs)), ("iat".toList, .number (numberOf request.issuedAtSecs)),
    ("iss".toList, .string request.issuer), ("manifest".toList, manifest), ("subflows".toList, subflows)]

/-- The options of the archive's header. -/
def interchangeOptions : EmissionOptions := EmissionOptions.withTokenTyp {} .journeyInterchange

/-- A compact token split into the members of an archive. -/
def splitCompact (compact : Text) : Option SignedArchive :=
  match compact.split (· = '.') with
  | [«protected», payload, signature] => some ⟨«protected», payload, signature⟩
  | _ => none

/-- `serde_json::to_string` of an archive. -/
def SignedArchive.toText (json : JsonFormat) (archive : SignedArchive) : Text :=
  Json.write json.scalars (.object [("protected".toList, .string archive.protected), ("payload".toList, .string archive.payload),
    ("signature".toList, .string archive.signature)])

section Interchange

variable {Secret : Type} (wire : Wire Secret)

/-- `export_archive`. -/
def exportArchive (key : KeyPair Secret) (request : ExportRequest) : Except InterchangeError Text := do
  refuseIf (request.allowedTransports = []) .noAllowedTransport
  let merged ← mergeSubflows request.artifact request.subflows
  let compiled ← compileMerged merged
  let manifest := manifestOf merged (deriveCapabilities merged compiled) request.allowedTransports
  let artifactValue ← okOr (wire.journey.toValue request.artifact) .signingFailed
  let subflowsValue ← okOr (wire.subflows.toValue request.subflows) .signingFailed
  let manifestValue ← okOr (wire.manifest.toValue manifest) .signingFailed
  let payload := wire.json.toVec (.object (payloadMembers request artifactValue subflowsValue manifestValue))
  let compact ← (signJws wire.ring wire.json key payload interchangeOptions).mapError fun _ => .signingFailed
  let archive ← okOr (splitCompact compact) .signingFailed
  return archive.toText wire.json

/-! ### Import -/

/-- `to_compact`: a segment is not empty and has no dot. -/
def SignedArchive.toCompact (archive : SignedArchive) : Except InterchangeError Text := do
  refuseIf (∃ segment ∈ [archive.protected, archive.payload, archive.signature], segment = [] ∨ '.' ∈ segment)
    .archiveSegmentMalformed
  return archive.protected ++ '.' :: (archive.payload ++ '.' :: archive.signature)

/-- The policy an archive is verified under. -/
def importPolicy (exporter : TrustedExporter) : Except InterchangeError VerificationPolicy := do
  let policy ← (VerificationPolicy.new [.edDsa] exporter.keys exporter.issuer interchangeAudience
    (.required .journeyInterchange)).mapError fun _ => .trustAnchorUnusable
  return { policy with
    caps := { policy.caps with maxTokenBytes := maxArchiveBytes, maxPayloadBytes := maxPayloadBytes }
    requireIat := true }

/-- `project`: one member of the verified payload, as its type. -/
def project {α : Type} (codec : Codec α) (claims : Object) (name : String) : Except InterchangeError α :=
  okOr ((member claims name).bind codec.fromValue) (.payloadShape name)

/-- Whether the audience is the profile string and nothing else. -/
def isInterchangeAudience : Option Value → Bool
  | some (.string aud) => aud = interchangeAudience
  | _ => false

/-- `check_launch_constraints`. -/
def checkLaunchConstraints (constraints : LaunchConstraints) (merged : Journey) (derived : Capabilities)
    (environment : ImportEnvironment) : Except InterchangeError Unit := do
  let derivedVersion := deriveMinEngineVersion merged
  refuseIf (constraints.minEngineVersion ≠ derivedVersion)
    (.engineVersionMisdeclared constraints.minEngineVersion derivedVersion)
  refuseIf (constraints.minEngineVersion > journeyEngineVersion)
    (.engineVersionUnsupported constraints.minEngineVersion journeyEngineVersion)
  let derivedSandbox := requiresSandbox derived
  refuseIf (constraints.requiresSandbox ≠ derivedSandbox) (.sandboxMisdeclared constraints.requiresSandbox derivedSandbox)
  refuseIf (constraints.allowedTransports = []) .noAllowedTransport
  refuseIf (environment.offeredTransports = []) .environmentServesNoTransport
  environment.offeredTransports.forM fun transport =>
    refuseIf (transport ∉ constraints.allowedTransports) (.transportNotAllowed transport)

/-- The checks of the verified payload, from its shape to the grants. -/
def importPayload (exporter : TrustedExporter) (environment : ImportEnvironment) (claims : Object) (keyId : Option Text) :
    Except InterchangeError ImportedBundle := do
  refuseIf (claims.map Prod.fst ≠ payloadNames)
    (.payloadShape "the payload must carry exactly iss, aud, exp, iat, artifact, subflows, and manifest")
  refuseIf (isInterchangeAudience (member claims "aud") = false)
    (.payloadShape "aud must be exactly the interchange audience string")
  let artifact ← project wire.journey claims "artifact"
  let subflows ← project wire.subflows claims "subflows"
  let manifest ← project wire.manifest claims "manifest"
  let merged ← mergeSubflows artifact subflows
  let compiled ← compileMerged merged
  let derived := deriveCapabilities merged compiled
  refuseIf (derived \ manifest.requiredCapabilities ≠ ∅)
    (.capabilityUnderDeclared (derived \ manifest.requiredCapabilities))
  refuseIf (manifest.requiredCapabilities \ derived ≠ ∅)
    (.capabilityOverDeclared (manifest.requiredCapabilities \ derived))
  checkLaunchConstraints manifest.launchConstraints merged derived environment
  refuseIf (derived \ environment.granted ≠ ∅) (.capabilityNotGranted (derived \ environment.granted))
  let value ← okOr (wire.journey.toValue merged) (.payloadShape "the verified artifact could not be re-serialized")
  return ⟨merged, value.write wire.json.scalars, derived, exporter.issuer, keyId⟩

/-- `import_archive`. -/
def importArchive (archive : List UInt8) (exporter : TrustedExporter) (environment : ImportEnvironment) (now : ℤ) :
    Except InterchangeError ImportedBundle := do
  refuseIf (archive.length > maxArchiveBytes) (.archiveTooLarge maxArchiveBytes)
  let container ← okOr (wire.readArchive archive) .archiveMalformed
  let compact ← container.toCompact
  let policy ← importPolicy exporter
  let verified ← (verify wire.ring wire.json compact policy now).mapError .signatureRejected
  importPayload wire exporter environment verified.claims.raw verified.keyId

/-! ### What is exported -/

variable {wire}

theorem compileMerged_eq_ok_iff {m : Journey} {cj : CompiledJourney} :
    compileMerged m = .ok cj ↔ compile m = some (.ok cj) := by
  unfold compileMerged
  split <;> simp_all

/-- A request that merges, compiles and serializes to these members. -/
structure Describes (wire : Wire Secret) (request : ExportRequest) (merged : Journey) (compiled : CompiledJourney)
    (members : Object) : Prop where
  merges : mergeSubflows request.artifact request.subflows = .ok merged
  compiles : compile merged = some (.ok compiled)
  serializes : ∃ artifact subflows manifest, wire.journey.toValue request.artifact = some artifact ∧
    wire.subflows.toValue request.subflows = some subflows ∧
    wire.manifest.toValue (manifestOf merged (deriveCapabilities merged compiled) request.allowedTransports) = some manifest ∧
    members = payloadMembers request artifact subflows manifest

/-- The archive with these segments. -/
def archiveOf (header payload signature : List UInt8) : SignedArchive :=
  ⟨Base64Url.encode header, Base64Url.encode payload, Base64Url.encode signature⟩

theorem splitCompact_assemble (he pl sig : List UInt8) :
    splitCompact (assemble (signingInput he pl) sig) = some (archiveOf he pl sig) := by
  rw [splitCompact, split_assemble]
  rfl

/-- **What is exported**: the signed payload, when the request allows a transport and describes one. -/
theorem exportArchive_eq_ok_iff {key : KeyPair Secret} {req : ExportRequest} {t : Text} :
    exportArchive wire key req = .ok t ↔
      req.allowedTransports ≠ [] ∧ ∃ m cj members signature, Describes wire req m cj members ∧
        wire.ring.sign key.algorithm key.secret
          (signingInput (protectedHeader wire.json key interchangeOptions) (wire.json.toVec (.object members))).bytes =
            some signature ∧
        t = (archiveOf (protectedHeader wire.json key interchangeOptions) (wire.json.toVec (.object members))
          signature).toText wire.json := by
  simp only [exportArchive, bind_eq_ok_iff, exists_unit_iff, refuseIf_eq_ok_iff, okOr_eq_ok_iff, compileMerged_eq_ok_iff,
    mapError_eq_ok_iff, signJws, pure, Except.pure, Except.ok.injEq]
  constructor
  · rintro ⟨htr, m, hm, cj, hc, artifact, ha, subflows, hsu, manifest, hma, -,
      ⟨signature, hs, rfl⟩, archive, har, rfl⟩
    rw [splitCompact_assemble, Option.some.injEq] at har
    subst har
    exact ⟨htr, m, cj, _, signature,
      ⟨hm, hc, artifact, subflows, manifest, ha, hsu, hma, rfl⟩, hs, rfl⟩
  · rintro ⟨htr, m, cj, -, signature,
      ⟨hm, hc, artifact, subflows, manifest, ha, hsu, hma, rfl⟩, hs, rfl⟩
    exact ⟨htr, m, hm, cj, hc, artifact, ha, subflows, hsu, manifest, hma, _,
      ⟨signature, hs, rfl⟩, _, splitCompact_assemble .., rfl⟩

/-! ### What is imported -/

/-- The policy an archive of this exporter is verified under. -/
def policyOf (exporter : TrustedExporter) : VerificationPolicy where
  algorithms := [.edDsa]
  keys := exporter.keys
  expectedIss := exporter.issuer
  expectedAud := interchangeAudience
  expectedTyp := .required .journeyInterchange
  maxSkewSecs := 60
  caps := { maxTokenBytes := maxArchiveBytes, maxHeaderBytes := 4 * 1024, maxPayloadBytes := maxPayloadBytes }
  requireIat := true

theorem importPolicy_eq (exp : TrustedExporter) : importPolicy exp = .ok (policyOf exp) := by
  have ha : interchangeAudience ≠ [] := by decide
  have hn : VerificationPolicy.new [.edDsa] exp.keys exp.issuer interchangeAudience (.required .journeyInterchange) =
      .ok ⟨[.edDsa], exp.keys, exp.issuer, interchangeAudience, .required .journeyInterchange, 60, {}, false, false,
        false⟩ := by
    rw [VerificationPolicy.new, refuseIf_neg (by simp), refuseIf_neg exp.keys_ne_nil, refuseIf_neg exp.issuer_ne_nil,
      refuseIf_neg ha]
    rfl
  rw [importPolicy, hn]
  rfl

variable {env : ImportEnvironment} {exp : TrustedExporter}

/-- What the importer finds in a payload that passes. -/
structure Passes (wire : Wire Secret) (environment : ImportEnvironment) (claims : Object) (merged : Journey)
    (compiled : CompiledJourney) (artifact : Journey) (subflows : List Subflow) (manifest : SafetyManifest) : Prop where
  names : claims.map Prod.fst = payloadNames
  audience : isInterchangeAudience (member claims "aud") = true
  artifact_read : (member claims "artifact").bind wire.journey.fromValue = some artifact
  subflows_read : (member claims "subflows").bind wire.subflows.fromValue = some subflows
  manifest_read : (member claims "manifest").bind wire.manifest.fromValue = some manifest
  merges : mergeSubflows artifact subflows = .ok merged
  compiles : compile merged = some (.ok compiled)
  declared : manifest.requiredCapabilities = deriveCapabilities merged compiled
  constraints : checkLaunchConstraints manifest.launchConstraints merged (deriveCapabilities merged compiled) environment =
    .ok ()
  granted : deriveCapabilities merged compiled ⊆ environment.granted

/-- **What is imported from a verified payload.** -/
theorem importPayload_eq_ok_iff {c : Object}
    {k : Option Text} {bdl : ImportedBundle} :
    importPayload wire exp env c k = .ok bdl ↔
      ∃ artifact subflows manifest m cj value,
        Passes wire env c m cj artifact subflows manifest ∧
        wire.journey.toValue m = some value ∧
        bdl = ⟨m, value.write wire.json.scalars, deriveCapabilities m cj, exp.issuer, k⟩ := by
  simp only [importPayload, project, bind_eq_ok_iff, exists_unit_iff, refuseIf_eq_ok_iff, okOr_eq_ok_iff, compileMerged_eq_ok_iff,
    pure, Except.pure, Except.ok.injEq, ne_eq, not_not, Bool.not_eq_false, Finset.sdiff_eq_empty_iff_subset]
  constructor
  · rintro ⟨hn, ha, artifact, har, subflows, hs, manifest, hm, m, hme, cj, hc,
      hu, ho, hco, hg, value, hv, rfl⟩
    exact ⟨artifact, subflows, manifest, m, cj, value, ⟨hn, ha, har, hs, hm, hme,
      hc, ho.antisymm hu, hco, hg⟩, hv, rfl⟩
  · rintro ⟨artifact, subflows, manifest, m, cj, value, h, hv, rfl⟩
    exact ⟨h.names, h.audience, artifact, h.artifact_read, subflows, h.subflows_read, manifest, h.manifest_read, m,
      h.merges, cj, h.compiles, h.declared.ge, h.declared.le, h.constraints, h.granted, value, hv, rfl⟩

/-- **What is imported.** -/
theorem importArchive_eq_ok_iff {a : List UInt8} {now : ℤ}
    {bundle : ImportedBundle} :
    importArchive wire a exp env now = .ok bundle ↔
      a.length ≤ maxArchiveBytes ∧ ∃ c co v,
        wire.readArchive a = some c ∧ c.toCompact = .ok co ∧
        verify wire.ring wire.json co (policyOf exp) now = .ok v ∧
        importPayload wire exp env v.claims.raw v.keyId = .ok bundle := by
  simp only [importArchive, importPolicy_eq, bind_eq_ok_iff, exists_unit_iff, refuseIf_eq_ok_iff, okOr_eq_ok_iff,
    mapError_eq_ok_iff, not_lt, gt_iff_lt, Except.ok.injEq, exists_eq_left']
  constructor
  · rintro ⟨hs, c, hr, co, hc, v, hvf, hb⟩
    exact ⟨hs, c, co, v, hr, hc, hvf, hb⟩
  · rintro ⟨hs, c, co, v, hr, hc, hvf, hb⟩
    exact ⟨hs, c, hr, co, hc, v, hvf, hb⟩

end Interchange

end IronAuth.Store.Interchange
