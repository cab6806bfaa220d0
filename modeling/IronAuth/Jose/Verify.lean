import IronAuth.Lib.Base64Url
import IronAuth.Lib.Json
import IronAuth.Jose.KeySet
import IronAuth.Journeys.Artifact
import IronAuth.Store.Clock

/-!
# Verifying a compact token

The one verification entry point of `ironauth-jose/src/verify.rs`, with the header guards of
`header.rs`, the claim rules of `claims.rs` and the policy of `policy.rs`. The stages run in the
order of the source: the size caps, the split into three segments, the guards on the protected
header, the allowlist and the media type, the choice of keys, the signature, and only then the
claims.

What `ring` and `serde_json` do is given: a `Signatures` signs and verifies bytes, and a `JsonFormat`
writes scalars and reads the members of an object. Seconds are whole numbers; an instant is in
nanoseconds since the Unix epoch.
-/

namespace IronAuth.Jose

open Lib Lib.Fallible
open Journeys (Number)
open Store (i64Max saturatingAdd)

/-! ### Third-party code -/

/-- A `serde_json::Value`. -/
abbrev Value := Json Number

/-- A `serde_json::Map`, in the order of its keys. -/
abbrev Object := List (Text × Value)

/-- What `serde_json` does: how it writes scalars, and the members it reads from the bytes of an
object, in the order in which they stand. -/
structure JsonFormat where
  scalars : Json.Scalars Number
  members : List UInt8 → Option (List (Text × Value))

variable (raw : Object) (json : JsonFormat)

/-- `serde_json::to_vec`. -/
def JsonFormat.toVec (value : Value) : List UInt8 := (value.write json.scalars).bytes

/-- The public half of a key. -/
inductive KeyMaterial where
  | ed25519 (publicKey : List UInt8)
  | ecP256 (point : List UInt8)
  | ecP384 (point : List UInt8)
  | rsa (n e : List UInt8)
  deriving DecidableEq

/-- What `ring` does with the secret half and with the public half of a key. -/
structure Signatures (Secret : Type) where
  sign : JwsAlgorithm → Secret → List UInt8 → Option (List UInt8)
  verify : JwsAlgorithm → KeyMaterial → List UInt8 → List UInt8 → Bool

/-! ### Algorithms and keys -/

inductive KeyFamily where
  | ed25519 | ecP256 | ecP384 | rsa
  deriving DecidableEq

namespace JwsAlgorithm

def asJoseName : JwsAlgorithm → String
  | edDsa => "EdDSA"
  | es256 => "ES256"
  | es384 => "ES384"
  | rs256 => "RS256"
  | rs384 => "RS384"
  | rs512 => "RS512"
  | ps256 => "PS256"
  | ps384 => "PS384"
  | ps512 => "PS512"

/-- The algorithms by name; `Ed25519` is a second name for `EdDSA`. -/
def joseNames : List (Text × JwsAlgorithm) :=
  [("EdDSA".toList, edDsa), ("Ed25519".toList, edDsa), ("ES256".toList, es256), ("ES384".toList, es384),
    ("RS256".toList, rs256), ("RS384".toList, rs384), ("RS512".toList, rs512), ("PS256".toList, ps256),
    ("PS384".toList, ps384), ("PS512".toList, ps512)]

def fromJoseName (name : Text) : Option JwsAlgorithm := joseNames.lookup name

def fullySpecifiedName : JwsAlgorithm → String
  | edDsa => "Ed25519"
  | other => other.asJoseName

def keyFamily : JwsAlgorithm → KeyFamily
  | edDsa => .ed25519
  | es256 => .ecP256
  | es384 => .ecP384
  | rs256 | rs384 | rs512 | ps256 | ps384 | ps512 => .rsa

end JwsAlgorithm

def KeyMaterial.family : KeyMaterial → KeyFamily
  | ed25519 _ => .ed25519
  | ecP256 _ => .ecP256
  | ecP384 _ => .ecP384
  | rsa _ _ => .rsa

/-- A public key the caller has decided to trust. -/
structure TrustedKey where
  kid : Option Text
  material : KeyMaterial
  deriving DecidableEq

/-- `crypto::verify_signature`: a key of another family never verifies. -/
def verifySignature {Secret : Type} (ring : Signatures Secret) (alg : JwsAlgorithm) (key : KeyMaterial)
    (signingInput signature : List UInt8) : Bool :=
  alg.keyFamily = key.family && ring.verify alg key signingInput signature

/-! ### The policy -/

/-- The token profiles. -/
inductive TokenTyp where
  | accessToken | idToken | logoutToken | journeyInterchange | sessionToken | transactionToken | securityEventToken
  deriving DecidableEq

def TokenTyp.mediaType : TokenTyp → String
  | accessToken => "at+jwt"
  | idToken => "JWT"
  | logoutToken => "logout+jwt"
  | journeyInterchange => "iaj+jws"
  | sessionToken => "session+jwt"
  | transactionToken => "txn_token"
  | securityEventToken => "secevent+jwt"

/-- `MEDIA_TYPE_PREFIX`. -/
def mediaTypePrefix : Text := "application/".toList

/-- Whether a `typ` names a media type: up to the case of its letters, with or without
`application/` in front. -/
def foreignMediaTypeIs (headerTyp : Option Text) (expected : Text) : Bool :=
  match headerTyp with
  | none => false
  | some candidate =>
    let bare : Text := if Text.eqIgnoreAsciiCase (candidate.take mediaTypePrefix.length) mediaTypePrefix
      then candidate.drop mediaTypePrefix.length else candidate
    bare.eqIgnoreAsciiCase expected

inductive ExpectedTyp where
  | required (typ : TokenTyp)
  | foreignIssuer
  deriving DecidableEq

def ExpectedTyp.accepts (expected : ExpectedTyp) (headerTyp : Option Text) : Bool :=
  match expected with
  | required typ => foreignMediaTypeIs headerTyp typ.mediaType.toList
  | foreignIssuer => true

/-- The caps that are checked before anything is decoded. -/
structure VerificationCaps where
  maxTokenBytes : ℕ := 16 * 1024
  maxHeaderBytes : ℕ := 4 * 1024
  maxPayloadBytes : ℕ := 16 * 1024

structure VerificationPolicy where
  algorithms : List JwsAlgorithm
  keys : List TrustedKey
  expectedIss : Text
  expectedAud : Text
  expectedTyp : ExpectedTyp
  maxSkewSecs : ℕ := 60
  caps : VerificationCaps := {}
  requireIat : Bool := false
  allowExpired : Bool := false
  allowAbsentExp : Bool := false

inductive PolicyError where
  | emptyAllowlist | noKeys | emptyIssuer | emptyAudience
  deriving DecidableEq

/-- `VerificationPolicy::new`. -/
def VerificationPolicy.new (algorithms : List JwsAlgorithm) (keys : List TrustedKey) (expectedIss expectedAud : Text)
    (expectedTyp : ExpectedTyp) : Except PolicyError VerificationPolicy := do
  refuseIf (algorithms = []) .emptyAllowlist
  refuseIf (keys = []) .noKeys
  refuseIf (expectedIss = []) .emptyIssuer
  refuseIf (expectedAud = []) .emptyAudience
  return ⟨algorithms, keys, expectedIss, expectedAud, expectedTyp, 60, {}, false, false, false⟩

/-! ### The protected header -/

inductive RejectReason where
  | tokenTooLarge | malformedStructure | segmentTooLarge | base64Malformed | headerMalformed | algNone | unsupportedAlg
  | algNotAllowed | embeddedKeyInjection | unknownCrit | malformedCrit | encryptionPresent | compressionPresent
  | unsupportedHeaderParam | pbes2Present | unknownKid | typMismatch | keyTypeMismatch | signatureInvalid
  | claimsMalformed | claimMissing | expired | notYetValid | issuedInFuture | issuerMismatch | audienceMismatch
  deriving DecidableEq

/-- `parse_unique_object`: an object in which no key is given twice. -/
def parseUniqueObject (bytes : List UInt8) : Option Object :=
  (json.members bytes).bind fun members =>
    if (members.map Prod.fst).Nodup then some (SortedMap.collect members) else none

/-- The member of an object. -/
def member (object : Object) (name : String) : Option Value := object.lookup name.toList

/-- `contains_key`. -/
def hasMember (object : Object) (name : String) : Prop := (member object name).isSome

instance (object : Object) (name : String) : Decidable (hasMember object name) :=
  inferInstanceAs (Decidable ((member object name).isSome = true))

/-- A member that is a string if it is there. -/
def optionalString (value : Option Value) (error : RejectReason) : Except RejectReason (Option Text) :=
  match value with
  | none | some .null => .ok none
  | some (.string text) => .ok (some text)
  | some _ => .error error

/-- The part of the header that verification reads. -/
structure ProtectedHeader where
  alg : JwsAlgorithm
  kid : Option Text
  typ : Option Text

/-- `REGISTERED_HEADER_PARAMS`. -/
def registeredHeaderParams : List Text :=
  ["alg", "jku", "jwk", "kid", "x5u", "x5c", "x5t", "x5t#S256", "typ", "cty", "crit", "enc", "zip", "epk", "apu", "apv",
    "iv", "tag", "aad", "p2s", "p2c"].map String.toList

def classifyAlg (alg : Option Value) : Except RejectReason JwsAlgorithm :=
  match alg with
  | none | some .null => .error .algNone
  | some (.string name) =>
    if name.trim = [] || name.trim.eqIgnoreAsciiCase "none".toList then .error .algNone
    else okOr (JwsAlgorithm.fromJoseName name) .unsupportedAlg
  | some _ => .error .headerMalformed

/-- The members of a `crit` list, after those already seen. -/
def classifyCritMembers (seen : List Text) : List Value → RejectReason
  | [] => .unknownCrit
  | .string name :: rest =>
    if name ∈ seen then .malformedCrit
    else if name ∈ registeredHeaderParams then .malformedCrit
    else classifyCritMembers (name :: seen) rest
  | _ :: _ => .malformedCrit

/-- Any `crit` is a refusal; the distinction is for diagnostics. -/
def classifyCrit : Value → RejectReason
  | .array [] => .malformedCrit
  | .array members => classifyCritMembers [] members
  | _ => .malformedCrit

def rejectCrit (object : Object) : Except RejectReason Unit :=
  match member object "crit" with
  | some crit => .error (classifyCrit crit)
  | none => .ok ()

/-- `header::parse`. A `p2c` is refused whatever its count. -/
def parseHeader (bytes : List UInt8) : Except RejectReason ProtectedHeader := do
  let object ← okOr (parseUniqueObject json bytes) .headerMalformed
  refuseIf (hasMember object "enc" ∨ hasMember object "epk" ∨ hasMember object "tag") .encryptionPresent
  refuseIf (hasMember object "zip") .compressionPresent
  refuseIf (hasMember object "b64") .unsupportedHeaderParam
  refuseIf (hasMember object "p2s") .pbes2Present
  refuseIf (hasMember object "p2c") .pbes2Present
  refuseIf (hasMember object "jwk" ∨ hasMember object "jku" ∨ hasMember object "x5u" ∨ hasMember object "x5c")
    .embeddedKeyInjection
  rejectCrit object
  let alg ← classifyAlg (member object "alg")
  let kid ← optionalString (member object "kid") .headerMalformed
  let typ ← optionalString (member object "typ") .headerMalformed
  return ⟨alg, kid, typ⟩

/-! ### The claims -/

/-- The verified claims of a token. -/
structure VerifiedClaims where
  issuer : Text
  subject : Option Text
  audiences : List Text
  expiration : Option ℤ
  notBefore : Option ℤ
  issuedAt : Option ℤ
  raw : Object

def enforceIssuer (expected : Text) : Except RejectReason Text :=
  match member raw "iss" with
  | none | some .null => .error .claimMissing
  | some (.string iss) => if iss = expected then .ok iss else .error .issuerMismatch
  | some _ => .error .claimsMalformed

/-- The text of an item of an `aud` list. -/
def audienceItem : Value → Except RejectReason Text
  | .string text => .ok text
  | _ => .error .claimsMalformed

def enforceAudience (expected : Text) : Except RejectReason (List Text) :=
  match member raw "aud" with
  | none | some .null => .error .claimMissing
  | some (.string aud) => if aud = expected then .ok [aud] else .error .audienceMismatch
  | some (.array items) => do
    let auds ← items.mapM audienceItem
    if expected ∈ auds then .ok auds else .error .audienceMismatch
  | some _ => .error .claimsMalformed

/-- `MAX_ABS_NUMERIC_DATE`. -/
def maxAbsNumericDate : ℤ := 2 ^ 53

/-- The whole seconds of a number. An integer past the range of `i64` is past the range of dates as a
double too. -/
def wholeSeconds : Number → ℤ
  | .posInt n => n.toNat
  | .negInt n => n.toInt
  | .float q => ⌊q⌋

def numericDate (value : Value) : Except RejectReason ℤ :=
  match value with
  | .number n =>
    if wholeSeconds n ≥ maxAbsNumericDate ∨ wholeSeconds n ≤ -maxAbsNumericDate then .error .claimsMalformed
    else .ok (wholeSeconds n)
  | _ => .error .claimsMalformed

def enforceExp (nowSecs skew : ℤ) (allowExpired allowAbsentExp : Bool) : Except RejectReason (Option ℤ) :=
  match member raw "exp" with
  | none | some .null => if allowAbsentExp then .ok none else .error .claimMissing
  | some value => do
    let exp ← numericDate value
    if allowExpired = false ∧ nowSecs > saturatingAdd exp skew then .error .expired else .ok (some exp)

def enforceNbf (nowSecs skew : ℤ) : Except RejectReason (Option ℤ) :=
  match member raw "nbf" with
  | none | some .null => .ok none
  | some value => do
    let nbf ← numericDate value
    if saturatingAdd nowSecs skew < nbf then .error .notYetValid else .ok (some nbf)

def enforceIat (nowSecs skew : ℤ) (require : Bool) : Except RejectReason (Option ℤ) :=
  match member raw "iat" with
  | none | some .null => if require then .error .claimMissing else .ok none
  | some value => do
    let iat ← numericDate value
    if iat > saturatingAdd nowSecs skew then .error .issuedInFuture else .ok (some iat)

/-- `claims::parse_and_enforce`. -/
def parseAndEnforce (bytes : List UInt8) (policy : VerificationPolicy) (nowSecs : ℤ) :
    Except RejectReason VerifiedClaims := do
  let raw ← okOr (parseUniqueObject json bytes) .claimsMalformed
  let issuer ← enforceIssuer raw policy.expectedIss
  let audiences ← enforceAudience raw policy.expectedAud
  let expiration ← enforceExp raw nowSecs (min i64Max policy.maxSkewSecs) policy.allowExpired policy.allowAbsentExp
  let notBefore ← enforceNbf raw nowSecs (min i64Max policy.maxSkewSecs)
  let issuedAt ← enforceIat raw nowSecs (min i64Max policy.maxSkewSecs) policy.requireIat
  let subject ← optionalString (member raw "sub") .claimsMalformed
  return ⟨issuer, subject, audiences, expiration, notBefore, issuedAt, raw⟩

/-! ### The token -/

/-- A token that passed every check. -/
structure VerifiedToken where
  algorithm : JwsAlgorithm
  keyId : Option Text
  tokenTyp : Option Text
  claims : VerifiedClaims

/-- The three segments of a compact serialization. -/
structure Segments where
  header : Text
  payload : Text
  signature : Text

/-- `split_segments`: exactly three, none of them empty. -/
def splitSegments (token : Text) : Option Segments :=
  match token.split (· = '.') with
  | [header, payload, signature] =>
    if header = [] ∨ payload = [] ∨ signature = [] then none else some ⟨header, payload, signature⟩
  | _ => none

/-- `max_b64_len`. -/
def maxB64Len (decodedBytes : ℕ) : ℕ := decodedBytes * 4 / 3 + 4

def decodeB64 (segment : Text) : Except RejectReason (List UInt8) := okOr (Base64Url.decode segment) .base64Malformed

def signingInputBytes (header payload : Text) : List UInt8 := header.bytes ++ Text.bytes ['.'] ++ payload.bytes

/-- Whether a key may answer for a token: it has the token's `kid` if the token names one. -/
def TrustedKey.answersTo (key : TrustedKey) (kid : Option Text) : Bool :=
  match kid with
  | some kid => key.kid = some kid
  | none => true

/-- `select_keys`: a `kid` only selects among the trusted keys, and only keys of the algorithm's
family are eligible. -/
def selectKeys (policy : VerificationPolicy) (header : ProtectedHeader) : Except RejectReason (List TrustedKey) := do
  refuseIf (header.kid.isSome ∧ ∀ key ∈ policy.keys, key.answersTo header.kid = false) .unknownKid
  let candidates := policy.keys.filter fun key => key.answersTo header.kid && key.material.family = header.alg.keyFamily
  refuseIf (candidates = []) .keyTypeMismatch
  return candidates

/-- `now_seconds`: an instant before the epoch is read as the epoch. -/
def nowSeconds (now : ℤ) : ℤ := if now < 0 then 0 else min i64Max (now / 10 ^ 9)

/-- `verify`. -/
def verify {Secret : Type} (ring : Signatures Secret) (json : JsonFormat) (token : Text) (policy : VerificationPolicy) (now : ℤ) :
    Except RejectReason VerifiedToken := do
  refuseIf (token.len > policy.caps.maxTokenBytes) .tokenTooLarge
  let segments ← okOr (splitSegments token) .malformedStructure
  refuseIf (segments.header.len > maxB64Len policy.caps.maxHeaderBytes) .segmentTooLarge
  refuseIf (segments.payload.len > maxB64Len policy.caps.maxPayloadBytes) .segmentTooLarge
  let headerBytes ← decodeB64 segments.header
  let header ← parseHeader json headerBytes
  refuseIf (header.alg ∉ policy.algorithms) .algNotAllowed
  refuseIf (policy.expectedTyp.accepts header.typ = false) .typMismatch
  let candidates ← selectKeys policy header
  let signature ← decodeB64 segments.signature
  refuseIf (∀ key ∈ candidates, verifySignature ring header.alg key.material
    (signingInputBytes segments.header segments.payload) signature = false) .signatureInvalid
  let payloadBytes ← decodeB64 segments.payload
  let claims ← parseAndEnforce json payloadBytes policy (nowSeconds now)
  return ⟨header.alg, header.kid, header.typ, claims⟩

/-! ### What is accepted -/

variable {p : VerificationPolicy}

theorem selectKeys_eq_ok_iff {he : ProtectedHeader} {c : List TrustedKey} :
    selectKeys p he = .ok c ↔
      (p.keys.filter fun key => key.answersTo he.kid && key.material.family = he.alg.keyFamily) = c ∧
        c ≠ [] := by
  unfold selectKeys
  simp only [check_bind_eq_ok_iff, refuseIf_eq_ok_iff, pure, Except.pure, Except.ok.injEq]
  constructor
  · rintro ⟨-, hne, rfl⟩
    exact ⟨rfl, hne⟩
  · rintro ⟨rfl, hne⟩
    refine ⟨?_, hne, rfl⟩
    rintro ⟨-, hn⟩
    -- a candidate answers to the token's key id
    refine hne (List.filter_eq_nil_iff.mpr fun key hk => ?_)
    simp [hn key hk]

/-- What a signed token must be to be accepted. -/
structure Accepts {Secret : Type} (ring : Signatures Secret) (json : JsonFormat) (token : Text) (policy : VerificationPolicy)
    (now : ℤ) (segments : Segments) (header : ProtectedHeader) (claims : VerifiedClaims) : Prop where
  size : token.len ≤ policy.caps.maxTokenBytes
  split : splitSegments token = some segments
  headerSize : segments.header.len ≤ maxB64Len policy.caps.maxHeaderBytes
  payloadSize : segments.payload.len ≤ maxB64Len policy.caps.maxPayloadBytes
  parsed : ∃ bytes, Base64Url.decode segments.header = some bytes ∧ parseHeader json bytes = .ok header
  algorithm : header.alg ∈ policy.algorithms
  typ : policy.expectedTyp.accepts header.typ = true
  signature : ∃ bytes, Base64Url.decode segments.signature = some bytes ∧ ∃ key ∈ policy.keys,
    key.answersTo header.kid = true ∧
      verifySignature ring header.alg key.material (signingInputBytes segments.header segments.payload) bytes = true
  enforced : ∃ bytes, Base64Url.decode segments.payload = some bytes ∧
    parseAndEnforce json bytes policy (nowSeconds now) = .ok claims

/-- **What is accepted.** -/
theorem verify_eq_ok_iff {Secret : Type} {ring : Signatures Secret} {j : JsonFormat} {t : Text}
    {now : ℤ} {v : VerifiedToken} :
    verify ring j t p now = .ok v ↔
      ∃ s header claims, Accepts ring j t p now s header claims ∧
        v = ⟨header.alg, header.kid, header.typ, claims⟩ := by
  unfold verify decodeB64
  simp only [bind_eq_ok_iff, exists_unit_iff, refuseIf_eq_ok_iff, okOr_eq_ok_iff, selectKeys_eq_ok_iff, pure, Except.pure,
    Except.ok.injEq, not_lt, not_forall, not_not, Bool.not_eq_false, gt_iff_lt]
  constructor
  · rintro ⟨hs, s, hsp, hh, hp, he, hhe, header, hhd, ha, ht,
      candidates, ⟨rfl, -⟩, signature, hsi, ⟨key, hk, hvf⟩, payload, hpy, claims, hc, rfl⟩
    rw [List.mem_filter, Bool.and_eq_true] at hk
    exact ⟨s, header, claims, ⟨hs, hsp, hh, hp, ⟨he, hhe, hhd⟩, ha,
      ht, ⟨signature, hsi, key, hk.1, hk.2.1, hvf⟩, ⟨payload, hpy, hc⟩⟩, rfl⟩
  · rintro ⟨s, header, claims, h, rfl⟩
    obtain ⟨he, hhe, hhd⟩ := h.parsed
    obtain ⟨signature, hsi, key, hk, hki, hvf⟩ := h.signature
    obtain ⟨payload, hpy, hc⟩ := h.enforced
    -- a key that verifies is of the algorithm's family
    have hf : key.material.family = header.alg.keyFamily := by
      rw [verifySignature, Bool.and_eq_true, decide_eq_true_eq] at hvf
      exact hvf.1.symm
    have hca : key ∈ p.keys.filter fun key =>
        key.answersTo header.kid && key.material.family = header.alg.keyFamily := by
      simp [List.mem_filter, hk, hki, hf]
    exact ⟨h.size, s, h.split, h.headerSize, h.payloadSize, he, hhe, header, hhd, h.algorithm,
      h.typ, _, ⟨rfl, List.ne_nil_of_mem hca⟩, signature, hsi, ⟨key, hca, hvf⟩, payload, hpy,
      claims, hc, rfl⟩

/-! ### When, and on what, a token is accepted -/

/-- The instants at which a check passes are an interval, and it passes with one result. -/
def Steady {α : Type} (check : ℤ → Except RejectReason α) : Prop :=
  ∀ ⦃a b c x y⦄, a ≤ b → b ≤ c → check a = .ok x → check c = .ok y → check b = .ok x ∧ y = x

theorem steady_const {α : Type} (result : Except RejectReason α) : Steady fun _ => result := by
  intro a b c x y _ _ ha hc
  exact ⟨ha, Except.ok.inj (hc.symm.trans ha)⟩

theorem Steady.bind {α β : Type} {check : ℤ → Except RejectReason α} {next : ℤ → α → Except RejectReason β}
    (h : Steady check) (hn : ∀ x, Steady fun now => next now x) : Steady fun now => check now >>= next now := by
  intro a b c x y hab hbc ha hc
  obtain ⟨u, hu, hx⟩ := bind_eq_ok_iff.mp ha
  obtain ⟨v, hv, hy⟩ := bind_eq_ok_iff.mp hc
  obtain ⟨hb, rfl⟩ := h hab hbc hu hv
  obtain ⟨hnb, rfl⟩ := hn v hab hbc hx hy
  exact ⟨bind_eq_ok_iff.mpr ⟨v, hb, hnb⟩, rfl⟩

theorem steady_refuse {α : Type} {late : ℤ → Prop} [DecidablePred late] {reason : RejectReason} {x : α}
    (h : ∀ ⦃a b c⦄, a ≤ b → b ≤ c → late b → late a ∨ late c) :
    Steady fun now => if late now then .error reason else .ok x := by
  intro a b c y z hab hbc ha hc
  by_cases hla : late a
  · simp [hla] at ha
  by_cases hlc : late c
  · simp [hlc] at hc
  replace ha := (if_neg hla).symm.trans ha
  replace hc := (if_neg hlc).symm.trans hc
  exact ⟨(if_neg fun hb => (h hab hbc hb).elim hla hlc).trans ha, Except.ok.inj (hc.symm.trans ha)⟩

theorem saturatingAdd_mono {a b : ℤ} (k : ℤ) (h : a ≤ b) : saturatingAdd a k ≤ saturatingAdd b k :=
  max_le_max_left _ (min_le_min_left _ (by omega))

theorem steady_parseAndEnforce (json : JsonFormat) (bytes : List UInt8) : Steady (parseAndEnforce json bytes p) := by
  iterate 3 refine (steady_const _).bind fun _ => ?_
  refine Steady.bind ?_ fun _ => Steady.bind ?_ fun _ => Steady.bind ?_ fun _ => steady_const _
  · unfold enforceExp
    split <;> try exact steady_const _
    exact (steady_const _).bind fun _ => steady_refuse fun _ _ _ _ hbc hb => .inr ⟨hb.1, hb.2.trans_le hbc⟩
  · unfold enforceNbf
    split <;> try exact steady_const _
    exact (steady_const _).bind fun _ => steady_refuse fun _ _ _ hab _ hb => .inl ((saturatingAdd_mono _ hab).trans_lt hb)
  · unfold enforceIat
    split <;> try exact steady_const _
    exact (steady_const _).bind fun _ => steady_refuse fun _ _ _ hab _ hb => .inl ((saturatingAdd_mono _ hab).trans_lt hb)

/-- **A token is accepted in one interval of instants, and always read alike.** -/
theorem verify_steady {Secret : Type} (ring : Signatures Secret) (json : JsonFormat) (token : Text) (policy : VerificationPolicy) :
    {now | ∃ verified, verify ring json token policy now = .ok verified}.OrdConnected ∧
      {verified | ∃ now, verify ring json token policy now = .ok verified}.Subsingleton := by
  have hmo : Monotone nowSeconds := by
    intro a b hab
    have hdi := Int.ediv_le_ediv (by norm_num : (0 : ℤ) < 10 ^ 9) hab
    unfold nowSeconds i64Max
    split_ifs <;> omega
  have hst : Steady (verify ring json token policy) := by
    iterate 12 refine (steady_const _).bind fun _ => ?_
    refine Steady.bind ?_ fun _ => steady_const _
    intro a b c x y hab hbc
    exact steady_parseAndEnforce json _ (hmo hab) (hmo hbc)
  constructor
  · refine ⟨?_⟩
    rintro a ⟨x, hx⟩ c ⟨y, hy⟩ b ⟨hab, hbc⟩
    exact ⟨x, (hst hab hbc hx hy).1⟩
  · rintro x ⟨a, hx⟩ y ⟨c, hy⟩
    rcases le_total a c with hac | hac
    · exact (hst le_rfl hac hx hy).2.symm
    · exact (hst le_rfl hac hy hx).2

/-- **A token is accepted on one key and one algorithm of the policy, whatever else it trusts.** -/
theorem verify_on_one_key {Secret : Type} (ring : Signatures Secret) (json : JsonFormat) (token : Text)
    (policy : VerificationPolicy) (now : ℤ) (verified : VerifiedToken) :
    verify ring json token policy now = .ok verified ↔
      ∃ key ∈ policy.keys, ∃ algorithm ∈ policy.algorithms,
        verify ring json token { policy with keys := [key], algorithms := [algorithm] } now = .ok verified := by
  simp only [verify_eq_ok_iff]
  constructor
  · rintro ⟨segments, header, claims, h, hv⟩
    obtain ⟨bytes, hby, key, hk, hsi⟩ := h.signature
    exact ⟨key, hk, header.alg, h.algorithm, segments, header, claims,
      { h with algorithm := List.mem_singleton_self _, signature := ⟨bytes, hby, key, List.mem_singleton_self _, hsi⟩ }, hv⟩
  · rintro ⟨key, hk, algorithm, ha, segments, header, claims, h, hv⟩
    obtain ⟨bytes, hby, own, ho, hsi⟩ := h.signature
    obtain rfl := List.mem_singleton.mp ho
    obtain rfl := List.mem_singleton.mp h.algorithm
    exact ⟨segments, header, claims, { h with algorithm := ha, signature := ⟨bytes, hby, own, hk, hsi⟩ }, hv⟩

end IronAuth.Jose
