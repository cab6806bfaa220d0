import Mathlib.Data.Int.Notation
import IronAuth.Lib.Fallible

/-!
# Certificate chains

The walk from an attestation certificate over the presented intermediates to a pinned anchor
(`verify_chain`). The signature primitive is a parameter: any relation between keys, messages and
signatures.

An issuer is checked for its constraints if it was presented. The last certificate of the chain is
compared with the anchors: it may be signed by one, whose constraints are not looked at, or it may have the
subject name and the key of one, and then nothing else about it is looked at.
-/

namespace IronAuth.Webauthn

open Lib.Fallible

/-! ### Certificates -/

inductive X509Error where
  | unsupportedSignature
  | expired
  | nameChainBroken
  | badSignature
  | untrustedRoot
  | badChain
  | constraintViolation
  deriving DecidableEq

inductive WebauthnKey where
  | es256 (x y : List UInt8)
  | ed25519 (publicKey : List UInt8)
  | rs256 (n e : List UInt8)
  deriving DecidableEq

def oidEd25519 : List ℕ := [1, 3, 101, 112]
def oidEcdsaSha256 : List ℕ := [1, 2, 840, 10045, 4, 3, 2]
def oidRsaSha256 : List ℕ := [1, 2, 840, 113549, 1, 1, 11]

/-- `KEY_USAGE_KEY_CERT_SIGN`. -/
def keyCertSign : UInt16 := (1 : UInt16) <<< (15 - 5)

/-- `MAX_CHAIN_DEPTH`. -/
def maxChainDepth : ℕ := 6

/-- A parsed certificate. -/
structure Certificate where
  /-- The signed message. -/
  tbs : List UInt8
  issuerCn : Option String
  subjectCn : Option String
  notBefore : ℤ
  notAfter : ℤ
  publicKey : WebauthnKey
  sigAlg : List ℕ
  signature : List UInt8
  aaguid : Option (Vector UInt8 16)
  isCa : Bool
  pathLen : Option ℕ
  keyUsage : Option UInt16
  deriving DecidableEq

def Certificate.isValidAt (cert : Certificate) (now : ℤ) : Bool := now ≥ cert.notBefore && now ≤ cert.notAfter

/-! ### Verification -/

section verification

variable (verifyWebauthnSignature : WebauthnKey → List UInt8 → List UInt8 → Bool)

/-- The signature algorithm goes with the key. -/
def okFamily (sigAlg : List ℕ) : WebauthnKey → Bool
  | .ed25519 _ => sigAlg = oidEd25519
  | .es256 _ _ => sigAlg = oidEcdsaSha256
  | .rs256 _ _ => sigAlg = oidRsaSha256

def verifyCertSignature (child : Certificate) (parentKey : WebauthnKey) : Except X509Error Unit :=
  if !okFamily child.sigAlg parentKey then .error .unsupportedSignature
  else if verifyWebauthnSignature parentKey child.tbs child.signature then .ok () else .error .badSignature

def requireIssuerConstraints (issuer : Certificate) (intermediateCasBelow : ℕ) : Except X509Error Unit := do
  refuseIf (issuer.isCa = false) .constraintViolation
  refuseIf (∃ bits ∈ issuer.keyUsage, bits &&& keyCertSign = 0) .constraintViolation
  refuseIf (∃ max ∈ issuer.pathLen, intermediateCasBelow > max) .constraintViolation

def namesLink (child parent : Certificate) : Except X509Error Unit :=
  match child.issuerCn, parent.subjectCn with
  | some issuer, some subject => if issuer = subject then .ok () else .error .nameChainBroken
  | _, _ => .error .nameChainBroken

/-- One step from child to parent. -/
def checkPair (intermediateCasBelow : ℕ) (child parent : Certificate) : Except X509Error Unit := do
  namesLink child parent
  requireIssuerConstraints parent intermediateCasBelow
  verifyCertSignature verifyWebauthnSignature child parent.publicKey

/-- The anchor has signed the certificate. -/
def anchorSigns (now : ℤ) (last anchor : Certificate) : Bool :=
  anchor.isValidAt now && (namesLink last anchor).isOk &&
    (verifyCertSignature verifyWebauthnSignature last anchor.publicKey).isOk

/-- The anchor has the subject and the key of the certificate. -/
def anchorMatches (now : ℤ) (last anchor : Certificate) : Bool :=
  anchor.isValidAt now && anchor.subjectCn = last.subjectCn && anchor.publicKey = last.publicKey

/-- The chain has the leaf first, then its issuers in order. -/
def verifyChain (chain anchors : List Certificate) (now : ℤ) : Except X509Error Certificate := do
  refuseIf (chain = [] ∨ chain.length > maxChainDepth) .badChain
  chain.forM fun cert => refuseIf (cert.isValidAt now = false) .expired
  (chain.zip chain.tail).zipIdx.forM fun pair => checkPair verifyWebauthnSignature pair.2 pair.1.1 pair.1.2
  let last ← okOr chain.getLast? .badChain
  let leaf ← okOr chain.head? .badChain
  if anchors.any (anchorSigns verifyWebauthnSignature now last) then .ok leaf
  else if anchors.any (anchorMatches now last) then .ok leaf
  else .error .untrustedRoot

end verification

/-! ### Paths -/

/-- The child names the parent as its issuer. -/
def Linked (child parent : Certificate) : Prop := ∃ cn, child.issuerCn = some cn ∧ parent.subjectCn = some cn

/-- The issuer may sign certificates, with this many CAs below it. -/
structure Permitted (issuer : Certificate) (intermediateCasBelow : ℕ) : Prop where
  ca : issuer.isCa = true
  keyCertSign : ∀ bits ∈ issuer.keyUsage, bits &&& keyCertSign ≠ 0
  pathLen : ∀ max ∈ issuer.pathLen, intermediateCasBelow ≤ max

section paths

variable (verifyWebauthnSignature : WebauthnKey → List UInt8 → List UInt8 → Bool)

/-- The parent has issued the child, with this many CAs below it. -/
structure Issues (intermediateCasBelow : ℕ) (child parent : Certificate) : Prop where
  linked : Linked child parent
  permitted : Permitted parent intermediateCasBelow
  family : okFamily child.sigAlg parent.publicKey = true
  signed : verifyWebauthnSignature parent.publicKey child.tbs child.signature = true

/-- The certificate at this place of a chain is an anchor, or an anchor has issued it. -/
def AnchoredAt (anchors : List Certificate) (now : ℤ) (place : ℕ) (cert : Certificate) : Prop :=
  ∃ anchor ∈ anchors, anchor.isValidAt now = true ∧ (anchor.tbs = cert.tbs ∨ Issues verifyWebauthnSignature place cert anchor)

/-- The chain up to this place is a path to an anchor. -/
structure PathTo (chain anchors : List Certificate) (now : ℤ) (place : ℕ) : Prop where
  anchored : ∃ cert, chain[place]? = some cert ∧ AnchoredAt verifyWebauthnSignature anchors now place cert
  issued : ∀ i child parent, i < place → chain[i]? = some child → chain[i + 1]? = some parent →
    Issues verifyWebauthnSignature i child parent
  valid : ∀ i cert, i ≤ place → chain[i]? = some cert → cert.isValidAt now = true

/-- Every certificate of the chain is valid, and has issued the one before it. -/
structure Walks (chain : List Certificate) (now : ℤ) : Prop where
  depth : chain.length ≤ maxChainDepth
  valid : ∀ cert ∈ chain, cert.isValidAt now = true
  issued : ∀ i child parent, chain[i]? = some child → chain[i + 1]? = some parent →
    Issues verifyWebauthnSignature i child parent

/-- A valid anchor has signed the certificate, or has its subject and its key. -/
def Reached (anchors : List Certificate) (now : ℤ) (last : Certificate) : Prop :=
  ∃ anchor ∈ anchors, anchor.isValidAt now = true ∧
    (Linked last anchor ∧ okFamily last.sigAlg anchor.publicKey = true ∧
        verifyWebauthnSignature anchor.publicKey last.tbs last.signature = true ∨
      anchor.subjectCn = last.subjectCn ∧ anchor.publicKey = last.publicKey)

end paths

/-! ### What is accepted -/

theorem namesLink_eq_ok_iff {c parent : Certificate} : namesLink c parent = .ok () ↔ Linked c parent := by
  unfold namesLink Linked
  cases c.issuerCn with
  | none => simp
  | some issuer =>
    cases parent.subjectCn with
    | none => simp
    | some subject =>
      dsimp only
      split_ifs with hs
      · simp [hs]
      · simpa using Ne.symm hs

theorem requireIssuerConstraints_eq_ok_iff {i : Certificate} {below : ℕ} :
    requireIssuerConstraints i below = .ok () ↔ Permitted i below := by
  simp only [requireIssuerConstraints, check_bind_eq_ok_iff, refuseIf_eq_ok_iff, Bool.not_eq_false, not_exists, not_and,
    gt_iff_lt, Nat.not_lt]
  exact ⟨fun h => ⟨h.1, h.2.1, h.2.2⟩, fun h => ⟨h.ca, h.keyCertSign, h.pathLen⟩⟩

section accepted

variable {verifyWebauthnSignature : WebauthnKey → List UInt8 → List UInt8 → Bool}

theorem verifyCertSignature_eq_ok_iff {c : Certificate} {key : WebauthnKey} :
    verifyCertSignature verifyWebauthnSignature c key = .ok () ↔
      okFamily c.sigAlg key = true ∧ verifyWebauthnSignature key c.tbs c.signature = true := by
  unfold verifyCertSignature
  split_ifs with hf hv
  · have hm : ¬ okFamily c.sigAlg key = true := by simpa using hf
    simp [hm]
  · have hma : okFamily c.sigAlg key = true := by simpa using hf
    simp [hma, hv]
  · simp [hv]

theorem isOk_iff {ε : Type} {x : Except ε Unit} : x.isOk = true ↔ x = .ok () := by
  cases x with
  | error | ok => simp [Except.isOk, Except.toBool]

theorem checkPair_eq_ok_iff {b : ℕ} {c parent : Certificate} :
    checkPair verifyWebauthnSignature b c parent = .ok () ↔ Issues verifyWebauthnSignature b c parent := by
  simp only [checkPair, check_bind_eq_ok_iff, namesLink_eq_ok_iff, requireIssuerConstraints_eq_ok_iff,
    verifyCertSignature_eq_ok_iff]
  exact ⟨fun h => ⟨h.1, h.2.1, h.2.2.1, h.2.2.2⟩, fun h => ⟨h.linked, h.permitted, h.family, h.signed⟩⟩

/-- The loop over the pairs of the chain. -/
theorem forall_pairs_iff {cs : List Certificate} {P : ℕ → Certificate → Certificate → Prop} :
    (∀ pair ∈ (cs.zip cs.tail).zipIdx, P pair.2 pair.1.1 pair.1.2) ↔
      ∀ i child parent, cs[i]? = some child → cs[i + 1]? = some parent → P i child parent := by
  constructor
  · intro h i child parent hc hpa
    refine h ((child, parent), i) ?_
    rw [List.mem_zipIdx_iff_getElem?, List.getElem?_zip_eq_some, List.getElem?_tail]
    exact ⟨hc, hpa⟩
  · rintro h ⟨⟨child, parent⟩, i⟩ hp
    rw [List.mem_zipIdx_iff_getElem?, List.getElem?_zip_eq_some, List.getElem?_tail] at hp
    exact h i child parent hp.1 hp.2

/-- The two loops over the anchors. -/
theorem reached_iff {an : List Certificate} {now : ℤ} {last : Certificate} :
    (an.any (anchorSigns verifyWebauthnSignature now last) = true ∨ an.any (anchorMatches now last) = true) ↔
      Reached verifyWebauthnSignature an now last := by
  simp only [List.any_eq_true, anchorSigns, anchorMatches, Bool.and_eq_true, isOk_iff, namesLink_eq_ok_iff,
    verifyCertSignature_eq_ok_iff, decide_eq_true_eq, Reached]
  constructor
  · rintro (⟨a, hm, ⟨hv, hl⟩, hsi⟩ | ⟨a, hm, ⟨hv, hs⟩, hk⟩)
    · exact ⟨a, hm, hv, .inl ⟨hl, hsi⟩⟩
    · exact ⟨a, hm, hv, .inr ⟨hs, hk⟩⟩
  · rintro ⟨a, hm, hv, ⟨hl, hsi⟩ | ⟨hs, hk⟩⟩
    · exact .inl ⟨a, hm, ⟨hv, hl⟩, hsi⟩
    · exact .inr ⟨a, hm, ⟨hv, hs⟩, hk⟩

/-- **What `verify_chain` accepts.** -/
theorem verifyChain_eq_ok_iff {c a : List Certificate} {now : ℤ} {l : Certificate} :
    verifyChain verifyWebauthnSignature c a now = .ok l ↔
      c.head? = some l ∧ Walks verifyWebauthnSignature c now ∧
        ∃ last, c.getLast? = some last ∧ Reached verifyWebauthnSignature a now last := by
  have he : ∀ last l2 : Certificate,
      ((if a.any (anchorSigns verifyWebauthnSignature now last) = true then .ok l2
        else if a.any (anchorMatches now last) = true then .ok l2
        else .error .untrustedRoot : Except X509Error Certificate) = .ok l ↔
        l2 = l ∧ Reached verifyWebauthnSignature a now last) := by
    intro last l2
    rw [← reached_iff]
    split_ifs with hs hm
    · simp [hs]
    · simp [hm]
    · simp [hs, hm]
  rw [verifyChain, check_bind_eq_ok_iff, check_bind_eq_ok_iff, check_bind_eq_ok_iff]
  simp only [refuseIf_eq_ok_iff, forM_eq_ok_iff, bind_eq_ok_iff, okOr_eq_ok_iff, he, checkPair_eq_ok_iff, Bool.not_eq_false,
    not_or, gt_iff_lt, Nat.not_lt]
  rw [forall_pairs_iff (P := fun i child p => Issues verifyWebauthnSignature i child p)]
  constructor
  · rintro ⟨⟨-, hd⟩, hv, hi, last, hl, l2, hle, rfl, hr⟩
    exact ⟨hle, ⟨hd, hv, hi⟩, last, hl, hr⟩
  · rintro ⟨hle, hw, last, hl, hr⟩
    refine ⟨⟨?_, hw.depth⟩, hw.valid, hw.issued, last, hl, l, hle, rfl, hr⟩
    rintro rfl
    cases hle

end accepted

/-! ### Anchors that nobody checked -/

/-- A pinned root. -/
def pinnedRoot : Certificate where
  tbs := [1]
  issuerCn := some "Root"
  subjectCn := some "Root"
  notBefore := 0
  notAfter := 100
  publicKey := .ed25519 [7]
  sigAlg := oidEd25519
  signature := []
  aaguid := none
  isCa := true
  pathLen := none
  keyUsage := none

/-- A certificate that has the name and the key of the root, and was not signed. -/
def lookalike : Certificate := { pinnedRoot with tbs := [2], issuerCn := some "Nobody", isCa := false }

/-- An anchor that is no CA has its signatures accepted too. -/
example : verifyChain (fun _ _ _ => true) [pinnedRoot] [{ pinnedRoot with publicKey := .ed25519 [8], isCa := false }] 50 =
    .ok pinnedRoot := rfl

end IronAuth.Webauthn
