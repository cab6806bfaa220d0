import IronAuth.Saml.Produced

/-!
# Verification

`verify`: find the one element that the caller asks for, the one signature that it carries,
the one reference of that signature, and check that the reference names the element, that
nothing else in the document has its identifier, that the digest is that of the element
without the signature, and that a trusted key signed the reference.

The source finds the element in one walk and rebuilds the declarations around it in another,
which looks for it by its address. An address is the place of an element in the document
here: the indices of the children that lead to it from the root.

The digest and the signature primitive are parameters. `verifyTree` keeps what it found and
checked beside the assertion that it returns.
-/

namespace IronAuth.Saml

open Lib.Fallible Lib.StackWalk List

/-! ### Places -/

/-- An element of a document and its place in it. -/
structure Located where
  path : List ℕ
  here : Scoped

/-- The child elements with their places. -/
def Located.nested (located : Located) : List Located :=
  located.here.element.children.zipIdx.filterMap fun child =>
    child.1.element?.map fun element => ⟨located.path ++ [child.2], ⟨element, located.here.scope⟩⟩

mutual

/-- The elements of a node with their places, in the order of the walk. -/
def RichNode.locate (path : List ℕ) (inherited : Scope) : RichNode → List Located
  | .element name attributes children =>
    ⟨path, ⟨⟨name, attributes, children⟩, inherited⟩⟩ :: locateNodes path 0 (scopeWithin attributes inherited) children
  | .text _ => []
  | .processingInstruction _ => []

/-- The elements of a list of nodes with their places: the last node first. -/
def locateNodes (path : List ℕ) (index : ℕ) (inherited : Scope) : List RichNode → List Located
  | [] => []
  | node :: rest => locateNodes path (index + 1) inherited rest ++ node.locate (path ++ [index]) inherited

end

/-- The elements below an element with their places, itself first. -/
def Located.visit (located : Located) : List Located := located.here.element.node.locate located.path located.here.inherited

/-- The root of a document. -/
def Located.root (root : RichElement) : Located := ⟨[], ⟨root, []⟩⟩

variable (root : RichElement)

/-- The walk over a document, with places. -/
def walkLocated : List Located :=
  walk Located.nested (Located.root root).visit.length [Located.root root]

/-- `collect`, as `verify` uses it: what it returns is the address of each element. -/
def collectLocated (ns loc : Text) : List Located :=
  (walkLocated root).filter fun located => located.here.is ns loc

/-- `count_identifier`. -/
def countIdentifier (id : Text) : ℕ :=
  ((walkFrom root []).filter fun e => e.attributeOf "ID".toList = some id).length

mutual

/-- `path_to`: the elements from a node down to the place that is looked for. -/
def RichNode.pathTo (target path : List ℕ) : RichNode → Option (List RichElement)
  | .element name attributes children =>
    if path = target then some [⟨name, attributes, children⟩]
    else (pathToNodes target path 0 children).map fun elements => ⟨name, attributes, children⟩ :: elements
  | .text _ => none
  | .processingInstruction _ => none

/-- The loop of `path_to` over the children. -/
def pathToNodes (target path : List ℕ) (index : ℕ) : List RichNode → Option (List RichElement)
  | [] => none
  | node :: rest => (node.pathTo target (path ++ [index])).or (pathToNodes target path (index + 1) rest)

end

/-- The declarations of elements from the outside in. -/
def scopeOf (inherited : Scope) (elements : List RichElement) : Scope :=
  elements.foldl (fun scope element => scopeWithin element.attributes scope) inherited

/-- `scope_at`. The last element of the path is the target itself. -/
def scopeAt (target : List ℕ) : Scope :=
  match root.node.pathTo target [] with
  | none => []
  | some elements => scopeOf [] elements.dropLast

/-! ### Algorithms and errors -/

/-- `XmlSigAlg`. -/
inductive XmlSigAlg where
  | rsaSha256
  | rsaSha384
  | rsaSha512
  | ecdsaP256Sha256
  | ecdsaP384Sha384
  deriving DecidableEq

/-- `XmlDigestAlg`. -/
inductive XmlDigestAlg where
  | sha256
  | sha384
  | sha512
  deriving DecidableEq

/-- `VerifyError`. -/
inductive VerifyError where
  | malformed (error : SamlError)
  | signatureMissing
  | algorithmRefused
  | referenceRefused
  | signatureInvalid
  deriving DecidableEq

/-- `DSIG_NS`. -/
def dsigNs : Text := "http://www.w3.org/2000/09/xmldsig#".toList

/-- `EXCLUSIVE_C14N`. -/
def exclusiveC14n : Text := "http://www.w3.org/2001/10/xml-exc-c14n#".toList

/-- `ENVELOPED`. -/
def enveloped : Text := "http://www.w3.org/2000/09/xmldsig#enveloped-signature".toList

/-- The signature algorithms by their URIs. -/
def signatureAlgorithms : List (Text × XmlSigAlg) :=
  [("http://www.w3.org/2001/04/xmldsig-more#rsa-sha256".toList, .rsaSha256),
    ("http://www.w3.org/2001/04/xmldsig-more#rsa-sha384".toList, .rsaSha384),
    ("http://www.w3.org/2001/04/xmldsig-more#rsa-sha512".toList, .rsaSha512),
    ("http://www.w3.org/2001/04/xmldsig-more#ecdsa-sha256".toList, .ecdsaP256Sha256),
    ("http://www.w3.org/2001/04/xmldsig-more#ecdsa-sha384".toList, .ecdsaP384Sha384)]

/-- The digest algorithms by their URIs. -/
def digestAlgorithms : List (Text × XmlDigestAlg) :=
  [("http://www.w3.org/2001/04/xmlenc#sha256".toList, .sha256),
    ("http://www.w3.org/2001/04/xmldsig-more#sha384".toList, .sha384),
    ("http://www.w3.org/2001/04/xmlenc#sha512".toList, .sha512)]

/-- The algorithm that a method element names: `signature_algorithm` and `digest_algorithm`. -/
def methodAlgorithm {α : Type} (known : List (Text × α)) (parent : Scoped) (method : Text) : Except VerifyError α := do
  let element ← okOr (parent.child dsigNs method) .signatureMissing
  let uri ← okOr (element.attributeOf "Algorithm".toList) .algorithmRefused
  okOr (known.lookup uri) .algorithmRefused

/-- `signature_algorithm`. -/
def signatureAlgorithm (signedInfo : Scoped) : Except VerifyError XmlSigAlg :=
  methodAlgorithm signatureAlgorithms signedInfo "SignatureMethod".toList

/-- `digest_algorithm`. -/
def digestAlgorithm (reference : Scoped) : Except VerifyError XmlDigestAlg :=
  methodAlgorithm digestAlgorithms reference "DigestMethod".toList

/-- `has_element_child`. -/
def hasElementChild (e : Scoped) : Bool := e.nested ≠ []

/-- `check_canonicalization`. -/
def checkCanonicalization (signedInfo : Scoped) : Except VerifyError Unit := do
  let method ← okOr (signedInfo.child dsigNs "CanonicalizationMethod".toList) .signatureMissing
  refuseIf (method.attributeOf "Algorithm".toList ≠ some exclusiveC14n) .algorithmRefused
  refuseIf (hasElementChild method) .algorithmRefused

/-- `check_transforms`. -/
def checkTransforms (reference : Scoped) : Except VerifyError Unit := do
  let transforms ← okOr (reference.child dsigNs "Transforms".toList) .algorithmRefused
  let children := transforms.children dsigNs "Transform".toList
  refuseIf (children.length ≠ transforms.nested.length) .algorithmRefused
  let listed ← okOr (children.mapM fun transform => transform.attributeOf "Algorithm".toList) .algorithmRefused
  refuseIf (listed ≠ [enveloped, exclusiveC14n]) .algorithmRefused
  refuseIf (children.any hasElementChild) .algorithmRefused

/-! ### Values -/

/-- The alphabet of `decode_base64`. -/
def base64Table : Text := "ABCDEFGHIJKLMNOPQRSTUVWXYZabcdefghijklmnopqrstuvwxyz0123456789+/".toList

/-- The loop of `decode_base64`: the accumulator, the bits in it, and the bytes so far. -/
def decodeBase64From (accumulator bits : ℕ) (out : List UInt8) : Text → Option (List UInt8)
  | [] => some out
  | c :: rest =>
    if isAsciiWhitespace c then decodeBase64From accumulator bits out rest
    else if c = '=' then
      if rest.all (fun c => c = '=' || isAsciiWhitespace c) then some out else none
    else
      match base64Table.findIdx? (· = c) with
      | none => none
      | some index =>
        let accumulator := (accumulator * 64 + index) % 2 ^ 32
        let bits := bits + 6
        if 8 ≤ bits then
          decodeBase64From accumulator (bits - 8) (out ++ [UInt8.ofNat (accumulator / 2 ^ (bits - 8) % 256)]) rest
        else decodeBase64From accumulator bits out rest

/-- `decode_base64`. -/
def decodeBase64 (text : Text) : Option (List UInt8) := decodeBase64From 0 0 [] text

/-- `constant_time_eq`. -/
def constantTimeEq (left right : List UInt8) : Bool :=
  left.length = right.length && (left.zip right).foldl (fun difference pair => difference ||| (pair.1 ^^^ pair.2)) 0 = 0

/-- `strip_enveloped_signature`. -/
def stripEnvelopedSignature (element : RichElement) (index : ℕ) : RichElement :=
  { element with children := element.children.eraseIdx index }

/-! ### `verify` -/

/-- The digest and the signature primitive, over a type of keys. -/
structure Primitives (Anchor : Type) where
  xmlDigest : XmlDigestAlg → ByteArray → List UInt8
  verifyXmlSignature : XmlSigAlg → Anchor → ByteArray → List UInt8 → Bool

/-- What `verify` found and checked. -/
structure Checked where
  candidate : Located
  signatureIndex : ℕ
  signature : Scoped
  signedInfo : Scoped
  reference : Scoped
  identifier : Text
  digestAlg : XmlDigestAlg
  message : ByteArray
  assertion : VerifiedAssertion

section verify

variable {Anchor : Type} (primitives : Primitives Anchor) (anchors : List Anchor) (ns loc : Text)

/-- `verify`, once the document is read. -/
def verifyTree (root : RichElement) : Except VerifyError Checked := do
  let candidate ← okOr (only? (collectLocated root ns loc)) .referenceRefused
  let apex : Scoped := ⟨candidate.here.element, scopeAt root candidate.path⟩
  let found ← okOr (only? (apex.indexedChildren dsigNs "Signature".toList)) .signatureMissing
  let signedInfo ← okOr (found.2.child dsigNs "SignedInfo".toList) .signatureMissing
  checkCanonicalization signedInfo
  let algorithm ← signatureAlgorithm signedInfo
  let reference ← okOr (only? (signedInfo.children dsigNs "Reference".toList)) .referenceRefused
  checkTransforms reference
  let uri ← okOr (reference.attributeOf "URI".toList) .referenceRefused
  let named ← okOr (Text.stripPrefix ['#'] uri) .referenceRefused
  let id ← okOr (apex.attributeOf "ID".toList) .referenceRefused
  refuseIf (named ≠ id) .referenceRefused
  refuseIf (countIdentifier root named ≠ 1) .referenceRefused
  let digested := stripEnvelopedSignature apex.element found.1
  let digestAlg ← digestAlgorithm reference
  let form ← okOr (canonicalize digested apex.inherited) (.malformed .malformed)
  let digestValue ← okOr (reference.child dsigNs "DigestValue".toList) .signatureMissing
  let declared ← okOr (decodeBase64 digestValue.text) .signatureInvalid
  refuseIf (¬ constantTimeEq (primitives.xmlDigest digestAlg form) declared) .signatureInvalid
  let signatureValue ← okOr (found.2.child dsigNs "SignatureValue".toList) .signatureMissing
  let signatureBytes ← okOr (decodeBase64 signatureValue.text) .signatureInvalid
  let message ← okOr (canonicalize signedInfo.element signedInfo.inherited) (.malformed .malformed)
  refuseIf (¬ anchors.any fun anchor => primitives.verifyXmlSignature algorithm anchor message signatureBytes)
    .signatureInvalid
  return {
    candidate := candidate
    signatureIndex := found.1
    signature := found.2
    signedInfo := signedInfo
    reference := reference
    identifier := named
    digestAlg := digestAlg
    message := message
    assertion := ⟨digested, apex.inherited⟩ }

/-- Read a document and verify it. -/
def verifyDocument (tables : CharTables) (tokenize : Text → List Token) (bytes : ByteArray) (limits : Limits) :
    Except VerifyError (RichElement × Checked) := do
  let root ← (build tables tokenize bytes limits).mapError .malformed
  let checked ← verifyTree primitives anchors ns loc root
  return (root, checked)

/-- `verify`. -/
def verify (tables : CharTables) (tokenize : Text → List Token) (bytes : ByteArray) (limits : Limits) :
    Except VerifyError VerifiedAssertion :=
  (fun verified => verified.2.assertion) <$> verifyDocument primitives anchors ns loc tables tokenize bytes limits

end verify

/-! ### The two walks meet -/

theorem Located.visit_eq (l : Located) : l.visit = l :: l.nested.reverse.flatMap Located.visit := by
  have hns : ∀ (p : List ℕ) (s : Scope) (i : ℕ) (n : List RichNode), locateNodes p i s n =
      ((n.zipIdx i).filterMap fun child =>
        child.1.element?.map fun element => Located.mk (p ++ [child.2]) ⟨element, s⟩).reverse.flatMap Located.visit := by
    intro p s i n
    induction n generalizing i with
    | nil => rfl
    | cons node rest ih =>
      cases node with
      | element name attributes children =>
        simp [locateNodes, ih, RichNode.element?, Located.visit, RichElement.node, zipIdx_cons]
      | text | processingInstruction => simp [locateNodes, ih, RichNode.element?, RichNode.locate, zipIdx_cons]
  unfold Located.nested
  rw [← hns]
  rfl

theorem walkLocated_eq (r : RichElement) : walkLocated r = (Located.root r).visit := by
  have h := walk_eq_flatMap Located.visit_eq (Located.root r).visit.length [Located.root r] (by simp)
  simpa [walkLocated] using h

theorem map_here_locateNodes (p : List ℕ) (i : ℕ) (inh : Scope) (nodes : List RichNode) :
    (locateNodes p i inh nodes).map Located.here = visitNodes inh nodes := by
  induction nodes using RichNode.forest_induction generalizing p i inh with
  | nil => rfl
  | element name attributes children rest hch hr =>
    rw [locateNodes, map_append, hr, RichNode.locate, map_cons, hch]
    rfl
  | text c rest hr => simpa [locateNodes, visitNodes, RichNode.locate, RichNode.visit] using hr _ _ _
  | processingInstruction c rest hr =>
    simpa [locateNodes, visitNodes, RichNode.locate, RichNode.visit] using hr _ _ _

theorem map_here_visit (l : Located) : l.visit.map Located.here = l.here.visit := by
  rw [Located.visit, RichElement.node, RichNode.locate, map_cons, map_here_locateNodes]
  rfl

/-! ### Addresses -/

variable {l : Located} {p : List ℕ} {inh : Scope} {n : List RichNode}

/-- What is located below a place has an address below it. -/
theorem path_of_mem_locateNodes {ind : ℕ}
    (h : l ∈ locateNodes p ind inh n) : ∃ i, ind ≤ i ∧ p ++ [i] <+: l.path := by
  induction n using RichNode.forest_induction generalizing p ind inh with
  | nil => cases h
  | element name attributes children rest hch hr =>
    rw [locateNodes, RichNode.locate, mem_append, mem_cons] at h
    rcases h with h | rfl | h
    · obtain ⟨i, hi, hp⟩ := hr h
      exact ⟨i, by omega, hp⟩
    · exact ⟨ind, le_rfl, prefix_rfl⟩
    · obtain ⟨i, -, hp⟩ := hch h
      exact ⟨ind, le_rfl, (prefix_append _ _).trans hp⟩
  | text c rest hr | processingInstruction c rest hr =>
    rw [locateNodes, RichNode.locate, append_nil] at h
    obtain ⟨i, hi, hp⟩ := hr h
    exact ⟨i, by omega, hp⟩

/-- Nothing is found at an address that does not begin with that of the node. -/
theorem pathTo_eq_none {no : RichNode} {target : List ℕ} (h : ¬ p <+: target) : no.pathTo target p = none := by
  have hns : ∀ (n : List RichNode) (p : List ℕ) (i : ℕ), ¬ p <+: target →
      pathToNodes target p i n = none := by
    intro n
    induction n using RichNode.forest_induction with
    | nil => intros; rfl
    | element name attributes children rest hch hr =>
      intro p i hp
      have hb : ¬ p ++ [i] <+: target := fun hb => hp ((prefix_append _ _).trans hb)
      have hne : p ++ [i] ≠ target := fun heq => hb (heq ▸ prefix_rfl)
      rw [pathToNodes, RichNode.pathTo, if_neg hne, hch _ _ hb, hr _ _ hp]
      rfl
    | text c rest hr | processingInstruction c rest hr => exact fun p i hp => hr p (i + 1) hp
  cases no with
  | element name attributes children =>
    have hne : p ≠ target := fun heq => h (heq ▸ prefix_rfl)
    rw [RichNode.pathTo, if_neg hne, hns children p 0 h]
    rfl
  | text | processingInstruction => rfl

/-- **What the walk located is found again at its address, below the same declarations.** -/
theorem pathToNodes_of_mem_locateNodes {ind : ℕ} {ih : Scope}
    (h : l ∈ locateNodes p ind ih n) :
    ∃ elements, pathToNodes l.path p ind n = some elements ∧ elements ≠ [] ∧
      scopeOf ih elements.dropLast = l.here.inherited := by
  induction n using RichNode.forest_induction generalizing p ind ih with
  | nil => cases h
  | element name attributes children rest hch hr =>
    rw [locateNodes, RichNode.locate, mem_append, mem_cons] at h
    rcases h with h | rfl | h
    · obtain ⟨elements, he, hr⟩ := hr h
      obtain ⟨i, hi, hp⟩ := path_of_mem_locateNodes h
      have hne : ¬ p ++ [ind] <+: l.path := by
        intro hid
        have := prefix_of_prefix_length_le hid hp (by simp)
        simp at this
        omega
      exact ⟨elements, by rw [pathToNodes, pathTo_eq_none hne, Option.none_or, he], hr⟩
    · exact ⟨[⟨name, attributes, children⟩], by rw [pathToNodes, RichNode.pathTo, if_pos rfl]; rfl, by simp, rfl⟩
    · obtain ⟨elements, he, hne, hsc⟩ := hch h
      obtain ⟨i, -, hp⟩ := path_of_mem_locateNodes h
      have hb : p ++ [ind] ≠ l.path := by
        intro heq
        have hl := hp.length_le
        rw [← heq] at hl
        simp at hl
      refine ⟨⟨name, attributes, children⟩ :: elements, ?_, by simp, ?_⟩
      · rw [pathToNodes, RichNode.pathTo, if_neg hb, he]
        rfl
      · rw [dropLast_cons_of_ne_nil hne]
        exact hsc
  | text c rest hr | processingInstruction c rest hr =>
    rw [locateNodes, RichNode.locate, append_nil] at h
    exact hr h

/-- **The declarations rebuilt for an element are those that the walk saw.** -/
theorem scopeAt_path {r : RichElement} (h : l ∈ (Located.root r).visit) :
    scopeAt r l.path = l.here.inherited := by
  rw [Located.visit, RichElement.node, RichNode.locate, mem_cons] at h
  unfold scopeAt
  rcases h with rfl | h
  · rfl
  · obtain ⟨elements, he, hne, hsc⟩ := pathToNodes_of_mem_locateNodes h
    obtain ⟨i, -, hp⟩ := path_of_mem_locateNodes h
    have hb : [] ≠ l.path := by
      intro heq
      have hl := hp.length_le
      rw [← heq] at hl
      simp at hl
    have hfd : r.node.pathTo l.path [] = some (r :: elements) := by
      rw [RichElement.node, RichNode.pathTo, if_neg hb]
      exact congrArg (Option.map fun elements => r :: elements) he
    rw [hfd]
    show scopeOf [] (r :: elements).dropLast = _
    rw [dropLast_cons_of_ne_nil hne]
    exact hsc

/-! ### One scope everywhere -/

mutual

/-- The elements that `write_element` writes, each with the declarations that it resolves prefixes against. -/
def RichNode.written (inScope : Scope) : RichNode → List (RichElement × Scope)
  | .element name attributes children =>
    let scope := inScope.bindAll (splitAttributes attributes).1
    (⟨name, attributes, children⟩, scope) :: writtenNodes scope children
  | .text _ => []
  | .processingInstruction _ => []

/-- The same, over the children of an element. -/
def writtenNodes (inScope : Scope) : List RichNode → List (RichElement × Scope)
  | [] => []
  | node :: rest => node.written inScope ++ writtenNodes inScope rest

end

/-- What the canonicalizer writes, the walk locates, below the same declarations. -/
theorem exists_located_of_mem_writtenNodes {w : RichElement × Scope}
    (h : w ∈ writtenNodes inh n) (p : List ℕ) (i : ℕ) :
    ∃ l ∈ locateNodes p i inh n, l.here.element = w.1 ∧ l.here.scope = w.2 := by
  induction n using RichNode.forest_induction generalizing inh p i with
  | nil => cases h
  | element name attributes children rest hch hr =>
    rw [writtenNodes, RichNode.written, cons_append, mem_cons, mem_append] at h
    rcases h with rfl | h | h
    · exact ⟨_, mem_append_right _ mem_cons_self, rfl, rfl⟩
    · obtain ⟨l, hl, hw⟩ := hch h (p ++ [i]) 0
      exact ⟨l, mem_append_right _ (mem_cons_of_mem _ hl), hw⟩
    · obtain ⟨l, hl, hw⟩ := hr h p (i + 1)
      exact ⟨l, mem_append_left _ hl, hw⟩
  | text c rest hr | processingInstruction c rest hr =>
    obtain ⟨l, hl, hw⟩ := hr h p (i + 1)
    exact ⟨l, mem_append_left _ hl, hw⟩

theorem mem_visit_trans {m : Located} {i : ℕ}
    (hl : l ∈ locateNodes p i inh n) (hm : m ∈ l.visit) : m ∈ locateNodes p i inh n := by
  induction n using RichNode.forest_induction generalizing inh p i with
  | nil => cases hl
  | element name attributes children rest hch hr =>
    rw [locateNodes, RichNode.locate, mem_append, mem_cons] at hl ⊢
    rcases hl with hl | rfl | hl
    · exact .inl (hr hl)
    · exact .inr (mem_cons.mp hm)
    · exact .inr (.inr (hch hl))
  | text c rest hr | processingInstruction c rest hr =>
    rw [locateNodes, RichNode.locate, append_nil] at hl ⊢
    exact hr hl

/-- An element whose prefix is declared around it. -/
def declaredAround : RichElement :=
  ⟨['r'], [⟨"xmlns:p".toList, ['u']⟩], [.element "p:e".toList [] []]⟩

/-- Digests that compare equal are equal. -/
theorem eq_of_constantTimeEq {left right : List UInt8} (h : constantTimeEq left right) : left = right := by
  -- the accumulated difference is zero when it was and every pair is equal
  have hf : ∀ (p : List (UInt8 × UInt8)) (d : UInt8),
      p.foldl (fun d pair => d ||| (pair.1 ^^^ pair.2)) d = 0 →
        d = 0 ∧ ∀ pair ∈ p, pair.1 = pair.2 := by
    intro p
    induction p with
    | nil => exact fun d h => ⟨h, by simp⟩
    | cons pair p ih =>
      intro d h
      obtain ⟨hd, hp⟩ := ih _ h
      rw [UInt8.or_eq_zero_iff, UInt8.xor_eq_zero_iff] at hd
      exact ⟨hd.1, forall_mem_cons.mpr ⟨hd.2, hp⟩⟩
  unfold constantTimeEq at h
  rw [Bool.and_eq_true, decide_eq_true_eq, decide_eq_true_eq] at h
  obtain ⟨hl, hd⟩ := h
  refine ext_getElem hl fun i hi hi2 => ?_
  exact (hf _ _ hd).2 (left[i], right[i]) (mem_iff_getElem.mpr ⟨i, by simp; omega, by simp⟩)

section sound

variable {Anchor : Type} {primitives : Primitives Anchor} {anchors : List Anchor} {ns loc : Text}

/-- What `verify` found and checked: one element of the name that was asked for, the only one
that bears its identifier; one signature on it, one `SignedInfo` and one reference in that; and
in the reference, the digest of the element without the signature. -/
structure Checked.Sound (primitives : Primitives Anchor) (ns loc : Text) (root : RichElement) (checked : Checked) : Prop where
  candidate : ((Located.root root).visit.filter fun located => located.here.is ns loc) = [checked.candidate]
  identifier : ((Located.root root).visit.filter fun located =>
    located.here.attributeOf "ID".toList = some checked.identifier) = [checked.candidate]
  signature : checked.candidate.here.indexedChildren dsigNs "Signature".toList = [(checked.signatureIndex, checked.signature)]
  signedInfo : checked.signature.children dsigNs "SignedInfo".toList = [checked.signedInfo]
  reference : checked.signedInfo.children dsigNs "Reference".toList = [checked.reference]
  uri : checked.reference.attributeOf "URI".toList = some ('#' :: checked.identifier)
  assertion : checked.assertion =
    ⟨stripEnvelopedSignature checked.candidate.here.element checked.signatureIndex, checked.candidate.here.inherited⟩
  digestAlg : digestAlgorithm checked.reference = .ok checked.digestAlg
  digest : ∃ value form, checked.reference.children dsigNs "DigestValue".toList = [value] ∧
    checked.assertion.apex.canonical = some form ∧ decodeBase64 value.text = some (primitives.xmlDigest checked.digestAlg form)
  message : checked.signedInfo.canonical = some checked.message

variable {r : RichElement}

/-- An element that is the only one of its identifier. -/
theorem filter_eq_of_countIdentifier {id : Text} {l : Located}
    (hm : l ∈ (Located.root r).visit) (hid : l.here.attributeOf "ID".toList = some id)
    (hc : countIdentifier r id = 1) :
    ((Located.root r).visit.filter fun l => l.here.attributeOf "ID".toList = some id) = [l] := by
  have hl : ((Located.root r).visit.filter fun l =>
      l.here.attributeOf "ID".toList = some id).length = 1 := by
    rw [← hc, countIdentifier, walk_eq_visit]
    show _ = ((Located.root r).here.visit.filter _).length
    rw [← map_here_visit, filter_map, length_map]
    rfl
  obtain ⟨single, hsg⟩ := length_eq_one_iff.mp hl
  have hfd : l ∈ (Located.root r).visit.filter fun l => l.here.attributeOf "ID".toList = some id :=
    mem_filter.mpr ⟨hm, decide_eq_true hid⟩
  rw [hsg, mem_singleton] at hfd
  rw [hsg, hfd]

/-- **What `verify` found and checked when it succeeds.** -/
theorem verifyTree_sound {c : Checked}
    (h : verifyTree primitives anchors ns loc r = .ok c) :
    c.Sound primitives ns loc r ∧
      ∃ algorithm, ∃ a ∈ anchors, ∃ signature,
        primitives.verifyXmlSignature algorithm a c.message signature := by
  simp only [verifyTree, bind_eq_ok_iff, okOr_eq_ok_iff, only?_eq_some_iff, collectLocated, walkLocated_eq] at h
  obtain ⟨candidate, hc, found, hfd, signedInfo, hs, _, -, algorithm, -, reference, hr, _, -,
    uri, hu, named, hnm, id, hid, _, heq, _, hcn, digestAlg, hd, form, hf, value, hv, declared,
    hde, _, hdg, signatureValue, -, bytes, -, message, hm, _, ha, h⟩ := h
  cases h
  rw [refuseIf_eq_ok_iff, not_not] at heq hcn hdg ha
  subst heq
  have hme : candidate ∈ (Located.root r).visit :=
    mem_of_mem_filter (hc ▸ mem_singleton_self candidate)
  rw [scopeAt_path hme] at hfd hf hid
  obtain rfl := eq_of_constantTimeEq hdg
  rw [stripPrefix_eq_some_iff] at hnm
  subst hnm
  refine ⟨⟨hc, filter_eq_of_countIdentifier hme hid hcn, hfd, only?_eq_some_iff.mp hs, hr,
    hu, ?_, hd, ⟨value, form, only?_eq_some_iff.mp hv, ?_, hde⟩, hm⟩, ?_⟩
  · simp [scopeAt_path hme]
  · simp only [scopeAt_path hme]
    exact hf
  · obtain ⟨a, han, hac⟩ := any_eq_true.mp ha
    exact ⟨algorithm, a, han, bytes, hac⟩

end sound

end IronAuth.Saml
