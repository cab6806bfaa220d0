import IronAuth.Saml.Coverage
import IronAuth.Saml.Verify

/-!
# Signature wrapping

An attacker who holds a signed document can move its parts about, copy them, and put parts of
their own around them. What `verify` returns then is still what was signed: the octets whose
signature it checks fix the digest, the digest fixes the canonical form of what is returned,
and that fixes whatever a consumer can read of it.

They do not fix which of the signed elements is returned. An element around a signed assertion
can rebind the prefix of its name, and then the assertion is not what was asked for any more;
if another one stands beside it, that one is returned.
-/

namespace IronAuth.Saml

open Lib.Fallible List

/-! ### Well-formed parts -/

theorem WellFormed.sublist {tables : CharTables} {n nodes2 : List RichNode} (h : WellFormed tables n)
    (hs : nodes2.Sublist n) : WellFormed tables nodes2 := by
  induction h generalizing nodes2 with
  | nil => exact sublist_nil.mp hs ▸ .nil
  | element hn ha hnd hch _ _ i =>
    cases hs with
    | cons _ hs => exact i hs
    | cons_cons _ hs => exact .element hn ha hnd hch (i hs)
  | text _ ih =>
    cases hs with
    | cons _ hs => exact ih hs
    | cons_cons _ hs => exact .text (ih hs)
  | processingInstruction hc _ ih =>
    cases hs with
    | cons _ hs => exact ih hs
    | cons_cons _ hs => exact .processingInstruction hc (ih hs)

namespace Scoped

variable {tables : CharTables} {e : Scoped}

/-- An element below a well-formed element is well formed. -/
theorem WellFormed.of_mem_visit (h : e.WellFormed tables) {b : Scoped} (hb : b ∈ e.visit) :
    b.WellFormed tables :=
  Saml.WellFormed.of_mem_visitNodes h (show b ∈ visitNodes e.inherited [e.element.node] from hb)

theorem WellFormed.of_mem_children (h : e.WellFormed tables) {ns loc : Text} {c : Scoped}
    (hc : c ∈ e.children ns loc) : c.WellFormed tables := by
  rw [children_eq_filter] at hc
  refine h.of_mem_visit ?_
  rw [visit_eq, mem_cons, mem_flatMap]
  refine .inr ⟨c, mem_reverse.mpr (mem_of_mem_filter hc), ?_⟩
  exact mem_cons_self ..

theorem WellFormed.strip (h : e.WellFormed tables) (i : ℕ) :
    WellFormed tables ⟨stripEnvelopedSignature e.element i, e.inherited⟩ := by
  cases h with
  | element hn ha hnd hch hr =>
    exact .element hn ha hnd (hch.sublist (eraseIdx_sublist _ _)) hr

/-! ### Signatures of one view -/

variable {e2 : Scoped}

variable (h : e.view = e2.view)

include h

theorem attributeOf_congr {name : Text} (hn : isDeclarationName name = false) :
    e.attributeOf name = e2.attributeOf name := by
  have ho := ordinaryAttribute_congr h name
  unfold ordinaryAttribute at ho
  rw [hn] at ho
  exact ho

theorem digestAlgorithm_congr : digestAlgorithm e = digestAlgorithm e2 := by
  refine bind_eq_bind_of_view view ?_ ?_
  · rw [map_okOr, map_okOr, child, child, ← only?_map, ← only?_map, map_view_children_congr h]
  · intro m m2 hm
    rw [attributeOf_congr hm rfl]

/-- The one child of elements of one view. -/
theorem view_eq_of_children_eq {ns loc : Text} {c c2 : Scoped}
    (hc : e.children ns loc = [c]) (hc2 : e2.children ns loc = [c2]) : c.view = c2.view := by
  have hv := map_view_children_congr h ns loc
  rw [hc, hc2] at hv
  exact head_eq_of_cons_eq hv

end Scoped

section wrapping

variable {Anchor : Type} {primitives : Primitives Anchor} {tables : CharTables}

/-! ### What `verify` found is well formed -/

variable {ns loc ns2 loc2 : Text} {root root2 : RichElement} {checked checked2 : Checked}

section

variable (h : checked.Sound primitives ns loc root)

include h

variable (hr : WellFormed tables [root.node])

include hr

theorem Checked.Sound.wellFormed_candidate
    : checked.candidate.here.WellFormed tables := by
  have hm : checked.candidate ∈ (Located.root root).visit :=
    mem_of_mem_filter (h.candidate ▸ mem_singleton_self checked.candidate)
  have hh := mem_map_of_mem (f := Located.here) hm
  rw [map_here_visit] at hh
  exact Scoped.WellFormed.of_mem_visit (e := (Located.root root).here) hr hh

theorem Checked.Sound.wellFormed_assertion
    : checked.assertion.apex.WellFormed tables := by
  rw [h.assertion]
  exact (h.wellFormed_candidate hr).strip checked.signatureIndex

theorem Checked.Sound.wellFormed_signedInfo
    : checked.signedInfo.WellFormed tables := by
  have hs : checked.signature ∈ checked.candidate.here.children dsigNs "Signature".toList := by
    rw [Scoped.children, h.signature]
    exact mem_singleton_self _
  have hsi : checked.signedInfo ∈ checked.signature.children dsigNs "SignedInfo".toList := by
    rw [h.signedInfo]
    exact mem_singleton_self _
  exact ((h.wellFormed_candidate hr).of_mem_children hs).of_mem_children hsi

/-! ### One message, one content -/

end

/-- **With one signed message, one view of what is returned.** -/
theorem Checked.Sound.view_eq_of_message (hd : ∀ alg, Function.Injective (primitives.xmlDigest alg))
    (h : checked.Sound primitives ns loc root) (h2 : checked2.Sound primitives ns2 loc2 root2)
    (hr : WellFormed tables [root.node]) (hr2 : WellFormed tables [root2.node])
    (hm : checked2.message = checked.message) (hi : checked.signedInfo.XmlFree)
    (hx : checked.assertion.apex.XmlFree) : checked.assertion.apex.view = checked2.assertion.apex.view := by
  -- the message determines what is read of the reference, and with it the digest
  have hs : checked.signedInfo.view = checked2.signedInfo.view :=
    Scoped.view_eq_of_canonical (h.wellFormed_signedInfo hr) (h2.wellFormed_signedInfo hr2) hi h.message
      (hm ▸ h2.message)
  have hre := Scoped.view_eq_of_children_eq hs h.reference h2.reference
  have ha : checked.digestAlg = checked2.digestAlg := by
    have := h.digestAlg
    rw [Scoped.digestAlgorithm_congr hre, h2.digestAlg] at this
    exact (Except.ok.inj this).symm
  obtain ⟨value, f, hv, hf, hde⟩ := h.digest
  obtain ⟨v2, form2, hv2, hf2, hd2⟩ := h2.digest
  have hdg : primitives.xmlDigest checked.digestAlg f = primitives.xmlDigest checked.digestAlg form2 := by
    rw [Scoped.text_congr (Scoped.view_eq_of_children_eq hre hv hv2), hd2, ← ha] at hde
    exact (Option.some.inj hde).symm
  -- the digest determines the canonical form
  obtain rfl := hd _ hdg
  exact Scoped.view_eq_of_canonical (h.wellFormed_assertion hr) (h2.wellFormed_assertion hr2) hx hf hf2

/-- The tree that `build` answers with is well formed. -/
theorem wellFormed_of_build {tokenize : Text → List Token} (ht : ∀ text, Tokenized (tokenize text)) {bytes : ByteArray}
    {limits : Limits} (h : build tables tokenize bytes limits = .ok root) : WellFormed tables [root.node] := by
  simp only [build, bind_eq_ok_iff] at h
  obtain ⟨_, -, text, -, h⟩ := h
  exact wellFormed_of_buildTokens (ht _) h

variable {anchors : List Anchor} {tokenize : Text → List Token} {bytes : ByteArray} {limits : Limits}

theorem verifyDocument_eq_ok_iff :
    verifyDocument primitives anchors ns loc tables tokenize bytes limits = .ok (root, checked) ↔
      build tables tokenize bytes limits = .ok root ∧ verifyTree primitives anchors ns loc root = .ok checked := by
  unfold verifyDocument
  cases build tables tokenize bytes limits with
  | error error =>
    constructor
    · intro h
      cases h
    · rintro ⟨h, -⟩
      cases h
  | ok b =>
    show (verifyTree primitives anchors ns loc b >>= fun checked => .ok (b, checked)) = .ok (root, checked) ↔ _
    simp only [bind_eq_ok_iff, Except.ok.injEq, Prod.mk.injEq]
    constructor
    · rintro ⟨found, hfd, rfl, rfl⟩
      exact ⟨rfl, hfd⟩
    · rintro ⟨rfl, hfd⟩
      exact ⟨checked, hfd, rfl, rfl⟩

/-- **What `verify` returns is what was signed.** It is the only element of the document with
the identifier of the reference, without the one signature that stands in it; a trusted key
signed the octets of a `SignedInfo` whose reference holds the digest of it; and whatever is done
to the document outside of it, under the same signed octets nothing else can be read of what is
returned. -/
theorem verify_returns_signed {Signed : Anchor → ByteArray → Prop} (hdigest : ∀ alg, Function.Injective (primitives.xmlDigest alg))
    (hsignature : ∀ algorithm anchor message signature,
      primitives.verifyXmlSignature algorithm anchor message signature → Signed anchor message)
    (htokenize : ∀ text, Tokenized (tokenize text)) {assertion : VerifiedAssertion}
    (h : verify primitives anchors ns loc tables tokenize bytes limits = .ok assertion) :
    ∃ (root : RichElement) (checked : Checked),
      build tables tokenize bytes limits = .ok root ∧ checked.assertion = assertion ∧
      checked.Sound primitives ns loc root ∧ (∃ anchor ∈ anchors, Signed anchor checked.message) ∧
      (checked.signedInfo.XmlFree → assertion.apex.XmlFree →
        ∀ anchors2 ns2 loc2 bytes2 limits2 root2 checked2,
          verifyDocument primitives anchors2 ns2 loc2 tables tokenize bytes2 limits2 = .ok (root2, checked2) →
          checked2.message = checked.message → assertion.apex.SameReadings checked2.assertion.apex) := by
  obtain ⟨⟨root, checked⟩, hve, rfl⟩ := map_eq_ok_iff.mp h
  obtain ⟨hbu, htr⟩ := verifyDocument_eq_ok_iff.mp hve
  obtain ⟨hso, algorithm, anchor, han, signature, hac⟩ := verifyTree_sound htr
  refine ⟨root, checked, hbu, rfl, hso, ⟨anchor, han, hsignature _ _ _ _ hac⟩, ?_⟩
  intro hin hxml anchors2 ns2 loc2 bytes2 limits2 root2 checked2 hve2 hme
  obtain ⟨hbu2, htr2⟩ := verifyDocument_eq_ok_iff.mp hve2
  have hvi := hso.view_eq_of_message hdigest (verifyTree_sound htr2).1 (wellFormed_of_build htokenize hbu)
    (wellFormed_of_build htokenize hbu2) hme hin hxml
  exact ⟨fun query => VerifiedAssertion.ask_eq_of_view query hvi,
    fun exp now => check_eq_of_view exp now hvi⟩

end wrapping

/-! ### Two signed assertions -/

mutual

/-- The tokens of a tree in which nothing needs an escape. -/
def RichNode.tokens : RichNode → List Token
  | .element name attributes children =>
    some (.start ⟨name, attributes.map fun entry => some (entry.name, entry.value)⟩) ::
      (tokensOf children ++ [some .endTag])
  | .text content => [some (.text content)]
  | .processingInstruction content => [some (.pi content)]

/-- The tokens of a list of trees. -/
def tokensOf : List RichNode → List Token
  | [] => []
  | node :: rest => node.tokens ++ tokensOf rest

end

/-- An element that names an algorithm. -/
def methodNode (name uri : Text) : RichNode := .element name [⟨"Algorithm".toList, uri⟩] []

/-- An element with a text. -/
def valueElement (name content : Text) : RichElement := ⟨name, [], [.text content]⟩

/-- The reference to an assertion. -/
def referenceElement (id digest : Text) : RichElement where
  name := "d:Reference".toList
  attributes := [⟨"URI".toList, '#' :: id⟩]
  children :=
    [.element "d:Transforms".toList []
        [methodNode "d:Transform".toList enveloped, methodNode "d:Transform".toList exclusiveC14n],
      methodNode "d:DigestMethod".toList "http://www.w3.org/2001/04/xmlenc#sha256".toList,
      (valueElement "d:DigestValue".toList digest).node]

/-- The `SignedInfo` of an assertion. -/
def signedInfoElement (id digest : Text) : RichElement where
  name := "d:SignedInfo".toList
  attributes := []
  children :=
    [methodNode "d:CanonicalizationMethod".toList exclusiveC14n,
      methodNode "d:SignatureMethod".toList "http://www.w3.org/2001/04/xmldsig-more#rsa-sha256".toList,
      (referenceElement id digest).node]

/-- The signature of an assertion. -/
def signatureElement (id digest : Text) : RichElement where
  name := "d:Signature".toList
  attributes := []
  children := [(signedInfoElement id digest).node, (valueElement "d:SignatureValue".toList "AAAA".toList).node]

/-- An assertion without its signature. -/
def bareElement (id subject : Text) : RichElement := ⟨"A".toList, [⟨"ID".toList, id⟩], [.text subject]⟩

/-- An assertion with its signature. -/
def signedElement (id digest subject : Text) : RichElement :=
  ⟨"A".toList, [⟨"ID".toList, id⟩], [(signatureElement id digest).node, .text subject]⟩

/-- The root of a document with signed assertions in it. -/
def rootElement (children : List RichNode) : RichElement :=
  ⟨"R".toList, [⟨"xmlns".toList, "urn:a".toList⟩, ⟨"xmlns:d".toList, dsigNs⟩], children⟩

/-- The declarations of the root. -/
def rootScope : Scope := [⟨[], "urn:a".toList⟩, ⟨['d'], dsigNs⟩]

/-- The assertion of one subject. -/
def aliceElement : RichElement := signedElement ['e'] "AA==".toList "alice".toList

/-- The assertion of another. -/
def bobElement : RichElement := signedElement ['f'] "AQ==".toList "bob".toList

/-- A document with one signed assertion. -/
def aloneDocument : RichElement := rootElement [aliceElement.node]

/-- The same assertion, wrapped in an element with another default namespace, and one more
signed assertion beside that. -/
def wrappedDocument : RichElement :=
  rootElement [.element "W".toList [⟨"xmlns".toList, "urn:b".toList⟩] [aliceElement.node], bobElement.node]

/-- The octets that are digested. -/
def digestedOctets (id subject : Text) : Option ByteArray := canonicalize (bareElement id subject) rootScope

/-- The octets that are signed. -/
def signedOctets (id digest : Text) : Option ByteArray := canonicalize (signedInfoElement id digest) rootScope

/-- A digest without collisions, which the two assertions have as they declare it, and a key
that signed the two. -/
def twoSigned : Primitives Unit where
  xmlDigest _ form :=
    if digestedOctets ['e'] "alice".toList = some form then [0]
    else if digestedOctets ['f'] "bob".toList = some form then [1]
    else 2 :: form.data.toList
  verifyXmlSignature _ _ message _ :=
    signedOctets ['e'] "AA==".toList = some message ∨ signedOctets ['f'] "AQ==".toList = some message

theorem exists_digestedOctets (id s : Text) : ∃ form, digestedOctets id s = some form := ⟨_, rfl⟩

theorem exists_signedOctets (id dig : Text) : ∃ message, signedOctets id dig = some message := ⟨_, rfl⟩

/-- What `verify` finds in a document with one assertion of the name. -/
def foundIn (path : List ℕ) (id digest subject : Text) (message : ByteArray) : Checked where
  candidate := ⟨path, ⟨signedElement id digest subject, rootScope⟩⟩
  signatureIndex := 0
  signature := ⟨signatureElement id digest, rootScope⟩
  signedInfo := ⟨signedInfoElement id digest, rootScope⟩
  reference := ⟨referenceElement id digest, rootScope⟩
  identifier := id
  digestAlg := .sha256
  message := message
  assertion := ⟨bareElement id subject, rootScope⟩

/-- The key signed these octets. -/
def SignedByKey (message : ByteArray) : Prop :=
  signedOctets ['e'] "AA==".toList = some message ∨ signedOctets ['f'] "AQ==".toList = some message

theorem verifyXmlSignature_twoSigned_iff {a : XmlSigAlg} {message : ByteArray} {sig : List UInt8} :
    twoSigned.verifyXmlSignature a () message sig ↔ SignedByKey message := by
  simp [twoSigned, SignedByKey]

theorem verifyTree_signed {root : RichElement} {p : List ℕ} {id dig s : Text} {v : List UInt8}
    {f msg : ByteArray}
    (hc : collectLocated root "urn:a".toList "A".toList = [⟨p, ⟨signedElement id dig s, rootScope⟩⟩])
    (hsc : scopeAt root p = rootScope) (hcn : countIdentifier root id = 1)
    (hf : digestedOctets id s = some f) (hd : twoSigned.xmlDigest .sha256 f = v)
    (hv : decodeBase64 dig = some v) (he : constantTimeEq v v)
    (hm : signedOctets id dig = some msg)
    (ha : twoSigned.verifyXmlSignature .rsaSha256 () msg [0, 0, 0]) :
    verifyTree twoSigned [()] "urn:a".toList "A".toList root = .ok (foundIn p id dig s msg) := by
  rw [← append_nil dig] at hv
  simp only [verifyTree, bind_eq_ok_iff, hc]
  refine ⟨_, rfl, (0, ⟨signatureElement id dig, rootScope⟩), ?_, ⟨signedInfoElement id dig, rootScope⟩, rfl, (), rfl,
    .rsaSha256, rfl, ⟨referenceElement id dig, rootScope⟩, rfl, (), rfl, '#' :: id, rfl, id, rfl, id, rfl,
    (), refuseIf_neg (by simp), (), refuseIf_neg (by simp [hcn]), .sha256, rfl, f, ?_,
    ⟨valueElement "d:DigestValue".toList dig, rootScope⟩, rfl, v, okOr_eq_ok_iff.mpr hv, (),
    refuseIf_neg (by simp [hd, he]), ⟨valueElement "d:SignatureValue".toList "AAAA".toList, rootScope⟩, rfl,
    [0, 0, 0], rfl, msg, okOr_eq_ok_iff.mpr hm, (), refuseIf_neg (by simp [ha]), ?_⟩
  · rw [hsc]
    rfl
  · rw [hsc]
    exact okOr_eq_ok_iff.mpr hf
  · rw [hsc]
    rfl

theorem verifyTree_aloneDocument : ∃ message, verifyTree twoSigned [()] "urn:a".toList "A".toList aloneDocument =
    .ok (foundIn [0] ['e'] "AA==".toList "alice".toList message) := by
  obtain ⟨f, hf⟩ := exists_digestedOctets ['e'] "alice".toList
  obtain ⟨message, hm⟩ := exists_signedOctets ['e'] "AA==".toList
  exact ⟨message, verifyTree_signed rfl rfl rfl hf (if_pos hf) rfl rfl hm (verifyXmlSignature_twoSigned_iff.mpr (.inl hm))⟩

theorem digestedOctets_ne : digestedOctets ['e'] "alice".toList ≠ digestedOctets ['f'] "bob".toList := by
  show some (octets "<A xmlns=\"urn:a\" ID=\"e\">alice</A>".toList) ≠
    some (octets "<A xmlns=\"urn:a\" ID=\"f\">bob</A>".toList)
  decide

theorem verifyTree_wrappedDocument : ∃ message, verifyTree twoSigned [()] "urn:a".toList "A".toList wrappedDocument =
    .ok (foundIn [1] ['f'] "AQ==".toList "bob".toList message) := by
  obtain ⟨f, hf⟩ := exists_digestedOctets ['f'] "bob".toList
  obtain ⟨message, hm⟩ := exists_signedOctets ['f'] "AQ==".toList
  have hd : twoSigned.xmlDigest .sha256 f = [1] :=
    (if_neg fun h => digestedOctets_ne (h.trans hf.symm)).trans (if_pos hf)
  exact ⟨message, verifyTree_signed rfl rfl rfl hf hd rfl rfl hm (verifyXmlSignature_twoSigned_iff.mpr (.inr hm))⟩

theorem xmlDigest_twoSigned_injective (alg : XmlDigestAlg) : Function.Injective (twoSigned.xmlDigest alg) := by
  intro f f2 h
  simp only [twoSigned] at h
  split_ifs at h with ha ha2 hb2 hb ha2 hb2 ha2 hb2
  · exact Option.some.inj (ha.symm.trans ha2)
  · cases h
  · cases h
  · cases h
  · exact Option.some.inj (hb.symm.trans hb2)
  · cases h
  · cases h
  · cases h
  · exact ByteArray.ext (Array.toList_inj.mp (List.cons.inj h).2)

/-- A token with nothing repeated, and not an instruction. -/
def Token.isPlain : Token → Bool
  | some (.start tag) => decide ((tag.attributes.filterMap id).map Prod.fst).Nodup
  | some (.empty tag) => decide ((tag.attributes.filterMap id).map Prod.fst).Nodup
  | some (.pi _) => false
  | _ => true

theorem tokenized_of_isPlain {tokens : List Token} (h : tokens.all Token.isPlain) : Tokenized tokens := by
  intro ev he
  have hpl := all_eq_true.mp h _ he
  cases ev with
  | start | empty => simpa [Token.isPlain, Event.Genuine, StartTag.Unrepeated] using hpl
  | pi c => cases hpl
  | _ => trivial

theorem tokenized_aloneDocument : Tokenized aloneDocument.node.tokens := tokenized_of_isPlain rfl

theorem buildTokens_aloneDocument : buildTokens asciiOnly .default aloneDocument.node.tokens = .ok aloneDocument := (rfl)

/-- **Wrapping can change what is returned.** The assertion of the first document stands in the
second as it is, and what `verify` returns is another one that the key signed. -/
theorem wrapping_changes_content :
    (∀ alg, Function.Injective (twoSigned.xmlDigest alg)) ∧
      (∀ algorithm message signature, twoSigned.verifyXmlSignature algorithm () message signature → SignedByKey message) ∧
      Tokenized aloneDocument.node.tokens ∧ Tokenized wrappedDocument.node.tokens ∧
      buildTokens asciiOnly .default aloneDocument.node.tokens = .ok aloneDocument ∧
      buildTokens asciiOnly .default wrappedDocument.node.tokens = .ok wrappedDocument ∧
      (fun checked => checked.assertion.textOf "urn:a".toList "A".toList) <$>
        verifyTree twoSigned [()] "urn:a".toList "A".toList aloneDocument = .ok (some "alice".toList) ∧
      (fun checked => checked.assertion.textOf "urn:a".toList "A".toList) <$>
        verifyTree twoSigned [()] "urn:a".toList "A".toList wrappedDocument = .ok (some "bob".toList) := by
  obtain ⟨message, hal⟩ := verifyTree_aloneDocument
  obtain ⟨mes2, hwr⟩ := verifyTree_wrappedDocument
  refine ⟨xmlDigest_twoSigned_injective, fun _ _ _ => verifyXmlSignature_twoSigned_iff.mp, tokenized_aloneDocument, tokenized_of_isPlain rfl,
    buildTokens_aloneDocument, rfl, ?_, ?_⟩
  · rw [hal]
    rfl
  · rw [hwr]
    rfl

/-- What is returned of the document with one assertion, and that it stays. -/
theorem aloneDocument_returned :
    ∃ (root : RichElement) (checked : Checked),
      build asciiOnly (fun _ => aloneDocument.node.tokens) .empty .default = .ok root ∧
      checked.assertion = ⟨bareElement ['e'] "alice".toList, rootScope⟩ ∧
      checked.Sound twoSigned "urn:a".toList "A".toList root ∧ (∃ anchor ∈ [()], SignedByKey checked.message) ∧
      (checked.signedInfo.XmlFree → Scoped.XmlFree ⟨bareElement ['e'] "alice".toList, rootScope⟩ →
        ∀ anchors2 ns2 loc2 bytes2 limits2 root2 checked2,
          verifyDocument twoSigned anchors2 ns2 loc2 asciiOnly (fun _ => aloneDocument.node.tokens) bytes2 limits2 =
            .ok (root2, checked2) →
          checked2.message = checked.message →
          Scoped.SameReadings ⟨bareElement ['e'] "alice".toList, rootScope⟩ checked2.assertion.apex) := by
  obtain ⟨message, hal⟩ := verifyTree_aloneDocument
  have hbu : build asciiOnly (fun _ => aloneDocument.node.tokens) .empty .default = .ok aloneDocument :=
    bind_eq_ok_iff.mpr ⟨(), rfl, bind_eq_ok_iff.mpr ⟨[], rfl, buildTokens_aloneDocument⟩⟩
  have hve : verify twoSigned [()] "urn:a".toList "A".toList asciiOnly (fun _ => aloneDocument.node.tokens) .empty
      .default = .ok ⟨bareElement ['e'] "alice".toList, rootScope⟩ :=
    map_eq_ok_iff.mpr ⟨_, verifyDocument_eq_ok_iff.mpr ⟨hbu, hal⟩, rfl⟩
  exact verify_returns_signed xmlDigest_twoSigned_injective (fun _ _ _ _ => verifyXmlSignature_twoSigned_iff.mp)
    (fun _ => tokenized_aloneDocument) hve

end IronAuth.Saml
