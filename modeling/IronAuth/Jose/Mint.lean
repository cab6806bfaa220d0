import IronAuth.Jose.Verify

/-!
# Minting a compact token

`sign_jws` of `ironauth-jose/src/mint.rs`: the protected header carries the key's algorithm and its
`kid`, and the media type that the options ask for; the signature covers the two encoded segments.
-/

namespace IronAuth.Jose

open Lib Lib.Fallible Option

/-! ### Minting -/

/-- A signing key with its material: the secret half, and the public half, of the algorithm's
family. -/
structure KeyPair (Secret : Type) extends SigningKey Text where
  secret : Secret
  material : KeyMaterial
  family_eq : algorithm.keyFamily = material.family

/-- `verifying_key`. -/
def KeyPair.verifyingKey {Secret : Type} (key : KeyPair Secret) : TrustedKey := ⟨key.kid, key.material⟩

structure EmissionOptions where
  fullySpecified : Bool := false
  typ : Option Text := none

/-- `with_token_typ`. -/
def EmissionOptions.withTokenTyp (options : EmissionOptions) (typ : TokenTyp) : EmissionOptions :=
  ⟨options.fullySpecified, some typ.mediaType.toList⟩

def EmissionOptions.algName (options : EmissionOptions) (algorithm : JwsAlgorithm) : String :=
  if options.fullySpecified then algorithm.fullySpecifiedName else algorithm.asJoseName

/-- A string member, if there is one. -/
def stringMember (name : String) (text : Option Text) : Object := (text.map fun text => (name.toList, .string text)).toList

/-- The members of the protected header, in the order of their names. -/
def headerMembers (algName : String) (kid typ : Option Text) : Object :=
  stringMember "alg" (some algName.toList) ++ stringMember "kid" kid ++ stringMember "typ" typ

variable {Secret : Type}

/-- `protected_header`. -/
def protectedHeader (json : JsonFormat) (key : KeyPair Secret) (options : EmissionOptions) : List UInt8 :=
  json.toVec (.object (headerMembers (options.algName key.algorithm) key.kid options.typ))

def signingInput (header payload : List UInt8) : Text := Base64Url.encode header ++ '.' :: Base64Url.encode payload

def assemble (signingInput : Text) (signature : List UInt8) : Text := signingInput ++ '.' :: Base64Url.encode signature

inductive SignError where
  | backend
  deriving DecidableEq

/-- `sign_jws`. -/
def signJws (ring : Signatures Secret) (json : JsonFormat) (key : KeyPair Secret) (payload : List UInt8)
    (options : EmissionOptions) : Except SignError Text := do
  let input := signingInput (protectedHeader json key options) payload
  let signature ← okOr (ring.sign key.algorithm key.secret input.bytes) .backend
  return assemble input signature

/-- `b64_no_pad_len`. -/
def b64NoPadLen (n : ℕ) : ℕ := (n * 4 + 2) / 3

/-! ### Encoded segments -/

variable {b pl : List UInt8} {j : JsonFormat} {key : KeyPair Secret} {o : EmissionOptions}
   {ring : Signatures Secret}

theorem ne_dot_of_mem_encode {c : Char} (h : c ∈ Base64Url.encode b) : decide (c = '.') = false :=
  decide_eq_false (Base64Url.ne_dot_of_mem_alphabet (Base64Url.mem_alphabet_of_mem_encode h))

theorem len_encode (b : List UInt8) : (Base64Url.encode b).len = b64NoPadLen b.length := by
  have ha : ∀ c ∈ Base64Url.encode b, c.utf8Size = 1 :=
    fun c hc => Base64Url.utf8Size_of_mem_alphabet (Base64Url.mem_alphabet_of_mem_encode hc)
  rw [Text.len_eq_length ha, Base64Url.length_encode, b64NoPadLen]

theorem encode_ne_nil (h : b ≠ []) : Base64Url.encode b ≠ [] := by
  intro hn
  have hl := Base64Url.length_encode b
  rw [hn, List.length_nil] at hl
  have hp := List.length_pos_of_ne_nil h
  omega

/-- The pieces of a minted token are the three encodings. -/
theorem split_assemble (he pl sig : List UInt8) :
    (assemble (signingInput he pl) sig).split (· = '.') =
      [Base64Url.encode he, Base64Url.encode pl, Base64Url.encode sig] := by
  rw [assemble, signingInput, List.append_assoc, List.cons_append,
    Text.split_append (fun _ => ne_dot_of_mem_encode) (by decide), Text.split_append (fun _ => ne_dot_of_mem_encode) (by decide),
    Text.split_of_forall fun _ => ne_dot_of_mem_encode]

/-- `compact_len`: the length of a minted token. -/
theorem len_assemble (he pl sig : List UInt8) :
    (assemble (signingInput he pl) sig).len =
      b64NoPadLen he.length + 1 + b64NoPadLen pl.length + 1 + b64NoPadLen sig.length := by
  have hd : Char.utf8Size '.' = 1 := by decide
  rw [assemble, signingInput, Text.len_append, Text.len_append, Text.len_cons, Text.len_cons, len_encode, len_encode, len_encode,
    hd]
  omega

/-! ### The header of a minted token -/

/-- The header members are in order. -/
theorem ordered_headerMembers (a : String) (kid typ : Option Text) :
    SortedMap.Ordered (headerMembers a kid typ) := by
  have ha : (['a', 'l', 'g'] : Text) < ['k', 'i', 'd'] := by decide
  have hk : (['k', 'i', 'd'] : Text) < ['t', 'y', 'p'] := by decide
  cases kid <;> cases typ <;>
    simp [headerMembers, stringMember, SortedMap.Ordered, ha, hk, ha.trans hk]

theorem member_stringMember_append (key : String) (t : Option Text) (r : Object) (name : String) :
    member (stringMember key t ++ r) name =
      if name = key then (t.map .string).or (member r name) else member r name := by
  cases t with
  | none => simp [stringMember]
  | some t =>
    by_cases hn : name = key
    · simp [stringMember, member, hn]
    · have hne : (name.toList == key.toList) = false := by simpa [String.toList_inj] using hn
      simp only [stringMember, member, map_some, toList_some, List.singleton_append, List.lookup_cons, hne, hn,
        if_false]

/-- What is found in a header. -/
theorem member_headerMembers (a : String) (kid typ : Option Text) (n : String) :
    member (headerMembers a kid typ) n =
      if n = "alg" then some (.string a.toList)
      else if n = "kid" then kid.map .string
      else if n = "typ" then typ.map .string else none := by
  have hm : headerMembers a kid typ =
      stringMember "alg" (some a.toList) ++ (stringMember "kid" kid ++ (stringMember "typ" typ ++ [])) := by
    simp [headerMembers]
  have hn : member [] n = none := rfl
  rw [hm, member_stringMember_append, member_stringMember_append, member_stringMember_append, hn]
  split_ifs with ha hk ht <;> simp_all

/-- A name of an algorithm, in either form, is read as that algorithm. -/
theorem classifyAlg_asJoseName (algorithm : JwsAlgorithm) :
    classifyAlg (some (.string algorithm.asJoseName.toList)) = .ok algorithm ∧
      classifyAlg (some (.string algorithm.fullySpecifiedName.toList)) = .ok algorithm := by
  have hn : ∀ name : String,
      (Text.trim name.toList = [] || (Text.trim name.toList).eqIgnoreAsciiCase "none".toList) = false →
      JwsAlgorithm.fromJoseName name.toList = some algorithm → classifyAlg (some (.string name.toList)) = .ok algorithm := by
    intro name hno hf
    simp only [classifyAlg, hno, hf, okOr]
    rfl
  cases algorithm <;> exact ⟨hn _ (by decide) (by decide), hn _ (by decide) (by decide)⟩

/-- The name under which an algorithm is emitted is read as that algorithm. -/
theorem classifyAlg_algName (o : EmissionOptions) (algorithm : JwsAlgorithm) :
    classifyAlg (some (.string (o.algName algorithm).toList)) = .ok algorithm := by
  unfold EmissionOptions.algName
  split
  · exact (classifyAlg_asJoseName algorithm).2
  · exact (classifyAlg_asJoseName algorithm).1

/-- An object that is read back as it was written. -/
def ReadsBack (json : JsonFormat) (members : Object) : Prop := json.members (json.toVec (.object members)) = some members

theorem parseUniqueObject_toVec {members : Object} (h : ReadsBack j members)
    (ho : SortedMap.Ordered members) : parseUniqueObject j (j.toVec (.object members)) = some members := by
  rw [parseUniqueObject, h, bind_some, if_pos ho.nodup]
  exact congrArg some (SortedMap.extend_of_ordered (by exact ho))

theorem optionalString_map (text : Option Text) (e : RejectReason) :
    optionalString (text.map .string) e = .ok text := by
  cases text <;> rfl

/-- **The header of a minted token is read as it was meant.** -/
theorem parseHeader_protectedHeader
    (h : ReadsBack j (headerMembers (o.algName key.algorithm) key.kid o.typ)) :
    parseHeader j (protectedHeader j key o) = .ok ⟨key.algorithm, key.kid, o.typ⟩ := by
  rw [parseHeader, protectedHeader, parseUniqueObject_toVec h (ordered_headerMembers ..)]
  simp [okOr, hasMember, rejectCrit, member_headerMembers, classifyAlg_algName, optionalString_map, refuseIf, bind, Except.bind,
    pure, Except.pure]

/-! ### Accepting a minted token -/

/-- The signature scheme verifies what it signed. -/
def Signatures.Verifies (ring : Signatures Secret) (key : KeyPair Secret) : Prop :=
  ∀ message signature, ring.sign key.algorithm key.secret message = some signature →
    ring.verify key.algorithm key.material message signature = true

/-- The signed bytes are those that are verified. -/
theorem signingInputBytes_encode (he pl : List UInt8) :
    signingInputBytes (Base64Url.encode he) (Base64Url.encode pl) = (signingInput he pl).bytes := by
  rw [signingInputBytes, signingInput, ← Text.bytes_append, ← Text.bytes_append, List.append_assoc, List.singleton_append]

theorem toVec_object_ne_nil (j : JsonFormat) (m : Object) : j.toVec (.object m) ≠ [] := by
  intro hn
  have hl := Text.length_bytes (Json.write j.scalars (.object m))
  rw [JsonFormat.toVec] at hn
  rw [hn, Json.write, Text.len_cons, List.length_nil] at hl
  have hp := Char.utf8Size_pos '\x7b'
  omega

/-- A trusted key that is the public half of a signing key and answers to its key id. -/
def Trusts (keys : List TrustedKey) (key : KeyPair Secret) : Prop :=
  ∃ trusted ∈ keys, trusted.material = key.material ∧ trusted.answersTo key.kid = true

/-- **A minted token is accepted exactly when** it is within the caps, its algorithm and its media type
are those the policy asks for, and its claims pass. -/
theorem verify_signJws_eq_ok_iff
    {p : VerificationPolicy} {now : ℤ} {signature : List UInt8} {v : VerifiedToken}
    (hr : ring.Verifies key) (hhd : ReadsBack j (headerMembers (o.algName key.algorithm) key.kid o.typ))
    (ht : Trusts p.keys key) (hp : pl ≠ []) (hi : signature ≠ [])
    (hs : ring.sign key.algorithm key.secret (signingInput (protectedHeader j key o) pl).bytes = some signature) :
    verify ring j (assemble (signingInput (protectedHeader j key o) pl) signature) p now = .ok v ↔
      (assemble (signingInput (protectedHeader j key o) pl) signature).len ≤ p.caps.maxTokenBytes ∧
      b64NoPadLen (protectedHeader j key o).length ≤ maxB64Len p.caps.maxHeaderBytes ∧
      b64NoPadLen pl.length ≤ maxB64Len p.caps.maxPayloadBytes ∧
      key.algorithm ∈ p.algorithms ∧ p.expectedTyp.accepts o.typ = true ∧
      ∃ claims, parseAndEnforce j pl p (nowSeconds now) = .ok claims ∧
        v = ⟨key.algorithm, key.kid, o.typ, claims⟩ := by
  have hpa := parseHeader_protectedHeader hhd
  have hne : protectedHeader j key o ≠ [] := toVec_object_ne_nil j _
  have hsp : splitSegments (assemble (signingInput (protectedHeader j key o) pl) signature) =
      some ⟨Base64Url.encode (protectedHeader j key o), Base64Url.encode pl, Base64Url.encode signature⟩ := by
    rw [splitSegments, split_assemble]
    exact if_neg (by simp [encode_ne_nil hne, encode_ne_nil hp, encode_ne_nil hi])
  rw [verify_eq_ok_iff]
  constructor
  · rintro ⟨s, header, claims, h, rfl⟩
    obtain rfl := some.inj (hsp.symm.trans h.split)
    obtain ⟨he, hd, hpr⟩ := h.parsed
    obtain ⟨pb, hd2, hc⟩ := h.enforced
    obtain rfl := some.inj ((Base64Url.decode_encode _).symm.trans hd)
    obtain rfl := some.inj ((Base64Url.decode_encode _).symm.trans hd2)
    obtain rfl := Except.ok.inj (hpa.symm.trans hpr)
    exact ⟨h.size, len_encode _ ▸ h.headerSize, len_encode pl ▸ h.payloadSize, h.algorithm, h.typ, claims, hc, rfl⟩
  · rintro ⟨hsi, hh, hpas, ha, hty, claims, hc, rfl⟩
    obtain ⟨t, htr, hm, han⟩ := ht
    have hvf : verifySignature ring key.algorithm t.material (signingInputBytes
        (Base64Url.encode (protectedHeader j key o)) (Base64Url.encode pl)) signature = true := by
      rw [verifySignature, hm, signingInputBytes_encode, hr _ _ hs, Bool.and_true, decide_eq_true_eq]
      exact key.family_eq
    refine ⟨⟨Base64Url.encode (protectedHeader j key o), Base64Url.encode pl, Base64Url.encode signature⟩,
      ⟨key.algorithm, key.kid, o.typ⟩, claims, ?_, rfl⟩
    exact {
      size := hsi
      split := hsp
      headerSize := by rwa [len_encode]
      payloadSize := by rwa [len_encode]
      parsed := ⟨_, Base64Url.decode_encode _, hpa⟩
      algorithm := ha
      typ := hty
      signature := ⟨signature, Base64Url.decode_encode _, t, htr, han, hvf⟩
      enforced := ⟨pl, Base64Url.decode_encode _, hc⟩ }

end IronAuth.Jose
