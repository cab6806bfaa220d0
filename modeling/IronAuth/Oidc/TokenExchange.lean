import Mathlib.Data.Finset.Basic
import IronAuth.Oidc.ActChain

/-!
# Token exchange

A client trades a token for another: the policy (`decide`) narrows scope and audience, settles the type
of the token and extends the chain of actors, and the endpoint derives the mode of the exchange from
the tokens that are presented and issues the result.

A token is what its revalidation finds: an `at+jwt` token carries its chain of actors, of an opaque one
nothing is found. The scope of a token is a set of words, and goes through the text of the token
unchanged. Authentication, revalidation, the fences on principals and the resolution of targets only
refuse; a transaction token is no subject of a further exchange.
-/

namespace IronAuth.Oidc

open Lib Lib.Fallible List

/-! ### The policy -/

inductive GrantType where
  | authorizationCode
  | refreshToken
  | clientCredentials
  | deviceCode
  | jwtBearer
  | tokenExchange
  deriving DecidableEq

structure ClientGrantPolicy where
  allowed : List GrantType
  confidential : Bool

inductive GrantDenial where
  | notRegistered
  | requiresConfidentialClient

def requiresConfidentialClient : GrantType → Bool
  | .authorizationCode => false
  | .refreshToken => false
  | .deviceCode => false
  | .clientCredentials => true
  | .jwtBearer => true
  | .tokenExchange => true

def clientMayUse (policy : ClientGrantPolicy) (grant : GrantType) : Except GrantDenial Unit := do
  refuseIf (grant ∉ policy.allowed) .notRegistered
  refuseIf (requiresConfidentialClient grant = true ∧ policy.confidential = false) .requiresConfidentialClient

inductive ExchangeMode where
  | downscope
  | delegation
  | impersonation
  | nativeSsoBootstrap
  deriving DecidableEq

inductive ExchangeDenial where
  | scopeWidened (widened : Finset Text)
  | audienceWidened (widened : Finset Text)
  | impersonationNotAllowed
  | modeTokenMismatch
  | subjectHasNoScope

structure ExchangeRequest where
  subjectScope : Finset Text
  subjectAudience : Finset Text
  /-- Empty when the parameter was omitted. -/
  requestedScope : Finset Text
  requestedAudience : Finset Text
  actorPresent : Bool
  mode : ExchangeMode

structure ExchangeGrant where
  scope : Finset Text
  audience : Finset Text
  recordsActor : Bool

/-- What was asked for, unless it is wider than what is there; what is there, if nothing was asked for. -/
def narrow {ε : Type} (available requested : Finset Text) (widened : Finset Text → ε) : Except ε (Finset Text) :=
  if requested = ∅ then .ok available
  else if requested \ available ≠ ∅ then .error (widened (requested \ available))
  else .ok requested

def decideExchange (request : ExchangeRequest) (impersonationAllowed : Bool) : Except ExchangeDenial ExchangeGrant := do
  refuseIf (request.actorPresent ≠ decide (request.mode = .delegation)) .modeTokenMismatch
  refuseIf (request.mode = .impersonation ∧ impersonationAllowed = false) .impersonationNotAllowed
  refuseIf (request.subjectScope = ∅) .subjectHasNoScope
  let scope ← narrow request.subjectScope request.requestedScope .scopeWidened
  -- a bootstrap is the first token of its client, so the subject's audience is no bound for it
  let audience ←
    if request.mode = .nativeSsoBootstrap then .ok request.requestedAudience
    else narrow request.subjectAudience request.requestedAudience .audienceWidened
  .ok ⟨scope, audience, request.mode = .delegation⟩

inductive IssuedTokenType where
  | accessTokenJwt
  | accessTokenOpaque
  | refreshToken
  deriving DecidableEq

inductive TypeDenial where
  | refreshNotAllowed
  | unsupportedType (uri : Text)

inductive TokenFormat where
  | atJwt
  | opaqueToken
  deriving DecidableEq

namespace TypeUri

def accessToken : Text := "urn:ietf:params:oauth:token-type:access_token".toList
def refreshToken : Text := "urn:ietf:params:oauth:token-type:refresh_token".toList
def jwt : Text := "urn:ietf:params:oauth:token-type:jwt".toList

end TypeUri

/-- What an access token is, in this format. -/
def TokenFormat.access : TokenFormat → IssuedTokenType
  | .atJwt => .accessTokenJwt
  | .opaqueToken => .accessTokenOpaque

def negotiateType (requested : Option Text) (refreshAllowed : Bool) (defaultFormat : TokenFormat) :
    Except TypeDenial IssuedTokenType :=
  match requested with
  | none => .ok defaultFormat.access
  | some uri =>
    if uri = TypeUri.accessToken then .ok defaultFormat.access
    else if uri = TypeUri.jwt then .ok .accessTokenJwt
    else if uri = TypeUri.refreshToken then (if refreshAllowed then .ok .refreshToken else .error .refreshNotAllowed)
    else .error (.unsupportedType uri)

/-- Why an exchange is refused: a stage of the policy, or the endpoint, which issues no refresh token. -/
inductive ExchangeRefusal where
  | grant (denial : GrantDenial)
  | narrowing (denial : ExchangeDenial)
  | tokenType (denial : TypeDenial)
  | actChain (error : ActChainError)
  | serverError

variable {F : Type}

structure ExchangeDecisionInput (F : Type) where
  clientPolicy : ClientGrantPolicy
  impersonationAllowed : Bool
  refreshAllowed : Bool
  defaultFormat : TokenFormat
  exchange : ExchangeRequest
  requestedType : Option Text
  existingAct : Option (Json F)
  actorSubject : Option Text

structure ExchangeDecision (F : Type) where
  scope : Finset Text
  audience : Finset Text
  tokenType : IssuedTokenType
  act : Option (Json F)

/-- The chain is extended for a delegation, and is not carried on otherwise. -/
def decideAct (recordsActor : Bool) (existingAct : Option (Json F)) (actorSubject : Option Text) :
    Except ActChainError (Option (Json F)) :=
  if recordsActor then
    match actorSubject with
    | none => .error .emptyActor
    | some actor => some <$> extendActChain existingAct actor
  else .ok none

def decideInput (input : ExchangeDecisionInput F) : Except ExchangeRefusal (ExchangeDecision F) := do
  (clientMayUse input.clientPolicy .tokenExchange).mapError .grant
  let grant ← (decideExchange input.exchange input.impersonationAllowed).mapError .narrowing
  let tokenType ← (negotiateType input.requestedType input.refreshAllowed input.defaultFormat).mapError .tokenType
  let act ← (decideAct grant.recordsActor input.existingAct input.actorSubject).mapError .actChain
  .ok ⟨grant.scope, grant.audience, tokenType, act⟩

/-! ### The endpoint -/

/-- A presented token, as its revalidation finds it. -/
structure ValidatedToken (F : Type) where
  clientId : Option Text
  scope : Finset Text
  audience : Finset Text
  act : Option (Json F)
  nativeSsoBootstrap : Bool

/-- A request of an authenticated client, with the format that its target settles. -/
structure Exchange where
  clientId : Text
  policy : ClientGrantPolicy
  impersonationAllowed : Bool
  refreshAllowed : Bool
  defaultFormat : TokenFormat
  requestedScope : Finset Text
  requestedAudience : Finset Text
  requestedType : Option Text
  /-- The subject of the actor token, if one was presented. -/
  actor : Option Text
  format : TokenFormat

def exchangeMode (subject : ValidatedToken F) (exchange : Exchange) : ExchangeMode :=
  if subject.nativeSsoBootstrap then .nativeSsoBootstrap
  else if exchange.actor.isSome then .delegation
  else if subject.clientId = some exchange.clientId then .downscope
  else .impersonation

/-- The audience of the issued token: a bootstrap that names none is for its own client. -/
def targetAudience (mode : ExchangeMode) (exchange : Exchange) (decision : ExchangeDecision F) : Finset Text :=
  if exchange.requestedAudience = ∅ ∧ mode = .nativeSsoBootstrap then {exchange.clientId} else decision.audience

/-- The token that is issued, as its revalidation will find it. -/
def issue (mode : ExchangeMode) (exchange : Exchange) (decision : ExchangeDecision F) : ValidatedToken F where
  clientId := some exchange.clientId
  scope := decision.scope
  audience := targetAudience mode exchange decision
  act :=
    match exchange.format with
    | .atJwt => decision.act
    | .opaqueToken => none
  nativeSsoBootstrap := false

def tokenExchangeGrant (subject : ValidatedToken F) (exchange : Exchange) : Except ExchangeRefusal (ValidatedToken F) := do
  let mode := exchangeMode subject exchange
  let decision ← decideInput
    { clientPolicy := exchange.policy
      impersonationAllowed := exchange.impersonationAllowed
      refreshAllowed := exchange.refreshAllowed
      defaultFormat := exchange.defaultFormat
      exchange :=
        { subjectScope := subject.scope
          subjectAudience := subject.audience
          requestedScope := exchange.requestedScope
          requestedAudience := exchange.requestedAudience
          actorPresent := exchange.actor.isSome
          mode := mode }
      requestedType := exchange.requestedType
      existingAct := subject.act
      actorSubject := exchange.actor }
  refuseIf (decision.tokenType = .refreshToken) .serverError
  .ok (issue mode exchange decision)

/-! ### One exchange -/

theorem narrow_subset {ε : Type} {available r g : Finset Text} {w : Finset Text → ε}
    (h : narrow available r w = .ok g) : g ⊆ available := by
  unfold narrow at h
  split_ifs at h with he hw
  · cases h
    exact Finset.Subset.refl _
  · cases h
    exact Finset.sdiff_eq_empty_iff_subset.mp (not_not.mp hw)

theorem decideInput_eq_ok {inp : ExchangeDecisionInput F} {d : ExchangeDecision F} (h : decideInput inp = .ok d)
    (hm : inp.exchange.mode ≠ .nativeSsoBootstrap) :
    d.scope ⊆ inp.exchange.subjectScope ∧ d.audience ⊆ inp.exchange.subjectAudience ∧
      decideAct (decide (inp.exchange.mode = .delegation)) inp.existingAct inp.actorSubject = .ok d.act := by
  simp only [decideInput, check_bind_eq_ok_iff] at h
  obtain ⟨-, h⟩ := h
  obtain ⟨grant, hg, h⟩ := bind_eq_ok_iff.mp h
  obtain ⟨tokenType, -, h⟩ := bind_eq_ok_iff.mp h
  obtain ⟨act, ha, h⟩ := bind_eq_ok_iff.mp h
  cases h
  have hex := mapError_eq_ok_iff.mp hg
  simp only [decideExchange, check_bind_eq_ok_iff] at hex
  obtain ⟨-, -, -, hex⟩ := hex
  obtain ⟨scope, hsc, hex⟩ := bind_eq_ok_iff.mp hex
  rw [if_neg hm] at hex
  obtain ⟨audience, hau, hex⟩ := bind_eq_ok_iff.mp hex
  cases hex
  exact ⟨narrow_subset hsc, narrow_subset hau, mapError_eq_ok_iff.mp ha⟩

/-- The actors of the issued token, by those of the subject. -/
def Exchange.carry (exchange : Exchange) (actors : List Text) : List Text :=
  match exchange.actor, exchange.format with
  | some actor, .atJwt => actor :: actors
  | _, _ => []

/-- An exchange that is neither an impersonation nor a bootstrap. -/
def Plain (subject : ValidatedToken F) (exchange : Exchange) : Prop :=
  exchangeMode subject exchange = .downscope ∨ exchangeMode subject exchange = .delegation

variable {s : ValidatedToken F} {ex : Exchange} {xs : List Exchange}

/-- Such an exchange delegates if an actor is presented. -/
theorem Plain.delegates_eq (h : Plain s ex) :
    decide (exchangeMode s ex = .delegation) = ex.actor.isSome := by
  unfold Plain exchangeMode at h
  unfold exchangeMode
  split_ifs at h ⊢ with hn ha hc
  · simp at h
  · simp [ha]
  · simp [ha]
  · simp at h

/-- **What an exchange issues.** -/
theorem tokenExchangeGrant_eq_ok {next : ValidatedToken F} (hpl : Plain s ex)
    (h : tokenExchangeGrant s ex = .ok next) :
    next.scope ⊆ s.scope ∧ next.audience ⊆ s.audience ∧
      actorsOf next.act = ex.carry (actorsOf s.act) := by
  have hm : exchangeMode s ex ≠ .nativeSsoBootstrap := by
    obtain h | h := hpl
    · simp [h]
    · simp [h]
  obtain ⟨decision, hd, h⟩ := bind_eq_ok_iff.mp h
  obtain ⟨-, h⟩ := check_bind_eq_ok_iff.mp h
  obtain ⟨hsc, ha, hac⟩ := decideInput_eq_ok hd hm
  cases h
  refine ⟨hsc, ?_, ?_⟩
  · show targetAudience (exchangeMode s ex) ex decision ⊆ s.audience
    rw [targetAudience, if_neg fun hb => hm hb.2]
    exact ha
  · dsimp only at hac
    rw [hpl.delegates_eq] at hac
    rw [issue, Exchange.carry]
    cases hact : ex.actor with
    | none =>
      rw [hact] at hac
      rw [← Except.ok.inj hac]
      cases ex.format <;> rfl
    | some actor =>
      rw [hact] at hac
      obtain ⟨chain, hch, heq⟩ := map_eq_ok_iff.mp hac
      cases ex.format with
      | atJwt => exact heq ▸ actorsOf_extendActChain hch
      | opaqueToken => rfl

/-! ### Sequences -/

/-- The exchanges after each other, each with the token that the one before has issued. -/
def exchangeAll (first : ValidatedToken F) (exchanges : List Exchange) : Except ExchangeRefusal (ValidatedToken F) :=
  exchanges.foldlM tokenExchangeGrant first

/-- No exchange of the sequence is an impersonation or a bootstrap. -/
def AllPlain : ValidatedToken F → List Exchange → Prop
  | _, [] => True
  | subject, exchange :: exchanges =>
    Plain subject exchange ∧ ∀ next, tokenExchangeGrant subject exchange = .ok next → AllPlain next exchanges

/-- The actors that delegating exchanges have added, first to last. -/
def addedActors (exchanges : List Exchange) : List Text := exchanges.filterMap Exchange.actor

/-- The exchange names an actor, and issues a token that shows it. -/
def Exchange.keepsActors (exchange : Exchange) : Bool := exchange.actor.isSome && exchange.format = .atJwt

/-- From the first exchange on that delegates, all do, and issue tokens that show their actors. -/
def DelegatesToTheEnd (exchanges : List Exchange) : Prop :=
  ∀ exchange ∈ exchanges.dropWhile fun exchange => exchange.actor.isNone, exchange.keepsActors = true

instance (exchanges : List Exchange) : Decidable (DelegatesToTheEnd exchanges) :=
  inferInstanceAs (Decidable (∀ exchange ∈ exchanges.dropWhile fun exchange => exchange.actor.isNone,
    exchange.keepsActors = true))

/-- Scope, audience and actors of the last token, by those of the first. -/
theorem exchangeAll_eq_ok {first f : ValidatedToken F} (hpl : AllPlain first xs)
    (h : exchangeAll first xs = .ok f) :
    f.scope ⊆ first.scope ∧ f.audience ⊆ first.audience ∧
      actorsOf f.act = xs.foldl (fun actors exchange => exchange.carry actors) (actorsOf first.act) := by
  induction xs generalizing first with
  | nil =>
    cases h
    exact ⟨Finset.Subset.refl _, Finset.Subset.refl _, rfl⟩
  | cons exchange xs ih =>
    obtain ⟨next, hn, h⟩ := bind_eq_ok_iff.mp h
    obtain ⟨hsc, ha, hac⟩ := tokenExchangeGrant_eq_ok hpl.1 hn
    obtain ⟨hsc2, ha2, hac2⟩ := ih (hpl.2 next hn) h
    refine ⟨hsc2.trans hsc, ha2.trans ha, ?_⟩
    rw [hac2, hac, foldl_cons]

theorem dropWhile_eq_nil_iff_addedActors :
    (xs.dropWhile fun exchange => exchange.actor.isNone) = [] ↔ addedActors xs = [] := by
  rw [dropWhile_eq_nil_iff, addedActors, filterMap_eq_nil_iff]
  simp

theorem addedActors_concat (xs : List Exchange) (ex : Exchange) :
    addedActors (xs ++ [ex]) = addedActors xs ++ ex.actor.toList := by
  cases ha : ex.actor with
  | none | some => simp [addedActors, ha]

theorem delegatesToTheEnd_concat (xs : List Exchange) (ex : Exchange) :
    DelegatesToTheEnd (xs ++ [ex]) ↔
      addedActors (xs ++ [ex]) = [] ∨ DelegatesToTheEnd xs ∧ ex.keepsActors = true := by
  by_cases hn : addedActors xs = []
  · have hd := dropWhile_eq_nil_iff_addedActors.mpr hn
    rw [DelegatesToTheEnd, DelegatesToTheEnd, dropWhile_append, hd, addedActors_concat, hn]
    cases ha : ex.actor with
    | none | some => simp [ha]
  · have hd := mt dropWhile_eq_nil_iff_addedActors.mp hn
    rw [DelegatesToTheEnd, DelegatesToTheEnd, dropWhile_append, if_neg (by simpa using hd), addedActors_concat,
      forall_mem_append, forall_mem_singleton, append_eq_nil_iff]
    simp [hn]

/-- The actors that were added are found at the end exactly if no exchange has forgotten them. The last exchange
decides: it puts its actor in front, or leaves nothing. -/
theorem sublist_foldl_carry_iff (exchanges : List Exchange) (a : List Text) :
    (addedActors exchanges).reverse.Sublist (exchanges.foldl (fun a exchange => exchange.carry a) a) ↔
      DelegatesToTheEnd exchanges := by
  induction exchanges using List.reverseRecOn with
  | nil => simp [addedActors, DelegatesToTheEnd]
  | append_singleton exchanges exchange ih =>
    rw [foldl_append, foldl_cons, foldl_nil, delegatesToTheEnd_concat]
    cases hkp : exchange.keepsActors with
    | true =>
      obtain ⟨actor, ha⟩ : ∃ actor, exchange.actor = some actor := by
        rw [← Option.isSome_iff_exists]
        exact (Bool.and_eq_true_iff.mp hkp).1
      have hf : exchange.format = .atJwt := by simpa [Exchange.keepsActors, ha] using hkp
      rw [Exchange.carry, ha, hf, addedActors_concat, ha, Option.toList_some, reverse_concat, cons_sublist_cons, ih]
      simp
    | false =>
      unfold Exchange.carry
      split
      · rename_i actor ha hf
        simp [Exchange.keepsActors, ha, hf] at hkp
      · rw [sublist_nil, reverse_eq_nil_iff]
        simp

/-- Scope and audience are within those of the first token, and the actors that were added are found in the last,
most recent first. -/
structure Attenuates (first final : ValidatedToken F) (exchanges : List Exchange) : Prop where
  scope : final.scope ⊆ first.scope
  audience : final.audience ⊆ first.audience
  actors : (addedActors exchanges).reverse.Sublist (actorsOf final.act)

/-- A token of a client, without actors. -/
def clientToken : ValidatedToken Unit where
  clientId := some "app".toList
  scope := {"read".toList, "write".toList}
  audience := {"api".toList}
  act := none
  nativeSsoBootstrap := false

/-- A client asks for a token with less scope. -/
def appExchange : Exchange where
  clientId := "app".toList
  policy := ⟨[.tokenExchange], true⟩
  impersonationAllowed := false
  refreshAllowed := false
  defaultFormat := .atJwt
  requestedScope := {"read".toList}
  requestedAudience := ∅
  requestedType := none
  actor := none
  format := .atJwt

/-- The same, with an actor. -/
def actorExchange : Exchange := { appExchange with actor := some "svc".toList }

/-- What the delegation issues. -/
def delegatedToken : ValidatedToken Unit where
  clientId := some "app".toList
  scope := {"read".toList}
  audience := {"api".toList}
  act := some (.object [("sub".toList, .string "svc".toList)])
  nativeSsoBootstrap := false

end IronAuth.Oidc
