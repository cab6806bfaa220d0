import IronAuth.Store.Refresh

/-!
# What the commits do to a family

The committed rows of a family make a chain: each token but the last was rotated, and names the
next one. A transaction that commits has written one of four things: nothing that concerns the
chain, the revocation of the family, the family with its first token, or the rotation of the leaf
together with its successor.
-/

namespace IronAuth.Store

open Lib.ReadCommitted Option

variable {I : Type}

/-! ### The chain -/

variable (rows : Rows (Row I))

/-- The token was rotated. -/
def Superseded (digest : I) : Prop :=
  ∃ token, rows (.token digest) = some token ∧ token.rotatedAt ≠ none

/-- The family was revoked. -/
def FamilyRevoked : Prop := ∃ family, rows .family = some family ∧ family.revokedAt ≠ none

/-- The token can be redeemed: it was not rotated, nor its family revoked. -/
def LiveLeaf (digest : I) : Prop :=
  (∃ token, rows (.token digest) = some token ∧ token.rotatedAt = none) ∧
    ∃ family, rows .family = some family ∧ family.revokedAt = none

/-- The tokens of a family make a chain, and the index on `jti` is one. -/
structure WellFormed (rows : Rows (Row I)) : Prop where
  one_leaf : ∀ digest digest2 token token2, rows (.token digest) = some token → rows (.token digest2) = some token2 →
    token.rotatedAt = none → token2.rotatedAt = none → digest = digest2
  indexed : ∀ digest token, rows (.token digest) = some token → rows (.jti token.jti) = some digest
  succeeds : ∀ digest token jti, rows (.token digest) = some token → token.predecessorJti = some jti →
    ∃ before token0, rows (.token before) = some token0 ∧ token0.jti = jti ∧ token0.rotatedAt ≠ none ∧
      token0.successorJti = some token.jti
  has_family : ∀ digest token, rows (.token digest) = some token → ∃ family, rows .family = some family

/-- Rows are kept, and what they say of rotation and revocation too. -/
structure Extends (before after : Rows (Row I)) : Prop where
  token : ∀ digest token, before (.token digest) = some token → ∃ token2, after (.token digest) = some token2 ∧
    token2.jti = token.jti ∧ (token.rotatedAt ≠ none → token2 = token)
  family : ∀ family, before .family = some family → ∃ family2, after .family = some family2 ∧
    family2.hasSession = family.hasSession ∧ family2.offline = family.offline ∧
      (family.revokedAt ≠ none → family2.revokedAt ≠ none)

theorem Extends.refl : Extends rows rows :=
  ⟨fun _ token h => ⟨token, h, rfl, fun _ => rfl⟩, fun family h => ⟨family, h, rfl, rfl, id⟩⟩

theorem Extends.trans {rows middle after : Rows (Row I)} (h : Extends rows middle) (ha : Extends middle after) :
    Extends rows after where
  token digest token ht := by
    obtain ⟨token2, ht2, hj2, hs2⟩ := h.token digest token ht
    obtain ⟨token3, ht3, hj3, hs3⟩ := ha.token digest token2 ht2
    exact ⟨token3, ht3, hj3.trans hj2, fun hr => (hs3 (hs2 hr ▸ hr)).trans (hs2 hr)⟩
  family family hf := by
    obtain ⟨family2, hf2, hse2, ho2, hr2⟩ := h.family family hf
    obtain ⟨family3, hf3, hse3, ho3, hr3⟩ := ha.family family2 hf2
    exact ⟨family3, hf3, hse3.trans hse2, ho3.trans ho2, hr3 ∘ hr2⟩

theorem Superseded.mono {pre a : Rows (Row I)} (h : Extends pre a) {digest : I}
    (hd : Superseded pre digest) : Superseded a digest := by
  obtain ⟨token, ht, hr⟩ := hd
  obtain ⟨t2, ht2, -, hs⟩ := h.token digest token ht
  exact ⟨t2, ht2, hs hr ▸ hr⟩

theorem FamilyRevoked.mono {pre after : Rows (Row I)} (h : Extends pre after) (hr : FamilyRevoked pre) :
    FamilyRevoked after := by
  obtain ⟨family, hf, hr⟩ := hr
  obtain ⟨f2, hf2, -, -, hk⟩ := h.family family hf
  exact ⟨f2, hf2, hk hr⟩

/-- One token in the chain follows another. -/
theorem WellFormed.one_successor {r : Rows (Row I)} (h : WellFormed r) {dig digest2 jti : I}
    {t t2 : TokenRow I} (ht : r (.token dig) = some t) (ht2 : r (.token digest2) = some t2)
    (hj : t.predecessorJti = some jti) (hj2 : t2.predecessorJti = some jti) : dig = digest2 := by
  obtain ⟨before, t0, hb, heq, -, hsu⟩ := h.succeeds dig t jti ht hj
  obtain ⟨b2, t1, hb2, heq2, -, hs2⟩ := h.succeeds digest2 t2 jti ht2 hj2
  -- the index has one token for the `jti` of the predecessor, and one for that of its successor
  have hi := h.indexed before t0 hb
  have hi2 := h.indexed b2 t1 hb2
  rw [heq] at hi
  rw [heq2, hi] at hi2
  cases hi2
  cases hb.symm.trans hb2
  have hs : t.jti = t2.jti := some.inj (hsu.symm.trans hs2)
  have hl := h.indexed dig t ht
  rw [hs, h.indexed digest2 t2 ht2] at hl
  exact (some.inj hl).symm

/-! ### Writes -/

section writes

variable {committed writes : Rows (Row I)}

variable (committed writes)

/-- No token was written. -/
structure TokensKept : Prop where
  token : ∀ digest, writes (.token digest) = none
  jti : ∀ jti, writes (.jti jti) = none

/-- Neither a token nor the family was written. -/
structure Untouched : Prop extends TokensKept writes where
  family : writes .family = none

/-- The family was revoked, and no token written. -/
structure Revoked (old new : FamilyRow) : Prop extends TokensKept writes where
  before : committed .family = some old
  live : old.revokedAt = none
  family : writes .family = some new
  hasSession : new.hasSession = old.hasSession
  offline : new.offline = old.offline
  revoked : new.revokedAt ≠ none

/-- The family was opened, and no token written yet. -/
structure Opening (row : FamilyRow) : Prop extends TokensKept writes where
  before : committed .family = none
  family : writes .family = some row
  live : row.revokedAt = none

/-- The family was opened with its first token. -/
structure Opened (row : FamilyRow) (digest : I) (leaf : TokenRow I) : Prop where
  before : committed .family = none
  family : writes .family = some row
  live : row.revokedAt = none
  fresh : committed (.token digest) = none
  fresh_jti : committed (.jti leaf.jti) = none
  token : writes (.token digest) = some leaf
  jti : writes (.jti leaf.jti) = some digest
  unrotated : leaf.rotatedAt = none
  first : leaf.predecessorJti = none
  other : ∀ other, other ≠ digest → writes (.token other) = none
  other_jti : ∀ jti, jti ≠ leaf.jti → writes (.jti jti) = none

/-- The presented token was rotated, and its successor not written yet. -/
structure Rotating (redeem : RefreshRedeem I) (now : ℤ) (leaf : TokenRow I) : Prop where
  before : committed (.token redeem.presented) = some leaf
  live : leaf.rotatedAt = none
  presented : writes (.token redeem.presented) = some (leaf.rotate redeem now)
  other : ∀ digest, digest ≠ redeem.presented → writes (.token digest) = none
  jti : ∀ jti, writes (.jti jti) = none
  family : writes .family = none

/-- The presented token was rotated, and its successor written. -/
structure Succeeded (redeem : RefreshRedeem I) (now : ℤ) (leaf : TokenRow I) : Prop where
  before : committed (.token redeem.presented) = some leaf
  live : leaf.rotatedAt = none
  fresh : committed (.token redeem.successor.tokenDigest) = none
  fresh_jti : committed (.jti redeem.successor.jti) = none
  presented : writes (.token redeem.presented) = some (leaf.rotate redeem now)
  successor : writes (.token redeem.successor.tokenDigest) = some (redeem.successorRow now leaf.jti)
  jti : writes (.jti redeem.successor.jti) = some redeem.successor.tokenDigest
  other : ∀ digest, digest ≠ redeem.presented → digest ≠ redeem.successor.tokenDigest → writes (.token digest) = none
  other_jti : ∀ jti, jti ≠ redeem.successor.jti → writes (.jti jti) = none
  family : writes .family = none

variable {committed writes}

/-! ### Commits -/

theorem TokensKept.over_token (h : TokensKept writes) (dig : I) :
    writes.over committed (.token dig) = committed (.token dig) := over_of_none (h.token dig)

theorem TokensKept.wellFormed (h : TokensKept writes)
    (hf : ∀ family, committed .family = some family → ∃ f2, writes.over committed .family = some f2)
    (hwf : WellFormed committed) : WellFormed (writes.over committed) := by
  constructor
  · intro digest d2 token t2 ht ht2
    rw [h.over_token] at ht ht2
    exact hwf.one_leaf digest d2 token t2 ht ht2
  · intro digest token ht
    rw [h.over_token] at ht
    rw [over_of_none (h.jti token.jti)]
    exact hwf.indexed digest token ht
  · intro digest token jti ht
    rw [h.over_token] at ht
    simp only [h.over_token]
    exact hwf.succeeds digest token jti ht
  · intro digest token ht
    rw [h.over_token] at ht
    obtain ⟨family, ho⟩ := hwf.has_family digest token ht
    exact hf family ho

theorem TokensKept.extends_over (h : TokensKept writes)
    (hf : ∀ family, committed .family = some family → ∃ f2, writes.over committed .family = some f2 ∧
      f2.hasSession = family.hasSession ∧ f2.offline = family.offline ∧
        (family.revokedAt ≠ none → f2.revokedAt ≠ none)) : Extends committed (writes.over committed) := by
  refine ⟨fun digest token ht => ?_, hf⟩
  rw [h.over_token]
  exact ⟨token, ht, rfl, fun _ => rfl⟩

/-- Nothing that concerns the chain is committed. -/
theorem Untouched.commit (h : Untouched writes) (hwf : WellFormed committed) :
    WellFormed (writes.over committed) ∧ Extends committed (writes.over committed) := by
  have hf : writes.over committed .family = committed .family := over_of_none h.family
  refine ⟨h.wellFormed (fun family ho => ?_) hwf, h.extends_over fun family ho => ?_⟩
  · exact ⟨family, hf.trans ho⟩
  · exact ⟨family, hf.trans ho, rfl, rfl, id⟩

/-- The revocation of the family is committed. -/
theorem Revoked.commit {old new : FamilyRow} (h : Revoked committed writes old new) (hwf : WellFormed committed) :
    WellFormed (writes.over committed) ∧ Extends committed (writes.over committed) := by
  have hf : writes.over committed .family = some new := over_of_some h.family
  refine ⟨h.wellFormed (fun family ho => ?_) hwf, h.extends_over fun family ho => ?_⟩
  · exact ⟨new, hf⟩
  · cases h.before.symm.trans ho
    exact ⟨new, hf, h.hasSession, h.offline, fun _ => h.revoked⟩

/-- **The family is opened**: its first token is the only one. -/
theorem Opened.commit {row : FamilyRow} {dig : I} {leaf : TokenRow I} (h : Opened committed writes row dig leaf)
    (hwf : WellFormed committed) : WellFormed (writes.over committed) ∧ Extends committed (writes.over committed) := by
  have he : ∀ other, committed (.token other) = none := by
    intro other
    cases hot : committed (.token other) with
    | none => rfl
    | some token =>
      obtain ⟨family, hf⟩ := hwf.has_family other token hot
      rw [h.before] at hf
      cases hf
  have ho : ∀ other token, writes.over committed (.token other) = some token → other = dig ∧ token = leaf := by
    intro other token ht
    by_cases hot : other = dig
    · subst hot
      rw [over_of_some h.token] at ht
      exact ⟨rfl, (some.inj ht).symm⟩
    · rw [over_of_none (h.other other hot), he] at ht
      cases ht
  refine ⟨⟨?_, ?_, ?_, ?_⟩, ⟨?_, ?_⟩⟩
  · intro other o2 token t2 ht ht2 _ _
    rw [(ho other token ht).1, (ho o2 t2 ht2).1]
  · intro other token ht
    obtain ⟨rfl, rfl⟩ := ho other token ht
    exact over_of_some h.jti
  · intro other token jti ht hj
    obtain ⟨rfl, rfl⟩ := ho other token ht
    rw [h.first] at hj
    cases hj
  · intro other token _
    exact ⟨row, over_of_some h.family⟩
  · intro other token ht
    rw [he] at ht
    cases ht
  · intro family hf
    rw [h.before] at hf
    cases hf

section succeeded

variable {redeem : RefreshRedeem I} {now : ℤ} {leaf : TokenRow I} (h : Succeeded committed writes redeem now leaf)

include h

/-- A token after the commit is the successor, the rotated token, or one from before. -/
theorem Succeeded.cases {dig : I} {token : TokenRow I} (ht : writes.over committed (.token dig) = some token) :
    dig = redeem.successor.tokenDigest ∧ token = redeem.successorRow now leaf.jti ∨
    dig = redeem.presented ∧ token = leaf.rotate redeem now ∨
    dig ≠ redeem.presented ∧ committed (.token dig) = some token := by
  by_cases hs : dig = redeem.successor.tokenDigest
  · subst hs
    rw [over_of_some h.successor] at ht
    exact .inl ⟨rfl, (some.inj ht).symm⟩
  · by_cases hp : dig = redeem.presented
    · subst hp
      rw [over_of_some h.presented] at ht
      exact .inr (.inl ⟨rfl, (some.inj ht).symm⟩)
    · rw [over_of_none (h.other dig hp hs)] at ht
      exact .inr (.inr ⟨hp, ht⟩)

/-- A token from before that is not the presented one stays as it was. -/
theorem Succeeded.over_token {dig : I} {token : TokenRow I} (hne : dig ≠ redeem.presented)
    (ht : committed (.token dig) = some token) : writes.over committed (.token dig) = some token := by
  have hs : dig ≠ redeem.successor.tokenDigest := by
    rintro rfl
    rw [h.fresh] at ht
    cases ht
  rw [over_of_none (h.other dig hne hs), ht]

/-- The index keeps its entries. -/
theorem Succeeded.over_jti {jti digest : I} (hj : committed (.jti jti) = some digest) :
    writes.over committed (.jti jti) = some digest := by
  have hne : jti ≠ redeem.successor.jti := by
    rintro rfl
    rw [h.fresh_jti] at hj
    cases hj
  rw [over_of_none (h.other_jti jti hne), hj]

/-- **The leaf is rotated**: its successor is the one that was not. -/
theorem Succeeded.commit (hwf : WellFormed committed) :
    WellFormed (writes.over committed) ∧ Extends committed (writes.over committed) := by
  have hl : ∀ digest token, writes.over committed (.token digest) = some token → token.rotatedAt = none →
      digest = redeem.successor.tokenDigest := by
    intro digest token ht hli
    obtain ⟨rfl, -⟩ | ⟨-, rfl⟩ | ⟨hne, ho⟩ := h.cases ht
    · rfl
    · cases hli
    · exact absurd (hwf.one_leaf digest redeem.presented token leaf ho h.before hli h.live) hne
  -- a token that was rotated before is not the leaf, so it stays as it was
  have hk : ∀ digest token, committed (.token digest) = some token → token.rotatedAt ≠ none →
      writes.over committed (.token digest) = some token := by
    intro digest token ho hr
    refine h.over_token ?_ ho
    rintro rfl
    rw [h.before] at ho
    cases ho
    exact hr h.live
  have hb : ∀ digest token jti, committed (.token digest) = some token → token.predecessorJti = some jti →
      ∃ before t0, writes.over committed (.token before) = some t0 ∧ t0.jti = jti ∧
        t0.rotatedAt ≠ none ∧ t0.successorJti = some token.jti := by
    intro digest token jti ho hj
    obtain ⟨before, t0, hb, heq, hr, hs⟩ := hwf.succeeds digest token jti ho hj
    exact ⟨before, t0, hk before t0 hb hr, heq, hr, hs⟩
  have hf : writes.over committed .family = committed .family := over_of_none h.family
  refine ⟨⟨?_, ?_, ?_, ?_⟩, ⟨?_, ?_⟩⟩
  · intro digest d2 token t2 ht ht2 hli hl2
    rw [hl digest token ht hli, hl d2 t2 ht2 hl2]
  · intro digest token ht
    obtain ⟨rfl, rfl⟩ | ⟨rfl, rfl⟩ | ⟨-, ho⟩ := h.cases ht
    · exact over_of_some h.jti
    · exact h.over_jti (hwf.indexed _ leaf h.before)
    · exact h.over_jti (hwf.indexed digest token ho)
  · intro digest token jti ht hj
    obtain ⟨rfl, rfl⟩ | ⟨rfl, rfl⟩ | ⟨-, ho⟩ := h.cases ht
    · obtain rfl : leaf.jti = jti := some.inj hj
      exact ⟨redeem.presented, leaf.rotate redeem now, over_of_some h.presented, rfl, some_ne_none now, rfl⟩
    · exact hb _ leaf jti h.before hj
    · exact hb digest token jti ho hj
  · intro digest token _
    rw [hf]
    exact hwf.has_family _ leaf h.before
  · intro digest token ho
    by_cases hp : digest = redeem.presented
    · subst hp
      cases h.before.symm.trans ho
      exact ⟨leaf.rotate redeem now, over_of_some h.presented, rfl, fun hr => absurd h.live hr⟩
    · exact ⟨token, h.over_token hp ho, rfl, fun _ => rfl⟩
  · intro family ho
    exact ⟨family, hf.trans ho, rfl, rfl, id⟩

end succeeded

end writes

end IronAuth.Store
