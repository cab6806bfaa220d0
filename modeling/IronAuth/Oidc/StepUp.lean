import IronAuth.Lib.Text
import IronAuth.Store.Clock

/-!
# Step-up requirements

The requirements of a request, a client and the scopes are merged: the stronger floor and the smaller age are
kept. A floor that the order does not rank is weaker than every other when it is merged, and when it is
evaluated nothing but itself satisfies it. So it is lost next to a floor that is ranked, or to another that is not.
-/

namespace IronAuth.Oidc

open Store List

variable (order : List Text)

/-- `acr_rank`. -/
def acrRank (acr : Text) : Option ℕ := order.idxOf? acr

/-- `acr_satisfies`. -/
def acrSatisfies (achieved required : Text) : Bool :=
  if achieved = required then true
  else
    match acrRank order achieved, acrRank order required with
    | some achievedRank, some requiredRank => requiredRank ≤ achievedRank
    | _, _ => false

structure AuthnRequirement where
  minAcr : Option Text := none
  maxAuthAgeSecs : Option ℕ := none

/-- `stronger_acr`. -/
def strongerAcr (left right : Text) : Text :=
  match acrRank order left, acrRank order right with
  | some l, some r => if l < r then right else left
  | none, some _ => right
  | _, none => left

/-- `merge_stronger`. -/
def AuthnRequirement.mergeStronger (self other : AuthnRequirement) : AuthnRequirement where
  minAcr :=
    match other.minAcr with
    | some candidate => some (self.minAcr.elim candidate fun current => strongerAcr order current candidate)
    | none => self.minAcr
  maxAuthAgeSecs :=
    match other.maxAuthAgeSecs with
    | some candidate => some (self.maxAuthAgeSecs.elim candidate fun current => min current candidate)
    | none => self.maxAuthAgeSecs

inductive Satisfaction where
  | satisfied
  | needsStepUp (acrUnmet ageLapsed : Bool)
  deriving DecidableEq

/-- `age_lapsed`. -/
def ageLapsed (maxAgeSecs : ℕ) (authTimeMicros : Option ℤ) (nowMicros : ℤ) : Bool :=
  match authTimeMicros with
  | none => true
  | some authTime => min i64Max (min i64Max maxAgeSecs * 1000000) < saturatingSub nowMicros authTime

/-- An authentication, and the instant at which it is looked at. -/
structure Authentication where
  achievedAcr : Text
  authTimeMicros : Option ℤ
  nowMicros : ℤ

/-- `evaluate`. -/
def evaluate (requirement : AuthnRequirement) (authn : Authentication) : Satisfaction :=
  let acrUnmet := requirement.minAcr.any fun floor => !acrSatisfies order authn.achievedAcr floor
  let lapsed := requirement.maxAuthAgeSecs.any fun secs => ageLapsed secs authn.authTimeMicros authn.nowMicros
  if acrUnmet || lapsed then .needsStepUp acrUnmet lapsed else .satisfied

/-! ### What satisfies a merged requirement -/

variable {order} {authn : Authentication} {r s : AuthnRequirement} {l : List AuthnRequirement} {f g : Text}

/-- The floors are one, or the order ranks both. -/
def Comparable (order : List Text) (f g : Text) : Prop := f = g ∨ (acrRank order f).isSome ∧ (acrRank order g).isSome

/-- The floors of a list of requirements. -/
def floors (l : List AuthnRequirement) : List Text := l.filterMap AuthnRequirement.minAcr

theorem acrSatisfies_iff {a : Text} : acrSatisfies order a f ↔
    a = f ∨ ∃ i j, acrRank order a = some i ∧ acrRank order f = some j ∧ j ≤ i := by
  unfold acrSatisfies
  split_ifs with h
  · simp [h]
  · cases acrRank order a <;> cases acrRank order f <;> simp [h]

theorem acrSatisfies_strongerAcr (h : Comparable order f g) (a : Text) :
    acrSatisfies order a (strongerAcr order f g) ↔ acrSatisfies order a f ∧ acrSatisfies order a g := by
  obtain rfl | ⟨hf, hg⟩ := h
  · have hs : strongerAcr order f f = f := by
      unfold strongerAcr
      cases acrRank order f <;> simp
    rw [hs, and_self]
  obtain ⟨i, hf⟩ := Option.isSome_iff_exists.mp hf
  obtain ⟨j, hg⟩ := Option.isSome_iff_exists.mp hg
  simp only [strongerAcr, hf, hg]
  split_ifs with hlt
  · refine ⟨fun ha => ⟨?_, ha⟩, And.right⟩
    rw [acrSatisfies_iff] at ha ⊢
    obtain rfl | ⟨k, _, hk, hg', hle⟩ := ha
    · exact .inr ⟨j, i, hg, hf, hlt.le⟩
    · cases hg.symm.trans hg'
      exact .inr ⟨k, i, hk, hf, hlt.le.trans hle⟩
  · refine ⟨fun ha => ⟨ha, ?_⟩, And.left⟩
    rw [acrSatisfies_iff] at ha ⊢
    obtain rfl | ⟨k, _, hk, hf', hle⟩ := ha
    · exact .inr ⟨i, j, hf, hg, not_lt.mp hlt⟩
    · cases hf.symm.trans hf'
      exact .inr ⟨k, j, hk, hg, (not_lt.mp hlt).trans hle⟩

theorem ageLapsed_min (a b : ℕ) (t : Option ℤ) (n : ℤ) : ageLapsed (min a b) t n = (ageLapsed a t n || ageLapsed b t n) := by
  cases t with
  | none => rfl
  | some t =>
    rw [Bool.eq_iff_iff]
    simp [ageLapsed, i64Max]
    omega

theorem evaluate_eq_satisfied_iff : evaluate order r authn = .satisfied ↔
    (∀ floor ∈ r.minAcr, acrSatisfies order authn.achievedAcr floor) ∧
      ∀ secs ∈ r.maxAuthAgeSecs, ageLapsed secs authn.authTimeMicros authn.nowMicros = false := by
  simp [evaluate, Option.any_eq_false]

theorem evaluate_mergeStronger (h : ∀ f ∈ r.minAcr, ∀ g ∈ s.minAcr, Comparable order f g) :
    evaluate order (r.mergeStronger order s) authn = .satisfied ↔
      evaluate order r authn = .satisfied ∧ evaluate order s authn = .satisfied := by
  obtain ⟨rf, ra⟩ := r
  obtain ⟨sf, sa⟩ := s
  have hacr : (∀ floor ∈ (AuthnRequirement.mergeStronger order ⟨rf, ra⟩ ⟨sf, sa⟩).minAcr,
      acrSatisfies order authn.achievedAcr floor) ↔
        (∀ floor ∈ rf, acrSatisfies order authn.achievedAcr floor) ∧ ∀ floor ∈ sf, acrSatisfies order authn.achievedAcr floor := by
    cases rf with
    | none => cases sf <;> simp [AuthnRequirement.mergeStronger]
    | some f =>
      cases sf with
      | none => simp [AuthnRequirement.mergeStronger]
      | some g => simpa [AuthnRequirement.mergeStronger] using acrSatisfies_strongerAcr (h f rfl g rfl) authn.achievedAcr
  have hage : (∀ secs ∈ (AuthnRequirement.mergeStronger order ⟨rf, ra⟩ ⟨sf, sa⟩).maxAuthAgeSecs,
      ageLapsed secs authn.authTimeMicros authn.nowMicros = false) ↔
        (∀ secs ∈ ra, ageLapsed secs authn.authTimeMicros authn.nowMicros = false) ∧
          ∀ secs ∈ sa, ageLapsed secs authn.authTimeMicros authn.nowMicros = false := by
    cases ra <;> cases sa <;> simp [AuthnRequirement.mergeStronger, ageLapsed_min]
  simp only [evaluate_eq_satisfied_iff, hacr, hage]
  exact and_and_and_comm

/-- A merged floor is one of the two. -/
theorem floors_mergeStronger : floors (r.mergeStronger order s :: l) ⊆ floors (r :: s :: l) := by
  obtain ⟨_ | f, ra⟩ := r <;> obtain ⟨_ | g, sa⟩ := s <;> intro c <;> simp [floors, AuthnRequirement.mergeStronger]
  unfold strongerAcr
  split <;> grind

/-- **What satisfies merged requirements satisfies each**, if their floors are comparable. -/
theorem evaluate_foldl (h : ∀ f ∈ floors (r :: l), ∀ g ∈ floors (r :: l), Comparable order f g) :
    evaluate order (l.foldl (AuthnRequirement.mergeStronger order) r) authn = .satisfied ↔
      ∀ q ∈ r :: l, evaluate order q authn = .satisfied := by
  induction l generalizing r with
  | nil => simp
  | cons s l ih =>
    have hsub := @floors_mergeStronger order r s l
    rw [List.foldl_cons, ih fun f hf g hg => h f (hsub hf) g (hsub hg), forall_mem_cons, evaluate_mergeStronger]
    · simp [and_assoc]
    · intro f hf g hg
      exact h f (by simp [floors, Option.mem_def.mp hf]) g (by simp [floors, Option.mem_def.mp hg])

/-- The fold of a list of requirements, from the empty one. -/
def foldStronger (order : List Text) (l : List AuthnRequirement) : AuthnRequirement :=
  l.foldl (AuthnRequirement.mergeStronger order) {}

theorem evaluate_foldStronger (h : ∀ f ∈ floors l, ∀ g ∈ floors l, Comparable order f g) :
    evaluate order (foldStronger order l) authn = .satisfied ↔ ∀ r ∈ l, evaluate order r authn = .satisfied := by
  have hnone : floors ({} :: l) = floors l := rfl
  rw [foldStronger, evaluate_foldl (hnone ▸ h), forall_mem_cons]
  simp [evaluate]

/-- An authentication of this instant, at the floor, satisfies a requirement. -/
theorem evaluate_at_floor (r : AuthnRequirement) (f : Text) :
    evaluate order r ⟨r.minAcr.getD f, some 0, 0⟩ = .satisfied := by
  rw [evaluate_eq_satisfied_iff]
  constructor
  · intro floor hfloor
    simp [Option.mem_def.mp hfloor, acrSatisfies]
  · intro secs _
    simp [ageLapsed, saturatingSub, i64Max]

/-- **The merge of a list of requirements is as strong as each of them, in whatever order they are merged**, if and
only if any two of their floors are one or are both ranked. -/
theorem merged_strong_iff (order : List Text) (l : List AuthnRequirement) :
    ((∀ authn, evaluate order (foldStronger order l) authn = .satisfied → ∀ r ∈ l, evaluate order r authn = .satisfied) ∧
      ∀ l', l' ~ l → ∀ authn, evaluate order (foldStronger order l') authn = .satisfied ↔
        evaluate order (foldStronger order l) authn = .satisfied) ↔
    ∀ f ∈ floors l, ∀ g ∈ floors l, Comparable order f g := by
  constructor
  · rintro ⟨h, -⟩ f hf g hg
    obtain ⟨r, hr, hrf⟩ := mem_filterMap.mp hf
    obtain ⟨s, hs, hsg⟩ := mem_filterMap.mp hg
    have hsat := h _ (evaluate_at_floor (foldStronger order l) f)
    have hf := (evaluate_eq_satisfied_iff.mp (hsat r hr)).1 f hrf
    have hg := (evaluate_eq_satisfied_iff.mp (hsat s hs)).1 g hsg
    simp only [acrSatisfies_iff] at hf hg
    unfold Comparable
    grind
  · intro h
    refine ⟨fun authn => (evaluate_foldStronger h).mp, fun l' hl authn => ?_⟩
    have hmem : ∀ f, f ∈ floors l' ↔ f ∈ floors l := fun f => (hl.filterMap _).mem_iff
    rw [evaluate_foldStronger h, evaluate_foldStronger]
    · simp [hl.mem_iff]
    · simpa [hmem] using h

/-- **A floor that is not ranked is lost**: what satisfies the merge does not satisfy it. -/
theorem unranked_floor_lost : ¬ ∀ (order : List Text) (l : List AuthnRequirement) (authn : Authentication),
    evaluate order (foldStronger order l) authn = .satisfied → ∀ r ∈ l, evaluate order r authn = .satisfied := by
  intro h
  exact absurd (h ["pwd".toList, "mfa".toList] [{ minAcr := some "custom".toList }, { minAcr := some "mfa".toList }]
    ⟨"mfa".toList, some 0, 0⟩ (by decide)) (by decide)

end IronAuth.Oidc
