import IronAuth.Jose.KeySet

/-!
# Relying parties and their caches

A relying party keeps a copy of the published keys for up to the cache lifetime. `rotate` writes the
instant a successor is published at back from its activation, by a lead that is longer than that; but
it does not look at the instant the command is issued at. A copy that was fetched before the command
does not have the key, whatever the set says afterwards of when it was published.
-/

namespace IronAuth.Jose

open Lib Lib.Machine Lib.Timeline

variable {κ : Type} {params : RotationParams}

/-- The key that signs at any time is in every copy that was fetched no longer than a cache lifetime
before, and not before the set's genesis: there was nothing to fetch then. -/
def InEveryCache (params : RotationParams) (initial : SigningKey κ) (genesis : ℤ) (commands : List (Issued κ)) : Prop :=
  ∀ now fetchedAt algorithm key, genesis ≤ fetchedAt → fetchedAt ≤ now → now ≤ fetchedAt + params.cacheTtl.nanos →
    (setAt params initial genesis commands now).activeSignerFor now algorithm = some key →
    key ∈ (setAt params initial genesis commands fetchedAt).publishedSigningKeys fetchedAt

/-- A rotation is issued a cache lifetime before the successor's activation, and its lead does not
underflow to an epoch after the genesis; a key that is added is there and active at the genesis. -/
def Timely (params : RotationParams) (genesis : ℤ) (issued : Issued κ) : Prop :=
  match issued.command with
  | .add _ activateAt => issued.issuedAt ≤ genesis ∧ activateAt ≤ genesis
  | .rotate _ activateAt => issued.issuedAt + params.cacheTtl.nanos ≤ activateAt ∧
      (systemTimeMin ≤ activateAt - params.prepublishLead.nanos ∨ unixEpoch ≤ genesis)

/-- A key is published at the genesis, or a cache lifetime before it signs. -/
def Prepublished (params : RotationParams) (genesis : ℤ) (managed : ManagedKey κ) : Prop :=
  managed.lifecycle.publishAt ≤ genesis ∨
    managed.lifecycle.publishAt + params.cacheTtl.nanos ≤ managed.lifecycle.activateAt

theorem prepublished_pushed {genesis : ℤ} {i : Issued κ} (h : Timely params genesis i) :
    Prepublished params genesis (i.pushed params) := by
  obtain ⟨issuedAt, command⟩ := i
  cases command with
  | add key activateAt => exact .inl h.2
  | rotate next activateAt =>
    have hm := params.cacheTtl.le_max
    have hl : params.cacheTtl.nanos ≤ params.prepublishLead.nanos := by
      simp only [RotationParams.prepublishLead, Duration.saturatingAdd]
      omega
    show params.publishAt activateAt ≤ genesis ∨ params.publishAt activateAt + params.cacheTtl.nanos ≤ activateAt
    unfold RotationParams.publishAt checkedSub
    split
    · rw [Option.getD_some]
      right
      omega
    · rename_i hu
      exact .inl (h.2.resolve_left hu)

variable {initial : SigningKey κ} {genesis : ℤ} {commands : List (Issued κ)} {now : ℤ}

/-- The key that signs is in every copy, if every command is timely. -/
theorem in_every_cache (params : RotationParams) (initial : SigningKey κ) (genesis : ℤ) (commands : List (Issued κ))
    (hsorted : commands.Pairwise fun a b => a.issuedAt ≤ b.issuedAt)
    (htimely : ∀ issued ∈ commands, Timely params genesis issued) : InEveryCache params initial genesis commands := by
  intro now fet algorithm key hge hfe hca hsi
  rw [KeySet.activeSignerFor, Option.map_eq_some_iff] at hsi
  obtain ⟨managed, hmax, rfl⟩ := hsi
  have hma := mem_of_maxByKey hmax
  rw [List.mem_filter, Bool.and_eq_true, isActive, Bool.and_eq_true, decide_eq_true_eq, decide_eq_true_eq] at hma
  obtain ⟨hmem, -, hac, hun⟩ := hma
  -- a key that is there was there when the copy was fetched, or will not be active for a cache lifetime
  have hft := asOf_later (I := fun set : KeySet κ => ∀ managed ∈ set.keys,
      (∃ ear ∈ (setAt params initial genesis commands fet).keys, Evolves params (fun _ => True) ear managed) ∨
        fet + params.cacheTtl.nanos < managed.lifecycle.activateAt) hsorted hfe (by
    intro set issued hi _ hc hse managed hm
    obtain ⟨e, he, hev⟩ | rfl := exists_of_mem_step hm
    · obtain ⟨first, hfs, hev1⟩ | hl := hse e he
      · exact .inl ⟨first, hfs, hev1.trans hev⟩
      · exact .inr (hev.activateAt_eq ▸ hl)
    · -- the key was pushed after the copy was fetched
      right
      obtain ⟨issuedAt, command⟩ := issued
      cases command with
      | add key activateAt =>
        have ha : issuedAt ≤ genesis := hc.1
        dsimp only at hi
        omega
      | rotate next activateAt =>
        have hr : issuedAt + params.cacheTtl.nanos ≤ activateAt := hc.1
        show fet + params.cacheTtl.nanos < activateAt
        dsimp only at hi
        omega) (along_of_forall_mem htimely) fun managed hm => .inl ⟨managed, hm, .same⟩
  obtain ⟨ear, hea, hev⟩ | hlate := hft managed hmem
  · refine List.mem_map.mpr ⟨ear, List.mem_filter.mpr ⟨hea, ?_⟩, hev.key_eq.symm⟩
    have hpr : Prepublished params genesis managed := forall_mem_setAt (.inl le_rfl)
      (fun issued his => prepublished_pushed (htimely issued his))
      (fun _ _ h hbe => by rwa [Prepublished, h.publishAt_eq, h.activateAt_eq]) managed hmem
    rw [Prepublished, hev.publishAt_eq] at hpr
    apply (retained_setAt ear hea).isPublished
    · omega
    · intro retireAt hre
      cases hev with
      | same =>
        rw [hre, Option.all_some, decide_eq_true_eq] at hun
        omega
      | retired hpe _ =>
        rw [hpe] at hre
        cases hre
  · omega

/-- A rotation that is issued at `100` for `200`, with a cache lifetime of `5`. -/
theorem rotateOnce_in_every_cache : InEveryCache shortParams ⟨some 0, .edDsa⟩ 0 (rotateOnce 100 200) :=
  in_every_cache shortParams ⟨some 0, .edDsa⟩ 0 (rotateOnce 100 200) (by simp [rotateOnce])
    (by simp [rotateOnce, Timely, shortParams, unixEpoch])

/-- A rotation that is issued at `100` for `101` is accepted. A copy of the keys from `99` does not have the
key that signs at `101`. -/
theorem late_rotation_missed : ¬ InEveryCache shortParams ⟨some 0, .edDsa⟩ 0 (rotateOnce 100 101) := by
  intro h
  have hco := h 101 99 .edDsa ⟨some 1, .edDsa⟩ (by decide) (by decide) (by decide) (by decide)
  revert hco
  decide

end IronAuth.Jose
