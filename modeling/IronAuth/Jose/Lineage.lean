import IronAuth.Jose.KeySet

/-!
# The lineage of an algorithm

The keys of one algorithm, in the order in which they were pushed, take over from each other: each is
retired at the instant the next becomes active, and the last is not retired. Their activity windows are
half open and leave no gap from the first activation on, so exactly one of them is active at any time.

A command may reach back: the instant it gives can lie before the instant it is issued. Commands that
do not leave a key that has signed a token published until the token expires.
-/

namespace IronAuth.Jose

open Lib Lib.Machine Lib.Timeline List

variable {κ : Type} {params : RotationParams}

/-! ### Lineages -/

/-- A key as it is pushed. -/
structure Fresh (managed : ManagedKey κ) : Prop where
  retireAt_eq : managed.lifecycle.retireAt = none
  publishAt_le : managed.lifecycle.publishAt ≤ managed.lifecycle.activateAt

/-- Keys that take over from each other, oldest first. -/
inductive Lineage (params : RotationParams) : List (ManagedKey κ) → Prop
  | first {managed : ManagedKey κ} (h : Fresh managed) : Lineage params [managed]
  | next {older : List (ManagedKey κ)} {head next : ManagedKey κ} (h : Lineage params (older ++ [head])) (hnext : Fresh next)
      (hlater : head.lifecycle.activateAt < next.lifecycle.activateAt) :
      Lineage params (older ++ [head.retire params next.lifecycle.activateAt, next])

/-- A key that is retired by an instant. -/
def RetiredBy (limit : ℤ) (managed : ManagedKey κ) : Prop := ∃ retireAt ≤ limit, managed.lifecycle.retireAt = some retireAt

variable {keys : List (ManagedKey κ)}

/-- The last key of a lineage is not retired, and the others are by the time it is active. -/
theorem Lineage.exists_head (h : Lineage params keys) :
    ∃ o head, keys = o ++ [head] ∧ Fresh head ∧ ∀ managed ∈ o, RetiredBy head.lifecycle.activateAt managed := by
  induction h with
  | first h => exact ⟨[], _, rfl, h, by simp⟩
  | @next o head next _ hn hl ih =>
    obtain ⟨o2, h2, heq, -, hr⟩ := ih
    obtain ⟨rfl, hsg⟩ := append_inj' heq rfl
    obtain rfl := singleton_inj.mp hsg
    refine ⟨o ++ [head.retire params next.lifecycle.activateAt], next, by simp, hn, ?_⟩
    intro managed hm
    rw [mem_append, mem_singleton] at hm
    obtain hm | rfl := hm
    · obtain ⟨retireAt, hle, heq⟩ := hr managed hm
      exact ⟨retireAt, hle.trans hl.le, heq⟩
    · exact ⟨_, le_rfl, rfl⟩

variable {o n : List (ManagedKey κ)} {set next : KeySet κ}

theorem Lineage.head {he : ManagedKey κ} (h : Lineage params (o ++ [he])) :
    Fresh he ∧ ∀ managed ∈ o, RetiredBy he.lifecycle.activateAt managed := by
  obtain ⟨o2, h2, heq, hh⟩ := h.exists_head
  obtain ⟨rfl, hsg⟩ := append_inj' heq rfl
  obtain rfl := singleton_inj.mp hsg
  exact hh

variable {managed : ManagedKey κ}

/-- A key of a lineage that is not retired is the last. -/
theorem Lineage.newer_eq_nil (h : Lineage params (o ++ managed :: n))
    (ho : managed.lifecycle.retireAt = none) : n = [] := by
  obtain rfl | ⟨n, last, rfl⟩ := eq_nil_or_concat n
  · rfl
  rw [concat_eq_append, ← cons_append, ← append_assoc] at h
  obtain ⟨retireAt, -, hr⟩ := h.head.2 managed (by simp)
  rw [ho] at hr
  cases hr

theorem Lineage.publishAt_le (h : Lineage params keys) :
    ∀ managed ∈ keys, managed.lifecycle.publishAt ≤ managed.lifecycle.activateAt := by
  induction h with
  | first h => simpa using h.publishAt_le
  | next _ hn _ ih =>
    simp only [forall_mem_append, forall_mem_cons] at ih ⊢
    exact ⟨ih.1, ih.2.1, hn.publishAt_le, by simp⟩

theorem isActive_of_retireAt_eq_none (h : managed.lifecycle.retireAt = none) (now : ℤ) :
    isActive managed now = decide (managed.lifecycle.activateAt ≤ now) := by
  simp [isActive, h]

/-- From the first activation on, one key of a lineage is active. -/
theorem Lineage.existsUnique_active (h : Lineage params keys) {now : ℤ}
    (ha : ∃ managed ∈ keys, managed.lifecycle.activateAt ≤ now) :
    ∃ managed, keys.filter (isActive · now) = [managed] := by
  induction h with
  | @first managed h =>
    obtain ⟨_, hm, hle⟩ := ha
    rw [mem_singleton.mp hm] at hle
    exact ⟨managed, by simp [isActive_of_retireAt_eq_none h.retireAt_eq, hle]⟩
  | @next o head next hl hn hla ih =>
    rw [filter_append, filter_cons, filter_singleton, isActive_of_retireAt_eq_none hn.retireAt_eq]
    by_cases hno : next.lifecycle.activateAt ≤ now
    · -- The new key has taken over: the head is retired, and so are those before it.
      obtain ⟨-, hr⟩ := hl.head
      have hh : isActive (head.retire params next.lifecycle.activateAt) now = false := by
        simp [isActive, ManagedKey.retire, hno]
      have holder : o.filter (isActive · now) = [] :=
        filter_eq_nil_iff.mpr fun managed hm => by
          obtain ⟨retireAt, hle, heq⟩ := hr managed hm
          simp [isActive, heq, hle.trans (hla.le.trans hno)]
      exact ⟨next, by simp [hh, holder, hno]⟩
    · -- Not yet: the head is as active as it was.
      have hh : isActive (head.retire params next.lifecycle.activateAt) now = isActive head now := by
        rw [isActive_of_retireAt_eq_none hl.head.1.retireAt_eq]
        simp only [isActive, ManagedKey.retire, Option.all_some, decide_eq_true (not_le.mp hno), Bool.and_true]
        rfl
      have hb : ∃ managed ∈ o ++ [head], managed.lifecycle.activateAt ≤ now := by
        obtain ⟨managed, hm, hle⟩ := ha
        simp only [mem_append, mem_cons, not_mem_nil, or_false] at hm
        obtain hm | rfl | rfl := hm
        · exact ⟨managed, by simp [hm], hle⟩
        · exact ⟨head, by simp, hle⟩
        · exact absurd hle hno
      obtain ⟨managed, hac⟩ := ih hb
      rw [filter_append, filter_singleton] at hac
      rw [hh]
      cases hc : isActive head now with
      | true =>
        simp only [hc, cond_true] at hac
        obtain ⟨holder, -⟩ := append_eq_singleton_iff.mp hac |>.resolve_right (by simp)
        exact ⟨head.retire params next.lifecycle.activateAt, by simp [holder, hno]⟩
      | false => exact ⟨managed, by simpa [hc, hno] using hac⟩

/-! ### Runs -/

/-- The keys of an algorithm. -/
def KeySet.keysOf (set : KeySet κ) (algorithm : JwsAlgorithm) : List (ManagedKey κ) :=
  set.keys.filter fun managed => decide (managed.key.algorithm = algorithm)

/-- The keys of every algorithm are a lineage. -/
def Orderly (params : RotationParams) (set : KeySet κ) : Prop :=
  ∀ algorithm, set.keysOf algorithm = [] ∨ Lineage params (set.keysOf algorithm)

/-- A further algorithm gets its day-one key, or a rotation is scheduled that does not reach back. -/
def Proper (set : KeySet κ) (issued : Issued κ) : Prop :=
  match issued.command with
  | .add key _ => ∀ managed ∈ set.keys, managed.key.algorithm ≠ key.algorithm
  | .rotate _ activateAt => issued.issuedAt ≤ activateAt

/-- The lead before an activation does not underflow, or the activation is not before the epoch that it
underflows to. -/
def LeadFits (params : RotationParams) (issued : Issued κ) : Prop :=
  match issued.command with
  | .add _ _ => True
  | .rotate _ activateAt => systemTimeMin ≤ activateAt - params.prepublishLead.nanos ∨ unixEpoch ≤ activateAt

theorem fresh_dayOne (key : SigningKey κ) (a : ℤ) : Fresh (dayOne key a) := ⟨rfl, le_rfl⟩

theorem publishAt_le {activateAt : ℤ}
    (h : systemTimeMin ≤ activateAt - params.prepublishLead.nanos ∨ unixEpoch ≤ activateAt) :
    params.publishAt activateAt ≤ activateAt := by
  unfold RotationParams.publishAt checkedSub
  split
  · rw [Option.getD_some]
    omega
  · rename_i hu
    exact h.resolve_left hu

theorem orderly_bootstrap (initial : SigningKey κ) (genesis : ℤ) : Orderly params (KeySet.bootstrap initial genesis) := by
  intro algorithm
  simp only [KeySet.keysOf, KeySet.bootstrap, filter_singleton]
  cases decide ((dayOne initial genesis).key.algorithm = algorithm) with
  | false => exact .inl rfl
  | true => exact .inr (.first (fresh_dayOne initial genesis))

/-- A key whose algorithm has none yet begins a lineage. -/
theorem Orderly.push (h : Orderly params set) (hfr : Fresh managed)
    (hne : set.keysOf managed.key.algorithm = []) (hk : next.keys = set.keys ++ [managed]) :
    Orderly params next := by
  intro algorithm
  have hn : next.keysOf algorithm = set.keysOf algorithm ++ if managed.key.algorithm = algorithm then [managed] else [] := by
    simp [KeySet.keysOf, hk, filter_singleton]
  rw [hn]
  split
  · rename_i heq
    rw [← heq, hne]
    exact .inr (.first hfr)
  · rw [append_nil]
    exact h algorithm

/-- A successor of the head continues its lineage. -/
theorem Orderly.rotate (h : Orderly params set)
    {head : ManagedKey κ} (hs : set.keys = o ++ head :: n) (hh : head.lifecycle.retireAt = none)
    (ha : head.key.algorithm = managed.key.algorithm) (hfr : Fresh managed)
    (hl : head.lifecycle.activateAt < managed.lifecycle.activateAt)
    (hk : next.keys = o ++ head.retire params managed.lifecycle.activateAt :: n ++ [managed]) :
    Orderly params next := by
  intro algorithm
  have hof : set.keysOf algorithm =
      o.filter (fun managed => decide (managed.key.algorithm = algorithm)) ++
        ((if managed.key.algorithm = algorithm then [head] else []) ++
          n.filter fun managed => decide (managed.key.algorithm = algorithm)) := by
    simp only [KeySet.keysOf, hs, filter_append, filter_cons, ha]
    split <;> simp_all
  have hn : next.keysOf algorithm =
      o.filter (fun managed => decide (managed.key.algorithm = algorithm)) ++
        ((if managed.key.algorithm = algorithm then [head.retire params managed.lifecycle.activateAt] else []) ++
          n.filter fun managed => decide (managed.key.algorithm = algorithm)) ++
        if managed.key.algorithm = algorithm then [managed] else [] := by
    have hr : (head.retire params managed.lifecycle.activateAt).key.algorithm = managed.key.algorithm := ha
    simp only [KeySet.keysOf, hk, filter_append, filter_cons, hr]
    split <;> simp_all
  split at hof
  · rename_i heq
    rw [if_pos heq, if_pos heq] at hn
    obtain he | hli := h algorithm
    · simp [he] at hof
    rw [hof, singleton_append] at hli
    -- The head is not retired, so it is the last key of its lineage.
    have hnew := hli.newer_eq_nil hh
    rw [hnew] at hli hn
    rw [hn, append_nil, append_assoc, singleton_append]
    exact .inr (hli.next hfr hl)
  · rename_i hne
    rw [if_neg hne, if_neg hne, append_nil, ← hof] at hn
    rw [hn]
    exact h algorithm

/-- Commands keep the keys of every algorithm a lineage. -/
theorem orderly_step {issued : Issued κ} (h : Orderly params set) (hp : Proper set issued)
    (hf : LeadFits params issued) : Orderly params (step params set issued).2 := by
  obtain hs | ⟨key, activateAt, hc, hk⟩ | ⟨next, activateAt, hc, hr⟩ := step_cases params set issued
  · rw [hs]
    exact h
  · refine h.push (fresh_dayOne key activateAt) (filter_eq_nil_iff.mpr fun managed hm => ?_) hk
    simp only [Proper, hc] at hp
    exact fun heq => hp managed hm (of_decide_eq_true heq)
  · simp only [LeadFits, hc] at hf
    have hfr : Fresh (successor params next activateAt) := ⟨rfl, publishAt_le hf⟩
    obtain ⟨hre, hk⟩ | ⟨o, head, n, hse, ha, ho, hl, hk⟩ := hr
    · -- A lineage has a key that is not retired, and this algorithm has none.
      refine h.push hfr ((h next.algorithm).resolve_right fun hli => ?_) hk
      obtain ⟨o, head, heq, hh, -⟩ := hli.exists_head
      have hm : head ∈ set.keysOf next.algorithm := by simp [heq]
      rw [KeySet.keysOf, mem_filter, decide_eq_true_eq] at hm
      exact hre head hm.1 hm.2 hh.retireAt_eq
    · exact h.rotate hse ho ha hfr hl hk

/-! ### The active key and its tokens -/

/-- One key of an algorithm is active at an instant and signs. It is published, and it is published until
a token expires that it signs then and that lives for as long as a token may. -/
def Covered (params : RotationParams) (initial : SigningKey κ) (genesis : ℤ) (commands : List (Issued κ)) (algorithm : JwsAlgorithm)
    (now : ℤ) : Prop :=
  ∃ managed, (setAt params initial genesis commands now).keys.filter
      (fun managed => decide (managed.key.algorithm = algorithm) && isActive managed now) = [managed] ∧
    (setAt params initial genesis commands now).activeSignerFor now algorithm = some managed.key ∧
    managed ∈ (setAt params initial genesis commands now).publishedKeys now ∧
    ∀ expiry ≤ now + params.maxTokenLifetime.nanos, ∀ later, now ≤ later → later < expiry →
      managed.key ∈ (setAt params initial genesis commands later).publishedSigningKeys later

variable {initial : SigningKey κ} {genesis : ℤ} {commands : List (Issued κ)} {now later : ℤ}

/-- From an algorithm's first activation on, one key of it is active and published, and is so until its
tokens have expired. -/
theorem rotation_never_orphans (params : RotationParams) (initial : SigningKey κ) (genesis : ℤ) (commands : List (Issued κ))
    (hsorted : commands.Pairwise fun a b => a.issuedAt ≤ b.issuedAt)
    (hproper : Along (step params) Proper (KeySet.bootstrap initial genesis) commands)
    (hfits : ∀ issued ∈ commands, LeadFits params issued) (algorithm : JwsAlgorithm) (now : ℤ)
    (hactivated : ∃ managed ∈ (setAt params initial genesis commands now).keys,
      managed.key.algorithm = algorithm ∧ managed.lifecycle.activateAt ≤ now) :
    Covered params initial genesis commands algorithm now := by
  have hor : Orderly params (setAt params initial genesis commands now) :=
    asOf_induction (P := fun set issued => LeadFits params issued ∧ Proper set issued)
      (fun _ _ _ hc ho => orderly_step ho hc.2 hc.1) (orderly_bootstrap initial genesis) (along_and_mem.mpr ⟨hfits, hproper⟩)
  obtain ⟨first, hfir, hal, hir⟩ := hactivated
  have hfi : first ∈ (setAt params initial genesis commands now).keysOf algorithm :=
    mem_filter.mpr ⟨hfir, decide_eq_true hal⟩
  have hli := (hor algorithm).resolve_left (ne_nil_of_mem hfi)
  obtain ⟨managed, hone⟩ := hli.existsUnique_active ⟨first, hfi, hir⟩
  have hil : (setAt params initial genesis commands now).keys.filter
      (fun managed => decide (managed.key.algorithm = algorithm) && isActive managed now) = [managed] := by
    rw [← hone, KeySet.keysOf, filter_filter]
    exact filter_congr fun managed _ => Bool.and_comm _ _
  have hma : managed ∈ (setAt params initial genesis commands now).keysOf algorithm ∧ isActive managed now = true :=
    mem_filter.mp (hone ▸ mem_singleton_self managed)
  obtain ⟨hof, hac⟩ := hma
  have hmem := mem_of_mem_filter hof
  rw [isActive, Bool.and_eq_true, decide_eq_true_eq] at hac
  have hpu : managed.lifecycle.publishAt ≤ now := (hli.publishAt_le managed hof).trans hac.1
  -- The key is published at every instant from now on at which a token that it signs now has not expired.
  have hco : ∀ later, now ≤ later → later < now + params.maxTokenLifetime.nanos →
      ∃ after ∈ (setAt params initial genesis commands later).publishedKeys later, after.key = managed.key := by
    intro later hla hiv
    obtain ⟨after, haf, hev⟩ : ∃ after ∈ (setAt params initial genesis commands later).keys,
        Evolves params (now ≤ ·) managed after := by
      refine asOf_later (I := fun set => ∃ after ∈ set.keys, Evolves params (now ≤ ·) managed after) hsorted hla ?_ hproper
        ⟨managed, hmem, .same⟩
      -- what is retired meanwhile is retired after now
      rintro set issued hn - hc ⟨after, ha, hev⟩
      have hrt : ∀ next activateAt, issued.command = .rotate next activateAt → now ≤ activateAt := by
        intro next activateAt heq
        simp only [Proper, heq] at hc
        exact hn.le.trans hc
      obtain ⟨a2, ha2, hev2⟩ := Evolves.step hrt ha
      exact ⟨a2, ha2, hev.trans hev2⟩
    refine ⟨after, mem_filter.mpr ⟨haf, ?_⟩, hev.key_eq⟩
    apply (retained_setAt after haf).isPublished
    · rw [hev.publishAt_eq]
      exact hpu.trans hla
    · intro retireAt hre
      have hst : now ≤ retireAt := by
        cases hev with
        | same =>
          rw [hre, Option.all_some, decide_eq_true_eq] at hac
          exact hac.2.le
        | retired hpe h => exact Option.some.inj hre ▸ h
      omega
  refine ⟨managed, hil, ?_, ?_, ?_⟩
  · rw [KeySet.activeSignerFor, hil]
    rfl
  · refine mem_filter.mpr ⟨hmem, (retained_setAt managed hmem).isPublished hpu ?_⟩
    intro retireAt hre
    rw [hre, Option.all_some, decide_eq_true_eq] at hac
    omega
  · intro exp hxp later hla hiv
    obtain ⟨after, haf, hkey⟩ := hco later hla (by omega)
    exact mem_map.mpr ⟨after, haf, hkey⟩

/-- Caches that are kept for as long as a `Duration` can last. -/
def endlessParams : RotationParams := ⟨⟨durationMax, Nat.le_refl _⟩, ⟨0, Nat.zero_le _⟩, ⟨0, Nat.zero_le _⟩⟩

/-- A set that is rotated at `100` to a key that signs from `200` on. -/
theorem rotateOnce_covered :
    Covered shortParams ⟨some 0, .edDsa⟩ 0 (rotateOnce 100 200) .edDsa 199 :=
  rotation_never_orphans shortParams ⟨some 0, .edDsa⟩ 0 (rotateOnce 100 200) (by simp [rotateOnce])
    ⟨show (100 : ℤ) ≤ 200 by decide, trivial⟩ (by simp [rotateOnce, LeadFits, unixEpoch]) .edDsa 199
    ⟨_, mem_cons_self, rfl, by decide⟩

/-- A rotation before the Unix epoch with a lead that underflows: the successor signs, and will be published
at the epoch. -/
theorem underflow_hides_signer :
    (rotateOnce (-3) (-2)).Pairwise (fun a b => a.issuedAt ≤ b.issuedAt) ∧
      Along (step endlessParams) Proper (KeySet.bootstrap ⟨some 0, .edDsa⟩ (-5)) (rotateOnce (-3) (-2)) ∧
      (∃ managed ∈ (setAt endlessParams ⟨some 0, .edDsa⟩ (-5) (rotateOnce (-3) (-2)) (-1)).keys,
        managed.key.algorithm = .edDsa ∧ managed.lifecycle.activateAt ≤ -1) ∧
      ¬ Covered endlessParams ⟨some 0, .edDsa⟩ (-5) (rotateOnce (-3) (-2)) .edDsa (-1) := by
  refine ⟨by simp [rotateOnce], ⟨show (-3 : ℤ) ≤ -2 by decide, trivial⟩, ⟨_, mem_cons_self, rfl, by decide⟩, ?_⟩
  rintro ⟨managed, hfi, -, hpu, -⟩
  have hno : (setAt endlessParams ⟨some 0, .edDsa⟩ (-5) (rotateOnce (-3) (-2)) (-1)).publishedKeys (-1) = [] := by
    decide
  cases hpu

end IronAuth.Jose
