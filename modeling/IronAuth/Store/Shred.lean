import IronAuth.Store.EnvelopeKeys

/-!
# The crypto-shred and the rotation of a KEK

`destroy_kek` overwrites the KEKs that were there when its update started. `rotate_kek` reads the
active version, writes a new KEK beside it, and at the end marks the version that it read as retired,
whatever its status is by then. A rotation that is under way during a shred brings a KEK that the shred
does not see, and takes a row that the shred has destroyed back to retired.

## What is proved

* `careful_next`, `Careful.commit`: a rotation retires a KEK that is not destroyed, and a shred still has
  before it every KEK that is not, as long as the two do not overlap.
* `shred_is_final`: in runs in which they never do, a shred is final.
* `rotation_survives_shred`: otherwise it is not.
-/

namespace IronAuth.Store.Envelope

open Lib.ReadCommitted Lib Function

variable {M S : Type} {n : ℕ}

/-! ### Assertions -/

/-- There is a KEK of this version, and it is not destroyed. -/
def Live (rows : Rows (Row M S n)) (version : Version n) : Prop :=
  ∃ row, rows (.kek version) = some row ∧ row.status ≠ .destroyed

/-- A rotation has read a version that is live, and destroys nothing. -/
structure Rotating (committed writes : Rows (Row M S n)) (old : Version n) : Prop where
  live : Live committed old
  spares : ∀ version row, writes (.kek version) = some row → row.status ≠ .destroyed

/-- A shred has destroyed what is live, but for the rest. -/
structure Shredding (committed writes : Rows (Row M S n)) (rest : List (Version n)) : Prop where
  covers : ∀ version, Live committed version → version ∈ rest ∨ writes (.kek version) ≠ none
  destroys : ∀ version row, writes (.kek version) = some row → row.status = .destroyed

/-- The KEKs that are written keep their status. -/
def KeepsStatus (committed writes : Rows (Row M S n)) : Prop :=
  ∀ version row, writes (.kek version) = some row → ∃ old, committed (.kek version) = some old ∧ old.status = row.status

/-- No KEK is written. -/
def NoKek (writes : Rows (Row M S n)) : Prop := ∀ version, writes (.kek version) = none

/-- The script is a rotation of the KEK that has read the active version. -/
def Control.rotates : Control M S n → Bool
  | .insertKek _ _ _ => true
  | .listDeks _ _ _ => true
  | .fetchDek _ _ _ _ => true
  | .fetchKek _ _ _ _ _ _ _ => true
  | .rewrapDek _ _ _ _ _ _ => true
  | .retireKek _ => true
  | .commit .kekRotated => true
  | _ => false

/-- What is asserted of the KEKs that a script writes. -/
def Careful (committed : Rows (Row M S n)) (script : Script (Row M S n) (Control M S n)) : Prop :=
  match script.control with
  | .insertKek _ old _ => Rotating committed script.writes old
  | .listDeks _ old _ => Rotating committed script.writes old
  | .fetchDek _ old _ _ => Rotating committed script.writes old
  | .fetchKek _ old _ _ _ _ _ => Rotating committed script.writes old
  | .rewrapDek _ old _ _ _ _ => Rotating committed script.writes old
  | .retireKek old => Rotating committed script.writes old
  | .commit .kekRotated => ∃ old, Rotating committed script.writes old
  | .shredKeks rest => Shredding committed script.writes rest
  | .commit .kekDestroyed => Shredding committed script.writes []
  | .commit .rewrapped => KeepsStatus committed script.writes
  | .failed => True
  | _ => NoKek script.writes

/-- A script that neither rotates the KEK nor destroys it keeps the status of the KEKs it writes. -/
theorem Careful.cases {committed : Rows (Row M S n)} {script : Script (Row M S n) (Control M S n)}
    (h : Careful committed script) (hf : script.control ≠ .failed) :
    (script.control.rotates = true ∧ ∃ old, Rotating committed script.writes old) ∨
    (script.control.shreds = true ∧ ∃ rest, Shredding committed script.writes rest) ∨
      KeepsStatus committed script.writes := by
  have hno : NoKek script.writes → KeepsStatus committed script.writes := by
    intro hno version row hr
    cases (hno version).symm.trans hr
  obtain ⟨control, writes⟩ := script
  cases control with
  | insertKek d old new | listDeks d old new | fetchDek d old new rest
  | fetchKek d old new version rest kekVersion w
  | rewrapDek d old new version rest dek | retireKek old => exact .inl ⟨rfl, old, h⟩
  | shredKeks rest => exact .inr (.inl ⟨rfl, rest, h⟩)
  | failed => exact absurd rfl hf
  | commit answer =>
    cases answer with
    | kekRotated => exact .inl ⟨rfl, h⟩
    | kekDestroyed => exact .inr (.inl ⟨rfl, [], h⟩)
    | rewrapped => exact .inr (.inr h)
    | _ => exact .inr (.inr (hno h))
  | _ => exact .inr (.inr (hno h))

/-! ### Statements -/

section statements

variable {committed writes : Rows (Row M S n)} {version old : Version n}

theorem NoKek.update_dek (h : NoKek writes) (version : Version n) (row : DekRow S n) :
    NoKek (Function.update writes (.dek version) (some row)) :=
  fun ver2 => (update_of_ne (by simp) ..).trans (h ver2)

theorem NoKek.over (h : NoKek writes) (version : Version n) : writes.over committed (.kek version) = committed (.kek version) :=
  over_of_none (h version)

theorem Rotating.update_dek (h : Rotating committed writes old) (row : DekRow S n) :
    Rotating committed (Function.update writes (.dek version) (some row)) old where
  live := h.live
  spares := forall_kek_updateDek h.spares

variable {row : KekRow M S n} {r : List (Version n)} {p : Version n → Bool}

theorem Rotating.update_kek (h : Rotating committed writes old) (hr : row.status ≠ .destroyed) :
    Rotating committed (Function.update writes (.kek version) (some row)) old where
  live := h.live
  spares := forall_kek_updateKek h.spares hr

/-- One more row is destroyed. -/
theorem Shredding.update (h : Shredding committed writes (version :: r))
    (hr : row.status = .destroyed) : Shredding committed (Function.update writes (.kek version) (some row)) r where
  covers := by
    intro ver2 hl
    by_cases hv : ver2 = version
    · subst hv
      exact .inr (by simp)
    · obtain hm | hw := h.covers ver2 hl
      · exact .inl (List.mem_of_ne_of_mem hv hm)
      · exact .inr (by rwa [update_of_ne (by simp [hv])])
  destroys := forall_kek_updateKek h.destroys hr

/-- A row that the shred leaves alone is destroyed already. -/
theorem Shredding.skip (h : Shredding committed writes (version :: r))
    (hm : ∀ row, writes.over committed (.kek version) = some row → row.status = .destroyed) :
    Shredding committed writes r where
  covers := by
    intro ver2 hl
    obtain hme | hw := h.covers ver2 hl
    · obtain rfl | hme := List.mem_cons.mp hme
      · refine .inr fun hn => ?_
        obtain ⟨row, hr, hs⟩ := hl
        exact hs (hm row ((over_of_none hn).trans hr))
      · exact .inl hme
    · exact .inr hw
  destroys := h.destroys

theorem mem_versions : version ∈ versions p ↔ p version = true := by
  simp [versions]

variable [DecidableEq M] [DecidableEq S]

/-- A rewrap keeps the status of the row. -/
theorem careful_storeRewrappedKek {src tgt : M} {row : ListedKek M S n} {no : ℕ} (h : NoKek writes) :
    (storeRewrappedKek src tgt row no).Ensures committed writes (Careful committed) := by
  unfold storeRewrappedKek
  split_ifs
  · trivial
  · exact h
  · split
    · refine ⟨fun cur hc _ => ?_, fun _ => h⟩
      rw [h.over] at hc
      refine forall_kek_updateKek (fun ver2 row2 hr2 => ?_) ⟨cur, hc, rfl⟩
      cases (h ver2).symm.trans hr2
    · trivial

/-- Each statement keeps what is asserted. -/
theorem careful_next (script : Script (Row M S n) (Control M S n)) (h : Careful committed script) :
    (statement script.control).Ensures committed script.writes (Careful committed) := by
  obtain ⟨control, writes⟩ := script
  cases control with
  | firstDek d =>
    show Careful committed ⟨_, writes⟩
    dsimp only
    split_ifs
    · trivial
    · exact h
  | lastDek | fetchKek =>
    show Careful committed ⟨_, writes⟩
    dsimp only
    split
    · exact h
    · trivial
  | fetchActiveKek d version rotates =>
    show Careful committed ⟨_, writes⟩
    dsimp only
    split
    · split_ifs <;> exact h
    · trivial
  | activeDeks | listDeks | listKeks => exact h
  | retireDeks d version kekVersion kek rest =>
    cases rest with
    | nil => exact h
    | cons next rest => exact ⟨fun row _ _ => NoKek.update_dek h next { row with status := .retired }, fun _ => h⟩
  | insertDek d version kekVersion kek => exact fun _ => NoKek.update_dek h version (newDek d version kekVersion kek)
  | activeKek d =>
    show Careful committed ⟨_, writes⟩
    dsimp only
    split
    · rename_i old ho
      split
      · obtain ⟨row, hr, ha⟩ := (Option.any_eq_true ..).mp (mem_versions.mp (List.mem_of_getLast? ho))
        have hl : row.status ≠ .destroyed := by rw [of_decide_eq_true ha]; decide
        refine ⟨⟨row, (NoKek.over h old).symm.trans hr, hl⟩, fun version row hr => ?_⟩
        cases (h version).symm.trans hr
      · trivial
    · trivial
  | insertKek d old new => exact fun _ => Rotating.update_kek h (by simp [newKek])
  | fetchDek d old new rest =>
    cases rest with
    | nil => exact h
    | cons version rest =>
      show Careful committed ⟨_, writes⟩
      dsimp only
      split
      · exact h
      · trivial
  | rewrapDek d old new version rest dek => exact ⟨fun _ _ _ => Rotating.update_dek h _, fun _ => h⟩
  | retireKek old => exact ⟨fun _ _ _ => ⟨old, Rotating.update_kek h (by simp)⟩, fun _ => ⟨old, h⟩⟩
  | probeKek =>
    show Careful committed ⟨_, writes⟩
    dsimp only
    split_ifs
    · exact h
    · trivial
  | liveKeks =>
    refine ⟨fun version hl => .inl (mem_versions.mpr ?_), fun version row hr => ?_⟩
    · obtain ⟨row, hr, hl⟩ := hl
      rw [NoKek.over h, hr]
      exact decide_eq_true hl
    · cases (h version).symm.trans hr
  | shredKeks rest =>
    cases rest with
    | nil => exact h
    | cons version rest =>
      refine ⟨fun row _ _ => Shredding.update h rfl, fun hm => Shredding.skip h fun row hr => ?_⟩
      exact not_not.mp (of_decide_eq_false (hm row hr))
  | rewrapKek source t row nonce => exact careful_storeRewrappedKek h
  | failed | commit => trivial

end statements

/-! ### Commits -/

section commits

variable {committed after : Rows (Row M S n)} {script other : Script (Row M S n) (Control M S n)}

variable {writes : Rows (Row M S n)} {version old : Version n}

/-- A commit that destroys nothing leaves live what is live. -/
theorem Live.over (h : Live committed version)
    (hs : ∀ row, writes (.kek version) = some row → row.status = .destroyed → ¬ Live committed version) :
    Live (writes.over committed) version := by
  cases hws : writes (.kek version) with
  | none =>
    obtain ⟨row, hr, hl⟩ := h
    exact ⟨row, (over_of_none hws).trans hr, hl⟩
  | some row => exact ⟨row, over_of_some hws, fun hd => hs row hws hd h⟩

theorem KeepsStatus.live_iff (h : KeepsStatus committed writes) (version : Version n) :
    Live (writes.over committed) version ↔ Live committed version := by
  cases hws : writes (.kek version) with
  | none => simp [Live, over_of_none hws]
  | some row =>
    obtain ⟨old, ho, hs⟩ := h version row hws
    simp [Live, over_of_some hws, ho, hs]

theorem Shredding.live {r : List (Version n)} (h : Shredding committed writes r)
    (hl : Live (writes.over committed) version) : Live committed version := by
  obtain ⟨row, hr, hs⟩ := hl
  cases hws : writes (.kek version) with
  | none => exact ⟨row, (over_of_none hws).symm.trans hr, hs⟩
  | some row2 =>
    cases (over_of_some hws).symm.trans hr
    exact absurd (h.destroys version row hws) hs

/-- After a shred that has come to its end nothing is live. -/
theorem Shredding.not_live (h : Shredding committed writes []) (version : Version n) :
    ¬ Live (writes.over committed) version := by
  intro hl
  obtain hm | hw := h.covers version (h.live hl)
  · cases hm
  · obtain ⟨row, hr, hs⟩ := hl
    obtain ⟨row2, hr2⟩ := Option.ne_none_iff_exists'.mp hw
    cases (over_of_some hr2).symm.trans hr
    exact hs (h.destroys version row hr2)

theorem Rotating.live_over (h : Rotating committed writes old)
    (hl : Live committed version) : Live (writes.over committed) version :=
  hl.over fun row hr hd => absurd hd (h.spares version row hr)

theorem Careful.live_over (h : Careful committed script) (hf : script.control ≠ .failed)
    (hsh : script.control.shreds = false) (hl : Live committed version) :
    Live (script.writes.over committed) version := by
  obtain ⟨-, old, hr⟩ | ⟨hsh2, -⟩ | hkp := h.cases hf
  · exact hr.live_over hl
  · rw [hsh] at hsh2
    cases hsh2
  · exact (hkp.live_iff version).mpr hl

theorem Rotating.stable (h : Rotating committed writes old)
    (hl : ∀ version, Live committed version → Live after version) : Rotating after writes old :=
  ⟨hl old h.live, h.spares⟩

/-- **Interference.** What is asserted of a script survives a commit that leaves live what a rotation
has read, and brings nothing to life that a shred has not seen. -/
theorem Careful.stable (h : Careful committed other)
    (hl : other.control.rotates = true → ∀ version, Live committed version → Live after version)
    (hd : other.control.shreds = true → ∀ version, Live after version → Live committed version)
    (hs : ∀ k, (other.writes k).isSome → after k = committed k) : Careful after other := by
  obtain ⟨control, writes⟩ := other
  have hsh : ∀ rest, (∀ version, Live after version → Live committed version) → Shredding committed writes rest →
      Shredding after writes rest :=
    fun rest hd h => ⟨fun version hv => h.covers version (hd version hv), h.destroys⟩
  cases control with
  | insertKek | listDeks | fetchDek | fetchKek | rewrapDek | retireKek => exact Rotating.stable h (hl rfl)
  | shredKeks rest => exact hsh rest (hd rfl) h
  | commit answer =>
    cases answer with
    | kekRotated =>
      obtain ⟨old, hr⟩ := h
      exact ⟨old, hr.stable (hl rfl)⟩
    | kekDestroyed => exact hsh [] (hd rfl) h
    | rewrapped =>
      intro version row hro
      obtain ⟨old, ho, hst⟩ := h version row hro
      exact ⟨old, (hs _ (Option.isSome_iff_exists.mpr ⟨row, hro⟩)).trans ho, hst⟩
    | _ => exact h
  | _ => exact h

end commits

/-! ### Runs -/

section runs

variable [DecidableEq M] [DecidableEq S] {T : Type} [Fintype T] [DecidableEq T] {db : EnvelopeDatabase M S n T}
  {choice : Choice T (Request M S n)}

/-- No rotation of the KEK that has read the active version is open while a shred has started on its
rows. -/
def NoOverlap (db : EnvelopeDatabase M S n T) (_ : Choice T (Request M S n)) : Prop :=
  ∀ t other, (db.running t).any (fun script => script.control.rotates) = true →
    (db.running other).any (fun script => script.control.shreds) = false

instance (db : EnvelopeDatabase M S n T) (choice : Choice T (Request M S n)) : Decidable (NoOverlap db choice) :=
  inferInstanceAs (Decidable (∀ t other, (db.running t).any (fun script => script.control.rotates) = true →
    (db.running other).any (fun script => script.control.shreds) = false))

variable {script : Script (Row M S n) (Control M S n)}

omit [DecidableEq M] [DecidableEq S] [Fintype T] [DecidableEq T] in
theorem NoOverlap.not_shreds (h : NoOverlap db choice) {t other : T} {s2 : Script (Row M S n) (Control M S n)}
    (hs : db.running t = some script) (hs2 : db.running other = some s2)
    (hr : script.control.rotates = true) : s2.control.shreds = false := by
  have hsh := h t other (by rw [hs]; exact hr)
  rwa [hs2] at hsh

/-- What holds of every state of a run in which no rotation overlaps a shred. -/
structure Watched (db : EnvelopeDatabase M S n T) : Prop where
  sound : Sound db
  careful : ∀ t script, db.running t = some script → Careful db.committed script

/-- A script that commits has come to its end. -/
theorem exists_answer {l : Key n → Bool} {committed : Rows (Row M S n)}
    (h : (envelopeProgram M S n).next l committed script = .commit) : ∃ answer, script.control = .commit answer := by
  have hs := Statement.eq_commit h
  obtain ⟨control, writes⟩ := script
  cases control with
  | commit answer => exact ⟨answer, rfl⟩
  | retireDeks d version kekVersion kek rest | fetchDek d old new rest
  | shredKeks rest => cases rest <;> cases hs
  | rewrapKek source t row nonce =>
    have hr : storeRewrappedKek source t row nonce = .commit := hs
    unfold storeRewrappedKek at hr
    split_ifs at hr
    split at hr <;> cases hr
  | _ => cases hs

theorem watched_step (h : Watched db) (ha : NoOverlap db choice) :
    Watched (step (envelopeProgram M S n) db choice).2 := by
  refine ⟨sound_step h.sound choice, forall_running_step h.sound.exclusive h.careful ?_ ?_ ?_ choice⟩
  · intro request
    cases request <;> exact fun _ => rfl
  · intro locked t script next hsc hn
    exact Statement.perform_ensures (careful_next script (h.careful t script hsc)) hn
  · intro locked t script other s2 hsc hco hs2 hs
    obtain ⟨answer, han⟩ := exists_answer hco
    have hf : script.control ≠ .failed := by rw [han]; simp
    have hc := h.careful t script hsc
    refine (h.careful other s2 hs2).stable (fun hr version hl => ?_) (fun hsh version hl => ?_) hs
    · exact hc.live_over hf (ha.not_shreds hs2 hsc hr) hl
    · obtain ⟨hr, -⟩ | ⟨-, rest, hs⟩ | hkp := hc.cases hf
      · rw [ha.not_shreds hsc hs2 hr] at hsh
        cases hsh
      · exact hs.live hl
      · exact (hkp.live_iff version).mp hl

/-- When a shred commits, nothing is live. -/
theorem not_live_of_destroysKek (h : Watched db)
    (hd : destroysKek (choice, (step (envelopeProgram M S n) db choice).1)) (version : Version n) :
    ¬ Live (step (envelopeProgram M S n) db choice).2.committed version := by
  obtain ⟨hn, -⟩ | ⟨t, script, hs, hco, ha, haf⟩ := step_committed (envelopeProgram M S n) db choice
  · rw [destroysKek, hn] at hd
    cases hd
  · rw [destroysKek, ha] at hd
    have hc := h.careful t script hs
    obtain ⟨answer, hct⟩ := exists_answer hco
    obtain ⟨control, writes⟩ := script
    subst hct
    rw [haf]
    cases answer with
    | kekDestroyed => exact Shredding.not_live hc version
    | _ => cases hd

/-- Where nothing is live, nothing comes to life. -/
theorem not_live_step (h : Watched db) (hd : ∀ version, ¬ Live db.committed version) (version : Version n) :
    ¬ Live (step (envelopeProgram M S n) db choice).2.committed version := by
  obtain ⟨-, hs⟩ | ⟨t, script, hsc, hc, -, ha⟩ := step_committed (envelopeProgram M S n) db choice
  · rw [hs]
    exact hd version
  · rw [ha]
    obtain ⟨answer, hct⟩ := exists_answer hc
    have hf : script.control ≠ .failed := by rw [hct]; simp
    intro hl
    obtain ⟨-, old, hr⟩ | ⟨-, rest, hsh⟩ | hkp := (h.careful t script hsc).cases hf
    · exact hd old hr.live
    · exact hd version (hsh.live hl)
    · exact hd version ((hkp.live_iff version).mp hl)

/-- A crypto-shred in a run is final: when all transactions have finished, a DEK that was there before the
shred committed is wrapped under a KEK without bytes, and a KEK that was destroyed then is destroyed. -/
def ShredIsFinal (db : EnvelopeDatabase M S n T) (choices : List (Choice T (Request M S n))) : Prop :=
  ∀ before choice after, choices = before ++ choice :: after →
    destroysKek (choice, (step (envelopeProgram M S n) (Machine.run (step (envelopeProgram M S n)) db before) choice).1) →
    (∀ t, (Machine.run (step (envelopeProgram M S n)) db choices).running t = none) →
      (∀ version row kek,
        (Machine.run (step (envelopeProgram M S n)) db before).committed (.dek version) ≠ none →
        (Machine.run (step (envelopeProgram M S n)) db choices).committed (.dek version) = some row →
        (Machine.run (step (envelopeProgram M S n)) db choices).committed (.kek row.kekVersion) = some kek →
          kek.wrappedKek = none) ∧
      ∀ version row,
        (step (envelopeProgram M S n) (Machine.run (step (envelopeProgram M S n)) db before) choice).2.committed
          (.kek version) = some row → row.status = .destroyed →
        ∃ row2, (Machine.run (step (envelopeProgram M S n)) db choices).committed (.kek version) = some row2 ∧
          row2.status = .destroyed

/-- **A crypto-shred is final**, if no rotation of the KEK is open between its look at the active version and
its commit while a shred is between the start of its update and its commit. -/
theorem shred_is_final (draw : Draw M S n) (choices : List (Choice T (Request M S n)))
    (hapart : Machine.Along (step (envelopeProgram M S n)) NoOverlap (provisioned draw T) choices) :
    ShredIsFinal (provisioned draw T) choices := by
  rintro before choice after rfl hes -
  obtain ⟨hbe, hch, haf⟩ := Machine.along_append.mp hapart
  have hwa := Machine.run_of_along (I := Watched) (fun _ _ h hd => watched_step h hd) ⟨sound_provisioned draw, fun _ _ h => by cases h⟩ hbe
  set db := Machine.run (step (envelopeProgram M S n)) (provisioned draw T) before
  have hend := Machine.run_of_along (I := fun db => Watched db ∧ ∀ version, ¬ Live db.committed version)
    (fun _ _ h hd => ⟨watched_step h.1 hd, not_live_step h.1 h.2⟩)
    ⟨watched_step hwa hch, not_live_of_destroysKek hwa hes⟩ haf
  rw [Machine.run_append, Machine.run]
  have hde : ∀ version row, (Machine.run (step (envelopeProgram M S n)) (step (envelopeProgram M S n) db choice).2
      after).committed (.kek version) = some row → row.status = .destroyed := by
    intro version row hrow
    by_contra hstatus
    exact hend.2 version ⟨row, hrow, hstatus⟩
  refine ⟨fun version row kek _ _ hkek => ?_, fun version row hrow _ => ?_⟩
  · exact (hend.1.sound.committed.kek row.kekVersion kek hkek).destroyed (hde _ kek hkek)
  · obtain ⟨row2, hrow2, -⟩ := extends_run (sound_step hwa.sound choice) after _ row hrow
    exact ⟨row2, hrow2, hde version row2 hrow2⟩

end runs

/-! ### A rotation and a shred -/

/-- A draw for the examples below; the keys are numbers. -/
def sampleDraw (key : ℕ) : Draw Unit ℕ 1 := ⟨(), key, 0, fun _ => 0⟩

/-- The day-one DEK is provisioned, and a rotation of the KEK runs up to its last update. -/
def rotationUnderWay : List (Choice (Fin 2) (Request Unit ℕ 1)) :=
  .start 0 (.provisionDek (sampleDraw 10)) :: List.replicate 4 (.advance 0) ++
    .start 0 (.rotateKek (sampleDraw 2)) :: List.replicate 7 (.advance 0)

/-- A shred, up to its commit. -/
def shredding : List (Choice (Fin 2) (Request Unit ℕ 1)) := .start 1 .destroyKek :: List.replicate 4 (.advance 1)

/-- **A rotation survives a shred.** The shred commits while the rotation is before its last update: the DEK
is wrapped under the KEK that the shred did not see, and the KEK that it destroyed is retired. -/
theorem rotation_survives_shred :
    ¬ ShredIsFinal (provisioned (sampleDraw 1) (Fin 2))
      (rotationUnderWay ++ shredding ++ .advance 1 :: List.replicate 2 (.advance 0)) := by
  intro h
  obtain ⟨hdek, -⟩ := h _ (.advance 1) _ rfl rfl (by decide +kernel)
  cases hdek 1 _ _ (by decide +kernel) rfl rfl

/-- A shred after a rotation is final. -/
theorem shred_after_rotation :
    Machine.Along (step (envelopeProgram Unit ℕ 1)) NoOverlap (provisioned (sampleDraw 1) (Fin 2))
      (rotationUnderWay ++ List.replicate 2 (.advance 0) ++ shredding ++ [.advance 1]) ∧
    ShredIsFinal (provisioned (sampleDraw 1) (Fin 2))
      (rotationUnderWay ++ List.replicate 2 (.advance 0) ++ shredding ++ [.advance 1]) :=
  ⟨by decide +kernel, shred_is_final _ _ (by decide +kernel)⟩

end IronAuth.Store.Envelope
