import IronAuth.Store.Envelope

/-!
# No key is lost, and none comes back

Over every interleaving of provisioning, rotation, rekeying and the crypto-shred, the two tables stay
sealed: a KEK that is not shredded opens under the master that its row names, and a DEK opens under
the KEK of its version.

A transaction is looked at through what it sees. Each statement takes rows that are sealed to rows
that are sealed, in which the same keys are there and no empty blob has come back; what a script
carries from an earlier statement (a KEK it has unwrapped, a DEK it will wrap again) is a fact about
keys, so the commits of others cannot change it.
-/

namespace IronAuth.Store.Envelope

open Lib.ReadCommitted Lib Option Function

variable {M S : Type} {n : ℕ}

/-! ### Rows that stay sealed -/

variable (rows : Rows (Row M S n))

/-- The KEK of this version was created with this key. -/
def HasKek (version : Version n) (key : S) : Prop :=
  ∃ row, rows (.kek version) = some row ∧ row.created = key

/-- The DEK of this version was created with this key. -/
def HasDek (version : Version n) (key : S) : Prop :=
  ∃ row, rows (.dek version) = some row ∧ row.created = key

/-- A row keeps the key that it was created with, and an empty blob stays empty. -/
def Keeps : (k : Key n) → Row M S n k → Row M S n k → Prop
  | .kek _, row, row2 => row2.created = row.created ∧ (row.wrappedKek = none → row2.wrappedKek = none)
  | .dek _, row, row2 => row2.created = row.created

theorem Keeps.refl (k : Key n) (row : Row M S n k) : Keeps k row row := by
  cases k with
  | kek version => exact ⟨rfl, id⟩
  | dek version => rfl

theorem Keeps.trans (k : Key n) (row row2 row3 : Row M S n k) (h : Keeps k row row2) (h2 : Keeps k row2 row3) :
    Keeps k row row3 := by
  cases k with
  | kek version => exact ⟨h2.1.trans h.1, fun hn => h2.2 (h.2 hn)⟩
  | dek version => exact Eq.trans (b := row2.created) h2 h

abbrev Extends (before after : Rows (Row M S n)) : Prop := Evolves Keeps before after

/-- A shredded KEK stays shredded, and no other becomes so. -/
def Spares (before after : Rows (Row M S n)) : Prop :=
  ∀ version row, after (.kek version) = some row → row.wrappedKek = none →
    ∃ old, before (.kek version) = some old ∧ old.wrappedKek = none

section keys

variable {before middle after : Rows (Row M S n)} {version : Version n}

theorem HasKek.mono {key : S} (he : Extends before after) (h : HasKek before version key) :
    HasKek after version key := by
  obtain ⟨row, hr, hk⟩ := h
  obtain ⟨row2, hr2, hcr, -⟩ := he _ row hr
  exact ⟨row2, hr2, hcr.trans hk⟩

theorem HasDek.mono {key : S} (he : Extends before after) (h : HasDek before version key) :
    HasDek after version key := by
  obtain ⟨row, hr, hk⟩ := h
  obtain ⟨row2, hr2, hcr⟩ := he _ row hr
  exact ⟨row2, hr2, Eq.trans (b := row.created) hcr hk⟩

theorem Spares.trans (h : Spares before middle) (h2 : Spares middle after) : Spares before after := by
  intro version row hr hn
  obtain ⟨row2, hr2, hn2⟩ := h2 version row hr hn
  exact h version row2 hr2 hn2

variable {P : Version n → KekRow M S n → Prop} (h : ∀ version row, before (.kek version) = some row → P version row)

include h

theorem forall_kek_updateKek {row : KekRow M S n} (hr : P version row) (v r)
    (hu : Function.update before (.kek version) (some row) (.kek v) = some r) : P v r := by
  by_cases hv : v = version
  · subst hv
    rw [update_self] at hu
    cases hu
    exact hr
  · rw [update_of_ne (by simp [hv])] at hu
    exact h v r hu

theorem forall_kek_updateDek {row : DekRow S n} (v r)
    (hu : Function.update before (.dek version) (some row) (.kek v) = some r) : P v r := by
  exact h v r hu

end keys

variable [DecidableEq M] [DecidableEq S]

/-- A KEK opens under the master of its row to the key that it was created with, unless it is shredded. -/
structure KekRow.Sealed (row : KekRow M S n) (version : Version n) : Prop where
  opens : row.wrappedKek ≠ none → unwrapKek row.masterKeyId version row.masterKeyId row.wrappedKek = some row.created
  destroyed : row.status = .destroyed → row.wrappedKek = none

/-- A DEK opens under the KEK of its version to the key that it was created with. -/
def DekRow.Sealed (row : DekRow S n) (version : Version n) : Prop :=
  ∃ kek, HasKek rows row.kekVersion kek ∧ unwrapDek kek version row.wrappedDek = some row.created

/-- All rows are sealed. -/
structure WellFormed (rows : Rows (Row M S n)) : Prop where
  kek : ∀ version row, rows (.kek version) = some row → row.Sealed version
  dek : ∀ version row, rows (.dek version) = some row → row.Sealed rows version

section sealed

variable {rows after : Rows (Row M S n)} {version : Version n}

variable {row : DekRow S n} {m : M} {kek : S}

omit [DecidableEq M] in
theorem DekRow.Sealed.mono (he : Extends rows after) (h : row.Sealed rows version) :
    row.Sealed after version := by
  obtain ⟨kek, hk, ho⟩ := h
  exact ⟨kek, hk.mono he, ho⟩

omit [DecidableEq S] in
/-- Whatever a KEK opens to, it was created with. -/
theorem KekRow.Sealed.eq_created {row : KekRow M S n} {ver2 : Version n} (h : row.Sealed version)
    {ma : M} (ho : unwrapKek ma ver2 m row.wrappedKek = some kek) :
    row.created = kek := by
  obtain ⟨b, hb, hk⟩ := unwrapKek_eq_some ho
  have hcr := h.opens (by rw [hb]; exact some_ne_none b)
  obtain ⟨b2, hb2, hk2⟩ := unwrapKek_eq_some hcr
  cases hb.symm.trans hb2
  exact hk2.symm.trans hk

theorem WellFormed.fetchKekByVersion (h : WellFormed rows)
    (hf : fetchKekByVersion rows m version = some kek) : HasKek rows version kek := by
  obtain ⟨row, hr, ho⟩ := bind_eq_some_iff.mp hf
  exact ⟨row, hr, (h.kek version row hr).eq_created ho⟩

theorem WellFormed.fetchActiveKek (h : WellFormed rows)
    (hf : fetchActiveKek rows m = some (version, kek)) : HasKek rows version kek := by
  obtain ⟨ver2, -, hm⟩ := bind_eq_some_iff.mp hf
  obtain ⟨kek2, hk, heq⟩ := map_eq_some_iff.mp hm
  cases heq
  exact h.fetchKekByVersion hk

end sealed

/-! ### Assertions -/

/-- The script destroys KEKs. -/
def Control.shreds : Control M S n → Bool
  | .shredKeks _ => true
  | .commit .kekDestroyed => true
  | _ => false

/-- What a script has learned of the keys. -/
def Aware : Control M S n → Prop
  | .activeDeks _ _ kekVersion kek => HasKek rows kekVersion kek
  | .retireDeks _ _ kekVersion kek _ => HasKek rows kekVersion kek
  | .insertDek _ _ kekVersion kek => HasKek rows kekVersion kek
  | .listDeks draw _ new => HasKek rows new draw.fresh
  | .fetchDek draw _ new _ => HasKek rows new draw.fresh
  | .fetchKek draw _ new version _ kekVersion wrapped =>
    HasKek rows new draw.fresh ∧ ∃ kek dek, HasKek rows kekVersion kek ∧ HasDek rows version dek ∧
      unwrapDek kek version wrapped = some dek
  | .rewrapDek draw _ new version _ dek => HasKek rows new draw.fresh ∧ HasDek rows version dek
  | _ => True

omit [DecidableEq M] in
theorem Aware.mono {rows after : Rows (Row M S n)} (he : Extends rows after) {control : Control M S n}
    (h : Aware rows control) : Aware after control := by
  cases control with
  | activeDeks | retireDeks | insertDek | listDeks | fetchDek => exact HasKek.mono he h
  | fetchKek d old new version rest kekVersion w =>
    obtain ⟨hn, kek, dek, hk, hd, ho⟩ := h
    exact ⟨hn.mono he, kek, dek, hk.mono he, hd.mono he, ho⟩
  | rewrapDek d old new version rest dek => exact ⟨h.1.mono he, h.2.mono he⟩
  | _ => trivial

/-- What is asserted of a script before its next statement. -/
structure Asserted (committed : Rows (Row M S n)) (script : Script (Row M S n) (Control M S n)) : Prop where
  wellFormed : WellFormed (script.writes.over committed)
  keeps : Extends committed (script.writes.over committed)
  aware : Aware (script.writes.over committed) script.control
  spares : script.control.shreds = false → Spares committed (script.writes.over committed)

/-! ### Statements -/

section statements

variable {committed writes : Rows (Row M S n)} {control next : Control M S n}

/-- A script that has only read. -/
theorem Asserted.read (h : Asserted committed ⟨control, writes⟩) (ha : Aware (writes.over committed) next)
    (hsh : next.shreds = false → control.shreds = false) : Asserted committed ⟨next, writes⟩ :=
  ⟨h.wellFormed, h.keeps, ha, fun hn => h.spares (hsh hn)⟩

variable {version : Version n} {rows : Rows (Row M S n)}

/-- A script that has written a KEK. -/
theorem Asserted.writeKek (h : Asserted committed ⟨control, writes⟩) {row : KekRow M S n}
    (hr : row.Sealed version)
    (hkp : ∀ old, writes.over committed (.kek version) = some old → Keeps (.kek version) old row)
    (ha : ∀ rows, Extends (writes.over committed) rows → HasKek rows version row.created → Aware rows next)
    (hsh : next.shreds = false → control.shreds = false ∧
      (row.wrappedKek = none → ∃ old, writes.over committed (.kek version) = some old ∧ old.wrappedKek = none)) :
    Asserted committed ⟨next, Function.update writes (.kek version) (some row)⟩ := by
  have he : Extends (writes.over committed) (Function.update (writes.over committed) (.kek version) (some row)) :=
    Evolves.update Keeps.refl hkp
  refine ⟨?_, ?_, ?_, fun hn => ?_⟩
  · rw [over_update]
    refine ⟨forall_kek_updateKek h.wellFormed.kek hr, fun ver2 row2 hr2 => ?_⟩
    exact (h.wellFormed.dek ver2 row2 hr2).mono he
  · rw [over_update]
    exact h.keeps.trans Keeps.trans he
  · rw [over_update]
    exact ha _ he ⟨row, update_self .., rfl⟩
  · rw [over_update]
    exact (h.spares (hsh hn).1).trans (forall_kek_updateKek (fun _ row2 hr2 hno => ⟨row2, hr2, hno⟩) (hsh hn).2)

/-- A script that has written a DEK. -/
theorem Asserted.writeDek (h : Asserted committed ⟨control, writes⟩) {row : DekRow S n}
    (hr : row.Sealed (writes.over committed) version)
    (hkp : ∀ old, writes.over committed (.dek version) = some old → Keeps (M := M) (.dek version) old row)
    (ha : ∀ rows, Extends (writes.over committed) rows → Aware rows next) (hsh : control.shreds = false) :
    Asserted committed ⟨next, Function.update writes (.dek version) (some row)⟩ := by
  have he : Extends (writes.over committed) (Function.update (writes.over committed) (.dek version) (some row)) :=
    Evolves.update Keeps.refl hkp
  refine ⟨?_, ?_, ?_, fun _ => ?_⟩
  · rw [over_update]
    refine ⟨forall_kek_updateDek h.wellFormed.kek, fun ver2 row2 hr2 => ?_⟩
    by_cases hv : ver2 = version
    · subst hv
      rw [update_self] at hr2
      cases hr2
      exact hr.mono he
    · rw [update_of_ne (by simp [hv])] at hr2
      exact (h.wellFormed.dek ver2 row2 hr2).mono he
  · rw [over_update]
    exact h.keeps.trans Keeps.trans he
  · rw [over_update]
    exact ha _ he
  · rw [over_update]
    exact (h.spares hsh).trans (forall_kek_updateDek fun _ row2 hr2 hn => ⟨row2, hr2, hn⟩)

omit [DecidableEq M] [DecidableEq S] in
theorem keeps_of_eq {k : Key n} {row row2 : Row M S n k} (hr : rows k = some row)
    (h : Keeps k row row2) : ∀ old, rows k = some old → Keeps k old row2 := by
  intro old ho
  cases hr.symm.trans ho
  exact h

omit [DecidableEq M] [DecidableEq S] in
theorem keeps_of_none {k : Key n} {row2 : Row M S n k} (hn : rows k = none) :
    ∀ old, rows k = some old → Keeps k old row2 := by
  intro old ho
  cases hn.symm.trans ho

/-- A rewrap of a KEK finds the bytes that it has unwrapped, or no row. -/
theorem ensures_storeRewrappedKek {src tgt : M} {row : ListedKek M S n} {no : ℕ}
    (h : Asserted committed ⟨.rewrapKek src tgt row no, writes⟩) :
    (storeRewrappedKek src tgt row no).Ensures committed writes (Asserted committed) := by
  unfold storeRewrappedKek
  split_ifs with hs hd
  · trivial
  · exact h.read trivial fun _ => rfl
  · cases ho : unwrapKek src row.version src row.wrappedKek with
    | none => trivial
    | some kek =>
      refine ⟨fun cur hc hgd => ?_, fun _ => h.read trivial fun _ => rfl⟩
      obtain ⟨hb, -, hst⟩ := of_decide_eq_true hgd
      have hcr := (h.wellFormed.kek row.version cur hc).eq_created (hb ▸ ho)
      refine h.writeKek ⟨fun _ => ?_, fun hc => ?_⟩ (keeps_of_eq hc ⟨rfl, fun hn => ?_⟩)
        (fun _ _ _ => trivial) fun _ => ⟨rfl, by simp⟩
      · rw [hcr]
        exact unwrapKek_wrapKek ..
      · exact absurd (hst.symm.trans hc) hd
      · rw [← hb, hn] at ho
        cases ho

/-- Each statement keeps what is asserted. -/
theorem asserted_next (script : Script (Row M S n) (Control M S n)) (h : Asserted committed script) :
    (statement script.control).Ensures committed script.writes (Asserted committed) := by
  obtain ⟨control, writes⟩ := script
  cases control with
  | firstDek | probeKek =>
    refine h.read ?_ fun _ => rfl
    dsimp only
    split_ifs <;> trivial
  | lastDek d =>
    refine h.read ?_ fun _ => rfl
    dsimp only
    split <;> trivial
  | fetchActiveKek d version rotates =>
    refine h.read ?_ fun _ => rfl
    dsimp only
    split
    · rename_i kekVersion kek hf
      have hk := h.wellFormed.fetchActiveKek hf
      split_ifs <;> exact hk
    · trivial
  | activeDeks | listDeks => exact h.read h.aware fun _ => rfl
  | retireDeks d version kekVersion kek rest =>
    cases rest with
    | nil => exact h.read h.aware fun _ => rfl
    | cons next rest =>
      refine ⟨fun row hr _ => ?_, fun _ => h.read h.aware fun _ => rfl⟩
      exact h.writeDek (h.wellFormed.dek next row hr) (keeps_of_eq hr rfl) (fun rows he => HasKek.mono he h.aware) rfl
  | insertDek d version kekVersion kek =>
    intro hn
    exact h.writeDek ⟨kek, h.aware, unwrapDek_wrapDek ..⟩ (keeps_of_none hn) (fun _ _ => trivial) rfl
  | activeKek d =>
    refine h.read ?_ fun _ => rfl
    dsimp only
    split
    · split <;> trivial
    · trivial
  | insertKek d old new =>
    intro hn
    exact h.writeKek ⟨fun _ => unwrapKek_wrapKek .., by simp [newKek]⟩ (keeps_of_none hn) (fun _ _ hk => hk)
      fun _ => ⟨rfl, by simp [newKek]⟩
  | fetchDek d old new rest =>
    cases rest with
    | nil => exact h.read trivial fun _ => rfl
    | cons version rest =>
      refine h.read ?_ fun _ => rfl
      dsimp only
      split
      · rename_i row hr
        obtain ⟨kek, hk, ho⟩ := h.wellFormed.dek version row hr
        exact ⟨h.aware, kek, row.created, hk, ⟨row, hr, rfl⟩, ho⟩
      · trivial
  | fetchKek d old new version rest kekVersion w =>
    refine h.read ?_ fun _ => rfl
    dsimp only
    split
    · rename_i dek hd
      obtain ⟨hne, kek, dek2, ⟨row, hr, rfl⟩, hd2, ho⟩ := h.aware
      obtain ⟨kek2, hf, ho2⟩ := bind_eq_some_iff.mp hd
      -- the KEK that the DEK was read with is the KEK that is fetched now
      obtain ⟨row2, hr2, rfl⟩ := h.wellFormed.fetchKekByVersion hf
      cases hr.symm.trans hr2
      cases ho.symm.trans ho2
      exact ⟨hne, hd2⟩
    · trivial
  | rewrapDek d old new version rest dek =>
    obtain ⟨hne, row2, hr2, hcr⟩ := h.aware
    refine ⟨fun row hr _ => ?_, fun _ => h.read hne fun _ => rfl⟩
    cases hr2.symm.trans hr
    refine h.writeDek ⟨d.fresh, hne, ?_⟩ (keeps_of_eq hr rfl) (fun rows he => HasKek.mono he hne) rfl
    rw [hcr]
    exact unwrapDek_wrapDek ..
  | retireKek old =>
    refine ⟨fun row hr _ => ?_, fun _ => h.read trivial fun _ => rfl⟩
    exact h.writeKek ⟨(h.wellFormed.kek old row hr).opens, by simp⟩ (keeps_of_eq hr ⟨rfl, id⟩) (fun _ _ _ => trivial)
      fun _ => ⟨rfl, fun hn => ⟨row, hr, hn⟩⟩
  | liveKeks | listKeks => exact h.read trivial fun _ => rfl
  | shredKeks rest =>
    cases rest with
    | nil => exact h.read trivial id
    | cons version rest =>
      refine ⟨fun row hr _ => ?_, fun _ => h.read trivial id⟩
      exact h.writeKek ⟨fun hs => absurd rfl hs, fun _ => rfl⟩ (keeps_of_eq hr ⟨rfl, fun _ => rfl⟩) (fun _ _ _ => trivial)
        fun hsh => by cases hsh
  | rewrapKek source t row nonce => exact ensures_storeRewrappedKek h
  | failed | commit => trivial

end statements

/-! ### Interleavings -/

section stable

variable {committed after writes : Rows (Row M S n)} {script : Script (Row M S n) (Control M S n)}

/-- What is asserted survives the commits of others. -/
theorem Asserted.stable (h : Asserted committed script) (he : Extends committed after) (hwf : WellFormed after)
    (hs : ∀ k, (script.writes k).isSome → after k = committed k) : Asserted after script := by
  have hv : Extends (script.writes.over committed) (script.writes.over after) := Evolves.over Keeps.refl he
  have hkp : Extends after (script.writes.over after) := Evolves.over_of_same Keeps.refl h.keeps hs
  refine ⟨⟨fun version row hr => ?_, fun version row hr => ?_⟩, hkp, h.aware.mono hv, fun hsh => ?_⟩
  · cases hws : script.writes (.kek version) with
    | none => exact hwf.kek version row ((over_of_none hws).symm.trans hr)
    | some row2 =>
      cases (over_of_some hws).symm.trans hr
      exact h.wellFormed.kek version row (over_of_some hws)
  · cases hws : script.writes (.dek version) with
    | none => exact (hwf.dek version row ((over_of_none hws).symm.trans hr)).mono hkp
    | some row2 =>
      cases (over_of_some hws).symm.trans hr
      exact (h.wellFormed.dek version row (over_of_some hws)).mono hv
  · intro version row hr hn
    cases hws : script.writes (.kek version) with
    | none => exact ⟨row, (over_of_none hws).symm.trans hr, hn⟩
    | some row2 =>
      cases (over_of_some hws).symm.trans hr
      obtain ⟨old, ho, hn2⟩ := h.spares hsh version row (over_of_some hws) hn
      exact ⟨old, (hs _ (by rw [hws]; rfl)).trans ho, hn2⟩

end stable

/-- **The discipline of the keys.** -/
theorem keysDiscipline : Discipline (envelopeProgram M S n) WellFormed Asserted
    (fun before after => Extends before after ∧ WellFormed after) := by
  refine scriptDiscipline (fun committed request hwf => ?_) (fun _ script _ h => asserted_next script h)
    (fun _ _ _ h _ => ⟨h.wellFormed, h.keeps, h.wellFormed⟩) fun _ _ _ _ h hG hs => h.stable hG.1 hG.2 hs
  have hv : Rows.over (fun _ => none) committed = committed := over_of_blank fun _ => rfl
  refine ⟨?_, ?_, ?_, fun _ => ?_⟩
  · rwa [hv]
  · rw [hv]
    exact Evolves.refl Keeps.refl committed
  · cases request <;> trivial
  · rw [hv]
    exact fun version row hr hn => ⟨row, hr, hn⟩

/-! ### Runs -/

section runs

variable {T : Type} [Fintype T] [DecidableEq T]

/-- The rows are sealed, and so is what every open transaction sees. -/
def Sound (db : EnvelopeDatabase M S n T) : Prop := Kept (envelopeProgram M S n) WellFormed Asserted db

omit [Fintype T] [DecidableEq T] in
theorem sound_provisioned (d : Draw M S n) : Sound (provisioned d T) where
  committed := by
    refine ⟨fun version row hr => ?_, fun version row hr => by cases hr⟩
    have hr2 : (if version = 1 then some (newKek d 1) else none) = some row := hr
    split_ifs at hr2 with hv
    cases hr2
    subst hv
    exact ⟨fun _ => unwrapKek_wrapKek .., by simp [newKek]⟩
  running := fun _ _ h => by cases h
  exclusive := fun _ _ _ _ _ h => by cases h

variable {db : EnvelopeDatabase M S n T}

theorem sound_step (h : Sound db) (c : Choice T (Request M S n)) :
    Sound (step (envelopeProgram M S n) db c).2 := discipline_step keysDiscipline h c

theorem extends_step (h : Sound db) (c : Choice T (Request M S n)) :
    Extends db.committed (step (envelopeProgram M S n) db c).2.committed := by
  obtain ⟨-, hs⟩ | ⟨t, tx, htx, -, -, ha⟩ := step_committed (envelopeProgram M S n) db c
  · rw [hs]
    exact Evolves.refl Keeps.refl _
  · rw [ha]
    exact (h.running t tx htx).keeps

theorem extends_run (h : Sound db) (cs : List (Choice T (Request M S n))) :
    Extends db.committed (Machine.run (step (envelopeProgram M S n)) db cs).committed := by
  induction cs generalizing db with
  | nil => exact Evolves.refl Keeps.refl _
  | cons c cs ih => exact (extends_step h c).trans Keeps.trans (ih (sound_step h c))

/-- `destroy_kek` commits. -/
def destroysKek (entry : Choice T (Request M S n) × Option (Script (Row M S n) (Control M S n))) : Prop :=
  entry.2.any (fun script => script.control.shreds) = true

/-- A KEK has no bytes. -/
def Shredded (db : EnvelopeDatabase M S n T) : Prop :=
  ∃ version row, db.committed (.kek version) = some row ∧ row.wrappedKek = none

/-- Only the commit of `destroy_kek` shreds a KEK. -/
theorem shredded_step (h : Sound db) (c : Choice T (Request M S n))
    (hh : Shredded (step (envelopeProgram M S n) db c).2) :
    Shredded db ∨ destroysKek (c, (step (envelopeProgram M S n) db c).1) := by
  obtain ⟨version, row, hr, hn⟩ := hh
  obtain ⟨-, hs⟩ | ⟨t, tx, htx, -, ha, haf⟩ := step_committed (envelopeProgram M S n) db c
  · rw [hs] at hr
    exact .inl ⟨version, row, hr, hn⟩
  · rw [haf] at hr
    cases hsh : tx.control.shreds with
    | true =>
      refine .inr ?_
      rw [destroysKek, ha]
      exact hsh
    | false =>
      obtain ⟨old, ho, hn2⟩ := (h.running t tx htx).spares hsh version row hr hn
      exact .inl ⟨version, old, ho, hn2⟩

/-- What a DEK opens to, through the KEK of its version and the master of that. -/
def openDek (rows : Rows (Row M S n)) (version : Version n) (row : DekRow S n) : Option S :=
  (rows (.kek row.kekVersion)).bind fun kek =>
    (unwrapKek kek.masterKeyId row.kekVersion kek.masterKeyId kek.wrappedKek).bind fun key =>
      unwrapDek key version row.wrappedDek

/-- **No key is lost, and none comes back.** After every run, a KEK with bytes opens under the master that
its row names to the key it was created with; if no crypto-shred has committed, every DEK opens to the
key it was created with; and no step gives bytes to a row that was destroyed. -/
theorem keys_survive (draw : Draw M S n) (choices : List (Choice T (Request M S n))) :
    (∀ version row, (Machine.run (step (envelopeProgram M S n)) (provisioned draw T) choices).committed (.kek version) = some row →
      row.wrappedKek ≠ none →
        unwrapKek row.masterKeyId version row.masterKeyId row.wrappedKek = some row.created) ∧
    ((∀ entry ∈ Machine.transcript (step (envelopeProgram M S n)) (provisioned draw T) choices, ¬ destroysKek entry) →
      ∀ version row,
        (Machine.run (step (envelopeProgram M S n)) (provisioned draw T) choices).committed (.dek version) = some row →
          openDek (Machine.run (step (envelopeProgram M S n)) (provisioned draw T) choices).committed version row =
            some row.created) ∧
    Machine.Along (step (envelopeProgram M S n))
      (fun db choice => Extends db.committed (step (envelopeProgram M S n) db choice).2.committed ∧
        ∀ version row, db.committed (.kek version) = some row → row.status = .destroyed →
          ∃ row2, (step (envelopeProgram M S n) db choice).2.committed (.kek version) = some row2 ∧ row2.wrappedKek = none)
      (provisioned draw T) choices := by
  have hrun : Sound (Machine.run (step (envelopeProgram M S n)) (provisioned draw T) choices) :=
    discipline_run keysDiscipline (sound_provisioned draw) choices
  refine ⟨fun version row hrow => (hrun.committed.kek version row hrow).opens, fun hne version row hrow => ?_, ?_⟩
  · obtain ⟨key, ⟨kek, hkek, rfl⟩, hpe⟩ := hrun.committed.dek version row hrow
    have hby : kek.wrappedKek ≠ none := by
      intro hno
      obtain ⟨ver2, row2, hrow2, hno2⟩ | ⟨entry, hen, hes⟩ :=
        Machine.exists_mem_transcript (Q := Shredded) (fun _ choice h => sound_step h choice)
          (fun _ choice h => shredded_step h choice) (sound_provisioned draw) ⟨row.kekVersion, kek, hkek, hno⟩
      · have hfi : (if ver2 = 1 then some (newKek draw 1) else none) = some row2 := hrow2
        split_ifs at hfi
        cases hfi
        cases hno2
      · exact hne entry hen hes
    unfold openDek
    rw [hkek]
    simp only [bind_some]
    rw [(hrun.committed.kek _ kek hkek).opens hby, bind_some, hpe]
  · refine Machine.along_of_invariant (I := fun db _ => Sound db) (fun db choice _ h => ⟨⟨extends_step h choice, ?_⟩, sound_step h choice⟩)
      (sound_provisioned draw)
    intro version row hrow hde
    obtain ⟨row2, hrow2, -, hem⟩ := extends_step h choice _ row hrow
    exact ⟨row2, hrow2, hem ((h.committed.kek version row hrow).destroyed hde)⟩

end runs

end IronAuth.Store.Envelope
