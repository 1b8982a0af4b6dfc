import Hyperstory.Proofs.DirectoryChanges
import Hyperstory.Proofs.Runs

/-!
What runs do to a directory tree. A run that succeeds is taken apart into its steps, no run moves the
working directory, and a run that only asks what stands at each place does the same in trees in which
the same stands there.
-/
namespace Hyperstory

namespace Run

variable {α β : Type} {x : Run α} {f : α → Run β} {w w' v : Workspace} {a : α} {b : β}

/-! ### Runs that succeed -/

/-- A run from a workspace succeeds with a value and leaves a workspace. -/
def Gives (x : Run α) (w : Workspace) (a : α) (w' : Workspace) : Prop := x.run.run w = (.ok a, w')

theorem gives_bind : (x >>= f).Gives w b w' ↔ ∃ a v, x.Gives w a v ∧ (f a).Gives v b w' := by
  unfold Gives
  rw [run_bind]
  cases hx : x.run.run w with
  | mk result v =>
    cases result with
    | error e =>
      constructor
      · intro h
        cases h
      · rintro ⟨a, v, h, -⟩
        cases h
    | ok a =>
      constructor
      · intro h
        exact ⟨a, v, rfl, h⟩
      · rintro ⟨a, v, h, hrest⟩
        cases h
        exact hrest

theorem gives_pure {a' : α} : (pure a : Run α).Gives w a' w' ↔ a' = a ∧ w' = w := by
  constructor
  · intro h
    cases h
    exact ⟨rfl, rfl⟩
  · rintro ⟨rfl, rfl⟩
    rfl

theorem not_gives_throw {h : Halt} : ¬ (throw h : Run α).Gives w a w' := by
  intro hthrow
  cases hthrow

theorem gives_look {g : Disk → Location → α} :
    (look g).Gives w a w' ↔ a = g w.disk w.cwd ∧ w' = w := by
  constructor
  · intro h
    cases h
    exact ⟨rfl, rfl⟩
  · rintro ⟨rfl, rfl⟩
    rfl

theorem gives_report {h : Happening} {u : Unit} :
    (report h).Gives w u w' ↔ w' = { w with happenings := w.happenings ++ [h] } := by
  constructor
  · intro hrun
    cases hrun
    rfl
  · rintro rfl
    rfl

theorem gives_modify {g : Workspace → Workspace} {u : Unit} :
    (modify g : Run Unit).Gives w u w' ↔ w' = g w := by
  constructor
  · intro h
    cases h
    rfl
  · rintro rfl
    rfl

theorem gives_ofDisk {g : Disk → Location → Except DiskError α} :
    (ofDisk g).Gives w a w' ↔ g w.disk w.cwd = .ok a ∧ w' = w := by
  unfold Gives
  rw [ofDisk_run]
  cases g w.disk w.cwd with
  | error e =>
    constructor
    · intro h
      cases h
    · rintro ⟨h, -⟩
      cases h
  | ok a' =>
    constructor
    · intro h
      cases h
      exact ⟨rfl, rfl⟩
    · rintro ⟨h, rfl⟩
      rw [Except.ok.inj h]

theorem gives_change {g : Disk → Location → Except DiskError Disk} {u : Unit} :
    (change g).Gives w u w' ↔ ∃ d, g w.disk w.cwd = .ok d ∧ w' = { w with disk := d } := by
  rw [change, gives_bind]
  constructor
  · rintro ⟨d, v, hg, hrun⟩
    obtain ⟨hd, rfl⟩ := gives_ofDisk.mp hg
    exact ⟨d, hd, gives_modify.mp hrun⟩
  · rintro ⟨d, hd, rfl⟩
    exact ⟨d, w, gives_ofDisk.mpr ⟨hd, rfl⟩, gives_modify.mpr rfl⟩

theorem makeDirectories_run (p : Path) (w : Workspace) :
    (makeDirectories p).run.run w =
      let made := w.disk.ensureDirectories w.cwd p.root p.names.reverse
      (match made.2 with
        | none => .ok ()
        | some e => .error (.disk e), { w with disk := made.1 }) := by
  have hlook : (look fun d cwd => d.ensureDirectories cwd p.root p.names.reverse).run.run w =
      (.ok (w.disk.ensureDirectories w.cwd p.root p.names.reverse), w) := rfl
  rw [makeDirectories, run_bind, hlook]
  generalize w.disk.ensureDirectories w.cwd p.root p.names.reverse = made
  obtain ⟨d, e⟩ := made
  cases e <;> rfl

theorem gives_makeDirectories {p : Path} {u : Unit} :
    (makeDirectories p).Gives w u w' ↔
      ∃ d, w.disk.ensureDirectories w.cwd p.root p.names.reverse = (d, none) ∧
        w' = { w with disk := d } := by
  unfold Gives
  rw [makeDirectories_run]
  generalize w.disk.ensureDirectories w.cwd p.root p.names.reverse = made
  obtain ⟨d, e⟩ := made
  constructor
  · intro h
    cases e with
    | some e => cases h
    | none => exact ⟨d, rfl, (Prod.mk.inj h).2.symm⟩
  · rintro ⟨d', hd, rfl⟩
    cases hd
    rfl

theorem gives_forM_cons {γ : Type} {g : γ → Run Unit} {c : γ} {cs : List γ} {u : Unit} :
    ((c :: cs).forM g).Gives w u w' ↔
      ∃ v, (g c).Gives w () v ∧ (cs.forM g).Gives v () w' := by
  show (g c >>= fun _ => cs.forM g).Gives w u w' ↔ _
  rw [gives_bind]
  constructor
  · rintro ⟨_, v, hfirst, hrest⟩
    exact ⟨v, hfirst, hrest⟩
  · rintro ⟨v, hfirst, hrest⟩
    exact ⟨(), v, hfirst, hrest⟩

/-- What holds between the workspaces before and after each step holds for all of them together. -/
theorem Gives.forM {γ : Type} {g : γ → Run Unit} {R : Workspace → Workspace → Prop}
    (hrefl : ∀ w, R w w) (htrans : ∀ u v w, R u v → R v w → R u w) {cs : List γ}
    (hstep : ∀ c ∈ cs, ∀ w v, (g c).Gives w () v → R w v) (h : (cs.forM g).Gives w () w') :
    R w w' := by
  induction cs generalizing w with
  | nil =>
    obtain ⟨-, rfl⟩ := gives_pure.mp h
    exact hrefl w'
  | cons c cs ih =>
    obtain ⟨v, hfirst, hrest⟩ := gives_forM_cons.mp h
    have hthen := ih (fun c' hc' => hstep c' (List.mem_cons_of_mem _ hc')) hrest
    exact htrans w v w' (hstep c List.mem_cons_self w v hfirst) hthen

theorem ReadsOnly.of_gives (hx : x.ReadsOnly) (h : x.Gives w a w') :
    x.value w = .ok a ∧ w'.disk = w.disk ∧ w'.cwd = w.cwd := by
  obtain ⟨reported, hrun⟩ := hx.exists_run w
  rw [Gives, hrun] at h
  obtain ⟨hvalue, rfl⟩ := Prod.mk.inj h
  exact ⟨hvalue, rfl, rfl⟩

theorem ReadsOnly.exists_gives (hx : x.ReadsOnly) (h : x.value w = .ok a) :
    ∃ reported, x.Gives w a { w with happenings := reported } := by
  obtain ⟨reported, hrun⟩ := hx.exists_run w
  exact ⟨reported, by rw [Gives, hrun, h]⟩

/-! ### The working directory -/

/-- A run leaves the working directory where it is, also when it ends before its time. -/
def Stays (x : Run α) : Prop := ∀ w, (x.run.run w).2.cwd = w.cwd

theorem ReadsOnly.stays (hx : x.ReadsOnly) : x.Stays := by
  intro w
  obtain ⟨reported, hrun⟩ := hx.exists_run w
  rw [hrun]

theorem stays_modify {g : Workspace → Workspace} (hg : ∀ w, (g w).cwd = w.cwd) :
    (modify g : Run Unit).Stays := fun w => hg w

namespace Stays

theorem bind (hx : x.Stays) (hf : ∀ a, (f a).Stays) : (x >>= f).Stays := by
  intro w
  have hfirst := hx w
  rw [run_bind]
  cases hstep : x.run.run w with
  | mk result v =>
    rw [hstep] at hfirst
    cases result with
    | error e => exact hfirst
    | ok a => exact (hf a v).trans hfirst

theorem ite {c : Prop} [Decidable c] {y : Run α} (hx : x.Stays) (hy : y.Stays) :
    (if c then x else y).Stays := by
  split
  · exact hx
  · exact hy

end Stays

theorem stays_forM {γ : Type} {g : γ → Run Unit} (hg : ∀ c, (g c).Stays) (cs : List γ) :
    (cs.forM g).Stays := by
  induction cs with
  | nil => exact (readsOnly_pure ()).stays
  | cons c cs ih => exact (hg c).bind fun _ => ih

theorem stays_change (g : Disk → Location → Except DiskError Disk) : (change g).Stays :=
  (readsOnly_ofDisk g).stays.bind fun _ => stays_modify fun _ => rfl

theorem stays_makeDirectories (p : Path) : (makeDirectories p).Stays := by
  refine (readsOnly_look _).stays.bind fun found => ?_
  refine Stays.bind (stays_modify fun _ => rfl) fun _ => ?_
  cases found.2 with
  | none => exact (readsOnly_pure ()).stays
  | some e => exact (readsOnly_throw _).stays

/-! ### Trees in which the same stands at each place -/

/-- Workspaces that differ at most in how their trees are listed and in what was reported. -/
structure SameTree (w v : Workspace) : Prop where
  cwd : v.cwd = w.cwd
  disk : w.disk.Agree v.disk

def Respects (x : Run α) : Prop :=
  ∀ w v, SameTree w v →
    (x.run.run v).1 = (x.run.run w).1 ∧ SameTree (x.run.run w).2 (x.run.run v).2

theorem Respects.exists_gives (hx : x.Respects) (h : x.Gives w a w') (hsame : SameTree w v) :
    ∃ v', x.Gives v a v' ∧ SameTree w' v' := by
  obtain ⟨hresult, hafter⟩ := hx w v hsame
  rw [h] at hresult hafter
  exact ⟨(x.run.run v).2, Prod.ext hresult rfl, hafter⟩

theorem respects_pure (a : α) : (pure a : Run α).Respects := fun _ _ h => ⟨rfl, h⟩

theorem respects_throw (h : Halt) : (throw h : Run α).Respects := fun _ _ hsame => ⟨rfl, hsame⟩

theorem respects_report (h : Happening) : (report h).Respects :=
  fun _ _ hsame => ⟨rfl, hsame.cwd, hsame.disk⟩

theorem Respects.bind (hx : x.Respects) (hf : ∀ a, (f a).Respects) : (x >>= f).Respects := by
  intro w v hsame
  obtain ⟨hresult, hafter⟩ := hx w v hsame
  rw [run_bind, run_bind]
  cases hw : x.run.run w with
  | mk result w₁ =>
    cases hv : x.run.run v with
    | mk result' v₁ =>
      rw [hw, hv] at hresult hafter
      subst hresult
      cases result' with
      | error e => exact ⟨rfl, hafter⟩
      | ok a => exact hf a w₁ v₁ hafter

theorem Respects.ite {c : Prop} [Decidable c] {y : Run α} (hx : x.Respects) (hy : y.Respects) :
    (if c then x else y).Respects := by
  split
  · exact hx
  · exact hy

/-- Two results of a change, one from each of two trees: both fail alike, or the same stands at each
place of what they make. -/
inductive SameChange : Except DiskError Disk → Except DiskError Disk → Prop
  | error (e : DiskError) : SameChange (.error e) (.error e)
  | ok {d d' : Disk} (h : d.Agree d') : SameChange (.ok d) (.ok d')

theorem respects_change {g : Disk → Location → Except DiskError Disk}
    (hg : ∀ d d' cwd, d.Agree d' → SameChange (g d cwd) (g d' cwd)) : (change g).Respects := by
  intro w v hsame
  have hchange := hg _ _ w.cwd hsame.disk
  rw [change, run_bind, run_bind, ofDisk_run, ofDisk_run, hsame.cwd]
  generalize g w.disk w.cwd = result at hchange
  generalize g v.disk w.cwd = result' at hchange
  cases hchange with
  | error e => exact ⟨rfl, hsame⟩
  | ok h => exact ⟨rfl, hsame.cwd, h⟩

end Run

namespace Disk

open Run

variable {d d' : Disk} {cwd : Location} {p : Path}

theorem Agree.write (h : d.Agree d') {bytes : ByteArray} :
    SameChange (d.write cwd p bytes) (d'.write cwd p bytes) := by
  unfold Disk.write
  rw [h.locate]
  cases d.locate cwd p with
  | error e => exact .error e
  | ok l =>
    have hdir : d'.isDirectoryAt l = d.isDirectoryAt l := by
      rw [isDirectoryAt, isDirectoryAt, h l]
    simp only [bind, Except.bind, hdir]
    cases d.isDirectoryAt l with
    | true => exact .error _
    | false => exact .ok h.put

theorem Agree.copy (h : d.Agree d') {source target : Path} :
    SameChange (d.copy cwd source target) (d'.copy cwd source target) := by
  unfold Disk.copy
  have hsame : d'.isSame cwd source target = d.isSame cwd source target := by
    rw [isSame, isSame, h.find, h.find]
  have hread : d'.read cwd source = d.read cwd source := by rw [read, read, h.find]
  rw [hsame, hread]
  cases source.trouble?.or target.trouble? with
  | some e => exact .error e
  | none =>
    cases d.isSame cwd source target with
    | true => exact .error _
    | false =>
      cases d.read cwd source with
      | error e => exact .error e
      | ok bytes => exact h.write

theorem Agree.ensureDirectory (h : d.Agree d') :
    SameChange (d.ensureDirectory cwd p) (d'.ensureDirectory cwd p) := by
  have hmake : SameChange (d.makeDirectory cwd p) (d'.makeDirectory cwd p) := by
    unfold makeDirectory
    rw [h.locate]
    cases d.locate cwd p with
    | error e => exact .error e
    | ok l =>
      simp only [bind, Except.bind, h l]
      cases (d.get? l).isSome with
      | true => exact .error _
      | false => exact .ok h.put
  unfold Disk.ensureDirectory
  rw [isDirectory, isDirectory, h.ask]
  generalize d.makeDirectory cwd p = made at hmake
  generalize d'.makeDirectory cwd p = made' at hmake
  cases hmake with
  | ok h' => exact .ok h'
  | error e =>
    dsimp only
    split
    · exact .error e
    · cases d.ask cwd p fun i => i == .directory with
      | error e' => exact .error e'
      | ok there =>
        simp only [bind, Except.bind]
        split
        · exact .ok h
        · exact .error e

theorem Agree.ensureDirectories (h : d.Agree d') {root : PathRoot} {names : List String} :
    (d'.ensureDirectories cwd root names).2 = (d.ensureDirectories cwd root names).2 ∧
      (d.ensureDirectories cwd root names).1.Agree (d'.ensureDirectories cwd root names).1 := by
  induction names with
  | nil =>
    have hsame := @Agree.ensureDirectory _ _ cwd ⟨root, []⟩ h
    rw [Disk.ensureDirectories, Disk.ensureDirectories]
    generalize d.ensureDirectory cwd ⟨root, []⟩ = made at hsame
    generalize d'.ensureDirectory cwd ⟨root, []⟩ = made' at hsame
    cases hsame with
    | error e => exact ⟨rfl, h⟩
    | ok h' => exact ⟨rfl, h'⟩
  | cons name above ih =>
    have hsame := @Agree.ensureDirectory _ _ cwd ⟨root, (name :: above).reverse⟩ h
    rw [Disk.ensureDirectories, Disk.ensureDirectories]
    generalize d.ensureDirectory cwd ⟨root, (name :: above).reverse⟩ = made at hsame
    generalize d'.ensureDirectory cwd ⟨root, (name :: above).reverse⟩ = made' at hsame
    cases hsame with
    | ok h' => exact ⟨rfl, h'⟩
    | error e =>
      by_cases he : e = .notFound
      · subst he
        dsimp only
        generalize d.ensureDirectories cwd root above = way at ih
        generalize d'.ensureDirectories cwd root above = way' at ih
        obtain ⟨d₁, e₁⟩ := way
        obtain ⟨d₁', e₁'⟩ := way'
        obtain ⟨rfl, hway⟩ : e₁' = e₁ ∧ d₁.Agree d₁' := ih
        cases e₁' with
        | some e => exact ⟨rfl, hway⟩
        | none =>
          have hlast := @Agree.ensureDirectory _ _ cwd ⟨root, (name :: above).reverse⟩ hway
          dsimp only
          generalize d₁.ensureDirectory cwd ⟨root, (name :: above).reverse⟩ = made at hlast
          generalize d₁'.ensureDirectory cwd ⟨root, (name :: above).reverse⟩ = made' at hlast
          cases hlast with
          | error e => exact ⟨rfl, hway⟩
          | ok h' => exact ⟨rfl, h'⟩
      · split <;> simp_all

end Disk

theorem Run.respects_write (p : Path) (bytes : ByteArray) :
    (change fun d cwd => d.write cwd p bytes).Respects := respects_change fun _ _ _ h => h.write

theorem Run.respects_copy (source target : Path) :
    (change fun d cwd => d.copy cwd source target).Respects := respects_change fun _ _ _ h => h.copy

theorem Run.respects_makeDirectories (p : Path) : (makeDirectories p).Respects := by
  intro w v hsame
  obtain ⟨herror, hdisk⟩ := @Disk.Agree.ensureDirectories _ _ w.cwd hsame.disk p.root p.names.reverse
  rw [makeDirectories_run, makeDirectories_run, hsame.cwd]
  dsimp only
  rw [herror]
  exact ⟨rfl, rfl, hdisk⟩

end Hyperstory
