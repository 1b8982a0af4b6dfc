import Hyperstory.Watch

/-! Runs that only read and report: what they give depends on the directory tree alone. -/
namespace Hyperstory

namespace Run

variable {α β : Type}

theorem run_bind (x : Run α) (f : α → Run β) (w : Workspace) :
    (x >>= f).run.run w =
      match x.run.run w with
      | (.ok a, w') => (f a).run.run w'
      | (.error e, w') => (.error e, w') := by
  obtain ⟨result, w', hx⟩ : ∃ result w', x.run.run w = (result, w') := ⟨_, _, rfl⟩
  show (match x.run.run w with
    | (r, w') => (ExceptT.bindCont f r) w') = _
  rw [hx]
  cases result <;> rfl

theorem run_tryCatch (x : Run α) (f : Halt → Run α) (w : Workspace) :
    (tryCatch x f).run.run w =
      match x.run.run w with
      | (.ok a, w') => (.ok a, w')
      | (.error e, w') => (f e).run.run w' := by
  obtain ⟨result, w', hx⟩ : ∃ result w', x.run.run w = (result, w') := ⟨_, _, rfl⟩
  rw [ExceptT.run_tryCatch, StateT.run_bind, hx]
  cases result <;> rfl

/-- What comes after a step that may be left out comes after it in any case. -/
theorem ite_bind (c : Prop) [Decidable c] (x : Run Unit) (f : Unit → Run α) :
    (if c then x >>= f else f ()) = (if c then x else pure ()) >>= f := by
  split <;> rfl

theorem ofDisk_run (f : Disk → Location → Except DiskError α) (w : Workspace) :
    (ofDisk f).run.run w =
      match f w.disk w.cwd with
      | .ok a => (.ok a, w)
      | .error e => (.error (.disk e), w) := by
  show (match f w.disk w.cwd with
    | .ok a => (pure a : Run α)
    | .error e => throw (Halt.disk e)).run.run w = _
  cases f w.disk w.cwd <;> rfl

def text (w : Workspace) (path : Path) : Except Halt String :=
  match w.disk.read w.cwd path with
  | .error e => .error (.disk e)
  | .ok bytes =>
    match String.fromUTF8? bytes with
    | some s => .ok (String.ofList (Text.unifyNewlines s.toList))
    | none => .error .encoding

theorem readText_run (path : Path) (w : Workspace) :
    (readText path).run.run w = (text w path, w) := by
  unfold readText text
  rw [run_bind, ofDisk_run]
  cases w.disk.read w.cwd path with
  | error e => rfl
  | ok bytes =>
    dsimp only
    cases String.fromUTF8? bytes <;> rfl

theorem text_with_happenings (w : Workspace) (path : Path) (reported : List Happening) :
    text { w with happenings := reported } path = text w path := rfl

theorem log_run (level : LogLevel) (message : String) (w : Workspace) :
    (log level message).run.run w =
      (.ok (), { w with happenings := w.happenings ++ [.logged ⟨level, message⟩] }) := rfl

/-- What is made of a file once the log has named it. -/
theorem run_logged_text (action file : String) (path : Path) (f : String → Run α) (w : Workspace) :
    ∃ reported,
      ((do logAction action file; let source ← readText path; f source : Run α).run.run w).1 =
        text w path >>= fun source => ((f source).run.run { w with happenings := reported }).1 := by
  rw [logAction, run_bind, log_run]
  dsimp only
  rw [run_bind, readText_run, text_with_happenings]
  cases text w path with
  | error e => exact ⟨w.happenings, rfl⟩
  | ok source => exact ⟨_, rfl⟩

/-- What a run gives where nothing was reported before. -/
def value (x : Run α) (w : Workspace) : Except Halt α :=
  (x.run.run { w with happenings := [] }).1

/-- A run leaves the directory tree as it is. Whatever was reported before, it gives the same, and
adds the same to what was reported. -/
def ReadsOnly (x : Run α) : Prop :=
  ∀ w : Workspace, ∃ more, ∀ earlier, x.run.run { w with happenings := earlier } =
    (x.value w, { w with happenings := earlier ++ more })

theorem value_with_happenings (x : Run α) (w : Workspace) (reported : List Happening) :
    x.value { w with happenings := reported } = x.value w := rfl

/-- A run that changes and reports nothing. -/
theorem readsOnly_of_run {x : Run α} (h : ∀ w, x.run.run w = (x.value w, w)) : x.ReadsOnly :=
  fun w => ⟨[], fun earlier => by rw [h, value_with_happenings, List.append_nil]⟩

theorem readsOnly_pure (a : α) : (pure a : Run α).ReadsOnly := readsOnly_of_run fun _ => rfl

theorem readsOnly_throw (h : Halt) : (throw h : Run α).ReadsOnly := readsOnly_of_run fun _ => rfl

theorem readsOnly_report (h : Happening) : (report h).ReadsOnly := fun _ => ⟨[h], fun _ => rfl⟩

theorem readsOnly_look (f : Disk → Location → α) : (look f).ReadsOnly :=
  readsOnly_of_run fun _ => rfl

theorem readsOnly_lift (x : Except Halt α) : (liftM x : Run α).ReadsOnly :=
  readsOnly_of_run fun _ => rfl

theorem readsOnly_ofDisk (f : Disk → Location → Except DiskError α) : (ofDisk f).ReadsOnly := by
  refine readsOnly_of_run fun w => ?_
  rw [value, ofDisk_run, ofDisk_run]
  cases f w.disk w.cwd <;> rfl

theorem value_ofDisk_eq_ok_iff {f : Disk → Location → Except DiskError α} {w : Workspace} {a : α} :
    (ofDisk f).value w = .ok a ↔ f w.disk w.cwd = .ok a := by
  rw [value, ofDisk_run]
  dsimp only
  cases f w.disk w.cwd <;> simp

theorem readsOnly_readText (path : Path) : (readText path).ReadsOnly := by
  refine readsOnly_of_run fun w => ?_
  rw [value, readText_run, readText_run]
  rfl

namespace ReadsOnly

variable {x : Run α} {f : α → Run β}

theorem exists_run (hx : x.ReadsOnly) (w : Workspace) :
    ∃ reported, x.run.run w = (x.value w, { w with happenings := reported }) := by
  obtain ⟨more, hrun⟩ := hx w
  exact ⟨w.happenings ++ more, hrun w.happenings⟩

theorem value_map (hx : x.ReadsOnly) (g : α → β) (w : Workspace) :
    ((do let a ← x; pure (g a) : Run β).run.run w).1 = x.value w >>= fun a => .ok (g a) := by
  obtain ⟨reported, hrun⟩ := hx.exists_run w
  rw [run_bind, hrun]
  cases x.value w <;> rfl

theorem value_bind (hx : x.ReadsOnly) (f : α → Run β) (w : Workspace) (hf : ∀ a, (f a).ReadsOnly) :
    (x >>= f).value w = x.value w >>= fun a => (f a).value w := by
  obtain ⟨reported, hrun⟩ := hx.exists_run { w with happenings := [] }
  rw [value, run_bind, hrun, value_with_happenings]
  cases x.value w with
  | error e => rfl
  | ok a =>
    obtain ⟨reported', hrun'⟩ := (hf a).exists_run { w with happenings := reported }
    show ((f a).run.run _).1 = _
    rw [hrun', value_with_happenings]
    rfl

theorem bind (hx : x.ReadsOnly) (hf : ∀ a, (f a).ReadsOnly) : (x >>= f).ReadsOnly := by
  intro w
  obtain ⟨more, hrun⟩ := hx w
  rw [hx.value_bind f w hf]
  cases hvalue : x.value w with
  | error e =>
    refine ⟨more, fun earlier => ?_⟩
    rw [run_bind, hrun, hvalue]
    rfl
  | ok a =>
    obtain ⟨more', hrun'⟩ := hf a w
    refine ⟨more ++ more', fun earlier => ?_⟩
    rw [run_bind, hrun, hvalue, ← List.append_assoc]
    exact hrun' _

theorem tryCatch {g : Halt → Run α} (hx : x.ReadsOnly) (hg : ∀ h, (g h).ReadsOnly) :
    (tryCatch x g : Run α).ReadsOnly := by
  intro w
  obtain ⟨more, hrun⟩ := hx w
  rw [value, run_tryCatch, hrun]
  cases hvalue : x.value w with
  | ok a =>
    refine ⟨more, fun earlier => ?_⟩
    rw [run_tryCatch, hrun, hvalue]
  | error e =>
    obtain ⟨more', hrun'⟩ := hg e w
    refine ⟨more ++ more', fun earlier => ?_⟩
    rw [run_tryCatch, hrun, hvalue, ← List.append_assoc]
    dsimp only
    rw [hrun', hrun']

/-- The steps of a run that gives something. What was reported in between does not matter for
what a step reads. -/
theorem exists_of_bind_ok (hx : x.ReadsOnly) {w : Workspace} {b : β}
    (h : ((x >>= f).run.run w).1 = .ok b) :
    ∃ a reported, x.value w = .ok a ∧
      ((f a).run.run { w with happenings := reported }).1 = .ok b := by
  obtain ⟨reported, hrun⟩ := hx.exists_run w
  rw [run_bind, hrun] at h
  cases ha : x.value w with
  | error e =>
    rw [ha] at h
    cases h
  | ok a =>
    rw [ha] at h
    exact ⟨a, reported, rfl, h⟩

/-- How a run ends once its first step was read, whatever is reported until then. -/
theorem bind_eq (hx : x.ReadsOnly) {w : Workspace} {a : α} {r : Except Halt β}
    (ha : x.value w = .ok a)
    (hf : ∀ reported, ((f a).run.run { w with happenings := reported }).1 = r) :
    ((x >>= f).run.run w).1 = r := by
  obtain ⟨reported, hrun⟩ := hx.exists_run w
  rw [run_bind, hrun, ha]
  exact hf reported

/-- What comes first has been read. -/
theorem run_bind_of_ok (hx : x.ReadsOnly) {w : Workspace} {a : α} (ha : x.value w = .ok a) :
    ∃ reported, (x >>= f).run.run w = (f a).run.run { w with happenings := reported } := by
  obtain ⟨reported, hrun⟩ := hx.exists_run w
  refine ⟨reported, ?_⟩
  rw [run_bind, hrun, ha]

theorem run_bind_of_error (hx : x.ReadsOnly) {w : Workspace} {e : Halt}
    (he : x.value w = .error e) :
    ((x >>= f).run.run w).1 = .error e := by
  obtain ⟨reported, hrun⟩ := hx.exists_run w
  rw [run_bind, hrun, he]

theorem run_eq (hx : x.ReadsOnly) (w : Workspace) : (x.run.run w).1 = x.value w := by
  obtain ⟨reported, hrun⟩ := hx.exists_run w
  rw [hrun]

theorem ite {c : Prop} [Decidable c] {y : Run α} (hx : x.ReadsOnly) (hy : y.ReadsOnly) :
    (if c then x else y).ReadsOnly := by
  split
  · exact hx
  · exact hy

end ReadsOnly

theorem readsOnly_forM {γ : Type} {f : γ → Run Unit} (hf : ∀ a, (f a).ReadsOnly) (l : List γ) :
    (l.forM f).ReadsOnly := by
  induction l with
  | nil => exact readsOnly_pure ()
  | cons a l ih => exact (hf a).bind fun _ => ih

theorem value_forM {γ : Type} {f : γ → Run Unit} (hf : ∀ a, (f a).ReadsOnly) {w : Workspace}
    (hok : ∀ a, (f a).value w = .ok ()) (l : List γ) : (l.forM f).value w = .ok () := by
  induction l with
  | nil => rfl
  | cons a l ih =>
    show (f a >>= fun _ => l.forM f).value w = .ok ()
    rw [(hf a).value_bind _ w fun _ => readsOnly_forM hf l, hok]
    exact ih

end Run

end Hyperstory
