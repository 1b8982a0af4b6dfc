import Hyperstory.Watch
import Hyperstory.Proofs.Effects
import Hyperstory.Proofs.Loading

/-!
What a watcher knows of the output directory. It reads the project file when an event tells of it,
and remembers what it read last. As long as the project file names the same directory as then, what
a build writes there is no reason to build again, however many events tell of it. A file that is
moved onto the project file is told of under its old name, which the watcher does not look for.
-/
namespace Hyperstory

open Run

theorem Run.resolve_run (p : Path) (s : Workspace) :
    (Run.resolve p).run.run s = ((Run.resolve p).value s, s) := by
  unfold Run.resolve
  cases p.trouble? <;> rfl

namespace Watcher

variable {w : Watcher} {s : Workspace} {e : FileEvent} {l : Location}

/-- The output directory that the project file names. -/
def named (w : Watcher) (s : Workspace) : Except Halt Location := (readOutput w.file).value s

/-- An event tells of the project file under its own name. A watcher whose output directory holds
the project file takes the project file for output, and hears nothing. -/
def hears (w : Watcher) (s : Workspace) (e : FileEvent) : Bool :=
  !e.isDirectory && e.kind.word?.isSome && decide ((Run.resolve e.path).value s = .ok w.file) &&
    !w.output.isPrefixOf w.file

/-- What a watcher knows once it has met with an event. -/
def told (w : Watcher) (s : Workspace) (e : FileEvent) : Watcher :=
  match w.hears s e, w.named s with
  | true, .ok l => { w with output := l }
  | _, _ => w

theorem isSource_iff : w.isSource l = true ↔
    ¬ w.output <+: l ∧ (l = w.file ∨ l.isBelow w.base = true) := by
  unfold isSource
  rw [Bool.and_eq_true, Bool.or_eq_true, beq_iff_eq, Bool.not_eq_true', ← Bool.not_eq_true,
    Bool.or_eq_true, beq_iff_eq, Location.eq_or_isBelow_iff]

theorem hears_iff : w.hears s e = true ↔ e.isDirectory = false ∧ e.kind.word?.isSome = true ∧
    (Run.resolve e.path).value s = .ok w.file ∧ w.isSource w.file = true := by
  rw [isSource_iff]
  unfold hears
  simp [and_assoc, ← Bool.not_eq_true, List.isPrefixOf_iff_prefix]

theorem readsOnly_readOutput (file : Location) : (readOutput file).ReadsOnly :=
  (Project.readsOnly_load _).bind fun _ => readsOnly_resolve _

theorem named_with_happenings (w : Watcher) (s : Workspace) (reported : List Happening) :
    w.named { s with happenings := reported } = w.named s := rfl

theorem refresh_run (w : Watcher) (s : Workspace) : ∃ reported,
    w.refresh.run.run s = (match w.named s with
      | .ok l => .ok (some { w with output := l })
      | .error (.project _) => .ok none
      | .error h => .error h, { s with happenings := reported }) := by
  obtain ⟨reported, hread⟩ := (readsOnly_readOutput w.file).exists_run s
  have hnew : (do pure (some { w with output := ← readOutput w.file }) : Run (Option Watcher)).run.run
      s = ((w.named s).map fun l => some { w with output := l },
        { s with happenings := reported }) := by
    rw [run_bind, hread]
    unfold named
    cases (readOutput w.file).value s <;> rfl
  unfold refresh
  rw [run_tryCatch, hnew]
  cases w.named s with
  | ok l => exact ⟨reported, rfl⟩
  | error h =>
    cases h with
    | project e => exact ⟨_, rfl⟩
    | _ => exact ⟨reported, rfl⟩

/-- What is not about a source is no reason to do anything. -/
theorem notice_of_not_source (hl : (Run.resolve e.path).value s = .ok l)
    (hsource : ¬ w.isSource l = true) : (w.notice e).run.run s = (.ok (w, false), s) := by
  unfold notice
  split
  · rw [run_bind, resolve_run, hl]
    dsimp only
    rw [if_neg hsource]
    rfl
  · rfl

/-- An event that a watcher does not hear tells it nothing of the output directory. -/
theorem notice_of_not_hears (h : ¬ w.hears s e = true) : ∃ r reported,
    (w.notice e).run.run s = (r, { s with happenings := reported }) ∧
      ((∃ build, r = .ok (w, build)) ∨ ∃ halt, r = .error halt) := by
  unfold notice
  split
  · rename_i word hfile hword
    rw [run_bind, resolve_run]
    cases hl : (Run.resolve e.path).value s with
    | error halt => exact ⟨_, _, rfl, .inr ⟨halt, rfl⟩⟩
    | ok l =>
      dsimp only
      by_cases hsource : w.isSource l = true
      · have hne : w.file ≠ l := by
          rintro rfl
          exact h (hears_iff.mpr ⟨hfile, by simp [hword], hl, hsource⟩)
        rw [if_pos hsource, run_bind, log_run]
        dsimp only
        rw [if_neg (by simpa using hne)]
        exact ⟨_, _, rfl, .inl ⟨true, rfl⟩⟩
      · rw [if_neg hsource]
        exact ⟨_, _, rfl, .inl ⟨false, rfl⟩⟩
  · exact ⟨_, _, rfl, .inl ⟨false, rfl⟩⟩

/-- An event about the project file makes a watcher read it. -/
theorem notice_of_hears (h : w.hears s e = true) : ∃ reported,
    (w.notice e).run.run s = (match w.named s with
      | .ok l => .ok ({ w with output := l }, true)
      | .error (.project _) => .ok (w, false)
      | .error halt => .error halt, { s with happenings := reported }) := by
  obtain ⟨hfile, hword, hl, hsource⟩ := hears_iff.mp h
  obtain ⟨word, hword⟩ := Option.isSome_iff_exists.mp hword
  unfold notice
  rw [hfile, hword, run_bind, resolve_run, hl]
  dsimp only
  rw [if_pos hsource, run_bind, log_run]
  dsimp only
  obtain ⟨reported, hrefresh⟩ := refresh_run w { s with happenings := s.happenings ++ _ }
  rw [if_pos (beq_self_eq_true _), run_bind, hrefresh, named_with_happenings]
  cases w.named s with
  | ok l => exact ⟨_, rfl⟩
  | error halt =>
    cases halt with
    | project e => exact ⟨_, rfl⟩
    | _ => exact ⟨_, rfl⟩

theorem handle_of_halt {h : Halt} {s' : Workspace}
    (hnotice : (w.notice e).run.run s = (.error h, s')) :
    (w.handle e).run s = ((w, .error h), s') := by
  rw [handle, StateT.run_bind, hnotice]
  rfl

theorem handle_of_rest {w' : Watcher} {s' : Workspace}
    (hnotice : (w.notice e).run.run s = (.ok (w', false), s')) :
    (w.handle e).run s = ((w', .ok ()), s') := by
  rw [handle, StateT.run_bind, hnotice]
  rfl

theorem handle_fst_of_ok {w' : Watcher} {build : Bool} {s' : Workspace}
    (hnotice : (w.notice e).run.run s = (.ok (w', build), s')) :
    ((w.handle e).run s).1.1 = w' := by
  cases build with
  | false => rw [handle_of_rest hnotice]
  | true =>
    rw [handle, StateT.run_bind, hnotice]
    change (((rebuild (.ofLocation w'.file) w'.options).run >>= _ :
      StateM Workspace (Watcher × Except Halt Unit)).run s').1.1 = w'
    rw [StateT.run_bind]
    cases (rebuild (.ofLocation w'.file) w'.options).run.run s' with
    | mk r s'' => cases r <;> rfl

/-- What a watcher knows after an event depends on the project file only, and not on how the build
ends that the event may cause. -/
theorem handle_fst (w : Watcher) (s : Workspace) (e : FileEvent) :
    ((w.handle e).run s).1.1 = w.told s e := by
  unfold told
  by_cases h : w.hears s e = true
  · obtain ⟨reported, hnotice⟩ := notice_of_hears h
    rw [h]
    cases hnamed : w.named s with
    | ok l =>
      rw [hnamed] at hnotice
      exact handle_fst_of_ok hnotice
    | error halt =>
      rw [hnamed] at hnotice
      cases halt with
      | project e => exact handle_fst_of_ok hnotice
      | _ => rw [handle_of_halt hnotice]
  · obtain ⟨r, reported, hnotice, hr⟩ := notice_of_not_hears h
    rw [Bool.eq_false_iff.mpr h]
    rcases hr with ⟨build, rfl⟩ | ⟨halt, rfl⟩
    · exact handle_fst_of_ok hnotice
    · rw [handle_of_halt hnotice]

/-- Events about the output directory are no reason to do anything. -/
theorem handle_of_output {m : Location} (hm : (Run.resolve e.path).value s = .ok m)
    (hpre : w.output <+: m) : (w.handle e).run s = ((w, .ok ()), s) := by
  apply handle_of_rest
  apply notice_of_not_source hm
  intro hsource
  exact (isSource_iff.mp hsource).1 hpre

/-- Something happens, and a watcher handles the event that tells of it. -/
def meet (now : Watcher × Workspace) (i : Incident) : Watcher × Workspace :=
  let met := (now.1.handle i.event).run { now.2 with disk := i.change now.2.disk }
  (met.1.1, met.2)

/-- A watcher and its files after all that happens. No event is its last. -/
def attend (now : Watcher × Workspace) (incidents : List Incident) : Watcher × Workspace :=
  incidents.foldl meet now

/-- What the project file named when the watcher last heard of it. -/
def lastHeard (now : Watcher × Workspace) (known : Except Halt Location) :
    List Incident → Except Halt Location
  | [] => known
  | i :: rest =>
    let s := { now.2 with disk := i.change now.2.disk }
    lastHeard (meet now i) (if now.1.hears s i.event then now.1.named s else known) rest

theorem follow_of_ok {i : Incident} {rest : List Incident} {w' : Watcher} {s' : Workspace}
    (h : (w.handle i.event).run { s with disk := i.change s.disk } = ((w', .ok ()), s')) :
    (w.follow (i :: rest)).run s = (w'.follow rest).run s' := by
  rw [follow]
  simp only [StateT.run_bind, StateT.run_modify, pure_bind, h]
  rfl

theorem follow_of_halt {i : Incident} {rest : List Incident} {w' : Watcher} {s' : Workspace}
    {halt : Halt}
    (h : (w.handle i.event).run { s with disk := i.change s.disk } = ((w', .error halt), s')) :
    (w.follow (i :: rest)).run s = (.error halt, s') := by
  rw [follow]
  simp only [StateT.run_bind, StateT.run_modify, pure_bind, h]
  rfl

/-- A run that is followed to its end leaves the files as they are after all that happens. -/
theorem follow_run {incidents : List Incident} (h : ((w.follow incidents).run s).1 = .ok ()) :
    ((w.follow incidents).run s).2 = (attend (w, s) incidents).2 := by
  induction incidents generalizing w s with
  | nil => rfl
  | cons i rest ih =>
    rcases hhandle : (w.handle i.event).run { s with disk := i.change s.disk } with
      ⟨⟨w', result⟩, s'⟩
    have hmeet : meet (w, s) i = (w', s') := by
      unfold meet
      rw [hhandle]
    rw [attend, List.foldl_cons, hmeet]
    cases result with
    | ok _ =>
      rw [follow_of_ok hhandle] at h ⊢
      exact ih h
    | error halt =>
      rw [follow_of_halt hhandle] at h
      cases h

theorem meet_fst (now : Watcher × Workspace) (i : Incident) :
    (meet now i).1 = now.1.told { now.2 with disk := i.change now.2.disk } i.event :=
  handle_fst ..

theorem told_file (w : Watcher) (s : Workspace) (e : FileEvent) : (w.told s e).file = w.file := by
  unfold told
  split <;> rfl

theorem attend_file (now : Watcher × Workspace) (incidents : List Incident) :
    (attend now incidents).1.file = now.1.file := by
  induction incidents generalizing now with
  | nil => rfl
  | cons i rest ih =>
    rw [attend, List.foldl_cons]
    exact (ih _).trans (by rw [meet_fst, told_file])

/-- One event keeps it so that a watcher knows what the project file named when it last heard of it. -/
theorem told_output {known : Except Halt Location} (hknown : ∀ l, known = .ok l → w.output = l)
    (h : (if w.hears s e then w.named s else known) = .ok l) : (w.told s e).output = l := by
  unfold told
  split at h
  · rename_i hhears
    rw [hhears, h]
  · rename_i hhears
    rw [Bool.eq_false_iff.mpr hhears]
    exact hknown l h

theorem attend_output {now : Watcher × Workspace} {known : Except Halt Location}
    {incidents : List Incident} (hknown : ∀ l, known = .ok l → now.1.output = l)
    (h : lastHeard now known incidents = .ok l) : (attend now incidents).1.output = l := by
  induction incidents generalizing now known with
  | nil => exact hknown l h
  | cons i rest ih =>
    rw [attend, List.foldl_cons]
    -- What was heard last is what the watcher knows, as far as it could be read.
    refine ih (fun m hm => ?_) h
    rw [meet_fst]
    exact told_output hknown hm

theorem attend_of_output {now : Watcher × Workspace} {events : List FileEvent}
    (h : ∀ e ∈ events, ∃ m, (Run.resolve e.path).value now.2 = .ok m ∧ now.1.output <+: m) :
    attend now (events.map (⟨id, ·⟩)) = now := by
  induction events with
  | nil => rfl
  | cons e rest ih =>
    obtain ⟨m, hm, hpre⟩ := h e List.mem_cons_self
    have hmeet : meet now ⟨id, e⟩ = now := by
      unfold meet
      dsimp only [id]
      rw [handle_of_output hm hpre]
    rw [List.map_cons, attend, List.foldl_cons, hmeet]
    exact ih fun e he => h e (List.mem_cons_of_mem _ he)

theorem named_of_start {path : Path} {o : BuildOptions} {s₀ : Workspace}
    (h : (start path o).run.run s₀ = (.ok w, s)) : w.named s = .ok w.output := by
  obtain ⟨file, s₁, -, hrest⟩ := gives_bind.mp h
  obtain ⟨output, s₂, houtput, hlogged⟩ := gives_bind.mp hrest
  obtain ⟨_, s₃, hlog, hpure⟩ := gives_bind.mp hlogged
  obtain ⟨rfl, rfl⟩ := gives_pure.mp hpure
  obtain rfl := (gives_report.mp hlog)
  obtain ⟨reported, hrun⟩ := (readsOnly_readOutput file).exists_run s₁
  obtain ⟨hvalue, rfl⟩ := Prod.mk.inj (hrun.symm.trans houtput)
  exact hvalue

/-- A build writes its output where the project file says. -/
theorem named_of_plan {o : BuildOptions} {planned : Build.Plan}
    (h : (Build.plan (.ofLocation w.file) o).value s = .ok (some planned)) :
    w.named s = .ok planned.output := by
  obtain ⟨_, _, _, _, hplanned⟩ := Build.value_plan_eq_some_iff.mp h
  have hbind := (Project.readsOnly_load (.ofLocation w.file)).value_bind
    (fun p => p.resolveOutput) s fun _ => readsOnly_resolve _
  rw [hplanned.load] at hbind
  exact hbind.trans hplanned.output

end Watcher

/-- A watcher knows the output directory as long as the project file names what it named when the
watcher last heard of it. What is built then goes there, and no number of events about what was written
there makes it build again. -/
theorem watcher_ignores_output {path : Path} {o : BuildOptions} {s₀ s : Workspace} {w : Watcher}
    (hstart : (Watcher.start path o).run.run s₀ = (.ok w, s)) (incidents : List Incident) :
    let now := Watcher.attend (w, s) incidents
    (((w.follow incidents).run s).1 = .ok () → ((w.follow incidents).run s).2 = now.2) ∧
    ∀ l, w.named now.2 = .ok l → Watcher.lastHeard (w, s) (w.named s) incidents = .ok l →
      now.1.output = l ∧
      (∀ o planned, (Build.plan (.ofLocation now.1.file) o).value now.2 = .ok (some planned) →
        planned.output = l) ∧
      ∀ events : List FileEvent,
        (∀ e ∈ events, ∃ m, (Run.resolve e.path).value now.2 = .ok m ∧ l <+: m) →
          Watcher.attend now (events.map (⟨id, ·⟩)) = now := by
  intro now
  refine ⟨Watcher.follow_run, fun l hnamed hheard => ?_⟩
  have houtput : now.1.output = l := by
    apply Watcher.attend_output _ hheard
    intro m hm
    exact Except.ok.inj ((Watcher.named_of_start hstart).symm.trans hm)
  refine ⟨houtput, fun o planned hplan => ?_, fun events hevents => ?_⟩
  · have hfile : now.1.file = w.file := Watcher.attend_file (w, s) incidents
    rw [hfile] at hplan
    exact Except.ok.inj ((Watcher.named_of_plan hplan).symm.trans hnamed)
  · subst houtput
    exact Watcher.attend_of_output hevents

/-- A project with the output directory `a`, and a draft of its project file that says `b`. -/
def draftedProject : Workspace :=
  { disk := ⟨[(["s"], .directory), (["s", "fractive.yaml"], .file "output: a".toUTF8),
      (["s", "template.html"], .file ⟨#[]⟩), (["s", "draft"], .file "output: b".toUTF8)]⟩ }

def draftWatcher : Watcher := ⟨["s", "fractive.yaml"], ["s", "a"], {}⟩

def watchedDraft : Workspace :=
  ((Watcher.start (.ofLocation ["s", "fractive.yaml"]) {}).run.run draftedProject).2

theorem start_draftedProject : (Watcher.start (.ofLocation ["s", "fractive.yaml"]) {}).run.run
    draftedProject = (.ok draftWatcher, watchedDraft) := by
  have hwatcher : ((Watcher.start (.ofLocation ["s", "fractive.yaml"]) {}).run.run
      draftedProject).1 = .ok draftWatcher := by decide +kernel
  rw [watchedDraft, ← hwatcher, Prod.eta]

/-- The draft takes the place of the project file, and an event tells of it. -/
def adoptDraft (e : FileEvent) : Incident :=
  ⟨fun d => (d.erase ["s", "draft"]).put ["s", "fractive.yaml"] (.file "output: b".toUTF8), e⟩

theorem watcher_ignores_output_modified :
    let adopted := adoptDraft ⟨.modified, .ofLocation ["s", "fractive.yaml"], false⟩
    let now := Watcher.attend (draftWatcher, watchedDraft) [adopted]
    draftWatcher.named now.2 = .ok ["s", "b"] ∧
      Watcher.lastHeard (draftWatcher, watchedDraft) (draftWatcher.named watchedDraft) [adopted] =
        .ok ["s", "b"] ∧
      (now.2.disk.get? ["s", "b", "index.html"]).isSome = true ∧ now.1.output = ["s", "b"] ∧
      Watcher.attend now [⟨id, ⟨.created, .ofLocation ["s", "b", "index.html"], false⟩⟩] = now := by
  have hnamed : draftWatcher.named (Watcher.attend (draftWatcher, watchedDraft)
      [adoptDraft ⟨.modified, .ofLocation ["s", "fractive.yaml"], false⟩]).2 = .ok ["s", "b"] := by
    decide +kernel
  have hheard : Watcher.lastHeard (draftWatcher, watchedDraft) (draftWatcher.named watchedDraft)
      [adoptDraft ⟨.modified, .ofLocation ["s", "fractive.yaml"], false⟩] = .ok ["s", "b"] := by
    decide +kernel
  have hpage : ((Watcher.attend (draftWatcher, watchedDraft)
      [adoptDraft ⟨.modified, .ofLocation ["s", "fractive.yaml"], false⟩]).2.disk.get?
        ["s", "b", "index.html"]).isSome = true := by
    decide +kernel
  obtain ⟨houtput, -, hstill⟩ :=
    (watcher_ignores_output start_draftedProject _).2 _ hnamed hheard
  refine ⟨hnamed, hheard, hpage, houtput,
    hstill [⟨.created, .ofLocation ["s", "b", "index.html"], false⟩] fun e he => ?_⟩
  obtain rfl := List.mem_singleton.mp he
  refine ⟨_, value_resolve_eq_ok_iff.mpr ⟨rfl, rfl⟩, ?_⟩
  rw [Path.resolve_of_rooted (by decide)]
  decide

/-- The draft is moved onto the project file. The build reads it; the watcher does not, and takes the
page that the build has written for a source of the next build. -/
theorem watcher_rebuilds_for_output :
    let adopted := adoptDraft
      ⟨.moved (.ofLocation ["s", "fractive.yaml"]), .ofLocation ["s", "draft"], false⟩
    let now := Watcher.attend (draftWatcher, watchedDraft) [adopted]
    let later := Watcher.attend now
      [⟨id, ⟨.created, .ofLocation ["s", "b", "index.html"], false⟩⟩]
    let written := Happening.logged ⟨.info, "  output b/index.html"⟩
    draftWatcher.named now.2 = .ok ["s", "b"] ∧ now.1.output = ["s", "a"] ∧
      now.2.happenings.count written = 1 ∧ later.2.happenings.count written = 2 := by
  decide +kernel

end Hyperstory
