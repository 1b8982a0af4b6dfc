import Hyperstory.Proofs.Effects

/-!
Removing what a path leads to. Whatever stands at a place or below it is removed, what lies in a
directory before the directory, and all else stays. A dry run reports the same in the same order and
removes nothing. Nothing stands in the way if each path below can be followed.
-/
namespace Hyperstory

namespace Disk

open Location Hyperstory.Path

variable {d d' : Disk} {l m cwd : Location} {i : Item} {n : Nat} {p : Path} {name : String}
  {rest : List String} {rests : List (List String)}

/-- A directory tree lost what stood at a place or below it, and nothing else. -/
def Loses (l : Location) (d d' : Disk) : Prop :=
  ∀ m, d'.get? m = if l <+: m then none else d.get? m

/-- The same is listed in the same order at a place and below it. -/
def SameFrom (l : Location) (d d' : Disk) : Prop :=
  d'.entries.filter (fun e => l <+: e.1) = d.entries.filter (fun e => l <+: e.1)

theorem sameFrom_erase (h : ¬ l <+: m) : SameFrom l d (d.erase m) := by
  unfold SameFrom erase
  rw [List.filter_filter]
  apply List.filter_congr
  intro e _
  by_cases he : l <+: e.1
  · have hne : e.1 ≠ m := by
      rintro rfl
      exact h he
    simp [he, hne]
  · simp [he]

namespace SameFrom

theorem trans {d'' : Disk} (h : SameFrom l d d') (h' : SameFrom l d' d'') : SameFrom l d d'' :=
  Eq.trans h' h

theorem below (h : SameFrom l d d') (hm : l <+: m) : SameFrom m d d' := by
  have hnarrow : ∀ entries : List (Location × Item), entries.filter (fun e => m <+: e.1) =
      (entries.filter fun e => l <+: e.1).filter fun e => m <+: e.1 := by
    intro entries
    rw [List.filter_filter]
    apply List.filter_congr
    intro e _
    by_cases he : m <+: e.1
    · simp [he, hm.trans he]
    · simp [he]
  unfold SameFrom at h ⊢
  rw [hnarrow, h, ← hnarrow]

theorem get?_eq (h : SameFrom l d d') (hm : l <+: m) : d'.get? m = d.get? m := by
  by_cases hne : m = []
  · rw [hne, get?_nil, get?_nil]
  · have hlookup := congrArg (List.lookup m) h
    rw [lookup_filter (q := fun k => l <+: k), lookup_filter (q := fun k => l <+: k)] at hlookup
    simpa [get?_of_ne hne, hm] using hlookup

theorem namesAt_eq (h : SameFrom l d d') : d'.namesAt l = d.namesAt l := by
  have hnarrow : ∀ d : Disk, d.namesAt l = (d.entries.filter fun e => l <+: e.1).filterMap
      fun e => if e.1.dropLast == l then e.1.getLast? else none := by
    intro d
    rw [List.filterMap_filter]
    apply List.filterMap_congr
    intro e _
    by_cases he : e.1.dropLast = l
    · have hpre : l <+: e.1 := he ▸ List.dropLast_prefix e.1
      simp [he, hpre]
    · simp [he]
  rw [hnarrow, hnarrow, h]

end SameFrom

/-! ### What stands at a place and below it -/

/-- What stands at a place and below it, less than `n` levels deep, by the names that lead there from
the place. What lies in a directory comes before it. -/
def postorder (d : Disk) : Nat → Location → List (List String)
  | 0, _ => []
  | n + 1, l =>
    ((d.namesAt l).flatMap fun name => (d.postorder n (l ++ [name])).map (name :: ·)) ++ [[]]

/-- What lies in a place, in the same order. -/
def inside (d : Disk) (n : Nat) (l : Location) : List (List String) :=
  (d.namesAt l).flatMap fun name => (d.postorder n (l ++ [name])).map (name :: ·)

theorem postorder_succ : d.postorder (n + 1) l = d.inside n l ++ [[]] := rfl

theorem mem_inside : rest ∈ d.inside n l ↔
    ∃ name ∈ d.namesAt l, ∃ below ∈ d.postorder n (l ++ [name]), name :: below = rest := by
  simp [inside]

theorem mem_postorder (hd : d.Formed) (hthere : (d.get? l).isSome) :
    rest ∈ d.postorder n l ↔ rest.length < n ∧ (d.get? (l ++ rest)).isSome := by
  induction n generalizing l rest with
  | zero => simp [postorder]
  | succ n ih =>
    cases rest with
    | nil => simp [postorder_succ, hthere]
    | cons name rest =>
      have hmem : name :: rest ∈ d.postorder (n + 1) l ↔
          name ∈ d.namesAt l ∧ rest ∈ d.postorder n (l ++ [name]) := by
        simp [postorder_succ, mem_inside]
      rw [hmem, mem_namesAt, List.length_cons, Nat.add_lt_add_iff_right, List.append_cons l name rest]
      constructor
      · rintro ⟨hname, hrest⟩
        exact (ih hname).mp hrest
      · intro h
        have hname := hd.isSome_above h.2 (List.prefix_append (l ++ [name]) rest)
        exact ⟨hname, (ih hname).mpr h⟩

/-- All that stands at a place or below it: no tree is deeper than it has entries. -/
def contents (d : Disk) (l : Location) : List (List String) := d.postorder (d.entries.length + 1) l

theorem Formed.short (hd : d.Formed) (h : (d.get? (l ++ rest)).isSome) :
    rest.length < d.entries.length + 1 := by
  have hle := hd.length_le h
  rw [List.length_append] at hle
  omega

theorem mem_contents (hd : d.Formed) (hthere : (d.get? l).isSome) :
    rest ∈ d.contents l ↔ (d.get? (l ++ rest)).isSome := by
  rw [contents, mem_postorder hd hthere]
  exact and_iff_right_of_imp hd.short

/-- The tree without some of what stands at a place or below it. -/
def eraseAll (d : Disk) (l : Location) (rests : List (List String)) : Disk :=
  rests.foldl (fun d rest => d.erase (l ++ rest)) d

theorem get?_eraseAll_of_ne (h : ∀ rest ∈ rests, m ≠ l ++ rest) :
    (d.eraseAll l rests).get? m = d.get? m := by
  induction rests generalizing d with
  | nil => rfl
  | cons rest rests ih =>
    obtain ⟨hrest, hrests⟩ := List.forall_mem_cons.mp h
    exact (ih hrests).trans (get?_erase_of_ne hrest)

theorem get?_eraseAll_of_mem (h : rest ∈ rests) (hne : l ++ rest ≠ []) :
    (d.eraseAll l rests).get? (l ++ rest) = none := by
  induction rests generalizing d with
  | nil => cases h
  | cons first rests ih =>
    by_cases hmem : rest ∈ rests
    · exact ih hmem
    · obtain rfl : rest = first := (List.mem_cons.mp h).resolve_right hmem
      change ((d.erase (l ++ rest)).eraseAll l rests).get? (l ++ rest) = none
      rw [get?_eraseAll_of_ne, get?_erase_self hne]
      exact fun other hother heq => hmem (List.append_cancel_left heq ▸ hother)

theorem sameFrom_eraseAll (h : ∀ rest ∈ rests, ¬ m <+: l ++ rest) :
    SameFrom m d (d.eraseAll l rests) := by
  induction rests generalizing d with
  | nil => rfl
  | cons rest rests ih =>
    obtain ⟨hrest, hrests⟩ := List.forall_mem_cons.mp h
    exact (sameFrom_erase hrest).trans (ih hrests)

theorem eraseAll_loses (hne : l ≠ [])
    (h : ∀ rest, (d.get? (l ++ rest)).isSome → rest ∈ rests) :
    d.Loses l (d.eraseAll l rests) := by
  intro m
  split
  · next hm =>
    obtain ⟨rest, rfl⟩ := hm
    by_cases hmem : rest ∈ rests
    · exact get?_eraseAll_of_mem hmem (by simp [hne])
    · have hnone : d.get? (l ++ rest) = none := by
        by_contra hsome
        exact hmem (h rest (Option.isSome_iff_ne_none.mpr hsome))
      rw [← hnone]
      exact get?_eraseAll_of_ne fun other hother heq =>
        hmem (List.append_cancel_left heq ▸ hother)
  · next hm =>
    exact get?_eraseAll_of_ne fun rest _ heq => hm ⟨rest, heq.symm⟩

theorem Formed.of_loses (hd : d.Formed) (h : d.Loses l d') (hkeys : d'.entries.Sublist d.entries) :
    d'.Formed := by
  refine ⟨hd.nodup.sublist (hkeys.map _), fun m hm => ?_⟩
  obtain ⟨dir, name, rfl, hname, hdir⟩ := hd.exists_directory m ((hkeys.map _).subset hm)
  refine ⟨dir, name, rfl, hname, ?_⟩
  have hthere := (isSome_get?_iff (d := d') (l := dir ++ [name]) (by simp)).mpr hm
  have hout : ¬ l <+: dir := by
    intro hpre
    rw [h, if_pos (hpre.trans (List.prefix_append _ _))] at hthere
    cases hthere
  rw [h, if_neg hout, hdir]

theorem eraseAll_sublist : (d.eraseAll l rests).entries.Sublist d.entries := by
  induction rests generalizing d with
  | nil => exact List.Sublist.refl _
  | cons rest rests ih => exact ih.trans List.filter_sublist

/-! ### The way of a path -/

/-- A path leads through directories to a place, if it can be followed. -/
structure Way (d : Disk) (cwd : Location) (p : Path) (l : Location) : Prop where
  directory : ∀ pre name, pre ++ [name] <+: p.names →
    d.get? (pre.foldl step (p.start cwd)) = some .directory
  resolve : p.resolve cwd = l

theorem Way.find_iff (h : d.Way cwd p l) :
    d.find cwd p = .ok (m, i) ↔ p.Fits ∧ m = l ∧ d.get? l = some i := by
  rw [find_eq_ok_iff, locate_eq_ok_iff, h.resolve]
  constructor
  · rintro ⟨⟨htrouble, hsize, hleads, rfl⟩, hget⟩
    refine ⟨⟨htrouble, hsize, fun name hname => ?_⟩, rfl, hget⟩
    obtain ⟨pre, post, heq⟩ := List.append_of_mem hname
    exact (hleads pre name ⟨post, by simp [heq]⟩).2
  · rintro ⟨hfits, rfl, hget⟩
    refine ⟨⟨hfits.nameable, hfits.short, fun pre name hpre => ?_, rfl⟩, hget⟩
    exact ⟨h.directory pre name hpre, hfits.names_short name (hpre.subset (by simp))⟩

theorem way_ofLocation (hd : d.Formed) (h : (d.get? l).isSome) : d.Way cwd (ofLocation l) l := by
  have hresolve : ∀ pre, pre <+: l → pre.foldl step ((ofLocation l).start cwd) = pre := by
    intro pre hpre
    have hup : ".." ∉ pre := fun hmem => hd.up_notMem h (hpre.subset hmem)
    simp [foldl_step hup, start, ofLocation]
  refine ⟨fun pre name hpre => ?_, hresolve l (List.prefix_refl l)⟩
  have hpre' : pre <+: l := (List.prefix_append _ _).trans hpre
  rw [hresolve pre hpre']
  refine hd.directory_above h hpre' ?_
  rintro rfl
  have hle := hpre.length_le
  rw [List.length_append, List.length_singleton] at hle
  exact Nat.lt_irrefl _ hle

/-- The path to something in the directory that a path leads to. -/
theorem Way.child (h : d.Way cwd p l) (hdir : d.get? l = some .directory) (hname : name ≠ "..") :
    d.Way cwd (p.join ⟨.here, [name]⟩) (l ++ [name]) := by
  rw [join_of_here rfl]
  have hstart : (⟨p.root, p.names ++ [name]⟩ : Path).start cwd = p.start cwd := rfl
  have hend : p.names.foldl step (p.start cwd) = l := h.resolve
  refine ⟨fun pre last hpre => ?_, ?_⟩
  · rw [hstart]
    rcases List.prefix_concat_iff.mp hpre with heq | hpre
    · obtain ⟨rfl, -⟩ := List.append_inj' heq rfl
      rw [hend, hdir]
    · exact h.directory pre last hpre
  · rw [Path.resolve, hstart, List.foldl_append, hend]
    simp [step, hname]

/-- What a path leads to can be removed by it: its last name is a name in a directory, and it does not
lead through anything that lies in what is removed. -/
structure Removable (cwd : Location) (p : Path) (l : Location) : Prop where
  last : p.names ≠ [] ∧ p.names.getLast? ≠ some ".."
  clear : ∀ pre name, pre ++ [name] <+: p.names → ∀ rest,
    pre.foldl step (p.start cwd) = l ++ rest → rest = []

theorem Removable.child (h : Removable cwd p l) (hname : name ≠ "..") (hend : p.resolve cwd = l) :
    Removable cwd (p.join ⟨.here, [name]⟩) (l ++ [name]) := by
  rw [join_of_here rfl]
  refine ⟨by simp [hname], fun pre last hpre rest heq => ?_⟩
  change pre.foldl step (p.start cwd) = _ at heq
  rcases List.prefix_concat_iff.mp hpre with hlast | hpre
  · obtain ⟨rfl, -⟩ := List.append_inj' hlast rfl
    have hlength := congrArg List.length (hend.symm.trans heq)
    simp only [List.length_append, List.length_singleton] at hlength
    omega
  · rw [List.append_assoc] at heq
    cases h.clear pre last hpre _ heq

theorem removable_ofLocation (hl : ".." ∉ l) (hne : l ≠ []) : Removable cwd (ofLocation l) l := by
  refine ⟨⟨hne, fun h => hl (List.mem_of_getLast? h)⟩, fun pre last hpre rest heq => ?_⟩
  have hpre' : pre <+: l := (List.prefix_append _ _).trans hpre
  have hup : ".." ∉ pre := fun hmem => hl (hpre'.subset hmem)
  have hlength : pre.length = (l ++ rest).length := by
    rw [← heq]
    simp [foldl_step hup, start, ofLocation]
  have hle := hpre.length_le
  simp only [List.length_append, List.length_singleton] at hlength hle
  change _ ≤ l.length at hle
  omega

end Disk

namespace Build

open Run Location Hyperstory.Path

variable {o : BuildOptions} {n : Nat} {p : Path} {l : Location} {w w' v : Workspace} {d : Disk}
  {rests : List (List String)} {name : String}

/-! ### One step -/

def told (o : BuildOptions) (action : String) (p : Path) : List Happening :=
  if o.verbose then [.logged ⟨.info, "  " ++ action ++ " " ++ p.text⟩] else []

theorem gives_told {action : String} {u : Unit} :
    (if o.verbose = true then logAction action p.text else pure ()).Gives w u w' ↔
      w' = { w with happenings := w.happenings ++ told o action p } := by
  unfold told
  cases o.verbose with
  | true => exact gives_report
  | false =>
    rw [if_neg Bool.false_ne_true, if_neg Bool.false_ne_true, gives_pure, List.append_nil]
    simp

theorem cleanUpTo_directory (hdir : w.disk.isDirectory w.cwd p = .ok true) :
    (cleanUpTo o (n + 1) p).Gives w () w' ↔ ∃ v,
      ((w.disk.names w.cwd p).forM fun name => cleanUpTo o n (p.join ⟨.here, [name]⟩)).Gives w () v ∧
      (if (!o.dryRun) = true then change fun d cwd => d.removeDirectory cwd p else pure ()).Gives
        { v with happenings := v.happenings ++ told o "rmdir" p } () w' := by
  simp only [cleanUpTo, ite_bind]
  constructor
  · intro h
    obtain ⟨there, w₁, hthere, h⟩ := gives_bind.mp h
    obtain ⟨hthere, rfl⟩ := gives_ofDisk.mp hthere
    obtain rfl : true = there := Except.ok.inj (hdir.symm.trans hthere)
    rw [if_pos rfl] at h
    obtain ⟨names, w₂, hnames, h⟩ := gives_bind.mp h
    obtain ⟨rfl, rfl⟩ := gives_look.mp hnames
    obtain ⟨_, v, hloop, h⟩ := gives_bind.mp h
    obtain ⟨_, v', hlog, h⟩ := gives_bind.mp h
    obtain rfl := gives_told.mp hlog
    exact ⟨v, hloop, h⟩
  · rintro ⟨v, hloop, h⟩
    refine gives_bind.mpr ⟨true, w, gives_ofDisk.mpr ⟨hdir, rfl⟩, ?_⟩
    rw [if_pos rfl]
    refine gives_bind.mpr ⟨_, w, gives_look.mpr ⟨rfl, rfl⟩, ?_⟩
    exact gives_bind.mpr ⟨(), v, hloop, gives_bind.mpr ⟨(), _, gives_told.mpr rfl, h⟩⟩

theorem cleanUpTo_file (hdir : w.disk.isDirectory w.cwd p = .ok false) :
    (cleanUpTo o (n + 1) p).Gives w () w' ↔
      (if (!o.dryRun) = true then change fun d cwd => d.removeFile cwd p else pure ()).Gives
        { w with happenings := w.happenings ++ told o "unlink" p } () w' := by
  simp only [cleanUpTo, ite_bind]
  constructor
  · intro h
    obtain ⟨there, w₁, hthere, h⟩ := gives_bind.mp h
    obtain ⟨hthere, rfl⟩ := gives_ofDisk.mp hthere
    obtain rfl : false = there := Except.ok.inj (hdir.symm.trans hthere)
    rw [if_neg Bool.false_ne_true] at h
    obtain ⟨_, v', hlog, h⟩ := gives_bind.mp h
    obtain rfl := gives_told.mp hlog
    exact h
  · intro h
    refine gives_bind.mpr ⟨false, w, gives_ofDisk.mpr ⟨hdir, rfl⟩, ?_⟩
    rw [if_neg Bool.false_ne_true]
    exact gives_bind.mpr ⟨(), _, gives_told.mpr rfl, h⟩

theorem gives_removal {g : Disk → Location → Except DiskError Disk}
    (h : o.dryRun = false → g w.disk w.cwd = .ok d) :
    (if (!o.dryRun) = true then change g else pure ()).Gives w () w' ↔
      w' = { w with disk := if o.dryRun then w.disk else d } := by
  cases hdry : o.dryRun with
  | true => exact gives_pure.trans (by simp)
  | false =>
    refine gives_change.trans ?_
    simp [h hdry]

/-- What a run removes is there. -/
theorem exists_find_of_cleanUpTo (hdry : o.dryRun = false)
    (h : (cleanUpTo o (n + 1) p).Gives w () w') : ∃ found, w.disk.find w.cwd p = .ok found := by
  obtain ⟨there, w₁, hthere, -⟩ := gives_bind.mp h
  obtain ⟨hthere, rfl⟩ := gives_ofDisk.mp hthere
  cases there with
  | true =>
    obtain ⟨l, i, hfind, -⟩ := Disk.ask_eq_true_iff.mp hthere
    exact ⟨_, hfind⟩
  | false =>
    have hremove := (cleanUpTo_file hthere).mp h
    rw [hdry] at hremove
    obtain ⟨d, hremove, -⟩ := gives_change.mp hremove
    obtain ⟨l, bytes, hfind, -⟩ := Disk.exists_of_removeFile hremove
    exact ⟨_, hfind⟩

/-! ### What is removed, and what is reported of it -/

/-- What is reported of the removal of something that stands at a place or below it. -/
def removal (o : BuildOptions) (d : Disk) (p : Path) (l : Location) (rest : List String) :
    List Happening :=
  told o (if d.get? (l ++ rest) = some .directory then "rmdir" else "unlink")
    (p.join ⟨.here, rest⟩)

/-- A workspace in which things that stood at a place or below it were removed, or would have been. -/
def swept (o : BuildOptions) (d : Disk) (p : Path) (l : Location) (rests : List (List String))
    (w : Workspace) : Workspace :=
  { w with
    disk := if o.dryRun then w.disk else w.disk.eraseAll l rests
    happenings := w.happenings ++ rests.flatMap (removal o d p l) }

theorem swept_append {more : List (List String)} :
    swept o d p l (rests ++ more) w = swept o d p l more (swept o d p l rests w) := by
  unfold swept Disk.eraseAll
  cases o.dryRun <;> simp

theorem join_nil : p.join ⟨.here, []⟩ = p := by
  simp [join_of_here]

theorem join_child {rest : List String} :
    (p.join ⟨.here, [name]⟩).join ⟨.here, rest⟩ = p.join ⟨.here, name :: rest⟩ := by
  simp [join_of_here]

theorem swept_child : swept o d (p.join ⟨.here, [name]⟩) (l ++ [name]) rests w =
    swept o d p l (rests.map (name :: ·)) w := by
  unfold swept removal Disk.eraseAll
  simp only [join_child, List.append_assoc, List.singleton_append, List.foldl_map,
    List.flatMap_map]

theorem swept_self : swept o d p l [[]] w =
    { w with
      disk := if o.dryRun then w.disk else w.disk.erase l
      happenings := w.happenings ++
        told o (if d.get? l = some .directory then "rmdir" else "unlink") p } := by
  simp [swept, removal, Disk.eraseAll, join_nil]

/-- What stands beside what was removed stays, whether or not it leads there. -/
theorem get?_swept {m : Location} (h : o.dryRun = false → ∀ rest ∈ rests, m ≠ l ++ rest) :
    (swept o d p l rests w).disk.get? m = w.disk.get? m := by
  unfold swept
  cases hdry : o.dryRun with
  | true => rfl
  | false => exact Disk.get?_eraseAll_of_ne (h hdry)

theorem sameFrom_swept {m : Location} (h : ∀ rest ∈ rests, ¬ m <+: l ++ rest) :
    Disk.SameFrom m w.disk (swept o d p l rests w).disk := by
  unfold swept
  cases o.dryRun with
  | true => rfl
  | false => exact Disk.sameFrom_eraseAll h

/-- A path still leads to a directory when something that lies in it was removed. -/
theorem way_swept (hway : w.disk.Way w.cwd p l)
    (hremovable : o.dryRun = false → Disk.Removable w.cwd p l) (hrests : ∀ rest ∈ rests, rest ≠ []) :
    (swept o d p l rests w).disk.Way w.cwd p l := by
  refine ⟨fun pre name hpre => ?_, hway.resolve⟩
  rw [get?_swept fun hdry rest hrest heq => ?_]
  · exact hway.directory pre name hpre
  · exact hrests rest hrest ((hremovable hdry).clear pre name hpre rest heq)

/-- A run succeeds exactly if the path to each of some things that stand at a place or below it can be
followed, and then it has removed them. -/
def Sweeps (o : BuildOptions) (d : Disk) (p : Path) (l : Location) (rests : List (List String))
    (x : Run Unit) (w : Workspace) : Prop :=
  ∀ w', x.Gives w () w' ↔
    (∀ rest ∈ rests, (p.join ⟨.here, rest⟩).Fits) ∧ w' = swept o d p l rests w

theorem Sweeps.of_child {x : Run Unit}
    (h : Sweeps o d (p.join ⟨.here, [name]⟩) (l ++ [name]) rests x w) :
    Sweeps o d p l (rests.map (name :: ·)) x w := by
  intro w'
  rw [h w', swept_child]
  simp [join_child]

/-- What is removed from a directory, if that is so for each of the names in it. -/
theorem sweeps_names {names : List String} (hnodup : names.Nodup)
    (hstep : ∀ name ∈ names, ∀ {w : Workspace}, w.disk.Way w.cwd p l →
      w.disk.get? l = some .directory → d.SameFrom (l ++ [name]) w.disk →
      (o.dryRun = false → Disk.Removable w.cwd p l) →
      Sweeps o d p l ((d.postorder n (l ++ [name])).map (name :: ·))
        (cleanUpTo o n (p.join ⟨.here, [name]⟩)) w)
    (hway : w.disk.Way w.cwd p l) (hdir : w.disk.get? l = some .directory)
    (hremovable : o.dryRun = false → Disk.Removable w.cwd p l)
    (hsame : ∀ name ∈ names, d.SameFrom (l ++ [name]) w.disk) :
    Sweeps o d p l (names.flatMap fun name => (d.postorder n (l ++ [name])).map (name :: ·))
      (names.forM fun name => cleanUpTo o n (p.join ⟨.here, [name]⟩)) w := by
  intro w'
  induction names generalizing w with
  | nil =>
    refine gives_pure.trans ?_
    simp [swept, Disk.eraseAll]
  | cons name names ih =>
    obtain ⟨hnotMem, hnodup⟩ := List.nodup_cons.mp hnodup
    obtain ⟨hfirst, hrest⟩ := List.forall_mem_cons.mp hsame
    have hne : ∀ rest ∈ (d.postorder n (l ++ [name])).map (name :: ·), rest ≠ [] := by
      intro rest hrest
      obtain ⟨_, -, rfl⟩ := List.mem_map.mp hrest
      exact List.cons_ne_nil _ _
    -- Names in one directory are no beginnings of each other.
    have hother : ∀ other ∈ names, ∀ rest ∈ (d.postorder n (l ++ [name])).map (name :: ·),
        ¬ l ++ [other] <+: l ++ rest := by
      intro other hmem rest hrest hpre
      obtain ⟨_, -, rfl⟩ := List.mem_map.mp hrest
      obtain ⟨rfl, -⟩ := List.cons_prefix_cons.mp ((List.prefix_append_right_inj l).mp hpre)
      exact hnotMem hmem
    have hthen := ih hnodup (fun other hmem => hstep other (List.mem_cons_of_mem _ hmem))
      (way_swept (d := d) hway hremovable hne)
      ((get?_swept fun _ rest hrest heq => hne rest hrest (by simpa using heq)).trans hdir)
      hremovable fun other hmem => (hrest other hmem).trans (sameFrom_swept (hother other hmem))
    have hhead := hstep name List.mem_cons_self hway hdir hfirst hremovable
    rw [gives_forM_cons, List.flatMap_cons, List.forall_mem_append, swept_append]
    constructor
    · rintro ⟨v, hv, hw'⟩
      obtain ⟨hfits, rfl⟩ := (hhead v).mp hv
      obtain ⟨hfits', hw'⟩ := hthen.mp hw'
      exact ⟨⟨hfits, hfits'⟩, hw'⟩
    · rintro ⟨⟨hfits, hfits'⟩, hw'⟩
      exact ⟨_, (hhead _).mpr ⟨hfits, rfl⟩, hthen.mpr ⟨hfits', hw'⟩⟩

/-- A directory is empty by the time it is removed. -/
theorem removeDirectory_swept (hway : w.disk.Way w.cwd p l) (hfits : p.Fits)
    (hdir : w.disk.get? l = some .directory)
    (hremovable : o.dryRun = false → Disk.Removable w.cwd p l) (hsame : d.SameFrom l w.disk)
    (hdeep : ∀ name ∈ d.namesAt l, n ≠ 0) (hdry : o.dryRun = false) :
    (swept o d p l (d.inside n l) w).disk.removeDirectory w.cwd p =
      .ok ((swept o d p l (d.inside n l) w).disk.erase l) := by
  have hne : ∀ rest ∈ d.inside n l, rest ≠ [] := by
    intro rest hrest
    obtain ⟨name, -, below, -, rfl⟩ := Disk.mem_inside.mp hrest
    exact List.cons_ne_nil _ _
  have hthere : (swept o d p l (d.inside n l) w).disk.get? l = some .directory :=
    (get?_swept fun _ rest hrest heq => hne rest hrest (by simpa using heq)).trans hdir
  have hfind := (way_swept (d := d) hway hremovable hne).find_iff.mpr ⟨hfits, rfl, hthere⟩
  have hempty : (swept o d p l (d.inside n l) w).disk.namesAt l = [] := by
    refine List.eq_nil_iff_forall_not_mem.mpr fun name hname => ?_
    rw [Disk.mem_namesAt] at hname
    by_cases hmem : name ∈ d.namesAt l
    · obtain ⟨k, rfl⟩ := Nat.exists_eq_succ_of_ne_zero (hdeep name hmem)
      have hgone : [name] ∈ d.inside (k + 1) l :=
        Disk.mem_inside.mpr ⟨name, hmem, [], by simp [Disk.postorder_succ], rfl⟩
      have hnone := Disk.get?_eraseAll_of_mem (d := w.disk) (l := l) hgone (by simp)
      simp [swept, hdry, hnone] at hname
    · rw [get?_swept, hsame.get?_eq (List.prefix_append _ _), ← Disk.mem_namesAt] at hname
      · exact hmem hname
      · intro _ rest hrest heq
        obtain ⟨other, hother, below, -, rfl⟩ := Disk.mem_inside.mp hrest
        obtain ⟨rfl, -⟩ := List.cons.inj (List.append_cancel_left heq)
        exact hmem hother
  exact Disk.removeDirectory_eq_ok_iff.mpr ⟨l, hfind, (hremovable hdry).last, hempty, rfl⟩

/-- Everything that stands at a place or below it is removed. -/
theorem sweeps_cleanUpTo (hd : d.Formed) (hway : w.disk.Way w.cwd p l)
    (hremovable : o.dryRun = false → Disk.Removable w.cwd p l) (hsame : d.SameFrom l w.disk)
    (hthere : (d.get? l).isSome) (hdeep : ∀ rest, (d.get? (l ++ rest)).isSome → rest.length < n)
    (hcan : o.dryRun = false ∨ ∀ rest ∈ d.postorder n l, (p.join ⟨.here, rest⟩).Fits) :
    Sweeps o d p l (d.postorder n l) (cleanUpTo o n p) w := by
  intro w'
  induction n generalizing p l w w' with
  | zero => exact absurd (hdeep [] (by rwa [List.append_nil])) (Nat.not_lt_zero _)
  | succ n ih =>
    have hall : (∀ rest ∈ d.postorder (n + 1) l, (p.join ⟨.here, rest⟩).Fits) ↔
        (∀ rest ∈ d.inside n l, (p.join ⟨.here, rest⟩).Fits) ∧ p.Fits := by
      rw [Disk.postorder_succ, List.forall_mem_append]
      simp [join_nil]
    by_cases hfits : p.Fits
    · obtain ⟨i, hget⟩ := Option.isSome_iff_exists.mp hthere
      have hget' : w.disk.get? l = some i := (hsame.get?_eq (List.prefix_refl l)).trans hget
      have hfind : w.disk.find w.cwd p = .ok (l, i) := hway.find_iff.mpr ⟨hfits, rfl, hget'⟩
      have hdir : w.disk.isDirectory w.cwd p = .ok (i == .directory) := by
        rw [Disk.isDirectory, Disk.ask, hfind]
      rw [hall, and_iff_left hfits, Disk.postorder_succ, swept_append, swept_self]
      cases i with
      | file bytes =>
        have hnone : d.inside n l = [] := by
          refine List.eq_nil_iff_forall_not_mem.mpr fun rest hrest => ?_
          obtain ⟨name, hname, -⟩ := Disk.mem_inside.mp hrest
          have hbelow := hd.none_below (by simp [hget]) (List.prefix_append l [name]) (by simp)
          simp [Disk.mem_namesAt, hbelow] at hname
        rw [cleanUpTo_file hdir, gives_removal (d := w.disk.erase l), hnone]
        · simp [hget, swept, Disk.eraseAll]
        · intro _
          rw [Disk.removeFile, hfind]
          rfl
      | directory =>
        have hnames : w.disk.names w.cwd p = d.namesAt l := by
          rw [Disk.names, hfind]
          exact hsame.namesAt_eq
        have hloop : Sweeps o d p l (d.inside n l)
            ((d.namesAt l).forM fun name => cleanUpTo o n (p.join ⟨.here, [name]⟩)) w := by
          refine sweeps_names (Disk.nodup_namesAt hd) (fun name hname w hway hdir hsame hrem => ?_)
            hway hget' hremovable fun name _ => hsame.below (List.prefix_append l [name])
          have hchild := Disk.mem_namesAt.mp hname
          have hup : name ≠ ".." := (hd.isName hchild name (by simp)).ne_up
          refine Sweeps.of_child <| ih (hway.child hdir hup)
            (fun hdry => (hrem hdry).child hup hway.resolve) hsame hchild (fun rest hrest => ?_)
            (hcan.imp_right fun h rest hrest => ?_)
          · rw [List.append_assoc] at hrest
            exact Nat.lt_of_succ_lt_succ (hdeep (name :: rest) hrest)
          · rw [join_child]
            exact (hall.mp h).1 _ (Disk.mem_inside.mpr ⟨name, hname, rest, hrest, rfl⟩)
        have hremove := removeDirectory_swept (n := n) hway hfits hget' hremovable hsame
          fun name hname => (Nat.lt_of_succ_lt_succ (hdeep [name] (Disk.mem_namesAt.mp hname))).ne'
        rw [cleanUpTo_directory hdir, hnames, if_pos hget]
        constructor
        · rintro ⟨v, hv, hw'⟩
          obtain ⟨hbelow, rfl⟩ := (hloop v).mp hv
          exact ⟨hbelow, (gives_removal hremove).mp hw'⟩
        · rintro ⟨hbelow, rfl⟩
          exact ⟨_, (hloop _).mpr ⟨hbelow, rfl⟩, (gives_removal hremove).mpr rfl⟩
    · refine iff_of_false (fun h => ?_) fun h => hfits (hall.mp h.1).2
      rcases hcan with hdry | hcan
      · obtain ⟨found, hfind⟩ := exists_find_of_cleanUpTo hdry h
        exact hfits (hway.find_iff.mp hfind).1
      · exact hfits (hall.mp hcan).2

theorem sweeps_clean (hw : w.disk.Formed) (hway : w.disk.Way w.cwd p l)
    (hremovable : o.dryRun = false → Disk.Removable w.cwd p l) (hthere : (w.disk.get? l).isSome)
    (hcan : o.dryRun = false ∨
      ∀ rest, (w.disk.get? (l ++ rest)).isSome → (p.join ⟨.here, rest⟩).Fits) :
    Sweeps o w.disk p l (w.disk.contents l) (clean o p) w := by
  have hsweeps : Sweeps o w.disk p l (w.disk.contents l) (cleanUpTo o (w.disk.entries.length + 1) p)
      w := sweeps_cleanUpTo hw hway hremovable rfl hthere (fun rest => hw.short)
    (hcan.imp_right fun h rest hrest => h rest ((Disk.mem_contents hw hthere).mp hrest))
  intro w'
  rw [← hsweeps w', clean, gives_bind]
  constructor
  · rintro ⟨depth, v, hlook, h⟩
    obtain ⟨rfl, rfl⟩ := gives_look.mp hlook
    exact h
  · intro h
    exact ⟨_, w, gives_look.mpr ⟨rfl, rfl⟩, h⟩

/-! ### The path of a place -/

theorem sweeps_clean_ofLocation (hw : w.disk.Formed) (hne : l ≠ []) (hthere : (w.disk.get? l).isSome)
    (hcan : o.dryRun = false ∨
      ∀ m, l <+: m → (w.disk.get? m).isSome → (ofLocation m).Fits) :
    Sweeps o w.disk (ofLocation l) l (w.disk.contents l) (clean o (ofLocation l)) w :=
  sweeps_clean hw (Disk.way_ofLocation hw hthere)
    (fun _ => Disk.removable_ofLocation (hw.up_notMem hthere) hne) hthere
    (hcan.imp_right fun h rest => h (l ++ rest) (List.prefix_append l rest))

theorem clean_loses (hdry : o.dryRun = false) (hne : l ≠ []) (hw : w.disk.Formed)
    (hthere : (w.disk.get? l).isSome) (h : (clean o (ofLocation l)).Gives w () w') :
    w'.disk.Formed ∧ w.disk.Loses l w'.disk := by
  obtain ⟨-, rfl⟩ := (sweeps_clean_ofLocation hw hne hthere (.inl hdry) w').mp h
  have hloses := Disk.eraseAll_loses hne fun rest => (Disk.mem_contents hw hthere).mpr
  simp only [swept, hdry]
  exact ⟨hw.of_loses hloses Disk.eraseAll_sublist, hloses⟩

/-- Cleaning succeeds if each path can be followed. -/
theorem exists_clean (hw : w.disk.Formed) (hne : l ≠ []) (hthere : (w.disk.get? l).isSome)
    (hfits : ∀ m, l <+: m → (w.disk.get? m).isSome → (ofLocation m).Fits) :
    ∃ w', (clean o (ofLocation l)).Gives w () w' :=
  ⟨_, (sweeps_clean_ofLocation hw hne hthere (.inr hfits) _).mpr
    ⟨fun rest hrest => hfits (l ++ rest) (List.prefix_append l rest)
      ((Disk.mem_contents hw hthere).mp hrest), rfl⟩⟩

end Build

end Hyperstory
