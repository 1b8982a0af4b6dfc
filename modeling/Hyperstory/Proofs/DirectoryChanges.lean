import Hyperstory.Proofs.DirectoryTrees

/-!
Changes of directory trees. Each one that succeeds is made at the place its path leads to, and the
tree stays one that a file system can have. What a change does can be told from what stands at each
place before it.
-/
namespace Hyperstory

namespace Disk

open Location Hyperstory.Path

variable {d d' : Disk} {l m dir cwd : Location} {i : Item} {name : String} {names : List String}
  {p : Path} {bytes : ByteArray}

/-! ### Where a path leads -/

theorem fits_of_locate (h : d.locate cwd p = .ok l) : p.Fits := by
  obtain ⟨htrouble, hshort, hleads, -⟩ := locate_eq_ok_iff.mp h
  refine ⟨htrouble, hshort, fun n hn => ?_⟩
  obtain ⟨before, after, heq⟩ := List.append_of_mem hn
  exact (hleads before n ⟨after, by simp [heq]⟩).2

theorem eq_resolve_of_locate (hroot : p.root ≠ .here) (h : d.locate cwd p = .ok l) :
    l = p.names.foldl step [] := by
  obtain ⟨-, -, -, heq⟩ := locate_eq_ok_iff.mp h
  rw [heq, resolve_of_rooted hroot]

/-- The path of a place leads there if it can be followed and the place is in a directory. -/
theorem Formed.locate_ofLocation (hd : d.Formed) (hl : ".." ∉ l) :
    d.locate cwd (ofLocation l) = .ok m ↔
      (ofLocation l).Fits ∧ d.get? l.dropLast = some .directory ∧ m = l := by
  have hresolve : (ofLocation l).resolve cwd = l := by
    rw [resolve, start_ofLocation]
    exact foldl_step hl
  constructor
  · intro h
    obtain ⟨-, -, hleads, heq⟩ := locate_eq_ok_iff.mp h
    refine ⟨fits_of_locate h, ?_, heq.trans hresolve⟩
    rcases l.eq_nil_or_concat with rfl | ⟨dir, name, rfl⟩
    · rfl
    · rw [List.concat_eq_append] at hl hleads ⊢
      have hdir : ".." ∉ dir := fun hmem => hl (List.mem_append_left _ hmem)
      rw [List.dropLast_concat]
      have hget := (hleads dir name (List.prefix_refl _)).1
      rwa [start_ofLocation, foldl_step hdir] at hget
  · rintro ⟨hfits, hdir, rfl⟩
    rw [locate_eq_ok_iff]
    refine ⟨hfits.nameable, hfits.short, ?_, hresolve.symm⟩
    intro pre name hpre
    have hup : ".." ∉ pre := fun hmem => hl (hpre.subset (List.mem_append_left _ hmem))
    rw [start_ofLocation, foldl_step hup, List.nil_append]
    refine ⟨?_, hfits.names_short name (hpre.subset (by simp))⟩
    have hbefore : pre <+: m.dropLast := by
      obtain ⟨rest, rfl⟩ := hpre
      rw [List.append_assoc, List.dropLast_append_of_ne_nil (by simp)]
      exact List.prefix_append _ _
    by_cases heq : pre = m.dropLast
    · rw [heq, hdir]
    · exact hd.directory_above (by simp [hdir]) hbefore heq

/-- Where a path leads to no directory, it leads to a name in one. -/
theorem Formed.exists_new (hd : d.Formed) (hroot : p.root ≠ .here) (hparts : ∀ n ∈ p.names, IsPart n)
    (h : d.locate cwd p = .ok l) (hnew : d.get? l ≠ some .directory) :
    ∃ dir name, l = dir ++ [name] ∧ IsName name ∧ d.get? dir = some .directory := by
  have heq := eq_resolve_of_locate hroot h
  obtain ⟨-, -, hleads, -⟩ := locate_eq_ok_iff.mp h
  have hstart : p.start cwd = [] := by simp [start, hroot]
  rw [hstart] at hleads
  rcases p.names.eq_nil_or_concat with hnil | ⟨pre, name, hnames⟩
  · rw [hnil] at heq
    exact absurd (by rw [heq]; rfl) hnew
  rw [hnames, List.concat_eq_append] at hleads heq hparts
  obtain ⟨-, hdir, -⟩ := leads_concat.mp hleads
  rw [List.foldl_append, List.foldl_cons, List.foldl_nil] at heq
  by_cases hup : name = ".."
  · rw [hup, step_up] at heq
    have habove := hd.directory_of_dropLast (l := pre.foldl step []) (by simp [hdir])
    exact absurd (heq ▸ habove) hnew
  · rw [step_of_ne hup] at heq
    exact ⟨_, name, heq, ⟨hparts name (by simp), hup⟩, hdir⟩

theorem ask_eq_true_iff {wanted : Item → Bool} :
    d.ask cwd p wanted = .ok true ↔ ∃ l i, d.find cwd p = .ok (l, i) ∧ wanted i = true := by
  unfold ask
  split
  · rename_i l i hfind
    simp [hfind]
  · rename_i hfind
    simp [hfind]
  · rename_i e hne hfind
    simp [hfind]

theorem read_eq_ok_iff : d.read cwd p = .ok bytes ↔ ∃ l, d.find cwd p = .ok (l, .file bytes) := by
  unfold read
  cases d.find cwd p with
  | error e => simp [bind, Except.bind]
  | ok found =>
    obtain ⟨l, i⟩ := found
    cases i <;> simp [bind, Except.bind]

theorem Formed.find_ofLocation (hd : d.Formed) (hl : ".." ∉ l) :
    d.find cwd (ofLocation l) = .ok (m, i) ↔ (ofLocation l).Fits ∧ m = l ∧ d.get? l = some i := by
  rw [find_eq_ok_iff, hd.locate_ofLocation hl]
  constructor
  · rintro ⟨⟨hfits, -, rfl⟩, hget⟩
    exact ⟨hfits, rfl, hget⟩
  · rintro ⟨hfits, rfl, hget⟩
    exact ⟨⟨hfits, hd.directory_of_dropLast (by simp [hget]), rfl⟩, hget⟩

theorem exists_of_write (h : d.write cwd p bytes = .ok d') :
    ∃ l, d.locate cwd p = .ok l ∧ d.get? l ≠ some .directory ∧ d' = d.put l (.file bytes) := by
  unfold write at h
  cases hl : d.locate cwd p with
  | error e => simp [hl, bind, Except.bind] at h
  | ok l =>
    simp only [hl, bind, Except.bind] at h
    split at h
    · simp at h
    · rename_i hnot
      exact ⟨l, rfl, by simpa [isDirectoryAt] using hnot, (Except.ok.inj h).symm⟩

theorem exists_of_makeDirectory (h : d.makeDirectory cwd p = .ok d') :
    ∃ l, d.locate cwd p = .ok l ∧ d.get? l = none ∧ d' = d.put l .directory := by
  unfold makeDirectory at h
  cases hl : d.locate cwd p with
  | error e => simp [hl, bind, Except.bind] at h
  | ok l =>
    simp only [hl, bind, Except.bind] at h
    split at h
    · simp at h
    · rename_i hnot
      exact ⟨l, rfl, by simpa using hnot, (Except.ok.inj h).symm⟩

theorem exists_of_removeFile (h : d.removeFile cwd p = .ok d') :
    ∃ l bytes, d.find cwd p = .ok (l, .file bytes) ∧ d' = d.erase l := by
  unfold removeFile at h
  cases hfind : d.find cwd p with
  | error e => simp [hfind, bind, Except.bind] at h
  | ok found =>
    obtain ⟨l, i⟩ := found
    cases i with
    | file bytes =>
      rw [hfind] at h
      exact ⟨l, bytes, rfl, (Except.ok.inj h).symm⟩
    | directory => simp [hfind, bind, Except.bind] at h

/-- A directory is removed by its own name and when it is empty. -/
theorem removeDirectory_eq_ok_iff : d.removeDirectory cwd p = .ok d' ↔
    ∃ l, d.find cwd p = .ok (l, .directory) ∧ (p.names ≠ [] ∧ p.names.getLast? ≠ some "..") ∧
      d.namesAt l = [] ∧ d' = d.erase l := by
  unfold removeDirectory
  cases hfind : d.find cwd p with
  | error e => simp [bind, Except.bind]
  | ok found =>
    obtain ⟨l, i⟩ := found
    cases i with
    | file bytes => simp [bind, Except.bind]
    | directory =>
      have hrefused : (p.names.isEmpty || p.names.getLast? == some ".." || !(d.namesAt l).isEmpty) =
          true ↔ ¬ ((p.names ≠ [] ∧ p.names.getLast? ≠ some "..") ∧ d.namesAt l = []) := by
        simp only [Bool.or_eq_true, List.isEmpty_iff, beq_iff_eq, Bool.not_eq_true',
          List.isEmpty_eq_false_iff]
        tauto
      simp only [bind, Except.bind, hrefused]
      constructor
      · intro h
        split at h
        · cases h
        · next hnot =>
          obtain ⟨hlast, hempty⟩ := not_not.mp hnot
          exact ⟨l, rfl, hlast, hempty, (Except.ok.inj h).symm⟩
      · rintro ⟨_, hl, hlast, hempty, rfl⟩
        cases hl
        exact if_neg (not_not.mpr ⟨hlast, hempty⟩)

/-- A file is written where its path leads, and nowhere else. -/
theorem Formed.write (hd : d.Formed) (hroot : p.root ≠ .here) (hparts : ∀ n ∈ p.names, IsPart n)
    (h : d.write cwd p bytes = .ok d') :
    d'.Formed ∧ d'.get? (p.names.foldl step []) = some (.file bytes) ∧
      ∀ m, m ≠ p.names.foldl step [] → d'.get? m = d.get? m := by
  obtain ⟨l, hl, hnew, rfl⟩ := exists_of_write h
  obtain ⟨dir, name, rfl, hname, hdir⟩ := hd.exists_new hroot hparts hl hnew
  rw [← eq_resolve_of_locate hroot hl]
  refine ⟨hd.put hdir hname hnew, get?_put_self (by simp), fun m hm => get?_put_of_ne hm⟩

/-- What is copied was read, from another place than the copy is written to. -/
theorem exists_of_copy {source target : Path} (h : d.copy cwd source target = .ok d') :
    ∃ bytes, source ≠ target ∧ d.read cwd source = .ok bytes ∧
      d.write cwd target bytes = .ok d' := by
  unfold copy at h
  split at h
  · cases h
  · split at h
    · cases h
    · rename_i hsame
      cases hread : d.read cwd source with
      | error e => simp [hread, bind, Except.bind] at h
      | ok bytes =>
        refine ⟨bytes, ?_, rfl, by simpa [hread, bind, Except.bind] using h⟩
        rintro rfl
        obtain ⟨l, hfind⟩ := read_eq_ok_iff.mp hread
        exact hsame (by simp [isSame, hfind])

/-! ### Making directories -/

/-- Directories were made where the names lead, and on the way there where nothing was. -/
structure Makes (root : PathRoot) (names : List String) (d d' : Disk) : Prop where
  formed : d'.Formed
  made : d'.get? (names.foldl step []) = some .directory
  fits : Path.Fits ⟨root, names⟩
  changed : ∀ m, d'.get? m = d.get? m ∨ d.get? m = none ∧ d'.get? m = some .directory ∧
    ∃ pre, pre <+: names ∧ m = pre.foldl step [] ∧ Path.Fits ⟨root, pre⟩

theorem exists_of_ensureDirectory (h : d.ensureDirectory cwd p = .ok d') :
    d.makeDirectory cwd p = .ok d' ∨ d' = d ∧ ∃ l, d.find cwd p = .ok (l, .directory) := by
  unfold ensureDirectory at h
  cases hmake : d.makeDirectory cwd p with
  | ok made =>
    rw [hmake] at h
    exact .inl h
  | error e =>
    simp only [hmake] at h
    split at h
    · simp at h
    · cases hthere : d.isDirectory cwd p with
      | error e' => simp [hthere, bind, Except.bind] at h
      | ok there =>
        simp only [hthere, bind, Except.bind] at h
        cases there with
        | false => simp at h
        | true =>
          obtain ⟨l, i, hfind, hi⟩ := ask_eq_true_iff.mp hthere
          obtain rfl : i = .directory := by simpa using hi
          exact .inr ⟨(Except.ok.inj h).symm, l, hfind⟩

variable {root : PathRoot}

theorem Formed.ensureDirectory (hd : d.Formed) (hroot : root ≠ .here)
    (hparts : ∀ n ∈ names, IsPart n) (h : d.ensureDirectory cwd ⟨root, names⟩ = .ok d') :
    Makes root names d d' := by
  rcases exists_of_ensureDirectory h with hmake | ⟨rfl, l, hfind⟩
  · obtain ⟨l, hl, hnone, rfl⟩ := exists_of_makeDirectory hmake
    have hnew : d.get? l ≠ some .directory := by simp [hnone]
    obtain ⟨dir, name, rfl, hname, hdir⟩ := hd.exists_new hroot hparts hl hnew
    have heq := eq_resolve_of_locate hroot hl
    refine ⟨hd.put hdir hname hnew, ?_, fits_of_locate hl, fun m => ?_⟩
    · rw [← heq, get?_put_self (by simp)]
    · by_cases hm : m = dir ++ [name]
      · subst hm
        right
        refine ⟨hnone, get?_put_self (by simp), names, List.prefix_refl _, heq, fits_of_locate hl⟩
      · exact .inl (get?_put_of_ne hm)
  · obtain ⟨hl, hget⟩ := find_eq_ok_iff.mp hfind
    rw [eq_resolve_of_locate hroot hl] at hget
    exact ⟨hd, hget, fits_of_locate hl, fun m => .inl rfl⟩

theorem Makes.extend {d'' : Disk} (h : Makes root names d d')
    (h' : Makes root (names ++ [name]) d' d'') : Makes root (names ++ [name]) d d'' := by
  refine ⟨h'.formed, h'.made, h'.fits, fun m => ?_⟩
  rcases h'.changed m with heq | ⟨hnone, hmade, hway⟩
  · rw [heq]
    rcases h.changed m with heq | ⟨hnone, hmade, pre, hpre, hm⟩
    · exact .inl heq
    · exact .inr ⟨hnone, hmade, pre, hpre.trans (List.prefix_append _ _), hm⟩
  · rcases h.changed m with heq | ⟨-, hmade', -⟩
    · exact .inr ⟨heq ▸ hnone, hmade, hway⟩
    · simp [hmade'] at hnone

/-- Making a directory with those that it lies in follows the names from the last to the first. -/
theorem Formed.ensureDirectories (hd : d.Formed) (hroot : root ≠ .here)
    (hparts : ∀ n ∈ names, IsPart n)
    (h : d.ensureDirectories cwd root names.reverse = (d', none)) : Makes root names d d' := by
  -- The directories above are made first, but only after the last one could not be made.
  induction names using List.reverseRecOn generalizing d' with
  | nil =>
    rw [List.reverse_nil, Disk.ensureDirectories] at h
    split at h
    · rename_i made hmake
      obtain rfl : made = d' := congrArg Prod.fst h
      exact hd.ensureDirectory hroot hparts hmake
    · simp at h
  | append_singleton above name ih =>
    rw [List.reverse_append, List.reverse_singleton, List.singleton_append,
      Disk.ensureDirectories] at h
    simp only [List.reverse_cons, List.reverse_reverse] at h
    split at h
    · rename_i made hmake
      obtain rfl : made = d' := congrArg Prod.fst h
      exact hd.ensureDirectory hroot hparts hmake
    · split at h
      · simp at h
      · rename_i d₁ habove
        split at h
        · rename_i made hmake
          obtain rfl : made = d' := congrArg Prod.fst h
          have hway := ih (fun n hn => hparts n (List.mem_append_left _ hn)) habove
          exact hway.extend (hway.formed.ensureDirectory hroot hparts hmake)
        · simp at h
    · simp at h

theorem Makes.keepsAt (h : Makes root names d d') (m : Location) : d.KeepsAt d' m := by
  rcases h.changed m with heq | ⟨hnone, hmade, -⟩
  · exact .inl heq
  · exact .inr ⟨hnone, hmade⟩

/-- Without steps up, the directories that lead to a place are there, and all else is as it was. -/
theorem Makes.get? (h : Makes root l d d') (hl : ".." ∉ l) (m : Location) :
    d'.get? m = if m <+: l then some .directory else d.get? m := by
  have hmade := h.made
  rw [foldl_step hl, List.nil_append] at hmade
  split
  · rename_i hm
    by_cases heq : m = l
    · rw [heq, hmade]
    · exact h.formed.directory_above (by simp [hmade]) hm heq
  · rename_i hm
    rcases h.changed m with heq | ⟨-, -, pre, hpre, rfl, -⟩
    · exact heq
    · have hup : ".." ∉ pre := fun hmem => hl (hpre.subset hmem)
      rw [foldl_step hup, List.nil_append] at hm
      exact absurd hpre hm

/-! ### What can be told from what stands at each place -/

/-- The same stands at each place. -/
def Agree (d d' : Disk) : Prop := ∀ l, d'.get? l = d.get? l

theorem Agree.locate (h : d.Agree d') : d'.locate cwd p = d.locate cwd p :=
  locate_congr fun _ _ _ => h _

theorem Agree.find (h : d.Agree d') : d'.find cwd p = d.find cwd p := find_congr fun _ _ => h _

theorem Agree.ask (h : d.Agree d') {wanted : Item → Bool} :
    d'.ask cwd p wanted = d.ask cwd p wanted := by
  rw [Disk.ask, Disk.ask, h.find]

theorem Agree.put (h : d.Agree d') : (d.put l i).Agree (d'.put l i) := by
  intro m
  by_cases hm : m = []
  · rw [hm, get?_nil, get?_nil]
  by_cases hml : m = l
  · subst hml
    rw [get?_put_self hm, get?_put_self hm]
  · rw [get?_put_of_ne hml, get?_put_of_ne hml, h m]

end Disk

end Hyperstory
