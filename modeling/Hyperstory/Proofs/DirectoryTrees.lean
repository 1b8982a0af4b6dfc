import Hyperstory.Proofs.Paths
import Mathlib.Data.List.Nodup
import Mathlib.Data.List.Perm.Subperm

/-!
Directory trees as a file system has them: each place is listed once, and whatever stands somewhere
stands under a name in a directory. Every change of a tree keeps it so, and says at which place it
was made.
-/
namespace Hyperstory

namespace Disk

open Location Hyperstory.Path

variable {d d' : Disk} {l m dir cwd : Location} {i : Item} {name : String} {names : List String}
  {p : Path}

@[simp]
theorem get?_nil : d.get? [] = some .directory := rfl

theorem get?_of_ne (h : l ≠ []) : d.get? l = d.entries.lookup l := by
  simp [get?, h]

theorem isSome_get?_iff (h : l ≠ []) : (d.get? l).isSome ↔ l ∈ d.entries.map Prod.fst := by
  rw [get?_of_ne h, List.lookup_isSome_iff, List.mem_map]
  constructor
  · rintro ⟨entry, hentry, heq⟩
    exact ⟨entry, hentry, (beq_iff_eq.mp heq).symm⟩
  · rintro ⟨entry, hentry, rfl⟩
    exact ⟨entry, hentry, beq_self_eq_true _⟩

theorem lookup_filter {entries : List (Location × Item)} {q : Location → Bool} :
    (entries.filter fun e => q e.1).lookup m = if q m then entries.lookup m else none := by
  induction entries with
  | nil => simp
  | cons entry entries ih =>
    obtain ⟨k, j⟩ := entry
    by_cases hm : m = k
    · subst hm
      cases hq : q m <;> simp [hq, ih]
    · cases hq : q k <;> simp [hq, List.lookup_cons, beq_false_of_ne hm, ih]

theorem get?_erase_self (h : l ≠ []) : (d.erase l).get? l = none := by
  rw [get?_of_ne h, erase, lookup_filter (q := fun k => k != l)]
  simp

theorem get?_erase_of_ne (h : m ≠ l) : (d.erase l).get? m = d.get? m := by
  by_cases hm : m = []
  · rw [hm, get?_nil, get?_nil]
  rw [get?_of_ne hm, get?_of_ne hm, erase, lookup_filter (q := fun k => k != l)]
  simp [h]

theorem get?_put_self (h : l ≠ []) : (d.put l i).get? l = some i := by
  rw [get?_of_ne h, put, List.lookup_cons_self]

theorem get?_put_of_ne (h : m ≠ l) : (d.put l i).get? m = d.get? m := by
  rw [← get?_erase_of_ne (d := d) h]
  by_cases hm : m = []
  · rw [hm, get?_nil, get?_nil]
  · rw [get?_of_ne hm, get?_of_ne hm, put, List.lookup_cons, beq_false_of_ne h]

/-- What stands at a place stays, or a directory is made where nothing was. -/
def KeepsAt (d d' : Disk) (l : Location) : Prop :=
  d'.get? l = d.get? l ∨ d.get? l = none ∧ d'.get? l = some .directory

theorem KeepsAt.trans {d'' : Disk} (h : d.KeepsAt d' l) (h' : d'.KeepsAt d'' l) :
    d.KeepsAt d'' l := by
  unfold KeepsAt at *
  rcases h with h | ⟨hnone, hmade⟩ <;> rcases h' with h' | ⟨hnone', hmade'⟩ <;> simp_all

theorem KeepsAt.get?_eq (h : d.KeepsAt d' l) (hsome : (d.get? l).isSome) :
    d'.get? l = d.get? l := by
  rcases h with h | ⟨hnone, -⟩
  · exact h
  · simp [hnone] at hsome

theorem KeepsAt.file_iff (h : d.KeepsAt d' l) {bytes : ByteArray} :
    d'.get? l = some (.file bytes) ↔ d.get? l = some (.file bytes) := by
  rcases h with h | ⟨hnone, hmade⟩ <;> simp_all

/-- A directory tree that a file system can have. -/
structure Formed (d : Disk) : Prop where
  nodup : (d.entries.map Prod.fst).Nodup
  exists_directory : ∀ l ∈ d.entries.map Prod.fst,
    ∃ dir name, l = dir ++ [name] ∧ IsName name ∧ d.get? dir = some .directory

instance (d : Disk) : Decidable d.Formed :=
  decidable_of_iff ((d.entries.map Prod.fst).Nodup ∧ ∀ l ∈ d.entries.map Prod.fst,
      (∃ name ∈ l.getLast?, IsName name) ∧ d.get? l.dropLast = some .directory) <| by
    constructor
    · rintro ⟨hnodup, hplaces⟩
      refine ⟨hnodup, fun l hl => ?_⟩
      obtain ⟨⟨name, hlast, hname⟩, hdir⟩ := hplaces l hl
      exact ⟨l.dropLast, name, (List.dropLast_append_getLast? name hlast).symm, hname, hdir⟩
    · rintro ⟨hnodup, hplaces⟩
      refine ⟨hnodup, fun l hl => ?_⟩
      obtain ⟨dir, name, rfl, hname, hdir⟩ := hplaces l hl
      exact ⟨⟨name, by simp, hname⟩, by simpa using hdir⟩

namespace Formed

theorem exists_parent (hd : d.Formed) (h : (d.get? l).isSome) (hne : l ≠ []) :
    ∃ dir name, l = dir ++ [name] ∧ IsName name ∧ d.get? dir = some .directory :=
  hd.exists_directory l ((isSome_get?_iff hne).mp h)

theorem directory_of_concat (hd : d.Formed) (h : (d.get? (dir ++ [name])).isSome) :
    d.get? dir = some .directory := by
  obtain ⟨dir', name', heq, -, hdir⟩ := hd.exists_parent h (by simp)
  obtain ⟨rfl, -⟩ := List.append_inj' heq rfl
  exact hdir

theorem directory_of_dropLast (hd : d.Formed) (h : (d.get? l).isSome) :
    d.get? l.dropLast = some .directory := by
  rcases l.eq_nil_or_concat with rfl | ⟨dir, name, rfl⟩
  · rfl
  · rw [List.concat_eq_append] at h ⊢
    rw [List.dropLast_concat]
    exact hd.directory_of_concat h

/-- All that leads to a place are directories. -/
theorem directory_above (hd : d.Formed) (h : (d.get? l).isSome) (hm : m <+: l) (hne : m ≠ l) :
    d.get? m = some .directory := by
  induction l using List.reverseRecOn with
  | nil => exact absurd (List.prefix_nil.mp hm) hne
  | append_singleton dir name ih =>
    have hdir := hd.directory_of_concat h
    rcases List.prefix_concat_iff.mp hm with heq | hm'
    · exact absurd heq hne
    · by_cases heq : m = dir
      · rw [heq, hdir]
      · exact ih (by simp [hdir]) hm' heq

theorem isSome_above (hd : d.Formed) (h : (d.get? l).isSome) (hm : m <+: l) :
    (d.get? m).isSome := by
  by_cases heq : m = l
  · rw [heq, h]
  · rw [hd.directory_above h hm heq, Option.isSome_some]

/-- Nothing stands below what is no directory. -/
theorem none_below (hd : d.Formed) (h : d.get? l ≠ some .directory) (hm : l <+: m) (hne : m ≠ l) :
    d.get? m = none := by
  by_contra hsome
  exact h (hd.directory_above (Option.isSome_iff_ne_none.mpr hsome) hm (Ne.symm hne))

theorem isName (hd : d.Formed) (h : (d.get? l).isSome) : ∀ n ∈ l, IsName n := by
  induction l using List.reverseRecOn with
  | nil => simp
  | append_singleton dir name ih =>
    obtain ⟨dir', name', heq, hname, hdir⟩ := hd.exists_parent h (by simp)
    obtain ⟨rfl, hlast⟩ := List.append_inj' heq rfl
    obtain rfl : name = name' := by simpa using hlast
    intro n hn
    rcases List.mem_append.mp hn with hn | hn
    · exact ih (by simp [hdir]) n hn
    · rwa [List.mem_singleton.mp hn]

theorem up_notMem (hd : d.Formed) (h : (d.get? l).isSome) : ".." ∉ l :=
  fun hmem => (hd.isName h ".." hmem).ne_up rfl

/-- A tree has no fewer places than lead to any one of them. -/
theorem length_le (hd : d.Formed) (h : (d.get? l).isSome) : l.length ≤ d.entries.length := by
  have hsub : l.inits.tail ⊆ d.entries.map Prod.fst := by
    intro m hm
    have hpre : m <+: l := (List.mem_inits m l).mp (List.mem_of_mem_tail hm)
    have hne : m ≠ [] := by
      cases l with
      | nil => simp at hm
      | cons first rest =>
        simp only [List.inits_cons, List.tail_cons, List.mem_map] at hm
        obtain ⟨rest', -, rfl⟩ := hm
        simp
    exact (isSome_get?_iff hne).mp (hd.isSome_above h hpre)
  have hnodup : l.inits.Nodup := by
    clear h hsub
    induction l with
    | nil => simp
    | cons first rest ih =>
      rw [List.inits_cons, List.nodup_cons]
      exact ⟨by simp, ih.map List.cons_injective⟩
  have hle := (hnodup.tail.subperm hsub).length_le
  simpa using hle

theorem erase (hd : d.Formed) (h : ∀ name, d.get? (l ++ [name]) = none) : (d.erase l).Formed := by
  constructor
  · exact hd.nodup.sublist ((List.filter_sublist (l := d.entries)).map _)
  · intro m hm
    obtain ⟨entry, hentry, rfl⟩ := List.mem_map.mp hm
    obtain ⟨hmem, -⟩ := List.mem_filter.mp hentry
    have hkey := List.mem_map_of_mem (f := Prod.fst) hmem
    obtain ⟨dir, name, heq, hname, hdir⟩ := hd.exists_directory _ hkey
    have hne : dir ≠ l := by
      rintro rfl
      have hsome := (isSome_get?_iff (by simp [heq])).mpr hkey
      rw [heq, h name] at hsome
      simp at hsome
    exact ⟨dir, name, heq, hname, (get?_erase_of_ne hne).trans hdir⟩

theorem put (hd : d.Formed) (hdir : d.get? dir = some .directory) (hname : IsName name)
    (h : d.get? (dir ++ [name]) ≠ some .directory) : (d.put (dir ++ [name]) i).Formed := by
  constructor
  · have hkeys : ((d.put (dir ++ [name]) i).entries.map Prod.fst) =
        (dir ++ [name]) :: (d.erase (dir ++ [name])).entries.map Prod.fst := rfl
    have hsub : (d.erase (dir ++ [name])).entries.Sublist d.entries := List.filter_sublist
    rw [hkeys, List.nodup_cons]
    refine ⟨?_, hd.nodup.sublist (hsub.map _)⟩
    rw [← isSome_get?_iff (by simp), get?_erase_self (by simp)]
    simp
  · intro m hm
    -- The place was no directory, so nothing that was there before stands below it.
    have keeps : ∀ k, d.get? k = some .directory →
        (d.put (dir ++ [name]) i).get? k = some .directory := by
      intro k hk
      have hne : k ≠ dir ++ [name] := by
        rintro rfl
        exact h hk
      rw [get?_put_of_ne hne, hk]
    rcases List.mem_cons.mp hm with rfl | hmem
    · exact ⟨dir, name, rfl, hname, keeps dir hdir⟩
    · obtain ⟨entry, hentry, rfl⟩ := List.mem_map.mp hmem
      have hkey := List.mem_map_of_mem (f := Prod.fst) (List.mem_filter.mp hentry).1
      obtain ⟨dir', name', heq, hname', hdir'⟩ := hd.exists_directory _ hkey
      exact ⟨dir', name', heq, hname', keeps dir' hdir'⟩

end Formed

theorem eq_concat_iff : m = l ++ [name] ↔ m.dropLast = l ∧ m.getLast? = some name := by
  rcases m.eq_nil_or_concat with rfl | ⟨dir, last, rfl⟩ <;> simp

theorem mem_namesAt : name ∈ d.namesAt l ↔ (d.get? (l ++ [name])).isSome := by
  rw [isSome_get?_iff (by simp), namesAt, List.mem_filterMap, List.mem_map]
  refine exists_congr fun e => and_congr_right fun _ => ?_
  rw [eq_concat_iff]
  by_cases he : e.1.dropLast = l <;> simp [he]

theorem nodup_namesAt (hd : d.Formed) : (d.namesAt l).Nodup := by
  have hkeys := hd.nodup.filterMap (f := fun m => if m.dropLast == l then m.getLast? else none) ?_
  · simpa [namesAt, List.filterMap_map, Function.comp_def] using hkeys
  · intro m m' name hm hm'
    rw [Option.mem_def] at hm hm'
    have split_eq : ∀ {k : Location},
        (if k.dropLast == l then k.getLast? else none) = some name → k = l ++ [name] := by
      intro k hk
      by_cases heq : k.dropLast = l
      · exact eq_concat_iff.mpr ⟨heq, by simpa [heq] using hk⟩
      · simp [heq] at hk
    rw [split_eq hm, split_eq hm']

/-- The names on a way lead through directories, and none is too long. -/
def Leads (d : Disk) (l : Location) (names : List String) : Prop :=
  ∀ pre name, pre ++ [name] <+: names →
    d.get? (pre.foldl step l) = some .directory ∧ name.utf8ByteSize ≤ maxNameSize

theorem leads_nil : d.Leads l [] := by
  intro pre name h
  simp at h

theorem leads_cons : d.Leads l (name :: names) ↔
    d.get? l = some .directory ∧ name.utf8ByteSize ≤ maxNameSize ∧ d.Leads (l.step name) names := by
  constructor
  · intro h
    have hfirst := h [] name (by simp)
    refine ⟨hfirst.1, hfirst.2, fun pre last hpre => ?_⟩
    simpa using h (name :: pre) last (by simpa using hpre)
  · rintro ⟨hdir, hsize, hrest⟩ pre last hpre
    cases pre with
    | nil =>
      obtain ⟨rfl, -⟩ : last = name ∧ [] <+: names := by simpa using hpre
      exact ⟨hdir, hsize⟩
    | cons first pre =>
      obtain ⟨rfl, hpre'⟩ : first = name ∧ pre ++ [last] <+: names := by simpa using hpre
      exact hrest pre last hpre'

theorem leads_concat : d.Leads l (names ++ [name]) ↔
    d.Leads l names ∧ d.get? (names.foldl step l) = some .directory ∧
      name.utf8ByteSize ≤ maxNameSize := by
  constructor
  · intro h
    refine ⟨fun pre last hpre => h pre last (hpre.trans (List.prefix_append _ _)), ?_⟩
    exact h names name (List.prefix_refl _)
  · rintro ⟨hinit, hlast⟩ pre last hpre
    rcases List.prefix_concat_iff.mp hpre with heq | hpre'
    · obtain ⟨rfl, hname⟩ := List.append_inj' heq rfl
      obtain rfl : last = name := by simpa using hname
      exact hlast
    · exact hinit pre last hpre'

theorem walk_eq_ok_iff : d.walk l names = .ok m ↔ d.Leads l names ∧ m = names.foldl step l := by
  induction names generalizing l with
  | nil => simp [walk, leads_nil, eq_comm]
  | cons name names ih =>
    rw [walk, leads_cons, List.foldl_cons]
    cases hl : d.get? l with
    | none => simp
    | some i =>
      cases i with
      | file bytes => simp
      | directory =>
        by_cases hsize : maxNameSize < name.utf8ByteSize
        · have hnot : ¬ name.utf8ByteSize ≤ maxNameSize := by omega
          simp [hsize, hnot]
        · have hle : name.utf8ByteSize ≤ maxNameSize := by omega
          simp [hsize, hle, ih]

theorem locate_eq_ok_iff : d.locate cwd p = .ok l ↔
    p.trouble? = none ∧ p.text.utf8ByteSize ≤ maxSize ∧ d.Leads (p.start cwd) p.names ∧
      l = p.resolve cwd := by
  unfold locate
  cases htrouble : p.trouble? with
  | some e => simp
  | none =>
    by_cases hsize : maxSize < p.text.utf8ByteSize
    · have hnot : ¬ p.text.utf8ByteSize ≤ maxSize := by omega
      simp [hsize, hnot]
    · have hle : p.text.utf8ByteSize ≤ maxSize := by omega
      simp [hsize, hle, walk_eq_ok_iff, resolve]

theorem find_eq_ok_iff :
    d.find cwd p = .ok (l, i) ↔ d.locate cwd p = .ok l ∧ d.get? l = some i := by
  unfold find
  cases d.locate cwd p with
  | error e => simp [bind, Except.bind]
  | ok m =>
    cases hm : d.get? m with
    | none =>
      simp only [bind, Except.bind, hm]
      constructor
      · simp
      · rintro ⟨heq, hl⟩
        obtain rfl := Except.ok.inj heq
        simp [hm] at hl
    | some j =>
      simp only [bind, Except.bind, hm, Except.ok.injEq, Prod.mk.injEq]
      constructor
      · rintro ⟨rfl, rfl⟩
        exact ⟨rfl, hm⟩
      · rintro ⟨rfl, hl⟩
        exact ⟨rfl, by simpa [hm] using hl⟩

theorem find_eq_tooLong_iff : d.find cwd p = .error .tooLong ↔ d.locate cwd p = .error .tooLong := by
  unfold find
  cases d.locate cwd p with
  | error e => simp [bind, Except.bind]
  | ok m => cases hm : d.get? m <;> simp [bind, Except.bind, hm]

/-- What stands on the way decides where a path leads. -/
theorem locate_congr (h : ∀ pre name, pre ++ [name] <+: p.names →
    d'.get? (pre.foldl step (p.start cwd)) = d.get? (pre.foldl step (p.start cwd))) :
    d'.locate cwd p = d.locate cwd p := by
  have hwalk : ∀ (names : List String) (l : Location),
      (∀ pre name, pre ++ [name] <+: names → d'.get? (pre.foldl step l) = d.get? (pre.foldl step l)) →
      d'.walk l names = d.walk l names := by
    intro names
    induction names with
    | nil => intros; rfl
    | cons name names ih =>
      intro l hl
      rw [walk, walk, show d'.get? l = d.get? l from hl [] name (by simp)]
      rw [ih (l.step name) fun pre last hpre => hl (name :: pre) last (by simpa using hpre)]
  rw [locate, locate, hwalk p.names _ h]

theorem find_congr (h : ∀ pre, pre <+: p.names →
    d'.get? (pre.foldl step (p.start cwd)) = d.get? (pre.foldl step (p.start cwd))) :
    d'.find cwd p = d.find cwd p := by
  unfold find
  rw [locate_congr fun pre name hpre => h pre ((List.prefix_append _ _).trans hpre)]
  cases hl : d.locate cwd p with
  | error e => rfl
  | ok l =>
    have hend : d'.get? l = d.get? l := by
      obtain ⟨-, -, -, rfl⟩ := locate_eq_ok_iff.mp hl
      exact h p.names (List.prefix_refl _)
    simp only [bind, Except.bind, hend]

end Disk

end Hyperstory
