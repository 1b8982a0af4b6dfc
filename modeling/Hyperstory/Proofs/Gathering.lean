import Hyperstory.Proofs.Globs
import Hyperstory.Proofs.Loading

/-!
Gathering the files of a project again. Where nothing but the output directory is different, and no
pattern leads out of it, the same files are gathered.
-/
namespace Hyperstory

namespace Text.Half

variable {s t : String}

def Before (s t : String) : Prop := List.Lex (· < ·) (codes s) (codes t)

theorem isLe_iff : isLe s t = true ↔ ¬ Before t s := by
  unfold isLe Before
  rw [Bool.not_eq_true', ← Bool.not_eq_true, List.lex_eq_true_iff_lex]
  simp only [Nat.blt_eq]

/-- No character has the code of a half. -/
theorem code_injective : Function.Injective code := by
  intro c d h
  have hc : c.toNat < 0xd800 ∨ 0xdfff < c.toNat ∧ c.toNat < 0x110000 := c.valid
  have hd : d.toNat < 0xd800 ∨ 0xdfff < d.toNat ∧ d.toNat < 0x110000 := d.valid
  have half_iff : ∀ x : Char, isHalf x = true ↔ 0xfd800 ≤ x.toNat ∧ x.toNat ≤ 0xfdfff := by
    intro x
    unfold isHalf isCode shift
    rw [Bool.and_eq_true, Bool.and_eq_true, decide_eq_true_iff, decide_eq_true_iff,
      decide_eq_true_iff]
    omega
  have heq : c.toNat = d.toNat := by
    unfold code shift at h
    split_ifs at h with hc' hd' hd' <;> rw [half_iff] at hc' hd' <;> omega
  exact Char.toNat_inj.mp heq

theorem codes_injective : Function.Injective codes := fun _ _ h =>
  String.toList_injective (List.map_injective_iff.mpr code_injective h)

theorem pairwise_mergeSort (xs : List String) :
    (xs.mergeSort isLe).Pairwise fun s t => isLe s t = true := by
  apply List.pairwise_mergeSort
  · intro s t u hst htu
    exact isLe_iff.mpr (List.le_trans (isLe_iff.mp hst) (isLe_iff.mp htu))
  · intro s t
    rw [Bool.or_eq_true, isLe_iff, isLe_iff]
    exact List.le_total _ _

end Text.Half

namespace Project

open Run Location Hyperstory.Path

variable {p : Project} {d d' : Disk} {patterns found found' files ignored : List String}
  {f s : String} {names : List String}

def place (p : Project) (file : String) : Location := (p.path file).resolve []

theorem not_prefix_place (hne : p.place f ≠ p.output) (h : p.isOutput f = false) :
    ¬ p.output <+: p.place f := by
  intro hpre
  have hbelow : p.isOutput f = true := isBelow_iff.mpr ⟨hpre, hne⟩
  rw [h] at hbelow
  cases hbelow

/-! ### What patterns lead to -/

/-- A pattern with the files below if it ends with two stars. -/
def whole (s : String) : String := if s.toList.reverse.take 2 == ['*', '*'] then s ++ "/*" else s

theorem falls_whole (h : Falls (namesIn s)) : Falls (namesIn (whole s)) := by
  unfold whole
  split
  · have hnames : namesIn (s ++ "/*") = namesIn s ++ ["*"] := by
      rw [show s ++ "/*" = s ++ "/" ++ "*" by rw [String.append_assoc]; rfl, namesIn_append]
      congr 1
    rw [hnames]
    exact h.append (by decide)
  · exact h

def expandOne (p : Project) (d : Disk) (s : String) : Except Halt (List String) := do
  let g ← (Glob.parse (whole s)).mapError Halt.pattern
  let files ← (g.files d p.base).mapError Halt.disk
  pure (files.map "/".intercalate)

theorem expand_eq (p : Project) (d : Disk) (patterns : List String) :
    p.expand d patterns = patterns.mapM (p.expandOne d) >>= fun found => pure found.flatten := rfl

theorem expandOne_eq_ok_iff : p.expandOne d s = .ok files ↔
    ∃ g found, Glob.parse (whole s) = .ok g ∧ g.files d p.base = .ok found ∧
      files = found.map "/".intercalate := by
  unfold expandOne
  cases Glob.parse (whole s) with
  | error e => simp [Except.mapError, bind, Except.bind]
  | ok g =>
    cases hfiles : g.files d p.base with
    | error e => simp [Except.mapError, bind, Except.bind, hfiles]
    | ok found => simp [Except.mapError, bind, Except.bind, pure, Except.pure, hfiles, eq_comm]

/-- What can be read as a pattern fails only where a path is too long. -/
theorem expandOne_error (h : p.expandOne d s = .ok files) {e : Halt}
    (h' : p.expandOne d' s = .error e) : e = .disk .tooLong := by
  obtain ⟨g, found, hparse, -⟩ := expandOne_eq_ok_iff.mp h
  rw [expandOne, hparse] at h'
  simp only [Except.mapError, bind, Except.bind] at h'
  cases hfiles : g.files d' p.base with
  | error e' =>
    rw [hfiles] at h'
    rw [← Except.error.inj h', Glob.files_error hfiles]
  | ok found' =>
    rw [hfiles] at h'
    cases h'

theorem expand_error (h : p.expand d patterns = .ok found) {e : Halt}
    (h' : p.expand d' patterns = .error e) : e = .disk .tooLong := by
  rw [expand_eq] at h h'
  obtain ⟨lists, hlists, -⟩ := exists_of_bind_ok h
  rcases exists_of_bind_error h' with herror | ⟨_, -, hdone⟩
  · obtain ⟨s, hs, hserror⟩ := exists_of_mapM_error herror
    obtain ⟨files, -, hfiles⟩ := exists_ok_of_mapM hlists hs
    exact expandOne_error hfiles hserror
  · cases hdone

/-! ### Where the files are -/

theorem path_intercalate (hnames : ∀ n ∈ names, IsPart n) :
    p.path ("/".intercalate names) = ofLocation (p.base ++ names) := by
  rw [path, ofString_intercalate hnames]
  rfl

theorem place_intercalate (hp : p.Placed) (hnames : ∀ n ∈ names, IsPart n) :
    p.place ("/".intercalate names) = names.foldl step p.base := by
  rw [place, path_intercalate hnames, resolve_of_rooted (by simp [ofLocation])]
  show (p.base ++ names).foldl step [] = _
  rw [List.foldl_append, foldl_step hp.up_notMem_base, List.nil_append]

/-- What a pattern led to: names on a way whose steps up come first, and a file at its end. -/
structure Found (p : Project) (d : Disk) (f : String) (names : List String) : Prop where
  parts : ∀ n ∈ names, IsPart n
  falls : Falls names
  eq : f = "/".intercalate names
  exists_file : ∃ bytes, d.get? (names.foldl step p.base) = some (.file bytes)

theorem isPart_of_selects (hd : d.Formed) {g : Glob} (hparse : Glob.parse (whole s) = .ok g)
    (hsel : Glob.Selects d p.base g [] names) : ∀ n ∈ names, IsPart n := by
  obtain ⟨more, hmore, hparts⟩ := hsel.exists_names hd
  obtain rfl : names = more := hmore
  intro n hn
  rcases hparts n hn with hname | hstep
  · exact hname.toIsPart
  · exact isPart_of_mem_namesIn (Glob.name_mem_of_parse hparse hstep)

theorem found_of_mem_files (hp : p.Placed) (hd : d.Formed) (hs : Falls (namesIn s)) {g : Glob}
    {selected : List (List String)} (hparse : Glob.parse (whole s) = .ok g)
    (hselected : g.files d p.base = .ok selected) (hnames : names ∈ selected) :
    p.Found d ("/".intercalate names) names := by
  obtain ⟨-, hsel, l, bytes, hfind⟩ := (Glob.mem_files hd hselected).mp hnames
  have hfalls := (Glob.heads_of_parse hparse (falls_whole hs)).falls hd hsel
  refine ⟨isPart_of_selects hd hparse hsel, hfalls, rfl, bytes, ?_⟩
  obtain ⟨hlocate, hget⟩ := Disk.find_eq_ok_iff.mp hfind
  have hl : l = (p.base ++ names).foldl step [] :=
    Disk.eq_resolve_of_locate (by simp [ofLocation]) hlocate
  rwa [hl, List.foldl_append, foldl_step hp.up_notMem_base, List.nil_append] at hget

theorem found_of_mem_expand (hp : p.Placed) (hd : d.Formed)
    (hpatterns : ∀ s ∈ patterns, Falls (namesIn s)) (h : p.expand d patterns = .ok found)
    (hf : f ∈ found) : ∃ names, p.Found d f names := by
  rw [expand_eq] at h
  obtain ⟨lists, hlists, h⟩ := exists_of_bind_ok h
  obtain rfl : lists.flatten = found := Except.ok.inj h
  obtain ⟨s, hs, files, hfiles, hf⟩ := (mem_flatten_of_mapM hlists).mp hf
  obtain ⟨g, selected, hparse, hselected, rfl⟩ := expandOne_eq_ok_iff.mp hfiles
  obtain ⟨names, hnames, rfl⟩ := List.mem_map.mp hf
  exact ⟨names, found_of_mem_files hp hd (hpatterns s hs) hparse hselected hnames⟩

theorem found_of_mem_gatherFrom (hp : p.Placed) (hd : d.Formed)
    (hpatterns : ∀ s ∈ patterns, Falls (namesIn s)) (h : p.gatherFrom d patterns = .ok files)
    (hf : f ∈ files) : ∃ names, p.Found d f names := by
  obtain ⟨ignored, found, -, hfound, rfl⟩ := exists_of_gatherFrom h
  rw [List.mem_mergeSort, List.mem_filter, List.mem_eraseDups] at hf
  exact found_of_mem_expand hp hd hpatterns hfound hf.1

theorem Found.place_eq (hp : p.Placed) (h : p.Found d f names) :
    p.place f = names.foldl step p.base := by
  rw [h.eq, place_intercalate hp h.parts]

theorem nodup_eraseDups {α : Type} [BEq α] [LawfulBEq α] (xs : List α) : xs.eraseDups.Nodup := by
  match xs with
  | [] => simp
  | x :: xs =>
    rw [List.eraseDups_cons, List.nodup_cons, List.mem_eraseDups]
    exact ⟨by simp, nodup_eraseDups (xs.filter fun b => !b == x)⟩
termination_by xs.length
decreasing_by
  have := List.length_filter_le (fun b => !b == x) xs
  simp only [List.length_cons]
  omega

/-- Sorting forgets in which order texts come. -/
theorem mergeSort_eq_of_mem_iff {xs ys : List String} (hxs : xs.Nodup) (hys : ys.Nodup)
    (h : ∀ f, f ∈ xs ↔ f ∈ ys) : xs.mergeSort Text.Half.isLe = ys.mergeSort Text.Half.isLe := by
  have hperm : xs.Perm ys := (List.perm_ext_iff_of_nodup hxs hys).mpr h
  refine List.Perm.eq_of_pairwise ?_ (Text.Half.pairwise_mergeSort xs)
    (Text.Half.pairwise_mergeSort ys)
    (((List.mergeSort_perm xs _).trans hperm).trans (List.mergeSort_perm ys _).symm)
  intro a b _ _ hab hba
  exact Text.Half.codes_injective
    (List.le_antisymm (Text.Half.isLe_iff.mp hab) (Text.Half.isLe_iff.mp hba))

/-! ### Gathering again -/

/-- Nothing is different in another tree but what the output directory holds, and directories that
were made where nothing was. -/
structure Undisturbed (p : Project) (d d' : Disk) : Prop where
  formed : d.Formed
  formed' : d'.Formed
  base : (d.get? p.base).isSome
  apart : ¬ p.output <+: p.base
  output : d'.get? p.output = some .directory
  keepsAt : ∀ m, ¬ p.output <+: m → d.KeepsAt d' m

namespace Undisturbed

theorem placed (h : p.Undisturbed d d') : p.Placed := h.formed.isName h.base

theorem get?_eq (h : p.Undisturbed d d') {l m : Location} (hout : ¬ p.output <+: l)
    (hthere : (d.get? l).isSome) (hm : m <+: l) : d'.get? m = d.get? m :=
  (h.keepsAt m fun hpre => hout (hpre.trans hm)).get?_eq (h.formed.isSome_above hthere hm)

theorem sameOn (h : p.Undisturbed d d') {target : Location} (hout : ¬ p.output <+: target)
    (hthere : (d.get? target).isSome) : Glob.SameOn d d' p.base target := by
  refine ⟨h.formed, h.formed', h.placed.up_notMem_base, fun m hm => ?_⟩
  rcases hm with hm | hm
  · exact h.get?_eq h.apart h.base hm
  · exact h.get?_eq hout hthere hm

theorem mem_expandOne_iff (h : p.Undisturbed d d') (hs : Falls (namesIn s)) {files' : List String}
    (hfiles : p.expandOne d s = .ok files) (hfiles' : p.expandOne d' s = .ok files')
    (hout : ¬ p.output <+: p.place f) : f ∈ files ↔ f ∈ files' := by
  obtain ⟨g, selected, hparse, hselected, rfl⟩ := expandOne_eq_ok_iff.mp hfiles
  obtain ⟨g', selected', hparse', hselected', rfl⟩ := expandOne_eq_ok_iff.mp hfiles'
  obtain rfl : g = g' := Except.ok.inj (hparse.symm.trans hparse')
  have hheads := Glob.heads_of_parse hparse (falls_whole hs)
  constructor
  · intro hf
    obtain ⟨names, hnames, rfl⟩ := List.mem_map.mp hf
    have hfound := found_of_mem_files h.placed h.formed hs hparse hselected hnames
    obtain ⟨bytes, hbytes⟩ := hfound.exists_file
    rw [hfound.place_eq h.placed] at hout
    have hsame := h.sameOn hout (by rw [hbytes]; rfl)
    exact List.mem_map_of_mem (hsame.mem_files hheads hselected hselected' hnames)
  · intro hf
    obtain ⟨names, hnames, rfl⟩ := List.mem_map.mp hf
    have hfound := found_of_mem_files h.placed h.formed' hs hparse hselected' hnames
    obtain ⟨bytes, hbytes⟩ := hfound.exists_file
    rw [hfound.place_eq h.placed] at hout
    have hbefore := (h.keepsAt _ hout).file_iff.mp hbytes
    have hsame := h.sameOn hout (by rw [hbefore]; rfl)
    exact List.mem_map_of_mem (hsame.symm.mem_files hheads hselected' hselected hnames)

theorem mem_expand_iff (h : p.Undisturbed d d') (hpatterns : ∀ s ∈ patterns, Falls (namesIn s))
    (hfound : p.expand d patterns = .ok found) (hfound' : p.expand d' patterns = .ok found')
    (hout : ¬ p.output <+: p.place f) : f ∈ found ↔ f ∈ found' := by
  rw [expand_eq] at hfound hfound'
  obtain ⟨lists, hlists, hflat⟩ := exists_of_bind_ok hfound
  obtain ⟨lists', hlists', hflat'⟩ := exists_of_bind_ok hfound'
  obtain rfl : lists.flatten = found := Except.ok.inj hflat
  obtain rfl : lists'.flatten = found' := Except.ok.inj hflat'
  rw [mem_flatten_of_mapM hlists, mem_flatten_of_mapM hlists']
  refine exists_congr fun s => and_congr_right fun hs => ?_
  obtain ⟨files, -, hfiles⟩ := exists_ok_of_mapM hlists hs
  obtain ⟨files', -, hfiles'⟩ := exists_ok_of_mapM hlists' hs
  simp [hfiles, hfiles', h.mem_expandOne_iff (hpatterns s hs) hfiles hfiles' hout]

/-- The same files are gathered again, if no pattern leads to a path that is too long. -/
theorem gatherFrom_again (h : p.Undisturbed d d')
    (hpatterns : ∀ s ∈ patterns, Falls (namesIn s))
    (hignore : ∀ s ∈ p.settings.ignore, Falls (namesIn s))
    (hfiles : p.gatherFrom d patterns = .ok files) (hout : ∀ f ∈ files, p.place f ≠ p.output) :
    p.gatherFrom d' patterns = .ok files ∨
      p.gatherFrom d' patterns = .error (.disk .tooLong) := by
  obtain ⟨ignored, found, hignored, hfound, rfl⟩ := exists_of_gatherFrom hfiles
  cases hignored' : p.expand d' p.settings.ignore with
  | error e =>
    right
    rw [gatherFrom, hignored', expand_error hignored hignored']
    rfl
  | ok ignored' =>
    cases hfound' : p.expand d' patterns with
    | error e =>
      right
      rw [gatherFrom, hignored', hfound', expand_error hfound hfound']
      rfl
    | ok found' =>
      left
      rw [gatherFrom, hignored', hfound']
      refine congrArg Except.ok (mergeSort_eq_of_mem_iff ((nodup_eraseDups _).filter _)
        ((nodup_eraseDups _).filter _) fun f => ?_)
      have kept_iff : ∀ {found ignored : List String},
          f ∈ found.eraseDups.filter (fun f => !ignored.contains f && !p.isOutput f) ↔
            f ∈ found ∧ f ∉ ignored ∧ p.isOutput f = false := by
        simp [List.mem_filter, List.mem_eraseDups]
      rw [kept_iff, kept_iff]
      constructor
      · rintro ⟨hf', hnot', houtput⟩
        obtain ⟨names, hnames⟩ := found_of_mem_expand h.placed h.formed' hpatterns hfound' hf'
        -- The output directory is no file now, so no file is found in its place.
        have hne : p.place f ≠ p.output := by
          obtain ⟨bytes, hbytes⟩ := hnames.exists_file
          intro heq
          rw [← hnames.place_eq h.placed, heq, h.output] at hbytes
          cases hbytes
        have hf := not_prefix_place hne houtput
        rw [← h.mem_expand_iff hpatterns hfound hfound' hf] at hf'
        rw [← h.mem_expand_iff hignore hignored hignored' hf] at hnot'
        exact ⟨hf', hnot', houtput⟩
      · intro hkept
        have hmem : f ∈ (found.eraseDups.filter fun f =>
            !ignored.contains f && !p.isOutput f).mergeSort Text.Half.isLe := by
          rw [List.mem_mergeSort, kept_iff]
          exact hkept
        have hf := not_prefix_place (hout f hmem) hkept.2.2
        rw [← h.mem_expand_iff hpatterns hfound hfound' hf,
          ← h.mem_expand_iff hignore hignored hignored' hf]
        exact hkept

/-- A file that was found outside the output directory reads the same. -/
theorem read_eq (h : p.Undisturbed d d') (hf : p.Found d f names)
    (hout : ¬ p.output <+: p.place f) (cwd : Location) :
    d'.read cwd (p.path f) = d.read cwd (p.path f) := by
  obtain ⟨bytes, hbytes⟩ := hf.exists_file
  rw [hf.place_eq h.placed] at hout
  have hsame := h.sameOn hout (by rw [hbytes]; rfl)
  have honWay : Glob.OnWay p.base (names.foldl step p.base) names :=
    ⟨hf.falls, .inr (List.prefix_refl _)⟩
  rw [hf.eq, path_intercalate hf.parts, Disk.read, Disk.read, hsame.find honWay]

end Undisturbed

end Project

end Hyperstory
