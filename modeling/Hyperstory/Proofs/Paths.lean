import Hyperstory.Disk
import Mathlib.Data.List.Infix

/-!
Paths and the places they lead to. A place is at or below another if the other's names are the first
of its own. A path that never goes up leads below where it begins.
-/
namespace Hyperstory

namespace Location

variable {l m outer : Location} {names : List String} {name : String}

theorem isBelow_iff : l.isBelow outer = true ↔ outer <+: l ∧ l ≠ outer := by
  unfold isBelow
  rw [Bool.and_eq_true, List.isPrefixOf_iff_prefix, decide_eq_true_iff]
  constructor
  · rintro ⟨hpre, hlt⟩
    refine ⟨hpre, ?_⟩
    rintro rfl
    omega
  · rintro ⟨hpre, hne⟩
    have hle := hpre.length_le
    have hlength : outer.length ≠ l.length := fun h => hne (hpre.eq_of_length h).symm
    exact ⟨hpre, by omega⟩

theorem eq_or_isBelow_iff : l = outer ∨ l.isBelow outer = true ↔ outer <+: l := by
  rw [isBelow_iff]
  constructor
  · rintro (rfl | ⟨hpre, -⟩)
    · exact List.prefix_refl _
    · exact hpre
  · intro hpre
    by_cases heq : l = outer
    · exact .inl heq
    · exact .inr ⟨hpre, heq⟩

theorem step_of_ne (h : name ≠ "..") : l.step name = l ++ [name] := by
  simp [step, h]

@[simp]
theorem step_up : l.step ".." = l.dropLast := by
  simp [step]

theorem foldl_step (h : ".." ∉ names) : names.foldl step l = l ++ names := by
  induction names generalizing l with
  | nil => simp
  | cons name names ih =>
    have hne : name ≠ ".." := by
      rintro rfl
      exact h List.mem_cons_self
    have hrest : ".." ∉ names := fun hmem => h (List.mem_cons_of_mem _ hmem)
    rw [List.foldl_cons, step_of_ne hne, ih hrest, List.append_assoc]
    rfl

/-- The way to a place consists of names from where it begins and names on the way. -/
theorem mem_of_mem_foldl_step (h : name ∈ names.foldl step l) :
    name ∈ l ∨ (name ∈ names ∧ name ≠ "..") := by
  induction names generalizing l with
  | nil => exact .inl h
  | cons first names ih =>
    rcases ih h with hstep | ⟨hmem, hne⟩
    · by_cases hup : first = ".."
      · rw [hup, step_up] at hstep
        exact .inl (List.mem_of_mem_dropLast hstep)
      · rw [step_of_ne hup] at hstep
        rcases List.mem_append.mp hstep with hl | hfirst
        · exact .inl hl
        · obtain rfl := List.mem_singleton.mp hfirst
          exact .inr ⟨List.mem_cons_self, hup⟩
    · exact .inr ⟨List.mem_cons_of_mem _ hmem, hne⟩

end Location

namespace Path

variable {n s : String} {names : List String}

/-- A text that can stand between two slashes of a path. -/
structure IsPart (n : String) : Prop where
  ne_empty : n ≠ ""
  ne_point : n ≠ "."
  no_slash : '/' ∉ n.toList

/-- A text that something in a directory can be called. -/
structure IsName (n : String) : Prop extends IsPart n where
  ne_up : n ≠ ".."

instance (n : String) : Decidable (IsName n) :=
  decidable_of_iff ((n ≠ "" ∧ n ≠ "." ∧ '/' ∉ n.toList) ∧ n ≠ "..")
    ⟨fun ⟨⟨hempty, hpoint, hslash⟩, hup⟩ => ⟨⟨hempty, hpoint, hslash⟩, hup⟩,
      fun h => ⟨⟨h.ne_empty, h.ne_point, h.no_slash⟩, h.ne_up⟩⟩

theorem not_mem_of_mem_splitOn {α : Type} [BEq α] [LawfulBEq α] {a : α} {xs part : List α}
    (h : part ∈ xs.splitOn a) : a ∉ part := by
  induction xs generalizing part with
  | nil =>
    rw [List.splitOn_nil, List.mem_singleton] at h
    simp [h]
  | cons x xs ih =>
    rw [List.splitOn_cons_eq_if_modifyHead] at h
    split at h
    · rcases List.mem_cons.mp h with rfl | hmem
      · simp
      · exact ih hmem
    · rename_i hne
      cases hsplit : xs.splitOn a with
      | nil => exact absurd hsplit (List.splitOn_ne_nil a xs)
      | cons first rest =>
        rw [hsplit, List.modifyHead_cons] at h
        rcases List.mem_cons.mp h with rfl | hmem
        · have hfirst := ih (hsplit ▸ List.mem_cons_self)
          simp only [beq_iff_eq] at hne
          simp [hfirst, Ne.symm hne]
        · exact ih (hsplit ▸ List.mem_cons_of_mem _ hmem)

theorem isPart_of_mem_namesIn (h : n ∈ namesIn s) : IsPart n := by
  unfold namesIn at h
  obtain ⟨hmem, hkept⟩ := List.mem_filter.mp h
  obtain ⟨part, hpart, rfl⟩ := List.mem_map.mp hmem
  simp only [Bool.and_eq_true, bne_iff_ne] at hkept
  exact ⟨hkept.1, hkept.2, by simpa using not_mem_of_mem_splitOn hpart⟩

theorem namesIn_append (s t : String) : namesIn (s ++ "/" ++ t) = namesIn s ++ namesIn t := by
  have hsplit : ∀ xs ys : List Char,
      (xs ++ '/' :: ys).splitOn '/' = xs.splitOn '/' ++ ys.splitOn '/' := by
    intro xs ys
    induction xs with
    | nil => simp [List.splitOn_cons_eq_if_modifyHead]
    | cons x xs ih =>
      rw [List.cons_append, List.splitOn_cons_eq_if_modifyHead, List.splitOn_cons_eq_if_modifyHead,
        ih]
      split
      · rfl
      · cases hxs : xs.splitOn '/' with
        | nil => exact absurd hxs (List.splitOn_ne_nil _ _)
        | cons first rest => rfl
  have hchars : (s ++ "/" ++ t).toList = s.toList ++ '/' :: t.toList := by
    simp
  rw [namesIn, namesIn, namesIn, hchars, hsplit, List.map_append, List.filter_append]

/-- Names with slashes between them are read back. -/
theorem namesIn_intercalate (h : ∀ n ∈ names, IsPart n) :
    namesIn ("/".intercalate names) = names := by
  have hkept : names.filter (fun n => n != "" && n != ".") = names := by
    apply List.filter_eq_self.mpr
    intro n hn
    simp [(h n hn).ne_empty, (h n hn).ne_point]
  cases names with
  | nil => simp [namesIn]
  | cons first rest =>
    have hsplit : ("/".intercalate (first :: rest)).toList.splitOn '/' =
        (first :: rest).map String.toList := by
      rw [String.toList_intercalate]
      apply List.splitOn_intercalate
      · intro part hpart
        obtain ⟨n, hn, rfl⟩ := List.mem_map.mp hpart
        exact (h n hn).no_slash
      · simp
    have hback : ((first :: rest).map String.toList).map String.ofList = first :: rest := by
      simp [Function.comp_def]
    rw [namesIn, hsplit, hback, hkept]

theorem ofString_intercalate (h : ∀ n ∈ names, IsPart n) :
    ofString ("/".intercalate names) = ⟨.here, names⟩ := by
  have hroot : PathRoot.ofChars ("/".intercalate names).toList = .here := by
    cases names with
    | nil => rfl
    | cons first rest =>
      have hfirst := h first List.mem_cons_self
      cases hchars : first.toList with
      | nil => exact absurd (String.toList_eq_nil_iff.mp hchars) hfirst.ne_empty
      | cons c cs =>
        have hc : c ≠ '/' := by
          rintro rfl
          exact hfirst.no_slash (by simp [hchars])
        obtain ⟨more, hmore⟩ : ∃ more, ("/".intercalate (first :: rest)).toList = c :: more := by
          rw [String.toList_intercalate]
          cases rest <;> simp [hchars]
        rw [hmore]
        unfold PathRoot.ofChars
        split <;> simp_all
  rw [ofString, hroot, namesIn_intercalate h]

/-- A path that begins at the root leads to the same place from everywhere. -/
theorem resolve_of_rooted {p : Path} (h : p.root ≠ .here) (cwd : Location) :
    p.resolve cwd = p.names.foldl Location.step [] := by
  simp [resolve, start, h]

@[simp]
theorem start_ofLocation (cwd l : Location) : (ofLocation l).start cwd = [] := by
  simp [start, ofLocation]

theorem join_of_here {p q : Path} (h : q.root = .here) : p.join q = ⟨p.root, p.names ++ q.names⟩ := by
  simp [join, h]

theorem join_of_rooted {p q : Path} (h : q.root ≠ .here) : p.join q = q := by
  simp [join, h]

/-- A path can be followed: its names can be names, and nothing of it is too long. -/
structure Fits (p : Path) : Prop where
  nameable : p.trouble? = none
  short : p.text.utf8ByteSize ≤ maxSize
  names_short : ∀ n ∈ p.names, n.utf8ByteSize ≤ maxNameSize

theorem size_text_le {root : PathRoot} {pre : List String} (h : pre <+: names) (hpre : pre ≠ []) :
    (Path.mk root pre).text.utf8ByteSize ≤ (Path.mk root names).text.utf8ByteSize := by
  obtain ⟨rest, rfl⟩ := h
  have htext : ∀ {names : List String}, names ≠ [] →
      (Path.mk root names).text = root.text ++ "/".intercalate names := by
    intro names hne
    simp [Path.text, hne]
  rw [htext hpre, htext (by simp [hpre]), String.utf8ByteSize_append, String.utf8ByteSize_append]
  by_cases hrest : rest = []
  · rw [hrest, List.append_nil]
  · rw [String.intercalate_append_of_ne_nil hpre hrest, String.utf8ByteSize_append,
      String.utf8ByteSize_append]
    omega

/-- The way to what a path leads to can be followed too. -/
theorem Fits.shorten {root : PathRoot} {pre : List String} (h : Fits ⟨root, names⟩)
    (hpre : pre <+: names) : Fits ⟨root, pre⟩ := by
  refine ⟨?_, ?_, fun n hn => h.names_short n (hpre.subset hn)⟩
  · have hnone := h.nameable
    simp only [trouble?, List.findSome?_eq_none_iff] at hnone ⊢
    exact fun n hn => hnone n (hpre.subset hn)
  · by_cases hnil : pre = []
    · rw [hnil]
      cases root <;> decide
    · exact (size_text_le hpre hnil).trans h.short

end Path

end Hyperstory
