import Hyperstory.Proofs.Obstacles
import Hyperstory.Proofs.YamlValues

/-!
What a project file may hold. A project is loaded exactly if its file is empty or gives allowed values
to settings only; each setting then is what the file gives, or its default. Otherwise the error names
every key that is at fault, and no other.
-/
namespace Hyperstory

inductive SettingValue where
  | text (s : String)
  | patterns (ss : List String)
  deriving DecidableEq, Repr

/-- A node gives a setting a value that its rule allows; a single pattern stands for a list of one. -/
inductive SettingRule.Gives (d : Yaml.Data) (i : Yaml.NodeId) : SettingRule → SettingValue → Prop
  | text {s : String} (h : d.IsText i s) : Gives d i .text (.text s)
  | nonEmptyText {s : String} (h : d.IsText i s) (hs : s ≠ "") : Gives d i .nonEmptyText (.text s)
  | pattern {s : String} (h : d.IsText i s) : Gives d i .patterns (.patterns [s])
  | patterns {ss : List String} (h : d.IsTexts i ss) : Gives d i .patterns (.patterns ss)
  | nonEmptyPattern {s : String} (h : d.IsText i s) (hs : s ≠ "") :
      Gives d i .nonEmptyPatterns (.patterns [s])
  | nonEmptyPatterns {ss : List String} (h : d.IsTexts i ss) (hss : ss ≠ []) :
      Gives d i .nonEmptyPatterns (.patterns ss)

/-- A text stands in another one. -/
def StandsIn (s t : String) : Prop := s.toList <:+: t.toList

namespace StandsIn

variable {s t sep : String} {l : List String}

theorem trans {u : String} (h : StandsIn s t) (h' : StandsIn t u) : StandsIn s u :=
  List.IsInfix.trans h h'

theorem append_left (h : StandsIn s t) (rest : String) : StandsIn s (t ++ rest) := by
  rw [StandsIn, String.toList_append]
  exact List.IsInfix.trans h (List.prefix_append _ _).isInfix

theorem append_right (h : StandsIn s t) (before : String) : StandsIn s (before ++ t) := by
  rw [StandsIn, String.toList_append]
  exact List.IsInfix.trans h (List.suffix_append _ _).isInfix

theorem intercalate (h : s ∈ l) : StandsIn s (sep.intercalate l) := by
  rw [StandsIn, String.toList_intercalate]
  induction l with
  | nil => cases h
  | cons first rest ih =>
    rcases List.mem_cons.mp h with rfl | h
    · cases rest with
      | nil => simp
      | cons second rest =>
        rw [List.map_cons, List.map_cons, List.intercalate_cons_cons, List.append_assoc]
        exact (List.prefix_append _ _).isInfix
    · cases rest with
      | nil => cases h
      | cons second rest =>
        rw [List.map_cons, List.map_cons, List.intercalate_cons_cons, ← List.map_cons]
        exact List.IsInfix.trans (ih h) (List.suffix_append _ _).isInfix

end StandsIn

namespace Violation

/-- What a violation names: the keys at fault, as they are shown. -/
def names : Violation → List String
  | notObject _ => []
  | unknownSettings keys => keys
  | notText s _ | emptyText s | notPatterns s _ => ["'" ++ s ++ "'"]

theorem standsIn_message {v : Violation} {t : String} (h : t ∈ v.names) :
    StandsIn t v.message := by
  have hquoted : ∀ s rest : String, StandsIn ("'" ++ s ++ "'") ("'" ++ s ++ ("'" ++ rest)) := by
    intro s rest
    rw [← String.append_assoc]
    exact StandsIn.append_left List.infix_rfl rest
  cases v with
  | notObject value => cases h
  | unknownSettings keys =>
    exact (((StandsIn.intercalate h).append_right _).append_left _).append_left _
  | notText s value =>
    obtain rfl := List.mem_singleton.mp h
    exact ((hquoted s ": ").append_left value).append_left _
  | emptyText s =>
    obtain rfl := List.mem_singleton.mp h
    exact hquoted s ": '' should be non-empty"
  | notPatterns s value =>
    obtain rfl := List.mem_singleton.mp h
    exact ((hquoted s ": ").append_left value).append_left _

end Violation

theorem ProjectError.standsIn_message {file : Path} {problems : List Violation} {t : String}
    (h : t ∈ problems.flatMap Violation.names) :
    StandsIn t (ProjectError.invalid file problems).message := by
  obtain ⟨v, hv, ht⟩ := List.mem_flatMap.mp h
  have hmessage : v.message ∈ problems.map Violation.message := List.mem_map_of_mem hv
  exact (v.standsIn_message ht).trans ((StandsIn.intercalate hmessage).append_right _)

namespace Settings

open Yaml

variable {d : Data} {i : NodeId} {rule : SettingRule} {entries : List (Atom × NodeId)}
  {problems : List Violation} {e : Defect} {v : SettingValue}

def value? (s : Settings) : String → Option SettingValue
  | "title" => some (.text s.title)
  | "author" => some (.text s.author)
  | "description" => some (.text s.description)
  | "website" => some (.text s.website)
  | "markdown" => some (.patterns s.markdown)
  | "javascript" => some (.patterns s.javascript)
  | "assets" => some (.patterns s.assets)
  | "ignore" => some (.patterns s.ignore)
  | "template" => some (.text s.template)
  | "output" => some (.text s.output)
  | "start" => some (.text s.start)
  | _ => none

/-- An entry is at fault: its key is no setting, or its value is none that the setting may have. -/
def Faulty (d : Data) (entry : Atom × NodeId) : Prop :=
  ∀ r ∈ rules, entry.1 = .text r.1 → ∀ v, ¬ r.2.Gives d entry.2 v

/-- A document sets the settings: it is empty, or none of its entries is at fault. What it does not
give keeps its default. -/
inductive SetBy (s : Settings) : Option Data → Prop
  | empty (hs : s = {}) : SetBy s none
  | null {d : Data} (hroot : d.value d.root = .atom .null) (hs : s = {}) : SetBy s (some d)
  | entries {d : Data} {entries : List (Atom × NodeId)} (hroot : d.value d.root = .mapping entries)
      (hgiven : ∀ entry ∈ entries, ∃ r ∈ rules, entry.1 = .text r.1 ∧
        ∃ v, r.2.Gives d entry.2 v ∧ s.value? r.1 = some v)
      (hdefault : ∀ r ∈ rules, (∀ entry ∈ entries, entry.1 ≠ .text r.1) →
        s.value? r.1 = ({} : Settings).value? r.1) : SetBy s (some d)

/-- Violations explain what is wrong with a document: its root is shown if it has no entries, and
otherwise just the keys of the entries at fault are. -/
inductive Explained (d : Data) (problems : List Violation) : Prop
  | root {t : String} (hroot : ∀ entries, d.value d.root ≠ .mapping entries)
      (hshown : d.shown d.root = .ok t) (h : problems = [.notObject t])
  | entries {entries : List (Atom × NodeId)} (hroot : d.value d.root = .mapping entries)
      (hnames : ∀ v ∈ problems, v.names ≠ [])
      (hevery : ∀ entry ∈ entries, Faulty d entry →
        ∃ t ∈ problems.flatMap Violation.names, entry.1.shown = .ok t)
      (honly : ∀ t ∈ problems.flatMap Violation.names,
        ∃ entry ∈ entries, Faulty d entry ∧ entry.1.shown = .ok t)

/-! ### Rules -/

theorem patterns?_eq_some_iff {ss : List String} : patterns? d i = some ss ↔
    (∃ s, d.IsText i s ∧ ss = [s]) ∨ d.IsTexts i ss := by
  unfold patterns?
  cases htext : d.text? i with
  | none =>
    rw [Data.texts?_eq_some_iff]
    refine ⟨.inr, fun h => h.resolve_left ?_⟩
    rintro ⟨s, hs, -⟩
    rw [Data.text?_eq_some_iff.mpr hs] at htext
    cases htext
  | some s =>
    have hs : d.IsText i s := Data.text?_eq_some_iff.mp htext
    constructor
    · intro h
      exact .inl ⟨s, hs, (Option.some.inj h).symm⟩
    · rintro (⟨s', hs', rfl⟩ | hss)
      · rw [Data.text?_eq_some_iff.mpr hs'] at htext
        obtain rfl := Option.some.inj htext
        rfl
      · exact absurd hss hs.not_isTexts

theorem gives_text_iff : SettingRule.text.Gives d i v ↔ ∃ s, d.text? i = some s ∧ v = .text s := by
  simp only [Data.text?_eq_some_iff]
  constructor
  · rintro ⟨h⟩
    exact ⟨_, h, rfl⟩
  · rintro ⟨s, h, rfl⟩
    exact .text h

theorem gives_nonEmptyText_iff : SettingRule.nonEmptyText.Gives d i v ↔
    ∃ s, d.text? i = some s ∧ s ≠ "" ∧ v = .text s := by
  simp only [Data.text?_eq_some_iff]
  constructor
  · rintro (_ | ⟨h, hs⟩)
    exact ⟨_, h, hs, rfl⟩
  · rintro ⟨s, h, hs, rfl⟩
    exact .nonEmptyText h hs

theorem gives_patterns_iff : SettingRule.patterns.Gives d i v ↔
    ∃ ss, patterns? d i = some ss ∧ v = .patterns ss := by
  simp only [patterns?_eq_some_iff]
  constructor
  · intro h
    cases h with
    | pattern h => exact ⟨_, .inl ⟨_, h, rfl⟩, rfl⟩
    | patterns h => exact ⟨_, .inr h, rfl⟩
  · rintro ⟨ss, ⟨s, h, rfl⟩ | h, rfl⟩
    · exact .pattern h
    · exact .patterns h

theorem gives_nonEmptyPatterns_iff : SettingRule.nonEmptyPatterns.Gives d i v ↔
    ∃ ss, patterns? d i = some ss ∧ ss ≠ [] ∧ d.text? i ≠ some "" ∧ v = .patterns ss := by
  simp only [patterns?_eq_some_iff, ne_eq, Data.text?_eq_some_iff]
  constructor
  · intro h
    cases h with
    | nonEmptyPattern h hs =>
      refine ⟨_, .inl ⟨_, h, rfl⟩, List.cons_ne_nil _ _, fun hempty => hs ?_, rfl⟩
      exact h.unique hempty
    | nonEmptyPatterns h hss => exact ⟨_, .inr h, hss, fun hempty => hempty.not_isTexts h, rfl⟩
  · rintro ⟨ss, ⟨s, h, rfl⟩ | h, hss, hempty, rfl⟩
    · refine .nonEmptyPattern h ?_
      rintro rfl
      exact hempty h
    · exact .nonEmptyPatterns h hss

theorem admits_iff : admits d i rule = true ↔ ∃ v, rule.Gives d i v := by
  cases rule with
  | text => simp [admits, gives_text_iff, Option.isSome_iff_exists]
  | nonEmptyText =>
    cases htext : d.text? i <;> simp [admits, gives_nonEmptyText_iff, htext]
  | patterns => simp [admits, gives_patterns_iff, Option.isSome_iff_exists]
  | nonEmptyPatterns =>
    cases hss : patterns? d i <;> simp [admits, gives_nonEmptyPatterns_iff, hss, and_comm]

/-! ### Violations -/

/-- The value that a document gives to a setting is not allowed. -/
def isViolated (d : Data) (r : String × SettingRule) : Bool :=
  (d.entry? r.1).any fun i => !admits d i r.2

theorem isViolated_iff {r : String × SettingRule} : isViolated d r = true ↔
    ∃ i, d.entry? r.1 = some i ∧ ∀ v, ¬ r.2.Gives d i v := by
  have hadmits : ∀ i, admits d i r.2 = false ↔ ∀ v, ¬ r.2.Gives d i v := by
    intro i
    rw [Bool.eq_false_iff, ne_eq, admits_iff, not_exists]
  cases hentry : d.entry? r.1 <;> simp [isViolated, hentry, hadmits]

theorem names_violation {name shown : String} :
    (violation d name i shown rule).names = ["'" ++ name ++ "'"] := by
  unfold violation
  split
  · rfl
  · split <;> rfl
  · rfl
  · rfl

theorem map_names_check {rs : List (String × SettingRule)} (h : check d rs = .ok problems) :
    problems.map Violation.names =
      (rs.filter (isViolated d)).map fun r => ["'" ++ r.1 ++ "'"] := by
  induction rs generalizing problems with
  | nil =>
    cases h
    rfl
  | cons r rest ih =>
    obtain ⟨name, rule⟩ := r
    unfold check at h
    rw [List.filter_cons]
    cases hentry : d.entry? name with
    | none =>
      simp only [hentry] at h
      simpa [isViolated, hentry] using ih h
    | some i =>
      simp only [hentry] at h
      split at h
      · next hadmits => simpa [isViolated, hentry, hadmits] using ih h
      · next hadmits =>
        obtain ⟨shown, -, h⟩ := exists_of_bind_ok h
        obtain ⟨more, hmore, h⟩ := exists_of_bind_ok h
        cases h
        have hviolated : isViolated d (name, rule) = true := by simp [isViolated, hentry, hadmits]
        rw [List.map_cons, names_violation, ih hmore, if_pos hviolated, List.map_cons]

theorem check_error {rs : List (String × SettingRule)} (h : check d rs = .error e) :
    e = .number ∧ ∃ n, d.HasInt n ∧ Atom.Endless n := by
  induction rs with
  | nil => cases h
  | cons r rest ih =>
    unfold check at h
    split at h
    · exact ih h
    · split at h
      · exact ih h
      · rcases exists_of_bind_error h with hshown | ⟨shown, -, h⟩
        · exact Data.shownIn_error hshown
        · rcases exists_of_bind_error h with hmore | ⟨more, -, h⟩
          · exact ih hmore
          · cases h

theorem mem_unknownKeys_iff {k : Atom} : k ∈ unknownKeys entries ↔
    (∃ j, (k, j) ∈ entries) ∧ ∀ r ∈ rules, k ≠ .text r.1 := by
  simp only [unknownKeys, List.mem_filter, List.mem_map, Prod.exists, exists_and_right,
    exists_eq_right, Bool.not_eq_true', List.any_eq_false, Atom.same_text_iff, ne_eq]

theorem shown_of_shownKeys {keys : List Atom} {texts : List String}
    (h : shownKeys keys = .ok texts) : (∀ k ∈ keys, ∃ t ∈ texts, k.shown = .ok t) ∧
      ∀ t ∈ texts, ∃ k ∈ keys, k.shown = .ok t := by
  obtain ⟨found, hfound, h⟩ := exists_of_bind_ok h
  cases h
  have hshown : ∀ {k : Atom} {f : List Nat × String},
      (do let order ← k.sortText; let shown ← k.shown; .ok (Text.Half.codes order, shown)) =
        (.ok f : Read _) → k.shown = .ok f.2 := by
    intro k f h
    obtain ⟨order, -, h⟩ := exists_of_bind_ok h
    obtain ⟨shown, hshown, h⟩ := exists_of_bind_ok h
    cases h
    exact hshown
  constructor
  · intro k hk
    obtain ⟨f, hf, heq⟩ := exists_ok_of_mapM hfound hk
    exact ⟨f.2, List.mem_map_of_mem (List.mem_mergeSort.mpr hf), hshown heq⟩
  · intro t ht
    obtain ⟨f, hf, rfl⟩ := List.mem_map.mp ht
    obtain ⟨k, hk, heq⟩ := exists_of_mem_mapM hfound (List.mem_mergeSort.mp hf)
    exact ⟨k, hk, hshown heq⟩

theorem shownKeys_error {keys : List Atom} (h : shownKeys keys = .error e) :
    e = .number ∧ ∃ n, .int n ∈ keys ∧ Atom.Endless n := by
  rcases exists_of_bind_error h with h | ⟨_, -, h⟩
  · obtain ⟨k, hk, h⟩ := exists_of_mapM_error h
    have herror : e = .number ∧ ∃ n, k = .int n ∧ Atom.Endless n := by
      rcases exists_of_bind_error h with h | ⟨order, -, h⟩
      · exact Atom.sortText_error h
      · rcases exists_of_bind_error h with h | ⟨shown, -, h⟩
        · exact Atom.shown_error h
        · cases h
    obtain ⟨he, n, rfl, hn⟩ := herror
    exact ⟨he, n, hk, hn⟩
  · cases h

theorem shown_setting {r : String × SettingRule} (h : r ∈ rules) :
    (Atom.text r.1).shown = .ok ("'" ++ r.1 ++ "'") := by
  have hall : ∀ r ∈ rules, Text.quotedBy Text.Half.code r.1 = "'" ++ r.1 ++ "'" := by
    decide +kernel
  exact congrArg Except.ok (hall r h)

theorem eq_of_mem_rules {r r' : String × SettingRule} (h : r ∈ rules) (h' : r' ∈ rules)
    (hname : r.1 = r'.1) : r = r' := by
  have hall : ∀ r ∈ rules, ∀ r' ∈ rules, r.1 = r'.1 → r = r' := by decide +kernel
  exact hall r h r' h' hname

/-- An entry is at fault if its key is unknown, or if the setting it names is violated. -/
theorem faulty_iff (hroot : d.value d.root = .mapping entries) (hdistinct : DistinctKeys entries)
    {entry : Atom × NodeId} (hentry : entry ∈ entries) : Faulty d entry ↔
      entry.1 ∈ unknownKeys entries ∨ ∃ r ∈ rules, entry.1 = .text r.1 ∧ isViolated d r := by
  by_cases hknown : ∃ r ∈ rules, entry.1 = .text r.1
  · obtain ⟨r, hr, hkey⟩ := hknown
    have hentry? : d.entry? r.1 = some entry.2 := by
      rw [Data.entry?_eq_some_iff hroot hdistinct, ← hkey]
      exact hentry
    have hviolated : isViolated d r = true ↔ ∀ v, ¬ r.2.Gives d entry.2 v := by
      simp [isViolated_iff, hentry?]
    constructor
    · intro hfaulty
      exact .inr ⟨r, hr, hkey, hviolated.mpr (hfaulty r hr hkey)⟩
    · rintro (hunknown | ⟨r', hr', hkey', h⟩) r'' hr'' hkey''
      · exact absurd hkey ((mem_unknownKeys_iff.mp hunknown).2 r hr)
      · obtain rfl : r = r' := eq_of_mem_rules hr hr' (Atom.text.inj (hkey.symm.trans hkey'))
        obtain rfl : r = r'' := eq_of_mem_rules hr hr'' (Atom.text.inj (hkey.symm.trans hkey''))
        exact hviolated.mp h
  · have hunknown : ∀ r ∈ rules, entry.1 ≠ .text r.1 := fun r hr hkey => hknown ⟨r, hr, hkey⟩
    constructor
    · intro _
      exact .inl (mem_unknownKeys_iff.mpr ⟨⟨entry.2, hentry⟩, hunknown⟩)
    · intro _ r hr hkey
      exact absurd hkey (hunknown r hr)

/-- The violations name the unknown keys and the settings that are violated. -/
theorem names_of_violations (hroot : d.value d.root = .mapping entries)
    (h : violations d = .ok problems) : (∀ v ∈ problems, v.names ≠ []) ∧
      ∃ unknown, shownKeys (unknownKeys entries) = .ok unknown ∧
        ∀ t, t ∈ problems.flatMap Violation.names ↔
          t ∈ unknown ∨ ∃ r ∈ rules, isViolated d r ∧ t = "'" ++ r.1 ++ "'" := by
  unfold violations at h
  simp only [hroot] at h
  obtain ⟨unknown, hunknown, h⟩ := exists_of_bind_ok h
  obtain ⟨others, hothers, h⟩ := exists_of_bind_ok h
  cases h
  have hnames := map_names_check hothers
  refine ⟨fun v hv => ?_, unknown, hunknown, fun t => ?_⟩
  · rcases List.mem_append.mp hv with hv | hv
    · cases unknown with
      | nil => cases hv
      | cons first rest =>
        obtain rfl := List.mem_singleton.mp hv
        exact List.cons_ne_nil first rest
    · have hmem : v.names ∈ others.map Violation.names := List.mem_map_of_mem hv
      rw [hnames] at hmem
      obtain ⟨r, -, hr⟩ := List.mem_map.mp hmem
      exact hr ▸ List.cons_ne_nil _ _
  · have hfirst : (if unknown.isEmpty then [] else [.unknownSettings unknown]).flatMap
        Violation.names = unknown := by
      cases unknown <;> simp [Violation.names]
    have hrest : t ∈ others.flatMap Violation.names ↔
        ∃ r ∈ rules, isViolated d r ∧ t = "'" ++ r.1 ++ "'" := by
      rw [List.flatMap_def, hnames]
      simp [and_assoc]
    rw [List.flatMap_append, List.mem_append, hfirst, hrest]

theorem explained_of_violations (h : violations d = .ok problems)
    (hdistinct : ∀ entries, d.value d.root = .mapping entries → DistinctKeys entries) :
    Explained d problems := by
  by_cases hmapping : ∃ entries, d.value d.root = .mapping entries
  · obtain ⟨entries, hroot⟩ := hmapping
    obtain ⟨hnames, unknown, hunknown, hflat⟩ := names_of_violations hroot h
    obtain ⟨hall, honly⟩ := shown_of_shownKeys hunknown
    have hentries := hdistinct entries hroot
    refine .entries hroot hnames ?_ ?_
    · intro entry hentry hfaulty
      rcases (faulty_iff hroot hentries hentry).mp hfaulty with hkey | ⟨r, hr, hkey, hviolated⟩
      · obtain ⟨t, ht, hshown⟩ := hall entry.1 hkey
        exact ⟨t, (hflat t).mpr (.inl ht), hshown⟩
      · exact ⟨_, (hflat _).mpr (.inr ⟨r, hr, hviolated, rfl⟩), hkey ▸ shown_setting hr⟩
    · intro t ht
      rcases (hflat t).mp ht with ht | ⟨r, hr, hviolated, rfl⟩
      · obtain ⟨k, hk, hshown⟩ := honly t ht
        obtain ⟨⟨j, hj⟩, -⟩ := mem_unknownKeys_iff.mp hk
        exact ⟨(k, j), hj, (faulty_iff hroot hentries hj).mpr (.inl hk), hshown⟩
      · obtain ⟨j, hj, -⟩ := isViolated_iff.mp hviolated
        have hmem := (Data.entry?_eq_some_iff hroot hentries).mp hj
        have hfaulty := (faulty_iff hroot hentries hmem).mpr (.inr ⟨r, hr, rfl, hviolated⟩)
        exact ⟨_, hmem, hfaulty, shown_setting hr⟩
  · have hroot : ∀ entries, d.value d.root ≠ .mapping entries := not_exists.mp hmapping
    unfold violations at h
    split at h
    · next entries hentries => exact absurd hentries (hroot entries)
    · obtain ⟨t, ht, h⟩ := exists_of_bind_ok h
      cases h
      exact .root hroot ht rfl

theorem violations_error (h : violations d = .error e) :
    e = .number ∧ ∃ n, d.HasInt n ∧ Atom.Endless n := by
  unfold violations at h
  split at h
  · next entries hroot =>
    rcases exists_of_bind_error h with h | ⟨unknown, -, h⟩
    · obtain ⟨he, n, hmem, hn⟩ := shownKeys_error h
      obtain ⟨⟨j, hj⟩, -⟩ := mem_unknownKeys_iff.mp hmem
      exact ⟨he, n, .key hroot hj, hn⟩
    · rcases exists_of_bind_error h with h | ⟨others, -, h⟩
      · exact check_error h
      · cases h
  · rcases exists_of_bind_error h with h | ⟨t, -, h⟩
    · exact Data.shownIn_error h
    · cases h

/-! ### Settings -/

theorem eq_of_value? {s s' : Settings} (h : ∀ r ∈ rules, s.value? r.1 = s'.value? r.1) : s = s' := by
  cases s
  cases s'
  simpa [rules, value?, and_comm, and_left_comm, and_assoc] using h

/-- The value of a setting, if its default is given. -/
def given (d : Data) (name : String) : SettingValue → SettingValue
  | .text s => .text (textOr d name s)
  | .patterns ss => .patterns (patternsOr d name ss)

theorem value?_ofValues (name : String) :
    (ofValues d).value? name = (({} : Settings).value? name).map (given d name) := by
  unfold value?
  split <;> rfl

/-- The default of a setting is of the kind that its rule asks for. -/
theorem exists_default {r : String × SettingRule} (h : r ∈ rules) :
    (r.2 = .text ∨ r.2 = .nonEmptyText) ∧ (∃ s, ({} : Settings).value? r.1 = some (.text s)) ∨
      (r.2 = .patterns ∨ r.2 = .nonEmptyPatterns) ∧
        ∃ ss, ({} : Settings).value? r.1 = some (.patterns ss) := by
  simp only [rules, List.mem_cons, List.not_mem_nil, or_false] at h
  rcases h with rfl | rfl | rfl | rfl | rfl | rfl | rfl | rfl | rfl | rfl | rfl <;> simp [value?]

theorem value?_of_gives {r : String × SettingRule} (hr : r ∈ rules) (hi : d.entry? r.1 = some i)
    (hv : r.2.Gives d i v) : (ofValues d).value? r.1 = some v := by
  obtain ⟨name, rule⟩ := r
  rw [value?_ofValues]
  rcases exists_default hr with ⟨rfl | rfl, s, hs⟩ | ⟨rfl | rfl, ss, hss⟩
  · obtain ⟨t, ht, rfl⟩ := gives_text_iff.mp hv
    simp [hs, given, textOr, hi, ht]
  · obtain ⟨t, ht, -, rfl⟩ := gives_nonEmptyText_iff.mp hv
    simp [hs, given, textOr, hi, ht]
  · obtain ⟨ts, hts, rfl⟩ := gives_patterns_iff.mp hv
    simp [hss, given, patternsOr, hi, hts]
  · obtain ⟨ts, hts, -, -, rfl⟩ := gives_nonEmptyPatterns_iff.mp hv
    simp [hss, given, patternsOr, hi, hts]

theorem value?_of_absent {name : String} (h : d.entry? name = none) :
    (ofValues d).value? name = ({} : Settings).value? name := by
  rw [value?_ofValues]
  cases ({} : Settings).value? name with
  | none => rfl
  | some v => cases v <;> simp [given, textOr, patternsOr, h]

theorem check_eq_nil {rs : List (String × SettingRule)} (h : ∀ r ∈ rs, isViolated d r = false) :
    check d rs = .ok [] := by
  induction rs with
  | nil => rfl
  | cons r rest ih =>
    obtain ⟨name, rule⟩ := r
    obtain ⟨hfirst, hrest⟩ := List.forall_mem_cons.mp h
    unfold check
    cases hentry : d.entry? name with
    | none => exact ih hrest
    | some i =>
      have hadmits : admits d i rule = true := by simpa [isViolated, hentry] using hfirst
      simp only [hadmits, if_true]
      exact ih hrest

/-- Where no entry is at fault, the values of the entries are the settings. -/
theorem setBy_ofValues (hroot : d.value d.root = .mapping entries)
    (hdistinct : DistinctKeys entries) (h : ∀ entry ∈ entries, ¬ Faulty d entry) :
    SetBy (ofValues d) (some d) := by
  refine .entries hroot (fun entry hentry => ?_) fun r hr habsent => ?_
  · have hallowed := h entry hentry
    simp only [Faulty, not_forall, not_not] at hallowed
    obtain ⟨r, hr, hkey, v, hv⟩ := hallowed
    have hentry? : d.entry? r.1 = some entry.2 := by
      rw [Data.entry?_eq_some_iff hroot hdistinct, ← hkey]
      exact hentry
    exact ⟨r, hr, hkey, v, hv, value?_of_gives hr hentry? hv⟩
  · refine value?_of_absent (Option.eq_none_iff_forall_not_mem.mpr fun j hj => ?_)
    have hmem := (Data.entry?_eq_some_iff hroot hdistinct).mp hj
    exact habsent _ hmem rfl

theorem SetBy.not_faulty {s : Settings} (h : SetBy s (some d))
    (hroot : d.value d.root = .mapping entries) : ∀ entry ∈ entries, ¬ Faulty d entry := by
  intro entry hentry hfaulty
  cases h with
  | null hnull => cases hroot.symm.trans hnull
  | entries hroot' hgiven =>
    obtain rfl := Value.mapping.inj (hroot.symm.trans hroot')
    obtain ⟨r, hr, hkey, v, hv, -⟩ := hgiven entry hentry
    exact hfaulty r hr hkey v hv

theorem SetBy.eq_ofValues {s : Settings} (h : SetBy s (some d))
    (hroot : d.value d.root = .mapping entries) (hdistinct : DistinctKeys entries) :
    s = ofValues d := by
  cases h with
  | null hnull => cases hroot.symm.trans hnull
  | entries hroot' hgiven hdefault =>
    obtain rfl := Value.mapping.inj (hroot.symm.trans hroot')
    refine eq_of_value? fun r hr => ?_
    cases hentry? : d.entry? r.1 with
    | none =>
      rw [value?_of_absent hentry?]
      refine hdefault r hr fun entry hentry hkey => ?_
      have hmem : (Atom.text r.1, entry.2) ∈ entries := hkey ▸ hentry
      rw [(Data.entry?_eq_some_iff hroot hdistinct).mpr hmem] at hentry?
      cases hentry?
    | some i =>
      have hmem := (Data.entry?_eq_some_iff hroot hdistinct).mp hentry?
      obtain ⟨r', hr', hkey, v, hv, hs⟩ := hgiven _ hmem
      obtain rfl : r = r' := eq_of_mem_rules hr hr' (Atom.text.inj hkey)
      rw [hs, value?_of_gives hr hentry? hv]

/-- Nothing is wrong with a mapping if none of its entries is at fault. -/
theorem violations_eq_nil (hroot : d.value d.root = .mapping entries)
    (hdistinct : DistinctKeys entries) (h : ∀ entry ∈ entries, ¬ Faulty d entry) :
    violations d = .ok [] := by
  have hunknown : unknownKeys entries = [] := by
    refine List.eq_nil_iff_forall_not_mem.mpr fun k hk => ?_
    obtain ⟨⟨j, hj⟩, -⟩ := mem_unknownKeys_iff.mp hk
    exact h _ hj ((faulty_iff hroot hdistinct hj).mpr (.inl hk))
  have hcheck : check d rules = .ok [] := by
    refine check_eq_nil fun r hr => Bool.eq_false_iff.mpr fun hviolated => ?_
    obtain ⟨j, hj, -⟩ := isViolated_iff.mp hviolated
    have hmem := (Data.entry?_eq_some_iff hroot hdistinct).mp hj
    exact h _ hmem ((faulty_iff hroot hdistinct hmem).mpr (.inr ⟨r, hr, rfl, hviolated⟩))
  have hnone : shownKeys [] = .ok [] := by
    unfold shownKeys
    rw [List.mapM_nil]
    exact congrArg Except.ok (congrArg _ List.mergeSort_nil)
  unfold violations
  simp only [hroot, hunknown, hcheck, hnone]
  rfl

theorem ofData_of_null (h : d.value d.root = .atom .null) : ofData (some d) = .ok (.ok {}) := by
  unfold ofData
  simp only [h]

theorem ofData_of_ne_null (h : d.value d.root ≠ .atom .null) : ofData (some d) =
    violations d >>= fun problems =>
      .ok (if problems = [] then .ok (ofValues d) else .error problems) := by
  unfold ofData
  dsimp only
  split
  · next hnull => exact absurd hnull h
  · rcases violations d with e | ⟨_ | _⟩ <;> rfl

/-- The settings of a document are those that it sets. -/
theorem ofData_eq_ok_iff {data : Option Data} {s : Settings}
    (hdistinct : ∀ d entries, data = some d → d.value d.root = .mapping entries →
      DistinctKeys entries) :
    ofData data = .ok (.ok s) ↔ SetBy s data := by
  constructor
  · intro h
    rcases data with _ | d
    · cases h
      exact .empty rfl
    by_cases hnull : d.value d.root = .atom .null
    · rw [ofData_of_null hnull] at h
      cases h
      exact .null hnull rfl
    rw [ofData_of_ne_null hnull] at h
    obtain ⟨problems, hproblems, h⟩ := exists_of_bind_ok h
    split at h
    · next hnil =>
      cases h
      subst hnil
      cases explained_of_violations hproblems fun entries => hdistinct d entries rfl with
      | root _ _ hproblem => cases hproblem
      | entries hroot _ hevery =>
        refine setBy_ofValues hroot (hdistinct d _ rfl hroot) fun entry hentry hfaulty => ?_
        obtain ⟨t, ht, -⟩ := hevery entry hentry hfaulty
        cases ht
    · cases h
  · intro h
    cases h with
    | empty hs => rw [hs]; rfl
    | null hnull hs => rw [ofData_of_null hnull, hs]
    | @entries d entries hroot hgiven hdefault =>
      have hset : SetBy s (some d) := .entries hroot hgiven hdefault
      have hentries := hdistinct d entries rfl hroot
      have hnull : d.value d.root ≠ .atom .null := by
        rw [hroot]
        exact nofun
      rw [ofData_of_ne_null hnull, violations_eq_nil hroot hentries (hset.not_faulty hroot),
        hset.eq_ofValues hroot hentries]
      rfl

/-- The violations of a document that cannot be used explain what is wrong with it. -/
theorem explained_of_ofData {data : Option Data} (h : ofData data = .ok (.error problems))
    (hdistinct : ∀ d entries, data = some d → d.value d.root = .mapping entries →
      DistinctKeys entries) : ∃ d, data = some d ∧ Explained d problems := by
  rcases data with _ | d
  · cases h
  by_cases hnull : d.value d.root = .atom .null
  · rw [ofData_of_null hnull] at h
    cases h
  rw [ofData_of_ne_null hnull] at h
  obtain ⟨found, hfound, h⟩ := exists_of_bind_ok h
  split at h
  · cases h
  · cases h
    exact ⟨d, rfl, explained_of_violations hfound fun entries => hdistinct d entries rfl⟩

theorem ofData_error {data : Option Data} (h : ofData data = .error e) :
    e = .number ∧ ∃ d n, data = some d ∧ d.HasInt n ∧ Atom.Endless n := by
  rcases data with _ | d
  · cases h
  by_cases hnull : d.value d.root = .atom .null
  · rw [ofData_of_null hnull] at h
    cases h
  rw [ofData_of_ne_null hnull] at h
  rcases exists_of_bind_error h with h | ⟨_, -, h⟩
  · obtain ⟨he, n, hn⟩ := violations_error h
    exact ⟨he, d, n, rfl, hn⟩
  · cases h

end Settings

namespace Project

open Run

variable {path file : Path} {w : Workspace} {bytes : ByteArray} {data : Option Yaml.Data}

theorem distinctKeys_of_load (hdata : Yaml.load (.ofBytes bytes) = .ok data) (d : Yaml.Data)
    (entries : List (Yaml.Atom × Yaml.NodeId)) (hd : data = some d)
    (hroot : d.value d.root = .mapping entries) : Yaml.DistinctKeys entries :=
  Yaml.distinctKeys_of_load (hd ▸ hdata) hroot

/-- The settings in a project file are those that its document sets. -/
theorem readSettings_eq_ok_iff (hdata : Yaml.load (.ofBytes bytes) = .ok data) {s : Settings} :
    readSettings file bytes = .ok s ↔ s.SetBy data := by
  have hloaded : Yaml.load (.ofBytes bytes) >>= Settings.ofData = Settings.ofData data := by
    rw [hdata]
    rfl
  rw [← Settings.ofData_eq_ok_iff (distinctKeys_of_load hdata), readSettings, hloaded]
  constructor
  · intro h
    split at h
    all_goals cases h
    assumption
  · intro h
    rw [h]

theorem readSettings_of_not_setBy (hdata : Yaml.load (.ofBytes bytes) = .ok data)
    (h : ∀ s, ¬ Settings.SetBy s data) :
    (∃ d problems, data = some d ∧ Settings.Explained d problems ∧
      readSettings file bytes = .error (.project (.invalid file problems))) ∨
    readSettings file bytes = .error (.settings .number) ∧
      ∃ d n, data = some d ∧ d.HasInt n ∧ Yaml.Atom.Endless n := by
  have hdistinct := distinctKeys_of_load hdata
  have hloaded : Yaml.load (.ofBytes bytes) >>= Settings.ofData = Settings.ofData data := by
    rw [hdata]
    rfl
  rw [readSettings, hloaded]
  rcases hresult : Settings.ofData data with e | problems | s
  · obtain ⟨rfl, hn⟩ := Settings.ofData_error hresult
    exact .inr ⟨rfl, hn⟩
  · obtain ⟨d, hd, hexplained⟩ := Settings.explained_of_ofData hresult hdistinct
    exact .inl ⟨d, problems, hd, hexplained, rfl⟩
  · exact absurd ((Settings.ofData_eq_ok_iff hdistinct).mp hresult) (h s)

/-- A project file that cannot be used is why its project is not loaded. -/
theorem value_load_eq_error {h : Halt} (hfile : (find path).value w = .ok file)
    (hread : w.disk.read w.cwd file = .ok bytes) (hsettings : readSettings file bytes = .error h) :
    (load path).value w = .error h := by
  rw [← (readsOnly_load path).run_eq w]
  refine (readsOnly_find path).bind_eq hfile fun _ => ?_
  refine (readsOnly_ofDisk _).bind_eq (value_ofDisk_eq_ok_iff.mpr hread) fun _ => ?_
  exact (readsOnly_lift _).run_bind_of_error hsettings

/-- A project is loaded exactly if its file is empty or gives allowed values to settings only, and
with the settings that the file gives. Otherwise the error names just the keys at fault, unless a
whole number in the file has too many digits to be shown. -/
theorem load_iff_setBy (hfile : (find path).value w = .ok file)
    (hread : w.disk.read w.cwd file = .ok bytes) (hdata : Yaml.load (.ofBytes bytes) = .ok data) :
    (∀ p, (load path).value w = .ok p ↔
      p.base = file.parent.resolve w.cwd ∧ p.settings.SetBy data) ∧
    ((∀ s, ¬ Settings.SetBy s data) →
      (∃ d problems, data = some d ∧ Settings.Explained d problems ∧
        (load path).value w = .error (.project (.invalid file problems)) ∧
        ∀ t ∈ problems.flatMap Violation.names,
          StandsIn t (ProjectError.invalid file problems).message) ∨
      (load path).value w = .error (.settings .number) ∧
        ∃ d n, data = some d ∧ d.HasInt n ∧ Yaml.Atom.Endless n) := by
  refine ⟨fun p => ?_, fun hnone => ?_⟩
  · rw [value_load_eq_ok_iff]
    constructor
    · rintro ⟨file', bytes', hfile', hread', hsettings, -, hbase⟩
      obtain rfl := Except.ok.inj (hfile.symm.trans hfile')
      obtain rfl := Except.ok.inj (hread.symm.trans hread')
      exact ⟨hbase, (readSettings_eq_ok_iff hdata).mp hsettings⟩
    · rintro ⟨hbase, hset⟩
      obtain ⟨_, -, htrouble⟩ := exists_of_find hfile
      exact ⟨file, bytes, hfile, hread, (readSettings_eq_ok_iff hdata).mpr hset, htrouble, hbase⟩
  · rcases readSettings_of_not_setBy hdata hnone with
      ⟨d, problems, hd, hexplained, hsettings⟩ | ⟨hsettings, hn⟩
    · refine .inl ⟨d, problems, hd, hexplained, value_load_eq_error hfile hread hsettings, ?_⟩
      exact fun t => ProjectError.standsIn_message
    · exact .inr ⟨value_load_eq_error hfile hread hsettings, hn⟩

/-- A project file with an empty output directory and a key that is misspelt. -/
def misspelt : ByteArray := "output: ''\ntilte: Tail\nmarkdown: a.md\n".toUTF8

def misspeltFile : Path := ⟨.here, ["s", "fractive.yaml"]⟩

def misspeltWorkspace : Workspace :=
  { disk := ⟨[(["s"], .directory), (["s", "fractive.yaml"], .file misspelt)]⟩ }

def misspeltProblems : List Violation := [.unknownSettings ["'tilte'"], .emptyText "output"]

theorem load_iff_setBy_misspelt :
    (find ⟨.here, ["s"]⟩).value misspeltWorkspace = .ok misspeltFile ∧
      misspeltWorkspace.disk.read misspeltWorkspace.cwd misspeltFile = .ok misspelt ∧
      (load ⟨.here, ["s"]⟩).value misspeltWorkspace =
        .error (.project (.invalid misspeltFile misspeltProblems)) ∧
      ∃ d, Yaml.load (.ofBytes misspelt) = .ok (some d) ∧ (∀ s, ¬ Settings.SetBy s (some d)) ∧
        Settings.Explained d misspeltProblems := by
  have hfile : (find ⟨.here, ["s"]⟩).value misspeltWorkspace = .ok misspeltFile := by
    decide +kernel
  have hread : misspeltWorkspace.disk.read misspeltWorkspace.cwd misspeltFile = .ok misspelt := by
    decide +kernel
  have hload : (load ⟨.here, ["s"]⟩).value misspeltWorkspace =
      .error (.project (.invalid misspeltFile misspeltProblems)) := by
    decide +kernel
  have hparsed : (Yaml.load (.ofBytes misspelt)).isOk = true := by decide +kernel
  rcases hdata : Yaml.load (.ofBytes misspelt) with e | data
  · rw [hdata] at hparsed
    cases hparsed
  obtain ⟨hloads, hrejects⟩ := load_iff_setBy hfile hread hdata
  have hnone : ∀ s, ¬ Settings.SetBy s data := by
    intro s hs
    have hloaded := (hloads ⟨misspeltFile.parent.resolve misspeltWorkspace.cwd, s⟩).mpr ⟨rfl, hs⟩
    rw [hload] at hloaded
    cases hloaded
  rcases hrejects hnone with ⟨d, problems, rfl, hexplained, herror, -⟩ | ⟨herror, -⟩
  · rw [hload] at herror
    obtain rfl : misspeltProblems = problems := by simpa using herror
    exact ⟨hfile, hread, hload, d, rfl, hnone, hexplained⟩
  · rw [hload] at herror
    cases herror

theorem ofBytes_toUTF8 (cs : List Char) :
    Yaml.Source.ofBytes (String.ofList cs).toUTF8 = .checked { text := Text.unifyNewlines cs } := by
  have hdecoded : String.fromUTF8? (String.ofList cs).toUTF8 = some (String.ofList cs) :=
    dif_pos (String.ofList cs).isValidUTF8
  rw [Yaml.Source.ofBytes, hdecoded]
  dsimp only
  rw [String.toList_ofList]

/-- A project file whose title is a whole number of 4817 digits. -/
def endlessTitle : List Char := "title: 0x".toList ++ List.replicate 4000 'F' ++ ['\n']

def endlessBytes : ByteArray := (String.ofList endlessTitle).toUTF8

def endlessWorkspace : Workspace :=
  { disk := ⟨[(["s"], .directory), (["s", "fractive.yaml"], .file endlessBytes)]⟩ }

set_option maxRecDepth 100000 in
/-- The title is at fault, but no violations are reported that could name it. -/
theorem endless_title_not_named :
    (load ⟨.here, ["s"]⟩).value endlessWorkspace = .error (.settings .number) ∧
      ∃ d, Yaml.load (.ofBytes endlessBytes) = .ok (some d) ∧
        Settings.Faulty d (.text "title", 2) := by
  have hfile : (find ⟨.here, ["s"]⟩).value endlessWorkspace = .ok misspeltFile := by decide +kernel
  have hread : endlessWorkspace.disk.read endlessWorkspace.cwd misspeltFile = .ok endlessBytes := rfl
  have heval : (Yaml.load (.ofBytes endlessBytes)).toOption.any (·.any fun d =>
      d.entry? "title" == some 2 && Settings.isViolated d ("title", .text) &&
        decide (Settings.ofData (some d) = .error .number)) = true := by
    rw [endlessBytes, ofBytes_toUTF8]
    decide +kernel
  rcases hdata : Yaml.load (.ofBytes endlessBytes) with e | _ | d
  · rw [hdata] at heval
    cases heval
  · rw [hdata] at heval
    cases heval
  rw [hdata] at heval
  obtain ⟨hviolated, hnumber⟩ : (d.entry? "title" = some 2 ∧
      Settings.isViolated d ("title", .text) = true) ∧ Settings.ofData (some d) = .error .number := by
    simpa only [Except.toOption, Option.any_some, Bool.and_eq_true, beq_iff_eq,
      decide_eq_true_eq] using heval
  obtain ⟨i, hi, hnone⟩ := Settings.isViolated_iff.mp hviolated.2
  obtain rfl : i = 2 := Option.some.inj (hi.symm.trans hviolated.1)
  refine ⟨value_load_eq_error hfile hread ?_, d, rfl, ?_⟩
  · have hsettings : Yaml.load (.ofBytes endlessBytes) >>= Settings.ofData = .error .number := by
      rw [hdata]
      exact hnumber
    rw [readSettings, hsettings]
  · intro r hr hkey
    obtain rfl := Settings.eq_of_mem_rules (r := ("title", .text)) (by decide) hr
      (Yaml.Atom.text.inj hkey)
    exact hnone

end Project

end Hyperstory
