import Hyperstory.Glob
import Hyperstory.Proofs.Built
import Hyperstory.Proofs.DirectoryChanges

/-!
What patterns lead to. A pattern whose steps up come first is a way down once it has left the
directories that lead to its base: what stands beside the way to a file does not matter for whether
the pattern leads there.
-/
namespace Hyperstory

section Results

variable {α β ε : Type} {xs : List α} {e : ε}

theorem mem_flatten_of_mapM {f : α → Except ε (List β)} {found : List (List β)}
    (h : xs.mapM f = .ok found) {b : β} :
    b ∈ found.flatten ↔ ∃ x ∈ xs, ∃ ys, f x = .ok ys ∧ b ∈ ys := by
  induction xs generalizing found with
  | nil =>
    obtain rfl : [] = found := Except.ok.inj h
    simp
  | cons x xs ih =>
    rw [List.mapM_cons] at h
    obtain ⟨ys, hys, h⟩ := exists_of_bind_ok h
    obtain ⟨rest, hrest, h⟩ := exists_of_bind_ok h
    obtain rfl : ys :: rest = found := Except.ok.inj h
    rw [List.flatten_cons, List.mem_append, ih hrest]
    simp [hys]

theorem exists_of_mem_mapM {f : α → Except ε β} {ys : List β} (h : xs.mapM f = .ok ys) {y : β}
    (hy : y ∈ ys) : ∃ x ∈ xs, f x = .ok y := by
  induction xs generalizing ys with
  | nil =>
    obtain rfl : [] = ys := Except.ok.inj h
    cases hy
  | cons x xs ih =>
    rw [List.mapM_cons] at h
    obtain ⟨first, hfirst, h⟩ := exists_of_bind_ok h
    obtain ⟨rest, hrest, h⟩ := exists_of_bind_ok h
    obtain rfl : first :: rest = ys := Except.ok.inj h
    rcases List.mem_cons.mp hy with rfl | hy
    · exact ⟨x, List.mem_cons_self, hfirst⟩
    · obtain ⟨x', hx', heq⟩ := ih hrest hy
      exact ⟨x', List.mem_cons_of_mem _ hx', heq⟩

theorem exists_ok_of_mapM {f : α → Except ε β} {ys : List β} (h : xs.mapM f = .ok ys) {x : α}
    (hx : x ∈ xs) : ∃ y ∈ ys, f x = .ok y := by
  induction xs generalizing ys with
  | nil => cases hx
  | cons first xs ih =>
    rw [List.mapM_cons] at h
    obtain ⟨y, hy, h⟩ := exists_of_bind_ok h
    obtain ⟨rest, hrest, h⟩ := exists_of_bind_ok h
    obtain rfl : y :: rest = ys := Except.ok.inj h
    rcases List.mem_cons.mp hx with rfl | hx
    · exact ⟨y, List.mem_cons_self, hy⟩
    · obtain ⟨y', hy', heq⟩ := ih hrest hx
      exact ⟨y', List.mem_cons_of_mem _ hy', heq⟩

theorem exists_of_bind_error {x : Except ε α} {f : α → Except ε β} (h : x >>= f = .error e) :
    x = .error e ∨ ∃ a, x = .ok a ∧ f a = .error e := by
  cases x with
  | error e' => exact .inl (congrArg _ (Except.error.inj h))
  | ok a => exact .inr ⟨a, rfl, h⟩

theorem exists_of_mapM_error {f : α → Except ε β} (h : xs.mapM f = .error e) :
    ∃ x ∈ xs, f x = .error e := by
  induction xs with
  | nil => cases h
  | cons x xs ih =>
    rw [List.mapM_cons] at h
    rcases exists_of_bind_error h with hx | ⟨y, -, h⟩
    · exact ⟨x, List.mem_cons_self, hx⟩
    rcases exists_of_bind_error h with hrest | ⟨ys, -, h⟩
    · obtain ⟨x', hx', he⟩ := ih hrest
      exact ⟨x', List.mem_cons_of_mem _ hx', he⟩
    · cases h

theorem mem_of_filterM {f : α → Except ε Bool} {ys : List α} (h : xs.filterM f = .ok ys) {y : α} :
    y ∈ ys ↔ y ∈ xs ∧ f y = .ok true := by
  have hacc : ∀ {xs acc ys : List α}, xs.filterAuxM f acc = .ok ys →
      (y ∈ ys ↔ (y ∈ xs ∧ f y = .ok true) ∨ y ∈ acc) := by
    intro xs
    induction xs with
    | nil =>
      intro acc ys h
      obtain rfl : acc = ys := Except.ok.inj h
      simp
    | cons x xs ih =>
      intro acc ys h
      obtain ⟨kept, hkept, h⟩ := exists_of_bind_ok h
      rw [ih h]
      cases kept <;> grind
  obtain ⟨found, hfound, h⟩ := exists_of_bind_ok h
  obtain rfl : found.reverse = ys := Except.ok.inj h
  rw [List.mem_reverse, hacc hfound]
  simp

theorem exists_of_filterM_error {f : α → Except ε Bool} (h : xs.filterM f = .error e) :
    ∃ x ∈ xs, f x = .error e := by
  have hacc : ∀ {xs acc : List α}, xs.filterAuxM f acc = .error e → ∃ x ∈ xs, f x = .error e := by
    intro xs
    induction xs with
    | nil =>
      intro acc h
      cases h
    | cons x xs ih =>
      intro acc h
      rcases exists_of_bind_error h with hx | ⟨kept, -, h⟩
      · exact ⟨x, List.mem_cons_self, hx⟩
      · obtain ⟨x', hx', he⟩ := ih h
        exact ⟨x', List.mem_cons_of_mem _ hx', he⟩
  rcases exists_of_bind_error h with hfound | ⟨found, -, h⟩
  · exact hacc hfound
  · cases h

end Results

namespace Disk

open Location

variable {d : Disk} {l cwd : Location} {p : Path} {names : List String}

theorem ask_error {wanted : Item → Bool} {e : DiskError} (h : d.ask cwd p wanted = .error e) :
    e = .tooLong := by
  unfold ask at h
  split at h
  · cases h
  · exact (Except.error.inj h).symm
  · cases h

theorem Formed.mem_entries_iff (hd : d.Formed) {m : Location} {i : Item} :
    (m, i) ∈ d.entries ↔ m ≠ [] ∧ d.get? m = some i := by
  constructor
  · intro hmem
    have hkey := List.mem_map_of_mem (f := Prod.fst) hmem
    obtain ⟨dir, name, hm, -⟩ := hd.exists_directory m hkey
    have hne : m ≠ [] := by simp [hm]
    refine ⟨hne, ?_⟩
    rw [get?_of_ne hne, List.lookup_eq_some_iff]
    obtain ⟨before, after, heq⟩ := List.append_of_mem hmem
    refine ⟨before, after, heq, fun entry hentry => bne_iff_ne.mpr ?_⟩
    have hnodup := hd.nodup
    rw [heq, List.map_append, List.map_cons, List.nodup_middle, List.nodup_cons] at hnodup
    intro hsame
    have hagain : m ∈ before.map Prod.fst := hsame ▸ List.mem_map_of_mem (f := Prod.fst) hentry
    exact hnodup.1 (List.mem_append_left _ hagain)
  · rintro ⟨hne, hget⟩
    rw [get?_of_ne hne, List.lookup_eq_some_iff] at hget
    obtain ⟨before, after, heq, -⟩ := hget
    simp [heq]

theorem Formed.mem_directoriesBelow (hd : d.Formed) :
    names ∈ d.directoriesBelow l ↔ names ≠ [] ∧ d.get? (l ++ names) = some .directory := by
  unfold directoriesBelow
  rw [List.mem_filterMap]
  constructor
  · rintro ⟨⟨m, i⟩, hmem, hnames⟩
    obtain ⟨hm, hget⟩ := hd.mem_entries_iff.mp hmem
    simp only [Bool.and_eq_true, beq_iff_eq, isBelow_iff] at hnames
    split at hnames
    · rename_i hbelow
      obtain ⟨rfl, ⟨rest, rfl⟩, hne⟩ := hbelow
      rw [List.drop_left] at hnames
      obtain rfl := Option.some.inj hnames
      exact ⟨by simpa using hne, hget⟩
    · cases hnames
  · rintro ⟨hne, hget⟩
    have hmem := hd.mem_entries_iff.mpr ⟨by simp [hne], hget⟩
    refine ⟨_, hmem, ?_⟩
    simp [isBelow_iff, hne]

end Disk

/-- Steps up come first on the way that names lead. -/
def Falls (names : List String) : Prop :=
  ∃ ups downs, names = ups ++ downs ∧ (∀ n ∈ ups, n = "..") ∧ ".." ∉ downs

namespace Falls

open Location

variable {base names downs : List String}

theorem of_ups (h : ∀ n ∈ names, n = "..") : Falls names := ⟨names, [], by simp, h, by simp⟩

theorem append (h : Falls names) (hdowns : ".." ∉ downs) : Falls (names ++ downs) := by
  obtain ⟨ups, more, rfl, hups, hmore⟩ := h
  exact ⟨ups, more ++ downs, by simp, hups, by simp [hmore, hdowns]⟩

theorem foldl_step_ups (h : ∀ n ∈ names, n = "..") : names.foldl step base <+: base := by
  induction names generalizing base with
  | nil => exact List.prefix_refl _
  | cons n names ih =>
    obtain ⟨rfl, hrest⟩ := List.forall_mem_cons.mp h
    rw [List.foldl_cons, step_up]
    exact (ih hrest).trans <| List.dropLast_prefix _

/-- The way first goes up along the base, then down to its end. -/
theorem up_or_down (h : Falls names) (hbase : ".." ∉ base) {pre : List String}
    (hpre : pre <+: base ++ names) :
    pre.foldl step [] <+: base ∨ pre.foldl step [] <+: names.foldl step base := by
  have splits : ∀ {a b c : List String}, c <+: a ++ b → c <+: a ∨ ∃ b', c = a ++ b' ∧ b' <+: b := by
    intro a b c hc
    rcases List.prefix_or_prefix_of_prefix hc (List.prefix_append a b) with hc' | ⟨b', rfl⟩
    · exact .inl hc'
    · exact .inr ⟨b', rfl, (List.prefix_append_right_inj a).mp hc⟩
  obtain ⟨ups, downs, rfl, hups, hdowns⟩ := h
  -- The way ends in the base, among the steps up, or below where they end.
  rcases splits hpre with hpre | ⟨rest, rfl, hrest⟩
  · left
    rw [foldl_step fun hmem => hbase (hpre.subset hmem)]
    exact hpre
  rw [List.foldl_append, foldl_step hbase, List.nil_append]
  rcases splits hrest with hrest' | ⟨rest', rfl, hrest'⟩
  · exact .inl (foldl_step_ups fun n hn => hups n (hrest'.subset hn))
  · right
    rw [List.foldl_append, List.foldl_append, foldl_step hdowns,
      foldl_step fun hmem => hdowns (hrest'.subset hmem)]
    exact (List.prefix_append_right_inj _).mpr hrest'

end Falls

namespace Glob

open Location Hyperstory.Path

variable {d d' : Disk} {base : Location} {g rest : Glob} {s : GlobStep} {last : Bool}
  {p p' q : List String}

/-! ### One step -/

theorem scan_eq_some_iff {l : Location} : scan d base p = .ok (some l) ↔
    d.locate [] (ofLocation (base ++ p)) = .ok l := by
  unfold scan
  split
  · rename_i hlocate
    simp [hlocate]
  · rename_i hlong
    simp [hlong]
  · rename_i e _ hlocate
    simp [hlocate]

theorem scan_error {e : DiskError} (h : scan d base p = .error e) : e = .tooLong := by
  unfold scan at h
  split at h
  · cases h
  · exact (Except.error.inj h).symm
  · cases h

/-- A step leads from one path to another, if all can be read that it has to read. -/
def Steps (d : Disk) (base : Location) (last : Bool) :
    GlobStep → List String → List String → Prop
  | .here, p, p' => p' = p
  | .name n, p, p' => p' = p ++ [n] ∧ ∃ l i,
      d.find [] (ofLocation (base ++ p ++ [n])) = .ok (l, i) ∧ (last = true ∨ i = .directory)
  | .wild ws, p, p' => ∃ l n, d.locate [] (ofLocation (base ++ p)) = .ok l ∧ p' = p ++ [n] ∧
      Wild.isMatch ws n.toList = true ∧ (d.get? (l ++ [n])).isSome ∧
      (last = true ∨ d.get? (l ++ [n]) = some .directory)
  | .deep, p, p' => ∃ l names, d.locate [] (ofLocation (base ++ p)) = .ok l ∧ p' = p ++ names ∧
      (names = [] ∨ d.get? (l ++ names) = some .directory)

theorem mem_step (hd : d.Formed) {found : List (List String)}
    (h : step d base last p s = .ok found) : p' ∈ found ↔ Steps d base last s p p' := by
  cases s with
  | here =>
    obtain rfl := Except.ok.inj h
    exact List.mem_singleton
  | name n =>
    have hask : ∀ {wanted : Item → Bool}, (do
        let there ← d.ask [] (ofLocation (base ++ p ++ [n])) wanted
        Except.ok (if there then [p ++ [n]] else [])) = .ok found →
        (p' ∈ found ↔ p' = p ++ [n] ∧ ∃ l i,
          d.find [] (ofLocation (base ++ p ++ [n])) = .ok (l, i) ∧ wanted i = true) := by
      intro wanted h
      obtain ⟨there, hthere, h⟩ := exists_of_bind_ok h
      obtain rfl := Except.ok.inj h
      rw [← Disk.ask_eq_true_iff, hthere]
      cases there <;> simp
    cases last with
    | true => simpa [Steps] using hask h
    | false => simpa [Steps] using hask h
  | wild ws =>
    obtain ⟨dir, hdir, h⟩ := exists_of_bind_ok h
    simp only [Steps, ← scan_eq_some_iff, hdir]
    cases dir with
    | none =>
      obtain rfl := Except.ok.inj h
      simp
    | some l =>
      obtain rfl := Except.ok.inj h
      simp only [Except.ok.injEq, Option.some.injEq, List.mem_map, List.mem_filter,
        Disk.mem_namesAt, Disk.isDirectoryAt, Bool.and_eq_true, Bool.or_eq_true, beq_iff_eq]
      constructor
      · rintro ⟨n, ⟨hthere, hmatch, hlast⟩, rfl⟩
        exact ⟨l, n, rfl, rfl, hmatch, hthere, hlast⟩
      · rintro ⟨l', n, rfl, rfl, hmatch, hthere, hlast⟩
        exact ⟨n, ⟨hthere, hmatch, hlast⟩, rfl⟩
  | deep =>
    obtain ⟨dir, hdir, h⟩ := exists_of_bind_ok h
    simp only [Steps, ← scan_eq_some_iff, hdir]
    cases dir with
    | none =>
      obtain rfl := Except.ok.inj h
      simp
    | some l =>
      obtain ⟨_, -, h⟩ := exists_of_bind_ok h
      obtain rfl := Except.ok.inj h
      simp only [Except.ok.injEq, Option.some.injEq, List.mem_cons, List.mem_map,
        hd.mem_directoriesBelow]
      constructor
      · rintro (rfl | ⟨names, ⟨-, hnames⟩, rfl⟩)
        · exact ⟨l, [], rfl, (List.append_nil _).symm, .inl rfl⟩
        · exact ⟨l, names, rfl, rfl, .inr hnames⟩
      · rintro ⟨l', names, rfl, rfl, hnames⟩
        by_cases hnil : names = []
        · exact .inl (by simp [hnil])
        · exact .inr ⟨names, ⟨hnil, hnames.resolve_left hnil⟩, rfl⟩

/-- A step leads on to names that are in the tree, or that the step is made of. -/
theorem Steps.exists_names (hd : d.Formed) (h : Steps d base last s p p') :
    ∃ names, p' = p ++ names ∧ ∀ n ∈ names, IsName n ∨ s = .name n := by
  cases s with
  | here => exact ⟨[], h.trans (List.append_nil p).symm, by simp⟩
  | name n =>
    obtain ⟨rfl, -⟩ := h
    exact ⟨[n], rfl, by simp⟩
  | wild ws =>
    obtain ⟨l, n, -, rfl, -, hthere, -⟩ := h
    exact ⟨[n], rfl, fun m hm => .inl (hd.isName hthere m (List.mem_append_right _ hm))⟩
  | deep =>
    obtain ⟨l, names, -, rfl, hnames⟩ := h
    refine ⟨names, rfl, fun m hm => .inl ?_⟩
    rcases hnames with rfl | hdir
    · cases hm
    · have hthere : (d.get? (l ++ names)).isSome := by
        rw [hdir]
        rfl
      exact hd.isName hthere m (List.mem_append_right _ hm)

/-! ### Step after step -/

/-- The steps of a pattern lead from one path to another. -/
inductive Selects (d : Disk) (base : Location) : Glob → List String → List String → Prop
  | nil {p : List String} : Selects d base [] p p
  | cons {s : GlobStep} {rest : Glob} {p p' q : List String}
      (hstep : Steps d base rest.isEmpty s p p') (hrest : Selects d base rest p' q) :
      Selects d base (s :: rest) p q

theorem mem_select (hd : d.Formed) {ps found : List (List String)}
    (h : select d base g ps = .ok found) : q ∈ found ↔ ∃ p ∈ ps, Selects d base g p q := by
  induction g generalizing ps found with
  | nil =>
    obtain rfl : ps = found := Except.ok.inj h
    constructor
    · intro hq
      exact ⟨q, hq, .nil⟩
    · rintro ⟨p, hp, hsel⟩
      cases hsel
      exact hp
  | cons s rest ih =>
    obtain ⟨next, hnext, h⟩ := exists_of_bind_ok h
    rw [ih h]
    constructor
    · rintro ⟨p', hp', hrest⟩
      rw [List.mem_eraseDups, mem_flatten_of_mapM hnext] at hp'
      obtain ⟨p, hp, ys, hys, hp'⟩ := hp'
      exact ⟨p, hp, .cons ((mem_step hd hys).mp hp') hrest⟩
    · rintro ⟨p, hp, hsel⟩
      cases hsel with
      | cons hstep hrest =>
        obtain ⟨ys, -, hys⟩ := exists_ok_of_mapM hnext hp
        refine ⟨_, ?_, hrest⟩
        rw [List.mem_eraseDups, mem_flatten_of_mapM hnext]
        exact ⟨p, hp, ys, hys, (mem_step hd hys).mpr hstep⟩

theorem Selects.exists_names (hd : d.Formed) (h : Selects d base g p q) :
    ∃ names, q = p ++ names ∧ ∀ n ∈ names, IsName n ∨ .name n ∈ g := by
  induction h with
  | nil => exact ⟨[], by simp, by simp⟩
  | cons hstep hrest ih =>
    obtain ⟨first, rfl, hfirst⟩ := hstep.exists_names hd
    obtain ⟨names, rfl, hnames⟩ := ih
    refine ⟨first ++ names, by simp, fun n hn => ?_⟩
    rcases List.mem_append.mp hn with hn | hn
    · rcases hfirst n hn with hname | rfl
      · exact .inl hname
      · exact .inr List.mem_cons_self
    · exact (hnames n hn).imp_right (List.mem_cons_of_mem _)

/-- A step that does not go up leads down. -/
theorem Selects.exists_downs (hd : d.Formed) (hg : .name ".." ∉ g) (h : Selects d base g p q) :
    ∃ names, q = p ++ names ∧ ".." ∉ names := by
  obtain ⟨names, rfl, hnames⟩ := h.exists_names hd
  refine ⟨names, rfl, fun hmem => ?_⟩
  rcases hnames ".." hmem with hname | hstep
  · exact hname.ne_up rfl
  · exact hg hstep

/-! ### Trees with the same on the way -/

/-- In both trees the same stands on the ways to a base and to a target. -/
structure SameOn (d d' : Disk) (base target : Location) : Prop where
  formed : d.Formed
  formed' : d'.Formed
  up_notMem : ".." ∉ base
  get?_eq : ∀ m, m <+: base ∨ m <+: target → d'.get? m = d.get? m

/-- The way that names lead goes up along the base and down along the way to the target. -/
structure OnWay (base target : Location) (names : List String) : Prop where
  falls : Falls names
  place : names.foldl Location.step base <+: base ∨ names.foldl Location.step base <+: target

namespace SameOn

variable {target : Location}

theorem symm (h : SameOn d d' base target) : SameOn d' d base target :=
  ⟨h.formed', h.formed, h.up_notMem, fun m hm => (h.get?_eq m hm).symm⟩

theorem get?_way (h : SameOn d d' base target) (hp : OnWay base target p) {pre : List String}
    (hpre : pre <+: base ++ p) :
    d'.get? (pre.foldl Location.step []) = d.get? (pre.foldl Location.step []) := by
  apply h.get?_eq
  rcases hp.falls.up_or_down h.up_notMem hpre with hup | hdown
  · exact .inl hup
  · exact hp.place.imp hdown.trans hdown.trans

theorem find (h : SameOn d d' base target) (hp : OnWay base target p) {cwd : Location} :
    d'.find cwd (ofLocation (base ++ p)) = d.find cwd (ofLocation (base ++ p)) :=
  Disk.find_congr fun _ hpre => by
    rw [start_ofLocation]
    exact h.get?_way hp hpre

theorem locate (h : SameOn d d' base target) (hp : OnWay base target p) :
    d'.locate [] (ofLocation (base ++ p)) = d.locate [] (ofLocation (base ++ p)) :=
  Disk.locate_congr fun _ _ hpre => by
    rw [start_ofLocation]
    exact h.get?_way hp ((List.prefix_append _ _).trans hpre)

theorem steps (h : SameOn d d' base target) (hp : OnWay base target p) (hp' : OnWay base target p')
    (hstep : Steps d base last s p p') : Steps d' base last s p p' := by
  -- What a step ends at is on the way too.
  have hend : ∀ {l : Location} {names : List String},
      d.locate [] (ofLocation (base ++ p)) = .ok l → p' = p ++ names →
      (d.get? (l ++ names)).isSome → d'.get? (l ++ names) = d.get? (l ++ names) := by
    intro l names hl hnames hthere
    have hplace := h.get?_way hp' (List.prefix_refl _)
    have hup : ".." ∉ names := fun hmem =>
      h.formed.up_notMem hthere (List.mem_append_right _ hmem)
    have heq : l = (base ++ p).foldl Location.step [] :=
      Disk.eq_resolve_of_locate (by simp [ofLocation]) hl
    rwa [hnames, ← List.append_assoc, List.foldl_append, foldl_step hup, ← heq] at hplace
  cases s with
  | here => exact hstep
  | name n =>
    obtain ⟨rfl, l, i, hfind, hlast⟩ := hstep
    rw [List.append_assoc, ← h.find hp', ← List.append_assoc] at hfind
    exact .intro rfl ⟨l, i, hfind, hlast⟩
  | wild ws =>
    obtain ⟨l, n, hl, hnames, hmatch, hthere, hlast⟩ := hstep
    have hsame := hend hl hnames hthere
    rw [← hsame] at hthere hlast
    exact .intro l ⟨n, (h.locate hp).trans hl, hnames, hmatch, hthere, hlast⟩
  | deep =>
    obtain ⟨l, names, hl, hnames, hdir⟩ := hstep
    refine .intro l ⟨names, (h.locate hp).trans hl, hnames, ?_⟩
    rcases hdir with hnil | hdir
    · exact .inl hnil
    · exact .inr ((hend hl hnames (by rw [hdir]; rfl)).trans hdir)

theorem selects_downs (h : SameOn d d' base (q.foldl Location.step base)) (hg : .name ".." ∉ g)
    (hp : Falls p) (hsel : Selects d base g p q) : Selects d' base g p q := by
  induction hsel with
  | nil => exact .nil
  | @cons s rest p p' q hstep hrest ih =>
    have hrestg : .name ".." ∉ rest := fun hmem => hg (List.mem_cons_of_mem _ hmem)
    -- From each path on the way to the last one the names lead down.
    have onWay : ∀ {r names : List String}, Falls r → q = r ++ names → ".." ∉ names →
        OnWay base (q.foldl Location.step base) r := by
      intro r names hr hq hnames
      refine ⟨hr, .inr ?_⟩
      rw [hq, List.foldl_append, foldl_step hnames]
      exact List.prefix_append _ _
    obtain ⟨all, hall, hallup⟩ := (Selects.cons hstep hrest).exists_downs h.formed hg
    obtain ⟨later, hlater, hlaterup⟩ := hrest.exists_downs h.formed hrestg
    obtain ⟨first, hfirst, -⟩ := hstep.exists_names h.formed
    have hfirstup : ".." ∉ first := by
      have heq : all = first ++ later := by
        rw [hfirst, List.append_assoc] at hlater
        exact List.append_cancel_left (hall.symm.trans hlater)
      intro hmem
      exact hallup (heq ▸ List.mem_append_left _ hmem)
    have hp' : Falls p' := hfirst ▸ hp.append hfirstup
    exact .cons (h.steps (onWay hp hall hallup) (onWay hp' hlater hlaterup) hstep)
      (ih h hrestg hp')

end SameOn

/-- Steps up come first in a pattern, and have been gone so far. -/
inductive Heads : Glob → List String → Prop
  | up {rest : Glob} {p : List String} (hp : ∀ n ∈ p, n = "..") (hrest : Heads rest (p ++ [".."])) :
      Heads (.name ".." :: rest) p
  | down {g : Glob} {p : List String} (hp : Falls p) (hg : .name ".." ∉ g) : Heads g p

theorem Heads.falls (hd : d.Formed) (h : Heads g p) (hsel : Selects d base g p q) : Falls q := by
  induction h with
  | up hp hrest ih =>
    cases hsel with
    | cons hstep hlater =>
      obtain ⟨rfl, -⟩ := hstep
      exact ih hlater
  | down hp hg =>
    obtain ⟨names, rfl, hnames⟩ := hsel.exists_downs hd hg
    exact hp.append hnames

theorem SameOn.selects (h : SameOn d d' base (q.foldl Location.step base)) (hg : Heads g p)
    (hsel : Selects d base g p q) : Selects d' base g p q := by
  induction hg with
  | @up rest p hp hrest ih =>
    cases hsel with
    | cons hstep hlater =>
      obtain rfl := And.left hstep
      have onWay : ∀ {r : List String}, (∀ n ∈ r, n = "..") →
          OnWay base (q.foldl Location.step base) r :=
        fun hr => ⟨.of_ups hr, .inl (Falls.foldl_step_ups hr)⟩
      have hp' : ∀ n ∈ p ++ [".."], n = ".." := by
        simpa [or_imp, forall_and] using hp
      exact .cons (h.steps (onWay hp) (onWay hp') hstep) (ih hlater)
  | down hp hg => exact h.selects_downs hg hp hsel

/-! ### The files at the end -/

theorem mem_files (hd : d.Formed) {found : List (List String)} (h : files d base g = .ok found) :
    q ∈ found ↔ d.isDirectoryAt base = true ∧ Selects d base g [] q ∧
      ∃ l bytes, d.find [] (ofLocation (base ++ q)) = .ok (l, .file bytes) := by
  unfold files at h
  split at h
  · rename_i hdir
    obtain ⟨selected, hselected, h⟩ := exists_of_bind_ok h
    rw [mem_of_filterM h, mem_select hd hselected, Disk.isFile, Disk.ask_eq_true_iff]
    constructor
    · rintro ⟨⟨p, hp, hsel⟩, l, i, hfind, hi⟩
      obtain rfl := List.mem_singleton.mp hp
      cases i with
      | directory => simp at hi
      | file bytes => exact ⟨hdir, hsel, l, bytes, hfind⟩
    · rintro ⟨-, hsel, l, bytes, hfind⟩
      exact ⟨⟨[], by simp, hsel⟩, l, _, hfind, by simp⟩
  · rename_i hdir
    obtain rfl : [] = found := Except.ok.inj h
    simp [hdir]

/-- The same files are found where the way to them is the same. -/
theorem SameOn.mem_files (h : SameOn d d' base (q.foldl Location.step base)) (hg : Heads g [])
    {found found' : List (List String)} (hfound : files d base g = .ok found)
    (hfound' : files d' base g = .ok found') (hq : q ∈ found) : q ∈ found' := by
  obtain ⟨hdir, hsel, l, bytes, hfind⟩ := (Glob.mem_files h.formed hfound).mp hq
  have honWay : OnWay base (q.foldl Location.step base) q :=
    ⟨hg.falls h.formed hsel, .inr (List.prefix_refl _)⟩
  refine (Glob.mem_files h.formed' hfound').mpr
    ⟨?_, h.selects hg hsel, l, bytes, (h.find honWay).trans hfind⟩
  rwa [Disk.isDirectoryAt, h.get?_eq base (.inl (List.prefix_refl _))]

/-- A pattern is given up only where a path is too long. -/
theorem files_error {e : DiskError} (h : files d base g = .error e) : e = .tooLong := by
  have hstep : ∀ {last s p}, step d base last p s = .error e → e = .tooLong := by
    intro last s p h
    cases s with
    | here => cases h
    | name n =>
      rw [step] at h
      split at h
      all_goals
        rcases exists_of_bind_error h with herror | ⟨_, -, hdone⟩
        · exact Disk.ask_error herror
        · cases hdone
    | wild ws =>
      rcases exists_of_bind_error h with herror | ⟨dir, -, hdone⟩
      · exact scan_error herror
      · cases dir <;> cases hdone
    | deep =>
      rcases exists_of_bind_error h with herror | ⟨dir, -, hread⟩
      · exact scan_error herror
      cases dir with
      | none => cases hread
      | some l =>
        rcases exists_of_bind_error hread with herror | ⟨_, -, hdone⟩
        · obtain ⟨q, -, hq⟩ := exists_of_mapM_error herror
          exact scan_error hq
        · cases hdone
  have hselect : ∀ {g ps}, select d base g ps = .error e → e = .tooLong := by
    intro g
    induction g with
    | nil =>
      intro ps h
      cases h
    | cons s rest ih =>
      intro ps h
      rcases exists_of_bind_error h with herror | ⟨_, -, hrest⟩
      · obtain ⟨p, -, hp⟩ := exists_of_mapM_error herror
        exact hstep hp
      · exact ih hrest
  unfold files at h
  split at h
  · rcases exists_of_bind_error h with herror | ⟨_, -, hfilter⟩
    · exact hselect herror
    · obtain ⟨p, -, hp⟩ := exists_of_filterM_error hfilter
      exact Disk.ask_error hp
  · cases h

/-! ### Patterns as they are written -/

theorem stepOf_eq_name {n m : String} (h : stepOf n = .ok (.name m)) : m = n := by
  unfold stepOf at h
  split at h
  · cases h
  split at h
  · cases h
  split at h
  · cases h
  · cases h
    rfl

theorem exists_of_parse {text : String} (h : parse text = .ok g) :
    ∃ steps tail, (namesIn text).mapM stepOf = .ok steps ∧ g = steps ++ tail ∧
      ∀ n, .name n ∉ tail := by
  unfold parse at h
  split at h
  · cases h
  split at h
  · cases h
  dsimp only at h
  split at h
  · cases h
  · obtain ⟨steps, hsteps, h⟩ := exists_of_bind_ok h
    obtain rfl := Except.ok.inj h
    split
    · exact ⟨steps, [.here], hsteps, rfl, by simp⟩
    · exact ⟨steps, [], hsteps, by simp, by simp⟩

theorem name_mem_of_parse {text n : String} (h : parse text = .ok g) (hn : .name n ∈ g) :
    n ∈ namesIn text := by
  obtain ⟨steps, tail, hsteps, rfl, htail⟩ := exists_of_parse h
  rcases List.mem_append.mp hn with hn | hn
  · obtain ⟨m, hm, hstep⟩ := exists_of_mem_mapM hsteps hn
    exact stepOf_eq_name hstep ▸ hm
  · exact absurd hn (htail n)

theorem heads_of_parse {text : String} (h : parse text = .ok g) (hfalls : Falls (namesIn text)) :
    Heads g [] := by
  obtain ⟨steps, tail, hsteps, rfl, htail⟩ := exists_of_parse h
  obtain ⟨ups, downs, heq, hups, hdowns⟩ := hfalls
  rw [heq] at hsteps
  have hheads : ∀ {p : List String}, (∀ n ∈ p, n = "..") → Heads (steps ++ tail) p := by
    clear h heq
    induction ups generalizing steps with
    | nil =>
      intro p hp
      refine .down (.of_ups hp) fun hmem => ?_
      rcases List.mem_append.mp hmem with hmem | hmem
      · obtain ⟨m, hm, hstep⟩ := exists_of_mem_mapM hsteps hmem
        exact hdowns (stepOf_eq_name hstep ▸ hm)
      · exact htail ".." hmem
    | cons n ups ih =>
      intro p hp
      obtain ⟨rfl, hrest⟩ := List.forall_mem_cons.mp hups
      rw [List.cons_append, List.mapM_cons] at hsteps
      obtain ⟨first, hfirst, hsteps⟩ := exists_of_bind_ok hsteps
      obtain ⟨later, hlater, hsteps⟩ := exists_of_bind_ok hsteps
      obtain rfl : first :: later = steps := Except.ok.inj hsteps
      obtain rfl : .name ".." = first := Except.ok.inj hfirst
      exact .up hp (ih later hlater hrest (by simpa [or_imp, forall_and] using hp))
  exact hheads (by simp)

end Glob

end Hyperstory
