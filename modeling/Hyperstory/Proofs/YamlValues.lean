import Hyperstory.Proofs.Patterns
import Hyperstory.Yaml.Value

/-!
The values of a YAML document. Of two keys of a mapping no two are the same text, and a value can be
shown unless a whole number in the document has too many digits.
-/
namespace Hyperstory.Yaml

namespace Slots

variable {α : Type} {table : Array (Option α)} {members : List (Nat × α)} {a : α}

/-- A table holds members only. -/
theorem exists_of_mem_inOrder (h : a ∈ inOrder members) : ∃ code, (code, a) ∈ members := by
  have hput : ∀ {members : List (Nat × α)} {table : Array (Option α)},
      some a ∈ (members.foldl (fun t m => put t m.1 m.2) table).toList →
      some a ∈ table.toList ∨ ∃ code, (code, a) ∈ members := by
    intro members
    induction members with
    | nil => exact .inl
    | cons first members ih =>
      obtain ⟨c, b⟩ := first
      intro table hmem
      rcases ih hmem with hmem | ⟨code, hcode⟩
      · change some a ∈ (put table c b).toList at hmem
        rw [put, Array.toList_setIfInBounds] at hmem
        rcases List.mem_or_eq_of_mem_set hmem with hmem | heq
        · exact .inl hmem
        · obtain rfl := Option.some.inj heq
          exact .inr ⟨c, List.mem_cons_self⟩
      · exact .inr ⟨code, List.mem_cons_of_mem _ hcode⟩
  obtain ⟨slot, hslot, heq⟩ := List.mem_filterMap.mp h
  obtain rfl : slot = some a := heq
  exact (hput hslot).resolve_left (by simp)

end Slots

namespace Atom

variable {k : Atom} {s : String} {e : Defect}

theorem same_text_iff : k.same (.text s) = true ↔ k = .text s := by
  cases k with
  | float x =>
    simp only [same, whole?]
    cases wholeOf? x <;> simp
  | null | bool | int | nan | text | bytes | time => simp [same, whole?]

/-- A whole number has too many digits to be shown. -/
def Endless (n : Int) : Prop := Nat.pow 10 maxDigits ≤ n.natAbs

theorem shown_error (h : k.shown = .error e) : e = .number ∧ ∃ n, k = .int n ∧ Endless n := by
  cases k with
  | int n =>
    have hint : intText n = .error e := h
    unfold intText at hint
    split at hint
    · cases hint
    · next hlarge => exact ⟨(Except.error.inj hint).symm, n, rfl, Nat.not_lt.mp hlarge⟩
  | time t => cases t <;> cases h
  | null | bool | float | nan | text | bytes => cases h

theorem sortText_error (h : k.sortText = .error e) : e = .number ∧ ∃ n, k = .int n ∧ Endless n := by
  cases k with
  | time t => cases t <;> cases h
  | text s => cases h
  | null | bool | int | float | nan | bytes => exact shown_error h

theorem mem_of_mem_inSetOrder {keys : List Atom} (h : k ∈ inSetOrder keys) : k ∈ keys := by
  have hmember : ∀ {keys : List Atom} {members : List (Nat × Atom)},
      (keys.mapM fun k => k.code?.map (·, k)) = some members → ∀ m ∈ members, m.2 ∈ keys := by
    intro keys
    induction keys with
    | nil => simp
    | cons key keys ih =>
      intro members h m hm
      rw [List.mapM_cons] at h
      obtain ⟨first, hfirst, h⟩ := Option.bind_eq_some_iff.mp h
      obtain ⟨rest, hrest, h⟩ := Option.bind_eq_some_iff.mp h
      obtain rfl : first :: rest = members := Option.some.inj h
      obtain ⟨code, -, rfl⟩ := Option.map_eq_some_iff.mp hfirst
      rcases List.mem_cons.mp hm with rfl | hm
      · exact List.mem_cons_self
      · exact List.mem_cons_of_mem key (ih hrest m hm)
  unfold inSetOrder at h
  split at h
  · next members hmembers =>
    obtain ⟨code, hcode⟩ := Slots.exists_of_mem_inOrder h
    exact hmember hmembers (code, k) hcode
  · exact h

end Atom

namespace Data

variable {d : Data} {i : NodeId} {e : Defect}

/-- A node holds a text. -/
def IsText (d : Data) (i : NodeId) (s : String) : Prop := d.value i = .atom (.text s)

/-- A node holds a list of texts; without pairs, a list of pairs is an empty list. -/
inductive IsTexts (d : Data) (i : NodeId) : List String → Prop
  | list {items : List NodeId} {ss : List String} (h : d.value i = .list items)
      (hitems : List.Forall₂ d.IsText items ss) : IsTexts d i ss
  | noPairs (h : d.value i = .pairs []) : IsTexts d i []

theorem IsText.unique {s t : String} (h : d.IsText i s) (h' : d.IsText i t) : s = t :=
  Atom.text.inj (Value.atom.inj (h.symm.trans h'))

theorem IsText.not_isTexts {s : String} {ss : List String} (h : d.IsText i s) :
    ¬ d.IsTexts i ss := by
  rintro (⟨h', -⟩ | h')
  · cases h.symm.trans h'
  · cases h.symm.trans h'

theorem text?_eq_some_iff {s : String} : d.text? i = some s ↔ d.IsText i s := by
  unfold text? IsText
  split
  · next t h => simp [h]
  · next h =>
    constructor
    · intro hnone
      cases hnone
    · exact fun htext => absurd htext (h s)

theorem mapM_text?_eq_some_iff {items : List NodeId} {ss : List String} :
    items.mapM d.text? = some ss ↔ List.Forall₂ d.IsText items ss := by
  induction items generalizing ss with
  | nil => cases ss <;> simp
  | cons j items ih =>
    rw [List.mapM_cons, List.forall₂_cons_left_iff]
    simp only [bind, Option.bind_eq_some_iff, text?_eq_some_iff, ih, pure, Option.some.injEq]
    constructor
    · rintro ⟨s, hs, rest, hrest, rfl⟩
      exact ⟨s, rest, hs, hrest, rfl⟩
    · rintro ⟨s, rest, hs, hrest, rfl⟩
      exact ⟨s, hs, rest, hrest, rfl⟩

theorem texts?_eq_some_iff {ss : List String} : d.texts? i = some ss ↔ d.IsTexts i ss := by
  unfold texts?
  split
  · next items hitems =>
    rw [mapM_text?_eq_some_iff]
    constructor
    · exact .list hitems
    · intro h
      cases h with
      | list h hss =>
        rw [hitems] at h
        obtain rfl := Value.list.inj h
        exact hss
      | noPairs h =>
        rw [hitems] at h
        cases h
  · next hpairs =>
    constructor
    · intro h
      obtain rfl := Option.some.inj h
      exact .noPairs hpairs
    · intro h
      cases h with
      | list h _ =>
        rw [hpairs] at h
        cases h
      | noPairs _ => rfl
  · next hlist hpairs =>
    constructor
    · intro h
      cases h
    · intro h
      cases h with
      | list h _ => exact absurd h (hlist _)
      | noPairs h => exact absurd h hpairs

/-- A whole number stands in a document, as a value, a key or a member of a set. -/
inductive HasInt (d : Data) (n : Int) : Prop
  | value {i : NodeId} (h : d.value i = .atom (.int n))
  | key {i v : NodeId} {entries : List (Atom × NodeId)} (h : d.value i = .mapping entries)
      (hmem : (.int n, v) ∈ entries)
  | member {i : NodeId} {keys : List Atom} (h : d.value i = .set keys) (hmem : .int n ∈ keys)

theorem shownIn_error {n : Nat} {around : List NodeId} (h : d.shownIn n around i = .error e) :
    e = .number ∧ ∃ n, d.HasInt n ∧ Atom.Endless n := by
  have hlisted : ∀ {items : List (Read String)} {first last : String},
      (do let texts ← items.mapM id; Except.ok (first ++ ", ".intercalate texts ++ last)) =
        (.error e : Read String) → ∃ x ∈ items, x = .error e := by
    intro items first last h
    rcases exists_of_bind_error h with h | ⟨_, -, h⟩
    · exact exists_of_mapM_error h
    · cases h
  induction n generalizing around i with
  | zero => cases h
  | succ n ih =>
    unfold shownIn at h
    dsimp only at h
    split at h
    · next a ha =>
      obtain ⟨he, m, rfl, hm⟩ := Atom.shown_error h
      exact ⟨he, m, .value ha, hm⟩
    · next items hitems =>
      split_ifs at h
      obtain ⟨x, hx, rfl⟩ := hlisted h
      obtain ⟨j, -, hj⟩ := List.mem_map.mp hx
      exact ih hj
    · next entries hentries =>
      split_ifs at h
      obtain ⟨x, hx, rfl⟩ := hlisted h
      obtain ⟨⟨k, v⟩, -, hkv⟩ := List.mem_map.mp hx
      obtain ⟨y, hy, rfl⟩ := hlisted hkv
      rcases List.mem_pair.mp hy with hk | hv
      · exact ih hk.symm
      · exact ih hv.symm
    · next entries hentries =>
      split_ifs at h
      obtain ⟨x, hx, rfl⟩ := hlisted h
      obtain ⟨⟨k, v⟩, hmem, hkv⟩ := List.mem_map.mp hx
      rcases exists_of_bind_error hkv with hk | ⟨_, -, hkv⟩
      · obtain ⟨he, m, rfl, hm⟩ := Atom.shown_error hk
        exact ⟨he, m, .key hentries hmem, hm⟩
      · rcases exists_of_bind_error hkv with hv | ⟨_, -, hkv⟩
        · exact ih hv
        · cases hkv
    · next keys hkeys =>
      split_ifs at h
      obtain ⟨x, hx, rfl⟩ := hlisted h
      obtain ⟨k, hmem, hk⟩ := List.mem_map.mp hx
      obtain ⟨he, m, rfl, hm⟩ := Atom.shown_error hk
      exact ⟨he, m, .member hkeys (Atom.mem_of_mem_inSetOrder hmem), hm⟩

end Data

/-! ### The keys of a mapping -/

/-- No two keys are the same text. -/
def DistinctKeys (entries : List (Atom × NodeId)) : Prop :=
  entries.Pairwise fun a b => ∀ s, a.1 = .text s → b.1 ≠ .text s

namespace Builder

variable {b b' : Builder} {i v : NodeId} {k : Atom} {found es : List (Atom × NodeId)}

theorem key_of_mem_insertEntry {e : Atom × NodeId} (h : e ∈ insertEntry k v es) :
    e.1 = k ∨ ∃ e' ∈ es, e.1 = e'.1 := by
  induction es with
  | nil =>
    obtain rfl := List.mem_singleton.mp h
    exact .inl rfl
  | cons first rest ih =>
    rw [insertEntry] at h
    split at h
    · rcases List.mem_cons.mp h with rfl | h
      · exact .inr ⟨first, List.mem_cons_self, rfl⟩
      · exact .inr ⟨e, List.mem_cons_of_mem _ h, rfl⟩
    · rcases List.mem_cons.mp h with rfl | h
      · exact .inr ⟨_, List.mem_cons_self, rfl⟩
      · rcases ih h with hk | ⟨e', he', heq⟩
        · exact .inl hk
        · exact .inr ⟨e', List.mem_cons_of_mem _ he', heq⟩

theorem insertEntry_distinct (h : DistinctKeys es) : DistinctKeys (insertEntry k v es) := by
  induction es with
  | nil => exact List.pairwise_singleton _ _
  | cons first rest ih =>
    obtain ⟨hfirst, hrest⟩ := List.pairwise_cons.mp h
    rw [insertEntry]
    split
    · exact List.pairwise_cons.mpr ⟨hfirst, hrest⟩
    · next hsame =>
      refine List.pairwise_cons.mpr ⟨fun e he s hs htext => ?_, ih hrest⟩
      rcases key_of_mem_insertEntry he with rfl | ⟨e', he', heq⟩
      · exact hsame (htext ▸ Atom.same_text_iff.mpr hs)
      · exact hfirst e' he' s hs (heq ▸ htext)

/-- Every mapping that is found has distinct keys. -/
def Distinct (b : Builder) : Prop :=
  ∀ entries, some (.mapping entries) ∈ b.values.toList → DistinctKeys entries

theorem Distinct.set (h : b.Distinct) {value : Value}
    (hvalue : ∀ entries, value = .mapping entries → DistinctKeys entries) :
    (b.set i value).Distinct := by
  intro entries hmem
  rw [Builder.set, Array.toList_setIfInBounds] at hmem
  rcases List.mem_or_eq_of_mem_set hmem with hmem | heq
  · exact h entries hmem
  · exact hvalue entries (Option.some.inj heq).symm

theorem hollow?_mapping {tag : Tag} (h : hollow? tag = some (.mapping es)) : es = [] := by
  unfold hollow? at h
  split at h <;> cases h
  rfl

theorem Distinct.visit (h : b.Distinct) (hvisit : b.visit i = .ok b') : b'.Distinct := by
  unfold Builder.visit at hvisit
  split at hvisit
  · cases hvisit
    exact h
  · split at hvisit
    · next value hvalue =>
      cases hvisit
      refine h.set fun entries hentries => ?_
      subst hentries
      obtain rfl := hollow?_mapping hvalue
      exact .nil
    · obtain ⟨s, -, hvisit⟩ := exists_of_bind_ok hvisit
      obtain ⟨a, -, hvisit⟩ := exists_of_bind_ok hvisit
      cases hvisit
      exact h.set fun entries hentries => by cases hentries

theorem Distinct.visitEntries {nodes : List (NodeId × NodeId)} (h : b.Distinct)
    (hfound : DistinctKeys found) (hvisit : b.visitEntries found nodes = .ok (b', es)) :
    b'.Distinct ∧ DistinctKeys es := by
  induction nodes generalizing b found with
  | nil =>
    cases hvisit
    exact ⟨h, hfound⟩
  | cons node rest ih =>
    obtain ⟨b₁, hkey, hvisit⟩ := exists_of_bind_ok hvisit
    obtain ⟨a, -, hvisit⟩ := exists_of_bind_ok hvisit
    obtain ⟨b₂, hvalue, hvisit⟩ := exists_of_bind_ok hvisit
    exact ih ((h.visit hkey).visit hvalue) (insertEntry_distinct hfound) hvisit

theorem Distinct.fillMapping (h : b.Distinct) (hfill : b.fillMapping i = .ok (b', es)) :
    b'.Distinct ∧ DistinctKeys es := by
  unfold Builder.fillMapping at hfill
  split at hfill
  · obtain ⟨g, -, hfill⟩ := exists_of_bind_ok hfill
    have hgraph : Distinct { b with graph := g } := h
    exact hgraph.visitEntries .nil hfill
  · cases hfill

theorem Distinct.fillPairs {pairs pairs' : List (NodeId × NodeId)} {nodes : List NodeId}
    (h : b.Distinct) (hfill : b.fillPairs pairs nodes = .ok (b', pairs')) : b'.Distinct := by
  induction nodes generalizing b pairs with
  | nil =>
    cases hfill
    exact h
  | cons node rest ih =>
    unfold Builder.fillPairs at hfill
    split at hfill
    · obtain ⟨b₁, hkey, hfill⟩ := exists_of_bind_ok hfill
      obtain ⟨b₂, hvalue, hfill⟩ := exists_of_bind_ok hfill
      exact ih ((h.visit hkey).visit hvalue) hfill
    · cases hfill

theorem Distinct.foldlM_visit {nodes : List NodeId} (h : b.Distinct)
    (hvisit : nodes.foldlM Builder.visit b = .ok b') : b'.Distinct := by
  induction nodes generalizing b with
  | nil =>
    cases hvisit
    exact h
  | cons node rest ih =>
    rw [List.foldlM_cons] at hvisit
    obtain ⟨b₁, hnode, hvisit⟩ := exists_of_bind_ok hvisit
    exact ih (h.visit hnode) hvisit

theorem Distinct.fill (h : b.Distinct) (hfill : b.fill i = .ok b') : b'.Distinct := by
  unfold Builder.fill at hfill
  dsimp only at hfill
  split at hfill
  · obtain ⟨b₁, hitems, hfill⟩ := exists_of_bind_ok hfill
    cases hfill
    exact (h.foldlM_visit hitems).set fun entries hentries => by cases hentries
  · obtain ⟨⟨b₁, es⟩, hmapping, hfill⟩ := exists_of_bind_ok hfill
    cases hfill
    obtain ⟨hb, hes⟩ := h.fillMapping hmapping
    exact hb.set fun entries hentries => Value.mapping.inj hentries ▸ hes
  · obtain ⟨⟨b₁, es⟩, hmapping, hfill⟩ := exists_of_bind_ok hfill
    cases hfill
    exact (h.fillMapping hmapping).1.set fun entries hentries => by cases hentries
  · obtain ⟨⟨b₁, es⟩, hpairs, hfill⟩ := exists_of_bind_ok hfill
    cases hfill
    exact (h.fillPairs hpairs).set fun entries hentries => by cases hentries
  · obtain ⟨⟨b₁, es⟩, hpairs, hfill⟩ := exists_of_bind_ok hfill
    cases hfill
    exact (h.fillPairs hpairs).set fun entries hentries => by cases hentries
  · cases hfill

theorem Distinct.run {n : Nat} (h : b.Distinct) (hrun : Builder.run n b = .ok b') :
    b'.Distinct := by
  induction n generalizing b with
  | zero =>
    cases hrun
    exact h
  | succ n ih =>
    unfold Builder.run at hrun
    split at hrun
    · cases hrun
      exact h
    · next j rest hqueue =>
      obtain ⟨b₁, hfill, hrun⟩ := exists_of_bind_ok hrun
      have hqueue : Distinct { b with queue := rest } := h
      exact ih (hqueue.fill hfill) hrun

end Builder

theorem mem_of_value {d : Data} {i : NodeId} {entries : List (Atom × NodeId)}
    (h : d.value i = .mapping entries) : some (.mapping entries) ∈ d.values.toList := by
  unfold Data.value at h
  rcases hfound : d.values.getD i none with _ | value
  · rw [hfound] at h
    cases h
  · rw [hfound] at h
    obtain rfl : value = .mapping entries := h
    unfold Array.getD at hfound
    split at hfound
    · next hlt => exact hfound ▸ Array.getElem_mem_toList hlt
    · cases hfound

/-- No two keys of a mapping in a document are the same text. -/
theorem distinctKeys_of_load {source : Source} {d : Data} (h : load source = .ok (some d))
    {i : NodeId} {entries : List (Atom × NodeId)} (hi : d.value i = .mapping entries) :
    DistinctKeys entries := by
  obtain ⟨found, -, h⟩ := exists_of_bind_ok h
  rcases found with _ | ⟨g, root⟩
  · cases h
  obtain ⟨b₁, hvisit, h⟩ := exists_of_bind_ok h
  obtain ⟨b₂, hrun, h⟩ := exists_of_bind_ok h
  cases h
  have hempty : Builder.Distinct { graph := g, values := Array.replicate g.nodes.size none } := by
    intro entries hmem
    rw [Array.toList_replicate] at hmem
    cases (List.eq_of_mem_replicate hmem)
  exact (hempty.visit hvisit).run hrun entries (mem_of_value hi)

namespace Data

/-- The value of a key is the one that stands with it. -/
theorem entry?_eq_some_iff {d : Data} {entries : List (Atom × NodeId)}
    (hroot : d.value d.root = .mapping entries) (h : DistinctKeys entries) {name : String}
    {i : NodeId} : d.entry? name = some i ↔ (.text name, i) ∈ entries := by
  unfold entry?
  rw [hroot]
  clear hroot
  dsimp only
  induction entries with
  | nil => exact ⟨nofun, nofun⟩
  | cons first rest ih =>
    obtain ⟨k, v⟩ := first
    obtain ⟨hfirst, hrest⟩ := List.pairwise_cons.mp h
    rw [List.find?_cons, List.mem_cons, Prod.mk.injEq]
    rcases hsame : k.same (.text name) with _ | _
    · have hne : k ≠ .text name := fun hk =>
        Bool.false_ne_true (hsame.symm.trans (Atom.same_text_iff.mpr hk))
      rw [ih hrest]
      exact ⟨.inr, fun hmem => hmem.resolve_left fun heq => hne heq.1.symm⟩
    · have hk : k = .text name := Atom.same_text_iff.mp hsame
      refine ⟨fun hv => .inl ⟨hk.symm, (Option.some.inj hv).symm⟩, fun hmem => ?_⟩
      rcases hmem with ⟨-, hv⟩ | hmem
      · exact congrArg some hv.symm
      · exact absurd rfl (hfirst _ hmem name hk)

end Data

end Hyperstory.Yaml
