import Descent.Grammar
import Mathlib.Data.List.Forall2
import Mathlib.Logic.Relation

/-!
# What a grammar is made of

`Part` leads from a grammar to what it is immediately made of, and from a reference to its definition.
`Occurs` follows such steps any number of times, through definitions that refer to each other.

What is written down is finite: `terms` lists the parsers that a grammar is written with, as many as
its size, and `reach` those of a grammar and of all definitions. No step leads out of `reach`.
-/

namespace Descent.Grammar

/-! ### Parts -/

/-- What a grammar is immediately made of. A reference is made of its definition. -/
inductive Part (defs : Definitions Empty) : Grammar Empty → Grammar Empty → Prop
  | sequence {parts g} : g ∈ parts → Part defs (.sequence parts) g
  | choice {first others g} : g ∈ first :: others → Part defs (.choice first others) g
  | many1 {g} : Part defs (.many1 g) g
  | optional {g backtrack} : Part defs (.optional g backtrack) g
  | attempt {g} : Part defs (.attempt g) g
  | label {text g} : Part defs (.label text g) g
  | map {f g} : Part defs (.map f g) g
  | combine {f parts g} : g ∈ parts → Part defs (.combine f parts) g
  | ref {name g} : defs.find? name = some g → Part defs (.ref name) g

/-- A grammar occurs in another, or in a definition that the other refers to. -/
abbrev Occurs (defs : Definitions Empty) (h g : Grammar Empty) : Prop :=
  Relation.ReflTransGen (Part defs) g h

/-- The grammars that look at a token themselves. -/
def isPrimitive : Grammar Empty → Bool
  | oneOf _ _ => true
  | noneOf _ _ => true
  | endOfInput => true
  | _ => false

section Parts

variable {defs : Definitions Empty} {g h k : Grammar Empty}

theorem Part.sequence_cons {gs : List (Grammar Empty)} (hp : Part defs (.sequence gs) k)
    (g : Grammar Empty) : Part defs (.sequence (g :: gs)) k := by
  cases hp with
  | sequence hk => exact .sequence (List.mem_cons_of_mem g hk)

theorem Part.choice_cons {gs : List (Grammar Empty)} (hp : Part defs (.choice h gs) k)
    (g : Grammar Empty) : Part defs (.choice g (h :: gs)) k := by
  cases hp with
  | choice hk => exact .choice (List.mem_cons_of_mem g hk)

theorem Part.combine_of_sequence {gs : List (Grammar Empty)} (hp : Part defs (.sequence gs) k)
    (f : List Value → Except Error Value) : Part defs (.combine f gs) k := by
  cases hp with
  | sequence hk => exact .combine hk

/-- What occurs inside a grammar occurs in every grammar with at least its parts. -/
theorem occurs_of_parts_subset (hk : Occurs defs k g) (hne : k ≠ g)
    (hparts : ∀ m, Part defs g m → Part defs h m) : Occurs defs k h := by
  rcases Relation.ReflTransGen.cases_head hk with rfl | ⟨m, hm, hmk⟩
  · exact absurd rfl hne
  · exact .head (hparts m hm) hmk

end Parts

/-! ### Terms -/

section Terms

variable {κ : Type}

mutual

/-- The parsers that a grammar is written with, itself first. -/
def terms : Grammar κ → List (Grammar κ)
  | oneOf type types => [oneOf type types]
  | noneOf type types => [noneOf type types]
  | endOfInput => [endOfInput]
  | sequence parts => sequence parts :: termsAll parts
  | choice first others => choice first others :: (terms first ++ termsAll others)
  | many1 inner => many1 inner :: terms inner
  | optional inner backtrack => optional inner backtrack :: terms inner
  | attempt inner => attempt inner :: terms inner
  | label text inner => label text inner :: terms inner
  | map f inner => map f inner :: terms inner
  | combine f parts => combine f parts :: termsAll parts
  | ref name => [ref name]
  | custom leaf => [custom leaf]

/-- The parsers that several grammars are written with. -/
def termsAll : List (Grammar κ) → List (Grammar κ)
  | [] => []
  | g :: gs => terms g ++ termsAll gs

end

mutual

theorem length_terms : ∀ g : Grammar κ, g.terms.length = g.size
  | oneOf _ _ | noneOf _ _ | endOfInput | ref _ | custom _ => by simp [terms, size]
  | sequence parts | combine _ parts => by simp [terms, size, length_termsAll parts]
  | choice first others => by
      simp [terms, size, length_terms first, length_termsAll others]
  | many1 inner | optional inner _ | attempt inner | label _ inner | map _ inner => by
      simp [terms, size, length_terms inner]

theorem length_termsAll : ∀ gs : List (Grammar κ), (termsAll gs).length = sizes gs
  | [] => by simp [termsAll, sizes]
  | g :: gs => by simp [termsAll, sizes, length_terms g, length_termsAll gs]

end

theorem mem_terms_self (g : Grammar κ) : g ∈ g.terms := by
  cases g <;> simp [terms]

theorem mem_termsAll {g : Grammar κ} {gs : List (Grammar κ)} :
    g ∈ termsAll gs ↔ ∃ h ∈ gs, g ∈ h.terms := by
  induction gs with
  | nil => simp [termsAll]
  | cons h gs ih => simp [termsAll, ih]

/-- A part that is written down is written down among the terms. -/
theorem Part.mem_terms {defs : Definitions Empty} {g h : Grammar Empty} (hp : Part defs g h) :
    h ∈ g.terms ∨ ∃ name, g = .ref name ∧ defs.find? name = some h := by
  cases hp with
  | sequence hm | combine hm =>
      left
      simp only [terms]
      exact List.mem_cons_of_mem _ (mem_termsAll.mpr ⟨h, hm, mem_terms_self h⟩)
  | choice hm =>
      left
      simp only [terms]
      apply List.mem_cons_of_mem
      exact mem_termsAll.mpr ⟨h, hm, mem_terms_self h⟩
  | many1 | optional | attempt | label | map =>
      left
      simp only [terms]
      exact List.mem_cons_of_mem _ (mem_terms_self h)
  | ref hd => exact .inr ⟨_, rfl, hd⟩

mutual

/-- What is written down in a term is written down in the whole. -/
theorem terms_subset {h : Grammar κ} : ∀ g : Grammar κ, h ∈ g.terms → h.terms ⊆ g.terms
  | oneOf _ _ | noneOf _ _ | endOfInput | ref _ | custom _ => by
      intro hh
      simp only [terms, List.mem_singleton] at hh
      simp [hh]
  | sequence parts | combine _ parts => by
      intro hh
      simp only [terms, List.mem_cons] at hh
      rcases hh with rfl | hh
      · exact List.Subset.refl _
      · simp only [terms]
        exact List.subset_cons_of_subset _ (terms_subset_all parts hh)
  | choice first others => by
      intro hh
      simp only [terms, List.mem_cons, List.mem_append] at hh
      rcases hh with rfl | hh | hh
      · exact List.Subset.refl _
      · have hsub := terms_subset first hh
        simp only [terms]
        exact List.subset_cons_of_subset _ (List.subset_append_of_subset_left _ hsub)
      · have hsub := terms_subset_all others hh
        simp only [terms]
        exact List.subset_cons_of_subset _ (List.subset_append_of_subset_right _ hsub)
  | many1 inner | optional inner _ | attempt inner | label _ inner | map _ inner => by
      intro hh
      simp only [terms, List.mem_cons] at hh
      rcases hh with rfl | hh
      · exact List.Subset.refl _
      · simp only [terms]
        exact List.subset_cons_of_subset _ (terms_subset inner hh)

theorem terms_subset_all {h : Grammar κ} :
    ∀ gs : List (Grammar κ), h ∈ termsAll gs → h.terms ⊆ termsAll gs
  | [] => by simp [termsAll]
  | g :: gs => by
      intro hh
      simp only [termsAll, List.mem_append] at hh
      rcases hh with hh | hh
      · exact List.subset_append_of_subset_left _ (terms_subset g hh)
      · exact List.subset_append_of_subset_right _ (terms_subset_all gs hh)

end

/-- Everything written down in a grammar and in the definitions. -/
def reach (defs : Definitions κ) (g : Grammar κ) : List (Grammar κ) :=
  termsAll (g :: defs.map (·.2))

theorem length_reach (defs : Definitions κ) (g : Grammar κ) :
    (reach defs g).length = g.size + defs.size := by
  rw [reach, length_termsAll, sizes, Definitions.size]

theorem self_mem_reach (defs : Definitions κ) (g : Grammar κ) : g ∈ reach defs g :=
  mem_termsAll.mpr ⟨g, List.mem_cons_self, mem_terms_self g⟩

/-- What is defined under a name is one of the definitions. -/
theorem mem_of_find? {defs : Definitions κ} {name : String} {g : Grammar κ}
    (h : defs.find? name = some g) : (name, g) ∈ defs := by
  obtain ⟨before, after, rfl, -⟩ := List.lookup_eq_some_iff.mp h
  simp

/-- Two systems whose definitions are related one by one define the same names, each by related
grammars. -/
theorem find?_of_forall₂ {R : Grammar κ → Grammar κ → Prop} {defs defs' : Definitions κ}
    (hdefs : List.Forall₂ (fun d d' => d.1 = d'.1 ∧ R d.2 d'.2) defs defs') (name : String) :
    (defs.find? name = none ∧ defs'.find? name = none) ∨
    ∃ g g', defs.find? name = some g ∧ defs'.find? name = some g' ∧ R g g' := by
  induction hdefs with
  | nil => exact .inl ⟨rfl, rfl⟩
  | @cons d d' rest rest' hd _ ih =>
      obtain ⟨key, g⟩ := d
      obtain ⟨key', g'⟩ := d'
      obtain ⟨rfl, hg⟩ : key = key' ∧ R g g' := hd
      simp only [Definitions.find?, List.lookup_cons] at ih ⊢
      cases name == key with
      | true => exact .inr ⟨g, g', rfl, rfl, hg⟩
      | false => exact ih

/-- No step leads out of what is written down. -/
theorem Part.mem_reach {defs : Definitions Empty} {g h k : Grammar Empty}
    (hh : h ∈ reach defs g) (hp : Part defs h k) : k ∈ reach defs g := by
  obtain ⟨m, hm, hhm⟩ := mem_termsAll.mp hh
  rcases hp.mem_terms with hk | ⟨name, -, hd⟩
  · exact mem_termsAll.mpr ⟨m, hm, terms_subset m hhm hk⟩
  · have hmem : k ∈ defs.map (·.2) := List.mem_map.mpr ⟨(name, k), mem_of_find? hd, rfl⟩
    exact mem_termsAll.mpr ⟨k, List.mem_cons_of_mem g hmem, mem_terms_self k⟩

theorem Occurs.mem_reach {defs : Definitions Empty} {g h : Grammar Empty} (hh : Occurs defs h g) :
    h ∈ reach defs g := by
  induction hh with
  | refl => exact self_mem_reach defs g
  | tail _ hp ih => exact hp.mem_reach ih

end Terms

end Descent.Grammar
