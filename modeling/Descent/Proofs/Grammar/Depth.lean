import Descent.Proofs.Grammar.Refinement
import Mathlib.Data.List.Perm.Subperm
import Mathlib.Data.List.ProdSigma

/-!
# How deep a run goes

A run that ends never comes back, on its way down, to a grammar at an index where it is already: it
would do the same again, and so on for ever. All pairs of a grammar and an index that it passes are
therefore different. The grammars are among those that are written down, and the indices are those of
the tokens and of the end, so that a run that ends at all ends within as many levels as there are
such pairs. That many are what `levels` gives: `parse` ends exactly if some number of levels is
enough, and then in the same way.

* `Carries` compares runs with two numbers of levels, over any two stacks. A form of grammar carries
  one level more than its parts (`carries_succ`).
* `carries_of_visited` counts. The induction is on the levels that a run needs; what is carried along
  are the pairs that were passed, all of which need more levels than are left.
-/

namespace Descent.Grammar

variable {hand : Empty → Parser Value} {defs : Definitions Empty} {T : Array Token} {n m : Nat}
  {g : Grammar Empty} {gs : List (Grammar Empty)} {c d : Cursor} {v : Verdict Value}

/-- Whatever `g` comes to within `n` levels, it comes to within `m`, whatever positions are stored. -/
def Carries (hand : Empty → Parser Value) (defs : Definitions Empty) (T : Array Token) (n m : Nat)
    (g : Grammar Empty) : Prop :=
  ∀ ⦃i S v d⦄, i ≤ T.size → parser hand defs n g ⟨T, i, S⟩ = some (v, d) →
    ∀ S', parser hand defs m g ⟨T, i, S'⟩ = some (v, ⟨T, d.index, S'⟩)

/-! ### One level more -/

theorem Carries.of_primitive (hg : g.isPrimitive) : Carries hand defs T (n + 1) (m + 1) g := by
  intro i S v d hi hr S'
  have hruns : Runs defs T g i v d.index := runs_of_ends (c := ⟨T, i, S⟩) hi ⟨n + 1, hr⟩
  have hone := hruns.parser_eq_of_primitive hg hand S' hi
  exact parser_below (Nat.le_add_left 1 m) g hone

theorem Carries.sequence (h : ∀ g ∈ gs, Carries hand defs T n m g) :
    Carries hand defs T (n + 1) (m + 1) (.sequence gs) := by
  intro i S v d hi hr S'
  induction gs generalizing i v d with
  | nil =>
      rw [parser_sequence_nil] at hr
      cases hr
      exact parser_sequence_nil m _
  | cons g gs ih =>
      rw [parser_sequence_cons] at hr
      obtain ⟨⟨w, e⟩, he, hr⟩ := Option.bind_eq_some_iff.mp hr
      have he' := h g List.mem_cons_self hi he S'
      obtain ⟨j, rfl, hj⟩ := exists_moveTo (c := ⟨T, i, S⟩) hi he
      rw [parser_sequence_cons, he']
      cases w with
      | failure f => cases hr; rfl
      | raised e => cases hr; rfl
      | success a =>
          obtain ⟨⟨w, d'⟩, hd, heq⟩ := Option.map_eq_some_iff.mp hr
          have hd' := ih (fun g hg => h g (List.mem_cons_of_mem _ hg)) hj hd
          cases heq
          rw [Option.bind_some]
          simp only [Cursor.index_moveTo, hd']
          rfl

theorem Carries.combine {f : List Value → Except Error Value}
    (h : ∀ g ∈ gs, Carries hand defs T n m g) :
    Carries hand defs T (n + 1) (m + 1) (.combine f gs) := by
  intro i S v d hi hr S'
  rw [parser_combine] at hr
  obtain ⟨⟨w, e⟩, he, heq⟩ := Option.map_eq_some_iff.mp hr
  have he' := Carries.sequence h hi he S'
  cases heq
  rw [parser_combine, he']
  rfl

theorem Carries.choice (h : ∀ k ∈ g :: gs, Carries hand defs T n m k) :
    Carries hand defs T (n + 1) (m + 1) (.choice g gs) := by
  intro i S v d hi hr S'
  have hhand := balanced_of_empty hand
  induction gs generalizing g v d with
  | nil =>
      rw [parser_choice_nil (c := ⟨T, i, S⟩) hhand n g hi] at hr
      obtain ⟨⟨w, e⟩, he, heq⟩ := Option.map_eq_some_iff.mp hr
      have he' := h g List.mem_cons_self hi he (i :: S')
      rw [parser_choice_nil (c := ⟨T, i, S'⟩) hhand m g hi]
      simp only [Cursor.store, he']
      cases w <;> cases heq <;> rfl
  | cons g' gs ih =>
      rw [parser_choice_cons (c := ⟨T, i, S⟩) hhand n g g' gs hi] at hr
      obtain ⟨⟨w, e⟩, he, hr⟩ := Option.bind_eq_some_iff.mp hr
      have he' := h g List.mem_cons_self hi he (i :: S')
      rw [parser_choice_cons (c := ⟨T, i, S'⟩) hhand m g g' gs hi]
      simp only [Cursor.store, he', Option.bind_some]
      cases w with
      | success a => cases hr; rfl
      | raised e => cases hr; rfl
      | failure f =>
          obtain ⟨⟨w, d'⟩, hd, heq⟩ := Option.map_eq_some_iff.mp hr
          have hd' := ih (fun k hk => h k (List.mem_cons_of_mem _ hk)) hd
          cases heq
          simp only [hd']
          rfl

theorem Carries.many1 (h : Carries hand defs T n m g) :
    Carries hand defs T (n + 1) (m + 1) (.many1 g) := by
  intro i S v d hi hr S'
  have hhand := balanced_of_empty hand
  induction hk : T.size - i using Nat.strongRecOn generalizing i v d with
  | _ k ih =>
      rw [parser_many1 (c := ⟨T, i, S⟩) hhand n g hi] at hr
      obtain ⟨⟨w, e⟩, he, hr⟩ := Option.bind_eq_some_iff.mp hr
      obtain ⟨j, rfl, hj⟩ := exists_moveTo_store (c := ⟨T, i, S⟩) hi he
      have he' : parser hand defs m g (Cursor.store ⟨T, i, S'⟩) = some (w, ⟨T, j, i :: S'⟩) :=
        h hi he (i :: S')
      rw [parser_many1 (c := ⟨T, i, S'⟩) hhand m g hi, he', Option.bind_some]
      cases w with
      | failure f => cases hr; rfl
      | raised e => cases hr; rfl
      | success a =>
          by_cases hlt : i < j
          · have hrest := (if_pos hlt).symm.trans hr
            obtain ⟨⟨w, d'⟩, hd, heq⟩ := Option.map_eq_some_iff.mp hrest
            have hless : T.size - j < k := by
              have : j ≤ T.size := hj
              omega
            have hd' := ih _ hless hj hd rfl
            cases heq
            exact (if_pos hlt).trans (Option.map_eq_some_iff.mpr ⟨_, hd', rfl⟩)
          · have hrest := (if_neg hlt).symm.trans hr
            cases hrest
            exact if_neg hlt

theorem Carries.attempt (h : Carries hand defs T n m g) :
    Carries hand defs T (n + 1) (m + 1) (.attempt g) := by
  intro i S v d hi hr S'
  have hhand := balanced_of_empty hand
  rw [parser_attempt (c := ⟨T, i, S⟩) hhand n g hi] at hr
  obtain ⟨⟨w, e⟩, he, heq⟩ := Option.map_eq_some_iff.mp hr
  have he' := h hi he (i :: S')
  rw [parser_attempt (c := ⟨T, i, S'⟩) hhand m g hi]
  simp only [Cursor.store, he']
  cases w <;> cases heq <;> rfl

theorem Carries.optional (h : Carries hand defs T n m g) (backtrack : Bool) :
    Carries hand defs T (n + 1) (m + 1) (.optional g backtrack) := by
  intro i S v d hi hr S'
  have hhand := balanced_of_empty hand
  cases backtrack with
  | true =>
      rw [parser_optional_true (c := ⟨T, i, S⟩) hhand n g hi] at hr
      obtain ⟨⟨w, e⟩, he, heq⟩ := Option.map_eq_some_iff.mp hr
      have he' := h hi he (i :: S')
      rw [parser_optional_true (c := ⟨T, i, S'⟩) hhand m g hi]
      simp only [Cursor.store, he']
      cases w <;> cases heq <;> rfl
  | false =>
      rw [parser_optional_false] at hr
      obtain ⟨⟨w, e⟩, he, heq⟩ := Option.map_eq_some_iff.mp hr
      have he' := h hi he S'
      rw [parser_optional_false, he']
      cases heq
      rfl

theorem Carries.label (h : Carries hand defs T n m g) (text : String) :
    Carries hand defs T (n + 1) (m + 1) (.label text g) := by
  intro i S v d hi hr S'
  rw [parser_label] at hr
  obtain ⟨⟨w, e⟩, he, heq⟩ := Option.map_eq_some_iff.mp hr
  have he' := h hi he S'
  rw [parser_label, he']
  cases heq
  rfl

theorem Carries.map (h : Carries hand defs T n m g) (f : Value → Except Error Value) :
    Carries hand defs T (n + 1) (m + 1) (.map f g) := by
  intro i S v d hi hr S'
  rw [parser_map] at hr
  obtain ⟨⟨w, e⟩, he, heq⟩ := Option.map_eq_some_iff.mp hr
  have he' := h hi he S'
  rw [parser_map, he']
  cases heq
  rfl

/-- A grammar carries one level more than its parts. -/
theorem carries_succ (h : ∀ k, Part defs g k → Carries hand defs T n m k) :
    Carries hand defs T (n + 1) (m + 1) g := by
  cases g with
  | oneOf type types => exact .of_primitive rfl
  | noneOf type types => exact .of_primitive rfl
  | endOfInput => exact .of_primitive rfl
  | sequence parts => exact .sequence fun k hk => h k (.sequence hk)
  | choice first others => exact .choice fun k hk => h k (.choice hk)
  | many1 inner => exact (h inner .many1).many1
  | optional inner backtrack => exact (h inner .optional).optional backtrack
  | attempt inner => exact (h inner .attempt).attempt
  | label text inner => exact (h inner .label).label text
  | map f inner => exact (h inner .map).map f
  | combine f parts => exact .combine fun k hk => h k (.combine hk)
  | ref name =>
      intro i S v d hi hr S'
      rcases hd : defs.find? name with _ | k
      · rw [parser_ref_undefined hd] at hr ⊢
        cases hr
        rfl
      · rw [parser_ref hd] at hr ⊢
        exact h k (.ref hd) hi hr S'
  | custom leaf => exact leaf.elim

/-- Within the same levels a run ends in the same way whatever positions are stored. -/
theorem carries_self (n : Nat) (g : Grammar Empty) : Carries hand defs T n n g := by
  induction n generalizing g with
  | zero => exact fun i S v d _ hr => nomatch hr
  | succ n ih => exact carries_succ fun k _ => ih k

/-! ### As many levels as there are pairs -/

/-- The pairs of a grammar and an index that a run of `g` over `T` may pass. -/
def places (defs : Definitions Empty) (T : Array Token) (g : Grammar Empty) :
    List (Grammar Empty × Nat) :=
  reach defs g ×ˢ List.range (T.size + 1)

theorem mem_places {h : Grammar Empty} {i : Nat} :
    (h, i) ∈ places defs T g ↔ h ∈ reach defs g ∧ i ≤ T.size := by
  rw [places, List.mem_product, List.mem_range, Nat.lt_succ_iff]

theorem length_places (defs : Definitions Empty) (T : Array Token) (g : Grammar Empty) :
    (places defs T g).length = (g.size + defs.size) * (T.size + 1) := by
  rw [places, List.length_product, length_reach, List.length_range]

/-- With the places passed so far, none of which is done within the levels that are left, a run needs
no more levels than there are other places. -/
theorem carries_of_visited {V : List (Grammar Empty × Nat)} (hnodup : V.Nodup)
    (hsub : V ⊆ places defs T g)
    (hV : ∀ p ∈ V, ∀ S, parser hand defs n p.1 ⟨T, p.2, S⟩ = none)
    (hm : (places defs T g).length ≤ m + V.length) {h : Grammar Empty} (hh : h ∈ reach defs g) :
    Carries hand defs T n m h := by
  induction n generalizing V m h with
  | zero => exact fun i S v d _ hr => nomatch hr
  | succ n ih =>
      intro i S v d hi hr S'
      have hV' : ∀ p ∈ V, ∀ S, parser hand defs n p.1 ⟨T, p.2, S⟩ = none := by
        intro p hp S
        apply Option.eq_none_iff_forall_ne_some.mpr
        intro r hr
        have hnone := hV p hp S
        rw [parser_below_succ n p.1 hr] at hnone
        cases hnone
      by_cases hdone : ∃ r, parser hand defs n h ⟨T, i, S⟩ = some r
      · -- One level less is enough, and this place need not be counted.
        obtain ⟨r, hr'⟩ := hdone
        rw [parser_unique hr' hr] at hr'
        exact ih hnodup hsub hV' hm hh hi hr' S'
      · -- The place was not passed before, since it is done within the levels that are left.
        have hnone : ∀ S, parser hand defs n h ⟨T, i, S⟩ = none := by
          intro S₁
          apply Option.eq_none_iff_forall_ne_some.mpr
          rintro ⟨w, e⟩ hr'
          exact hdone ⟨_, carries_self n h hi hr' S⟩
        have hnew : (h, i) ∉ V := by
          intro hmem
          rw [hV _ hmem S] at hr
          cases hr
        have hnodup' : ((h, i) :: V).Nodup := List.nodup_cons.mpr ⟨hnew, hnodup⟩
        have hsub' : (h, i) :: V ⊆ places defs T g :=
          List.cons_subset.mpr ⟨mem_places.mpr ⟨hh, hi⟩, hsub⟩
        have hV'' : ∀ p ∈ (h, i) :: V, ∀ S, parser hand defs n p.1 ⟨T, p.2, S⟩ = none := by
          intro p hp
          rcases List.mem_cons.mp hp with rfl | hp
          · exact hnone
          · exact hV' p hp
        have hlength := (List.subperm_of_subset hnodup' hsub').length_le
        rw [List.length_cons] at hlength
        obtain ⟨m, rfl⟩ : ∃ k, m = k + 1 := ⟨m - 1, by omega⟩
        have hm' : (places defs T g).length ≤ m + ((h, i) :: V).length := by
          rw [List.length_cons]
          omega
        have hparts : ∀ k, Part defs h k → Carries hand defs T n m k :=
          fun k hk => ih hnodup' hsub' hV'' hm' (hk.mem_reach hh)
        exact carries_succ hparts hi hr S'

/-- **Every run that ends needs no more levels than it is given.** -/
theorem parse_of_ends (hc : c.index ≤ c.tokens.size) (h : Ends hand defs g c v d) :
    parse hand defs g c = some (v, d) := by
  obtain ⟨n, hn⟩ := h
  have hcarries : Carries hand defs c.tokens n (places defs c.tokens g).length g :=
    carries_of_visited List.nodup_nil (List.nil_subset _) nofun (Nat.le_refl _)
      (self_mem_reach defs g)
  have hparser := hcarries hc hn c.saved
  have hlevels : (places defs c.tokens g).length ≤ levels defs g c := by
    rw [length_places, levels, Nat.mul_comm]
    have hle : c.tokens.size + 1 ≤ c.tokens.size + c.depth + 1 := by omega
    exact Nat.le_succ_of_le (Nat.mul_le_mul_right _ hle)
  have hon := parser_balanced (balanced_of_empty hand) n g hc hn
  rw [parse, hon.eq_moveTo]
  exact parser_below hlevels g hparser

/-- `parse` gives exactly what a run with any number of levels comes to. -/
theorem parse_eq_some_iff (hc : c.index ≤ c.tokens.size) :
    parse hand defs g c = some (v, d) ↔ Ends hand defs g c v d :=
  ⟨fun h => ⟨_, h⟩, parse_of_ends hc⟩

end Descent.Grammar
