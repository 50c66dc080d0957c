import Descent.Proofs.Grammar.Depth
import Descent.Proofs.Grammar.Errors
import Descent.Proofs.Parser.Operations
import Mathlib.Order.WellFoundedSet

/-!
# Grammars without left recursion end

A grammar is *nullable* if it may match without consuming anything, and a reference in it is *leading*
if it may be come to before anything is consumed. If no definition can come to itself by leading
references, every run ends.

* `Runs.lt_or_nullable`: what matches consumes something or is nullable.
* `halts_of_leading`: at one index, a grammar ends if its leading references do. The induction is on
  the size of the grammar. Whatever is run after something was consumed is run at a later index.
* `halts_of_not_leftRecursive` puts the indices together, the last one first, and at each index the
  definitions, those that lead to no others first.
* `positional_parse`: so all that is said of positional parsers is said of such grammars.
-/

namespace Descent.Grammar

/-! ### Leading references -/

/-- The grammars that may match without consuming anything, by the least rules. -/
inductive Nullable (defs : Definitions Empty) : Grammar Empty → Prop
  | endOfInput : Nullable defs .endOfInput
  | sequence_nil : Nullable defs (.sequence [])
  | sequence_cons {g gs} : Nullable defs g → Nullable defs (.sequence gs) →
      Nullable defs (.sequence (g :: gs))
  | choice {first others g} : g ∈ first :: others → Nullable defs g →
      Nullable defs (.choice first others)
  | many1 {g} : Nullable defs g → Nullable defs (.many1 g)
  | optional {g backtrack} : Nullable defs (.optional g backtrack)
  | attempt {g} : Nullable defs g → Nullable defs (.attempt g)
  | label {text g} : Nullable defs g → Nullable defs (.label text g)
  | map {f g} : Nullable defs g → Nullable defs (.map f g)
  | combine {f gs} : Nullable defs (.sequence gs) → Nullable defs (.combine f gs)
  | ref {name g} : defs.find? name = some g → Nullable defs g → Nullable defs (.ref name)

/-- The grammar refers to the name at a place that is not behind a part which is not nullable. -/
inductive Leading (defs : Definitions Empty) : Grammar Empty → String → Prop
  | ref {name} : Leading defs (.ref name) name
  | sequence_head {g gs name} : Leading defs g name → Leading defs (.sequence (g :: gs)) name
  | sequence_tail {g gs name} : Nullable defs g → Leading defs (.sequence gs) name →
      Leading defs (.sequence (g :: gs)) name
  | choice {first others g name} : g ∈ first :: others → Leading defs g name →
      Leading defs (.choice first others) name
  | many1 {g name} : Leading defs g name → Leading defs (.many1 g) name
  | optional {g backtrack name} : Leading defs g name → Leading defs (.optional g backtrack) name
  | attempt {g name} : Leading defs g name → Leading defs (.attempt g) name
  | label {text g name} : Leading defs g name → Leading defs (.label text g) name
  | map {f g name} : Leading defs g name → Leading defs (.map f g) name
  | combine {f gs name} : Leading defs (.sequence gs) name → Leading defs (.combine f gs) name

/-- The definition of the one name has a leading reference to the other. -/
def LeadsTo (defs : Definitions Empty) (name name' : String) : Prop :=
  ∃ g, defs.find? name = some g ∧ Leading defs g name'

/-- Some definition can come to itself before anything is consumed. -/
def LeftRecursive (defs : Definitions Empty) : Prop :=
  ∃ name, Relation.TransGen (LeadsTo defs) name name

variable {defs : Definitions Empty} {T : Array Token} {g h : Grammar Empty}
  {gs : List (Grammar Empty)} {i j : Nat} {v : Verdict Value}

/-- Definitions whose leading references go down in rank are not left recursive. -/
theorem not_leftRecursive_of_rank (rank : String → Nat)
    (hrank : ∀ name name', LeadsTo defs name name' → rank name' < rank name) :
    ¬ LeftRecursive defs := by
  have hdown : ∀ name name', Relation.TransGen (LeadsTo defs) name name' →
      rank name' < rank name := by
    intro name name' hleads
    induction hleads with
    | single h => exact hrank _ _ h
    | tail _ h ih => exact Nat.lt_trans (hrank _ _ h) ih
  rintro ⟨name, hcycle⟩
  exact Nat.lt_irrefl _ (hdown name name hcycle)

/-! ### What matches consumes something or is nullable -/

theorem Runs.lt_or_nullable {a : Value} (hr : Runs defs T g i (.success a) j) (hi : i ≤ T.size) :
    i < j ∨ Nullable defs g := by
  generalize hv : Verdict.success a = v at hr
  induction hr generalizing a with
  | oneOf_match | noneOf_match | end_marked => exact .inl (Nat.lt_succ_self _)
  | end_reached => exact .inr .endOfInput
  | sequence_nil => exact .inr .sequence_nil
  | sequence_cons hg hgs ih ih' =>
      have hk := hg.bounds hi
      have hj := hgs.bounds hk.2
      rcases ih hi rfl with hlt | hnull
      · exact .inl (Nat.lt_of_lt_of_le hlt hj.1)
      · rcases ih' hk.2 rfl with hlt | hnull'
        · exact .inl (Nat.lt_of_le_of_lt hk.1 hlt)
        · exact .inr (.sequence_cons hnull hnull')
  | choice_match _ ih => exact (ih hi hv).imp_right (.choice List.mem_cons_self)
  | choice_next_match _ _ _ ih =>
      apply (ih hi hv).imp_right
      intro hnull
      cases hnull with
      | choice hmem hnull => exact .choice (List.mem_cons_of_mem _ hmem) hnull
  | many1_idle _ hle ih =>
      rcases ih hi rfl with hlt | hnull
      · exact absurd hlt (Nat.not_lt.mpr hle)
      · exact .inr (.many1 hnull)
  | many1_more hg hlt hgs _ _ =>
      have hj := hgs.bounds (hg.bounds hi).2
      exact .inl (Nat.lt_of_lt_of_le hlt hj.1)
  | many1_last _ hlt _ _ _ => exact .inl hlt
  | optional_match | optional_none => exact .inr .optional
  | attempt_match _ ih => exact (ih hi hv).imp_right .attempt
  | label _ ih => exact (ih hi (Verdict.success_eq_labelled.mp hv)).imp_right .label
  | map_match _ ih => exact (ih hi rfl).imp_right .map
  | combine_match _ ih => exact (ih hi rfl).imp_right .combine
  | ref hd _ ih => exact (ih hi hv).imp_right (.ref hd)
  | sequence_stop _ hm | sequence_later _ _ hm | many1_stop _ hm | attempt_stop _ hm | map_stop _ hm
  | combine_stop _ hm =>
      subst hv
      cases hm
  | _ => cases hv

/-! ### What a grammar needs to end -/

/-- The run of a grammar from this index ends. -/
def Halts (defs : Definitions Empty) (T : Array Token) (g : Grammar Empty) (i : Nat) : Prop :=
  ∃ v j, Runs defs T g i v j

theorem OneToken.halts {ok : TokenType → Prop} {expectation : String}
    (hg : OneToken defs T g ok expectation) (i : Nat) : Halts defs T g i := by
  by_cases hm : ∃ t, T[i]? = some t ∧ ok t.type
  · obtain ⟨t, ht, hok⟩ := hm
    exact ⟨_, _, hg.match_of ht hok⟩
  · exact ⟨_, _, hg.mismatch_of fun t ht hok => hm ⟨t, ht, hok⟩⟩

theorem Halts.of_primitive (hg : g.isPrimitive) : Halts defs T g i := by
  cases g with
  | oneOf type types => exact (oneToken_oneOf defs T type types).halts i
  | noneOf type types => exact (oneToken_noneOf defs T type types).halts i
  | endOfInput =>
      rcases ht : T[i]? with _ | t
      · exact ⟨_, _, .end_reached ht⟩
      · by_cases hm : t.type = endOfInputType
        · exact ⟨_, _, .end_marked ht hm⟩
        · exact ⟨_, _, .end_missed ht hm⟩
  | _ => cases hg

theorem Halts.sequence_cons (hg : Halts defs T g i)
    (hgs : ∀ a k, Runs defs T g i (.success a) k → Halts defs T (.sequence gs) k) :
    Halts defs T (.sequence (g :: gs)) i := by
  obtain ⟨v, k, hr⟩ := hg
  cases v with
  | failure f => exact ⟨_, _, .sequence_stop hr rfl⟩
  | raised e => exact ⟨_, _, .sequence_stop hr rfl⟩
  | success a =>
      obtain ⟨w, j, hr'⟩ := hgs a k hr
      cases w with
      | failure f => exact ⟨_, _, .sequence_later hr hr' rfl⟩
      | raised e => exact ⟨_, _, .sequence_later hr hr' rfl⟩
      | success b =>
          obtain ⟨as, rfl⟩ := hr'.sequence_value
          exact ⟨_, _, .sequence_cons hr hr'⟩

theorem Halts.choice (h : ∀ k ∈ g :: gs, Halts defs T k i) : Halts defs T (.choice g gs) i := by
  induction gs generalizing g with
  | nil =>
      obtain ⟨v, j, hr⟩ := h g List.mem_cons_self
      cases v with
      | success a => exact ⟨_, _, .choice_match hr⟩
      | failure f => exact ⟨_, _, .choice_only hr⟩
      | raised e => exact ⟨_, _, .choice_raised hr⟩
  | cons g' gs ih =>
      obtain ⟨v, j, hr⟩ := h g List.mem_cons_self
      obtain ⟨w, k, hr'⟩ := ih fun k hk => h k (List.mem_cons_of_mem g hk)
      cases v with
      | success a => exact ⟨_, _, .choice_match hr⟩
      | raised e => exact ⟨_, _, .choice_raised hr⟩
      | failure f =>
          cases w with
          | success a => exact ⟨_, _, .choice_next_match hr hr'⟩
          | raised e => exact ⟨_, _, .choice_next_raised hr hr'⟩
          | failure f' =>
              rcases Nat.lt_or_ge f.position.index f'.position.index with hlt | hle
              · exact ⟨_, _, .choice_deeper hr hr' hlt⟩
              · exact ⟨_, _, .choice_first hr hr' hle⟩

theorem Halts.many1 (hg : Halts defs T g i)
    (hrest : ∀ a k, Runs defs T g i (.success a) k → i < k → Halts defs T (.many1 g) k) :
    Halts defs T (.many1 g) i := by
  obtain ⟨v, k, hr⟩ := hg
  cases v with
  | failure f => exact ⟨_, _, .many1_stop hr rfl⟩
  | raised e => exact ⟨_, _, .many1_stop hr rfl⟩
  | success a =>
      rcases Nat.lt_or_ge i k with hlt | hle
      · obtain ⟨w, j, hr'⟩ := hrest a k hr hlt
        cases w with
        | failure f => exact ⟨_, _, .many1_last hr hlt hr'⟩
        | raised e => exact ⟨_, _, .many1_raised hr hlt hr'⟩
        | success b =>
            obtain ⟨as, rfl⟩ := hr'.many1_value
            exact ⟨_, _, .many1_more hr hlt hr'⟩
      · exact ⟨_, _, .many1_idle hr hle⟩

theorem Halts.optional (hg : Halts defs T g i) (backtrack : Bool) :
    Halts defs T (.optional g backtrack) i := by
  obtain ⟨v, j, hr⟩ := hg
  cases v with
  | success a => exact ⟨_, _, .optional_match hr⟩
  | failure f => exact ⟨_, _, .optional_none backtrack hr⟩
  | raised e => exact ⟨_, _, .optional_raised backtrack hr⟩

theorem Halts.attempt (hg : Halts defs T g i) : Halts defs T (.attempt g) i := by
  obtain ⟨v, j, hr⟩ := hg
  cases v with
  | success a => exact ⟨_, _, .attempt_match hr⟩
  | failure f => exact ⟨_, _, .attempt_stop hr rfl⟩
  | raised e => exact ⟨_, _, .attempt_stop hr rfl⟩

theorem Halts.label (hg : Halts defs T g i) (text : String) : Halts defs T (.label text g) i := by
  obtain ⟨v, j, hr⟩ := hg
  exact ⟨_, _, .label hr⟩

theorem Halts.map (hg : Halts defs T g i) (f : Value → Except Error Value) :
    Halts defs T (.map f g) i := by
  obtain ⟨v, j, hr⟩ := hg
  cases v with
  | success a => exact ⟨_, _, .map_match hr⟩
  | failure f => exact ⟨_, _, .map_stop hr rfl⟩
  | raised e => exact ⟨_, _, .map_stop hr rfl⟩

theorem Halts.combine (hgs : Halts defs T (.sequence gs) i)
    (f : List Value → Except Error Value) : Halts defs T (.combine f gs) i := by
  obtain ⟨v, j, hr⟩ := hgs
  cases v with
  | failure f => exact ⟨_, _, .combine_stop hr rfl⟩
  | raised e => exact ⟨_, _, .combine_stop hr rfl⟩
  | success a =>
      obtain ⟨as, rfl⟩ := hr.sequence_value
      exact ⟨_, _, .combine_match hr⟩

theorem Halts.ref {name : String} (h : ∀ g, defs.find? name = some g → Halts defs T g i) :
    Halts defs T (.ref name) i := by
  rcases hd : defs.find? name with _ | g
  · exact ⟨_, _, .undefined hd⟩
  · obtain ⟨v, j, hr⟩ := h g hd
    exact ⟨_, _, .ref hd hr⟩

theorem size_lt_of_mem (hg : g ∈ gs) : g.size < sizes gs + 1 := by
  induction gs with
  | nil => cases hg
  | cons h gs ih =>
      rw [sizes]
      rcases List.mem_cons.mp hg with rfl | hg
      · omega
      · have := ih hg
        omega

/-- A sequence ends if each of its parts does wherever its own leading references do. -/
theorem halts_sequence (hi : i ≤ T.size)
    (hlater : ∀ j g, i < j → j ≤ T.size → Halts defs T g j)
    (hparts : ∀ k ∈ gs, (∀ name, Leading defs k name → Halts defs T (.ref name) i) →
      Halts defs T k i)
    (hrefs : ∀ name, Leading defs (.sequence gs) name → Halts defs T (.ref name) i) :
    Halts defs T (.sequence gs) i := by
  induction gs with
  | nil => exact ⟨_, _, .sequence_nil⟩
  | cons g gs ih =>
      have hg := hparts g List.mem_cons_self fun name h => hrefs name (.sequence_head h)
      apply hg.sequence_cons
      intro a k hr
      have hk := hr.bounds hi
      rcases Nat.lt_or_eq_of_le hk.1 with hlt | rfl
      · exact hlater k _ hlt hk.2
      · -- Nothing was consumed, so that what leads in the rest leads in the whole.
        have hnull := (hr.lt_or_nullable hi).resolve_left (Nat.lt_irrefl _)
        apply ih
        · intro k hk
          exact hparts k (List.mem_cons_of_mem g hk)
        · intro name h
          exact hrefs name (.sequence_tail hnull h)

/-- At one index, a grammar ends if its leading references do, and everything ends at later ones. -/
theorem halts_of_leading (hi : i ≤ T.size)
    (hlater : ∀ j g, i < j → j ≤ T.size → Halts defs T g j)
    (hrefs : ∀ name, Leading defs g name → Halts defs T (.ref name) i) : Halts defs T g i := by
  induction hn : g.size using Nat.strongRecOn generalizing g with
  | _ n ih =>
      subst hn
      cases g with
      | oneOf type types => exact .of_primitive rfl
      | noneOf type types => exact .of_primitive rfl
      | endOfInput => exact .of_primitive rfl
      | sequence parts =>
          apply halts_sequence hi hlater
          · intro k hk hrefs'
            exact ih _ (size_lt_of_mem hk) hrefs' rfl
          · exact hrefs
      | choice first others =>
          apply Halts.choice
          intro k hk
          refine ih _ ?_ (fun name h => hrefs name (.choice hk h)) rfl
          have hlt := size_lt_of_mem hk
          rwa [sizes] at hlt
      | many1 inner =>
          have hinner : Halts defs T inner i :=
            ih _ (Nat.lt_succ_self _) (fun name h => hrefs name (.many1 h)) rfl
          apply hinner.many1
          intro a k hr hlt
          exact hlater k _ hlt (hr.bounds hi).2
      | optional inner backtrack =>
          have hinner : Halts defs T inner i :=
            ih _ (Nat.lt_succ_self _) (fun name h => hrefs name (.optional h)) rfl
          exact hinner.optional backtrack
      | attempt inner =>
          have hinner : Halts defs T inner i :=
            ih _ (Nat.lt_succ_self _) (fun name h => hrefs name (.attempt h)) rfl
          exact hinner.attempt
      | label text inner =>
          have hinner : Halts defs T inner i :=
            ih _ (Nat.lt_succ_self _) (fun name h => hrefs name (.label h)) rfl
          exact hinner.label text
      | map f inner =>
          have hinner : Halts defs T inner i :=
            ih _ (Nat.lt_succ_self _) (fun name h => hrefs name (.map h)) rfl
          exact hinner.map f
      | combine f parts =>
          have hparts : Halts defs T (.sequence parts) i := by
            apply halts_sequence hi hlater
            · intro k hk hrefs'
              exact ih _ (size_lt_of_mem hk) hrefs' rfl
            · intro name h
              exact hrefs name (.combine h)
          exact hparts.combine f
      | ref name => exact hrefs name .ref
      | custom leaf => exact leaf.elim

/-! ### One definition after another -/

/-- The names that are defined. -/
def defined (defs : Definitions Empty) : Set String := {name | ∃ g, defs.find? name = some g}

theorem finite_defined (defs : Definitions Empty) : (defined defs).Finite := by
  have hfinite : {name | name ∈ defs.map (·.1)}.Finite := List.finite_toSet _
  apply hfinite.subset
  rintro name ⟨g, hd⟩
  exact List.mem_map.mpr ⟨(name, g), mem_of_find? hd, rfl⟩

/-- Without left recursion the defined names can be gone through so that each comes after all that it
leads to. -/
theorem wellFoundedOn_defined (hleft : ¬ LeftRecursive defs) :
    (defined defs).WellFoundedOn fun name' name => Relation.TransGen (LeadsTo defs) name name' := by
  have : IsStrictOrder String fun name' name => Relation.TransGen (LeadsTo defs) name name' :=
    { irrefl := fun name hcycle => hleft ⟨name, hcycle⟩
      trans := fun _ _ _ h h' => h'.trans h }
  exact (finite_defined defs).wellFoundedOn

/-- **Without left recursion every run ends.** -/
theorem halts_of_not_leftRecursive (hleft : ¬ LeftRecursive defs) (T : Array Token)
    (g : Grammar Empty) (hi : i ≤ T.size) : Halts defs T g i := by
  induction hk : T.size - i using Nat.strongRecOn generalizing g i with
  | _ k ih =>
      have hlater : ∀ j g, i < j → j ≤ T.size → Halts defs T g j := by
        intro j g hlt hj
        exact ih _ (by omega) g hj rfl
      have hundefined : ∀ name, name ∉ defined defs → Halts defs T (.ref name) i := by
        intro name hname
        exact .ref fun g hd => absurd ⟨g, hd⟩ hname
      have hdefined : ∀ name ∈ defined defs, Halts defs T (.ref name) i := by
        intro name hname
        apply (wellFoundedOn_defined hleft).induction hname
        intro name _ ihname
        apply Halts.ref
        intro g hd
        apply halts_of_leading hi hlater
        intro name' hlead
        by_cases hname' : name' ∈ defined defs
        · exact ihname name' hname' (.single ⟨g, hd, hlead⟩)
        · exact hundefined name' hname'
      apply halts_of_leading hi hlater
      intro name _
      by_cases hname : name ∈ defined defs
      · exact hdefined name hname
      · exact hundefined name hname

/-- **Without left recursion a grammar denotes a positional parser.** -/
theorem positional_parse (hand : Empty → Parser Value) (hleft : ¬ LeftRecursive defs)
    (g : Grammar Empty) : (parse hand defs g).Positional := by
  have hon : ∀ {c : Cursor} {v : Verdict Value} {d : Cursor}, c.Ordered →
      parse hand defs g c = some (v, d) → c.Onward d := fun hc h =>
    ((parse_eq_some_iff hc.index_le_size).mp h).onward (balanced_of_empty hand) hc.index_le_size
  constructor
  case ends =>
    intro c hc
    obtain ⟨v, j, hr⟩ := halts_of_not_leftRecursive hleft c.tokens g hc.index_le_size
    have hends : Ends hand defs g c v (c.moveTo j) := ends_of_runs hr c.saved hc.index_le_size
    rw [parse_of_ends hc.index_le_size hends]
    nofun
  case operates =>
    intro c v d hc h
    exact ((Cursor.onward_iff_steps hc).mp (hon hc h)).1
  case saved_eq => exact fun c v d hc h => (hon hc h).saved_eq
  case index_le => exact fun c v d hc h => (hon hc h).index_le
  case decided =>
    intro c c' v d hc hc' htokens hindex h
    have hr := runs_of_ends hc.index_le_size ((parse_eq_some_iff hc.index_le_size).mp h)
    rw [← htokens, ← hindex] at hr
    have hends : Ends hand defs g c' v (c'.moveTo d.index) :=
      ends_of_runs hr c'.saved hc'.index_le_size
    exact ⟨_, parse_of_ends hc'.index_le_size hends, rfl⟩

/-- **A system without left recursion parses everything.** -/
theorem parse_ends_of_not_leftRecursive (hand : Empty → Parser Value) (defs : Definitions Empty)
    (g : Grammar Empty) {c : Cursor} (hleft : ¬ LeftRecursive defs)
    (hdefined : ∀ name, Occurs defs (.ref name) g → ∃ h, defs.find? name = some h)
    (hc : c.index ≤ c.tokens.size) :
    ∃ v d, parse hand defs g c = some (v, d) ∧ ∀ e, v = .raised e →
      (∃ f h a, Occurs defs (.map f h) g ∧ f a = .error e) ∨
      ∃ f gs as, Occurs defs (.combine f gs) g ∧ f as = .error e := by
  obtain ⟨v, j, hr⟩ := halts_of_not_leftRecursive hleft c.tokens g hc
  have hends : Ends hand defs g c v (c.moveTo j) := ends_of_runs hr c.saved hc
  refine ⟨v, c.moveTo j, parse_of_ends hc hends, ?_⟩
  rintro e rfl
  obtain ⟨h, hocc, hraiser⟩ := hr.hasRaiser
  cases hraiser with
  | map hf => exact .inl ⟨_, _, _, hocc, hf⟩
  | combine hf => exact .inr ⟨_, _, _, hocc, hf⟩
  | undefined hnone =>
      obtain ⟨k, hsome⟩ := hdefined _ hocc
      rw [hnone] at hsome
      cases hsome

/-- Lists of letters and of lists in parentheses: a list begins with an item after an optional space,
and an item that is no letter begins with a parenthesis. -/
theorem parse_ends_of_not_leftRecursive_lists :
    let defs : Definitions Empty :=
      [("list", .sequence [.optional (.oneOf "space" []) true, .ref "item",
        .optional (.many1 (.sequence [.oneOf "comma" [], .ref "item"])) false]),
      ("item", .choice (.map (fun v => .ok v.tokenText) (.oneOf "letter" []))
        [.sequence [.oneOf "lparen" [], .ref "list", .oneOf "rparen" []]])]
    let g : Grammar Empty := .sequence [.label "list" (.ref "list"), .endOfInput]
    let c : Cursor :=
      ⟨#[⟨"space", " ", .start⟩, ⟨"lparen", "(", .start⟩, ⟨"letter", "a", .start⟩], 1, [0]⟩
    ¬ LeftRecursive defs ∧ (∀ name, Occurs defs (.ref name) g → ∃ h, defs.find? name = some h) ∧
      c.index ≤ c.tokens.size ∧ ∃ v d, parse nofun defs g c = some (v, d) := by
  intro defs g c
  have hitem : ¬ Nullable defs (.ref "item") := by
    intro hnull
    cases hnull with
    | ref hd hnull =>
        cases hd
        cases hnull with
        | choice hmem hnull =>
            simp only [List.mem_cons, List.not_mem_nil, or_false] at hmem
            rcases hmem with rfl | rfl
            · cases hnull with
              | map h => cases h
            · cases hnull with
              | sequence_cons h _ => cases h
  have hleft : ¬ LeftRecursive defs := by
    apply not_leftRecursive_of_rank fun name => if name = "list" then 1 else 0
    rintro name name' ⟨k, hd, hlead⟩
    have hmem := mem_of_find? hd
    simp only [defs, List.mem_cons, List.not_mem_nil, or_false, Prod.mk.injEq] at hmem
    rcases hmem with ⟨rfl, rfl⟩ | ⟨rfl, rfl⟩
    · cases hlead with
      | sequence_head h =>
          cases h with
          | optional h => cases h
      | sequence_tail _ h =>
          cases h with
          | sequence_head h =>
              cases h
              decide
          | sequence_tail hnull _ => exact absurd hnull hitem
    · cases hlead with
      | choice hk h =>
          simp only [List.mem_cons, List.not_mem_nil, or_false] at hk
          rcases hk with rfl | rfl
          · cases h with
            | map h => cases h
          · cases h with
            | sequence_head h => cases h
            | sequence_tail hnull _ => cases hnull
  have hdefined : ∀ name, Occurs defs (.ref name) g → ∃ h, defs.find? name = some h := by
    intro name hocc
    have hreach : name = "list" ∨ name = "item" ∨ name = "list" := by
      simpa [reach, termsAll, terms, g, defs] using hocc.mem_reach
    rcases hreach with rfl | rfl | rfl <;> exact ⟨_, rfl⟩
  have hc : c.index ≤ c.tokens.size := by decide
  obtain ⟨v, d, hparse, -⟩ := parse_ends_of_not_leftRecursive nofun defs g hleft hdefined hc
  exact ⟨hleft, hdefined, hc, v, d, hparse⟩

end Descent.Grammar
