import Descent.Tokenizer
import Mathlib.Data.List.Forall2
import Mathlib.Data.List.Induction

/-!
# Ways to build a tokenizer

A tokenizer is built step by step, each step giving a new one from the last, or at once from a list
of entries. Both ways lead to the same tokenizer or to the same error.

* `Rule.MadeOf` and `Rule.Refused` say outright which matchers and types make a rule, and what is
  said of the others. `Rule.make` decides between the two (`make_eq_ok_iff`, `make_eq_error_iff`).
* `withRule_eq_ofEntries` says that a step is a tokenizer built anew: from the rules that are there,
  which are accepted as they are, and one entry more.
* `build_eq_ofEntries` puts the steps together. Newline types may be given at any time in between,
  and the last one counts.
-/

namespace Descent

/-! ### Outcomes with errors -/

/-- Two computations in a row end well if both do. -/
theorem bind_eq_ok_iff {ε α β : Type} {x : Except ε α} {f : α → Except ε β} {b : β} :
    x >>= f = .ok b ↔ ∃ a, x = .ok a ∧ f a = .ok b := by
  cases x <;> simp [bind, Except.bind]

/-- Two computations in a row end with the error of the first, or with that of the second. -/
theorem bind_eq_error_iff {ε α β : Type} {x : Except ε α} {f : α → Except ε β} {e : ε} :
    x >>= f = .error e ↔ x = .error e ∨ ∃ a, x = .ok a ∧ f a = .error e := by
  cases x <;> simp [bind, Except.bind]

theorem mapM_eq_ok_iff {ε α β : Type} {f : α → Except ε β} {as : List α} {bs : List β} :
    as.mapM f = .ok bs ↔ List.Forall₂ (fun a b => f a = .ok b) as bs := by
  induction as generalizing bs with
  | nil => cases bs <;> simp [pure, Except.pure]
  | cons a as ih =>
      simp only [List.mapM_cons, bind_eq_ok_iff, ih, List.forall₂_cons_left_iff]
      simp [pure, Except.pure, eq_comm]

/-! ### Rules that are made, and rules that are refused -/

namespace Rule

/-- The rule of a matcher and a type: of a text of one character, or of a class. -/
inductive MadeOf : Rule → MatcherSpec × TokenType → Prop
  | literal (c : Char) (type : TokenType) (h : type ≠ "") :
      MadeOf ⟨.literal c, type, h⟩ (.literal (String.singleton c), type)
  | pattern (k : CharClass) (type : TokenType) (h : type ≠ "") :
      MadeOf ⟨.pattern k, type, h⟩ (.pattern k, type)

/-- What is said of a matcher and a type that make no rule. An empty type is reported whatever the
matcher is. -/
inductive Refused : MatcherSpec × TokenType → RuleError → Prop
  | emptyType (spec : MatcherSpec) : Refused (spec, "") .emptyType
  | literalLength (text : String) (type : TokenType) :
      type ≠ "" → text.length ≠ 1 → Refused (.literal text, type) (.literalLength text)
  | notAMatcher (kind : String) (type : TokenType) :
      type ≠ "" → Refused (.unusable kind, type) (.notAMatcher kind)

variable {spec : MatcherSpec} {type : TokenType} {r : Rule} {e : RuleError}

theorem MadeOf.make_eq (h : r.MadeOf (spec, type)) : make spec type = .ok r := by
  cases h with
  | literal c type h => simp [make, h, MatcherSpec.check, bind, Except.bind, pure, Except.pure]
  | pattern k type h => simp [make, h, MatcherSpec.check, bind, Except.bind, pure, Except.pure]

theorem Refused.make_eq (h : Refused (spec, type) e) : make spec type = .error e := by
  cases h with
  | emptyType => simp [make]
  | literalLength text type htype hlength =>
      have hcheck : (MatcherSpec.literal text).check = .error (.literalLength text) := by
        simp only [MatcherSpec.check]
        split
        next c htext => exact absurd (by rw [← String.length_toList, htext]; rfl) hlength
        · rfl
      simp [make, htype, hcheck, bind, Except.bind]
  | notAMatcher kind type htype => simp [make, htype, MatcherSpec.check, bind, Except.bind]

/-- Every matcher and every type make a rule or are refused. -/
theorem madeOf_or_refused (spec : MatcherSpec) (type : TokenType) :
    (∃ r, MadeOf r (spec, type)) ∨ ∃ e, Refused (spec, type) e := by
  by_cases htype : type = ""
  · subst htype
    exact .inr ⟨_, .emptyType spec⟩
  cases spec with
  | pattern k => exact .inl ⟨_, .pattern k type htype⟩
  | unusable kind => exact .inr ⟨_, .notAMatcher kind type htype⟩
  | literal text =>
      by_cases hlength : text.length = 1
      · obtain ⟨c, hc⟩ := List.length_eq_one_iff.mp ((String.length_toList).trans hlength)
        have htext : text = String.singleton c := by
          rw [← String.toList_inj, hc, String.toList_singleton]
        subst htext
        exact .inl ⟨_, .literal c type htype⟩
      · exact .inr ⟨_, .literalLength text type htype hlength⟩

theorem make_eq_ok_iff : make spec type = .ok r ↔ r.MadeOf (spec, type) := by
  refine ⟨fun h => ?_, MadeOf.make_eq⟩
  rcases madeOf_or_refused spec type with ⟨r', hr'⟩ | ⟨e, he⟩
  · rw [hr'.make_eq] at h
    cases h
    exact hr'
  · rw [he.make_eq] at h
    cases h

theorem make_eq_error_iff : make spec type = .error e ↔ Refused (spec, type) e := by
  refine ⟨fun h => ?_, Refused.make_eq⟩
  rcases madeOf_or_refused spec type with ⟨r, hr⟩ | ⟨e', he'⟩
  · rw [hr.make_eq] at h
    cases h
  · rw [he'.make_eq] at h
    cases h
    exact he'

end Rule

namespace Tokenizer

/-! ### Steps and entries -/

/-- One step of building: one more rule, or another newline type. -/
inductive BuildStep
  | rule (spec : MatcherSpec) (type : TokenType)
  | newline (type : TokenType)

/-- The tokenizer after a step. -/
def BuildStep.take (t : Tokenizer) : BuildStep → Except RuleError Tokenizer
  | rule spec type => t.withRule spec type
  | newline type => .ok (t.withNewlineType type)

/-- The tokenizer after these steps, from the one without rules. -/
def build (steps : List BuildStep) : Except RuleError Tokenizer :=
  steps.foldlM BuildStep.take {}

/-- The matchers and types that are given, in this order. -/
def pairs (steps : List BuildStep) : List (MatcherSpec × TokenType) :=
  steps.filterMap fun
    | .rule spec type => some (spec, type)
    | .newline _ => none

/-- The last newline type that is given, if there is one. -/
def lastNewline (steps : List BuildStep) : Option TokenType :=
  (steps.filterMap fun
    | .rule _ _ => none
    | .newline type => some type).getLast?

/-- A matcher and a type as an entry. -/
def Entry.ofPair (p : MatcherSpec × TokenType) : Entry := .pair p.1 p.2

/-- An entry for a matcher and a type: the two themselves, or their rule ready made. -/
inductive Entry.StandsFor : Entry → MatcherSpec × TokenType → Prop
  | pair (spec : MatcherSpec) (type : TokenType) : StandsFor (.pair spec type) (spec, type)
  | ready {r : Rule} {p : MatcherSpec × TokenType} : r.MadeOf p → StandsFor (.ready r) p

variable {t : Tokenizer} {steps : List BuildStep} {entries more : List Entry}
  {newline : Option TokenType} {e : RuleError}

theorem build_concat (steps : List BuildStep) (step : BuildStep) :
    build (steps ++ [step]) = build steps >>= fun t => step.take t := by
  simp [build, List.foldlM_append]

theorem pairs_concat_rule (steps : List BuildStep) (spec : MatcherSpec) (type : TokenType) :
    pairs (steps ++ [.rule spec type]) = pairs steps ++ [(spec, type)] := by
  simp [pairs]

theorem pairs_concat_newline (steps : List BuildStep) (type : TokenType) :
    pairs (steps ++ [.newline type]) = pairs steps := by
  simp [pairs]

theorem lastNewline_concat_rule (steps : List BuildStep) (spec : MatcherSpec) (type : TokenType) :
    lastNewline (steps ++ [.rule spec type]) = lastNewline steps := by
  simp [lastNewline]

theorem lastNewline_concat_newline (steps : List BuildStep) (type : TokenType) :
    lastNewline (steps ++ [.newline type]) = some type := by
  simp [lastNewline]

/-! ### Building at once -/

theorem ofEntries_eq_ok_iff : ofEntries entries newline = .ok t ↔
    entries.mapM Entry.rule = .ok t.rules ∧ t.newlineType = newline := by
  unfold ofEntries
  rw [bind_eq_ok_iff]
  constructor
  · rintro ⟨rules, hrules, h⟩
    cases h
    exact ⟨hrules, rfl⟩
  · rintro ⟨hrules, rfl⟩
    exact ⟨t.rules, hrules, rfl⟩

theorem ofEntries_eq_error_iff :
    ofEntries entries newline = .error e ↔ entries.mapM Entry.rule = .error e := by
  unfold ofEntries
  rw [bind_eq_error_iff]
  simp [pure, Except.pure]

/-- Rules that are ready are accepted as they are. -/
theorem mapM_rule_ready (rules : List Rule) :
    (rules.map Entry.ready).mapM Entry.rule = .ok rules := by
  rw [mapM_eq_ok_iff, List.forall₂_map_left_iff, List.forall₂_same]
  exact fun r _ => rfl

/-- Entries that make rules may be replaced by these. -/
theorem ofEntries_append_of_ok (h : ofEntries entries newline = .ok t) :
    ofEntries (entries ++ more) newline = ofEntries (t.rules.map .ready ++ more) newline := by
  obtain ⟨hrules, -⟩ := ofEntries_eq_ok_iff.mp h
  simp only [ofEntries, List.mapM_append, hrules, mapM_rule_ready]

/-- What follows an entry that is refused is not looked at. -/
theorem ofEntries_append_of_error (h : ofEntries entries newline = .error e) :
    ofEntries (entries ++ more) newline = .error e := by
  rw [ofEntries_eq_error_iff] at h ⊢
  rw [List.mapM_append, h]
  rfl

/-- **One more rule is a tokenizer built anew,** from the rules that are there and the new one. -/
theorem withRule_eq_ofEntries (t : Tokenizer) (spec : MatcherSpec) (type : TokenType) :
    t.withRule spec type = ofEntries (t.rules.map .ready ++ [.pair spec type]) t.newlineType := by
  unfold withRule ofEntries
  rw [List.mapM_append, mapM_rule_ready]
  simp only [List.mapM_cons, List.mapM_nil, Entry.rule]
  cases Rule.make spec type <;> rfl

/-- Another newline type is a tokenizer built anew with it. -/
theorem withNewlineType_ofEntries (entries : List Entry) (newline : Option TokenType)
    (type : TokenType) :
    ofEntries entries newline >>= (fun t => .ok (t.withNewlineType type)) =
      ofEntries entries (some type) := by
  unfold ofEntries
  cases entries.mapM Entry.rule <;> rfl

/-! ### Both ways -/

/-- **Steps lead to what is built at once from the matchers and types that they give.** -/
theorem build_eq_ofEntries (steps : List BuildStep) :
    build steps = ofEntries ((pairs steps).map .ofPair) (lastNewline steps) := by
  induction steps using List.reverseRecOn with
  | nil => rfl
  | append_singleton steps step ih =>
      rw [build_concat, ih]
      cases step with
      | newline type =>
          rw [pairs_concat_newline, lastNewline_concat_newline]
          exact withNewlineType_ofEntries _ _ type
      | rule spec type =>
          rw [pairs_concat_rule, lastNewline_concat_rule, List.map_append]
          rcases h : ofEntries ((pairs steps).map .ofPair) (lastNewline steps) with e | t
          · exact (ofEntries_append_of_error h).symm
          · rw [ofEntries_append_of_ok h, ← (ofEntries_eq_ok_iff.mp h).2]
            exact withRule_eq_ofEntries t spec type

/-- An entry is checked as what it stands for. -/
theorem Entry.StandsFor.rule_eq {entry : Entry} {p : MatcherSpec × TokenType}
    (h : entry.StandsFor p) : entry.rule = (Entry.ofPair p).rule := by
  cases h with
  | pair => rfl
  | ready hmade => exact hmade.make_eq.symm

/-- It does not matter which of the rules are ready made. -/
theorem ofEntries_of_standFor {ps : List (MatcherSpec × TokenType)}
    (h : List.Forall₂ Entry.StandsFor entries ps) (newline : Option TokenType) :
    ofEntries entries newline = ofEntries (ps.map .ofPair) newline := by
  have hrules : entries.mapM Entry.rule =
      (ps.map Entry.ofPair).mapM Entry.rule := by
    induction h with
    | nil => rfl
    | cons hentry _ ih => rw [List.map_cons, List.mapM_cons, List.mapM_cons, hentry.rule_eq, ih]
  rw [ofEntries, ofEntries, hrules]

/-- The rules of a tokenizer that is built are those of the matchers and types given. -/
theorem madeOf_of_build (h : build steps = .ok t) :
    List.Forall₂ Rule.MadeOf t.rules (pairs steps) := by
  rw [build_eq_ofEntries] at h
  have hrules := mapM_eq_ok_iff.mp (ofEntries_eq_ok_iff.mp h).1
  rw [List.forall₂_map_left_iff] at hrules
  exact hrules.flip.imp fun r p hr => Rule.make_eq_ok_iff.mp hr

theorem newlineType_of_build (h : build steps = .ok t) : t.newlineType = lastNewline steps := by
  rw [build_eq_ofEntries] at h
  exact (ofEntries_eq_ok_iff.mp h).2

/-- A tokenizer is built only if all matchers and types make rules. -/
theorem exists_madeOf_of_build (h : build steps = .ok t) :
    ∀ p ∈ pairs steps, ∃ r, Rule.MadeOf r p := by
  have hmade := madeOf_of_build h
  generalize t.rules = rules at hmade
  generalize pairs steps = ps at hmade ⊢
  induction hmade with
  | nil => simp
  | cons hr _ ih =>
      intro p hp
      rcases List.mem_cons.mp hp with rfl | hp
      · exact ⟨_, hr⟩
      · exact ih p hp

/-- Building fails at the first step that is refused. -/
theorem exists_refused_of_build (h : build steps = .error e) :
    ∃ before spec type after t, steps = before ++ .rule spec type :: after ∧
      build before = .ok t ∧ t.withRule spec type = .error e := by
  induction steps using List.reverseRecOn with
  | nil => cases h
  | append_singleton steps step ih =>
      rw [build_concat, bind_eq_error_iff] at h
      rcases h with h | ⟨t, ht, hstep⟩
      · obtain ⟨before, spec, type, after, t, rfl, ht, hrule⟩ := ih h
        exact ⟨before, spec, type, after ++ [step], t, by simp, ht, hrule⟩
      · cases step with
        | newline type => cases hstep
        | rule spec type => exact ⟨steps, spec, type, [], t, rfl, ht, hstep⟩

/-- If all matchers and types make rules, then building does not fail. -/
theorem exists_build (h : ∀ p ∈ pairs steps, ∃ r, Rule.MadeOf r p) : ∃ t, build steps = .ok t := by
  rcases hbuild : build steps with e | t
  · obtain ⟨before, spec, type, after, t, rfl, -, hrule⟩ := exists_refused_of_build hbuild
    obtain ⟨r, hr⟩ := h (spec, type) (by simp [pairs])
    simp [withRule, hr.make_eq, bind, Except.bind, pure, Except.pure] at hrule
  · exact ⟨t, rfl⟩

/-- **All ways of building a tokenizer agree.** Take any steps, and for each matcher and type that
they give an entry that stands for it, ready made or not.

If every matcher and type make a rule, then the steps and the entries lead to one and the same
tokenizer. Its rules are those of the matchers and types in the order of the steps, and its newline
type is the last that was given.

Otherwise there is a first step whose matcher and type are refused. The steps before it succeed,
this step fails, and the steps as a whole and the entries as a whole fail with the error of this
step. -/
theorem steps_and_entries_agree (hentries : List.Forall₂ Entry.StandsFor entries (pairs steps)) :
    ((∀ p ∈ pairs steps, ∃ r, Rule.MadeOf r p) →
      ∃ t, build steps = .ok t ∧ ofEntries entries (lastNewline steps) = .ok t ∧
        List.Forall₂ Rule.MadeOf t.rules (pairs steps) ∧ t.newlineType = lastNewline steps) ∧
    ((∃ p ∈ pairs steps, ¬ ∃ r, Rule.MadeOf r p) →
      ∃ before spec type after t e, steps = before ++ .rule spec type :: after ∧
        (∀ p ∈ pairs before, ∃ r, Rule.MadeOf r p) ∧ Rule.Refused (spec, type) e ∧
        build before = .ok t ∧ t.withRule spec type = .error e ∧
        build steps = .error e ∧ ofEntries entries (lastNewline steps) = .error e) := by
  have hagree : ofEntries entries (lastNewline steps) = build steps := by
    rw [ofEntries_of_standFor hentries, build_eq_ofEntries]
  rw [hagree]
  constructor
  · intro hmade
    obtain ⟨t, ht⟩ := exists_build hmade
    exact ⟨t, ht, ht, madeOf_of_build ht, newlineType_of_build ht⟩
  · rintro ⟨p, hp, hnone⟩
    rcases hbuild : build steps with e | t
    · obtain ⟨before, spec, type, after, t, hsteps, ht, hrule⟩ := exists_refused_of_build hbuild
      have hrefused : Rule.Refused (spec, type) e := by
        rw [withRule, bind_eq_error_iff] at hrule
        apply Rule.make_eq_error_iff.mp
        simpa [pure, Except.pure] using hrule
      exact ⟨before, spec, type, after, t, e, hsteps, exists_madeOf_of_build ht, hrefused, ht,
        hrule, rfl, rfl⟩
    · exact absurd (exists_madeOf_of_build hbuild p hp) hnone

/-- An empty type comes first, and a matcher that is none after it. The newline type that is given
last and the rule that is ready made do not matter. -/
theorem steps_and_entries_agree_at_first_refused :
    let steps : List BuildStep :=
      [.newline "end", .rule (.literal "a") "letter", .rule (.literal "ab") "",
        .rule (.unusable "int") "number", .newline "letter"]
    let entries : List Entry :=
      [.ready ⟨.literal 'a', "letter", by decide⟩, .pair (.literal "ab") "",
        .pair (.unusable "int") "number"]
    List.Forall₂ Entry.StandsFor entries (pairs steps) ∧
      (∃ p ∈ pairs steps, ¬ ∃ r, Rule.MadeOf r p) ∧
      ∃ before spec type after t e, steps = before ++ .rule spec type :: after ∧
        (∀ p ∈ pairs before, ∃ r, Rule.MadeOf r p) ∧ Rule.Refused (spec, type) e ∧
        build before = .ok t ∧ t.withRule spec type = .error e ∧
        build steps = .error e ∧ ofEntries entries (lastNewline steps) = .error e := by
  intro steps entries
  have hentries : List.Forall₂ Entry.StandsFor entries (pairs steps) :=
    .cons (.ready (.literal 'a' "letter" (by decide))) (.cons (.pair _ _) (.cons (.pair _ _) .nil))
  have hnone : ∃ p ∈ pairs steps, ¬ ∃ r, Rule.MadeOf r p := by
    refine ⟨(.literal "ab", ""), by simp [steps, pairs], ?_⟩
    rintro ⟨r, hr⟩
    have hmake := hr.make_eq
    rw [(Rule.Refused.emptyType _).make_eq] at hmake
    cases hmake
  exact ⟨hentries, hnone, (steps_and_entries_agree hentries).2 hnone⟩

end Tokenizer

end Descent
