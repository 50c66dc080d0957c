import Descent.Proofs.Grammar.Endings
import Descent.Proofs.Grammar.Parts
import Descent.Proofs.Grammar.Runs

/-!
# Runs with a stack and the meaning without

A grammar is run by a cursor that moves, stores positions and goes back to them. What it means is
said by `Runs`, which has nothing to go back with. The two agree, over every stack that the run
begins with, and the run leaves that stack as it was.

* **Soundness** (`runs_of_ends`): how a run ends is derived by the rules. The induction is on
  the levels; inside, the parts of a sequence or a choice are gone through by induction on the list,
  and the matches of a repetition by induction on the tokens that are left.
* **Completeness** (`ends_of_runs`): what the rules derive is how a run with enough levels ends. The
  induction is on the derivation, for all stacks at once.
-/

namespace Descent.Grammar

variable {hand : Empty → Parser Value} {defs : Definitions Empty} {n : Nat}

/-- Over `Empty` there is no parser written by hand to ask anything of. -/
theorem balanced_of_empty (hand : Empty → Parser Value) : ∀ leaf, (hand leaf).Balanced :=
  fun leaf => leaf.elim

/-! ### Soundness -/

/-- What these parsers answer is what the grammars mean. -/
def Sound (defs : Definitions Empty) (F : Grammar Empty → Parser Value) : Prop :=
  ∀ ⦃g c v d⦄, c.index ≤ c.tokens.size → F g c = some (v, d) → Runs defs c.tokens g c.index v d.index

section Soundness

variable {c d : Cursor} {v : Verdict Value} {g : Grammar Empty}

/-- Where a run ends is where its cursor was moved to. -/
theorem exists_moveTo (hc : c.index ≤ c.tokens.size) (h : parser hand defs n g c = some (v, d)) :
    ∃ j, d = c.moveTo j ∧ j ≤ c.tokens.size := by
  have hon := parser_balanced (balanced_of_empty hand) n g hc h
  exact ⟨d.index, hon.eq_moveTo, hon.index_le_size⟩

theorem exists_moveTo_store (hc : c.index ≤ c.tokens.size)
    (h : parser hand defs n g c.store = some (v, d)) :
    ∃ j, d = c.store.moveTo j ∧ j ≤ c.tokens.size :=
  exists_moveTo (c := c.store) hc h

/-- A grammar of one token means what a parser answers that tests for the same types. -/
theorem OneToken.runs {ok : TokenType → Prop} [DecidablePred ok] {expectation : String}
    (hg : OneToken defs c.tokens g ok expectation)
    (h : (Value.ofToken <$> Parser.tokenWith (fun type => decide (ok type)) expectation) c =
      some (v, d)) : Runs defs c.tokens g c.index v d.index := by
  rw [Parser.map_apply] at h
  obtain ⟨⟨w, d'⟩, hw, heq⟩ := Option.map_eq_some_iff.mp h
  cases heq
  obtain ⟨t, ht, hok, rfl, rfl⟩ | ⟨hno, rfl, rfl⟩ := Parser.tokenWith_cases hw
  · exact hg.match_of ht (of_decide_eq_true hok)
  · exact hg.mismatch_of fun t ht => of_decide_eq_false (hno t ht)

theorem runs_endOfInput (h : parser hand defs (n + 1) .endOfInput c = some (v, d)) :
    Runs defs c.tokens .endOfInput c.index v d.index := by
  rw [parser, Parser.map_apply] at h
  obtain ⟨⟨w, d'⟩, hw, heq⟩ := Option.map_eq_some_iff.mp h
  cases heq
  obtain ⟨ht, rfl, rfl⟩ | ⟨t, ht, hm, rfl, rfl⟩ | ⟨t, ht, hm, rfl, rfl⟩ :=
    Parser.endOfInput_cases hw
  · exact .end_reached ht
  · exact .end_marked ht hm
  · exact .end_missed ht hm

theorem Sound.sequence (ih : Sound defs (parser hand defs n)) (gs : List (Grammar Empty))
    (hc : c.index ≤ c.tokens.size) (h : parser hand defs (n + 1) (.sequence gs) c = some (v, d)) :
    Runs defs c.tokens (.sequence gs) c.index v d.index := by
  induction gs generalizing c v d with
  | nil =>
      rw [parser_sequence_nil] at h
      cases h
      exact .sequence_nil
  | cons g gs ihs =>
      rw [parser_sequence_cons] at h
      obtain ⟨⟨w, e⟩, he, h⟩ := Option.bind_eq_some_iff.mp h
      have hg := ih hc he
      obtain ⟨k, rfl, hk⟩ := exists_moveTo hc he
      cases w with
      | failure f => cases h; exact .sequence_stop hg rfl
      | raised e' => cases h; exact .sequence_stop hg rfl
      | success a =>
          obtain ⟨⟨w, e⟩, he', heq⟩ := Option.map_eq_some_iff.mp h
          have hgs := ihs (c := c.moveTo k) hk he'
          cases heq
          cases w with
          | failure f => exact .sequence_later hg hgs rfl
          | raised e' => exact .sequence_later hg hgs rfl
          | success b =>
              obtain ⟨as, rfl⟩ := hgs.sequence_value
              exact .sequence_cons hg hgs

theorem Sound.choice (ih : Sound defs (parser hand defs n)) (g : Grammar Empty)
    (gs : List (Grammar Empty)) (hc : c.index ≤ c.tokens.size)
    (h : parser hand defs (n + 1) (.choice g gs) c = some (v, d)) :
    Runs defs c.tokens (.choice g gs) c.index v d.index := by
  induction gs generalizing g v d with
  | nil =>
      rw [parser_choice_nil (balanced_of_empty hand) n g hc] at h
      obtain ⟨⟨w, e⟩, he, heq⟩ := Option.map_eq_some_iff.mp h
      have hg : Runs defs c.tokens g c.index w e.index := ih (c := c.store) hc he
      cases w with
      | success a => cases heq; exact .choice_match hg
      | failure f => cases heq; exact .choice_only hg
      | raised e' => cases heq; exact .choice_raised hg
  | cons g' gs ihs =>
      rw [parser_choice_cons (balanced_of_empty hand) n g g' gs hc] at h
      obtain ⟨⟨w, e⟩, he, h⟩ := Option.bind_eq_some_iff.mp h
      have hg : Runs defs c.tokens g c.index w e.index := ih (c := c.store) hc he
      cases w with
      | success a => cases h; exact .choice_match hg
      | raised e' => cases h; exact .choice_raised hg
      | failure f =>
          obtain ⟨⟨w, d'⟩, hd, heq⟩ := Option.map_eq_some_iff.mp h
          have hgs := ihs g' hd
          cases heq
          cases w with
          | success a => exact .choice_next_match hg hgs
          -- Without a match the others end where they began, and so does the whole.
          | raised e' =>
              have hstays := hgs.choice_stays rfl
              rw [hstays] at hgs ⊢
              exact .choice_next_raised hg hgs
          | failure f' =>
              have hstays := hgs.choice_stays rfl
              rw [hstays] at hgs ⊢
              show Runs defs c.tokens _ _ (.failure (Parser.deeper f f')) _
              by_cases hlt : f'.position.DeeperThan f.position
              · rw [Parser.deeper, if_pos hlt]
                exact .choice_deeper hg hgs hlt
              · rw [Parser.deeper, if_neg hlt]
                exact .choice_first hg hgs (Nat.le_of_not_lt hlt)

theorem Sound.many1 (ih : Sound defs (parser hand defs n)) (g : Grammar Empty)
    (hc : c.index ≤ c.tokens.size) (h : parser hand defs (n + 1) (.many1 g) c = some (v, d)) :
    Runs defs c.tokens (.many1 g) c.index v d.index := by
  induction hk : c.tokens.size - c.index using Nat.strongRecOn generalizing c v d with
  | _ k ihk =>
      rw [parser_many1 (balanced_of_empty hand) n g hc] at h
      obtain ⟨⟨w, e⟩, he, h⟩ := Option.bind_eq_some_iff.mp h
      have hg : Runs defs c.tokens g c.index w e.index := ih (c := c.store) hc he
      obtain ⟨j, rfl, hj⟩ := exists_moveTo_store hc he
      cases w with
      | failure f => cases h; exact .many1_stop hg rfl
      | raised e' => cases h; exact .many1_stop hg rfl
      | success a =>
          dsimp only at h
          split at h
          · next hlt =>
              obtain ⟨⟨w, e⟩, he', heq⟩ := Option.map_eq_some_iff.mp h
              have hrest : Runs defs c.tokens (.many1 g) j w e.index := by
                refine ihk _ ?_ (c := c.moveTo j) hj he' rfl
                simp only [Cursor.tokens_moveTo, Cursor.index_moveTo] at *
                omega
              cases w with
              | success b =>
                  obtain ⟨as, rfl⟩ := hrest.many1_value
                  cases heq
                  exact .many1_more hg hlt hrest
              | raised e' => cases heq; exact .many1_raised hg hlt hrest
              | failure f =>
                  -- The rest gave up at once, so that it ended where the match did.
                  have hstays := hrest.many1_stays
                  rw [hstays] at hrest
                  cases heq
                  rw [hstays]
                  exact .many1_last hg hlt hrest
          · next hle =>
              cases h
              exact .many1_idle hg (Nat.le_of_not_lt hle)

theorem Sound.attempt (ih : Sound defs (parser hand defs n)) (g : Grammar Empty)
    (hc : c.index ≤ c.tokens.size) (h : parser hand defs (n + 1) (.attempt g) c = some (v, d)) :
    Runs defs c.tokens (.attempt g) c.index v d.index := by
  rw [parser_attempt (balanced_of_empty hand) n g hc] at h
  obtain ⟨⟨w, e⟩, he, heq⟩ := Option.map_eq_some_iff.mp h
  have hg : Runs defs c.tokens g c.index w e.index := ih (c := c.store) hc he
  cases w with
  | success a => cases heq; exact .attempt_match hg
  | failure f => cases heq; exact .attempt_stop hg rfl
  | raised e' => cases heq; exact .attempt_stop hg rfl

theorem Sound.optional (ih : Sound defs (parser hand defs n)) (g : Grammar Empty) (backtrack : Bool)
    (hc : c.index ≤ c.tokens.size)
    (h : parser hand defs (n + 1) (.optional g backtrack) c = some (v, d)) :
    Runs defs c.tokens (.optional g backtrack) c.index v d.index := by
  cases backtrack with
  | true =>
      rw [parser_optional_true (balanced_of_empty hand) n g hc] at h
      obtain ⟨⟨w, e⟩, he, heq⟩ := Option.map_eq_some_iff.mp h
      have hg : Runs defs c.tokens g c.index w e.index := ih (c := c.store) hc he
      cases w with
      | success a => cases heq; exact .optional_match hg
      | failure f => cases heq; exact .optional_none true hg
      | raised e' => cases heq; exact .optional_raised true hg
  | false =>
      rw [parser_optional_false] at h
      obtain ⟨⟨w, e⟩, he, heq⟩ := Option.map_eq_some_iff.mp h
      have hg := ih hc he
      cases w with
      | success a => cases heq; exact .optional_match hg
      | failure f => cases heq; exact .optional_none false hg
      | raised e' => cases heq; exact .optional_raised false hg

theorem Sound.label (ih : Sound defs (parser hand defs n)) (text : String) (g : Grammar Empty)
    (hc : c.index ≤ c.tokens.size)
    (h : parser hand defs (n + 1) (.label text g) c = some (v, d)) :
    Runs defs c.tokens (.label text g) c.index v d.index := by
  rw [parser_label] at h
  obtain ⟨⟨w, e⟩, he, heq⟩ := Option.map_eq_some_iff.mp h
  cases heq
  exact .label (ih hc he)

theorem Sound.map (ih : Sound defs (parser hand defs n)) (f : Value → Except Error Value)
    (g : Grammar Empty) (hc : c.index ≤ c.tokens.size)
    (h : parser hand defs (n + 1) (.map f g) c = some (v, d)) :
    Runs defs c.tokens (.map f g) c.index v d.index := by
  rw [parser_map] at h
  obtain ⟨⟨w, e⟩, he, heq⟩ := Option.map_eq_some_iff.mp h
  have hg := ih hc he
  cases w with
  | success a => cases heq; exact .map_match hg
  | failure f => cases heq; exact .map_stop hg rfl
  | raised e' => cases heq; exact .map_stop hg rfl

theorem Sound.combine (ih : Sound defs (parser hand defs n)) (f : List Value → Except Error Value)
    (gs : List (Grammar Empty)) (hc : c.index ≤ c.tokens.size)
    (h : parser hand defs (n + 1) (.combine f gs) c = some (v, d)) :
    Runs defs c.tokens (.combine f gs) c.index v d.index := by
  rw [parser_combine] at h
  obtain ⟨⟨w, e⟩, he, heq⟩ := Option.map_eq_some_iff.mp h
  have hgs := ih.sequence gs hc he
  cases w with
  | success a =>
      obtain ⟨as, rfl⟩ := hgs.sequence_value
      cases heq
      exact .combine_match hgs
  | failure f => cases heq; exact .combine_stop hgs rfl
  | raised e' => cases heq; exact .combine_stop hgs rfl

theorem Sound.ref (ih : Sound defs (parser hand defs n)) (name : String)
    (hc : c.index ≤ c.tokens.size) (h : parser hand defs (n + 1) (.ref name) c = some (v, d)) :
    Runs defs c.tokens (.ref name) c.index v d.index := by
  rcases hd : defs.find? name with _ | g
  · rw [parser_ref_undefined hd] at h
    cases h
    exact .undefined hd
  · rw [parser_ref hd] at h
    exact .ref hd (ih hc h)

theorem sound (n : Nat) : Sound defs (parser hand defs n) := by
  induction n with
  | zero => exact fun g c v d _ h => nomatch h
  | succ n ih =>
      intro g c v d hc h
      cases g with
      | oneOf type types => exact (oneToken_oneOf defs c.tokens type types).runs h
      | noneOf type types => exact (oneToken_noneOf defs c.tokens type types).runs h
      | endOfInput => exact runs_endOfInput h
      | sequence parts => exact ih.sequence parts hc h
      | choice first others => exact ih.choice first others hc h
      | many1 inner => exact ih.many1 inner hc h
      | optional inner backtrack => exact ih.optional inner backtrack hc h
      | attempt inner => exact ih.attempt inner hc h
      | label text inner => exact ih.label text inner hc h
      | map f inner => exact ih.map f inner hc h
      | combine f parts => exact ih.combine f parts hc h
      | ref name => exact ih.ref name hc h
      | custom leaf => exact leaf.elim

/-- **Soundness.** How a run ends is derived, whatever positions are stored. -/
theorem runs_of_ends (hc : c.index ≤ c.tokens.size) (h : Ends hand defs g c v d) :
    Runs defs c.tokens g c.index v d.index := by
  obtain ⟨n, hn⟩ := h
  exact sound n hc hn

end Soundness

/-! ### Completeness -/

section Completeness

variable {T : Array Token} {g : Grammar Empty} {i j : Nat} {v : Verdict Value}

/-- **Completeness.** What is derived is how a run ends, whatever positions are stored. -/
theorem ends_of_runs (h : Runs defs T g i v j) (S : List Nat) (hi : i ≤ T.size) :
    Ends hand defs g ⟨T, i, S⟩ v ⟨T, j, S⟩ := by
  have hhand := balanced_of_empty hand
  -- A part that may be undone runs over one more stored position, which the induction hypothesis
  -- covers at the stack `i :: S`.
  induction h generalizing S with
  | oneOf_match ht hm | noneOf_match ht hm =>
      exact ⟨1, ofToken_tokenWith_match ht (decide_eq_true hm)⟩
  | oneOf_mismatch hm =>
      exact ⟨1, ofToken_tokenWith_mismatch fun t ht => decide_eq_false (hm t ht)⟩
  | noneOf_mismatch hm =>
      exact ⟨1, ofToken_tokenWith_mismatch fun t ht => decide_eq_false (not_not_intro (hm t ht))⟩
  | end_reached ht => exact ⟨1, parser_end_reached 0 ht⟩
  | end_marked ht hm => exact ⟨1, parser_end_marked 0 ht hm⟩
  | end_missed ht hm => exact ⟨1, parser_end_missed 0 ht hm⟩
  | sequence_nil => exact ⟨1, parser_sequence_nil 0 _⟩
  | sequence_cons hg _ ih ih' => exact .sequence_cons (ih S hi) (ih' S (hg.bounds hi).2)
  | sequence_stop _ hv ih => exact .sequence_stop (ih S hi) hv
  | sequence_later hg _ hv ih ih' =>
      have hlater := Ends.sequence_cons (ih S hi) (ih' S (hg.bounds hi).2)
      rwa [Verdict.prepend_of_not_matched hv] at hlater
  | @choice_match g gs i a j _ ih =>
      exact Ends.choice_match (c := ⟨T, i, S⟩) hhand hi (ih (i :: S) hi)
  | @choice_raised g gs i e j _ ih =>
      exact Ends.choice_raised (c := ⟨T, i, S⟩) hhand hi (ih (i :: S) hi)
  | @choice_only g i f j _ ih =>
      exact Ends.choice_only (c := ⟨T, i, S⟩) hhand hi (ih (i :: S) hi)
  | @choice_next_match g h gs i f k a j _ _ ih ih' =>
      exact Ends.choice_next (c := ⟨T, i, S⟩) hhand hi (ih (i :: S) hi) (ih' S hi)
  | @choice_next_raised g h gs i f k e j _ hgs ih ih' =>
      have hends := ih' S hi
      rw [hgs.choice_stays rfl] at hends
      exact Ends.choice_next (c := ⟨T, i, S⟩) hhand hi (ih (i :: S) hi) hends
  | @choice_first g h gs i f k f' j _ hgs hle ih ih' =>
      have hends := ih' S hi
      rw [hgs.choice_stays rfl] at hends
      have hnext := Ends.choice_next (c := ⟨T, i, S⟩) hhand hi (ih (i :: S) hi) hends
      have hdeeper : ¬ f'.position.DeeperThan f.position := Nat.not_lt.mpr hle
      rwa [Verdict.orElse, Parser.deeper, if_neg hdeeper] at hnext
  | @choice_deeper g h gs i f k f' j _ hgs hlt ih ih' =>
      have hends := ih' S hi
      rw [hgs.choice_stays rfl] at hends
      have hnext := Ends.choice_next (c := ⟨T, i, S⟩) hhand hi (ih (i :: S) hi) hends
      have hdeeper : f'.position.DeeperThan f.position := hlt
      rwa [Verdict.orElse, Parser.deeper, if_pos hdeeper] at hnext
  | @many1_stop g i v j _ hv ih =>
      exact Ends.many1_stop (c := ⟨T, i, S⟩) hhand hi (ih (i :: S) hi) hv
  | @many1_idle g i a j _ hle ih =>
      exact Ends.many1_idle (c := ⟨T, i, S⟩) hhand hi (ih (i :: S) hi) hle
  | @many1_more g i a k as j hg hlt _ ih ih' =>
      have hrest := ih' S (hg.bounds hi).2
      exact Ends.many1_more (c := ⟨T, i, S⟩) hhand hi (ih (i :: S) hi) hlt hrest
  | @many1_last g i a k f j hg hlt hgs ih ih' =>
      have hrest := ih' S (hg.bounds hi).2
      rw [hgs.many1_stays] at hrest
      exact Ends.many1_more (c := ⟨T, i, S⟩) hhand hi (ih (i :: S) hi) hlt hrest
  | @many1_raised g i a k e j hg hlt _ ih ih' =>
      have hrest := ih' S (hg.bounds hi).2
      exact Ends.many1_more (c := ⟨T, i, S⟩) hhand hi (ih (i :: S) hi) hlt hrest
  | @optional_match g backtrack i a j _ ih =>
      cases backtrack with
      | true => exact Ends.optional_true (c := ⟨T, i, S⟩) hhand hi (ih (i :: S) hi)
      | false => exact .optional_false (ih S hi)
  | @optional_none g i f j backtrack _ ih =>
      cases backtrack with
      | true => exact Ends.optional_true (c := ⟨T, i, S⟩) hhand hi (ih (i :: S) hi)
      | false => exact .optional_false (ih S hi)
  | @optional_raised g i e j backtrack _ ih =>
      cases backtrack with
      | true => exact Ends.optional_true (c := ⟨T, i, S⟩) hhand hi (ih (i :: S) hi)
      | false => exact .optional_false (ih S hi)
  | @attempt_match g i a j _ ih =>
      exact Ends.attempt (c := ⟨T, i, S⟩) hhand hi (ih (i :: S) hi)
  | @attempt_stop g i v j _ hv ih =>
      have hends := Ends.attempt (c := ⟨T, i, S⟩) hhand hi (ih (i :: S) hi)
      rwa [hv] at hends
  | label _ ih => exact .label (ih S hi)
  | map_match _ ih => exact .map (ih S hi)
  | @map_stop f g i v j _ hv ih =>
      have hends := Ends.map (f := f) (ih S hi)
      rwa [Verdict.through_of_not_matched hv] at hends
  | combine_match _ ih => exact .combine (ih S hi)
  | @combine_stop f gs i v j _ hv ih =>
      have hends := Ends.combine (f := f) (ih S hi)
      rwa [Verdict.through_of_not_matched hv] at hends
  | ref hd _ ih => exact .ref hd (ih S hi)
  | undefined hd => exact .undefined hd _

/-- What a grammar means is one verdict and one index. -/
theorem Runs.deterministic {w : Verdict Value} {k : Nat} (h : Runs defs T g i v j)
    (h' : Runs defs T g i w k) (hi : i ≤ T.size) : v = w ∧ j = k := by
  have hv : Ends nofun defs g ⟨T, i, []⟩ v ⟨T, j, []⟩ := ends_of_runs h [] hi
  have hw : Ends nofun defs g ⟨T, i, []⟩ w ⟨T, k, []⟩ := ends_of_runs h' [] hi
  obtain ⟨rfl, heq⟩ := hv.unique hw
  exact ⟨rfl, congrArg Cursor.index heq⟩

/-- **How a run ends is what is derived**, with the stored positions as they were. -/
theorem ends_iff_runs {c d : Cursor} (hc : c.index ≤ c.tokens.size) :
    Ends hand defs g c v d ↔ Runs defs c.tokens g c.index v d.index ∧ d = c.moveTo d.index := by
  constructor
  · intro h
    exact ⟨runs_of_ends hc h, (h.onward (balanced_of_empty hand) hc).eq_moveTo⟩
  · rintro ⟨hr, hd⟩
    rw [hd]
    exact ends_of_runs hr c.saved hc

/-- A primitive needs one level. -/
theorem Runs.parser_eq_of_primitive (hr : Runs defs T g i v j) (hg : g.isPrimitive)
    (hand : Empty → Parser Value) (S : List Nat) (hi : i ≤ T.size) :
    parser hand defs 1 g ⟨T, i, S⟩ = some (v, ⟨T, j, S⟩) := by
  have hends : Ends hand defs g ⟨T, i, S⟩ v ⟨T, j, S⟩ := ends_of_runs hr S hi
  obtain ⟨n, hn⟩ := hends
  cases n with
  | zero => cases hn
  | succ n =>
      cases g with
      | oneOf | noneOf | endOfInput => exact hn
      | _ => cases hg

end Completeness

/-- **A run over a stack of stored positions is what the grammar means without one.** From index `i`
within the tokens, over any stack: every run that ends has the verdict and the index that the rules
give, and ends with the stack as it was. What the rules give is unique, and every run with enough
levels ends so. -/
theorem run_with_stack_iff_runs (hand : Empty → Parser Value) (defs : Definitions Empty)
    (g : Grammar Empty) {T : Array Token} {i : Nat} (S : List Nat) (hi : i ≤ T.size) :
    (∀ n v d, parser hand defs n g ⟨T, i, S⟩ = some (v, d) →
      ∃ j, Runs defs T g i v j ∧ d = ⟨T, j, S⟩) ∧
    (∀ v j, Runs defs T g i v j →
      ∃ n, ∀ m ≥ n, parser hand defs m g ⟨T, i, S⟩ = some (v, ⟨T, j, S⟩)) ∧
    (∀ v j w k, Runs defs T g i v j → Runs defs T g i w k → v = w ∧ j = k) := by
  refine ⟨fun n v d h => ?_, fun v j h => ?_, fun v j w k h h' => h.deterministic h' hi⟩
  · obtain ⟨j, rfl, -⟩ := exists_moveTo (c := ⟨T, i, S⟩) hi h
    exact ⟨j, runs_of_ends (c := ⟨T, i, S⟩) hi ⟨n, h⟩, rfl⟩
  · have hends : Ends hand defs g ⟨T, i, S⟩ v ⟨T, j, S⟩ := ends_of_runs h S hi
    obtain ⟨n, hn⟩ := hends
    exact ⟨n, fun m hm => parser_below hm g hn⟩

/-- Alternatives that give up late, inside a repetition, over two stored positions. -/
theorem run_with_stack_iff_runs_nested :
    let a : Token := ⟨"A", "a", .start⟩
    let b : Token := ⟨"B", "b", .start⟩
    let T := #[a, a, b, a]
    let defs : Definitions Empty := [("pair", .sequence [.oneOf "A" [], .noneOf "A" []])]
    let g : Grammar Empty :=
      .many1 (.choice (.ref "pair") [.optional (.label "single" (.oneOf "A" ["C"])) true])
    1 ≤ T.size ∧
      ∃ j, Runs defs T g 1
        (.success (.ofList [.ofList [.ofToken a, .ofToken b], .ofToken a])) j ∧
        (⟨T, 4, [1, 0]⟩ : Cursor) = ⟨T, j, [1, 0]⟩ := by
  intro a b T defs g
  have hi : 1 ≤ T.size := by decide
  exact ⟨hi, (run_with_stack_iff_runs nofun defs g [1, 0] hi).1 6 _ _ rfl⟩

end Descent.Grammar
