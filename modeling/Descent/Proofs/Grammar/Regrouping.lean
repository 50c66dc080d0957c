import Descent.Proofs.Grammar.Refinement

/-!
# Alternatives in groups

A choice may be written with some of its alternatives in groups, which are choices themselves. That
makes no difference: what counts is the order in which the alternatives are written from left to right.

* `grouped` is the grammar that a tree of alternatives stands for. An empty group is refused, as an empty
  choice is.
* `OrElse` is what comes of alternatives after others. It is associative, because of several equally deep
  failures the first counts however they are compared (`Parser.deeper_assoc`), and a choice of
  alternatives that are written one after another comes to it (`choice_append`).
* A choice gives back by itself whatever it consumed without a match, so that it changes nothing to
  attempt it once more (`choice_choice`).
-/

namespace Descent.Grammar

/-! ### Groups -/

section Groups

variable {κ : Type}

mutual

/-- The grammar that a tree of alternatives stands for, with a choice for each of its lists. -/
def grouped : Tree (Grammar κ) → Except GrammarError (Grammar κ)
  | .leaf g => .ok g
  | .list ts => do choice? (← groupedAll ts)

/-- The grammars that trees of alternatives stand for. -/
def groupedAll : List (Tree (Grammar κ)) → Except GrammarError (List (Grammar κ))
  | [] => .ok []
  | t :: ts => do
    let g ← grouped t
    let gs ← groupedAll ts
    return g :: gs

end

/-- Trees stand for grammars if each of them does. -/
theorem groupedAll_cons_eq_ok_iff {t : Tree (Grammar κ)} {ts : List (Tree (Grammar κ))}
    {gs : List (Grammar κ)} : groupedAll (t :: ts) = .ok gs ↔
      ∃ h hs, grouped t = .ok h ∧ groupedAll ts = .ok hs ∧ gs = h :: hs := by
  rw [groupedAll]
  rcases grouped t with e | h
  · simp [bind, Except.bind]
  · rcases groupedAll ts with e | hs
    · simp [bind, Except.bind]
    · simp [bind, Except.bind, pure, Except.pure, eq_comm]

/-- A group stands for a choice, with at least one alternative. -/
theorem grouped_list_eq_ok_iff {ts : List (Tree (Grammar κ))} {g : Grammar κ} :
    grouped (.list ts) = .ok g ↔
      ∃ first others, groupedAll ts = .ok (first :: others) ∧ g = .choice first others := by
  rw [grouped]
  rcases groupedAll ts with e | gs
  · simp [bind, Except.bind]
  · cases gs with
    | nil => simp [bind, Except.bind, choice?]
    | cons first others =>
        simp only [bind, Except.bind, choice?, Except.ok.injEq, List.cons.injEq]
        constructor
        · rintro rfl
          exact ⟨first, others, ⟨rfl, rfl⟩, rfl⟩
        · rintro ⟨_, _, ⟨rfl, rfl⟩, rfl⟩
          rfl

end Groups

/-! ### Alternatives after others -/

variable {defs : Definitions Empty} {T : Array Token} {g h : Grammar Empty}
  {gs hs : List (Grammar Empty)} {i j : Nat} {v : Verdict Value}

/-- What comes of alternatives that end by `P`, and of others by `Q` in case all of them fail. -/
def OrElse (P Q : Verdict Value → Nat → Prop) (v : Verdict Value) (j : Nat) : Prop :=
  (P v j ∧ ∀ f, v ≠ .failure f) ∨ ∃ f k w, P (.failure f) k ∧ Q w j ∧ v = w.orElse f

theorem OrElse.mono {P P' Q Q' : Verdict Value → Nat → Prop} (h : OrElse P Q v j)
    (hP : ∀ v j, P v j → P' v j) (hQ : ∀ v j, Q v j → Q' v j) : OrElse P' Q' v j := by
  rcases h with ⟨hp, hv⟩ | ⟨f, k, w, hp, hq, rfl⟩
  · exact .inl ⟨hP _ _ hp, hv⟩
  · exact .inr ⟨f, k, w, hP _ _ hp, hQ _ _ hq, rfl⟩

theorem orElse_of_le {f f' : Failure} (hle : f'.position.index ≤ f.position.index) :
    (Verdict.failure f').orElse f = (.failure f : Verdict Value) := by
  have hnot : ¬ f'.position.DeeperThan f.position := Nat.not_lt.mpr hle
  rw [Verdict.orElse, Parser.deeper, if_neg hnot]

theorem orElse_of_lt {f f' : Failure} (hlt : f.position.index < f'.position.index) :
    (Verdict.failure f').orElse f = (.failure f' : Verdict Value) := by
  have hdeeper : f'.position.DeeperThan f.position := hlt
  rw [Verdict.orElse, Parser.deeper, if_pos hdeeper]

/-- Only a failure becomes a failure, the deeper one of two. -/
theorem orElse_eq_failure_iff {f f' : Failure} {w : Verdict Value} :
    w.orElse f = .failure f' ↔ ∃ g, w = .failure g ∧ f' = Parser.deeper f g := by
  cases w <;> simp [Verdict.orElse, eq_comm]

theorem orElse_orElse (f f' : Failure) (w : Verdict Value) :
    (w.orElse f').orElse f = w.orElse (Parser.deeper f f') := by
  cases w <;> simp [Verdict.orElse, Parser.deeper_assoc]

/-- **It does not matter how alternatives are put together.** -/
theorem OrElse.assoc (P Q R : Verdict Value → Nat → Prop) :
    OrElse (OrElse P Q) R = OrElse P (OrElse Q R) := by
  funext v j
  apply propext
  constructor
  · rintro (⟨⟨hP, -⟩ | ⟨f, k, w, hP, hQ, rfl⟩, hv⟩ |
      ⟨f, k, w, ⟨-, hf⟩ | ⟨f', k', w', hP, hQ, heq⟩, hR, rfl⟩)
    · exact .inl ⟨hP, hv⟩
    · refine .inr ⟨f, k, w, hP, .inl ⟨hQ, ?_⟩, rfl⟩
      rintro g rfl
      exact hv _ rfl
    · exact absurd rfl (hf f)
    · obtain ⟨g, rfl, rfl⟩ := orElse_eq_failure_iff.mp heq.symm
      exact .inr ⟨f', k', w.orElse g, hP, .inr ⟨g, k, w, hQ, hR, rfl⟩, (orElse_orElse f' g w).symm⟩
  · rintro (⟨hP, hv⟩ | ⟨f, k, w, hP, ⟨hQ, hw⟩ | ⟨f', k', w', hQ, hR, rfl⟩, rfl⟩)
    · exact .inl ⟨.inl ⟨hP, hv⟩, hv⟩
    · refine .inl ⟨.inr ⟨f, k, w, hP, hQ, rfl⟩, fun f' hf' => ?_⟩
      obtain ⟨g, rfl, -⟩ := orElse_eq_failure_iff.mp hf'
      exact hw g rfl
    · refine .inr ⟨Parser.deeper f f', k', w', .inr ⟨f, k, .failure f', hP, hQ, rfl⟩, hR, ?_⟩
      exact orElse_orElse f f' w'

/-- One alternative, and the others after it. -/
theorem choice_cons (defs : Definitions Empty) (T : Array Token) (g h : Grammar Empty)
    (hs : List (Grammar Empty)) (i : Nat) :
    Runs defs T (.choice g (h :: hs)) i =
      OrElse (Runs defs T (.choice g []) i) (Runs defs T (.choice h hs) i) := by
  funext v j
  apply propext
  constructor
  · intro hr
    cases hr with
    | choice_match hg => exact .inl ⟨.choice_match hg, nofun⟩
    | choice_raised hg => exact .inl ⟨.choice_raised hg, nofun⟩
    | choice_next_match hg hh => exact .inr ⟨_, _, _, .choice_only hg, hh, rfl⟩
    | choice_next_raised hg hh =>
        rw [hh.choice_stays rfl] at hh
        exact .inr ⟨_, _, _, .choice_only hg, hh, rfl⟩
    | choice_first hg hh hle =>
        rw [hh.choice_stays rfl] at hh
        exact .inr ⟨_, _, _, .choice_only hg, hh, (orElse_of_le hle).symm⟩
    | choice_deeper hg hh hlt =>
        rw [hh.choice_stays rfl] at hh
        exact .inr ⟨_, _, _, .choice_only hg, hh, (orElse_of_lt hlt).symm⟩
  · rintro (⟨hg, hv⟩ | ⟨f, k, w, hg, hh, rfl⟩)
    · cases hg with
      | choice_match hg => exact .choice_match hg
      | choice_raised hg => exact .choice_raised hg
      | choice_only => exact absurd rfl (hv _)
    · cases hg with
      | choice_only hg =>
          cases w with
          | success a => exact .choice_next_match hg hh
          | raised e =>
              rw [hh.choice_stays rfl]
              exact .choice_next_raised hg hh
          | failure f' =>
              rw [hh.choice_stays rfl]
              rcases Nat.lt_or_ge f.position.index f'.position.index with hlt | hle
              · rw [orElse_of_lt hlt]
                exact .choice_deeper hg hh hlt
              · rw [orElse_of_le hle]
                exact .choice_first hg hh hle

/-- **A choice can be cut in two anywhere between its alternatives.** -/
theorem choice_append (defs : Definitions Empty) (T : Array Token) (g h : Grammar Empty)
    (gs hs : List (Grammar Empty)) (i : Nat) :
    Runs defs T (.choice g (gs ++ h :: hs)) i =
      OrElse (Runs defs T (.choice g gs) i) (Runs defs T (.choice h hs) i) := by
  induction gs generalizing g with
  | nil => exact choice_cons defs T g h hs i
  | cons g' gs ih => rw [List.cons_append, choice_cons, ih, ← OrElse.assoc, ← choice_cons]

/-- A choice as the only alternative of another is that choice. -/
theorem choice_choice (defs : Definitions Empty) (T : Array Token) (g : Grammar Empty)
    (gs : List (Grammar Empty)) (i : Nat) :
    Runs defs T (.choice (.choice g gs) []) i = Runs defs T (.choice g gs) i := by
  funext v j
  apply propext
  constructor
  · intro hr
    cases hr with
    | choice_match hg => exact hg
    | choice_raised hg | choice_only hg =>
        rw [hg.choice_stays rfl] at hg
        exact hg
  · intro hr
    cases v with
    | success a => exact .choice_match hr
    | failure f =>
        rw [hr.choice_stays rfl]
        exact .choice_only hr
    | raised e =>
        rw [hr.choice_stays rfl]
        exact .choice_raised hr

/-! ### Groups do not count -/

mutual

/-- A choice of one group is a choice of its leaves. -/
theorem runs_grouped (defs : Definitions Empty) (T : Array Token) (i : Nat) :
    ∀ {t : Tree (Grammar Empty)} {g : Grammar Empty}, grouped t = .ok g →
      ∃ h hs, t.leaves = h :: hs ∧ Runs defs T (.choice g []) i = Runs defs T (.choice h hs) i
  | .leaf g, _, hg => by
      rw [grouped] at hg
      cases hg
      exact ⟨g, [], Tree.leaves_leaf g, rfl⟩
  | .list ts, _, hg => by
      obtain ⟨first, others, hts, rfl⟩ := grouped_list_eq_ok_iff.mp hg
      rw [choice_choice, Tree.leaves_list]
      exact runs_groupedAll defs T i hts

/-- A choice of groups is a choice of all their leaves. -/
theorem runs_groupedAll (defs : Definitions Empty) (T : Array Token) (i : Nat) :
    ∀ {ts : List (Tree (Grammar Empty))} {g : Grammar Empty} {gs : List (Grammar Empty)},
      groupedAll ts = .ok (g :: gs) →
      ∃ h hs, Tree.flatten ts = h :: hs ∧ Runs defs T (.choice g gs) i = Runs defs T (.choice h hs) i
  | [], _, _, hts => by
      rw [groupedAll] at hts
      cases hts
  | [t], _, _, hts => by
      obtain ⟨g, gs, hg, hgs, heq⟩ := groupedAll_cons_eq_ok_iff.mp hts
      rw [groupedAll] at hgs
      cases hgs
      cases heq
      rw [Tree.flatten_cons, Tree.flatten_nil, List.append_nil]
      exact runs_grouped defs T i hg
  | t :: t' :: ts, _, _, hts => by
      obtain ⟨g, gs, hg, hgs, heq⟩ := groupedAll_cons_eq_ok_iff.mp hts
      obtain ⟨g', gs', -, -, rfl⟩ := groupedAll_cons_eq_ok_iff.mp hgs
      cases heq
      obtain ⟨h, hs, hleaves, hruns⟩ := runs_grouped defs T i hg
      obtain ⟨h', hs', hleaves', hruns'⟩ := runs_groupedAll defs T i hgs
      refine ⟨h, hs ++ h' :: hs', ?_, ?_⟩
      · rw [Tree.flatten_cons, hleaves, hleaves', List.cons_append]
      · rw [choice_cons, hruns, hruns', choice_append]

end

/-- **Alternatives may be put in groups.** Write a choice with some of its alternatives in groups, and
these in groups again, to any depth. From every cursor within its tokens it ends as the choice of the same
alternatives, written one after another, and not otherwise: with the same match, the same one of the
failures or the same error, and with the same cursor. -/
theorem choice_regrouped (hand : Empty → Parser Value) (defs : Definitions Empty)
    {ts : List (Tree (Grammar Empty))} {g : Grammar Empty} (hg : grouped (.list ts) = .ok g) :
    ∃ flat, choice? (Tree.flatten ts) = .ok flat ∧
      ∀ (c : Cursor), c.index ≤ c.tokens.size →
        ∀ v d, Ends hand defs g c v d ↔ Ends hand defs flat c v d := by
  obtain ⟨first, others, hts, rfl⟩ := grouped_list_eq_ok_iff.mp hg
  have hgroups (T : Array Token) (i : Nat) := runs_groupedAll defs T i hts
  obtain ⟨h, hs, hflat, -⟩ := hgroups #[] 0
  refine ⟨.choice h hs, by rw [hflat, choice?], fun c hc v d => ?_⟩
  obtain ⟨h', hs', hflat', hruns⟩ := hgroups c.tokens c.index
  obtain ⟨rfl, rfl⟩ := List.cons.inj (hflat.symm.trans hflat')
  rw [ends_iff_runs hc, ends_iff_runs hc, hruns]

/-- Two failures in different groups that got equally far. The first counts, although its group was closed
before the other was looked at. -/
theorem choice_regrouped_tie :
    let a : Token := ⟨"A", "a", .start⟩
    let c : Cursor := ⟨#[a, a, a], 1, [1, 0]⟩
    let pair (type : TokenType) : Grammar Empty := .sequence [.oneOf "A" [], .oneOf type []]
    let ts : List (Tree (Grammar Empty)) :=
      [.list [.leaf (.oneOf "B" []), .list [.leaf (pair "C")]],
        .list [.leaf (.label "late" (pair "D")), .leaf (.noneOf "A" [])]]
    let g : Grammar Empty := .choice (.choice (.oneOf "B" []) [.choice (pair "C") []])
      [.choice (.label "late" (pair "D")) [.noneOf "A" []]]
    let flat : Grammar Empty := .choice (.oneOf "B" [])
      [pair "C", .label "late" (pair "D"), .noneOf "A" []]
    let f : Failure := { message := "Expected token of type C, but got A", position := ⟨1, 1, 2⟩ }
    grouped (.list ts) = .ok g ∧ choice? (Tree.flatten ts) = .ok flat ∧
      Ends nofun [] g c (.failure f) c ∧ Ends nofun [] flat c (.failure f) c := by
  intro a c pair ts g flat f
  have hg : grouped (.list ts) = .ok g := rfl
  have hflat : choice? (Tree.flatten ts) = .ok flat := rfl
  have hends : Ends nofun [] g c (.failure f) c := ⟨5, rfl⟩
  obtain ⟨flat', hflat', hsame⟩ := choice_regrouped nofun [] hg
  cases hflat.symm.trans hflat'
  exact ⟨hg, hflat, hends, (hsame c (by decide) _ _).mp hends⟩

end Descent.Grammar
