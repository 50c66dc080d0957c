import Descent.Parser.Custom
import Descent.Proofs.Parser.Balance
import Mathlib.Data.List.Forall2
import Mathlib.Data.List.Induction

/-!
# The alternative that counts

A choice tries its alternatives in order and from one place. The first that does not fail is the one
that counts, and those after it are not run. If all fail, the failure that got furthest is reported,
and of several that got equally far the first.

Alternatives may be any parsers, and their failures may claim any depth. All that is asked of them is
to move the cursor only, so that going back from one leaves the next the same cursor.

* `Failure.EarliestDeepest` says which of several failures is reported. The fold that a choice keeps
  comes to it (`Failure.earliestDeepest_foldl`).
* `Parser.choiceAfter_append` passes over alternatives that fail, `Parser.choice_of_first` comes to the
  first that does not.
-/

namespace Descent

/-! ### Of several failures the one that got furthest -/

namespace Failure

/-- The first of the deepest: the failures before it are less deep, and those after it are not deeper.
-/
def EarliestDeepest (f : Failure) (fs : List Failure) : Prop :=
  ∃ before after, fs = before ++ f :: after ∧
    (∀ g ∈ before, g.position.index < f.position.index) ∧
    ∀ g ∈ after, g.position.index ≤ f.position.index

variable {f : Failure} {fs : List Failure}

/-- One more failure takes the place of the others only if it is deeper than all of them. -/
theorem EarliestDeepest.concat (h : f.EarliestDeepest fs) (g : Failure) :
    (Parser.deeper f g).EarliestDeepest (fs ++ [g]) := by
  obtain ⟨before, after, rfl, hbefore, hafter⟩ := h
  by_cases hlt : g.position.DeeperThan f.position
  · rw [Parser.deeper, if_pos hlt]
    refine ⟨before ++ f :: after, [], rfl, ?_, nofun⟩
    intro x hx
    rcases List.mem_append.mp hx with hx | hx
    · exact Nat.lt_trans (hbefore x hx) hlt
    · rcases List.mem_cons.mp hx with rfl | hx
      · exact hlt
      · exact Nat.lt_of_le_of_lt (hafter x hx) hlt
  · rw [Parser.deeper, if_neg hlt]
    refine ⟨before, after ++ [g], by simp, hbefore, ?_⟩
    intro x hx
    rcases List.mem_append.mp hx with hx | hx
    · exact hafter x hx
    · rw [List.mem_singleton.mp hx]
      exact Nat.le_of_not_lt hlt

/-- **What is kept of failures, one after another, is the first of the deepest.** -/
theorem earliestDeepest_foldl (f : Failure) (fs : List Failure) :
    (fs.foldl Parser.deeper f).EarliestDeepest (f :: fs) := by
  induction fs using List.reverseRecOn with
  | nil => exact ⟨[], [], rfl, nofun, nofun⟩
  | append_singleton fs g ih =>
      rw [List.foldl_append]
      exact ih.concat g

end Failure

namespace Parser

variable {α : Type} {p q first : Parser α} {ps others before after rest : List (Parser α)}
  {c : Cursor} {f : Failure} {fs : List Failure}

/-! ### Alternatives that fail -/

/-- From this cursor the parser ends with this failure. -/
def FailsWith (c : Cursor) (p : Parser α) (f : Failure) : Prop :=
  ∃ d, p c = some (.failure f, d)

theorem FailsWith.attempt_eq (h : FailsWith c.store p f) (hp : MovesOnly p c.store) :
    attempt p c = some (.failure f, c) := by
  obtain ⟨d, hd⟩ := h
  rw [attempt_of_movesOnly hp, hd]
  rfl

/-- Alternatives that fail bring a choice no further than to what is left of it. -/
theorem choiceAfter_append (h : List.Forall₂ (FailsWith c.store) ps fs)
    (hps : ∀ p ∈ ps, MovesOnly p c.store) (g : Failure) (rest : List (Parser α)) :
    choiceAfter g (ps ++ rest) c = choiceAfter (fs.foldl deeper g) rest c := by
  induction h generalizing g with
  | nil => rfl
  | @cons p f ps fs hp _ ih =>
      rw [List.cons_append, choiceAfter]
      dsimp only
      rw [hp.attempt_eq (hps p List.mem_cons_self)]
      exact ih (fun q hq => hps q (List.mem_cons_of_mem p hq)) (deeper g f)

theorem choice_append (hp : FailsWith c.store p f) (h : List.Forall₂ (FailsWith c.store) ps fs)
    (hps : ∀ q ∈ p :: ps, MovesOnly q c.store) (rest : List (Parser α)) :
    choice p (ps ++ rest) c = choiceAfter (fs.foldl deeper f) rest c := by
  rw [choice, hp.attempt_eq (hps p List.mem_cons_self)]
  exact choiceAfter_append h (fun q hq => hps q (List.mem_cons_of_mem p hq)) f rest

/-- If all alternatives fail, so does the choice, and stays where it began. -/
theorem choice_of_fails (h : List.Forall₂ (FailsWith c.store) (first :: others) fs)
    (hmoves : ∀ p ∈ first :: others, MovesOnly p c.store) :
    ∃ f, f.EarliestDeepest fs ∧ choice first others c = some (.failure f, c) := by
  cases h with
  | @cons _ f _ fs hfirst hothers =>
      refine ⟨fs.foldl deeper f, Failure.earliestDeepest_foldl f fs, ?_⟩
      have happend := choice_append hfirst hothers hmoves []
      rwa [List.append_nil] at happend

/-! ### The first that does not fail -/

/-- What all of a list have an answer to, they have answers to one by one. -/
theorem exists_forall₂_failsWith (h : ∀ p ∈ ps, ∃ f, FailsWith c p f) :
    ∃ fs, List.Forall₂ (FailsWith c) ps fs := by
  induction ps with
  | nil => exact ⟨[], .nil⟩
  | cons p ps ih =>
      obtain ⟨f, hf⟩ := h p List.mem_cons_self
      obtain ⟨fs, hfs⟩ := ih fun q hq => h q (List.mem_cons_of_mem p hq)
      exact ⟨f :: fs, .cons hf hfs⟩

/-- **The first alternative that does not fail decides**, whatever comes after it. -/
theorem choice_of_first (hsplit : first :: others = before ++ q :: after)
    (hmoves : ∀ p ∈ before ++ [q], MovesOnly p c.store)
    (hfail : ∀ p ∈ before, ∃ f, FailsWith c.store p f)
    (hq : ∀ f d, q c.store ≠ some (.failure f, d)) :
    choice first others c =
      (q c.store).map fun (v, d) => (v, if v.matched then c.moveTo d.index else c) := by
  have hattempt := attempt_of_movesOnly (hmoves q (by simp))
  have hne : ∀ f d, attempt q c ≠ some (.failure f, d) := by
    intro f d hf
    rw [hattempt] at hf
    obtain ⟨⟨v, e⟩, he, heq⟩ := Option.map_eq_some_iff.mp hf
    cases heq
    exact hq f e he
  rw [← hattempt]
  cases before with
  | nil =>
      cases hsplit
      rw [choice]
      split
      · next hf => exact absurd hf (hne _ _)
      · rfl
  | cons p ps =>
      rw [List.cons_append] at hsplit
      obtain ⟨rfl, rfl⟩ := List.cons.inj hsplit
      obtain ⟨f, hf⟩ := hfail first List.mem_cons_self
      obtain ⟨fs, hfs⟩ := exists_forall₂_failsWith fun p hp => hfail p (List.mem_cons_of_mem first hp)
      have hbefore : ∀ p ∈ first :: ps, MovesOnly p c.store := fun p hp =>
        hmoves p (List.mem_append_left [q] hp)
      rw [choice_append hf hfs hbefore, choiceAfter]
      dsimp only
      split
      · next hf => exact absurd hf (hne _ _)
      · rfl

/-! ### The outcome of a choice -/

/-- **What comes of a choice.** Each alternative is run from the cursor at which the choice began, with
that place stored, and moves the cursor only.

If those before some alternative fail and it does not, it decides, and none after it takes part: its
match is the match of the choice and ends where it ended, the error raised in it is raised with the
cursor back where the choice began, and if it does not end, neither does the choice. If all fail, the
failure is the first of the deepest, with the cursor back where the choice began. The stored positions
are in all cases those from before. -/
theorem choice_outcome (first : Parser α) (others : List (Parser α)) (c : Cursor) :
    (∀ before q after, first :: others = before ++ q :: after →
      (∀ p ∈ before ++ [q], MovesOnly p c.store) → (∀ p ∈ before, ∃ f, FailsWith c.store p f) →
      (∀ a d, q c.store = some (.success a, d) →
        choice first others c = some (.success a, c.moveTo d.index)) ∧
      (∀ e d, q c.store = some (.raised e, d) → choice first others c = some (.raised e, c)) ∧
      (q c.store = none → choice first others c = none)) ∧
    ((∀ p ∈ first :: others, MovesOnly p c.store) →
      ∀ fs, List.Forall₂ (FailsWith c.store) (first :: others) fs →
        ∃ f, f.EarliestDeepest fs ∧ choice first others c = some (.failure f, c)) := by
  refine ⟨fun before q after hsplit hmoves hfail => ?_, fun hmoves fs h => choice_of_fails h hmoves⟩
  have hdecides := choice_of_first hsplit hmoves hfail
  refine ⟨fun a d ha => ?_, fun e d he => ?_, fun hnone => ?_⟩
  · rw [hdecides (by rw [ha]; nofun), ha]
    rfl
  · rw [hdecides (by rw [he]; nofun), he]
    rfl
  · rw [hdecides (by rw [hnone]; nofun), hnone]
    rfl

/-- Depths that go up and down, with a tie: the second failure is reported. Where the second alternative
consumes a token and then matches or raises an error, the third is not run, which would not end. -/
theorem choice_outcome_after_failure :
    let t : Token := ⟨"A", "a", .start⟩
    let c : Cursor := ⟨#[t, t], 1, [0]⟩
    let f (i : Nat) (message : String) : Failure := { message, position := ⟨1, 1, i⟩ }
    let e : Error := .caller "boom"
    let fails : List Failure := [f 1 "first", f 3 "second", f 2 "third", f 3 "fourth"]
    let matching : Parser Value := script [.consume] .succeed
    let raising : Parser Value := script [.consume] (.raise e)
    ((f 3 "second").EarliestDeepest fails ∧
      choice (fail (f 1 "first")) ((fails.drop 1).map fail) c =
        some (.failure (α := Value) (f 3 "second"), c)) ∧
    choice (fail (f 3 "first")) [matching, unfinished] c =
      some (.success (.list [Value.ofToken t]), ⟨#[t, t], 2, [0]⟩) ∧
    choice (fail (f 3 "first")) [raising, unfinished] c = some (.raised e, c) := by
  intro t c f e fails matching raising
  have hfail : ∀ g : Failure, MovesOnly (fail g : Parser Value) c.store := by
    rintro g v d ⟨⟩
    rfl
  have hfailsWith : ∀ g : Failure, FailsWith c.store (fail g : Parser Value) g := fun g => ⟨_, rfl⟩
  have hmatching : MovesOnly matching c.store := by
    rintro v d ⟨⟩
    rfl
  have hraising : MovesOnly raising c.store := by
    rintro v d ⟨⟩
    rfl
  refine ⟨?_, ?_, ?_⟩
  · obtain ⟨-, hall⟩ := choice_outcome (fail (f 1 "first")) ((fails.drop 1).map fail) c
    have hmoves : ∀ p ∈ fails.map (fail (α := Value)), MovesOnly p c.store := by
      intro p hp
      obtain ⟨g, -, rfl⟩ := List.mem_map.mp hp
      exact hfail g
    have hfails : List.Forall₂ (FailsWith c.store) (fails.map (fail (α := Value))) fails :=
      .cons (hfailsWith _) (.cons (hfailsWith _) (.cons (hfailsWith _) (.cons (hfailsWith _) .nil)))
    obtain ⟨g, hg, hchoice⟩ := hall hmoves fails hfails
    cases hchoice
    exact ⟨hg, rfl⟩
  · obtain ⟨hfirst, -⟩ := choice_outcome (fail (f 3 "first")) [matching, unfinished] c
    obtain ⟨hmatch, -, -⟩ := hfirst [fail (f 3 "first")] matching [unfinished] rfl
      (by simp [hfail, hmatching]) (by simpa using ⟨_, hfailsWith _⟩)
    exact hmatch _ _ rfl
  · obtain ⟨hfirst, -⟩ := choice_outcome (fail (f 3 "first")) [raising, unfinished] c
    obtain ⟨-, hraise, -⟩ := hfirst [fail (f 3 "first")] raising [unfinished] rfl
      (by simp [hfail, hraising]) (by simpa using ⟨_, hfailsWith _⟩)
    exact hraise _ _ rfl

end Parser

end Descent
