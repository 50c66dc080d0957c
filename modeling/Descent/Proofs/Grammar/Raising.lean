import Descent.Proofs.Grammar.Endings
import Mathlib.Logic.Relation

/-!
# Where an error comes from

Every way out of a combinator takes exactly its own position off the stack, also the way of an error.
So over balanced parsers written by hand a run leaves the stack as it was, and no refusal of the
stack or of a slot ever shows: an error that comes out was raised by a function or by a parser that
the run came to, and it comes out unchanged.

* `Enters` is one step down or along in a run: from the run of a grammar to that of one of its parts,
  to the rest of its parts, or to a definition. `RaisesItself` says that the run that is come to
  raises an error of its own.
* `raises_or_enters` looks at one step: what raises an error raises it itself, or enters a run that
  raises the same error. The runs that are entered get smaller, by levels, then by the tokens that
  are left, then by size.
* `Enters.ends_raised` is the other direction: an error is passed on by every step.
-/

namespace Descent.Grammar

variable {κ : Type}

/-- From the run of a grammar at a cursor to a run that it comes to. -/
inductive Enters (hand : κ → Parser Value) (defs : Definitions κ) :
    Grammar κ × Cursor → Grammar κ × Cursor → Prop
  | sequence_head {g gs c} : Enters hand defs (.sequence (g :: gs), c) (g, c)
  | sequence_tail {g gs c a d} : Ends hand defs g c (.success a) d →
      Enters hand defs (.sequence (g :: gs), c) (.sequence gs, d)
  | choice_head {g gs c} : Enters hand defs (.choice g gs, c) (g, c.store)
  | choice_tail {g h gs c f d} : Ends hand defs g c.store (.failure f) d →
      Enters hand defs (.choice g (h :: gs), c) (.choice h gs, c)
  | many1_head {g c} : Enters hand defs (.many1 g, c) (g, c.store)
  | many1_tail {g c a d} : Ends hand defs g c.store (.success a) d → c.index < d.index →
      Enters hand defs (.many1 g, c) (.many1 g, c.moveTo d.index)
  | optional_true {g c} : Enters hand defs (.optional g true, c) (g, c.store)
  | optional_false {g c} : Enters hand defs (.optional g false, c) (g, c)
  | attempt {g c} : Enters hand defs (.attempt g, c) (g, c.store)
  | label {text g c} : Enters hand defs (.label text g, c) (g, c)
  | map {f g c} : Enters hand defs (.map f g, c) (g, c)
  | combine {f gs c} : Enters hand defs (.combine f gs, c) (.sequence gs, c)
  | ref {name g c} : defs.find? name = some g → Enters hand defs (.ref name, c) (g, c)

/-- The run of a grammar at a cursor raises an error that none of its parts raised: a parser written
by hand does, the function does on the value of its parts, or there is no definition. -/
inductive RaisesItself (hand : κ → Parser Value) (defs : Definitions κ) :
    Grammar κ → Cursor → Error → Prop
  | custom {leaf c e d} : hand leaf c = some (.raised e, d) →
      RaisesItself hand defs (.custom leaf) c e
  | map {f g c a d e} : Ends hand defs g c (.success a) d → f a = .error e →
      RaisesItself hand defs (.map f g) c e
  | combine {f gs c as d e} : Ends hand defs (.sequence gs) c (.success (.ofList as)) d →
      f as = .error e → RaisesItself hand defs (.combine f gs) c e
  | undefined {name c} : defs.find? name = none →
      RaisesItself hand defs (.ref name) c (.undefined name)

/-- The run of a grammar at a cursor comes to one that raises the error itself. -/
def Raises (hand : κ → Parser Value) (defs : Definitions κ) (g : Grammar κ) (c : Cursor)
    (e : Error) : Prop :=
  ∃ h c', Relation.ReflTransGen (Enters hand defs) (g, c) (h, c') ∧ RaisesItself hand defs h c' e

variable {hand : κ → Parser Value} {defs : Definitions κ} {g h : Grammar κ} {c c' d : Cursor}
  {e : Error} {n : Nat}

theorem RaisesItself.raises (hr : RaisesItself hand defs g c e) : Raises hand defs g c e :=
  ⟨g, c, .refl, hr⟩

theorem Enters.raises (hs : Enters hand defs (g, c) (h, c')) (hr : Raises hand defs h c' e) :
    Raises hand defs g c e := by
  obtain ⟨k, d, hkd, hr⟩ := hr
  exact ⟨k, d, .head hs hkd, hr⟩

/-! ### An error that comes out -/

/-- How many steps along its own parts a grammar takes without going down a level. -/
def breadth : Grammar κ → Nat
  | sequence parts => parts.length
  | combine _ parts => parts.length + 1
  | choice _ others => others.length
  | _ => 0

/-- How much is left to be run: levels, then tokens, then parts. -/
def workload (n : Nat) (g : Grammar κ) (c : Cursor) : Nat × Nat × Nat :=
  (n, c.tokens.size - c.index, g.breadth)

/-- One workload is below another by the first number in which they differ. -/
abbrev Less : Nat × Nat × Nat → Nat × Nat × Nat → Prop :=
  Prod.Lex (· < ·) (Prod.Lex (· < ·) (· < ·))

theorem less_wf : WellFounded Less :=
  (Prod.lex Nat.lt_wfRel (Prod.lex Nat.lt_wfRel Nat.lt_wfRel)).wf

theorem workload_less_succ : Less (workload n h c') (workload (n + 1) g c) :=
  .left _ _ (Nat.lt_succ_self n)

theorem workload_less_of_index_lt (hd : c.Onward d) (hlt : c.index < d.index) :
    Less (workload n h d) (workload n g c) := by
  have hsize := hd.index_le_size
  have htokens := hd.tokens_eq
  refine .right _ (.left _ _ ?_)
  rw [htokens]
  omega

theorem workload_less_of_breadth_lt (hd : c.Onward d) (hlt : h.breadth < g.breadth) :
    Less (workload n h d) (workload n g c) := by
  rcases Nat.lt_or_eq_of_le hd.index_le with hi | hi
  · exact workload_less_of_index_lt hd hi
  · rw [workload, workload, hd.tokens_eq, hi]
    exact .right _ (.right _ hlt)

/-- A parser of one token raises nothing, whatever it tests for. -/
theorem ofToken_tokenWith_ne_raised (ok : TokenType → Bool) (expectation : String) :
    (Value.ofToken <$> Parser.tokenWith ok expectation) c ≠ some (.raised e, d) := by
  intro hr
  rw [Parser.map_apply] at hr
  obtain ⟨⟨w, d'⟩, hw, heq⟩ := Option.map_eq_some_iff.mp hr
  obtain ⟨t, -, -, rfl, -⟩ | ⟨-, -, rfl⟩ := Parser.tokenWith_cases hw
  · cases heq
  · cases heq

theorem parser_endOfInput_ne_raised (n : Nat) :
    parser hand defs (n + 1) .endOfInput c ≠ some (.raised e, d) := by
  intro hr
  rw [parser, Parser.map_apply] at hr
  obtain ⟨⟨w, d'⟩, hw, heq⟩ := Option.map_eq_some_iff.mp hr
  obtain ⟨-, rfl, -⟩ | ⟨t, -, -, rfl, -⟩ | ⟨t, -, -, -, rfl⟩ := Parser.endOfInput_cases hw
  · cases heq
  · cases heq
  · cases heq

/-- The run raises the error itself, or enters a run with less to do that ends with it. -/
def RaisesOrEnters (hand : κ → Parser Value) (defs : Definitions κ) (n : Nat) (g : Grammar κ)
    (c : Cursor) (e : Error) : Prop :=
  RaisesItself hand defs g c e ∨ ∃ m h c' d', Enters hand defs (g, c) (h, c') ∧
    c'.index ≤ c'.tokens.size ∧ parser hand defs m h c' = some (.raised e, d') ∧
    Less (workload m h c') (workload n g c)

/-- It enters a run one level down. -/
theorem RaisesOrEnters.down (hs : Enters hand defs (g, c) (h, c')) (hc : c'.index ≤ c'.tokens.size)
    (hr : parser hand defs n h c' = some (.raised e, d)) :
    RaisesOrEnters hand defs (n + 1) g c e :=
  .inr ⟨n, h, c', d, hs, hc, hr, workload_less_succ⟩

/-- It goes along its parts, on the same level. -/
theorem RaisesOrEnters.along (hs : Enters hand defs (g, c) (h, c')) (hon : c.Onward c')
    (hlt : h.breadth < g.breadth) (hr : parser hand defs n h c' = some (.raised e, d)) :
    RaisesOrEnters hand defs n g c e :=
  .inr ⟨n, h, c', d, hs, hon.within, hr, workload_less_of_breadth_lt hon hlt⟩

section Undoing

variable (hhand : ∀ leaf, (hand leaf).Balanced) (hc : c.index ≤ c.tokens.size)
include hhand hc

theorem raisesOrEnters_sequence {gs : List (Grammar κ)}
    (hr : parser hand defs (n + 1) (.sequence gs) c = some (.raised e, d)) :
    RaisesOrEnters hand defs (n + 1) (.sequence gs) c e := by
  cases gs with
  | nil => cases hr
  | cons g gs =>
      rw [parser_sequence_cons] at hr
      obtain ⟨⟨w, d'⟩, hg, hr⟩ := Option.bind_eq_some_iff.mp hr
      cases w with
      | failure f => cases hr
      | raised e' =>
          cases hr
          exact .down .sequence_head hc hg
      | success a =>
          obtain ⟨⟨w, d''⟩, hgs, heq⟩ := Option.map_eq_some_iff.mp hr
          have hon := parser_balanced hhand n g hc hg
          cases w <;> cases heq
          exact .along (.sequence_tail ⟨n, hg⟩) hon (Nat.lt_succ_self _) hgs

theorem raisesOrEnters_choice {gs : List (Grammar κ)}
    (hr : parser hand defs (n + 1) (.choice g gs) c = some (.raised e, d)) :
    RaisesOrEnters hand defs (n + 1) (.choice g gs) c e := by
  cases gs with
  | nil =>
      rw [parser_choice_nil hhand n g hc] at hr
      obtain ⟨⟨w, d'⟩, hg, heq⟩ := Option.map_eq_some_iff.mp hr
      cases heq
      exact .down .choice_head hc hg
  | cons h gs =>
      rw [parser_choice_cons hhand n g h gs hc] at hr
      obtain ⟨⟨w, d'⟩, hg, hr⟩ := Option.bind_eq_some_iff.mp hr
      cases w with
      | success a => cases hr
      | raised e' =>
          cases hr
          exact .down .choice_head hc hg
      | failure f =>
          obtain ⟨⟨w, d''⟩, hgs, heq⟩ := Option.map_eq_some_iff.mp hr
          cases w <;> cases heq
          exact .along (.choice_tail ⟨n, hg⟩) (.refl hc) (Nat.lt_succ_self _) hgs

theorem raisesOrEnters_many1 (hr : parser hand defs (n + 1) (.many1 g) c = some (.raised e, d)) :
    RaisesOrEnters hand defs (n + 1) (.many1 g) c e := by
  rw [parser_many1 hhand n g hc] at hr
  obtain ⟨⟨w, d'⟩, hg, hr⟩ := Option.bind_eq_some_iff.mp hr
  cases w with
  | failure f => cases hr
  | raised e' =>
      cases hr
      exact .down .many1_head hc hg
  | success a =>
      have hon := ((parser_balanced hhand n g).onward_store hc hg).moveTo_of_store
      dsimp only at hr
      split at hr
      · next hlt =>
          obtain ⟨⟨w, d''⟩, hrest, heq⟩ := Option.map_eq_some_iff.mp hr
          have hless : Less (workload (n + 1) (.many1 g) (c.moveTo d'.index))
              (workload (n + 1) (.many1 g) c) := workload_less_of_index_lt hon hlt
          cases w <;> cases heq
          exact .inr ⟨n + 1, _, _, _, .many1_tail ⟨n, hg⟩ hlt, hon.within, hrest, hless⟩
      · cases hr

/-- A run that ends with an error raises it itself, or enters a run with less to do that ends with
it. -/
theorem raises_or_enters (hr : parser hand defs (n + 1) g c = some (.raised e, d)) :
    RaisesOrEnters hand defs (n + 1) g c e := by
  cases g with
  | oneOf type types => exact absurd hr (ofToken_tokenWith_ne_raised _ _)
  | noneOf type types => exact absurd hr (ofToken_tokenWith_ne_raised _ _)
  | endOfInput => exact absurd hr (parser_endOfInput_ne_raised n)
  | sequence parts => exact raisesOrEnters_sequence hhand hc hr
  | choice first others => exact raisesOrEnters_choice hhand hc hr
  | many1 inner => exact raisesOrEnters_many1 hhand hc hr
  | optional inner backtrack =>
      cases backtrack with
      | true =>
          rw [parser_optional_true hhand n inner hc] at hr
          obtain ⟨⟨w, d'⟩, hg, heq⟩ := Option.map_eq_some_iff.mp hr
          cases w <;> cases heq
          exact .down .optional_true hc hg
      | false =>
          rw [parser_optional_false] at hr
          obtain ⟨⟨w, d'⟩, hg, heq⟩ := Option.map_eq_some_iff.mp hr
          cases w <;> cases heq
          exact .down .optional_false hc hg
  | attempt inner =>
      rw [parser_attempt hhand n inner hc] at hr
      obtain ⟨⟨w, d'⟩, hg, heq⟩ := Option.map_eq_some_iff.mp hr
      cases heq
      exact .down .attempt hc hg
  | label text inner =>
      rw [parser_label] at hr
      obtain ⟨⟨w, d'⟩, hg, heq⟩ := Option.map_eq_some_iff.mp hr
      cases w <;> cases heq
      exact .down .label hc hg
  | map f inner =>
      rw [parser_map] at hr
      obtain ⟨⟨w, d'⟩, hg, heq⟩ := Option.map_eq_some_iff.mp hr
      cases w with
      | failure f' => cases heq
      | raised e' =>
          cases heq
          exact .down .map hc hg
      | success a =>
          have hraised : Verdict.ofExcept (f a) = .raised e := congrArg Prod.fst heq
          exact .inl (.map ⟨n, hg⟩ (Verdict.ofExcept_eq_raised_iff.mp hraised))
  | combine f parts =>
      rw [parser_combine] at hr
      obtain ⟨⟨w, d'⟩, hgs, heq⟩ := Option.map_eq_some_iff.mp hr
      cases w with
      | failure f' => cases heq
      | raised e' =>
          cases heq
          exact .along .combine (.refl hc) (Nat.lt_succ_self _) hgs
      | success a =>
          obtain ⟨as, rfl⟩ := parser_sequence_value hgs
          have hraised : Verdict.ofExcept (f as) = .raised e := congrArg Prod.fst heq
          exact .inl (.combine ⟨n + 1, hgs⟩ (Verdict.ofExcept_eq_raised_iff.mp hraised))
  | ref name =>
      rcases hd : defs.find? name with _ | g
      · rw [parser_ref_undefined hd] at hr
        cases hr
        exact .inl (.undefined hd)
      · rw [parser_ref hd] at hr
        exact .down (.ref hd) hc hr
  | custom leaf => exact .inl (.custom hr)

end Undoing

/-- **An error that comes out of a run was raised in it**, by a run that it came to. -/
theorem raises_of_parser_eq (hhand : ∀ leaf, (hand leaf).Balanced) (hc : c.index ≤ c.tokens.size)
    (hr : parser hand defs n g c = some (.raised e, d)) : Raises hand defs g c e := by
  -- Not on the levels: a repetition, and the rest of a sequence or a choice, stay on their level.
  induction hw : workload n g c using less_wf.induction generalizing n g c d with
  | _ w ih =>
      cases n with
      | zero => cases hr
      | succ n =>
          subst hw
          rcases raises_or_enters hhand hc hr with hself | ⟨m, h, c', d', henters, hc', hr', hless⟩
          · exact hself.raises
          · exact henters.raises (ih _ hless hc' hr' rfl)

/-! ### An error that is raised -/

theorem Enters.within (hhand : ∀ leaf, (hand leaf).Balanced) (hc : c.index ≤ c.tokens.size)
    (hs : Enters hand defs (g, c) (h, c')) : c'.index ≤ c'.tokens.size := by
  cases hs with
  | sequence_tail hg => exact (hg.onward hhand hc).within
  | many1_tail hg hlt => exact (hg.onward (c := c.store) hhand hc).index_le_size
  | _ => exact hc

/-- What raises an error itself ends with it. -/
theorem RaisesItself.ends (hr : RaisesItself hand defs g c e) :
    ∃ d, Ends hand defs g c (.raised e) d := by
  cases hr with
  | custom hleaf => exact ⟨_, 1, hleaf⟩
  | @map f g c a d e hg hf =>
      have hends := hg.map (f := f)
      rw [Verdict.through, hf] at hends
      exact ⟨d, hends⟩
  | @combine f gs c as d e hgs hf =>
      have hends := hgs.combine (f := f)
      rw [Verdict.through, Value.items_ofList, hf] at hends
      exact ⟨d, hends⟩
  | undefined hd => exact ⟨c, .undefined hd c⟩

/-- What enters a run that ends with an error ends with that error. -/
theorem Enters.ends_raised (hhand : ∀ leaf, (hand leaf).Balanced) (hc : c.index ≤ c.tokens.size)
    (hs : Enters hand defs (g, c) (h, c')) (hr : Ends hand defs h c' (.raised e) d) :
    ∃ d', Ends hand defs g c (.raised e) d' := by
  cases hs with
  | sequence_head => exact ⟨_, .sequence_stop hr rfl⟩
  | sequence_tail hg => exact ⟨_, .sequence_cons hg hr⟩
  | choice_head => exact ⟨_, .choice_raised hhand hc hr⟩
  | choice_tail hg => exact ⟨_, .choice_next hhand hc hg hr⟩
  | many1_head => exact ⟨_, .many1_stop hhand hc hr rfl⟩
  | many1_tail hg hlt => exact ⟨_, .many1_more hhand hc hg hlt hr⟩
  | optional_true => exact ⟨_, .optional_true hhand hc hr⟩
  | optional_false => exact ⟨_, .optional_false hr⟩
  | attempt => exact ⟨_, .attempt hhand hc hr⟩
  | label => exact ⟨_, .label hr⟩
  | map => exact ⟨_, .map hr⟩
  | combine => exact ⟨_, .combine hr⟩
  | ref hd => exact ⟨_, .ref hd hr⟩

/-- **An error that is raised in a run comes out of it.** -/
theorem Raises.ends (hhand : ∀ leaf, (hand leaf).Balanced) (hc : c.index ≤ c.tokens.size)
    (hr : Raises hand defs g c e) : ∃ d, Ends hand defs g c (.raised e) d := by
  obtain ⟨h, c', hsteps, hself⟩ := hr
  -- From the run that raises the error back to the run that began.
  generalize hfrom : (g, c) = s at hsteps
  induction hsteps using Relation.ReflTransGen.head_induction_on generalizing g c with
  | refl =>
      cases hfrom
      exact hself.ends
  | @head s t hst _ ih =>
      obtain ⟨k, b⟩ := t
      cases hfrom
      obtain ⟨d, hd⟩ := ih (hst.within hhand hc) rfl
      exact hst.ends_raised hhand hc hd

/-! ### Runs over balanced parsers -/

/-- **A run keeps the stack, and lets out exactly the errors that are raised in it.** The parsers
written by hand may move the cursor on, but leave the stored positions as they find them, also when
they raise. Then, from every cursor within its tokens and however the run ends, tokens and stored
positions are what they were and the cursor was moved on within the tokens. The run ends with an
error if and only if it came to a function or a parser written by hand that raises this error, or
to a name without a definition. No refusal of the stack or of a slot comes out, or hides an error. -/
theorem run_balanced_and_raised_iff (hand : κ → Parser Value) (defs : Definitions κ)
    (g : Grammar κ) {n : Nat} {c d : Cursor} {v : Verdict Value}
    (hhand : ∀ leaf, (hand leaf).Balanced) (hc : c.index ≤ c.tokens.size)
    (hr : parser hand defs n g c = some (v, d)) :
    (d.tokens = c.tokens ∧ d.saved = c.saved ∧ c.index ≤ d.index ∧ d.index ≤ d.tokens.size) ∧
    ∀ e, v = .raised e ↔ ∃ h c', Relation.ReflTransGen (Enters hand defs) (g, c) (h, c') ∧
      RaisesItself hand defs h c' e := by
  have hon := parser_balanced hhand n g hc hr
  refine ⟨⟨hon.tokens_eq, hon.saved_eq, hon.index_le, hon.within⟩, fun e => ⟨?_, fun hraises => ?_⟩⟩
  · rintro rfl
    exact raises_of_parser_eq hhand hc hr
  · obtain ⟨d', hd'⟩ := Raises.ends hhand hc hraises
    exact (Ends.unique ⟨n, hr⟩ hd').1

/-- A parser written by hand that consumes a token and raises, under an attempt in a sequence in a
choice in a repetition, over a stored position. -/
theorem run_balanced_and_raised_iff_nested :
    let hand : Unit → Parser Value :=
      fun _ => (Parser.oneOf ["A"]).bind fun _ => Parser.raise (.caller "stop")
    let g : Grammar Unit :=
      .many1 (.choice (.sequence [.oneOf "A" [], .attempt (.custom ())]) [.oneOf "A" []])
    let a : Token := ⟨"A", "a", .start⟩
    let c : Cursor := ⟨#[a, a, a], 1, [0]⟩
    (∀ leaf, (hand leaf).Balanced) ∧ c.index ≤ c.tokens.size ∧
      parser hand [] 5 g c = some (.raised (.caller "stop"), c) ∧
      ∃ h c', Relation.ReflTransGen (Enters hand []) (g, c) (h, c') ∧
        RaisesItself hand [] h c' (.caller "stop") := by
  intro hand g a c
  have hhand : ∀ leaf, (hand leaf).Balanced := fun _ =>
    (Parser.balanced_tokenWith _ _).bind fun _ => Parser.balanced_raise _
  have hc : c.index ≤ c.tokens.size := by decide
  have hr : parser hand [] 5 g c = some (.raised (.caller "stop"), c) := rfl
  exact ⟨hhand, hc, hr, ((run_balanced_and_raised_iff hand [] g hhand hc hr).2 _).mp rfl⟩

end Descent.Grammar
