import Descent.Grammar.Run
import Descent.Proofs.Parser.Balance

/-!
# The laws of a run

`Grammar.parser` builds a parser out of combinators. This module says what comes of that for each
form of grammar, in terms of its parts one level down: the parts of a sequence or a choice are peeled
off one at a time, and a repetition is unrolled by one match.

The laws hold if the parsers written by hand are balanced, since then every grammar is
(`parser_balanced`). They mention neither slots nor the stack, but for one thing: a part that may be
undone starts with its position stored.
-/

namespace Descent

/-! ### Verdicts of lists -/

namespace Value

/-- The items of a list. -/
def items : Value → List Value
  | .list vs => vs
  | .leaf _ => []

@[simp] theorem items_ofList (vs : List Value) : (ofList vs).items = vs := rfl

end Value

namespace Verdict

/-- The verdict of a sequence whose first part gave `a` and whose rest ends so. -/
def prepend (a : Value) : Verdict Value → Verdict Value :=
  map fun v => .ofList (a :: v.items)

theorem prepend_of_not_matched {v : Verdict Value} (hv : v.matched = false) (a : Value) :
    v.prepend a = v := by
  cases v with
  | success b => cases hv
  | failure f => rfl
  | raised e => rfl

/-- The verdict of a repetition that matched `a` and goes on to end so. -/
def followed (a : Value) : Verdict Value → Verdict Value
  | success v => success (.ofList (a :: v.items))
  | failure _ => success (.ofList [a])
  | raised e => raised e

/-- The verdict of an option: a failure is no value. -/
def orNull : Verdict Value → Verdict Value
  | success a => success a
  | failure _ => success .null
  | raised e => raised e

end Verdict

namespace Grammar

variable {κ : Type} {hand : κ → Parser Value} {defs : Definitions κ} {c : Cursor}

/-! ### Every grammar is balanced -/

/-- **If the parsers written by hand are balanced, so is every grammar.** -/
theorem parser_balanced (hhand : ∀ leaf, (hand leaf).Balanced) (n : Nat) (g : Grammar κ) :
    (parser hand defs n g).Balanced := by
  induction n generalizing g with
  | zero => exact Parser.balanced_unfinished
  | succ n ih =>
      have hparts (gs : List (Grammar κ)) : ∀ p ∈ gs.map (parser hand defs n), p.Balanced := by
        intro p hp
        obtain ⟨g, -, rfl⟩ := List.mem_map.mp hp
        exact ih g
      cases g with
      | oneOf type types => exact (Parser.balanced_tokenWith _ _).map _
      | noneOf type types => exact (Parser.balanced_tokenWith _ _).map _
      | endOfInput => exact Parser.balanced_endOfInput.map _
      | sequence parts => exact (Parser.balanced_sequence (hparts parts)).map _
      | choice first others => exact Parser.balanced_choice (ih first) (hparts others)
      | many1 inner => exact (ih inner).many1.map _
      | optional inner backtrack => exact ((ih inner).optional backtrack).map _
      | attempt inner => exact (ih inner).attempt
      | label text inner => exact (ih inner).label text
      | map f inner => exact (ih inner).mapM f
      | combine f parts => exact (Parser.balanced_sequence (hparts parts)).mapM f
      | ref name =>
          rw [parser]
          split
          · exact ih _
          · exact Parser.balanced_raise _
      | custom leaf => exact hhand leaf

/-! ### Grammars of one token -/

section OneToken

variable {ok : TokenType → Bool} {expectation : String} {t : Token}

/-- `oneOf` and `noneOf` run the same parser with different tests. Its laws are those of both. -/
theorem ofToken_tokenWith_match (ht : c.peek = some t) (hok : ok t.type = true) :
    (Value.ofToken <$> Parser.tokenWith ok expectation) c =
      some (.success (.ofToken t), c.advance) := by
  rw [Parser.map_apply, Parser.tokenWith_match ht hok]
  rfl

theorem ofToken_tokenWith_mismatch (hno : ∀ t, c.peek = some t → ok t.type = false) :
    (Value.ofToken <$> Parser.tokenWith ok expectation) c =
      some (.failure
        { message := expectation ++ ", but got " ++ Parser.describe c.peek
          position := c.errorPosition }, c) := by
  rw [Parser.map_apply, Parser.tokenWith_mismatch hno]
  rfl

theorem parser_end_reached (n : Nat) (h : c.peek = none) :
    parser hand defs (n + 1) .endOfInput c = some (.success .null, c) := by
  simp only [parser, Parser.map_apply, Parser.endOfInput, h]
  rfl

theorem parser_end_marked (n : Nat) (ht : c.peek = some t) (h : t.type = endOfInputType) :
    parser hand defs (n + 1) .endOfInput c = some (.success .null, c.advance) := by
  simp only [parser, Parser.map_apply, Parser.endOfInput, ht, if_pos h]
  rfl

theorem parser_end_missed (n : Nat) (ht : c.peek = some t) (h : t.type ≠ endOfInputType) :
    parser hand defs (n + 1) .endOfInput c =
      some (.failure
        { message := "Expected end of input, but got token of type " ++ t.type
          position := c.errorPosition
          code := DiagnosticSpec.trailingInput.code }, c) := by
  simp only [parser, Parser.map_apply, Parser.endOfInput, ht, if_neg h]
  rfl

end OneToken

/-! ### Sequences -/

theorem parser_sequence_nil (n : Nat) (c : Cursor) :
    parser hand defs (n + 1) (.sequence []) c = some (.success (.ofList []), c) := rfl

/-- A sequence runs its first part, and on a match the rest from where it ended. -/
theorem parser_sequence_cons (n : Nat) (g : Grammar κ) (gs : List (Grammar κ)) (c : Cursor) :
    parser hand defs (n + 1) (.sequence (g :: gs)) c = (parser hand defs n g c).bind fun
      | (.success a, d) => (parser hand defs (n + 1) (.sequence gs) d).map fun (v, e) =>
          (v.prepend a, e)
      | (v, d) => some (v, d) := by
  simp only [parser, Parser.map_apply, List.map_cons, Parser.sequence]
  rw [Parser.bind]
  rcases parser hand defs n g c with _ | ⟨v, d⟩
  · rfl
  · cases v with
    | failure f => rfl
    | raised e => rfl
    | success a =>
        simp only [Option.bind_some, Option.map_map]
        rw [Parser.bind]
        rcases Parser.sequence (gs.map (parser hand defs n)) d with _ | ⟨w, e⟩
        · rfl
        · cases w <;> rfl

/-- The value of a sequence is a list. -/
theorem parser_sequence_value {n : Nat} {gs : List (Grammar κ)} {a : Value} {d : Cursor}
    (h : parser hand defs (n + 1) (.sequence gs) c = some (.success a, d)) :
    ∃ as, a = .ofList as := by
  simp only [parser, Parser.map_apply] at h
  obtain ⟨⟨w, e⟩, -, heq⟩ := Option.map_eq_some_iff.mp h
  cases w <;> cases heq
  exact ⟨_, rfl⟩

/-- `combine` is a sequence whose list of values is passed through a function. -/
theorem parser_combine (n : Nat) (f : List Value → Except Error Value) (gs : List (Grammar κ))
    (c : Cursor) :
    parser hand defs (n + 1) (.combine f gs) c =
      (parser hand defs (n + 1) (.sequence gs) c).map fun (v, d) =>
        (v.through fun a => f a.items, d) := by
  simp only [parser, Parser.combine, Parser.mapM_apply, Parser.map_apply, Option.map_map]
  congr 1
  funext ⟨v, d⟩
  cases v <;> rfl

/-! ### Choice -/

theorem parser_choice_nil (hhand : ∀ leaf, (hand leaf).Balanced) (n : Nat) (g : Grammar κ)
    (hc : c.index ≤ c.tokens.size) :
    parser hand defs (n + 1) (.choice g []) c =
      (parser hand defs n g c.store).map fun (v, d) =>
        (v, if v.matched then c.moveTo d.index else c) := by
  rw [← Parser.attempt_of_balanced (parser_balanced hhand n g) hc, ← Parser.choice_nil]
  rfl

/-- A choice attempts its first alternative, and on a failure the others from the same place. -/
theorem parser_choice_cons (hhand : ∀ leaf, (hand leaf).Balanced) (n : Nat) (g h : Grammar κ)
    (gs : List (Grammar κ)) (hc : c.index ≤ c.tokens.size) :
    parser hand defs (n + 1) (.choice g (h :: gs)) c = (parser hand defs n g c.store).bind fun
      | (.success a, d) => some (.success a, c.moveTo d.index)
      | (.failure f, _) => (parser hand defs (n + 1) (.choice h gs) c).map fun (v, d) =>
          (v.orElse f, d)
      | (.raised e, _) => some (.raised e, c) := by
  have hg : (parser hand defs n g).Balanced := parser_balanced hhand n g
  simp only [parser, List.map_cons]
  rw [Parser.choice_cons hg hc]
  rcases parser hand defs n g c.store with _ | ⟨v, d⟩
  · rfl
  · cases v <;> rfl

/-! ### Repetition -/

/-- A repetition that matched something goes on as a repetition from where the match ended. -/
theorem parser_many1 (hhand : ∀ leaf, (hand leaf).Balanced) (n : Nat) (g : Grammar κ)
    (hc : c.index ≤ c.tokens.size) :
    parser hand defs (n + 1) (.many1 g) c = (parser hand defs n g c.store).bind fun
      | (.success a, d) =>
        if c.index < d.index then
          (parser hand defs (n + 1) (.many1 g) (c.moveTo d.index)).map fun (v, e) =>
            (v.followed a, e)
        else some (.success (.ofList []), c)
      | (v, _) => some (v, c) := by
  simp only [parser, Parser.map_apply]
  rw [Parser.many1_of_balanced (parser_balanced hhand n g) hc]
  rcases parser hand defs n g c.store with _ | ⟨v, d⟩
  · rfl
  · cases v with
    | failure f => rfl
    | raised e => rfl
    | success a =>
        simp only [Option.bind_some]
        split
        · rcases Parser.many1 (parser hand defs n g) (c.moveTo d.index) with _ | ⟨w, e⟩
          · rfl
          · cases w <;> rfl
        · rfl

/-! ### One part changed -/

theorem parser_attempt (hhand : ∀ leaf, (hand leaf).Balanced) (n : Nat) (g : Grammar κ)
    (hc : c.index ≤ c.tokens.size) :
    parser hand defs (n + 1) (.attempt g) c = (parser hand defs n g c.store).map fun (v, d) =>
      (v, if v.matched then c.moveTo d.index else c) :=
  Parser.attempt_of_balanced (parser_balanced hhand n g) hc

theorem parser_optional_true (hhand : ∀ leaf, (hand leaf).Balanced) (n : Nat) (g : Grammar κ)
    (hc : c.index ≤ c.tokens.size) :
    parser hand defs (n + 1) (.optional g true) c =
      (parser hand defs n g c.store).map fun (v, d) =>
        (v.orNull, if v.matched then c.moveTo d.index else c) := by
  simp only [parser, Parser.map_apply, Parser.optional_apply, if_true]
  rw [Parser.attempt_of_balanced (parser_balanced hhand n g) hc, Option.map_map, Option.map_map]
  congr 1
  funext ⟨v, d⟩
  cases v <;> rfl

theorem parser_optional_false (n : Nat) (g : Grammar κ) (c : Cursor) :
    parser hand defs (n + 1) (.optional g false) c =
      (parser hand defs n g c).map fun (v, d) => (v.orNull, d) := by
  simp only [parser, Parser.map_apply, Parser.optional_apply]
  rw [if_neg Bool.false_ne_true, Option.map_map]
  congr 1
  funext ⟨v, d⟩
  cases v <;> rfl

theorem parser_label (n : Nat) (text : String) (g : Grammar κ) (c : Cursor) :
    parser hand defs (n + 1) (.label text g) c =
      (parser hand defs n g c).map fun (v, d) => (v.labelled text, d) :=
  Parser.label_apply text _ c

theorem parser_map (n : Nat) (f : Value → Except Error Value) (g : Grammar κ) (c : Cursor) :
    parser hand defs (n + 1) (.map f g) c =
      (parser hand defs n g c).map fun (v, d) => (v.through f, d) :=
  Parser.mapM_apply f _ c

theorem parser_ref {name : String} {g : Grammar κ} (h : defs.find? name = some g) (n : Nat) :
    parser hand defs (n + 1) (.ref name) = parser hand defs n g := by
  simp only [parser, h]

theorem parser_ref_undefined {name : String} (h : defs.find? name = none) (n : Nat) (c : Cursor) :
    parser hand defs (n + 1) (.ref name) c = some (.raised (.undefined name), c) := by
  simp only [parser, h]
  rfl

end Grammar

end Descent
