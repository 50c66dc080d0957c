import Descent.Proofs.Grammar.Depth
import Descent.Proofs.Grammar.Errors
import Descent.Proofs.Grammar.Provenance
import Descent.Proofs.Tokenizer.Places

/-!
# From a text to a value or an error

`runText` first makes tokens of a text and then runs a grammar over them. A character that has no
type ends it before the grammar is looked at. Otherwise the answer is that of the run: the value of
a match, or an error that repeats the failure.

The error names a line and a column. These are read off the tokens, which have them from the
tokenizer, so what they say about the text is put together from what is known of both: the index
that a failure was found at (`Runs.failure_position`) and where the tokens of a text stand
(`Tokenizer.reads_of_tokenize`).
-/

namespace Descent

/-- What a run as a whole answers, if it ends so. -/
def Verdict.answer {α : Type} : Verdict α → Except Error α
  | success a => .ok a
  | failure f => .error (.parse (.ofFailure f))
  | raised e => .error e

theorem Parser.run_of_eq_some {α : Type} {p : Parser α} {c d : Cursor} {v : Verdict α}
    (h : p c = some (v, d)) : p.run c = (v.answer, d) := by
  unfold run verdict
  rw [h, Option.getD_some]
  cases v <;> rfl

namespace Grammar

variable {hand : Empty → Parser Value} {defs : Definitions Empty} {g : Grammar Empty}
  {t : Tokenizer} {text : String} {tokens : Array Token} {v : Verdict Value} {d : Cursor} {i : Nat}

/-- The answer to a text is that of the run over its tokens. -/
theorem runText_of_ends (htokens : t.tokenize text = .ok tokens)
    (h : Ends hand defs g (.ofTokens tokens) v d) : runText hand defs g t text = v.answer := by
  have hc : (Cursor.ofTokens tokens).index ≤ (Cursor.ofTokens tokens).tokens.size := Nat.zero_le _
  have hrun : run hand defs g (.ofTokens tokens) = (v.answer, d) :=
    Parser.run_of_eq_some (parse_of_ends hc h)
  unfold runText
  rw [htokens]
  exact congrArg Prod.fst hrun

/-- The place that is shown for an index among the tokens of a text is that of the character with
this index, and at the end that of the last character. -/
theorem placeAt_of_tokenize (htokens : t.tokenize text = .ok tokens) (hi : i ≤ tokens.size) :
    placeAt tokens i = t.placeAfter (text.toList.take (min i (text.length - 1))) := by
  have hreads := Tokenizer.reads_of_tokenize htokens
  have hsize : tokens.size = text.toList.length := hreads.size_eq
  rw [← String.length_toList, ← hsize]
  by_cases hempty : tokens.size = 0
  · have hnil : text.toList = [] := List.eq_nil_of_length_eq_zero (hsize.symm.trans hempty)
    rw [Array.size_eq_zero_iff.mp hempty, placeAt_empty, hnil, List.take_nil,
      Tokenizer.placeAfter_nil]
  · have hk : min i (tokens.size - 1) < text.toList.length := by omega
    obtain ⟨type, -, htoken⟩ := hreads.token_eq _ _ (List.getElem?_eq_getElem hk)
    exact placeAt_nearest hi htoken

/-- A failure of a run over the tokens of a text is found at an index within the text, and shown at
the line and column that the characters before lead to. -/
theorem Runs.failure_leadTo {f : Failure} {j : Nat} (htokens : t.tokenize text = .ok tokens)
    (hr : Runs defs tokens g i (.failure f) j) (hi : i ≤ tokens.size) :
    f.position.index ≤ text.length ∧
      t.LeadTo (text.toList.take (min f.position.index (text.length - 1)))
        f.position.line f.position.column := by
  obtain ⟨hposition, hindex⟩ := hr.failure_position hi
  have hsize : tokens.size = text.length := (Tokenizer.reads_of_tokenize htokens).size_eq
  rw [placeAt_of_tokenize htokens hindex] at hposition
  have hline := congrArg ErrorPosition.line hposition
  have hcolumn := congrArg ErrorPosition.column hposition
  constructor
  · rw [← hsize]
    exact hindex
  · rw [hline, hcolumn]
    exact Tokenizer.leadTo_placeAfter t _

/-- **What comes of a text.** Let no function in the grammar raise an error, let every reference in
it have a definition, and let the run over the tokens of the text end. Then one of three things
happens. The text has a character without a type, and is answered by the same error whatever the
grammar is. Or the grammar matches from the first token, and its value is the answer. Or it fails
there, and the answer is an error with the failure's message, position, code and diagnostic.

The index of such an error is at most the length of the text, and its line and column are those that
the characters before this index lead to; at the end of the text, those before the last character. -/
theorem runText_locates (hand : Empty → Parser Value) {defs : Definitions Empty}
    {g : Grammar Empty} (t : Tokenizer) (text : String) (hraise : ∀ e, ¬ HasRaiser defs g e)
    (hends : ∀ tokens, t.tokenize text = .ok tokens →
      ∃ v d, Ends hand defs g (.ofTokens tokens) v d) :
    (∃ e, t.tokenize text = .error e ∧
      ∀ (κ : Type) (hand' : κ → Parser Value) (defs' : Definitions κ) (g' : Grammar κ),
        runText hand' defs' g' t text = .error (.tokenization e)) ∨
    ∃ tokens, t.tokenize text = .ok tokens ∧
      ((∃ a d, Ends hand defs g (.ofTokens tokens) (.success a) d ∧
        runText hand defs g t text = .ok a) ∨
      ∃ f d e, Ends hand defs g (.ofTokens tokens) (.failure f) d ∧
        runText hand defs g t text = .error (.parse e) ∧
        (e.text = f.message ∧ e.position = f.position ∧ e.code = f.code ∧
          e.diagnostic = f.diagnostic) ∧
        e.position.index ≤ text.length ∧
        t.LeadTo (text.toList.take (min e.position.index (text.length - 1)))
          e.position.line e.position.column ∧
        (text = "" → e.position.line = 1 ∧ e.position.column = 1)) := by
  rcases htokens : t.tokenize text with e | tokens
  · left
    refine ⟨e, rfl, fun κ hand' defs' g' => ?_⟩
    unfold runText
    rw [htokens]
  right
  refine ⟨tokens, rfl, ?_⟩
  obtain ⟨v, d, hv⟩ := hends tokens htokens
  have hanswer := runText_of_ends htokens hv
  have hi : 0 ≤ tokens.size := Nat.zero_le _
  have hruns : Runs defs tokens g 0 v d.index := runs_of_ends (c := ⟨tokens, 0, []⟩) hi hv
  cases v with
  | success a => exact .inl ⟨a, d, hv, hanswer⟩
  | raised e => exact absurd hruns.hasRaiser (hraise e)
  | failure f =>
      obtain ⟨hindex, hlead⟩ := hruns.failure_leadTo htokens hi
      refine .inr ⟨f, d, .ofFailure f, hv, hanswer, ⟨rfl, rfl, rfl, rfl⟩, hindex, hlead, ?_⟩
      rintro rfl
      rw [String.toList_empty, List.take_nil] at hlead
      exact ⟨hlead.line_eq, hlead.column_eq_of_unbroken nofun⟩

/-- Two letters, on two lines, and a digit missing behind them: the error is shown at the last
letter. -/
theorem runText_locates_second_line :
    let t : Tokenizer :=
      { rules := [⟨.literal 'a', "letter", by decide⟩, ⟨.literal '\n', "newline", by decide⟩]
        newlineType := some "newline" }
    let text := "a\na"
    let defs : Definitions Empty := [("item", .choice (.oneOf "letter" []) [.oneOf "newline" []])]
    let items : Grammar Empty := .map (fun v => .ok v) (.many1 (.ref "item"))
    let g : Grammar Empty := .sequence [items, .label "number" (.oneOf "digit" [])]
    let message := "number: Expected token of type digit, but got end of input"
    let f : Failure := { message, position := ⟨2, 1, 3⟩ }
    let e : ParseError := .ofFailure f
    (∀ e, ¬ HasRaiser defs g e) ∧
      (∀ tokens, t.tokenize text = .ok tokens →
        ∃ v d, Ends nofun defs g (.ofTokens tokens) v d) ∧
      runText nofun defs g t text = .error (.parse e) ∧
      t.LeadTo (text.toList.take (min e.position.index (text.length - 1)))
        e.position.line e.position.column := by
  intro t text defs items g message f e
  let tokens : Array Token := #[⟨"letter", "a", ⟨1, 1, by decide, by decide⟩⟩,
    ⟨"newline", "\n", ⟨1, 2, by decide, by decide⟩⟩, ⟨"letter", "a", ⟨2, 1, by decide, by decide⟩⟩]
  have hraise : ∀ e, ¬ HasRaiser defs g e := by
    rintro e ⟨h, hocc, hr⟩
    have hmem := hocc.mem_reach
    simp only [g, items, defs, reach, termsAll, terms, List.map_cons, List.map_nil,
      List.append_nil, List.cons_append, List.nil_append, List.mem_cons, List.not_mem_nil] at hmem
    rcases hmem with rfl | rfl | rfl | rfl | rfl | rfl | rfl | rfl | rfl | ⟨⟨⟩⟩
    all_goals cases hr
    · next ha => cases ha
    · next hd => cases hd
  have htokens : t.tokenize text = .ok tokens := by decide
  have hf : Ends nofun defs g (.ofTokens tokens) (.failure f) ⟨tokens, 3, []⟩ := ⟨8, rfl⟩
  have hends : ∀ tokens, t.tokenize text = .ok tokens →
      ∃ v d, Ends nofun defs g (.ofTokens tokens) v d := by
    intro tokens' htokens'
    rw [htokens] at htokens'
    cases htokens'
    exact ⟨_, _, hf⟩
  have hrun : runText nofun defs g t text = .error (.parse e) := runText_of_ends htokens hf
  refine ⟨hraise, hends, hrun, ?_⟩
  rcases runText_locates nofun t text hraise hends with ⟨_, he, -⟩ | ⟨_, -, hanswer⟩
  · rw [htokens] at he
    cases he
  · rcases hanswer with ⟨a, d, -, ha⟩ | ⟨f', d, e', -, he, -, -, hlead, -⟩
    · rw [hrun] at ha
      cases ha
    · rw [hrun] at he
      cases he
      exact hlead

end Grammar

end Descent
