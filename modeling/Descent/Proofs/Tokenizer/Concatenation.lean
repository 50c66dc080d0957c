import Descent.Proofs.Tokenizer.Places

/-!
# Texts one behind the other

The tokens of a text do not depend on what is read before, except for their places. If a text stands
behind another, then its first line continues the line that the other one leads to, and its other
lines follow that line. `SourcePosition.behind` moves a place in this way, and `Token.behind` and
`TokenizationError.behind` move what stands there.

A run that starts behind another is the run from the start, moved. This holds of one step
(`step_behind`) and so of every run (`foldlM_step_behind`).
-/

namespace Descent

/-! ### Moving places -/

/-- The place `q` of a text, if the text stands behind one that leads to `p`. -/
def SourcePosition.behind (q p : SourcePosition) : SourcePosition :=
  if q.line = 1 then
    { line := p.line, column := p.column + q.column - 1
      one_le_line := p.one_le_line
      one_le_column := Nat.le_sub_of_add_le (Nat.add_le_add p.one_le_column q.one_le_column) }
  else
    { line := p.line + q.line - 1, column := q.column
      one_le_line := Nat.le_sub_of_add_le (Nat.add_le_add p.one_le_line q.one_le_line)
      one_le_column := q.one_le_column }

/-- A token of a text, if the text stands behind one that leads to `p`. -/
def Token.behind (token : Token) (p : SourcePosition) : Token :=
  { token with position := token.position.behind p }

/-- The error for a text, if the text stands behind one of `n` characters that leads to `p`. -/
def TokenizationError.behind (e : TokenizationError) (p : SourcePosition) (n : Nat) :
    TokenizationError :=
  if e.line = 1 then
    { e with line := p.line, column := p.column + e.column - 1, index := e.index + n }
  else
    { e with line := p.line + e.line - 1, index := e.index + n }

namespace SourcePosition

/-- The first character stands at the place that is led to. -/
theorem start_behind (p : SourcePosition) : start.behind p = p := rfl

theorem nextColumn_behind (q p : SourcePosition) :
    q.nextColumn.behind p = (q.behind p).nextColumn := by
  have hq := q.one_le_column
  by_cases hfirst : q.line = 1
  · have hnext : q.nextColumn.line = 1 := hfirst
    simp only [behind, if_pos hfirst, if_pos hnext]
    simp only [nextColumn, mk.injEq, true_and]
    omega
  · have hnext : q.nextColumn.line ≠ 1 := hfirst
    simp only [behind, if_neg hfirst, if_neg hnext]
    rfl

/-- After a line end nothing is left of the column that was led to. -/
theorem nextLine_behind (q p : SourcePosition) : q.nextLine.behind p = (q.behind p).nextLine := by
  have hq := q.one_le_line
  have hnext : q.nextLine.line ≠ 1 := Nat.ne_of_gt (Nat.lt_succ_of_le hq)
  by_cases hfirst : q.line = 1
  · simp only [behind, if_pos hfirst, if_neg hnext]
    simp [nextLine, hfirst]
  · simp only [behind, if_neg hfirst, if_neg hnext]
    simp only [nextLine, mk.injEq, and_true]
    omega

end SourcePosition

/-- The error that is found at `q` is then found where `q` has moved to. -/
theorem TokenizationError.behind_mk (character : String) (q p : SourcePosition) (i n : Nat) :
    (mk character q.line q.column i).behind p n =
      mk character (q.behind p).line (q.behind p).column (n + i : Nat) := by
  have hline := q.one_le_line
  have hcolumn := q.one_le_column
  by_cases hfirst : q.line = 1
  · have hint : (q.line : Int) = 1 := by omega
    rw [SourcePosition.behind, if_pos hfirst, behind, if_pos hint]
    simp only [mk.injEq, true_and]
    omega
  · have hint : (q.line : Int) ≠ 1 := by omega
    rw [SourcePosition.behind, if_neg hfirst, behind, if_neg hint]
    simp only [mk.injEq, true_and]
    omega

namespace Tokenizer

/-- Reading a character moves both places alike. -/
theorem advance_behind (t : Tokenizer) (q p : SourcePosition) (type : TokenType) :
    t.advance (q.behind p) type = (t.advance q type).behind p := by
  unfold advance
  split
  · exact (q.nextLine_behind p).symm
  · exact (q.nextColumn_behind p).symm

/-! ### Runs that start behind another -/

/-- The run that has come to `s`, and from there as far as `s'` has come from the start. -/
def Progress.behind (s' s : Progress) : Progress where
  tokens := s.tokens ++ s'.tokens.map (·.behind s.position)
  position := s'.position.behind s.position

theorem Progress.start_behind (s : Progress) : Progress.behind {} s = s := by
  rw [behind, SourcePosition.start_behind, Array.map_empty, Array.append_empty]

/-- What becomes of a run behind `s`, if this becomes of it from the start. -/
def Progress.resume (s : Progress) (r : Except TokenizationError Progress) :
    Except TokenizationError Progress :=
  (r.mapError (·.behind s.position s.tokens.size)).map (·.behind s)

theorem step_behind (t : Tokenizer) (s' s : Progress) (c : Char) :
    t.step (s'.behind s) c = s.resume (t.step s' c) := by
  unfold step
  split
  next hc =>
    simp only [Progress.resume, Except.mapError, Except.map, TokenizationError.behind_mk]
    simp [Progress.behind]
  next type hc =>
    simp only [Progress.resume, Except.mapError, Except.map]
    simp [Progress.behind, advance_behind, Token.behind]

/-- **A run behind another is the run from the start, moved.** -/
theorem foldlM_step_behind (t : Tokenizer) (s' s : Progress) (cs : List Char) :
    cs.foldlM t.step (s'.behind s) = s.resume (cs.foldlM t.step s') := by
  induction cs generalizing s' with
  | nil => rfl
  | cons c cs ih =>
      rw [List.foldlM_cons, List.foldlM_cons, step_behind]
      cases t.step s' c with
      | error e => rfl
      | ok s₁ => exact ih s₁

/-- What becomes of a run over two parts, by what becomes of each from the start. -/
theorem foldlM_step_append_eq_resume (t : Tokenizer) (as bs : List Char) :
    (as ++ bs).foldlM t.step {} =
      as.foldlM t.step {} >>= fun s => s.resume (bs.foldlM t.step {}) := by
  rw [foldlM_step_append]
  congr 1
  funext s
  rw [← foldlM_step_behind, Progress.start_behind]

/-- **The tokens of two texts, one behind the other.** An error of the first text is the answer for
both. Otherwise the first text leads to a place, and the tokens of the second are moved behind it:
those of its first line to the line and the column that are led to, and those of later lines to the
lines that follow. So is an error of the second text, whose index grows by the length of the first. -/
theorem tokenize_append (t : Tokenizer) (a b : String) :
    t.tokenize (a ++ b) = do
      let p := t.placeAfter a.toList
      let tokens ← t.tokenize a
      let more ← (t.tokenize b).mapError (·.behind p a.length)
      return tokens ++ more.map (·.behind p) := by
  unfold tokenize
  rw [String.toList_append, foldlM_step_append_eq_resume]
  rcases ha : a.toList.foldlM t.step {} with e | s
  · rfl
  · have hs := (Progress.reads_nil t).run ha
    rw [List.nil_append] at hs
    have hsize : s.tokens.size = a.length := hs.size_eq
    rcases b.toList.foldlM t.step {} with e | s'
    · rw [← hs.position_eq, ← hsize]
      rfl
    · rw [← hs.position_eq]
      rfl

/-- Only the first line of the second text is moved to the right: its error is found in the first
column of the third line. -/
example :
    let t : Tokenizer :=
      { rules := [⟨.literal 'a', "letter", by decide⟩, ⟨.literal ';', "end", by decide⟩]
        newlineType := some "end" }
    t.tokenize "a;?" = .error { character := "?", line := 2, column := 1, index := 2 } ∧
    t.tokenize (";a" ++ "a;?") =
      .error { character := "?", line := 3, column := 1, index := 4 } := by
  decide

end Tokenizer

end Descent
