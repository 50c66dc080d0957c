import Descent.Proofs.Tokenizer.Building
import Descent.Proofs.Tokenizer.Outcome

/-!
# Rules that are added

A rule that is added is tried after all others. So it has a say only about characters that had no
type before, whatever else it accepts and whatever its type is. `Extends` says that one tokenizer
has the rules of another and then more, and the same newline type.

A step that one tokenizer takes is taken by every tokenizer that extends it (`Extends.step`), and so
is a run (`Extends.run`). Two tokenizers part at the first character that has a type for one of them
only. What was read up to there stays: a run only adds to its tokens (`tokens_of_run`), and a
character that is refused later has a greater index (`size_le_index_of_run`).
-/

namespace Descent.Tokenizer

/-- The tokenizer with these rules added one after the other. -/
def withRules (t : Tokenizer) (added : List (MatcherSpec × TokenType)) :
    Except RuleError Tokenizer :=
  added.foldlM (fun t p => t.withRule p.1 p.2) t

/-- The second tokenizer has the rules of the first and then perhaps others. Lines end alike. -/
structure Extends (t t' : Tokenizer) : Prop where
  rules_eq : ∃ more, t'.rules = t.rules ++ more
  newlineType_eq : t'.newlineType = t.newlineType

variable {t t' t'' : Tokenizer} {text : String} {tokens : Array Token} {cs : List Char} {c : Char}
  {spec : MatcherSpec} {type : TokenType} {added : List (MatcherSpec × TokenType)}
  {s s' : Progress} {e : TokenizationError}

/-! ### Runs, one step at a time -/

theorem run_cons_eq_ok_iff : (c :: cs).foldlM t.step s = .ok s' ↔
    ∃ s₁, t.step s c = .ok s₁ ∧ cs.foldlM t.step s₁ = .ok s' := by
  rw [List.foldlM_cons, bind_eq_ok_iff]

theorem run_cons_eq_error_iff : (c :: cs).foldlM t.step s = .error e ↔
    t.step s c = .error e ∨ ∃ s₁, t.step s c = .ok s₁ ∧ cs.foldlM t.step s₁ = .error e := by
  rw [List.foldlM_cons, bind_eq_error_iff]

theorem tokenize_eq_ok_iff : t.tokenize text = .ok tokens ↔
    ∃ s, text.toList.foldlM t.step {} = .ok s ∧ s.tokens = tokens := by
  rw [tokenize, bind_eq_ok_iff]
  simp [pure, Except.pure]

theorem tokenize_eq_error_iff :
    t.tokenize text = .error e ↔ text.toList.foldlM t.step {} = .error e := by
  rw [tokenize, bind_eq_error_iff]
  simp [pure, Except.pure]

/-! ### Tokenizers that extend another -/

namespace Extends

theorem refl (t : Tokenizer) : t.Extends t :=
  ⟨⟨[], (List.append_nil _).symm⟩, rfl⟩

theorem trans (h : t.Extends t') (h' : t'.Extends t'') : t.Extends t'' := by
  obtain ⟨more, hmore⟩ := h.rules_eq
  obtain ⟨more', hmore'⟩ := h'.rules_eq
  refine ⟨⟨more ++ more', ?_⟩, h'.newlineType_eq.trans h.newlineType_eq⟩
  rw [hmore', hmore, List.append_assoc]

theorem of_withRule (h : t.withRule spec type = .ok t') : t.Extends t' := by
  obtain ⟨rule, -, hrule⟩ := bind_eq_ok_iff.mp h
  cases hrule
  exact ⟨⟨[rule], rfl⟩, rfl⟩

theorem of_withRules (h : t.withRules added = .ok t') : t.Extends t' := by
  induction added generalizing t with
  | nil =>
      cases h
      exact refl t'
  | cons p added ih =>
      rw [withRules, List.foldlM_cons, bind_eq_ok_iff] at h
      obtain ⟨t₁, hfirst, hrest⟩ := h
      exact (of_withRule hfirst).trans (ih hrest)

/-- A type that is given is kept. -/
theorem classify (h : t.Extends t') (hc : t.classify c = some type) :
    t'.classify c = some type := by
  obtain ⟨more, hmore⟩ := h.rules_eq
  obtain ⟨r, hr, rfl⟩ := Option.map_eq_some_iff.mp hc
  simp [Tokenizer.classify, hmore, List.find?_append, hr]

/-- A step that is taken is taken alike. -/
theorem step (h : t.Extends t') (hs : t.step s c = .ok s') : t'.step s c = .ok s' := by
  unfold Tokenizer.step at hs ⊢
  split at hs
  · cases hs
  next type hc =>
    cases hs
    simp [h.classify hc, advance, h.newlineType_eq]

/-- A run that is not refused is the same run. -/
theorem run (h : t.Extends t') (hs : cs.foldlM t.step s = .ok s') :
    cs.foldlM t'.step s = .ok s' := by
  induction cs generalizing s with
  | nil => exact hs
  | cons c cs ih =>
      obtain ⟨s₁, hstep, hrest⟩ := run_cons_eq_ok_iff.mp hs
      exact run_cons_eq_ok_iff.mpr ⟨s₁, h.step hstep, ih hrest⟩

theorem tokenize (h : t.Extends t') (htokens : t.tokenize text = .ok tokens) :
    t'.tokenize text = .ok tokens := by
  obtain ⟨s, hs, rfl⟩ := tokenize_eq_ok_iff.mp htokens
  exact tokenize_eq_ok_iff.mpr ⟨s, h.run hs, rfl⟩

end Extends

/-! ### What a run leaves alone -/

/-- A step adds one token, at the place where the run stands. -/
theorem tokens_of_step (h : t.step s c = .ok s') :
    ∃ token : Token, s'.tokens = s.tokens.push token ∧ token.position = s.position := by
  unfold step at h
  split at h
  · cases h
  · cases h
    exact ⟨_, rfl, rfl⟩

theorem size_of_step (h : t.step s c = .ok s') : s'.tokens.size = s.tokens.size + 1 := by
  obtain ⟨token, htokens, -⟩ := tokens_of_step h
  rw [htokens, Array.size_push]

/-- What is reported of a refused character is where the run stands, whatever the rules are. -/
theorem error_of_step (h : t.step s c = .error e) :
    e = { character := String.singleton c, line := s.position.line, column := s.position.column,
          index := s.tokens.size } := by
  unfold step at h
  split at h
  · cases h
    rfl
  · cases h

/-- A run only adds to its tokens. -/
theorem tokens_of_run (h : cs.foldlM t.step s = .ok s') :
    ∃ more, s'.tokens.toList = s.tokens.toList ++ more := by
  induction cs generalizing s with
  | nil =>
      cases h
      exact ⟨[], by simp⟩
  | cons c cs ih =>
      obtain ⟨s₁, hstep, hrest⟩ := run_cons_eq_ok_iff.mp h
      obtain ⟨token, htokens, -⟩ := tokens_of_step hstep
      obtain ⟨more, hmore⟩ := ih hrest
      exact ⟨token :: more, by simp [hmore, htokens]⟩

/-- The token of the next character comes right behind those that are there. -/
theorem next_token_of_run (h : (c :: cs).foldlM t.step s = .ok s') :
    ∃ token : Token, s'.tokens[s.tokens.size]? = some token ∧ token.position = s.position := by
  obtain ⟨s₁, hstep, hrest⟩ := run_cons_eq_ok_iff.mp h
  obtain ⟨token, htokens, hposition⟩ := tokens_of_step hstep
  obtain ⟨more, hmore⟩ := tokens_of_run hrest
  refine ⟨token, ?_, hposition⟩
  rw [← Array.getElem?_toList, hmore, htokens]
  simp

/-- A character that is refused stands behind all that was read. -/
theorem size_le_index_of_run (h : cs.foldlM t.step s = .error e) : s.tokens.size ≤ e.index := by
  induction cs generalizing s with
  | nil => cases h
  | cons c cs ih =>
      rcases run_cons_eq_error_iff.mp h with hstep | ⟨s₁, hstep, hrest⟩
      · simp [error_of_step hstep]
      · have hle := ih hrest
        rw [size_of_step hstep] at hle
        omega

/-- If the next character is read, then one that is refused has a greater index than it. -/
theorem refused_now_or_later (h : (c :: cs).foldlM t.step s = .error e) :
    t.step s c = .error e ∨ s.tokens.size < e.index := by
  rcases run_cons_eq_error_iff.mp h with hstep | ⟨s₁, hstep, hrest⟩
  · exact .inl hstep
  · right
    have hle := size_le_index_of_run hrest
    rw [size_of_step hstep] at hle
    omega

/-! ### Both tokenizers on one text -/

/-- A text that is refused is read up to the character that is refused. -/
theorem exists_run_of_error (h : t.tokenize text = .error e) :
    ∃ before c after s, text.toList = before ++ c :: after ∧ before.foldlM t.step {} = .ok s ∧
      s.tokens.size = before.length ∧ t.step s c = .error e := by
  rcases classified_or_first_unmatched t text.toList
    with hall | ⟨before, c, after, htext, hbefore, hc⟩
  · obtain ⟨tokens, htokens⟩ := exists_tokenize hall
    rw [htokens] at h
    cases h
  · obtain ⟨s, hs⟩ := exists_run hbefore {}
    have hreads : s.Reads t before := (Progress.reads_nil t).run hs
    rw [tokenize_of_unmatched htext hbefore hc] at h
    cases h
    exact ⟨before, c, after, s, htext, hs, hreads.size_eq, hreads.step_of_unmatched hc⟩

/-- **Rules that are added change nothing that was answered before.** Let `t'` be `t` with rules
added, whatever they accept and whatever their types are.

A text that `t` makes tokens of is made the same tokens of by `t'`. A text that `t` refuses at index
`i` is refused by `t'` at `i` with the same error, or at a later index, or it becomes tokens: the
first `i` of them are what `t` makes of the first `i` characters, and the next one stands at the
place that the error of `t` names. -/
theorem tokens_kept_by_added_rules (h : t.withRules added = .ok t') (text : String) :
    (∀ tokens, t.tokenize text = .ok tokens → t'.tokenize text = .ok tokens) ∧
    ∀ e, t.tokenize text = .error e → ∃ i : Nat, e.index = i ∧
      ((∃ e', t'.tokenize text = .error e' ∧ e.index ≤ e'.index ∧ (e'.index = e.index → e' = e)) ∨
        ∃ tokens first token, t'.tokenize text = .ok tokens ∧
          t.tokenize (String.ofList (text.toList.take i)) = .ok first ∧
          tokens.toList.take i = first.toList ∧ tokens[i]? = some token ∧
          token.position.line = e.line ∧ token.position.column = e.column) := by
  have hext := Extends.of_withRules h
  refine ⟨fun tokens htokens => hext.tokenize htokens, fun e he => ?_⟩
  obtain ⟨before, c, after, s, htext, hs, hsize, hc⟩ := exists_run_of_error he
  have he := error_of_step hc
  have hindex : e.index = before.length := by rw [he, ← hsize]
  -- Both tokenizers come to `s`; from there on only `t'` counts.
  have hrun : text.toList.foldlM t'.step {} = (c :: after).foldlM t'.step s := by
    rw [htext, foldlM_step_append, hext.run hs]
    rfl
  refine ⟨before.length, hindex, ?_⟩
  rcases hrest : (c :: after).foldlM t'.step s with e' | s'
  · left
    have hle := size_le_index_of_run hrest
    refine ⟨e', tokenize_eq_error_iff.mpr (hrun.trans hrest), by omega, fun hsame => ?_⟩
    rcases refused_now_or_later hrest with hstep | hlater
    · rw [error_of_step hstep, he]
    · omega
  · right
    obtain ⟨token, htoken, hposition⟩ := next_token_of_run hrest
    obtain ⟨more, hmore⟩ := tokens_of_run hrest
    refine ⟨s'.tokens, s.tokens, token, tokenize_eq_ok_iff.mpr ⟨s', hrun.trans hrest, rfl⟩,
      tokenize_eq_ok_iff.mpr ⟨s, ?_, rfl⟩, ?_, ?_, ?_, ?_⟩
    · rwa [String.toList_ofList, htext, List.take_left]
    · simp [hmore, ← hsize]
    · rwa [← hsize]
    · rw [he, hposition]
    · rw [he, hposition]

/-- An added rule makes line ends of letters, an old one included: the old letter stays a letter,
and the new one ends its line. -/
theorem tokens_kept_by_added_line_ends :
    let t : Tokenizer :=
      { rules := [⟨.literal 'a', "letter", by decide⟩, ⟨.literal ';', "end", by decide⟩]
        newlineType := some "end" }
    let added : List (MatcherSpec × TokenType) :=
      [(.pattern .letter, "end"), (.literal "?", "letter")]
    ∃ t' e, t.withRules added = .ok t' ∧ t.tokenize "a;b?" = .error e ∧ ∃ i : Nat, e.index = i ∧
      ((∃ e', t'.tokenize "a;b?" = .error e' ∧ e.index ≤ e'.index ∧ (e'.index = e.index → e' = e)) ∨
        ∃ tokens first token, t'.tokenize "a;b?" = .ok tokens ∧
          t.tokenize (String.ofList ("a;b?".toList.take i)) = .ok first ∧
          tokens.toList.take i = first.toList ∧ tokens[i]? = some token ∧
          token.position.line = e.line ∧ token.position.column = e.column) := by
  intro t added
  have hadded : t.withRules added = .ok
      { t with rules := t.rules ++
          [⟨.pattern .letter, "end", by decide⟩, ⟨.literal '?', "letter", by decide⟩] } := by
    decide
  have herror : t.tokenize "a;b?" =
      .error { character := "b", line := 2, column := 1, index := 2 } := by
    decide
  exact ⟨_, _, hadded, herror, (tokens_kept_by_added_rules hadded "a;b?").2 _ herror⟩

end Descent.Tokenizer
