import Descent.Proofs.Tokenizer.Places

/-!
# What becomes of a text

A text becomes tokens as a whole, or it is refused at its first character that no rule accepts. In
both cases all that is answered can be read off the text: which rule is the first to accept a
character, and where the characters before it lead to. No run of the tokenizer has to be followed.

* `classify_eq_some_iff` and `classify_eq_none_iff` say which rule gives a character its type.
* `placeAfter_lt` says that reading on moves the place on, in reading order. Hence the tokens of a text
  stand one behind the other.
* `tokenize_of_unmatched` is the run that is refused. `refusal` says what it reports.
-/

namespace Descent

namespace SourcePosition

theorem ne_of_lt {p q : SourcePosition} (h : p < q) : p ≠ q := by
  rintro rfl
  rcases h with h | ⟨-, h⟩
  · exact Nat.lt_irrefl _ h
  · exact Nat.lt_irrefl _ h

end SourcePosition

namespace Tokenizer

variable {t : Tokenizer} {text : String} {tokens : Array Token} {cs ds before after : List Char}
  {c : Char} {type : TokenType} {i j : Nat} {line column : Int}

/-! ### The rule of a character -/

/-- The rule accepts the character, and none before it does. -/
def FirstToAccept (t : Tokenizer) (c : Char) (r : Rule) : Prop :=
  ∃ before after, t.rules = before ++ r :: after ∧ r.accepts c ∧ ∀ s ∈ before, ¬ s.accepts c

theorem classify_eq_some_iff :
    t.classify c = some type ↔ ∃ r, t.FirstToAccept c r ∧ r.type = type := by
  unfold classify FirstToAccept
  rw [Option.map_eq_some_iff]
  constructor
  · rintro ⟨r, hr, htype⟩
    obtain ⟨haccepts, before, after, hrules, hbefore⟩ := List.find?_eq_some_iff_append.mp hr
    exact ⟨r, ⟨before, after, hrules, haccepts, by simpa using hbefore⟩, htype⟩
  · rintro ⟨r, ⟨before, after, hrules, haccepts, hbefore⟩, htype⟩
    refine ⟨r, List.find?_eq_some_iff_append.mpr ⟨haccepts, before, after, hrules, ?_⟩, htype⟩
    simpa using hbefore

theorem classify_eq_none_iff : t.classify c = none ↔ ∀ r ∈ t.rules, ¬ r.accepts c := by
  rw [classify, Option.map_eq_none_iff, List.find?_eq_none]

theorem isSome_classify_iff : (t.classify c).isSome ↔ ∃ r ∈ t.rules, r.accepts c := by
  rw [classify, Option.isSome_map, List.find?_isSome]

/-! ### Line and column -/

/-- Characters without a line end, or a last line end among them. -/
theorem unbroken_or_last (t : Tokenizer) (cs : List Char) :
    (∀ c ∈ cs, t.breaksLine c = false) ∨
      ∃ before c after, cs = before ++ c :: after ∧ t.breaksLine c ∧
        ∀ d ∈ after, t.breaksLine d = false := by
  induction cs using List.reverseRecOn with
  | nil => exact .inl nofun
  | append_singleton cs e ih =>
      cases he : t.breaksLine e with
      | true => exact .inr ⟨cs, e, [], rfl, he, nofun⟩
      | false =>
          rcases ih with hall | ⟨before, c, after, rfl, hc, hafter⟩
          · left
            intro d hd
            rcases List.mem_append.mp hd with hd | hd
            · exact hall d hd
            · rwa [List.mem_singleton.mp hd]
          · right
            refine ⟨before, c, after ++ [e], by simp, hc, ?_⟩
            intro d hd
            rcases List.mem_append.mp hd with hd | hd
            · exact hafter d hd
            · rwa [List.mem_singleton.mp hd]

/-- Characters lead to one line and one column. -/
theorem leadTo_iff : t.LeadTo cs line column ↔
    line = (t.placeAfter cs).line ∧ column = (t.placeAfter cs).column := by
  have hplace := leadTo_placeAfter t cs
  constructor
  · intro h
    refine ⟨h.line_eq.trans hplace.line_eq.symm, ?_⟩
    rcases unbroken_or_last t cs with hall | ⟨before, c, after, hcs, hc, hafter⟩
    · rw [h.column_eq_of_unbroken hall, hplace.column_eq_of_unbroken hall]
    · rw [h.column_eq_of_last before c after hcs hc hafter,
        hplace.column_eq_of_last before c after hcs hc hafter]
  · rintro ⟨rfl, rfl⟩
    exact hplace

/-- The line and the column that characters lead to are both at least one. -/
theorem LeadTo.ofInts_eq (h : t.LeadTo cs line column) :
    SourcePosition.ofInts line column = .ok (t.placeAfter cs) := by
  obtain ⟨rfl, rfl⟩ := leadTo_iff.mp h
  exact ErrorPosition.source_ofSource (t.placeAfter cs) 0

/-- **Reading on moves the place on.** -/
theorem placeAfter_lt (t : Tokenizer) (cs : List Char) (hds : ds ≠ []) :
    t.placeAfter cs < t.placeAfter (cs ++ ds) := by
  by_cases hbroken : ∃ d ∈ ds, t.breaksLine d
  · left
    have hpos : 0 < ds.countP t.breaksLine := List.countP_pos_iff.mpr hbroken
    simp only [placeAfter, List.countP_append]
    omega
  · have hall : ∀ d ∈ ds, t.breaksLine d = false := by simpa using hbroken
    have hcount : ds.countP t.breaksLine = 0 := by
      rw [List.countP_eq_zero]
      simpa using hall
    -- What follows the last line end grows by `ds`.
    have hlast : (cs ++ ds).rtakeWhile (fun c => !t.breaksLine c) =
        cs.rtakeWhile (fun c => !t.breaksLine c) ++ ds := by
      rw [List.rtakeWhile, List.rtakeWhile, List.reverse_append,
        List.takeWhile_append_of_pos fun d hd => by simp [hall d (List.mem_reverse.mp hd)]]
      simp
    have hlength : 0 < ds.length := List.length_pos_iff.mpr hds
    right
    constructor
    · simp [placeAfter, List.countP_append, hcount]
    · simp only [placeAfter, hlast, List.length_append]
      omega

/-- A later character stands at a later place. -/
theorem placeAfter_take_lt (t : Tokenizer) (hij : i < j) (hj : j ≤ cs.length) :
    t.placeAfter (cs.take i) < t.placeAfter (cs.take j) := by
  have hsplit : cs.take j = cs.take i ++ (cs.take j).drop i := by
    have hself := List.take_append_drop i (cs.take j)
    rw [List.take_take, Nat.min_eq_left (Nat.le_of_lt hij)] at hself
    exact hself.symm
  rw [hsplit]
  apply placeAfter_lt
  apply List.ne_nil_of_length_pos
  rw [List.length_drop, List.length_take]
  omega

/-- The tokens of a run stand one behind the other. -/
theorem Progress.Reads.position_lt {s : Progress} {a b : Token} (hs : s.Reads t cs) (hij : i < j)
    (ha : s.tokens[i]? = some a) (hb : s.tokens[j]? = some b) : a.position < b.position := by
  obtain ⟨hj, -⟩ := Array.getElem?_eq_some_iff.mp hb
  rw [hs.size_eq] at hj
  have hi : i < cs.length := Nat.lt_trans hij hj
  obtain ⟨_, -, ha'⟩ := hs.token_eq i _ (List.getElem?_eq_getElem hi)
  obtain ⟨_, -, hb'⟩ := hs.token_eq j _ (List.getElem?_eq_getElem hj)
  cases ha.symm.trans ha'
  cases hb.symm.trans hb'
  exact placeAfter_take_lt t hij (Nat.le_of_lt hj)

/-! ### A run to the end -/

/-- Characters that all have a type are all read. -/
theorem exists_run (hcs : ∀ c ∈ cs, (t.classify c).isSome) (s : Progress) :
    ∃ s', cs.foldlM t.step s = .ok s' := by
  induction cs generalizing s with
  | nil => exact ⟨s, rfl⟩
  | cons c cs ih =>
      obtain ⟨type, htype⟩ := Option.isSome_iff_exists.mp (hcs c List.mem_cons_self)
      obtain ⟨s', hs'⟩ : ∃ s', t.step s c = .ok s' := by simp [step, htype]
      obtain ⟨s'', hs''⟩ := ih (fun d hd => hcs d (List.mem_cons_of_mem c hd)) s'
      refine ⟨s'', ?_⟩
      rw [List.foldlM_cons, hs']
      exact hs''

/-- A text whose characters all have a type becomes tokens. -/
theorem exists_tokenize (h : ∀ c ∈ text.toList, (t.classify c).isSome) :
    ∃ tokens, t.tokenize text = .ok tokens := by
  obtain ⟨s, hs⟩ := exists_run h {}
  refine ⟨s.tokens, ?_⟩
  rw [tokenize, hs]
  rfl

/-! ### A run that is refused -/

/-- What is reported of a character that no rule accepts and that these characters lead to. -/
def refusal (t : Tokenizer) (cs : List Char) (c : Char) : TokenizationError where
  character := String.singleton c
  line := (t.placeAfter cs).line
  column := (t.placeAfter cs).column
  index := cs.length

theorem Progress.Reads.step_of_unmatched {s : Progress} (hs : s.Reads t cs)
    (hc : t.classify c = none) : t.step s c = .error (t.refusal cs c) := by
  unfold Tokenizer.step refusal
  rw [hc, hs.position_eq, hs.size_eq]

/-- **A text is refused at its first character without a type.** -/
theorem tokenize_of_unmatched (htext : text.toList = before ++ c :: after)
    (hbefore : ∀ d ∈ before, (t.classify d).isSome) (hc : t.classify c = none) :
    t.tokenize text = .error (t.refusal before c) := by
  obtain ⟨s, hs⟩ := exists_run hbefore {}
  have hreads : s.Reads t before := (Progress.reads_nil t).run hs
  rw [tokenize, htext, foldlM_step_append, hs]
  show (c :: after).foldlM t.step s >>= _ = _
  rw [List.foldlM_cons, hreads.step_of_unmatched hc]
  rfl

/-- A refusal has a diagnostic, at the place that it reports. -/
theorem diagnostic_refusal (t : Tokenizer) (cs : List Char) (c : Char) :
    (t.refusal cs c).diagnostic = .ok (.ofSpec .noMatchingRule
      ⟨(t.refusal cs c).line, (t.refusal cs c).column, cs.length⟩
      (some (t.refusal cs c).message)) := by
  have hindex : 0 ≤ (t.refusal cs c).index := Int.natCast_nonneg cs.length
  simp only [TokenizationError.diagnostic, ErrorPosition.ofInts, if_pos hindex]
  rfl

/-- All characters have a type, or there is a first one without. -/
theorem classified_or_first_unmatched (t : Tokenizer) (cs : List Char) :
    (∀ c ∈ cs, (t.classify c).isSome) ∨ ∃ before c after, cs = before ++ c :: after ∧
      (∀ d ∈ before, (t.classify d).isSome) ∧ t.classify c = none := by
  rcases h : cs.find? (fun c => (t.classify c).isNone) with _ | c
  · left
    simpa [Option.isSome_iff_ne_none] using h
  · right
    obtain ⟨hc, before, after, hcs, hbefore⟩ := List.find?_eq_some_iff_append.mp h
    exact ⟨before, c, after, hcs, by simpa using hbefore, by simpa using hc⟩

/-! ### The outcome -/

/-- **What a tokenizer makes of a text.** Either each of its characters is accepted by some rule, or
there is a first one that no rule accepts.

In the first case the answer is as many tokens as there are characters. Each token holds its
character, has the type of the first rule that accepts it, and stands at the line and the column that
the characters before lead to. In reading order every token stands behind those before it, so that no
two stand at one place.

In the second case the answer is an error with this character, its index, and the line and the column
that the characters before lead to, and there is a diagnostic for it.

The lines and columns that characters lead to are positions in all cases: they are not refused. -/
theorem tokens_or_first_unmatched (t : Tokenizer) (text : String) :
    (((∀ c ∈ text.toList, ∃ r ∈ t.rules, r.accepts c) ∧
      ∃ tokens, t.tokenize text = .ok tokens ∧ tokens.size = text.length ∧
        (∀ (i : Nat) (c : Char), text.toList[i]? = some c → ∃ r p,
          tokens[i]? = some ⟨r.type, String.singleton c, p⟩ ∧ t.FirstToAccept c r ∧
          t.LeadTo (text.toList.take i) p.line p.column) ∧
        ∀ (i j : Nat) (a b : Token), i < j → tokens[i]? = some a → tokens[j]? = some b →
          a.position < b.position ∧ a.position ≠ b.position) ∨
    ∃ before c after, text.toList = before ++ c :: after ∧
      (∀ d ∈ before, ∃ r ∈ t.rules, r.accepts d) ∧ (∀ r ∈ t.rules, ¬ r.accepts c) ∧
      ∃ e, t.tokenize text = .error e ∧ e.character = String.singleton c ∧
        e.index = before.length ∧ t.LeadTo before e.line e.column ∧
        e.diagnostic = .ok (.ofSpec .noMatchingRule ⟨e.line, e.column, before.length⟩
          (some e.message))) ∧
    ∀ (i : Nat) (line column : Int), t.LeadTo (text.toList.take i) line column →
      ∃ p, SourcePosition.ofInts line column = .ok p := by
  refine ⟨?_, fun i line column h => ⟨_, h.ofInts_eq⟩⟩
  rcases classified_or_first_unmatched t text.toList with hall | ⟨before, c, after, htext, hbefore, hc⟩
  · left
    obtain ⟨tokens, htokens⟩ := exists_tokenize hall
    have hreads := reads_of_tokenize htokens
    have hsize : tokens.size = text.length := hreads.size_eq
    refine ⟨fun c hmem => isSome_classify_iff.mp (hall c hmem), tokens, htokens, hsize, ?_, ?_⟩
    · intro i c hc
      obtain ⟨type, hclass, htoken⟩ := hreads.token_eq i c hc
      obtain ⟨r, hr, rfl⟩ := classify_eq_some_iff.mp hclass
      exact ⟨r, _, htoken, hr, leadTo_placeAfter t _⟩
    · intro i j a b hij ha hb
      have hlt : a.position < b.position := hreads.position_lt hij ha hb
      exact ⟨hlt, SourcePosition.ne_of_lt hlt⟩
  · right
    refine ⟨before, c, after, htext, fun d hd => isSome_classify_iff.mp (hbefore d hd),
      classify_eq_none_iff.mp hc, t.refusal before c, tokenize_of_unmatched htext hbefore hc, rfl,
      rfl, leadTo_placeAfter t before, diagnostic_refusal t before c⟩

/-- What ends a line is a type: a digit ends the line here, and the line feed is refused on the second.
-/
example :
    let t : Tokenizer :=
      { rules := [⟨.literal 'a', "letter", by decide⟩, ⟨.literal '1', "end", by decide⟩]
        newlineType := some "end" }
    t.tokenize "a1a\n" = .error { character := "\n", line := 2, column := 2, index := 3 } := by
  decide

end Tokenizer

end Descent
