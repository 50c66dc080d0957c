import Descent.Proofs.Grammar.Refinement
import Descent.Proofs.Tokenizer.Places

/-!
# Where the end of the input is found

`endOfInput` accepts the end of the tokens, and it accepts a token of the type `endOfInputType`, which
a caller may put behind its tokens. Over the tokens of a text there is to be no such token, so that
nothing but the end is accepted. That is a matter of the tokenizer. Its rules may have this type as
any other, and a character that is given it is taken for the end wherever it stands.

`Tokenizer.ReservesEnd` says that no character is. Exactly then the tokens of all texts are without
the type, and exactly then a grammar with `endOfInput` behind it matches whole texts only.
-/

namespace Descent

/-! ### Tokenizers that reserve the type -/

namespace Tokenizer

/-- No character is given the type that stands for the end of the input. -/
def ReservesEnd (t : Tokenizer) : Prop := ∀ c, t.classify c ≠ some endOfInputType

variable {t : Tokenizer} {text : String} {tokens : Array Token}

/-- It is enough that no rule has the type. -/
theorem reservesEnd_of_rules (h : ∀ r ∈ t.rules, r.type ≠ endOfInputType) : t.ReservesEnd := by
  intro c hc
  obtain ⟨r, hr, htype⟩ := Option.map_eq_some_iff.mp hc
  exact h r (List.mem_of_find?_eq_some hr) htype

/-- The type of a token is that of the character which it was made of. -/
theorem exists_classify_of_mem (h : t.tokenize text = .ok tokens) {token : Token}
    (hmem : token ∈ tokens) : ∃ c, t.classify c = some token.type := by
  have hreads := reads_of_tokenize h
  obtain ⟨k, hk, rfl⟩ := Array.mem_iff_getElem.mp hmem
  have hlt : k < text.toList.length := by
    rw [← hreads.size_eq]
    exact hk
  obtain ⟨type, hclass, htoken⟩ := hreads.token_eq k _ (List.getElem?_eq_getElem hlt)
  have heq := Option.some.inj ((Array.getElem?_eq_getElem hk).symm.trans htoken)
  rw [heq]
  exact ⟨_, hclass⟩

/-- A character that has a type may be repeated. -/
theorem tokenize_twice {c : Char} {type : TokenType} (h : t.classify c = some type) :
    t.tokenize (String.ofList [c, c]) = .ok #[⟨type, String.singleton c, .start⟩,
      ⟨type, String.singleton c, t.advance .start type⟩] := by
  simp [tokenize, step, h]
  rfl

/-- **The type is reserved exactly if no text has a token of it.** -/
theorem reservesEnd_iff : t.ReservesEnd ↔ ∀ text tokens, t.tokenize text = .ok tokens →
    ∀ token ∈ tokens, token.type ≠ endOfInputType := by
  constructor
  · intro h text tokens htokens token hmem htype
    obtain ⟨c, hc⟩ := exists_classify_of_mem htokens hmem
    apply h c
    rw [hc, htype]
  · intro h c hc
    apply h _ _ (tokenize_twice hc) ⟨endOfInputType, String.singleton c, .start⟩
    · simp
    · rfl

end Tokenizer

namespace Grammar

variable {hand : Empty → Parser Value} {defs : Definitions Empty} {T : Array Token}
  {g : Grammar Empty} {i j : Nat} {a : Value} {d : Cursor} {t : Tokenizer} {text : String}
  {tokens : Array Token}

/-- A match that ends with the end of the input ends at the end of the tokens, or behind a token that
stands for it. -/
theorem Runs.end_of_sequence
    (h : Runs defs T (.sequence [g, .endOfInput]) i (.success a) j) (hi : i ≤ T.size) :
    j = T.size ∨ ∃ token ∈ T, token.type = endOfInputType := by
  cases h with
  | sequence_stop _ hv => cases hv
  | sequence_later _ _ hv => cases hv
  | sequence_cons hg hend =>
      have hk := (hg.bounds hi).2
      cases hend with
      | sequence_stop _ hv => cases hv
      | sequence_later _ _ hv => cases hv
      | sequence_cons hend hnil =>
          cases hnil
          cases hend with
          | end_reached ht =>
              left
              exact Nat.le_antisymm hk (Array.getElem?_eq_none_iff.mp ht)
          | end_marked ht htype =>
              right
              exact ⟨_, Array.mem_of_getElem? ht, htype⟩

/-- Over the tokens of a text, a match that ends with the end of the input is a match of the text. -/
theorem Ends.at_end_of_text (ht : t.ReservesEnd) (htokens : t.tokenize text = .ok tokens)
    (h : Ends hand defs (.sequence [g, .endOfInput]) (.ofTokens tokens) (.success a) d) :
    d.atEnd ∧ d.index = text.length := by
  have hi : 0 ≤ tokens.size := Nat.zero_le _
  have hr : Runs defs tokens (.sequence [g, .endOfInput]) 0 (.success a) d.index :=
    runs_of_ends (c := ⟨tokens, 0, []⟩) hi h
  have hd : d.tokens = tokens := (h.onward (balanced_of_empty hand) hi).tokens_eq
  have hsize : tokens.size = text.length := (Tokenizer.reads_of_tokenize htokens).size_eq
  have hend : d.index = tokens.size := by
    rcases hr.end_of_sequence hi with hend | ⟨token, hmem, htype⟩
    · exact hend
    · exact absurd htype (Tokenizer.reservesEnd_iff.mp ht text tokens htokens token hmem)
  constructor
  · simp [Cursor.atEnd, hd, hend]
  · rw [hend, hsize]

/-- A character that counts as the end is all that is consumed of a text which repeats it. -/
theorem ends_behind_first (hand : Empty → Parser Value) {c : Char}
    (hc : t.classify c = some endOfInputType) :
    ∃ tokens, t.tokenize (String.ofList [c, c]) = .ok tokens ∧
      Ends hand [] (.sequence [.sequence [], .endOfInput]) (.ofTokens tokens)
        (.success (.ofList [.ofList [], .null])) ⟨tokens, 1, []⟩ := by
  refine ⟨_, Tokenizer.tokenize_twice hc, ?_⟩
  apply ends_of_runs
  · apply Runs.sequence_cons .sequence_nil
    exact .sequence_cons (.end_marked rfl rfl) .sequence_nil
  · exact Nat.zero_le _

/-- **The end of the input is the end of the text exactly if the tokenizer reserves its type**: if it
gives the type to no character. Exactly then no text has a token of the type, and exactly then every
match that ends with the end of the input has consumed all characters of its text. It is enough that
no rule has the type. -/
theorem end_of_text_iff (hand : Empty → Parser Value) (t : Tokenizer) :
    (t.ReservesEnd ↔ ∀ text tokens, t.tokenize text = .ok tokens →
      ∀ token ∈ tokens, token.type ≠ endOfInputType) ∧
    (t.ReservesEnd ↔ ∀ text tokens, t.tokenize text = .ok tokens →
      ∀ defs g a d, Ends hand defs (.sequence [g, .endOfInput]) (.ofTokens tokens) (.success a) d →
        d.atEnd ∧ d.index = text.length) ∧
    ((∀ r ∈ t.rules, r.type ≠ endOfInputType) → t.ReservesEnd) := by
  refine ⟨Tokenizer.reservesEnd_iff, ⟨?_, ?_⟩, Tokenizer.reservesEnd_of_rules⟩
  · intro ht text tokens htokens defs g a d h
    exact h.at_end_of_text ht htokens
  · intro h c hc
    obtain ⟨tokens, htokens, hends⟩ := ends_behind_first hand hc
    obtain ⟨-, hlength⟩ := h _ _ htokens _ _ _ _ hends
    simp at hlength

/-- With a rule of the reserved type, the end of the input is found in the middle of a text: a match
that ends with it leaves the last letter. -/
theorem end_within_text :
    let t : Tokenizer :=
      { rules := [⟨.literal 'a', "letter", by decide⟩, ⟨.literal '$', endOfInputType, by decide⟩] }
    let text := "a$a"
    let tokens : Array Token := #[⟨"letter", "a", ⟨1, 1, by decide, by decide⟩⟩,
      ⟨endOfInputType, "$", ⟨1, 2, by decide, by decide⟩⟩,
      ⟨"letter", "a", ⟨1, 3, by decide, by decide⟩⟩]
    let g : Grammar Empty := .sequence [.oneOf "letter" [], .endOfInput]
    let d : Cursor := ⟨tokens, 2, []⟩
    Tokenizer.ofEntries [.pair (.literal "a") "letter", .pair (.literal "$") endOfInputType] =
        .ok t ∧
      t.tokenize text = .ok tokens ∧ (∃ token ∈ tokens, token.type = endOfInputType) ∧
      (∃ a, Ends nofun [] g (.ofTokens tokens) (.success a) d) ∧
      d.atEnd = false ∧ d.index < text.length := by
  intro t text tokens g d
  exact ⟨by decide, by decide, by decide, ⟨_, 4, rfl⟩, by decide, by decide⟩

end Grammar

end Descent
