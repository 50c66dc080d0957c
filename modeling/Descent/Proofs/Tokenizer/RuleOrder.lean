import Descent.Proofs.Tokenizer.Outcome
import Mathlib.Data.Fintype.Basic
import Mathlib.Logic.Equiv.Basic

/-!
# The order of rules

The first rule that accepts a character gives it its type. So the order of two rules does not matter
if no character is accepted by both, or if both give the same type. Otherwise the two rules clash.

A `Rearrangement` moves the rules of one list to the places of another and keeps the order of rules
that clash. Which rule comes first for a character may then change, but not the type of that rule
(`Rearrangement.classify_eq`), and a run of a tokenizer asks for nothing else (`tokenize_congr`).
-/

namespace Descent

/-- Two rules of different types that accept a character in common. -/
def Rule.Clash (r s : Rule) : Prop :=
  r.type ≠ s.type ∧ ∃ c, r.accepts c ∧ s.accepts c

/-- A rule for one character clashes only with rules that accept this character. -/
theorem Rule.Clash.accepts_of_literal {r s : Rule} {c : Char} (h : r.Clash s)
    (hr : r.matcher = .literal c) : s.accepts c := by
  obtain ⟨-, d, hrd, hsd⟩ := h
  rw [Rule.accepts, hr] at hrd
  rwa [of_decide_eq_true hrd] at hsd

namespace Tokenizer

/-- The rules of one list at the places of another. Equal rules at different places are told apart. Of
two rules that clash, the one that comes first still does. -/
structure Rearrangement (rules rules' : List Rule) where
  place : Fin rules.length ≃ Fin rules'.length
  get_place : ∀ i, rules'.get (place i) = rules.get i
  place_lt : ∀ i j, i < j → (rules.get i).Clash (rules.get j) → place i < place j

variable {t t' : Tokenizer} {c : Char} {type : TokenType}

/-- The type of a character, by the place of the first rule that accepts it. -/
theorem classify_eq_some_iff_get : t.classify c = some type ↔
    ∃ i, (t.rules.get i).accepts c ∧ (∀ j < i, ¬ (t.rules.get j).accepts c) ∧
      (t.rules.get i).type = type := by
  rw [classify, Option.map_eq_some_iff]
  simp only [List.find?_eq_some_iff_getElem]
  constructor
  · rintro ⟨r, ⟨hr, i, hi, rfl, hfirst⟩, htype⟩
    refine ⟨⟨i, hi⟩, hr, ?_, htype⟩
    intro j hj
    simpa using hfirst j hj
  · rintro ⟨i, hi, hfirst, htype⟩
    refine ⟨t.rules.get i, ⟨hi, i, i.isLt, rfl, ?_⟩, htype⟩
    intro j hj
    simpa using hfirst ⟨j, Nat.lt_trans hj i.isLt⟩ hj

/-- The first rule that accepts a character may be another one after a rearrangement. It has the same
type, since otherwise the two would clash. -/
theorem Rearrangement.classify_of_some (σ : Rearrangement t.rules t'.rules)
    (h : t.classify c = some type) : t'.classify c = some type := by
  obtain ⟨i, hi, hfirst, rfl⟩ := classify_eq_some_iff_get.mp h
  have hmoved : (t'.rules.get (σ.place i)).accepts c := by rwa [σ.get_place]
  obtain ⟨type', htype'⟩ : ∃ type', t'.classify c = some type' :=
    Option.isSome_iff_exists.mp (isSome_classify_iff.mpr ⟨_, List.get_mem _ _, hmoved⟩)
  rw [htype']
  obtain ⟨j, hj, hfirst', rfl⟩ := classify_eq_some_iff_get.mp htype'
  obtain ⟨k, rfl⟩ := σ.place.surjective j
  rw [σ.get_place] at hj ⊢
  rcases Nat.lt_trichotomy i k with hlt | heq | hgt
  · by_contra hne
    have htypes : (t.rules.get i).type ≠ (t.rules.get k).type := fun heq => hne (by rw [heq])
    exact hfirst' _ (σ.place_lt i k hlt ⟨htypes, c, hi, hj⟩) hmoved
  · rw [Fin.ext heq]
  · exact absurd hj (hfirst k hgt)

/-- **A rearrangement changes no type.** -/
theorem Rearrangement.classify_eq (σ : Rearrangement t.rules t'.rules) (c : Char) :
    t.classify c = t'.classify c := by
  cases h : t.classify c with
  | some type => exact (σ.classify_of_some h).symm
  | none =>
      symm
      rw [classify_eq_none_iff] at h ⊢
      intro r hr
      obtain ⟨j, rfl⟩ := List.get_of_mem hr
      obtain ⟨i, rfl⟩ := σ.place.surjective j
      rw [σ.get_place]
      exact h _ (List.get_mem _ _)

/-- All that a run asks for is the types of characters and the type that ends a line. -/
theorem tokenize_congr (hclassify : ∀ c, t.classify c = t'.classify c)
    (hnewline : t.newlineType = t'.newlineType) (text : String) :
    t.tokenize text = t'.tokenize text := by
  have hstep : t.step = t'.step := by
    funext s c
    simp only [step, advance, hclassify, hnewline]
  rw [tokenize, tokenize, hstep]

/-- **The order of rules matters only where they clash.** Two tokenizers with the same newline type
and the same rules, in which rules that clash stand in the same order, give every character the same
type and answer alike for every text: with the same tokens or with the same error. -/
theorem same_tokens_of_rearranged (σ : Rearrangement t.rules t'.rules)
    (hnewline : t.newlineType = t'.newlineType) :
    (∀ c, t.classifyText (String.singleton c) = t'.classifyText (String.singleton c)) ∧
      ∀ text, t.tokenize text = t'.tokenize text := by
  constructor
  · intro c
    rw [classifyText_singleton, classifyText_singleton]
    exact σ.classify_eq c
  · exact tokenize_congr σ.classify_eq hnewline

/-- A digit, all letters and one letter as words, this letter as a vowel, and the digit again. -/
def wordRules : List Rule :=
  [⟨.literal '1', "number", by decide⟩, ⟨.pattern .letter, "word", by decide⟩,
    ⟨.literal 'a', "word", by decide⟩, ⟨.literal 'a', "vowel", by decide⟩,
    ⟨.literal '1', "number", by decide⟩]

/-- The same rules, the first and the third exchanged. The vowel still comes behind both words. -/
def exchangedWordRules : List Rule :=
  [⟨.literal 'a', "word", by decide⟩, ⟨.pattern .letter, "word", by decide⟩,
    ⟨.literal '1', "number", by decide⟩, ⟨.literal 'a', "vowel", by decide⟩,
    ⟨.literal '1', "number", by decide⟩]

def wordRearrangement : Rearrangement wordRules exchangedWordRules where
  place := (Equiv.swap 0 2 : Equiv.Perm (Fin 5))
  get_place := by decide
  place_lt := by
    intro (i : Fin 5) (j : Fin 5) hij hclash
    have hkept : ∀ i j : Fin 5, i < j → Equiv.swap 0 2 i < Equiv.swap 0 2 j ∨
        i = 0 ∧ j = 1 ∨ i = 0 ∧ j = 2 ∨ i = 1 ∧ j = 2 := by
      decide
    rcases hkept i j hij with hlt | ⟨rfl, rfl⟩ | ⟨rfl, rfl⟩ | ⟨rfl, rfl⟩
    · exact hlt
    · exact absurd (hclash.accepts_of_literal rfl) (by decide)
    · exact absurd (hclash.accepts_of_literal rfl) (by decide)
    · exact absurd rfl hclash.1

theorem same_tokens_of_exchanged :
    let t : Tokenizer := { rules := wordRules, newlineType := some "number" }
    let t' : Tokenizer := { rules := exchangedWordRules, newlineType := some "number" }
    t ≠ t' ∧
      (∀ c, t.classifyText (String.singleton c) = t'.classifyText (String.singleton c)) ∧
      ∀ text, t.tokenize text = t'.tokenize text :=
  ⟨by decide, same_tokens_of_rearranged wordRearrangement rfl⟩

end Tokenizer

end Descent
