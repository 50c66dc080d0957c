import Descent.Listing
import Descent.Proofs.Tokenizer.Building
import Descent.Proofs.Tokenizer.Outcome
import Descent.Proofs.Tokenizer.RuleOrder

/-!
# Every text can be listed

Before a text is listed, its characters are visited, and each one that has no type so far gets a
rule of its own. The tokenizer is asked and changed by turns. Still it is known at every time what
it says: a character has its type as plain text if it has one, and otherwise it is a symbol if it
was visited (`classify_withSymbols`). This holds for every visit and so for every order of visits.

Which characters were visited matters only for characters without a type as plain text. Symbols do
not end lines, so lines end at line feeds and nowhere else (`breaksLine_withSymbols`).
-/

namespace Descent

namespace Tokenizer

/-- Asks for the type of a character, and adds a rule for it if it has none. -/
def addSymbol (t : Tokenizer) (c : Char) : Except RuleError Tokenizer :=
  match t.classifyText (String.singleton c) with
  | some _ => .ok t
  | none => t.withRule (.literal (String.singleton c)) "symbol"

/-- The rule for a symbol is never refused. -/
theorem addSymbol_eq (t : Tokenizer) (c : Char) : t.addSymbol c = .ok (t.withSymbol c) := by
  unfold addSymbol withSymbol
  rw [classifyText_singleton]
  cases t.classify c with
  | some type => rfl
  | none =>
      have hmake : Rule.make (.literal (String.singleton c)) "symbol" = .ok (.symbol c) :=
        (Rule.MadeOf.literal c "symbol" (by decide)).make_eq
      simp only [withRule, hmake]
      rfl

theorem foldlM_addSymbol (t : Tokenizer) (cs : List Char) :
    cs.foldlM addSymbol t = .ok (t.withSymbols cs) := by
  have hadd : addSymbol = fun t c => pure (t.withSymbol c) := by
    funext t c
    exact t.addSymbol_eq c
  rw [hadd, List.foldlM_pure]
  rfl

/-! ### What the tokenizer says after visits -/

theorem newlineType_withSymbol (t : Tokenizer) (c : Char) :
    (t.withSymbol c).newlineType = t.newlineType := by
  unfold withSymbol
  split <;> rfl

theorem newlineType_withSymbols (t : Tokenizer) (cs : List Char) :
    (t.withSymbols cs).newlineType = t.newlineType := by
  induction cs generalizing t with
  | nil => rfl
  | cons c cs ih => exact (ih (t.withSymbol c)).trans (t.newlineType_withSymbol c)

/-- A rule that is added is asked last. -/
theorem classify_concat (t : Tokenizer) (r : Rule) (d : Char) :
    classify { t with rules := t.rules ++ [r] } d =
      (t.classify d).or (if r.accepts d then some r.type else none) := by
  cases hd : r.accepts d <;> simp [classify, List.find?_append, hd]

/-- A visit gives a type to the character that is visited, and changes no type. -/
theorem classify_withSymbol (t : Tokenizer) (c d : Char) : (t.withSymbol c).classify d =
    if d = c then some ((t.classify d).getD "symbol") else t.classify d := by
  have haccepts : (Rule.symbol c).accepts d = decide (d = c) := rfl
  unfold withSymbol
  split
  next type hc =>
    by_cases hd : d = c
    · simp [hd, hc]
    · simp [hd]
  next hc =>
    rw [classify_concat, haccepts]
    by_cases hd : d = c
    · simp [hd, hc, Rule.symbol]
    · simp [hd]

/-- **What is said after visits.** The characters that were visited all have a type. The order of
the visits is not seen. -/
theorem classify_withSymbols (t : Tokenizer) (cs : List Char) (d : Char) :
    (t.withSymbols cs).classify d =
      if d ∈ cs then some ((t.classify d).getD "symbol") else t.classify d := by
  induction cs generalizing t with
  | nil => simp [withSymbols]
  | cons c cs ih =>
      have hvisit : t.withSymbols (c :: cs) = (t.withSymbol c).withSymbols cs := rfl
      rw [hvisit, ih, classify_withSymbol]
      by_cases hd : d = c <;> simp [hd]

/-! ### Plain text -/

theorem contains_newline (c : Char) : CharClass.newline.contains c = decide (c = '\n') := by
  have hrange : ('\n' ≤ c ∧ c ≤ '\n') ↔ c = '\n' :=
    ⟨fun h => Char.le_antisymm h.2 h.1, fun h => by simp [h]⟩
  simp [CharClass.contains, CharClass.inRanges, CharClass.newline, hrange, -Bool.decide_and]

theorem classify_plainText (c : Char) : plainText.classify c =
    if c = '\n' then some "newline"
    else if CharClass.whitespace.contains c then some "whitespace"
    else if CharClass.letter.contains c then some "letter"
    else if CharClass.digit.contains c then some "digit"
    else none := by
  simp only [classify, plainText, List.find?, Rule.ofClass, Rule.accepts, Matcher.accepts,
    contains_newline]
  split_ifs <;> simp_all

/-- The tokenizer for plain text is built in five steps. -/
example : build
    [.rule (.pattern .newline) "newline", .rule (.pattern .whitespace) "whitespace",
      .rule (.pattern .letter) "letter", .rule (.pattern .digit) "digit", .newline "newline"] =
    .ok plainText := by
  decide

/-- After visits, lines of plain text end at line feeds and nowhere else. -/
theorem breaksLine_withSymbols (cs : List Char) (c : Char) :
    (plainText.withSymbols cs).breaksLine c = decide (c = '\n') := by
  have hnewline : (plainText.withSymbols cs).newlineType = some "newline" :=
    newlineType_withSymbols plainText cs
  rw [breaksLine, hnewline, classify_withSymbols, classify_plainText]
  split_ifs <;> simp_all

end Tokenizer

namespace Listing

open Tokenizer

/-- The type under which a character is listed. -/
def typeOf (c : Char) : TokenType :=
  if c = '\n' then "newline"
  else if CharClass.whitespace.contains c then "whitespace"
  else if CharClass.letter.contains c then "letter"
  else if CharClass.digit.contains c then "digit"
  else "symbol"

/-- It is the type as plain text, if there is one. -/
theorem typeOf_eq (c : Char) : typeOf c = (plainText.classify c).getD "symbol" := by
  rw [typeOf, classify_plainText]
  split_ifs <;> rfl

/-- Where a character stands behind these: lines end at line feeds. -/
theorem placeAfter_withSymbols (visited cs : List Char) :
    ((plainText.withSymbols visited).placeAfter cs).line = 1 + cs.count '\n' ∧
      ((plainText.withSymbols visited).placeAfter cs).column =
        (cs.rtakeWhile (· ≠ '\n')).length + 1 := by
  have hbreaks : (plainText.withSymbols visited).breaksLine = fun c => decide (c = '\n') :=
    funext (breaksLine_withSymbols visited)
  constructor
  · simp only [placeAfter, hbreaks]
    rfl
  · simp [placeAfter, hbreaks]

variable {text : String} {visited : List Char}

/-- It does not matter in which order the characters of a text are visited, nor how often. -/
theorem tokenize_withSymbols (hvisited : ∀ c, c ∈ visited ↔ c ∈ text.toList) :
    (plainText.withSymbols visited).tokenize text = tokens text := by
  apply tokenize_congr
  · intro c
    simp only [classify_withSymbols, hvisited]
  · rw [newlineType_withSymbols, newlineType_withSymbols]

/-- The characters of a text have a type once they were visited. -/
theorem classify_of_mem {c : Char} (h : c ∈ visited) :
    (plainText.withSymbols visited).classify c = some (typeOf c) := by
  rw [classify_withSymbols, if_pos h, typeOf_eq]

/-- **Every text can be listed.** Visit the characters of a text in any order, and add a rule for
each one that has no type so far. No rule is refused, and the tokenizer that comes out makes tokens
of the text: the same for every order, and as many as the text has characters.

Each token has the type of its character as plain text, and is a symbol if there is none. It stands
on one line more than there are line feeds before it, and one column more than there are characters
after the last of them. So whatever file the text was read from, its tokens are listed and counted.
-/
theorem every_text_listed (hvisited : ∀ c, c ∈ visited ↔ c ∈ text.toList) :
    ∃ t ts, visited.foldlM addSymbol plainText = .ok t ∧ t.tokenize text = .ok ts ∧
      tokens text = .ok ts ∧ ts.size = text.length ∧
      (∀ (i : Nat) (c : Char), text.toList[i]? = some c →
        typeOf c = (plainText.classify c).getD "symbol" ∧
        ∃ p, ts[i]? = some ⟨typeOf c, String.singleton c, p⟩ ∧
          p.line = 1 + (text.toList.take i).count '\n' ∧
          p.column = ((text.toList.take i).rtakeWhile (· ≠ '\n')).length + 1) ∧
      ∀ (path : Path) (bytes : ByteArray), decode bytes = .ok text → list path bytes =
        .listed (Token.dump ts.toList ++ toString text.length ++ " tokens from " ++ toString path ++
          "\n") := by
  obtain ⟨ts, hts⟩ : ∃ ts, (plainText.withSymbols visited).tokenize text = .ok ts := by
    apply exists_tokenize
    intro c hc
    rw [classify_of_mem ((hvisited c).mpr hc)]
    rfl
  have htokens : tokens text = .ok ts := by rw [← tokenize_withSymbols hvisited, hts]
  have hreads := reads_of_tokenize hts
  have hsize : ts.size = text.length := hreads.size_eq
  refine ⟨_, ts, foldlM_addSymbol plainText visited, hts, htokens, hsize, ?_, ?_⟩
  · intro i c hc
    obtain ⟨type, htype, htoken⟩ := hreads.token_eq i c hc
    rw [classify_of_mem ((hvisited c).mpr (List.mem_of_getElem? hc))] at htype
    cases htype
    exact ⟨typeOf_eq c, _, htoken, placeAfter_withSymbols visited _⟩
  · intro path bytes hbytes
    simp only [list, hbytes, render, htokens, ← hsize]
    rfl

/-- The characters of a text once each and in the order of their codes. -/
theorem every_text_listed_in_code_order :
    let text := "a-1\n-"
    let visited := ['\n', '-', '1', 'a']
    (∀ c, c ∈ visited ↔ c ∈ text.toList) ∧
      ∃ t ts, visited.foldlM addSymbol plainText = .ok t ∧ t.tokenize text = .ok ts ∧
        tokens text = .ok ts ∧ ts.size = 5 := by
  intro text visited
  have hvisited : ∀ c, c ∈ visited ↔ c ∈ text.toList := by
    have htext : text.toList = ['a', '-', '1', '\n', '-'] := by simp [text]
    rw [htext]
    grind
  obtain ⟨t, ts, ht, hts, htokens, hsize, -⟩ := every_text_listed hvisited
  exact ⟨hvisited, t, ts, ht, hts, htokens, hsize.trans (by decide)⟩

end Listing

end Descent
