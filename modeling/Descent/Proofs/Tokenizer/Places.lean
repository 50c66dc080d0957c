import Descent.Tokenizer
import Mathlib.Data.List.DropRight

/-!
# Where tokens stand

A run of the tokenizer counts lines and columns as it goes. `placeAfter` says outright where a run
stands that has read these characters: on one line more than there are line ends among them, and one
column more than there are characters after the last of them. Whether a character ends a line is
decided by the type that it is given, not by the character.

`Progress.Reads` says what a run has to show for the characters read so far. A step keeps it, with
one character more, and so does a run.
-/

namespace Descent.Tokenizer

/-! ### The place after some characters -/

/-- Whether the type that a character is given is the newline type. -/
def breaksLine (t : Tokenizer) (c : Char) : Bool :=
  (t.classify c).any fun type => decide (t.newlineType = some type)

/-- The place that is reached by these characters from the start of a text. -/
def placeAfter (t : Tokenizer) (cs : List Char) : SourcePosition where
  line := 1 + cs.countP t.breaksLine
  column := (cs.rtakeWhile fun c => !t.breaksLine c).length + 1

/-- These are the line and the column that `cs` lead to. The line is one more than the number of
line ends among them. The column is one more than their number if there is no line end, and otherwise
the distance to the last one. -/
structure LeadTo (t : Tokenizer) (cs : List Char) (line column : Int) : Prop where
  line_eq : line = 1 + cs.countP t.breaksLine
  column_eq_of_unbroken : (∀ c ∈ cs, t.breaksLine c = false) → column = cs.length + 1
  column_eq_of_last : ∀ before c after, cs = before ++ c :: after → t.breaksLine c →
    (∀ d ∈ after, t.breaksLine d = false) → column = cs.length - before.length

variable {t : Tokenizer} {cs ds : List Char} {c : Char} {type : TokenType}

theorem placeAfter_nil (t : Tokenizer) : t.placeAfter [] = .start := by
  simp [placeAfter, SourcePosition.start]

/-- One more character moves the place as a step of a run does. -/
theorem placeAfter_concat (h : t.classify c = some type) (cs : List Char) :
    t.placeAfter (cs ++ [c]) = t.advance (t.placeAfter cs) type := by
  have hbreaks : t.breaksLine c = decide (t.newlineType = some type) := by
    rw [breaksLine, h, Option.any_some]
  by_cases hn : t.newlineType = some type
  · have hc : t.breaksLine c = true := by rw [hbreaks, decide_eq_true hn]
    rw [advance, if_pos hn]
    simp [placeAfter, SourcePosition.nextLine, List.countP_append, hc, Nat.add_assoc]
  · have hc : t.breaksLine c = false := by rw [hbreaks, decide_eq_false hn]
    rw [advance, if_neg hn]
    simp [placeAfter, SourcePosition.nextColumn, List.countP_append, hc]

/-- What follows the last line end is what the column counts. -/
theorem rtakeWhile_of_last {p : Char → Bool} {before after : List Char} (hc : p c = false)
    (hafter : ∀ d ∈ after, p d = true) : (before ++ c :: after).rtakeWhile p = after := by
  rw [List.rtakeWhile, List.reverse_append, List.reverse_cons, List.append_assoc,
    List.takeWhile_append_of_pos fun d hd => hafter d (List.mem_reverse.mp hd)]
  simp [hc]

theorem leadTo_placeAfter (t : Tokenizer) (cs : List Char) :
    t.LeadTo cs (t.placeAfter cs).line (t.placeAfter cs).column := by
  refine ⟨by simp [placeAfter], fun hall => ?_, fun before c after hcs hc hafter => ?_⟩
  · have hself : cs.rtakeWhile (fun c => !t.breaksLine c) = cs := by
      rw [List.rtakeWhile_eq_self_iff]
      intro c hmem
      simp [hall c hmem]
    simp [placeAfter, hself]
  · have hlast : cs.rtakeWhile (fun c => !t.breaksLine c) = after := by
      rw [hcs]
      exact rtakeWhile_of_last (by simp [hc]) fun d hd => by simp [hafter d hd]
    have hlength : cs.length = before.length + (after.length + 1) := by simp [hcs]
    simp only [placeAfter, hlast]
    omega

/-! ### What a run has read -/

/-- What a run has to show for the characters that it has read: a token for each, of the type that
the tokenizer gives it, at the place that the characters before lead to. -/
structure Progress.Reads (t : Tokenizer) (cs : List Char) (s : Progress) : Prop where
  size_eq : s.tokens.size = cs.length
  token_eq : ∀ (k : Nat) (c : Char), cs[k]? = some c → ∃ type, t.classify c = some type ∧
    s.tokens[k]? = some ⟨type, String.singleton c, t.placeAfter (cs.take k)⟩
  position_eq : s.position = t.placeAfter cs

theorem Progress.reads_nil (t : Tokenizer) : Progress.Reads t [] {} :=
  ⟨rfl, nofun, (placeAfter_nil t).symm⟩

/-- A step reads one more character. -/
theorem Progress.Reads.step {s s' : Progress} (hs : s.Reads t cs) (h : t.step s c = .ok s') :
    s'.Reads t (cs ++ [c]) := by
  unfold Tokenizer.step at h
  split at h
  · cases h
  next type htype =>
    cases h
    refine ⟨by simp [hs.size_eq], fun k d hd => ?_, ?_⟩
    · rcases Nat.lt_trichotomy k cs.length with hlt | heq | hgt
      · rw [List.getElem?_append_left hlt] at hd
        obtain ⟨type', hclass, htoken⟩ := hs.token_eq k d hd
        have hne : k ≠ s.tokens.size := by
          rw [hs.size_eq]
          exact Nat.ne_of_lt hlt
        refine ⟨type', hclass, ?_⟩
        rw [Array.getElem?_push, if_neg hne, htoken,
          List.take_append_of_le_length (Nat.le_of_lt hlt)]
      · rw [heq, List.getElem?_concat_length] at hd
        cases hd
        refine ⟨type, htype, ?_⟩
        rw [heq, List.take_left, ← hs.position_eq, ← hs.size_eq, Array.getElem?_push_size]
      · have hnone : (cs ++ [c])[k]? = none := by
          rw [List.getElem?_eq_none_iff, List.length_append, List.length_singleton]
          exact hgt
        rw [hnone] at hd
        cases hd
    · rw [placeAfter_concat htype, ← hs.position_eq]

/-- A run reads all its characters. -/
theorem Progress.Reads.run {s s' : Progress} (hs : s.Reads t cs)
    (h : ds.foldlM t.step s = .ok s') : s'.Reads t (cs ++ ds) := by
  induction ds generalizing cs s with
  | nil =>
      cases h
      rwa [List.append_nil]
  | cons d ds ih =>
      rw [List.foldlM_cons] at h
      rcases hstep : t.step s d with e | s₁
      · rw [hstep] at h
        cases h
      · rw [hstep] at h
        have hrest := ih (hs.step hstep) h
        rwa [List.append_assoc] at hrest

/-- **The tokens of a text stand where its characters stand.** -/
theorem reads_of_tokenize {text : String} {tokens : Array Token}
    (h : t.tokenize text = .ok tokens) :
    Progress.Reads t text.toList ⟨tokens, t.placeAfter text.toList⟩ := by
  unfold tokenize at h
  rcases hrun : text.toList.foldlM t.step {} with e | s
  · rw [hrun] at h
    cases h
  · rw [hrun] at h
    cases h
    have hs := (Progress.reads_nil t).run hrun
    rw [List.nil_append] at hs
    exact ⟨hs.size_eq, hs.token_eq, rfl⟩

end Descent.Tokenizer
