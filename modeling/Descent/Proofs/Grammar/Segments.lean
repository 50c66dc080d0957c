import Descent.Proofs.Grammar.Depth
import Mathlib.Data.List.SplitBy

/-!
# Tokens in segments

`segments` repeats a choice of two repetitions, of tokens with one of some types and of tokens with
none of them. It cuts the tokens that are left into segments. `Segmentation` says what these are: each
is of one kind, and of another kind than its neighbours, so that none could be longer.

* A repetition takes a whole segment (`Picks.many1_segment`). The choice comes to the repetition for the
  kind of the segment (`choice_segment`), and fails at the end of the tokens (`choice_end`).
* `runs_segments` goes through all segments, by induction on the list of them.
* All tokens can be cut into segments (`segmentation_splitBy`), so there is always such a list.
-/

namespace Descent.Grammar

/-! ### Segments -/

/-- Tokens with one of these types, or tokens with none of them, again and again. -/
def segments (type : TokenType) (types : List TokenType) : Grammar Empty :=
  .many1 (.choice (.many1 (.oneOf type types)) [.many1 (.noneOf type types)])

/-- The tokens are cut into segments. No segment is empty, each has only tokens with one of these
types or only tokens with none of them, and neighbours are of different kinds. -/
structure Segmentation (types : List TokenType) (ts : List Token) (parts : List (List Token)) :
    Prop where
  flatten_eq : parts.flatten = ts
  ne_nil : ∀ part ∈ parts, part ≠ []
  uniform : ∀ part ∈ parts, (∀ t ∈ part, t.type ∈ types) ∨ ∀ t ∈ part, t.type ∉ types
  alternate : parts.IsChain fun part next =>
    ∀ t ∈ part, ∀ u ∈ next, t.type ∈ types ↔ u.type ∉ types

/-- A segment as a value: the list of its tokens. -/
def segmentValue (part : List Token) : Value := .ofList (part.map .ofToken)

/-- Whether both tokens have one of these types, or both none of them. -/
def sameKind (types : List TokenType) (t u : Token) : Bool :=
  decide (t.type ∈ types) == decide (u.type ∈ types)

variable {defs : Definitions Empty} {T : Array Token} {p : Grammar Empty} {ok : Token → Prop}
  {type : TokenType} {types : List TokenType} {part rest ts : List Token} {parts : List (List Token)}
  {i : Nat} {t u : Token} {f : Failure}

theorem sameKind_eq_true_iff : sameKind types t u = true ↔ (t.type ∈ types ↔ u.type ∈ types) := by
  simp [sameKind]

/-- Tokens each of which is of the kind of the next are all of one kind. -/
theorem kind_iff_of_isChain (h : part.IsChain fun t u => sameKind types t u = true) :
    ∀ t ∈ part, ∀ u ∈ part, t.type ∈ types ↔ u.type ∈ types := by
  have htrans : IsTrans Token fun t u => t.type ∈ types ↔ u.type ∈ types :=
    ⟨fun _ _ _ htu huv => htu.trans huv⟩
  have hsymm : Std.Symm fun t u : Token => t.type ∈ types ↔ u.type ∈ types :=
    ⟨fun _ _ htu => htu.symm⟩
  have hpairwise : part.Pairwise fun t u => t.type ∈ types ↔ u.type ∈ types :=
    (h.imp fun t u htu => sameKind_eq_true_iff.mp htu).pairwise
  intro t ht u hu
  apply hpairwise.forall_of_forall _ ht hu
  exact fun _ _ => Iff.rfl

/-- **All tokens can be cut into segments.** -/
theorem segmentation_splitBy (types : List TokenType) (ts : List Token) :
    Segmentation types ts (ts.splitBy (sameKind types)) := by
  have hkind : ∀ part ∈ ts.splitBy (sameKind types), ∀ t ∈ part, ∀ u ∈ part,
      t.type ∈ types ↔ u.type ∈ types := by
    intro part hpart
    exact kind_iff_of_isChain (List.isChain_of_mem_splitBy hpart)
  constructor
  case flatten_eq => exact List.flatten_splitBy _ _
  case ne_nil => exact fun part hpart => List.ne_nil_of_mem_splitBy hpart
  case uniform =>
    intro part hpart
    by_cases hin : ∃ t ∈ part, t.type ∈ types
    · obtain ⟨t, ht, htype⟩ := hin
      exact .inl fun u hu => (hkind part hpart t ht u hu).mp htype
    · exact .inr fun t ht htype => hin ⟨t, ht, htype⟩
  case alternate =>
    apply (List.isChain_getLast_head_splitBy _ _).imp_of_mem_imp
    rintro part next hpart hnext ⟨hne, hne', hdiffer⟩ t ht u hu
    -- The last token of a segment and the first of the next differ in kind, and so do all others.
    have hlast := hkind part hpart t ht _ (List.getLast_mem hne)
    have hfirst := hkind next hnext u hu _ (List.head_mem hne')
    have hnot : ¬ sameKind types (part.getLast hne) (next.head hne') = true := by simp [hdiffer]
    rw [sameKind_eq_true_iff] at hnot
    rw [hlast, hfirst]
    tauto

example :
    let a : Token := ⟨"A", "a", .start⟩
    let b : Token := ⟨"B", "b", .start⟩
    let c : Token := ⟨"C", "c", .start⟩
    [a, a, b, c, a].splitBy (sameKind ["A"]) = [[a, a], [b, c], [a]] := by
  decide

namespace Segmentation

theorem tail (h : Segmentation types ts (part :: parts)) :
    Segmentation types parts.flatten parts where
  flatten_eq := rfl
  ne_nil next hnext := h.ne_nil next (List.mem_cons_of_mem part hnext)
  uniform next hnext := h.uniform next (List.mem_cons_of_mem part hnext)
  alternate := h.alternate.tail

/-- Behind a segment stands a token of another kind, or none. -/
theorem differs (h : Segmentation types ts (part :: parts)) :
    ∀ t ∈ part, ∀ u ∈ parts.flatten.head?, t.type ∈ types ↔ u.type ∉ types := by
  intro t ht u hu
  cases parts with
  | nil => simp at hu
  | cons next parts =>
      obtain ⟨v, vs, rfl⟩ := List.exists_cons_of_ne_nil (h.ne_nil next (by simp))
      have halternate := (List.isChain_cons_cons.mp h.alternate).1
      obtain rfl : v = u := by simpa using hu
      exact halternate t ht v List.mem_cons_self

end Segmentation

/-! ### Through one segment -/

/-- The token at an index is the first of those from there on. -/
theorem getElem?_eq_head? (T : Array Token) (i : Nat) : T[i]? = (T.toList.drop i).head? := by
  rw [List.head?_drop, Array.getElem?_toList]

/-- The grammar matches the tokens that are `ok`, one by one, and fails at others and at the end. -/
structure Picks (defs : Definitions Empty) (T : Array Token) (p : Grammar Empty) (ok : Token → Prop) :
    Prop where
  match_of : ∀ {i t}, T[i]? = some t → ok t → Runs defs T p i (.success (.ofToken t)) (i + 1)
  fail_of : ∀ {i}, (∀ t ∈ T[i]?, ¬ ok t) →
    ∃ f, Runs defs T p i (.failure f) i ∧ f.position.index = i

theorem OneToken.picks {accepts : TokenType → Prop} {expectation : String}
    (hp : OneToken defs T p accepts expectation) : Picks defs T p fun t => accepts t.type where
  match_of := hp.match_of
  fail_of hmiss := ⟨_, hp.mismatch_of hmiss, rfl⟩

/-- **A repetition takes a segment as a whole.** -/
theorem Picks.many1_segment (hp : Picks defs T p ok) (hdrop : T.toList.drop i = part ++ rest)
    (hne : part ≠ []) (hok : ∀ t ∈ part, ok t) (hrest : ∀ t ∈ rest.head?, ¬ ok t) :
    Runs defs T (.many1 p) i (.success (segmentValue part)) (i + part.length) := by
  induction part generalizing i with
  | nil => exact absurd rfl hne
  | cons t part ih =>
      have ht : T[i]? = some t := by rw [getElem?_eq_head?, hdrop]; rfl
      have hnext : T.toList.drop (i + 1) = part ++ rest := by
        rw [← List.drop_drop, hdrop]
        rfl
      have hmatch := hp.match_of ht (hok t List.mem_cons_self)
      cases part with
      | nil =>
          obtain ⟨f, hf, -⟩ : ∃ f, Runs defs T p (i + 1) (.failure f) (i + 1) ∧ _ := by
            apply hp.fail_of
            rw [getElem?_eq_head?, hnext]
            exact hrest
          exact .many1_last hmatch (Nat.lt_succ_self i) (.many1_stop hf rfl)
      | cons u part =>
          have hlater := ih hnext nofun fun t ht => hok t (List.mem_cons_of_mem _ ht)
          have hlength : i + 1 + (u :: part).length = i + (t :: u :: part).length := by
            simp only [List.length_cons]
            omega
          rw [hlength] at hlater
          exact .many1_more hmatch (Nat.lt_succ_self i) hlater

/-- The choice takes a segment of either kind. -/
theorem choice_segment (defs : Definitions Empty) (hdrop : T.toList.drop i = part ++ rest)
    (hne : part ≠ [])
    (huniform : (∀ t ∈ part, t.type ∈ type :: types) ∨ ∀ t ∈ part, t.type ∉ type :: types)
    (hrest : ∀ t ∈ part, ∀ u ∈ rest.head?, t.type ∈ type :: types ↔ u.type ∉ type :: types) :
    Runs defs T (.choice (.many1 (.oneOf type types)) [.many1 (.noneOf type types)]) i
      (.success (segmentValue part)) (i + part.length) := by
  obtain ⟨t, ts, rfl⟩ := List.exists_cons_of_ne_nil hne
  have hmem : t ∈ t :: ts := List.mem_cons_self
  rcases huniform with hin | hout
  · apply Runs.choice_match
    apply (oneToken_oneOf defs T type types).picks.many1_segment hdrop hne hin
    intro u hu
    exact (hrest t hmem u hu).mp (hin t hmem)
  · obtain ⟨f, hf, -⟩ : ∃ f, Runs defs T (.oneOf type types) i (.failure f) i ∧ _ := by
      apply (oneToken_oneOf defs T type types).picks.fail_of
      rw [getElem?_eq_head?, hdrop]
      intro u hu
      cases hu
      exact hout t hmem
    apply Runs.choice_next_match (.many1_stop hf rfl)
    apply Runs.choice_match
    apply (oneToken_noneOf defs T type types).picks.many1_segment hdrop hne hout
    intro u hu hnot
    exact hout t hmem ((hrest t hmem u hu).mpr hnot)

/-- At the end both alternatives fail, and equally far: the failure is that of the first. -/
theorem choice_end (hi : T[i]? = none) (hf : Runs defs T (.oneOf type types) i (.failure f) i) :
    Runs defs T (.choice (.many1 (.oneOf type types)) [.many1 (.noneOf type types)]) i
      (.failure f) i := by
  obtain ⟨f', hf', hindex'⟩ : ∃ f', Runs defs T (.noneOf type types) i (.failure f') i ∧ _ := by
    apply (oneToken_noneOf defs T type types).picks.fail_of
    simp [hi]
  have hindex : f.position.index = i := by
    cases hf
    rfl
  apply Runs.choice_first (.many1_stop hf rfl) (.choice_only (.many1_stop hf' rfl))
  omega

/-! ### Through all segments -/

/-- **All segments are gone through**, to the end of the tokens. -/
theorem runs_segments (h : Segmentation (type :: types) (T.toList.drop i) parts) (hne : parts ≠ []) :
    Runs defs T (segments type types) i (.success (.ofList (parts.map segmentValue))) T.size := by
  induction parts generalizing i with
  | nil => exact absurd rfl hne
  | cons part parts ih =>
      have hdrop : T.toList.drop i = part ++ parts.flatten := h.flatten_eq.symm
      have hpart : part ≠ [] := h.ne_nil part List.mem_cons_self
      have hlt : i < i + part.length := Nat.lt_add_of_pos_right (List.length_pos_iff.mpr hpart)
      have hnext : T.toList.drop (i + part.length) = parts.flatten := by
        rw [← List.drop_drop, hdrop, List.drop_left]
      have hmatch := choice_segment defs hdrop hpart (h.uniform part List.mem_cons_self) h.differs
      cases parts with
      | nil =>
          have hend : i + part.length = T.size := by
            have hlength : T.size - i = part.length := by simpa using congrArg List.length hdrop
            have hpos := List.length_pos_iff.mpr hpart
            omega
          have hnone : T[T.size]? = none := by simp
          have hmiss : ∀ t ∈ T[T.size]?, t.type ∉ type :: types := by simp
          obtain ⟨f, hf, -⟩ := (oneToken_oneOf defs T type types).picks.fail_of hmiss
          rw [hend] at hmatch hlt
          exact .many1_last hmatch hlt (.many1_stop (choice_end hnone hf) rfl)
      | cons next parts =>
          have hrest := h.tail
          rw [← hnext] at hrest
          exact .many1_more hmatch hlt (ih hrest nofun)

/-- **Tokens are cut into segments.** From a cursor within its tokens, with any positions stored, let
tokens with one of some types or with none of them be taken, again and again.

If tokens are left, all of them are taken, and the cursor comes to their end. The value is the list of
the segments that they are cut into, each the list of its tokens. If no token is left, the failure is
that of looking for a token with one of the types there, and the cursor is left alone. -/
theorem tokens_in_segments (hand : Empty → Parser Value) (defs : Definitions Empty)
    (type : TokenType) (types : List TokenType) {c : Cursor} (hc : c.index ≤ c.tokens.size) :
    (c.index < c.tokens.size →
      ∃ parts, Segmentation (type :: types) (c.tokens.toList.drop c.index) parts ∧
        parse hand defs (segments type types) c =
          some (.success (.ofList (parts.map segmentValue)), c.moveTo c.tokens.size)) ∧
    (c.index = c.tokens.size →
      ∃ f, parse hand defs (.oneOf type types) c = some (.failure f, c) ∧
        parse hand defs (segments type types) c = some (.failure f, c)) := by
  constructor
  · intro hlt
    have hparts := segmentation_splitBy (type :: types) (c.tokens.toList.drop c.index)
    have hne : (c.tokens.toList.drop c.index).splitBy (sameKind (type :: types)) ≠ [] := by
      simp [hlt]
    refine ⟨_, hparts, parse_of_ends hc ?_⟩
    exact ends_of_runs (runs_segments hparts hne) c.saved hc
  · intro hend
    have hnone : c.tokens[c.index]? = none := by simp [hend]
    obtain ⟨f, hf, -⟩ :=
      (oneToken_oneOf defs c.tokens type types).picks.fail_of (i := c.index) (by simp [hnone])
    refine ⟨f, parse_of_ends hc (ends_of_runs hf c.saved hc), parse_of_ends hc ?_⟩
    exact ends_of_runs (.many1_stop (choice_end hnone hf) rfl) c.saved hc

/-- From the second token on, over two stored positions, and from the end. -/
theorem tokens_in_segments_from_second :
    let a : Token := ⟨"A", "a", .start⟩
    let b : Token := ⟨"B", "b", .start⟩
    let c : Cursor := ⟨#[a, a, b, b, a], 1, [1, 0]⟩
    let one : Grammar Empty := .oneOf "A" []
    c.index ≤ c.tokens.size ∧ c.index < c.tokens.size ∧
      (∃ parts, Segmentation ["A"] [a, b, b, a] parts ∧ parse nofun [] (segments "A" []) c =
        some (.success (.ofList (parts.map segmentValue)), c.moveTo 5)) ∧
      ∃ f, parse nofun [] one (c.moveTo 5) = some (.failure f, c.moveTo 5) ∧
        parse nofun [] (segments "A" []) (c.moveTo 5) = some (.failure f, c.moveTo 5) := by
  intro a b c one
  have hc : c.index ≤ c.tokens.size := by decide
  have hlt : c.index < c.tokens.size := by decide
  have hend : (c.moveTo 5).index = (c.moveTo 5).tokens.size := rfl
  exact ⟨hc, hlt, (tokens_in_segments nofun [] "A" [] hc).1 hlt,
    (tokens_in_segments nofun [] "A" [] (Nat.le_of_eq hend)).2 hend⟩

end Descent.Grammar
