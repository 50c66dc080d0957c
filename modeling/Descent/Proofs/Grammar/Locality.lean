import Descent.Proofs.Grammar.Provenance
import Descent.Proofs.Grammar.Refinement

/-!
# Consumed tokens do not count

A grammar looks at the token under the cursor and at those after it, never at those before. Here two
runs are compared, of one grammar over two sequences of tokens that go on alike from some index each
(`SameRest`). What comes before these two indices may differ in everything, also in how much it is.

The runs then do the same at indices that are always equally far from the two (`Runs.moved`), and so
a run over all tokens is one over those that are left, counted from where it began. Only one thing
that is before the cursor is ever shown: where no token is left, the place of a failure is that of
the last token, and with nothing left from the beginning that token was consumed before.
-/

namespace Descent

/-! ### Tokens that go on alike -/

/-- From index `p` of the one and index `p'` of the other on, the tokens are the same. -/
def SameRest (T : Array Token) (p : Nat) (T' : Array Token) (p' : Nat) : Prop :=
  ∀ i, T[p + i]? = T'[p' + i]?

namespace SameRest

variable {T T' : Array Token} {p p' i : Nat}

theorem symm (hT : SameRest T p T' p') : SameRest T' p' T p := fun i => (hT i).symm

/-- The tokens that are left at an index go on as all tokens do from there. -/
theorem extract (T : Array Token) (p : Nat) : SameRest T p (T.extract p) 0 := by
  intro i
  rw [Array.getElem?_extract, Nat.zero_add]
  split
  · rfl
  · exact Array.getElem?_eq_none (by omega)

theorem size_le (hT : SameRest T p T' p') (hp : p ≤ T.size) : T'.size + p ≤ T.size + p' := by
  have hnone := hT (T.size - p)
  rw [Array.getElem?_eq_none (by omega)] at hnone
  have hsize : T'.size ≤ p' + (T.size - p) := Array.getElem?_eq_none_iff.mp hnone.symm
  omega

/-- Equally many tokens are left. -/
theorem size_eq (hT : SameRest T p T' p') (hp : p ≤ T.size) (hp' : p' ≤ T'.size) :
    T'.size + p = T.size + p' :=
  Nat.le_antisymm (hT.size_le hp) (hT.symm.size_le hp')

end SameRest

namespace Grammar

/-! ### The same verdict, found elsewhere -/

/-- Two runs match with the same value, raise the same error, or fail with the same message and the
same code, equally far from the two indices. -/
inductive Moved (T : Array Token) (p : Nat) (T' : Array Token) (p' : Nat) :
    Verdict Value → Verdict Value → Prop
  | success (a) : Moved T p T' p' (.success a) (.success a)
  | failure (i message code) :
      Moved T p T' p' (.failure (failureAt T (p + i) message code))
        (.failure (failureAt T' (p' + i) message code))
  | raised (e) : Moved T p T' p' (.raised e) (.raised e)

variable {defs : Definitions Empty} {T T' : Array Token} {g : Grammar Empty} {p p' i s e : Nat}
  {v v' : Verdict Value}

namespace Moved

theorem matched_eq (hv : Moved T p T' p' v v') : v'.matched = v.matched := by
  cases hv <;> rfl

theorem labelled (hv : Moved T p T' p' v v') (text : String) :
    Moved T p T' p' (v.labelled text) (v'.labelled text) := by
  cases hv with
  | success a => exact .success a
  | failure i message code => exact .failure i (text ++ ": " ++ message) code
  | raised e => exact .raised e

theorem ofExcept (r : Except Error Value) : Moved T p T' p' (.ofExcept r) (.ofExcept r) := by
  cases r with
  | error e => exact .raised e
  | ok a => exact .success a

end Moved

/-- **A run is followed by a run over all tokens that go on alike**, equally far from where they
begin to. -/
theorem Runs.moved (hT : SameRest T p T' p') (hr : Runs defs T g s v e) (hs : s = p + i) :
    ∃ v' j, e = p + j ∧ Runs defs T' g (p' + i) v' (p' + j) ∧ Moved T p T' p' v v' := by
  induction hr generalizing i with
  | oneOf_match ht hm =>
      subst hs
      rw [hT] at ht
      exact ⟨_, i + 1, rfl, .oneOf_match ht hm, .success _⟩
  | oneOf_mismatch hm =>
      subst hs
      rw [hT] at hm ⊢
      exact ⟨_, i, rfl, .oneOf_mismatch hm, .failure i _ _⟩
  | noneOf_match ht hm =>
      subst hs
      rw [hT] at ht
      exact ⟨_, i + 1, rfl, .noneOf_match ht hm, .success _⟩
  | noneOf_mismatch hm =>
      subst hs
      rw [hT] at hm ⊢
      exact ⟨_, i, rfl, .noneOf_mismatch hm, .failure i _ _⟩
  | end_reached ht =>
      subst hs
      rw [hT] at ht
      exact ⟨_, i, rfl, .end_reached ht, .success _⟩
  | end_marked ht hm =>
      subst hs
      rw [hT] at ht
      exact ⟨_, i + 1, rfl, .end_marked ht hm, .success _⟩
  | end_missed ht hm =>
      subst hs
      rw [hT] at ht
      exact ⟨_, i, rfl, .end_missed ht hm, .failure i _ _⟩
  | sequence_nil => exact ⟨_, i, hs, .sequence_nil, .success _⟩
  | sequence_cons _ _ ih ih' =>
      obtain ⟨_, k, hk, hr, ⟨⟩⟩ := ih hs
      obtain ⟨_, j, hj, hrs, ⟨⟩⟩ := ih' hk
      exact ⟨_, j, hj, .sequence_cons hr hrs, .success _⟩
  | sequence_stop _ hv ih =>
      obtain ⟨v', j, hj, hr, hmoved⟩ := ih hs
      exact ⟨v', j, hj, .sequence_stop hr (hmoved.matched_eq.trans hv), hmoved⟩
  | sequence_later _ _ hv ih ih' =>
      obtain ⟨_, k, hk, hr, ⟨⟩⟩ := ih hs
      obtain ⟨v', j, hj, hrs, hmoved⟩ := ih' hk
      exact ⟨v', j, hj, .sequence_later hr hrs (hmoved.matched_eq.trans hv), hmoved⟩
  | choice_match _ ih =>
      obtain ⟨_, j, hj, hr, ⟨⟩⟩ := ih hs
      exact ⟨_, j, hj, .choice_match hr, .success _⟩
  | choice_raised _ ih =>
      obtain ⟨_, _, _, hr, ⟨⟩⟩ := ih hs
      exact ⟨_, i, hs, .choice_raised hr, .raised _⟩
  | choice_only _ ih =>
      obtain ⟨_, _, _, hr, ⟨⟩⟩ := ih hs
      exact ⟨_, i, hs, .choice_only hr, .failure _ _ _⟩
  | choice_next_match _ _ ih ih' =>
      obtain ⟨_, _, _, hr, ⟨⟩⟩ := ih hs
      obtain ⟨_, j, hj, hrs, ⟨⟩⟩ := ih' hs
      exact ⟨_, j, hj, .choice_next_match hr hrs, .success _⟩
  | choice_next_raised _ _ ih ih' =>
      obtain ⟨_, _, _, hr, ⟨⟩⟩ := ih hs
      obtain ⟨_, _, _, hrs, ⟨⟩⟩ := ih' hs
      exact ⟨_, i, hs, .choice_next_raised hr hrs, .raised _⟩
  -- The deeper of two failures stays the deeper one when both are moved equally far.
  | choice_first _ _ hle ih ih' =>
      obtain ⟨_, _, _, hr, ⟨⟩⟩ := ih hs
      obtain ⟨_, _, _, hrs, ⟨⟩⟩ := ih' hs
      have hle' := Nat.add_le_add_left (Nat.le_of_add_le_add_left hle) p'
      exact ⟨_, i, hs, .choice_first hr hrs hle', .failure _ _ _⟩
  | choice_deeper _ _ hlt ih ih' =>
      obtain ⟨_, _, _, hr, ⟨⟩⟩ := ih hs
      obtain ⟨_, _, _, hrs, ⟨⟩⟩ := ih' hs
      have hlt' := Nat.add_lt_add_left (Nat.lt_of_add_lt_add_left hlt) p'
      exact ⟨_, i, hs, .choice_deeper hr hrs hlt', .failure _ _ _⟩
  | many1_stop _ hv ih =>
      obtain ⟨v', _, _, hr, hmoved⟩ := ih hs
      exact ⟨v', i, hs, .many1_stop hr (hmoved.matched_eq.trans hv), hmoved⟩
  | many1_idle _ hle ih =>
      obtain ⟨_, _, _, hr, ⟨⟩⟩ := ih hs
      exact ⟨_, i, hs, .many1_idle hr (by omega), .success _⟩
  | many1_more _ hlt _ ih ih' =>
      obtain ⟨_, k, hk, hr, ⟨⟩⟩ := ih hs
      obtain ⟨_, j, hj, hrs, ⟨⟩⟩ := ih' hk
      exact ⟨_, j, hj, .many1_more hr (by omega) hrs, .success _⟩
  | many1_last _ hlt _ ih ih' =>
      obtain ⟨_, k, hk, hr, ⟨⟩⟩ := ih hs
      obtain ⟨_, _, _, hrs, ⟨⟩⟩ := ih' hk
      exact ⟨_, k, hk, .many1_last hr (by omega) hrs, .success _⟩
  | many1_raised _ hlt _ ih ih' =>
      obtain ⟨_, k, hk, hr, ⟨⟩⟩ := ih hs
      obtain ⟨_, j, hj, hrs, ⟨⟩⟩ := ih' hk
      exact ⟨_, j, hj, .many1_raised hr (by omega) hrs, .raised _⟩
  | optional_match _ ih =>
      obtain ⟨_, j, hj, hr, ⟨⟩⟩ := ih hs
      exact ⟨_, j, hj, .optional_match hr, .success _⟩
  | optional_none backtrack _ ih =>
      obtain ⟨_, j, hj, hr, ⟨⟩⟩ := ih hs
      have hr' := Runs.optional_none backtrack hr
      cases backtrack with
      | true => exact ⟨_, i, hs, hr', .success _⟩
      | false => exact ⟨_, j, hj, hr', .success _⟩
  | optional_raised backtrack _ ih =>
      obtain ⟨_, j, hj, hr, ⟨⟩⟩ := ih hs
      have hr' := Runs.optional_raised backtrack hr
      cases backtrack with
      | true => exact ⟨_, i, hs, hr', .raised _⟩
      | false => exact ⟨_, j, hj, hr', .raised _⟩
  | attempt_match _ ih =>
      obtain ⟨_, j, hj, hr, ⟨⟩⟩ := ih hs
      exact ⟨_, j, hj, .attempt_match hr, .success _⟩
  | attempt_stop _ hv ih =>
      obtain ⟨v', _, _, hr, hmoved⟩ := ih hs
      exact ⟨v', i, hs, .attempt_stop hr (hmoved.matched_eq.trans hv), hmoved⟩
  | label _ ih =>
      obtain ⟨v', j, hj, hr, hmoved⟩ := ih hs
      exact ⟨_, j, hj, .label hr, hmoved.labelled _⟩
  | map_match _ ih =>
      obtain ⟨_, j, hj, hr, ⟨⟩⟩ := ih hs
      exact ⟨_, j, hj, .map_match hr, .ofExcept _⟩
  | map_stop _ hv ih =>
      obtain ⟨v', j, hj, hr, hmoved⟩ := ih hs
      exact ⟨v', j, hj, .map_stop hr (hmoved.matched_eq.trans hv), hmoved⟩
  | combine_match _ ih =>
      obtain ⟨_, j, hj, hr, ⟨⟩⟩ := ih hs
      exact ⟨_, j, hj, .combine_match hr, .ofExcept _⟩
  | combine_stop _ hv ih =>
      obtain ⟨v', j, hj, hr, hmoved⟩ := ih hs
      exact ⟨v', j, hj, .combine_stop hr (hmoved.matched_eq.trans hv), hmoved⟩
  | ref hd _ ih =>
      obtain ⟨v', j, hj, hr, hmoved⟩ := ih hs
      exact ⟨v', j, hj, .ref hd hr, hmoved⟩
  | undefined hd => exact ⟨_, i, hs, .undefined hd, .raised _⟩

/-- The other run ends as well, equally far on and with the stack that it began with. -/
theorem Ends.moved {hand : Empty → Parser Value} {S : List Nat} {d : Cursor}
    (hends : Ends hand defs g ⟨T, p, S⟩ v d) (hT : SameRest T p T' p') (hp : p ≤ T.size)
    (hp' : p' ≤ T'.size) (S' : List Nat) :
    ∃ v' j, d = ⟨T, p + j, S⟩ ∧ Ends hand defs g ⟨T', p', S'⟩ v' ⟨T', p' + j, S'⟩ ∧
      Moved T p T' p' v v' := by
  have hr : Runs defs T g p v d.index := runs_of_ends (c := ⟨T, p, S⟩) hp hends
  obtain ⟨v', j, hj, hr', hmoved⟩ := hr.moved hT (i := 0) rfl
  refine ⟨v', j, ?_, ends_of_runs hr' S' hp', hmoved⟩
  rw [← hj]
  exact (hends.unique (ends_of_runs hr S hp)).2

/-! ### Where a failure is shown -/

/-- With a token left at the two indices, every place after them is shown alike. -/
theorem placeAt_moved (hT : SameRest T p T' p') (hp : p < T.size) (hp' : p' ≤ T'.size)
    (hi : p + i ≤ T.size) : placeAt T (p + i) = placeAt T' (p' + i) := by
  have hsize := hT.size_eq (Nat.le_of_lt hp) hp'
  -- The token whose place is shown is one of those that are left.
  let k := min i (T.size - 1 - p)
  have hk : T[p + k]? = some T[p + k] := Array.getElem?_eq_getElem (by omega)
  have hmin : min (p + i) (T.size - 1) = p + k := by omega
  have hmin' : min (p' + i) (T'.size - 1) = p' + k := by omega
  have hplace : placeAt T (p + i) = T[p + k].position := placeAt_nearest hi (by rw [hmin, hk])
  have hplace' : placeAt T' (p' + i) = T[p + k].position :=
    placeAt_nearest (by omega) (by rw [hmin', ← hT, hk])
  rw [hplace, hplace']

/-- Where no token is left, the place of the last one is shown. -/
theorem placeAt_of_consumed (T : Array Token) :
    placeAt T T.size = (T.back?.map (·.position)).getD .start := by
  rw [placeAt, Array.getElem?_eq_none (Nat.le_refl _), Option.none_or]

/-- **Consumed tokens do not count.** Over the tokens from an index on, a grammar does what it does
over all tokens from that index. It ends in the one case exactly if it ends in the other, with the
stack of stored positions as it was and equally far on. Both match with the same value, or both raise
the same error, or both fail with the same message and the same code, equally far on. If a token was
left at the index, both failures are shown at the same place; if none was, the first is shown at the
place of the last token, and the second at the start of the text. -/
theorem consumed_do_not_count (hand : Empty → Parser Value) (defs : Definitions Empty)
    (g : Grammar Empty) {T : Array Token} {p : Nat} (S : List Nat) (hp : p ≤ T.size) :
    ((∃ v d, Ends hand defs g ⟨T, p, S⟩ v d) ↔
      ∃ v' d', Ends hand defs g (.ofTokens (T.extract p)) v' d') ∧
    ∀ v d v' d', Ends hand defs g ⟨T, p, S⟩ v d →
      Ends hand defs g (.ofTokens (T.extract p)) v' d' →
      (d = ⟨T, p + d'.index, S⟩ ∧ d' = ⟨T.extract p, d'.index, []⟩) ∧
      ((∃ a, v = .success a ∧ v' = .success a) ∨ (∃ e, v = .raised e ∧ v' = .raised e) ∨
        ∃ f f', v = .failure f ∧ v' = .failure f' ∧
          f.message = f'.message ∧ f.code = f'.code ∧
          f.position.index = p + f'.position.index ∧
          (p < T.size →
            f.position.line = f'.position.line ∧ f.position.column = f'.position.column) ∧
          (p = T.size → f'.position = ⟨1, 1, 0⟩ ∧
            f.position = .ofSource ((T.back?.map (·.position)).getD .start) p)) := by
  have hT : SameRest T p (T.extract p) 0 := .extract T p
  have hp' : 0 ≤ (T.extract p).size := Nat.zero_le _
  constructor
  · constructor
    · rintro ⟨v, d, hends⟩
      obtain ⟨v', j, -, hends', -⟩ := hends.moved hT hp hp' []
      exact ⟨v', _, hends'⟩
    · rintro ⟨v', d', hends'⟩
      obtain ⟨v, j, -, hends, -⟩ := hends'.moved hT.symm hp' hp S
      exact ⟨v, _, hends⟩
  · intro v d v' d' hends hends'
    have hr : Runs defs T g p v d.index := runs_of_ends (c := ⟨T, p, S⟩) hp hends
    obtain ⟨w, j, rfl, hw, hmoved⟩ := hends.moved hT hp hp' []
    obtain ⟨rfl, rfl⟩ := hw.unique hends'
    refine ⟨⟨by simp, rfl⟩, ?_⟩
    cases hmoved with
    | success a => exact .inl ⟨a, rfl, rfl⟩
    | raised e => exact .inr (.inl ⟨e, rfl, rfl⟩)
    | failure i message code =>
        have hi : p + i ≤ T.size := (hr.failure_position hp).2
        have hindex : p + i = p + (0 + i) := by rw [Nat.zero_add]
        refine .inr (.inr ⟨_, _, rfl, rfl, rfl, rfl, hindex, ?_, ?_⟩)
        · intro hlt
          rw [failureAt, failureAt, placeAt_moved hT hlt hp' hi]
          exact ⟨rfl, rfl⟩
        · rintro rfl
          obtain rfl : i = 0 := by omega
          have hnone : T.extract T.size = #[] := by simp
          rw [hnone]
          exact ⟨rfl, congrArg (ErrorPosition.ofSource · T.size) (placeAt_of_consumed T)⟩

/-- A choice whose failure is found at the end of the tokens. -/
theorem consumed_do_not_count_at_end :
    let a : Token := ⟨"A", "a", ⟨1, 1, by decide, by decide⟩⟩
    let a' : Token := ⟨"A", "a", ⟨2, 1, by decide, by decide⟩⟩
    let T := #[a, a', a']
    let defs : Definitions Empty := [("list", .sequence [.many1 (.oneOf "A" []), .oneOf "B" []])]
    let g : Grammar Empty := .label "list" (.choice (.ref "list") [.oneOf "C" []])
    let message := "list: Expected token of type B, but got end of input"
    let f : Failure := { message, position := ⟨2, 1, 3⟩ }
    let f' : Failure := { message, position := ⟨2, 1, 2⟩ }
    1 ≤ T.size ∧ Ends nofun defs g ⟨T, 1, [0, 2]⟩ (.failure f) ⟨T, 1, [0, 2]⟩ ∧
      Ends nofun defs g (.ofTokens (T.extract 1)) (.failure f') ⟨#[a', a'], 0, []⟩ ∧
      f.message = f'.message ∧ f.position.index = 1 + f'.position.index := by
  intro a a' T defs g message f f'
  have hp : 1 ≤ T.size := by decide
  have hends : Ends nofun defs g ⟨T, 1, [0, 2]⟩ (.failure f) ⟨T, 1, [0, 2]⟩ := ⟨7, rfl⟩
  have hends' : Ends nofun defs g (.ofTokens (T.extract 1)) (.failure f') ⟨#[a', a'], 0, []⟩ :=
    ⟨7, rfl⟩
  rcases ((consumed_do_not_count nofun defs g [0, 2] hp).2 _ _ _ _ hends hends').2 with
    ⟨_, h, -⟩ | ⟨_, h, -⟩ | ⟨_, _, ⟨⟩, ⟨⟩, hmessage, -, hindex, -, -⟩
  · cases h
  · cases h
  · exact ⟨hp, hends, hends', hmessage, hindex⟩

end Grammar

end Descent
