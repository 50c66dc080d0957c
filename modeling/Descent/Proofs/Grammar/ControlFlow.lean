import Descent.Proofs.Grammar.Errors
import Descent.Proofs.Grammar.Refinement
import Mathlib.Data.List.Forall2

/-!
# Two runs that take the same course

What a grammar does next depends on the types of the tokens and on nothing else. To say so, two runs
are compared. Their tokens agree in their types only, and their grammars in all but the functions on
values (`Alike`); these may be any that return.

The runs then take the same course (`SameCourse`): one matches where the other matches, and fails
where the other fails, with the same message and the same code at the same index. The induction is
on the derivation of one of the runs, which is redone rule by rule for the other. Since the relation
is symmetric, neither run can end without the other.
-/

namespace Descent.Grammar

/-! ### Grammars that differ in their functions only -/

/-- The function raises no error. -/
def Returns {α : Type} (f : α → Except Error Value) : Prop := ∀ a, ∃ b, f a = .ok b

mutual

/-- Two grammars are the same but for their functions, which all return. -/
inductive Alike : Grammar Empty → Grammar Empty → Prop
  | oneOf (type types) : Alike (.oneOf type types) (.oneOf type types)
  | noneOf (type types) : Alike (.noneOf type types) (.noneOf type types)
  | endOfInput : Alike .endOfInput .endOfInput
  | sequence {parts parts'} : AlikeAll parts parts' → Alike (.sequence parts) (.sequence parts')
  | choice {first first' others others'} : Alike first first' → AlikeAll others others' →
      Alike (.choice first others) (.choice first' others')
  | many1 {inner inner'} : Alike inner inner' → Alike (.many1 inner) (.many1 inner')
  | optional {inner inner'} (backtrack) : Alike inner inner' →
      Alike (.optional inner backtrack) (.optional inner' backtrack)
  | attempt {inner inner'} : Alike inner inner' → Alike (.attempt inner) (.attempt inner')
  | label {inner inner'} (text) : Alike inner inner' →
      Alike (.label text inner) (.label text inner')
  | map {f f' inner inner'} : Returns f → Returns f' → Alike inner inner' →
      Alike (.map f inner) (.map f' inner')
  | combine {f f' parts parts'} : Returns f → Returns f' → AlikeAll parts parts' →
      Alike (.combine f parts) (.combine f' parts')
  | ref (name) : Alike (.ref name) (.ref name)

/-- Two lists of grammars are the same but for functions. -/
inductive AlikeAll : List (Grammar Empty) → List (Grammar Empty) → Prop
  | nil : AlikeAll [] []
  | cons {g g' gs gs'} : Alike g g' → AlikeAll gs gs' → AlikeAll (g :: gs) (g' :: gs')

end

/-- Two systems define the same names, in the same order, by grammars that are alike. -/
def AlikeDefinitions (defs defs' : Definitions Empty) : Prop :=
  List.Forall₂ (fun d d' => d.1 = d'.1 ∧ Alike d.2 d'.2) defs defs'

variable {defs defs' : Definitions Empty} {T T' : Array Token} {g g' h k : Grammar Empty}
  {gs gs' : List (Grammar Empty)} {i j : Nat} {v v' : Verdict Value} {name : String}

mutual

theorem Alike.symm : ∀ {g g'}, Alike g g' → Alike g' g
  | _, _, .oneOf type types => .oneOf type types
  | _, _, .noneOf type types => .noneOf type types
  | _, _, .endOfInput => .endOfInput
  | _, _, .sequence hgs => .sequence hgs.symm
  | _, _, .choice hg hgs => .choice hg.symm hgs.symm
  | _, _, .many1 hg => .many1 hg.symm
  | _, _, .optional backtrack hg => .optional backtrack hg.symm
  | _, _, .attempt hg => .attempt hg.symm
  | _, _, .label text hg => .label text hg.symm
  | _, _, .map hf hf' hg => .map hf' hf hg.symm
  | _, _, .combine hf hf' hgs => .combine hf' hf hgs.symm
  | _, _, .ref name => .ref name

theorem AlikeAll.symm : ∀ {gs gs'}, AlikeAll gs gs' → AlikeAll gs' gs
  | _, _, .nil => .nil
  | _, _, .cons hg hgs => .cons hg.symm hgs.symm

end

theorem Alike.of_sequence_cons (hk : Alike (.sequence (g :: gs)) k) :
    ∃ g' gs', k = .sequence (g' :: gs') ∧ Alike g g' ∧ Alike (.sequence gs) (.sequence gs') := by
  cases hk with
  | sequence hgs =>
      cases hgs with
      | cons hg hgs => exact ⟨_, _, rfl, hg, .sequence hgs⟩

theorem Alike.of_choice_cons (hk : Alike (.choice g (h :: gs)) k) :
    ∃ g' h' gs', k = .choice g' (h' :: gs') ∧ Alike g g' ∧
      Alike (.choice h gs) (.choice h' gs') := by
  cases hk with
  | choice hg hgs =>
      cases hgs with
      | cons hh hgs => exact ⟨_, _, _, rfl, hg, .choice hh hgs⟩

theorem AlikeAll.of_mem (hgs : AlikeAll gs gs') (hg : g ∈ gs) : ∃ g', Alike g g' := by
  induction gs generalizing gs' with
  | nil => cases hg
  | cons h gs ih =>
      cases hgs with
      | cons hh hgs =>
          rcases List.mem_cons.mp hg with rfl | hg
          · exact ⟨_, hh⟩
          · exact ih hgs hg

namespace AlikeDefinitions

theorem symm (hdefs : AlikeDefinitions defs defs') : AlikeDefinitions defs' defs := by
  apply List.Forall₂.flip
  apply hdefs.imp
  intro d d' hd
  exact ⟨hd.1.symm, hd.2.symm⟩

/-- A name has alike definitions in both systems, or no definition in either. -/
theorem find? (hdefs : AlikeDefinitions defs defs') (name : String) :
    (defs.find? name = none ∧ defs'.find? name = none) ∨
    ∃ g g', defs.find? name = some g ∧ defs'.find? name = some g' ∧ Alike g g' :=
  find?_of_forall₂ hdefs name

end AlikeDefinitions

/-- Whatever occurs in one grammar has its like in the other. -/
theorem Alike.of_occurs (hdefs : AlikeDefinitions defs defs') (hg : Alike g g')
    (hh : Occurs defs h g) : ∃ h', Alike h h' := by
  induction hh with
  | refl => exact ⟨g', hg⟩
  | tail _ hp ih =>
      obtain ⟨k', hk⟩ := ih
      cases hp with
      | sequence hm =>
          cases hk with
          | sequence hgs => exact hgs.of_mem hm
      | combine hm =>
          cases hk with
          | combine _ _ hgs => exact hgs.of_mem hm
      | choice hm =>
          cases hk with
          | choice hfirst hothers => exact (AlikeAll.cons hfirst hothers).of_mem hm
      | many1 | optional | attempt | label | map =>
          cases hk
          exact ⟨_, ‹_›⟩
      | @ref name h hd =>
          rcases hdefs.find? name with ⟨hnone, -⟩ | ⟨_, h', hd', -, hh⟩
          · rw [hnone] at hd
            cases hd
          · rw [hd] at hd'
            cases hd'
            exact ⟨h', hh⟩

/-- In a grammar whose functions return, only a reference without a definition raises an error. -/
theorem Alike.undefined_of_hasRaiser (hdefs : AlikeDefinitions defs defs') (hg : Alike g g')
    {e : Error} (he : HasRaiser defs g e) :
    ∃ name, e = .undefined name ∧ Occurs defs (.ref name) g ∧ defs.find? name = none := by
  obtain ⟨h, hocc, hr⟩ := he
  obtain ⟨h', hh⟩ := hg.of_occurs hdefs hocc
  cases hr with
  | @map f g a _ ha =>
      cases hh with
      | map hf _ _ =>
          obtain ⟨b, hb⟩ := hf a
          rw [hb] at ha
          cases ha
  | @combine f gs as _ has =>
      cases hh with
      | combine hf _ _ =>
          obtain ⟨b, hb⟩ := hf as
          rw [hb] at has
          cases has
  | @undefined name hd => exact ⟨name, rfl, hocc, hd⟩

/-! ### Tokens that agree in their types only -/

/-- Equally many tokens, with the same types one by one. -/
def SameTypes (T T' : Array Token) : Prop := T.map (·.type) = T'.map (·.type)

namespace SameTypes

theorem symm (hT : SameTypes T T') : SameTypes T' T := Eq.symm hT

theorem size_eq (hT : SameTypes T T') : T.size = T'.size := by
  simpa using congrArg Array.size hT

theorem type_eq (hT : SameTypes T T') (i : Nat) : T[i]?.map (·.type) = T'[i]?.map (·.type) := by
  rw [← Array.getElem?_map, ← Array.getElem?_map, hT]

theorem exists_token (hT : SameTypes T T') {t : Token} (ht : T[i]? = some t) :
    ∃ t', T'[i]? = some t' ∧ t'.type = t.type := by
  have htypes := hT.type_eq i
  rw [ht] at htypes
  exact Option.map_eq_some_iff.mp htypes.symm

theorem none (hT : SameTypes T T') (ht : T[i]? = none) : T'[i]? = none := by
  have htypes := hT.type_eq i
  rw [ht] at htypes
  exact Option.map_eq_none_iff.mp htypes.symm

/-- What is said of the token that was found is said of the other. -/
theorem describe (hT : SameTypes T T') (i : Nat) :
    Parser.describe T[i]? = Parser.describe T'[i]? := by
  rcases ht : T[i]? with _ | t
  · rw [hT.none ht]
  · obtain ⟨t', ht', htype⟩ := hT.exists_token ht
    rw [ht']
    exact htype.symm

end SameTypes

/-! ### The same course -/

/-- Two runs match, fail or raise an error together. Their values may differ. Their failures say the
same and are found at the same index, each shown at a place among the tokens of its run. -/
inductive SameCourse (T T' : Array Token) : Verdict Value → Verdict Value → Prop
  | success (a a') : SameCourse T T' (.success a) (.success a')
  | failure (index message code) :
      SameCourse T T' (.failure (failureAt T index message code))
        (.failure (failureAt T' index message code))
  | raised (e) : SameCourse T T' (.raised e) (.raised e)

namespace SameCourse

theorem matched_eq (hv : SameCourse T T' v v') : v'.matched = v.matched := by
  cases hv <;> rfl

theorem labelled (hv : SameCourse T T' v v') (text : String) :
    SameCourse T T' (v.labelled text) (v'.labelled text) := by
  cases hv with
  | success a a' => exact .success a a'
  | failure index message code => exact .failure index (text ++ ": " ++ message) code
  | raised e => exact .raised e

theorem ofExcept {α : Type} {f f' : α → Except Error Value} (hf : Returns f) (hf' : Returns f')
    (a a' : α) : SameCourse T T' (.ofExcept (f a)) (.ofExcept (f' a')) := by
  obtain ⟨b, hb⟩ := hf a
  obtain ⟨b', hb'⟩ := hf' a'
  rw [hb, hb']
  exact .success b b'

end SameCourse

/-- **A run is followed by every run of a grammar that is alike over tokens of the same types.** -/
theorem Runs.alike (hdefs : AlikeDefinitions defs defs') (hT : SameTypes T T')
    (hr : Runs defs T g i v j) (hg : Alike g g') :
    ∃ v', Runs defs' T' g' i v' j ∧ SameCourse T T' v v' := by
  induction hr generalizing g' with
  | oneOf_match ht hm =>
      cases hg
      obtain ⟨t', ht', htype⟩ := hT.exists_token ht
      exact ⟨_, .oneOf_match ht' (htype ▸ hm), .success _ _⟩
  | @oneOf_mismatch type types i hm =>
      cases hg
      rw [hT.describe i]
      refine ⟨_, .oneOf_mismatch fun t' ht' => ?_, .failure i _ _⟩
      obtain ⟨t, ht, htype⟩ := hT.symm.exists_token ht'
      exact htype ▸ hm t ht
  | noneOf_match ht hm =>
      cases hg
      obtain ⟨t', ht', htype⟩ := hT.exists_token ht
      exact ⟨_, .noneOf_match ht' (htype ▸ hm), .success _ _⟩
  | @noneOf_mismatch type types i hm =>
      cases hg
      rw [hT.describe i]
      refine ⟨_, .noneOf_mismatch fun t' ht' => ?_, .failure i _ _⟩
      obtain ⟨t, ht, htype⟩ := hT.symm.exists_token ht'
      exact htype ▸ hm t ht
  | end_reached ht =>
      cases hg
      exact ⟨_, .end_reached (hT.none ht), .success _ _⟩
  | end_marked ht hm =>
      cases hg
      obtain ⟨t', ht', htype⟩ := hT.exists_token ht
      exact ⟨_, .end_marked ht' (htype.trans hm), .success _ _⟩
  | @end_missed i t ht hm =>
      cases hg
      obtain ⟨t', ht', htype⟩ := hT.exists_token ht
      rw [← htype] at hm ⊢
      exact ⟨_, .end_missed ht' hm, .failure i _ _⟩
  | sequence_nil =>
      cases hg with
      | sequence hgs =>
          cases hgs
          exact ⟨_, .sequence_nil, .success _ _⟩
  | sequence_cons _ _ ih ih' =>
      obtain ⟨_, _, rfl, hg, hgs⟩ := hg.of_sequence_cons
      obtain ⟨_, hr, ⟨⟩⟩ := ih hg
      obtain ⟨_, hrs, ⟨⟩⟩ := ih' hgs
      obtain ⟨as', rfl⟩ := hrs.sequence_value
      exact ⟨_, .sequence_cons hr hrs, .success _ _⟩
  | sequence_stop _ hv ih =>
      obtain ⟨_, _, rfl, hg, hgs⟩ := hg.of_sequence_cons
      obtain ⟨v', hr, hsame⟩ := ih hg
      exact ⟨v', .sequence_stop hr (hsame.matched_eq.trans hv), hsame⟩
  | sequence_later _ _ hv ih ih' =>
      obtain ⟨_, _, rfl, hg, hgs⟩ := hg.of_sequence_cons
      obtain ⟨_, hr, ⟨⟩⟩ := ih hg
      obtain ⟨v', hrs, hsame⟩ := ih' hgs
      exact ⟨v', .sequence_later hr hrs (hsame.matched_eq.trans hv), hsame⟩
  | choice_match _ ih =>
      cases hg with
      | choice hg hgs =>
          obtain ⟨_, hr, ⟨⟩⟩ := ih hg
          exact ⟨_, .choice_match hr, .success _ _⟩
  | choice_raised _ ih =>
      cases hg with
      | choice hg hgs =>
          obtain ⟨_, hr, ⟨⟩⟩ := ih hg
          exact ⟨_, .choice_raised hr, .raised _⟩
  | choice_only _ ih =>
      cases hg with
      | choice hg hgs =>
          cases hgs
          obtain ⟨_, hr, ⟨⟩⟩ := ih hg
          exact ⟨_, .choice_only hr, .failure _ _ _⟩
  | choice_next_match _ _ ih ih' =>
      obtain ⟨_, _, _, rfl, hg, hgs⟩ := hg.of_choice_cons
      obtain ⟨_, hr, ⟨⟩⟩ := ih hg
      obtain ⟨_, hrs, ⟨⟩⟩ := ih' hgs
      exact ⟨_, .choice_next_match hr hrs, .success _ _⟩
  | choice_next_raised _ _ ih ih' =>
      obtain ⟨_, _, _, rfl, hg, hgs⟩ := hg.of_choice_cons
      obtain ⟨_, hr, ⟨⟩⟩ := ih hg
      obtain ⟨_, hrs, ⟨⟩⟩ := ih' hgs
      exact ⟨_, .choice_next_raised hr hrs, .raised _⟩
  | choice_first _ _ hle ih ih' =>
      obtain ⟨_, _, _, rfl, hg, hgs⟩ := hg.of_choice_cons
      obtain ⟨_, hr, ⟨⟩⟩ := ih hg
      obtain ⟨_, hrs, ⟨⟩⟩ := ih' hgs
      exact ⟨_, .choice_first hr hrs hle, .failure _ _ _⟩
  | choice_deeper _ _ hlt ih ih' =>
      obtain ⟨_, _, _, rfl, hg, hgs⟩ := hg.of_choice_cons
      obtain ⟨_, hr, ⟨⟩⟩ := ih hg
      obtain ⟨_, hrs, ⟨⟩⟩ := ih' hgs
      exact ⟨_, .choice_deeper hr hrs hlt, .failure _ _ _⟩
  | many1_stop _ hv ih =>
      cases hg with
      | many1 hg =>
          obtain ⟨v', hr, hsame⟩ := ih hg
          exact ⟨v', .many1_stop hr (hsame.matched_eq.trans hv), hsame⟩
  | many1_idle _ hle ih =>
      cases hg with
      | many1 hg =>
          obtain ⟨_, hr, ⟨⟩⟩ := ih hg
          exact ⟨_, .many1_idle hr hle, .success _ _⟩
  | many1_more _ hlt _ ih ih' =>
      cases hg with
      | many1 hg =>
          obtain ⟨_, hr, ⟨⟩⟩ := ih hg
          obtain ⟨_, hrs, ⟨⟩⟩ := ih' (.many1 hg)
          obtain ⟨as', rfl⟩ := hrs.many1_value
          exact ⟨_, .many1_more hr hlt hrs, .success _ _⟩
  | many1_last _ hlt _ ih ih' =>
      cases hg with
      | many1 hg =>
          obtain ⟨_, hr, ⟨⟩⟩ := ih hg
          obtain ⟨_, hrs, ⟨⟩⟩ := ih' (.many1 hg)
          exact ⟨_, .many1_last hr hlt hrs, .success _ _⟩
  | many1_raised _ hlt _ ih ih' =>
      cases hg with
      | many1 hg =>
          obtain ⟨_, hr, ⟨⟩⟩ := ih hg
          obtain ⟨_, hrs, ⟨⟩⟩ := ih' (.many1 hg)
          exact ⟨_, .many1_raised hr hlt hrs, .raised _⟩
  | optional_match _ ih =>
      cases hg with
      | optional backtrack hg =>
          obtain ⟨_, hr, ⟨⟩⟩ := ih hg
          exact ⟨_, .optional_match hr, .success _ _⟩
  | optional_none backtrack _ ih =>
      cases hg with
      | optional _ hg =>
          obtain ⟨_, hr, ⟨⟩⟩ := ih hg
          exact ⟨_, .optional_none backtrack hr, .success _ _⟩
  | optional_raised backtrack _ ih =>
      cases hg with
      | optional _ hg =>
          obtain ⟨_, hr, ⟨⟩⟩ := ih hg
          exact ⟨_, .optional_raised backtrack hr, .raised _⟩
  | attempt_match _ ih =>
      cases hg with
      | attempt hg =>
          obtain ⟨_, hr, ⟨⟩⟩ := ih hg
          exact ⟨_, .attempt_match hr, .success _ _⟩
  | attempt_stop _ hv ih =>
      cases hg with
      | attempt hg =>
          obtain ⟨v', hr, hsame⟩ := ih hg
          exact ⟨v', .attempt_stop hr (hsame.matched_eq.trans hv), hsame⟩
  | label _ ih =>
      cases hg with
      | label _ hg =>
          obtain ⟨v', hr, hsame⟩ := ih hg
          exact ⟨_, .label hr, hsame.labelled _⟩
  | map_match _ ih =>
      cases hg with
      | map hf hf' hg =>
          obtain ⟨_, hr, ⟨⟩⟩ := ih hg
          exact ⟨_, .map_match hr, .ofExcept hf hf' _ _⟩
  | map_stop _ hv ih =>
      cases hg with
      | map hf hf' hg =>
          obtain ⟨v', hr, hsame⟩ := ih hg
          exact ⟨v', .map_stop hr (hsame.matched_eq.trans hv), hsame⟩
  | combine_match _ ih =>
      cases hg with
      | combine hf hf' hgs =>
          obtain ⟨_, hr, ⟨⟩⟩ := ih (.sequence hgs)
          obtain ⟨as', rfl⟩ := hr.sequence_value
          exact ⟨_, .combine_match hr, .ofExcept hf hf' _ _⟩
  | combine_stop _ hv ih =>
      cases hg with
      | combine hf hf' hgs =>
          obtain ⟨v', hr, hsame⟩ := ih (.sequence hgs)
          exact ⟨v', .combine_stop hr (hsame.matched_eq.trans hv), hsame⟩
  | @ref name h i v j hd _ ih =>
      cases hg
      rcases hdefs.find? name with ⟨hnone, -⟩ | ⟨_, h', hd₀, hd', hh⟩
      · rw [hd] at hnone
        cases hnone
      · rw [hd] at hd₀
        cases hd₀
        obtain ⟨v', hr, hsame⟩ := ih hh
        exact ⟨v', .ref hd' hr, hsame⟩
  | @undefined name i hd =>
      cases hg
      rcases hdefs.find? name with ⟨-, hd'⟩ | ⟨_, _, hd₀, -, -⟩
      · exact ⟨_, .undefined hd', .raised _⟩
      · rw [hd] at hd₀
        cases hd₀

/-- The other run ends as well, at the same index and with the stack that it began with. -/
theorem Ends.alike {hand : Empty → Parser Value} {S : List Nat} {d : Cursor}
    (hends : Ends hand defs g ⟨T, i, S⟩ v d) (hdefs : AlikeDefinitions defs defs')
    (hT : SameTypes T T') (hg : Alike g g') (hi : i ≤ T.size) (hand' : Empty → Parser Value)
    (S' : List Nat) :
    ∃ v', Ends hand' defs' g' ⟨T', i, S'⟩ v' ⟨T', d.index, S'⟩ ∧ SameCourse T T' v v' := by
  have hr : Runs defs T g i v d.index := runs_of_ends (c := ⟨T, i, S⟩) hi hends
  obtain ⟨v', hr', hsame⟩ := hr.alike hdefs hT hg
  have hi' : i ≤ T'.size := hT.size_eq ▸ hi
  exact ⟨v', ends_of_runs hr' S' hi', hsame⟩

/-- **Only the types of the tokens decide what a grammar does.** Over two sequences of tokens with
the same types, two grammars that are the same but for their functions, all of which return, end
together or not at all, from every index and over all stacks of stored positions. They end at the
same index, and both match, both fail with the same message and the same code at the same index, or
both raise the error that a reference which occurs in them has no definition. -/
theorem only_types_decide (hand hand' : Empty → Parser Value) {defs defs' : Definitions Empty}
    {g g' : Grammar Empty} {T T' : Array Token} {i : Nat} (S S' : List Nat)
    (hdefs : AlikeDefinitions defs defs') (hg : Alike g g') (hT : SameTypes T T')
    (hi : i ≤ T.size) :
    ((∃ v d, Ends hand defs g ⟨T, i, S⟩ v d) ↔ ∃ v' d', Ends hand' defs' g' ⟨T', i, S'⟩ v' d') ∧
    ∀ v d v' d', Ends hand defs g ⟨T, i, S⟩ v d → Ends hand' defs' g' ⟨T', i, S'⟩ v' d' →
      SameCourse T T' v v' ∧ (∃ j, d = ⟨T, j, S⟩ ∧ d' = ⟨T', j, S'⟩) ∧
      ∀ e, v = .raised e →
        ∃ name, e = .undefined name ∧ Occurs defs (.ref name) g ∧ defs.find? name = none := by
  have hi' : i ≤ T'.size := hT.size_eq ▸ hi
  constructor
  · constructor
    · rintro ⟨v, d, hends⟩
      obtain ⟨v', hends', -⟩ := hends.alike hdefs hT hg hi hand' S'
      exact ⟨v', _, hends'⟩
    · rintro ⟨v', d', hends'⟩
      obtain ⟨v, hends, -⟩ := hends'.alike hdefs.symm hT.symm hg.symm hi' hand S
      exact ⟨v, _, hends⟩
  · intro v d v' d' hends hends'
    obtain ⟨w, hw, hsame⟩ := hends.alike hdefs hT hg hi hand' S'
    obtain ⟨rfl, rfl⟩ := hw.unique hends'
    have hr : Runs defs T g i v d.index := runs_of_ends (c := ⟨T, i, S⟩) hi hends
    refine ⟨hsame, ⟨d.index, ?_, rfl⟩, ?_⟩
    · have hd : Ends hand defs g ⟨T, i, S⟩ v ⟨T, d.index, S⟩ := ends_of_runs hr S hi
      exact (hends.unique hd).2
    · rintro e rfl
      exact hg.undefined_of_hasRaiser hdefs hr.hasRaiser

/-- A repetition over a reference goes on although all values are no value or an empty list, as it
does with the values that the tokens give. Both runs then miss the same token. -/
theorem only_types_decide_no_values :
    let T : Array Token := #[⟨"A", "a", .start⟩, ⟨"A", "", .start⟩]
    let T' : Array Token := #[⟨"A", "0", .start⟩, ⟨"A", "xyz", ⟨3, 7, by decide, by decide⟩⟩]
    let a : Grammar Empty := .oneOf "A" []
    let b : Grammar Empty := .oneOf "B" []
    let defs : Definitions Empty := [("item", .combine (fun _ => .ok (.ofList [])) [a])]
    let defs' : Definitions Empty := [("item", .combine (fun as => .ok (.ofList as)) [a])]
    let g : Grammar Empty := .sequence [.many1 (.map (fun _ => .ok .null) (.ref "item")), b]
    let g' : Grammar Empty := .sequence [.many1 (.map (fun v => .ok v) (.ref "item")), b]
    let message := "Expected token of type B, but got end of input"
    let f : Failure := { message, position := ⟨1, 1, 2⟩ }
    let f' : Failure := { message, position := ⟨3, 7, 2⟩ }
    AlikeDefinitions defs defs' ∧ Alike g g' ∧ SameTypes T T' ∧ 0 ≤ T.size ∧
      Ends nofun defs g ⟨T, 0, []⟩ (.failure f) ⟨T, 2, []⟩ ∧
      Ends nofun defs' g' ⟨T', 0, [1]⟩ (.failure f') ⟨T', 2, [1]⟩ ∧
      SameCourse T T' (.failure f) (.failure f') := by
  intro T T' a b defs defs' g g' message f f'
  have hitem : AlikeAll [a] [a] := .cons (.oneOf "A" []) .nil
  have hdefs : AlikeDefinitions defs defs' :=
    .cons ⟨rfl, .combine (fun _ => ⟨_, rfl⟩) (fun as => ⟨_, rfl⟩) hitem⟩ .nil
  have hrepeated : Alike (.many1 (.map (fun _ => .ok .null) (.ref "item")))
      (.many1 (.map (fun v => .ok v) (.ref "item"))) :=
    .many1 (.map (fun _ => ⟨_, rfl⟩) (fun v => ⟨v, rfl⟩) (.ref "item"))
  have hg : Alike g g' := .sequence (.cons hrepeated (.cons (.oneOf "B" []) .nil))
  have hT : SameTypes T T' := by simp [SameTypes, T, T']
  have hi : 0 ≤ T.size := Nat.zero_le _
  have hends : Ends nofun defs g ⟨T, 0, []⟩ (.failure f) ⟨T, 2, []⟩ := ⟨6, rfl⟩
  have hends' : Ends nofun defs' g' ⟨T', 0, [1]⟩ (.failure f') ⟨T', 2, [1]⟩ := ⟨6, rfl⟩
  have hsame := (only_types_decide nofun nofun [] [1] hdefs hg hT hi).2 _ _ _ _ hends hends'
  exact ⟨hdefs, hg, hT, hi, hends, hends', hsame.1⟩

end Descent.Grammar
