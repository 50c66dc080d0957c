import Descent.Proofs.Grammar.Regrouping
import Descent.Proofs.Grammar.Repetition
import Mathlib.Data.List.Forall2

/-!
# Grammars in the place of others

A grammar is put in the place of another inside a larger one. How much the two must have in common
depends on where that is.

* `Follows g g'` says that `g'` comes to whatever `g` comes to. Only where an error is raised may it
  stand at another index. Every form of grammar keeps this.
* `SameMatches g g'` asks less: the two may part wherever they do not match. The forms that undo what
  did not match need no more (`SameMatches.attempt`, `.choice`, `.many1`), and then they end at the
  same index, whatever the verdict.
* `Runs.redefined` puts new definitions in the place of old ones. The induction is on the run,
  because definitions may refer to each other and to themselves.
-/

namespace Descent.Grammar

variable {defs defs' : Definitions Empty} {T : Array Token} {g g' h h' k : Grammar Empty}
  {gs gs' : List (Grammar Empty)} {i j : Nat} {v : Verdict Value} {e : Error}
  {P Q : Verdict Value → Nat → Prop}

/-! ### Up to the index at which an error is raised -/

/-- This verdict comes at this index by `P`. If it is an error, it may come at any index. -/
def Reaches (P : Verdict Value → Nat → Prop) (v : Verdict Value) (j : Nat) : Prop :=
  ∃ k, P v k ∧ ((∀ e, v ≠ .raised e) → k = j)

namespace Reaches

theorem of (h : P v j) : Reaches P v j := ⟨j, h, fun _ => rfl⟩

theorem of_raised (h : P (.raised e) i) : Reaches P (.raised e) j :=
  ⟨i, h, fun hne => absurd rfl (hne e)⟩

theorem at_index (h : Reaches P v j) (hv : ∀ e, v ≠ .raised e) : P v j := by
  obtain ⟨k, hk, heq⟩ := h
  rwa [heq hv] at hk

theorem somewhere (h : Reaches P v j) : ∃ k, P v k := by
  obtain ⟨k, hk, -⟩ := h
  exact ⟨k, hk⟩

theorem trans (h : Reaches P v j) (hPQ : ∀ k, P v k → Reaches Q v k) : Reaches Q v j := by
  obtain ⟨k, hk, heq⟩ := h
  obtain ⟨l, hl, heq'⟩ := hPQ k hk
  exact ⟨l, hl, fun hv => (heq' hv).trans (heq hv)⟩

theorem imp (h : Reaches P v j) (hPQ : ∀ k, P v k → Q v k) : Reaches Q v j :=
  h.trans fun k hk => .of (hPQ k hk)

end Reaches

/-- Whatever `g` comes to, `g'` comes to, but for the index at which an error is raised. -/
def Follows (defs : Definitions Empty) (T : Array Token) (g g' : Grammar Empty) : Prop :=
  ∀ ⦃i v j⦄, Runs defs T g i v j → Reaches (Runs defs T g' i) v j

/-- Whatever verdict `g` comes to, `g'` comes to, and a match at the same index. -/
def SameMatches (defs : Definitions Empty) (T : Array Token) (g g' : Grammar Empty) : Prop :=
  ∀ ⦃i v j⦄, Runs defs T g i v j → ∃ k, Runs defs T g' i v k ∧ (v.matched → k = j)

namespace Follows

theorem refl (defs : Definitions Empty) (T : Array Token) (g : Grammar Empty) :
    Follows defs T g g := fun _ _ _ hr => .of hr

theorem trans (hgh : Follows defs T g h) (hhk : Follows defs T h k) : Follows defs T g k :=
  fun _ _ _ hr => (hgh hr).trans fun _ hr' => hhk hr'

theorem sameMatches (hg : Follows defs T g g') : SameMatches defs T g g' := by
  intro i v j hr
  obtain ⟨k, hr', heq⟩ := hg hr
  refine ⟨k, hr', fun hv => heq ?_⟩
  rintro e rfl
  cases hv

end Follows

/-! ### Forms that undo -/

/-- A choice of one alternative attempts it. -/
theorem choice_nil (defs : Definitions Empty) (T : Array Token) (g : Grammar Empty) (i : Nat) :
    Runs defs T (.choice g []) i = Runs defs T (.attempt g) i := by
  funext v j
  apply propext
  constructor
  · intro hr
    cases hr with
    | choice_match hr => exact .attempt_match hr
    | choice_raised hr | choice_only hr => exact .attempt_stop hr rfl
  · intro hr
    cases hr with
    | attempt_match hr => exact .choice_match hr
    | attempt_stop hr hv =>
        cases v with
        | success a => cases hv
        | failure f => exact .choice_only hr
        | raised e => exact .choice_raised hr

namespace SameMatches

theorem match_of (hg : SameMatches defs T g g') {a : Value} (hr : Runs defs T g i (.success a) j) :
    Runs defs T g' i (.success a) j := by
  obtain ⟨k, hr', heq⟩ := hg hr
  rwa [heq rfl] at hr'

theorem verdict_of (hg : SameMatches defs T g g') (hr : Runs defs T g i v j) :
    ∃ k, Runs defs T g' i v k := by
  obtain ⟨k, hr', -⟩ := hg hr
  exact ⟨k, hr'⟩

/-- What has the same matches and stops at the same index follows. -/
theorem follows (hg : SameMatches defs T g g')
    (hstop : ∀ ⦃i v j⦄, (∀ e, v ≠ .raised e) → Runs defs T g i v j → Runs defs T g' i v j) :
    Follows defs T g g' := by
  intro i v j hr
  cases v with
  | success a => exact .of (hstop nofun hr)
  | failure f => exact .of (hstop nofun hr)
  | raised e =>
      obtain ⟨k, hr'⟩ := hg.verdict_of hr
      exact .of_raised hr'

theorem attempt (hg : SameMatches defs T g g') (hr : Runs defs T (.attempt g) i v j) :
    Runs defs T (.attempt g') i v j := by
  cases hr with
  | attempt_match hr => exact .attempt_match (hg.match_of hr)
  | attempt_stop hr hv =>
      obtain ⟨k, hr'⟩ := hg.verdict_of hr
      exact .attempt_stop hr' hv

theorem many1 (hg : SameMatches defs T g g') (hr : Runs defs T (.many1 g) i v j) :
    Runs defs T (.many1 g') i v j := by
  induction hr using Runs.many1_induction with
  | stop hr hv =>
      obtain ⟨k, hr'⟩ := hg.verdict_of hr
      exact .many1_stop hr' hv
  | idle hr hle => exact .many1_idle (hg.match_of hr) hle
  | more hr hlt _ ih => exact .many1_more (hg.match_of hr) hlt ih
  | last hr hlt _ ih => exact .many1_last (hg.match_of hr) hlt ih
  | raised hr hlt _ ih => exact .many1_raised (hg.match_of hr) hlt ih

theorem choice (hgs : List.Forall₂ (SameMatches defs T) (g :: gs) (g' :: gs'))
    (hr : Runs defs T (.choice g gs) i v j) : Runs defs T (.choice g' gs') i v j := by
  induction gs generalizing g g' gs' v j with
  | nil =>
      obtain ⟨hg, hgs⟩ := List.forall₂_cons.mp hgs
      cases hgs
      rw [choice_nil] at hr ⊢
      exact hg.attempt hr
  | cons h gs ih =>
      obtain ⟨hg, hgs⟩ := List.forall₂_cons.mp hgs
      obtain ⟨h', gs', hh, hgs', rfl⟩ := List.forall₂_cons_left_iff.mp hgs
      rw [choice_cons, choice_nil] at hr ⊢
      apply hr.mono
      · intro v j hr'
        exact hg.attempt hr'
      · intro v j hrs
        exact ih (.cons hh hgs') hrs

end SameMatches

namespace Follows

theorem attempt (hg : Follows defs T g g') : Follows defs T (.attempt g) (.attempt g') :=
  fun _ _ _ hr => .of (hg.sameMatches.attempt hr)

theorem many1 (hg : Follows defs T g g') : Follows defs T (.many1 g) (.many1 g') :=
  fun _ _ _ hr => .of (hg.sameMatches.many1 hr)

theorem choice (hgs : List.Forall₂ (Follows defs T) (g :: gs) (g' :: gs')) :
    Follows defs T (.choice g gs) (.choice g' gs') := by
  intro i v j hr
  have hmatches : List.Forall₂ (SameMatches defs T) (g :: gs) (g' :: gs') :=
    hgs.imp fun _ _ hg => hg.sameMatches
  exact .of (SameMatches.choice hmatches hr)

/-! ### Forms that pass on -/

theorem sequence_cons (hg : Follows defs T g g')
    (hgs : Follows defs T (.sequence gs) (.sequence gs')) :
    Follows defs T (.sequence (g :: gs)) (.sequence (g' :: gs')) := by
  intro i v j hr
  cases hr with
  | sequence_cons hr hrs =>
      exact .of (.sequence_cons ((hg hr).at_index nofun) ((hgs hrs).at_index nofun))
  | sequence_stop hr hv => exact (hg hr).imp fun k hr' => .sequence_stop hr' hv
  | sequence_later hr hrs hv =>
      exact (hgs hrs).imp fun k hrs' => .sequence_later ((hg hr).at_index nofun) hrs' hv

theorem sequence (hgs : List.Forall₂ (Follows defs T) gs gs') :
    Follows defs T (.sequence gs) (.sequence gs') := by
  induction hgs with
  | nil => exact .refl defs T _
  | cons hg _ ih => exact hg.sequence_cons ih

theorem combine (hgs : Follows defs T (.sequence gs) (.sequence gs'))
    (f : List Value → Except Error Value) : Follows defs T (.combine f gs) (.combine f gs') := by
  intro i v j hr
  cases hr with
  | combine_match hr => exact .of (.combine_match ((hgs hr).at_index nofun))
  | combine_stop hr hv => exact (hgs hr).imp fun k hr' => .combine_stop hr' hv

theorem map (hg : Follows defs T g g') (f : Value → Except Error Value) :
    Follows defs T (.map f g) (.map f g') := by
  intro i v j hr
  cases hr with
  | map_match hr => exact .of (.map_match ((hg hr).at_index nofun))
  | map_stop hr hv => exact (hg hr).imp fun k hr' => .map_stop hr' hv

theorem label (hg : Follows defs T g g') (text : String) :
    Follows defs T (.label text g) (.label text g') := by
  intro i v j hr
  cases hr with
  | @label _ _ _ v _ hr =>
      cases v with
      | success a => exact .of (.label ((hg hr).at_index nofun))
      | failure f => exact .of (.label ((hg hr).at_index nofun))
      | raised e =>
          obtain ⟨k, hr'⟩ := (hg hr).somewhere
          exact .of_raised (.label hr')

theorem optional (hg : Follows defs T g g') (backtrack : Bool) :
    Follows defs T (.optional g backtrack) (.optional g' backtrack) := by
  intro i v j hr
  cases hr with
  | optional_match hr => exact .of (.optional_match ((hg hr).at_index nofun))
  | optional_none _ hr => exact .of (.optional_none backtrack ((hg hr).at_index nofun))
  | optional_raised _ hr =>
      obtain ⟨k, hr'⟩ := (hg hr).somewhere
      exact .of_raised (.optional_raised backtrack hr')

end Follows

/-! ### Other definitions -/

/-- **Definitions may be replaced.** Let the same names be defined, and each new definition follow
the old one by the new definitions. Then whatever a grammar comes to by the old definitions, it comes
to by the new ones. -/
theorem Runs.redefined (hdefs : ∀ name, (defs.find? name = none ∧ defs'.find? name = none) ∨
      ∃ g g', defs.find? name = some g ∧ defs'.find? name = some g' ∧ Follows defs' T g g')
    (hr : Runs defs T g i v j) : Reaches (Runs defs' T g i) v j := by
  induction hr with
  | oneOf_match ht hm => exact .of (.oneOf_match ht hm)
  | oneOf_mismatch hm => exact .of (.oneOf_mismatch hm)
  | noneOf_match ht hm => exact .of (.noneOf_match ht hm)
  | noneOf_mismatch hm => exact .of (.noneOf_mismatch hm)
  | end_reached ht => exact .of (.end_reached ht)
  | end_marked ht hm => exact .of (.end_marked ht hm)
  | end_missed ht hm => exact .of (.end_missed ht hm)
  | sequence_nil => exact .of .sequence_nil
  | sequence_cons _ _ ih ih' => exact .of (.sequence_cons (ih.at_index nofun) (ih'.at_index nofun))
  | sequence_stop _ hv ih => exact ih.imp fun k hr' => .sequence_stop hr' hv
  | sequence_later _ _ hv ih ih' =>
      exact ih'.imp fun k hrs' => .sequence_later (ih.at_index nofun) hrs' hv
  | choice_match _ ih => exact .of (.choice_match (ih.at_index nofun))
  | choice_raised _ ih =>
      obtain ⟨k, hr'⟩ := ih.somewhere
      exact .of (.choice_raised hr')
  | choice_only _ ih => exact .of (.choice_only (ih.at_index nofun))
  | choice_next_match _ _ ih ih' =>
      exact .of (.choice_next_match (ih.at_index nofun) (ih'.at_index nofun))
  | choice_next_raised _ _ ih ih' =>
      obtain ⟨k, hrs'⟩ := ih'.somewhere
      exact .of (.choice_next_raised (ih.at_index nofun) hrs')
  | choice_first _ _ hle ih ih' =>
      exact .of (.choice_first (ih.at_index nofun) (ih'.at_index nofun) hle)
  | choice_deeper _ _ hlt ih ih' =>
      exact .of (.choice_deeper (ih.at_index nofun) (ih'.at_index nofun) hlt)
  | many1_stop _ hv ih =>
      obtain ⟨k, hr'⟩ := ih.somewhere
      exact .of (.many1_stop hr' hv)
  | many1_idle _ hle ih => exact .of (.many1_idle (ih.at_index nofun) hle)
  | many1_more _ hlt _ ih ih' =>
      exact .of (.many1_more (ih.at_index nofun) hlt (ih'.at_index nofun))
  | many1_last _ hlt _ ih ih' =>
      exact .of (.many1_last (ih.at_index nofun) hlt (ih'.at_index nofun))
  | many1_raised _ hlt _ ih ih' =>
      exact ih'.imp fun k hrs' => .many1_raised (ih.at_index nofun) hlt hrs'
  | optional_match _ ih => exact .of (.optional_match (ih.at_index nofun))
  | optional_none backtrack _ ih => exact .of (.optional_none backtrack (ih.at_index nofun))
  | optional_raised backtrack _ ih =>
      obtain ⟨k, hr'⟩ := ih.somewhere
      exact .of_raised (.optional_raised backtrack hr')
  | attempt_match _ ih => exact .of (.attempt_match (ih.at_index nofun))
  | attempt_stop _ hv ih =>
      obtain ⟨k, hr'⟩ := ih.somewhere
      exact .of (.attempt_stop hr' hv)
  | @label text _ _ v _ _ ih =>
      cases v with
      | success a => exact .of (.label (ih.at_index nofun))
      | failure f => exact .of (.label (ih.at_index nofun))
      | raised e =>
          obtain ⟨k, hr'⟩ := ih.somewhere
          exact .of_raised (.label hr')
  | map_match _ ih => exact .of (.map_match (ih.at_index nofun))
  | map_stop _ hv ih => exact ih.imp fun k hr' => .map_stop hr' hv
  | combine_match _ ih => exact .of (.combine_match (ih.at_index nofun))
  | combine_stop _ hv ih => exact ih.imp fun k hr' => .combine_stop hr' hv
  | @ref name g i v j hd _ ih =>
      rcases hdefs name with ⟨hnone, -⟩ | ⟨_, g', hd₀, hd', hg⟩
      · rw [hd] at hnone
        cases hnone
      · cases hd.symm.trans hd₀
        exact (ih.trans fun _ hr' => hg hr').imp fun _ hr' => .ref hd' hr'
  | @undefined name i hd =>
      rcases hdefs name with ⟨-, hd'⟩ | ⟨_, _, hd₀, -, -⟩
      · exact .of (.undefined hd')
      · cases hd.symm.trans hd₀

end Descent.Grammar
