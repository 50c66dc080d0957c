import Descent.Proofs.Grammar.Provenance

/-!
# Labels only name failures

A label stands before the messages of failures, and does nothing else. Here a grammar is compared
with what is left of it without its labels, in the definitions too.

* `Runs.relabelled`: two grammars that are the same without labels run alike. They match with the
  same values, raise the same errors and end at the same index, and their failures differ in the
  message only. One may have labels where the other has none, so that the same statement leads from
  a grammar to what is left of it and back.
* `Reported` follows the failure that a run reports to the primitive that made it, and keeps the
  labels that were being run at that moment. What is left of the grammar ends with the failure as it
  was made (`Reported.runs_unlabelled`), and the grammar itself puts exactly these labels before it
  (`Runs.exists_reported`).
-/

namespace Descent

namespace Grammar

/-! ### Grammars without their labels -/

section Unlabelled

variable {κ : Type}

mutual

/-- What is left of a grammar without its labels. -/
def unlabelled : Grammar κ → Grammar κ
  | oneOf type types => oneOf type types
  | noneOf type types => noneOf type types
  | endOfInput => endOfInput
  | sequence parts => sequence (unlabelledAll parts)
  | choice first others => choice (unlabelled first) (unlabelledAll others)
  | many1 inner => many1 (unlabelled inner)
  | optional inner backtrack => optional (unlabelled inner) backtrack
  | attempt inner => attempt (unlabelled inner)
  | label _ inner => unlabelled inner
  | map f inner => map f (unlabelled inner)
  | combine f parts => combine f (unlabelledAll parts)
  | ref name => ref name
  | custom leaf => custom leaf

/-- What is left of several grammars without their labels. -/
def unlabelledAll : List (Grammar κ) → List (Grammar κ)
  | [] => []
  | g :: gs => unlabelled g :: unlabelledAll gs

end

mutual

/-- Without labels there is nothing more to leave out. -/
theorem unlabelled_unlabelled : ∀ g : Grammar κ, g.unlabelled.unlabelled = g.unlabelled
  | oneOf _ _ | noneOf _ _ | endOfInput | ref _ | custom _ => rfl
  | sequence parts | combine _ parts => by simp [unlabelled, unlabelledAll_unlabelledAll parts]
  | choice first others => by
      simp [unlabelled, unlabelled_unlabelled first, unlabelledAll_unlabelledAll others]
  | many1 inner | optional inner _ | attempt inner | label _ inner | map _ inner => by
      simp [unlabelled, unlabelled_unlabelled inner]

theorem unlabelledAll_unlabelledAll :
    ∀ gs : List (Grammar κ), unlabelledAll (unlabelledAll gs) = unlabelledAll gs
  | [] => rfl
  | g :: gs => by simp [unlabelledAll, unlabelled_unlabelled g, unlabelledAll_unlabelledAll gs]

end

/-- Whether a grammar is a label, with what it stands before. -/
def isLabel : Grammar κ → Bool
  | label _ _ => true
  | _ => false

/-- What holds of grammars that are no labels, and is kept by a label, holds of all. -/
theorem label_induction {P : Grammar κ → Prop} (hlabel : ∀ text g, P g → P (.label text g))
    (hbare : ∀ g, g.isLabel = false → P g) : ∀ g, P g
  | label text g => hlabel text g (label_induction hlabel hbare g)
  | oneOf _ _ | noneOf _ _ | endOfInput | sequence _ | choice _ _ | many1 _ | optional _ _
  | attempt _ | map _ _ | combine _ _ | ref _ | custom _ => hbare _ rfl

/-- Two grammars that are no labels have the same form, and their parts are the same without
labels. -/
inductive SameForm : Grammar κ → Grammar κ → Prop
  | oneOf {type types} : SameForm (.oneOf type types) (.oneOf type types)
  | noneOf {type types} : SameForm (.noneOf type types) (.noneOf type types)
  | endOfInput : SameForm .endOfInput .endOfInput
  | sequence_nil : SameForm (.sequence []) (.sequence [])
  | sequence_cons {g g' gs gs'} : g.unlabelled = g'.unlabelled →
      (sequence gs).unlabelled = (sequence gs').unlabelled →
      SameForm (.sequence (g :: gs)) (.sequence (g' :: gs'))
  | choice_nil {g g'} : g.unlabelled = g'.unlabelled → SameForm (.choice g []) (.choice g' [])
  | choice_cons {g g' h h' gs gs'} : g.unlabelled = g'.unlabelled →
      (choice h gs).unlabelled = (choice h' gs').unlabelled →
      SameForm (.choice g (h :: gs)) (.choice g' (h' :: gs'))
  | many1 {g g'} : g.unlabelled = g'.unlabelled → SameForm (.many1 g) (.many1 g')
  | optional {g g' backtrack} : g.unlabelled = g'.unlabelled →
      SameForm (.optional g backtrack) (.optional g' backtrack)
  | attempt {g g'} : g.unlabelled = g'.unlabelled → SameForm (.attempt g) (.attempt g')
  | map {f g g'} : g.unlabelled = g'.unlabelled → SameForm (.map f g) (.map f g')
  | combine {f gs gs'} : (sequence gs).unlabelled = (sequence gs').unlabelled →
      SameForm (.combine f gs) (.combine f gs')
  | ref {name} : SameForm (.ref name) (.ref name)
  | custom {leaf} : SameForm (.custom leaf) (.custom leaf)

theorem unlabelled_many1_congr {g g' : Grammar κ} (hg : g.unlabelled = g'.unlabelled) :
    (many1 g).unlabelled = (many1 g').unlabelled := congrArg many1 hg

theorem sameForm_of_unlabelled_eq {g h : Grammar κ} (hg : g.isLabel = false)
    (hh : h.isLabel = false) (heq : g.unlabelled = h.unlabelled) : SameForm g h := by
  cases g <;> cases h <;> simp only [isLabel, unlabelled, reduceCtorEq] at hg hh heq
  case oneOf.oneOf => cases heq; exact .oneOf
  case noneOf.noneOf => cases heq; exact .noneOf
  case endOfInput.endOfInput => exact .endOfInput
  case ref.ref => cases heq; exact .ref
  case custom.custom => cases heq; exact .custom
  case many1.many1 => exact .many1 (many1.inj heq)
  case attempt.attempt => exact .attempt (attempt.inj heq)
  case optional.optional =>
    obtain ⟨hinner, rfl⟩ := optional.inj heq
    exact .optional hinner
  case map.map =>
    obtain ⟨rfl, hinner⟩ := map.inj heq
    exact .map hinner
  case combine.combine gs f' gs' =>
    obtain ⟨rfl, hparts⟩ := combine.inj heq
    exact .combine (congrArg sequence hparts)
  case sequence.sequence gs gs' =>
    rcases gs with _ | ⟨g, gs⟩ <;> rcases gs' with _ | ⟨g', gs'⟩ <;>
      simp only [unlabelledAll, sequence.injEq, List.cons.injEq, reduceCtorEq] at heq
    · exact .sequence_nil
    · exact .sequence_cons heq.1 (congrArg sequence heq.2)
  case choice.choice g gs g' gs' =>
    obtain ⟨hfirst, hothers⟩ := choice.inj heq
    rcases gs with _ | ⟨h, gs⟩ <;> rcases gs' with _ | ⟨h', gs'⟩ <;>
      simp only [unlabelledAll, List.cons.injEq, reduceCtorEq] at hothers
    · exact .choice_nil hfirst
    · exact .choice_cons hfirst (congrArg₂ choice hothers.1 hothers.2)

end Unlabelled

end Grammar

namespace Definitions

variable {κ : Type}

/-- The same definitions without their labels. -/
def unlabelled (defs : Definitions κ) : Definitions κ := defs.map fun d => (d.1, d.2.unlabelled)

theorem unlabelled_unlabelled (defs : Definitions κ) :
    defs.unlabelled.unlabelled = defs.unlabelled := by
  simp [unlabelled, Grammar.unlabelled_unlabelled]

theorem find?_unlabelled (defs : Definitions κ) (name : String) :
    defs.unlabelled.find? name = (defs.find? name).map Grammar.unlabelled := by
  induction defs with
  | nil => rfl
  | cons d defs ih =>
      obtain ⟨key, g⟩ := d
      simp only [unlabelled, find?, List.map_cons, List.lookup_cons] at ih ⊢
      cases name == key with
      | true => rfl
      | false => exact ih

end Definitions

namespace Grammar

/-! ### What is compared -/

/-- Two runs match with the same value, raise the same error, or fail at the same place with the same
code. The messages of their failures may differ. -/
inductive SameButMessage : Verdict Value → Verdict Value → Prop
  | success {a} : SameButMessage (.success a) (.success a)
  | failure {f f'} : f.position = f'.position → f.code = f'.code →
      SameButMessage (.failure f) (.failure f')
  | raised {e} : SameButMessage (.raised e) (.raised e)

/-- While the labels `active` are being run, outermost first, the grammar is run at index `i` and
fails. The failure that it reports was made by a primitive, as `f` and while the labels `texts` were
being run. Of a choice that is the failure found deepest, the first of equals; of everything else it
is the failure of the part that failed. -/
inductive Reported (defs : Definitions Empty) (T : Array Token) :
    List String → Grammar Empty → Nat → List String → Failure → Prop
  | primitive {active g i f j} : g.isPrimitive → Runs defs T g i (.failure f) j →
      Reported defs T active g i active f
  | sequence_head {active g gs i texts f} : Reported defs T active g i texts f →
      Reported defs T active (.sequence (g :: gs)) i texts f
  | sequence_tail {active g gs i a k texts f} : Runs defs T g i (.success a) k →
      Reported defs T active (.sequence gs) k texts f →
      Reported defs T active (.sequence (g :: gs)) i texts f
  | choice_only {active g i texts f} : Reported defs T active g i texts f →
      Reported defs T active (.choice g []) i texts f
  | choice_first {active g h gs i texts f texts' f'} : Reported defs T active g i texts f →
      Reported defs T active (.choice h gs) i texts' f' → f'.position.index ≤ f.position.index →
      Reported defs T active (.choice g (h :: gs)) i texts f
  | choice_deeper {active g h gs i texts f texts' f'} : Reported defs T active g i texts f →
      Reported defs T active (.choice h gs) i texts' f' → f.position.index < f'.position.index →
      Reported defs T active (.choice g (h :: gs)) i texts' f'
  | many1 {active g i texts f} : Reported defs T active g i texts f →
      Reported defs T active (.many1 g) i texts f
  | attempt {active g i texts f} : Reported defs T active g i texts f →
      Reported defs T active (.attempt g) i texts f
  | label {active text g i texts f} : Reported defs T (active ++ [text]) g i texts f →
      Reported defs T active (.label text g) i texts f
  | map {active fn g i texts f} : Reported defs T active g i texts f →
      Reported defs T active (.map fn g) i texts f
  | combine {active fn gs i texts f} : Reported defs T active (.sequence gs) i texts f →
      Reported defs T active (.combine fn gs) i texts f
  | ref {active name g i texts f} : defs.find? name = some g → Reported defs T active g i texts f →
      Reported defs T active (.ref name) i texts f

variable {defs defs' : Definitions Empty} {T : Array Token} {g g' : Grammar Empty} {i j : Nat}
  {v v' : Verdict Value} {f f' : Failure} {active texts texts' : List String} {name : String}

/-- A name that is defined in one system is defined in every other that is the same without labels,
by a grammar that is the same without labels. -/
theorem exists_find?_of_unlabelled_eq (hdefs : defs.unlabelled = defs'.unlabelled)
    (hd : defs.find? name = some g) :
    ∃ g', defs'.find? name = some g' ∧ g.unlabelled = g'.unlabelled := by
  have hfind := defs.find?_unlabelled name
  rw [hd, hdefs, defs'.find?_unlabelled] at hfind
  obtain ⟨g', hd', heq⟩ := Option.map_eq_some_iff.mp hfind
  exact ⟨g', hd', heq.symm⟩

theorem find?_eq_none_of_unlabelled_eq (hdefs : defs.unlabelled = defs'.unlabelled)
    (hd : defs.find? name = none) : defs'.find? name = none := by
  have hfind := defs.find?_unlabelled name
  rw [hd, hdefs, defs'.find?_unlabelled] at hfind
  exact Option.map_eq_none_iff.mp hfind

/-! ### Grammars that are the same without labels -/

namespace SameButMessage

theorem refl (v : Verdict Value) : SameButMessage v v := by
  cases v with
  | success a => exact .success
  | failure f => exact .failure rfl rfl
  | raised e => exact .raised

theorem matched_eq (hv : SameButMessage v v') : v'.matched = v.matched := by
  cases hv <;> rfl

theorem of_failure (hv : SameButMessage (.failure f) v') :
    ∃ f', v' = .failure f' ∧ f.position = f'.position ∧ f.code = f'.code := by
  cases hv with
  | failure hposition hcode => exact ⟨_, rfl, hposition, hcode⟩

theorem labelled_left (hv : SameButMessage v v') (text : String) :
    SameButMessage (v.labelled text) v' := by
  cases hv with
  | success => exact .success
  | failure hposition hcode => exact .failure hposition hcode
  | raised => exact .raised

theorem labelled_right (hv : SameButMessage v v') (text : String) :
    SameButMessage v (v'.labelled text) := by
  cases hv with
  | success => exact .success
  | failure hposition hcode => exact .failure hposition hcode
  | raised => exact .raised

end SameButMessage

/-- To run what is the same as `g` without labels, it is enough to run what has the form of `g`. -/
theorem exists_runs_of_sameForm (hg : g.isLabel = false)
    (hform : ∀ k, SameForm g k → ∃ v', Runs defs' T k i v' j ∧ SameButMessage v v')
    (heq : g.unlabelled = g'.unlabelled) :
    ∃ v', Runs defs' T g' i v' j ∧ SameButMessage v v' := by
  induction g' using label_induction with
  | hlabel text g' ih =>
      obtain ⟨v', hr, hsame⟩ := ih heq
      exact ⟨_, .label hr, hsame.labelled_right text⟩
  | hbare g' hg' => exact hform g' (sameForm_of_unlabelled_eq hg hg' heq)

/-- **Two grammars that are the same without labels run alike**, up to the messages of failures. -/
theorem Runs.relabelled (hdefs : defs.unlabelled = defs'.unlabelled) (hr : Runs defs T g i v j)
    (heq : g.unlabelled = g'.unlabelled) :
    ∃ v', Runs defs' T g' i v' j ∧ SameButMessage v v' := by
  induction hr generalizing g' with
  | label _ ih =>
      obtain ⟨v', hr, hsame⟩ := ih heq
      exact ⟨v', hr, hsame.labelled_left _⟩
  | oneOf_match ht hm =>
      refine exists_runs_of_sameForm rfl (fun k hk => ?_) heq
      cases hk
      exact ⟨_, .oneOf_match ht hm, .refl _⟩
  | oneOf_mismatch hm =>
      refine exists_runs_of_sameForm rfl (fun k hk => ?_) heq
      cases hk
      exact ⟨_, .oneOf_mismatch hm, .refl _⟩
  | noneOf_match ht hm =>
      refine exists_runs_of_sameForm rfl (fun k hk => ?_) heq
      cases hk
      exact ⟨_, .noneOf_match ht hm, .refl _⟩
  | noneOf_mismatch hm =>
      refine exists_runs_of_sameForm rfl (fun k hk => ?_) heq
      cases hk
      exact ⟨_, .noneOf_mismatch hm, .refl _⟩
  | end_reached ht =>
      refine exists_runs_of_sameForm rfl (fun k hk => ?_) heq
      cases hk
      exact ⟨_, .end_reached ht, .refl _⟩
  | end_marked ht hm =>
      refine exists_runs_of_sameForm rfl (fun k hk => ?_) heq
      cases hk
      exact ⟨_, .end_marked ht hm, .refl _⟩
  | end_missed ht hm =>
      refine exists_runs_of_sameForm rfl (fun k hk => ?_) heq
      cases hk
      exact ⟨_, .end_missed ht hm, .refl _⟩
  | sequence_nil =>
      refine exists_runs_of_sameForm rfl (fun k hk => ?_) heq
      cases hk
      exact ⟨_, .sequence_nil, .refl _⟩
  | sequence_cons _ _ ih ih' =>
      refine exists_runs_of_sameForm rfl (fun k hk => ?_) heq
      cases hk with
      | sequence_cons hg hgs =>
          obtain ⟨_, hr, ⟨⟩⟩ := ih hg
          obtain ⟨_, hrs, ⟨⟩⟩ := ih' hgs
          exact ⟨_, .sequence_cons hr hrs, .refl _⟩
  | sequence_stop _ hv ih =>
      refine exists_runs_of_sameForm rfl (fun k hk => ?_) heq
      cases hk with
      | sequence_cons hg hgs =>
          obtain ⟨v', hr, hsame⟩ := ih hg
          exact ⟨v', .sequence_stop hr (hsame.matched_eq.trans hv), hsame⟩
  | sequence_later _ _ hv ih ih' =>
      refine exists_runs_of_sameForm rfl (fun k hk => ?_) heq
      cases hk with
      | sequence_cons hg hgs =>
          obtain ⟨_, hr, ⟨⟩⟩ := ih hg
          obtain ⟨v', hrs, hsame⟩ := ih' hgs
          exact ⟨v', .sequence_later hr hrs (hsame.matched_eq.trans hv), hsame⟩
  | choice_match _ ih =>
      refine exists_runs_of_sameForm rfl (fun k hk => ?_) heq
      cases hk with
      | choice_nil hg | choice_cons hg _ =>
          obtain ⟨_, hr, ⟨⟩⟩ := ih hg
          exact ⟨_, .choice_match hr, .refl _⟩
  | choice_raised _ ih =>
      refine exists_runs_of_sameForm rfl (fun k hk => ?_) heq
      cases hk with
      | choice_nil hg | choice_cons hg _ =>
          obtain ⟨_, hr, ⟨⟩⟩ := ih hg
          exact ⟨_, .choice_raised hr, .refl _⟩
  | choice_only _ ih =>
      refine exists_runs_of_sameForm rfl (fun k hk => ?_) heq
      cases hk with
      | choice_nil hg =>
          obtain ⟨_, hr, hsame⟩ := ih hg
          obtain ⟨f', rfl, -⟩ := hsame.of_failure
          exact ⟨_, .choice_only hr, hsame⟩
  | choice_next_match _ _ ih ih' =>
      refine exists_runs_of_sameForm rfl (fun k hk => ?_) heq
      cases hk with
      | choice_cons hg hgs =>
          obtain ⟨_, hr, ⟨⟩⟩ := ih hg
          obtain ⟨_, hrs, ⟨⟩⟩ := ih' hgs
          exact ⟨_, .choice_next_match hr hrs, .refl _⟩
  | choice_next_raised _ _ ih ih' =>
      refine exists_runs_of_sameForm rfl (fun k hk => ?_) heq
      cases hk with
      | choice_cons hg hgs =>
          obtain ⟨_, hr, ⟨⟩⟩ := ih hg
          obtain ⟨_, hrs, ⟨⟩⟩ := ih' hgs
          exact ⟨_, .choice_next_raised hr hrs, .refl _⟩
  | choice_first _ _ hle ih ih' =>
      refine exists_runs_of_sameForm rfl (fun k hk => ?_) heq
      cases hk with
      | choice_cons hg hgs =>
          obtain ⟨_, hr, hsame⟩ := ih hg
          obtain ⟨_, hrs, hsame'⟩ := ih' hgs
          obtain ⟨f, rfl, hposition, -⟩ := hsame.of_failure
          obtain ⟨f', rfl, hposition', -⟩ := hsame'.of_failure
          rw [hposition, hposition'] at hle
          exact ⟨_, .choice_first hr hrs hle, hsame⟩
  | choice_deeper _ _ hlt ih ih' =>
      refine exists_runs_of_sameForm rfl (fun k hk => ?_) heq
      cases hk with
      | choice_cons hg hgs =>
          obtain ⟨_, hr, hsame⟩ := ih hg
          obtain ⟨_, hrs, hsame'⟩ := ih' hgs
          obtain ⟨f, rfl, hposition, -⟩ := hsame.of_failure
          obtain ⟨f', rfl, hposition', -⟩ := hsame'.of_failure
          rw [hposition, hposition'] at hlt
          exact ⟨_, .choice_deeper hr hrs hlt, hsame'⟩
  | many1_stop _ hv ih =>
      refine exists_runs_of_sameForm rfl (fun k hk => ?_) heq
      cases hk with
      | many1 hg =>
          obtain ⟨v', hr, hsame⟩ := ih hg
          exact ⟨v', .many1_stop hr (hsame.matched_eq.trans hv), hsame⟩
  | many1_idle _ hle ih =>
      refine exists_runs_of_sameForm rfl (fun k hk => ?_) heq
      cases hk with
      | many1 hg =>
          obtain ⟨_, hr, ⟨⟩⟩ := ih hg
          exact ⟨_, .many1_idle hr hle, .refl _⟩
  | many1_more _ hlt _ ih ih' =>
      refine exists_runs_of_sameForm rfl (fun k hk => ?_) heq
      cases hk with
      | many1 hg =>
          obtain ⟨_, hr, ⟨⟩⟩ := ih hg
          obtain ⟨_, hrs, ⟨⟩⟩ := ih' (unlabelled_many1_congr hg)
          exact ⟨_, .many1_more hr hlt hrs, .refl _⟩
  | many1_last _ hlt _ ih ih' =>
      refine exists_runs_of_sameForm rfl (fun k hk => ?_) heq
      cases hk with
      | many1 hg =>
          obtain ⟨_, hr, ⟨⟩⟩ := ih hg
          obtain ⟨_, hrs, ⟨⟩⟩ := ih' (unlabelled_many1_congr hg)
          exact ⟨_, .many1_last hr hlt hrs, .refl _⟩
  | many1_raised _ hlt _ ih ih' =>
      refine exists_runs_of_sameForm rfl (fun k hk => ?_) heq
      cases hk with
      | many1 hg =>
          obtain ⟨_, hr, ⟨⟩⟩ := ih hg
          obtain ⟨_, hrs, ⟨⟩⟩ := ih' (unlabelled_many1_congr hg)
          exact ⟨_, .many1_raised hr hlt hrs, .refl _⟩
  | optional_match _ ih =>
      refine exists_runs_of_sameForm rfl (fun k hk => ?_) heq
      cases hk with
      | optional hg =>
          obtain ⟨_, hr, ⟨⟩⟩ := ih hg
          exact ⟨_, .optional_match hr, .refl _⟩
  | optional_none backtrack _ ih =>
      refine exists_runs_of_sameForm rfl (fun k hk => ?_) heq
      cases hk with
      | optional hg =>
          obtain ⟨_, hr, ⟨⟩⟩ := ih hg
          exact ⟨_, .optional_none backtrack hr, .refl _⟩
  | optional_raised backtrack _ ih =>
      refine exists_runs_of_sameForm rfl (fun k hk => ?_) heq
      cases hk with
      | optional hg =>
          obtain ⟨_, hr, ⟨⟩⟩ := ih hg
          exact ⟨_, .optional_raised backtrack hr, .refl _⟩
  | attempt_match _ ih =>
      refine exists_runs_of_sameForm rfl (fun k hk => ?_) heq
      cases hk with
      | attempt hg =>
          obtain ⟨_, hr, ⟨⟩⟩ := ih hg
          exact ⟨_, .attempt_match hr, .refl _⟩
  | attempt_stop _ hv ih =>
      refine exists_runs_of_sameForm rfl (fun k hk => ?_) heq
      cases hk with
      | attempt hg =>
          obtain ⟨v', hr, hsame⟩ := ih hg
          exact ⟨v', .attempt_stop hr (hsame.matched_eq.trans hv), hsame⟩
  | map_match _ ih =>
      refine exists_runs_of_sameForm rfl (fun k hk => ?_) heq
      cases hk with
      | map hg =>
          obtain ⟨_, hr, ⟨⟩⟩ := ih hg
          exact ⟨_, .map_match hr, .refl _⟩
  | map_stop _ hv ih =>
      refine exists_runs_of_sameForm rfl (fun k hk => ?_) heq
      cases hk with
      | map hg =>
          obtain ⟨v', hr, hsame⟩ := ih hg
          exact ⟨v', .map_stop hr (hsame.matched_eq.trans hv), hsame⟩
  | combine_match _ ih =>
      refine exists_runs_of_sameForm rfl (fun k hk => ?_) heq
      cases hk with
      | combine hgs =>
          obtain ⟨_, hr, ⟨⟩⟩ := ih hgs
          exact ⟨_, .combine_match hr, .refl _⟩
  | combine_stop _ hv ih =>
      refine exists_runs_of_sameForm rfl (fun k hk => ?_) heq
      cases hk with
      | combine hgs =>
          obtain ⟨v', hr, hsame⟩ := ih hgs
          exact ⟨v', .combine_stop hr (hsame.matched_eq.trans hv), hsame⟩
  | ref hd _ ih =>
      refine exists_runs_of_sameForm rfl (fun k hk => ?_) heq
      cases hk
      obtain ⟨h, hd', hh⟩ := exists_find?_of_unlabelled_eq hdefs hd
      obtain ⟨v', hr, hsame⟩ := ih hh
      exact ⟨v', .ref hd' hr, hsame⟩
  | undefined hd =>
      refine exists_runs_of_sameForm rfl (fun k hk => ?_) heq
      cases hk
      exact ⟨_, .undefined (find?_eq_none_of_unlabelled_eq hdefs hd), .refl _⟩

/-! ### The failure that is reported -/

/-- **A failure is what was made, with the labels before it that were being run.** -/
theorem Runs.exists_reported (hr : Runs defs T g i (.failure f) j) (active : List String) :
    ∃ texts f₀, Reported defs T active g i (active ++ texts) f₀ ∧
      f = texts.foldr Failure.withLabel f₀ := by
  generalize hv : Verdict.failure f = v at hr
  induction hr generalizing f active with
  | oneOf_mismatch hm =>
      cases hv
      exact ⟨[], _, by simpa using .primitive rfl (.oneOf_mismatch hm), rfl⟩
  | noneOf_mismatch hm =>
      cases hv
      exact ⟨[], _, by simpa using .primitive rfl (.noneOf_mismatch hm), rfl⟩
  | end_missed ht hm =>
      cases hv
      exact ⟨[], _, by simpa using .primitive rfl (.end_missed ht hm), rfl⟩
  | sequence_stop _ _ ih =>
      obtain ⟨texts, f₀, hf₀, hf⟩ := ih active hv
      exact ⟨texts, f₀, .sequence_head hf₀, hf⟩
  | sequence_later hg _ _ _ ih =>
      obtain ⟨texts, f₀, hf₀, hf⟩ := ih active hv
      exact ⟨texts, f₀, .sequence_tail hg hf₀, hf⟩
  | choice_only _ ih =>
      obtain ⟨texts, f₀, hf₀, hf⟩ := ih active hv
      exact ⟨texts, f₀, .choice_only hf₀, hf⟩
  | choice_first _ _ hle ih ih' =>
      cases hv
      obtain ⟨texts, f₀, hf₀, rfl⟩ := ih active rfl
      obtain ⟨texts', f₀', hf₀', rfl⟩ := ih' active rfl
      simp only [foldr_withLabel] at hle
      exact ⟨texts, f₀, .choice_first hf₀ hf₀' hle, rfl⟩
  | choice_deeper _ _ hlt ih ih' =>
      cases hv
      obtain ⟨texts, f₀, hf₀, rfl⟩ := ih active rfl
      obtain ⟨texts', f₀', hf₀', rfl⟩ := ih' active rfl
      simp only [foldr_withLabel] at hlt
      exact ⟨texts', f₀', .choice_deeper hf₀ hf₀' hlt, rfl⟩
  | many1_stop _ _ ih =>
      obtain ⟨texts, f₀, hf₀, hf⟩ := ih active hv
      exact ⟨texts, f₀, .many1 hf₀, hf⟩
  | attempt_stop _ _ ih =>
      obtain ⟨texts, f₀, hf₀, hf⟩ := ih active hv
      exact ⟨texts, f₀, .attempt hf₀, hf⟩
  | @label text g i v j _ ih =>
      cases v with
      | failure f' =>
          cases hv
          obtain ⟨texts, f₀, hf₀, rfl⟩ := ih (active ++ [text]) rfl
          rw [List.append_assoc] at hf₀
          exact ⟨text :: texts, f₀, .label hf₀, rfl⟩
      | success a => cases hv
      | raised e => cases hv
  | map_stop _ _ ih =>
      obtain ⟨texts, f₀, hf₀, hf⟩ := ih active hv
      exact ⟨texts, f₀, .map hf₀, hf⟩
  | combine_stop _ _ ih =>
      obtain ⟨texts, f₀, hf₀, hf⟩ := ih active hv
      exact ⟨texts, f₀, .combine hf₀, hf⟩
  | ref hd _ ih =>
      obtain ⟨texts, f₀, hf₀, hf⟩ := ih active hv
      exact ⟨texts, f₀, .ref hd hf₀, hf⟩
  | map_match | combine_match => exact absurd hv.symm Verdict.ofExcept_ne_failure
  | _ => cases hv

/-- A primitive does not look at definitions, and has no labels. -/
theorem Runs.unlabelled_of_primitive (hr : Runs defs T g i v j) (hg : g.isPrimitive)
    (defs' : Definitions Empty) : Runs defs' T g.unlabelled i v j := by
  cases hr with
  | oneOf_match ht hm => exact .oneOf_match ht hm
  | oneOf_mismatch hm => exact .oneOf_mismatch hm
  | noneOf_match ht hm => exact .noneOf_match ht hm
  | noneOf_mismatch hm => exact .noneOf_mismatch hm
  | end_reached ht => exact .end_reached ht
  | end_marked ht hm => exact .end_marked ht hm
  | end_missed ht hm => exact .end_missed ht hm
  | _ => cases hg

/-- A match is a match with the same value without labels. -/
theorem Runs.unlabelled_of_success {a : Value} (hr : Runs defs T g i (.success a) j) :
    Runs defs.unlabelled T g.unlabelled i (.success a) j := by
  obtain ⟨v', hr', hsame⟩ :=
    hr.relabelled defs.unlabelled_unlabelled.symm g.unlabelled_unlabelled.symm
  cases hsame
  exact hr'

namespace Reported

/-- **Without labels, a grammar fails with the failure as it was made.** -/
theorem runs_unlabelled (hf : Reported defs T active g i texts f) :
    ∃ j, Runs defs.unlabelled T g.unlabelled i (.failure f) j := by
  induction hf with
  | primitive hg hr => exact ⟨_, hr.unlabelled_of_primitive hg _⟩
  | sequence_head _ ih =>
      obtain ⟨j, hr⟩ := ih
      exact ⟨j, .sequence_stop hr rfl⟩
  | sequence_tail hg _ ih =>
      obtain ⟨j, hr⟩ := ih
      exact ⟨j, .sequence_later hg.unlabelled_of_success hr rfl⟩
  | choice_only _ ih =>
      obtain ⟨j, hr⟩ := ih
      exact ⟨_, .choice_only hr⟩
  | choice_first _ _ hle ih ih' =>
      obtain ⟨j, hr⟩ := ih
      obtain ⟨j', hr'⟩ := ih'
      exact ⟨_, .choice_first hr hr' hle⟩
  | choice_deeper _ _ hlt ih ih' =>
      obtain ⟨j, hr⟩ := ih
      obtain ⟨j', hr'⟩ := ih'
      exact ⟨_, .choice_deeper hr hr' hlt⟩
  | many1 _ ih =>
      obtain ⟨j, hr⟩ := ih
      exact ⟨_, .many1_stop hr rfl⟩
  | attempt _ ih =>
      obtain ⟨j, hr⟩ := ih
      exact ⟨_, .attempt_stop hr rfl⟩
  | label _ ih => exact ih
  | map _ ih =>
      obtain ⟨j, hr⟩ := ih
      exact ⟨j, .map_stop hr rfl⟩
  | combine _ ih =>
      obtain ⟨j, hr⟩ := ih
      exact ⟨j, .combine_stop hr rfl⟩
  | @ref _ name g _ _ _ hd _ ih =>
      obtain ⟨j, hr⟩ := ih
      have hd' : defs.unlabelled.find? name = some g.unlabelled := by
        rw [Definitions.find?_unlabelled, hd, Option.map_some]
      exact ⟨j, .ref hd' hr⟩

/-- What reports a failure does not match. -/
theorem not_runs_success (hf : Reported defs T active g i texts f) (hi : i ≤ T.size) {a : Value} :
    ¬ Runs defs T g i (.success a) j := by
  intro hr
  obtain ⟨j', hfail⟩ := hf.runs_unlabelled
  cases (hr.unlabelled_of_success.deterministic hfail hi).1

/-- A run reports one failure. -/
theorem failure_unique (hf : Reported defs T active g i texts f)
    (hf' : Reported defs T active g i texts' f') (hi : i ≤ T.size) : f' = f := by
  obtain ⟨j, hr⟩ := hf.runs_unlabelled
  obtain ⟨j', hr'⟩ := hf'.runs_unlabelled
  cases (hr'.deterministic hr hi).1
  rfl

/-- The failure was made under one list of labels. -/
theorem texts_unique (hf : Reported defs T active g i texts f)
    (hf' : Reported defs T active g i texts' f') (hi : i ≤ T.size) : texts' = texts := by
  induction hf generalizing texts' f' with
  | primitive hg _ =>
      cases hf' with
      | primitive => rfl
      | _ => cases hg
  | sequence_head hf ih =>
      cases hf' with
      | primitive hg => cases hg
      | sequence_head hf' => exact ih hf' hi
      | sequence_tail hg _ => exact absurd hg (hf.not_runs_success hi)
  | sequence_tail hg _ ih =>
      cases hf' with
      | primitive hg => cases hg
      | sequence_head hf' => exact absurd hg (hf'.not_runs_success hi)
      | sequence_tail hg' hf' =>
          obtain ⟨-, rfl⟩ := hg.deterministic hg' hi
          exact ih hf' (hg.bounds hi).2
  | choice_only _ ih =>
      cases hf' with
      | primitive hg => cases hg
      | choice_only hf' => exact ih hf' hi
  | choice_first hf hgs hle ih _ =>
      cases hf' with
      | primitive hg => cases hg
      | choice_first hf' _ _ => exact ih hf' hi
      | choice_deeper hf' hgs' hlt =>
          rw [hf.failure_unique hf' hi, hgs.failure_unique hgs' hi] at hlt
          exact absurd hlt (Nat.not_lt.mpr hle)
  | choice_deeper hf hgs hlt _ ih' =>
      cases hf' with
      | primitive hg => cases hg
      | choice_first hf' hgs' hle =>
          rw [hf.failure_unique hf' hi, hgs.failure_unique hgs' hi] at hle
          exact absurd hlt (Nat.not_lt.mpr hle)
      | choice_deeper _ hgs' _ => exact ih' hgs' hi
  | many1 _ ih | attempt _ ih | label _ ih | map _ ih | combine _ ih =>
      cases hf' with
      | primitive hg => cases hg
      | _ => exact ih ‹_› hi
  | ref hd _ ih =>
      cases hf' with
      | primitive hg => cases hg
      | ref hd' hf' =>
          rw [hd] at hd'
          cases hd'
          exact ih hf' hi

end Reported

/-! ### With labels and without -/

/-- A run of a grammar is followed by one of every grammar that is the same without labels, over the
same stack. -/
theorem Ends.relabelled {hand : Empty → Parser Value} {S : List Nat} {d : Cursor}
    (hends : Ends hand defs g ⟨T, i, S⟩ v d) (hdefs : defs.unlabelled = defs'.unlabelled)
    (heq : g.unlabelled = g'.unlabelled) (hi : i ≤ T.size) :
    ∃ v', Ends hand defs' g' ⟨T, i, S⟩ v' ⟨T, d.index, S⟩ ∧ SameButMessage v v' := by
  have hr : Runs defs T g i v d.index := runs_of_ends (c := ⟨T, i, S⟩) hi hends
  obtain ⟨v', hr', hsame⟩ := hr.relabelled hdefs heq
  exact ⟨v', ends_of_runs hr' S hi, hsame⟩

/-- **Labels only name failures.** A grammar ends exactly if what is left of it without labels does,
from every index and over every stack of stored positions. Both end at the same index, with the stack
as it was, and both match with the same value, or both raise the same error, or both fail at the same
place with the same code. The failure of the grammar then has before its message exactly the texts of
the labels that were being run when the failure was made, the outermost first, and the failure
without labels has the message as it was made. -/
theorem labels_only_name (hand : Empty → Parser Value) (defs : Definitions Empty)
    (g : Grammar Empty) {T : Array Token} {i : Nat} (S : List Nat) (hi : i ≤ T.size) :
    ((∃ v d, Ends hand defs g ⟨T, i, S⟩ v d) ↔
      ∃ v' d', Ends hand defs.unlabelled g.unlabelled ⟨T, i, S⟩ v' d') ∧
    ∀ v d v' d', Ends hand defs g ⟨T, i, S⟩ v d →
      Ends hand defs.unlabelled g.unlabelled ⟨T, i, S⟩ v' d' →
      (d = ⟨T, d.index, S⟩ ∧ d' = d) ∧
      ((∃ a, v = .success a ∧ v' = .success a) ∨ (∃ e, v = .raised e ∧ v' = .raised e) ∨
        ∃ f f' texts, v = .failure f ∧ v' = .failure f' ∧
          f.position = f'.position ∧ f.code = f'.code ∧
          f.message = String.join (texts.map (· ++ ": ")) ++ f'.message ∧
          ∀ texts' f₀, Reported defs T [] g i texts' f₀ ↔ texts' = texts ∧ f₀ = f') := by
  have hdefs : defs.unlabelled = defs.unlabelled.unlabelled := defs.unlabelled_unlabelled.symm
  have hg : g.unlabelled = g.unlabelled.unlabelled := g.unlabelled_unlabelled.symm
  constructor
  · constructor
    · rintro ⟨v, d, hends⟩
      obtain ⟨v', hends', -⟩ := hends.relabelled hdefs hg hi
      exact ⟨v', _, hends'⟩
    · rintro ⟨v', d', hends'⟩
      obtain ⟨v, hends, -⟩ := hends'.relabelled hdefs.symm hg.symm hi
      exact ⟨v, _, hends⟩
  · intro v d v' d' hends hends'
    have hr : Runs defs T g i v d.index := runs_of_ends (c := ⟨T, i, S⟩) hi hends
    have hd : d = ⟨T, d.index, S⟩ := (hends.unique (ends_of_runs hr S hi)).2
    obtain ⟨w, hw, hsame⟩ := hends.relabelled hdefs hg hi
    obtain ⟨rfl, rfl⟩ := hw.unique hends'
    refine ⟨⟨hd, hd.symm⟩, ?_⟩
    cases hsame with
    | success => exact .inl ⟨_, rfl, rfl⟩
    | raised => exact .inr (.inl ⟨_, rfl, rfl⟩)
    | @failure f f' hposition hcode =>
        obtain ⟨texts, f₀, hf₀, hf⟩ := hr.exists_reported []
        obtain ⟨j, hr₀⟩ := hf₀.runs_unlabelled
        have hr' := runs_of_ends (c := ⟨T, i, S⟩) hi hends'
        cases (hr₀.deterministic hr' hi).1
        rw [foldr_withLabel] at hf
        refine .inr (.inr ⟨f, f', texts, rfl, rfl, hposition, hcode,
          congrArg Failure.message hf, fun texts' f₀' => ⟨fun hf₀' => ?_, ?_⟩⟩)
        · exact ⟨hf₀.texts_unique hf₀' hi, hf₀.failure_unique hf₀' hi⟩
        · rintro ⟨rfl, rfl⟩
          exact hf₀

/-- Three alternatives under labels of their own. The second gets further than the first and as far
as the third, which is defined alike, so its label is the one that is shown. -/
theorem labels_only_name_of_alternatives :
    let a : Token := ⟨"A", "a", .start⟩
    let T := #[a]
    let defs : Definitions Empty :=
      [("pair", .sequence [.oneOf "A" [], .label "second" (.oneOf "B" [])])]
    let g : Grammar Empty := .label "list" (.choice (.label "other" (.oneOf "C" []))
      [.label "pair" (.ref "pair"), .label "again" (.ref "pair")])
    let message := "Expected token of type B, but got end of input"
    let f : Failure := { message := "list: pair: second: " ++ message, position := ⟨1, 1, 1⟩ }
    let f' : Failure := { message, position := ⟨1, 1, 1⟩ }
    0 ≤ T.size ∧ Ends nofun defs g ⟨T, 0, [0]⟩ (.failure f) ⟨T, 0, [0]⟩ ∧
      Ends nofun defs.unlabelled g.unlabelled ⟨T, 0, [0]⟩ (.failure f') ⟨T, 0, [0]⟩ ∧
      ∀ texts f₀, Reported defs T [] g 0 texts f₀ ↔ texts = ["list", "pair", "second"] ∧ f₀ = f' := by
  intro a T defs g message f f'
  have hi : 0 ≤ T.size := Nat.zero_le _
  have hends : Ends nofun defs g ⟨T, 0, [0]⟩ (.failure f) ⟨T, 0, [0]⟩ := ⟨7, rfl⟩
  have hends' : Ends nofun defs.unlabelled g.unlabelled ⟨T, 0, [0]⟩ (.failure f') ⟨T, 0, [0]⟩ :=
    ⟨7, rfl⟩
  have hother (active : List String) :
      Reported defs T active (.oneOf "C" []) 0 active
        (failureAt T 0 "Expected token of type C, but got A") :=
    .primitive rfl (.oneOf_mismatch (by simp [T, a]))
  have hpair (active : List String) :
      Reported defs T active (.ref "pair") 0 (active ++ ["second"]) f' := by
    have hfirst : Runs defs T (.oneOf "A" []) 0 (.success (.ofToken a)) 1 :=
      .oneOf_match rfl List.mem_cons_self
    have hsecond : Runs defs T (.oneOf "B" []) 1 (.failure f') 1 := .oneOf_mismatch nofun
    exact .ref rfl (.sequence_tail hfirst (.sequence_head (.label (.primitive rfl hsecond))))
  have hreported : Reported defs T [] g 0 ["list", "pair", "second"] f' :=
    .label (.choice_deeper (.label (hother _))
      (.choice_first (.label (hpair _)) (.choice_only (.label (hpair _))) (Nat.le_refl 1))
      Nat.zero_lt_one)
  refine ⟨hi, hends, hends', ?_⟩
  rcases (labels_only_name nofun defs g [0] hi).2 _ _ _ _ hends hends' with
    ⟨-, ⟨_, h, -⟩ | ⟨_, h, -⟩ | ⟨_, _, texts, -, -, -, -, -, hiff⟩⟩
  · cases h
  · cases h
  · obtain ⟨rfl, rfl⟩ := (hiff _ _).mp hreported
    exact hiff

end Grammar

end Descent
