import Descent.Proofs.Grammar.Congruence

/-!
# Attempts that make no difference

An attempt goes back if it does not match. Where that happens anyway, it can be left out.

* `Spare` lists the pairs of grammars that differ by such attempts and do the same from every
  cursor, also where an error is raised.
* A repetition goes back by itself if it fails, but not if an error is raised in a later round: then
  it stands where its last match ended. So it can do without an attempt where no error is raised.
* `Replaced` puts one side of such a pair for the other somewhere in a grammar, and
  `Interchangeable` does so any number of times, in either direction. A grammar and its definitions
  can be replaced by interchangeable ones (`Runs.interchanged`).
-/

namespace Descent.Grammar

/-! ### Attempts to leave out -/

/-- Two ways to write a grammar that differ in their attempts only, and do the same. -/
inductive Spare : Grammar Empty → Grammar Empty → Prop
  | attempt_attempt (p) : Spare (.attempt (.attempt p)) (.attempt p)
  | choice_single (p) : Spare (.choice p []) (.attempt p)
  | attempt_choice (q qs) : Spare (.attempt (.choice q qs)) (.choice q qs)
  | choice_attempts (q qs) : Spare (.choice (.attempt q) (qs.map .attempt)) (.choice q qs)
  | many1_attempt (p) : Spare (.many1 (.attempt p)) (.many1 p)
  | optional_attempt (p) : Spare (.optional (.attempt p) false) (.optional p true)

/-- At one place in a grammar, a second way to write it is put for the first. -/
inductive Replaced : Grammar Empty → Grammar Empty → Prop
  | spare {g g'} : Spare g g' → Replaced g g'
  | attempt_many1 (p) : Replaced (.attempt (.many1 p)) (.many1 p)
  | sequence {g g'} (before after) : Replaced g g' →
      Replaced (.sequence (before ++ g :: after)) (.sequence (before ++ g' :: after))
  | choice_first {g g'} (others) : Replaced g g' → Replaced (.choice g others) (.choice g' others)
  | choice_later {g g'} (first before after) : Replaced g g' →
      Replaced (.choice first (before ++ g :: after)) (.choice first (before ++ g' :: after))
  | many1 {g g'} : Replaced g g' → Replaced (.many1 g) (.many1 g')
  | optional {g g'} (backtrack) : Replaced g g' →
      Replaced (.optional g backtrack) (.optional g' backtrack)
  | attempt {g g'} : Replaced g g' → Replaced (.attempt g) (.attempt g')
  | label {g g'} (text) : Replaced g g' → Replaced (.label text g) (.label text g')
  | map {g g'} (f) : Replaced g g' → Replaced (.map f g) (.map f g')
  | combine {g g'} (f before after) : Replaced g g' →
      Replaced (.combine f (before ++ g :: after)) (.combine f (before ++ g' :: after))

/-- At any number of places, one way to write a grammar is put for the other. -/
abbrev Interchangeable : Grammar Empty → Grammar Empty → Prop := Relation.EqvGen Replaced

/-- Two systems define the same names, in the same order, by interchangeable grammars. -/
def InterchangeableDefinitions (defs defs' : Definitions Empty) : Prop :=
  List.Forall₂ (fun d d' => d.1 = d'.1 ∧ Interchangeable d.2 d'.2) defs defs'

variable {hand : Empty → Parser Value} {defs defs' : Definitions Empty} {T : Array Token}
  {g g' p : Grammar Empty} {i j : Nat} {v : Verdict Value} {c d : Cursor}

/-! ### One attempt -/

/-- An attempt has the verdict of its grammar, and a match at the same index. -/
theorem sameMatches_attempt (defs : Definitions Empty) (T : Array Token) (p : Grammar Empty) :
    SameMatches defs T (.attempt p) p := by
  intro i v j hr
  cases hr with
  | attempt_match hr => exact ⟨j, hr, fun _ => rfl⟩
  | @attempt_stop _ _ _ k hr hv => exact ⟨k, hr, fun hmatched => nomatch hv.symm.trans hmatched⟩

theorem sameMatches_of_attempt (defs : Definitions Empty) (T : Array Token) (p : Grammar Empty) :
    SameMatches defs T p (.attempt p) := by
  intro i v j hr
  cases v with
  | success a => exact ⟨j, .attempt_match hr, fun _ => rfl⟩
  | failure f => exact ⟨i, .attempt_stop hr rfl, nofun⟩
  | raised e => exact ⟨i, .attempt_stop hr rfl, nofun⟩

/-- Without a match an attempt ends where it began. -/
theorem Runs.attempt_stays (hr : Runs defs T (.attempt p) i v j) (hv : v.matched = false) :
    j = i := by
  cases hr with
  | attempt_match => cases hv
  | attempt_stop => rfl

/-- **What goes back by itself need not be attempted.** -/
theorem runs_attempt_iff (hstays : v.matched = false → ∀ k, Runs defs T p i v k → k = i) :
    Runs defs T (.attempt p) i v j ↔ Runs defs T p i v j := by
  constructor
  · intro hr
    cases hr with
    | attempt_match hr => exact hr
    | attempt_stop hr hv => rwa [hstays hv _ hr] at hr
  · intro hr
    cases hv : v.matched with
    | true =>
        cases v with
        | success a => exact .attempt_match hr
        | failure f => cases hv
        | raised e => cases hv
    | false =>
        obtain rfl := hstays hv j hr
        exact .attempt_stop hr hv

/-- A repetition that raises no error need not be attempted. -/
theorem runs_attempt_many1_iff (hv : ∀ e, v ≠ .raised e) :
    Runs defs T (.attempt (.many1 p)) i v j ↔ Runs defs T (.many1 p) i v j := by
  apply runs_attempt_iff
  intro hmatched k hr
  cases v with
  | success a => cases hmatched
  | failure f => exact hr.many1_stays
  | raised e => exact absurd rfl (hv e)

/-- To go back at a failure and to be attempted is the same for an option. -/
theorem runs_optional_attempt_iff :
    Runs defs T (.optional (.attempt p) false) i v j ↔ Runs defs T (.optional p true) i v j := by
  constructor
  · intro hr
    cases hr with
    | optional_match hr => exact .optional_match ((sameMatches_attempt defs T p).match_of hr)
    | optional_none _ hr =>
        cases hr with
        | attempt_stop hr => exact .optional_none true hr
    | optional_raised _ hr =>
        cases hr with
        | attempt_stop hr => exact .optional_raised true hr
  · intro hr
    cases hr with
    | optional_match hr => exact .optional_match (.attempt_match hr)
    | optional_none _ hr => exact .optional_none false (.attempt_stop hr rfl)
    | optional_raised _ hr => exact .optional_raised false (.attempt_stop hr rfl)

/-- **Spare attempts can be left out**, whatever the verdict. -/
theorem Spare.runs_iff (hs : Spare g g') : Runs defs T g i v j ↔ Runs defs T g' i v j := by
  cases hs with
  | attempt_attempt p => exact runs_attempt_iff fun hv k hr => hr.attempt_stays hv
  | choice_single p => rw [choice_nil]
  | attempt_choice q qs => exact runs_attempt_iff fun hv k hr => hr.choice_stays hv
  | choice_attempts q qs =>
      constructor
      · apply SameMatches.choice
        refine .cons (sameMatches_attempt defs T q) (List.forall₂_map_left_iff.mpr ?_)
        exact List.forall₂_same.mpr fun p _ => sameMatches_attempt defs T p
      · apply SameMatches.choice
        refine .cons (sameMatches_of_attempt defs T q) (List.forall₂_map_right_iff.mpr ?_)
        exact List.forall₂_same.mpr fun p _ => sameMatches_of_attempt defs T p
  | many1_attempt p =>
      exact ⟨(sameMatches_attempt defs T p).many1, (sameMatches_of_attempt defs T p).many1⟩
  | optional_attempt p => exact runs_optional_attempt_iff

/-! ### In the place of each other -/

/-- Each of the two comes to whatever the other comes to, but for the index at which an error is
raised. -/
def Equivalent (defs : Definitions Empty) (T : Array Token) (g g' : Grammar Empty) : Prop :=
  Follows defs T g g' ∧ Follows defs T g' g

/-- Two lists that differ in one place are related one by one. -/
theorem forall₂_of_place {R : Grammar Empty → Grammar Empty → Prop} (hrefl : ∀ g, R g g)
    (hg : R g g') (before after : List (Grammar Empty)) :
    List.Forall₂ R (before ++ g :: after) (before ++ g' :: after) := by
  induction before with
  | nil => exact .cons hg (List.forall₂_same.mpr fun h _ => hrefl h)
  | cons h before ih => exact .cons (hrefl h) ih

theorem equivalent_attempt_many1 (defs : Definitions Empty) (T : Array Token) (p : Grammar Empty) :
    Equivalent defs T (.attempt (.many1 p)) (.many1 p) := by
  constructor
  · apply (sameMatches_attempt defs T _).follows
    intro i v j hv hr
    exact (runs_attempt_many1_iff hv).mp hr
  · apply (sameMatches_of_attempt defs T _).follows
    intro i v j hv hr
    exact (runs_attempt_many1_iff hv).mpr hr

/-- **One place can be replaced.** By induction on where it is. -/
theorem Replaced.equivalent (defs : Definitions Empty) (T : Array Token) (h : Replaced g g') :
    Equivalent defs T g g' := by
  induction h with
  | spare hs =>
      exact ⟨fun _ _ _ hr => .of (hs.runs_iff.mp hr), fun _ _ _ hr => .of (hs.runs_iff.mpr hr)⟩
  | attempt_many1 p => exact equivalent_attempt_many1 defs T p
  | sequence before after _ ih =>
      exact ⟨.sequence (forall₂_of_place (.refl defs T) ih.1 before after),
        .sequence (forall₂_of_place (.refl defs T) ih.2 before after)⟩
  | choice_first others _ ih =>
      exact ⟨.choice (forall₂_of_place (.refl defs T) ih.1 [] others),
        .choice (forall₂_of_place (.refl defs T) ih.2 [] others)⟩
  | choice_later first before after _ ih =>
      exact ⟨.choice (forall₂_of_place (.refl defs T) ih.1 (first :: before) after),
        .choice (forall₂_of_place (.refl defs T) ih.2 (first :: before) after)⟩
  | many1 _ ih => exact ⟨ih.1.many1, ih.2.many1⟩
  | optional backtrack _ ih => exact ⟨ih.1.optional backtrack, ih.2.optional backtrack⟩
  | attempt _ ih => exact ⟨ih.1.attempt, ih.2.attempt⟩
  | label text _ ih => exact ⟨ih.1.label text, ih.2.label text⟩
  | map f _ ih => exact ⟨ih.1.map f, ih.2.map f⟩
  | combine f before after _ ih =>
      exact ⟨.combine (.sequence (forall₂_of_place (.refl defs T) ih.1 before after)) f,
        .combine (.sequence (forall₂_of_place (.refl defs T) ih.2 before after)) f⟩

theorem Interchangeable.equivalent (defs : Definitions Empty) (T : Array Token)
    (h : Interchangeable g g') : Equivalent defs T g g' := by
  induction h with
  | rel g g' hg => exact hg.equivalent defs T
  | refl g => exact ⟨.refl defs T g, .refl defs T g⟩
  | symm g g' _ ih => exact ih.symm
  | trans g h k _ _ ih ih' => exact ⟨ih.1.trans ih'.1, ih'.2.trans ih.2⟩

theorem InterchangeableDefinitions.symm (h : InterchangeableDefinitions defs defs') :
    InterchangeableDefinitions defs' defs := by
  apply List.Forall₂.flip
  apply h.imp
  intro d d' hd
  exact ⟨hd.1.symm, hd.2.symm⟩

/-- **A grammar and its definitions can be replaced by interchangeable ones.** -/
theorem Runs.interchanged (hdefs : InterchangeableDefinitions defs defs') (hg : Interchangeable g g')
    (hr : Runs defs T g i v j) : Reaches (Runs defs' T g' i) v j := by
  have hredefined : Reaches (Runs defs' T g i) v j := by
    apply hr.redefined
    intro name
    rcases find?_of_forall₂ hdefs name with hnone | ⟨h, h', hd, hd', hh⟩
    · exact .inl hnone
    · exact .inr ⟨h, h', hd, hd', (Interchangeable.equivalent defs' T hh).1⟩
  exact hredefined.trans fun k hr' => (Interchangeable.equivalent defs' T hg).1 hr'

/-- The other run ends with the same verdict, and with the same cursor unless an error is raised. -/
theorem Ends.interchanged (hdefs : InterchangeableDefinitions defs defs') (hg : Interchangeable g g')
    (hc : c.index ≤ c.tokens.size) (h : Ends hand defs g c v d) :
    ∃ d', Ends hand defs' g' c v d' ∧ ((∀ e, v ≠ .raised e) → d' = d) := by
  obtain ⟨hr, hd⟩ := (ends_iff_runs hc).mp h
  obtain ⟨k, hr', heq⟩ := hr.interchanged hdefs hg
  refine ⟨c.moveTo k, ends_of_runs hr' c.saved hc, fun hv => ?_⟩
  rw [hd, heq hv]

/-- **Attempts that can be left out.** They are compared from one cursor, anywhere within its tokens.

The pairs that `Spare` lists end in the same way, with the same verdict and the same cursor. So does
a repetition with and without an attempt, if no error is raised.

In any grammar, and in the definitions that it refers to, one side of such pairs can be put for the
other at any number of places. The run then raises an error if it did before, and the same one. If it
does not, it ends with the same verdict and the same cursor. -/
theorem attempts_left_out (hand : Empty → Parser Value) (defs : Definitions Empty) {c : Cursor}
    (hc : c.index ≤ c.tokens.size) :
    (∀ g g', Spare g g' → ∀ v d, Ends hand defs g c v d ↔ Ends hand defs g' c v d) ∧
    (∀ p v d, (∀ e, v ≠ .raised e) →
      (Ends hand defs (.attempt (.many1 p)) c v d ↔ Ends hand defs (.many1 p) c v d)) ∧
    ∀ defs' g g', InterchangeableDefinitions defs defs' → Interchangeable g g' →
      (∀ v d, (∀ e, v ≠ .raised e) → (Ends hand defs g c v d ↔ Ends hand defs' g' c v d)) ∧
      ∀ e, (∃ d, Ends hand defs g c (.raised e) d) ↔ ∃ d, Ends hand defs' g' c (.raised e) d := by
  refine ⟨fun g g' hs v d => ?_, fun p v d hv => ?_, fun defs' g g' hdefs hg => ⟨?_, ?_⟩⟩
  · rw [ends_iff_runs hc, ends_iff_runs hc, hs.runs_iff]
  · rw [ends_iff_runs hc, ends_iff_runs hc, runs_attempt_many1_iff hv]
  · intro v d hv
    constructor
    · intro h
      obtain ⟨d', h', heq⟩ := h.interchanged hdefs hg hc
      rwa [heq hv] at h'
    · intro h
      obtain ⟨d', h', heq⟩ := h.interchanged hdefs.symm (.symm _ _ hg) hc
      rwa [heq hv] at h'
  · intro e
    constructor
    · rintro ⟨d, h⟩
      obtain ⟨d', h', -⟩ := h.interchanged hdefs hg hc
      exact ⟨d', h'⟩
    · rintro ⟨d, h⟩
      obtain ⟨d', h', -⟩ := h.interchanged hdefs.symm (.symm _ _ hg) hc
      exact ⟨d', h'⟩

/-- A list in parentheses, by a definition that refers to itself, over two stored positions. Attempts
are put into the definition, and one attempt is put inside a repetition and not around it. -/
theorem attempts_left_out_recursive :
    let l : Token := ⟨"(", "(", .start⟩
    let x : Token := ⟨"x", "x", .start⟩
    let r : Token := ⟨")", ")", .start⟩
    let c : Cursor := ⟨#[x, l, x, r], 1, [1, 0]⟩
    let nested (items : Grammar Empty) : Grammar Empty :=
      .sequence [.oneOf "(" [], items, .oneOf ")" []]
    let items : Grammar Empty := .many1 (.ref "item")
    let defs : Definitions Empty := [("item", .choice (nested items) [.oneOf "x" []])]
    let defs' : Definitions Empty :=
      [("item", .choice (.attempt (nested (.attempt items))) [.attempt (.oneOf "x" [])])]
    let g : Grammar Empty := .sequence [.attempt items, .endOfInput]
    let g' : Grammar Empty := .sequence [.many1 (.attempt (.ref "item")), .endOfInput]
    let list := Value.ofList [.ofList [.ofToken l, .ofList [.ofToken x], .ofToken r]]
    let v : Verdict Value := .success (.ofList [list, .null])
    c.index ≤ c.tokens.size ∧ InterchangeableDefinitions defs defs' ∧ Interchangeable g g' ∧
      Ends nofun defs g c v (c.moveTo 4) ∧ Ends nofun defs' g' c v (c.moveTo 4) ∧
      Ends nofun defs items c (.success list) (c.moveTo 4) ∧
      Ends nofun defs (.many1 (.attempt (.ref "item"))) c (.success list) (c.moveTo 4) ∧
      Ends nofun defs (.attempt items) c (.success list) (c.moveTo 4) := by
  intro l x r c nested items defs defs' g g' list v
  have hc : c.index ≤ c.tokens.size := by decide
  have hspare : Spare (.many1 (.attempt (.ref "item"))) items := .many1_attempt _
  have halternatives :
      Replaced (.choice (.attempt (nested (.attempt items))) [.attempt (.oneOf "x" [])])
        (.choice (nested (.attempt items)) [.oneOf "x" []]) :=
    .spare (.choice_attempts _ [.oneOf "x" []])
  have hnested : Replaced (.choice (nested (.attempt items)) [.oneOf "x" []])
      (.choice (nested items) [.oneOf "x" []]) :=
    .choice_first _ (.sequence [.oneOf "(" []] [.oneOf ")" []] (.attempt_many1 _))
  have hdefs : InterchangeableDefinitions defs defs' :=
    .cons ⟨rfl, .symm _ _ (.trans _ _ _ (.rel _ _ halternatives) (.rel _ _ hnested))⟩ .nil
  have haround : Replaced g (.sequence [items, .endOfInput]) :=
    .sequence [] [.endOfInput] (.attempt_many1 _)
  have hinside : Replaced g' (.sequence [items, .endOfInput]) :=
    .sequence [] [.endOfInput] (.spare hspare)
  have hg : Interchangeable g g' := .trans _ _ _ (.rel _ _ haround) (.symm _ _ (.rel _ _ hinside))
  have hends : Ends nofun defs g c v (c.moveTo 4) := ⟨11, rfl⟩
  have hitems : Ends nofun defs items c (.success list) (c.moveTo 4) := ⟨9, rfl⟩
  obtain ⟨hpairs, hmany1, hplaces⟩ := attempts_left_out nofun defs hc
  exact ⟨hc, hdefs, hg, hends, ((hplaces defs' g g' hdefs hg).1 v _ nofun).mp hends, hitems,
    (hpairs _ _ hspare _ _).mpr hitems, (hmany1 (.ref "item") (.success list) _ nofun).mpr hitems⟩

/-- Where an error is raised in the second round, a repetition stands behind the first, and goes back
further only if it is attempted. -/
example :
    let a : Token := ⟨"A", "a", .start⟩
    let b : Token := ⟨"A", "b", .start⟩
    let c : Cursor := ⟨#[a, b], 0, []⟩
    let p : Grammar Empty :=
      .map (fun v => if v.text = "b" then .error (.caller "refused") else .ok v) (.oneOf "A" [])
    Ends nofun [] (.many1 p) c (.raised (.caller "refused")) (c.moveTo 1) ∧
      Ends nofun [] (.attempt (.many1 p)) c (.raised (.caller "refused")) c :=
  ⟨⟨3, rfl⟩, 4, rfl⟩

end Descent.Grammar
