import Descent.Proofs.Grammar.Refinement

/-!
# Laws of repetition

A repetition takes all the matches there are. So it leaves nothing to a second one after it
(`Runs.many1_maximal`), and what is left for a repetition of a repetition is to find that out: it has one
match at most (`runs_many1_many1_iff`). A repetition of an option is the repetition without the option, but
that it does not fail (`runs_many1_optional_iff`).

All of it is by induction on the matches, `Runs.many1_induction`.
-/

namespace Descent

namespace Verdict

/-- The verdict of a repetition, as that of a repetition of it. No matches are no matches, and some are
one match that has them as its value. -/
def ofRepetition : Verdict Value → Verdict Value
  | success (.list []) => success (.list [])
  | success a => success (.list [a])
  | v => v

/-- The verdict of a repetition, if to match nothing would not have been a failure. -/
def orEmpty : Verdict Value → Verdict Value
  | failure _ => success (.list [])
  | v => v

end Verdict

namespace Grammar

variable {hand : Empty → Parser Value} {defs : Definitions Empty} {T : Array Token} {g : Grammar Empty}
  {i j : Nat} {v w : Verdict Value}

/-! ### Along the matches -/

namespace Runs

/-- A repetition ends at its first round, or goes on after a match that consumed something. -/
@[elab_as_elim]
theorem many1_induction {motive : ∀ i v j, Runs defs T (.many1 g) i v j → Prop}
    (stop : ∀ {i v j} (hg : Runs defs T g i v j) (hv : v.matched = false),
      motive i v i (.many1_stop hg hv))
    (idle : ∀ {i a j} (hg : Runs defs T g i (.success a) j) (hle : j ≤ i),
      motive i (.success (.ofList [])) i (.many1_idle hg hle))
    (more : ∀ {i a k as j} (hg : Runs defs T g i (.success a) k) (hlt : i < k)
      (hrest : Runs defs T (.many1 g) k (.success (.ofList as)) j), motive k _ j hrest →
      motive i (.success (.ofList (a :: as))) j (.many1_more hg hlt hrest))
    (last : ∀ {i a k f j} (hg : Runs defs T g i (.success a) k) (hlt : i < k)
      (hrest : Runs defs T (.many1 g) k (.failure f) j), motive k _ j hrest →
      motive i (.success (.ofList [a])) k (.many1_last hg hlt hrest))
    (raised : ∀ {i a k e j} (hg : Runs defs T g i (.success a) k) (hlt : i < k)
      (hrest : Runs defs T (.many1 g) k (.raised e) j), motive k _ j hrest →
      motive i (.raised e) j (.many1_raised hg hlt hrest))
    {i v j} (h : Runs defs T (.many1 g) i v j) : motive i v j h := by
  suffices key : ∀ {k i v j}, Runs defs T k i v j → k = .many1 g → ∀ h, motive i v j h from key h rfl h
  intro k i v j hr hk h
  induction hr with
  | many1_stop hg hv => cases hk; exact stop hg hv
  | many1_idle hg hle => cases hk; exact idle hg hle
  | many1_more hg hlt hrest _ ih => cases hk; exact more hg hlt hrest (ih rfl hrest)
  | many1_last hg hlt hrest _ ih => cases hk; exact last hg hlt hrest (ih rfl hrest)
  | many1_raised hg hlt hrest _ ih => cases hk; exact raised hg hlt hrest (ih rfl hrest)
  | _ => cases hk

/-- A repetition that takes nothing stays, and one that takes something moves on. -/
theorem many1_moves {as : List Value} (h : Runs defs T (.many1 g) i (.success (.ofList as)) j)
    (hi : i ≤ T.size) : (as = [] ∧ j = i) ∨ (as ≠ [] ∧ i < j) := by
  cases h with
  | many1_stop _ hv => cases hv
  | many1_idle => exact .inl ⟨rfl, rfl⟩
  | many1_more hg hlt hrest =>
      have hk := hg.bounds hi
      have hj := hrest.bounds hk.2
      exact .inr ⟨nofun, by omega⟩
  | many1_last _ hlt => exact .inr ⟨nofun, hlt⟩

/-- **A repetition is maximal.** Where it ended with a match, another one takes nothing: it fails, or it
matches without consuming anything. -/
theorem many1_maximal {a : Value} (h : Runs defs T (.many1 g) i (.success a) j) :
    (∃ f, Runs defs T (.many1 g) j (.failure f) j) ∨
      Runs defs T (.many1 g) j (.success (.ofList [])) j := by
  generalize hv : Verdict.success a = v at h
  induction h using many1_induction generalizing a with
  | stop _ hmatched => cases hv; cases hmatched
  | idle hg hle => exact .inr (.many1_idle hg hle)
  | more _ _ _ ih => exact ih rfl
  | last _ _ hrest _ =>
      have hstays := hrest.many1_stays
      subst hstays
      exact .inl ⟨_, hrest⟩
  | raised => cases hv

/-- A repetition has a first round. -/
theorem exists_of_many1 (h : Runs defs T (.many1 g) i v j) : ∃ w k, Runs defs T g i w k := by
  cases h with
  | many1_stop hg | many1_idle hg | many1_more hg | many1_last hg | many1_raised hg => exact ⟨_, _, hg⟩

end Runs

/-! ### A repetition of a repetition -/

theorem runs_many1_many1 (h : Runs defs T (.many1 g) i v j) (hi : i ≤ T.size)
    (hv : ∀ e, v ≠ .raised e) : Runs defs T (.many1 (.many1 g)) i v.ofRepetition j := by
  cases v with
  | raised e => exact absurd rfl (hv e)
  | failure f =>
      rw [h.many1_stays]
      exact .many1_stop h rfl
  | success a =>
      obtain ⟨as, rfl⟩ := h.many1_value
      rcases h.many1_moves hi with ⟨rfl, rfl⟩ | ⟨has, hlt⟩
      · exact .many1_idle h (Nat.le_refl _)
      · obtain ⟨b, bs, rfl⟩ := List.exists_cons_of_ne_nil has
        -- The second round comes to nothing, in one of two ways.
        rcases h.many1_maximal with ⟨f, hend⟩ | hend
        · exact .many1_last h hlt (.many1_stop hend rfl)
        · exact .many1_more h hlt (.many1_idle hend (Nat.le_refl _))

/-- **A repetition of a repetition has at most one match**, with all the matches of the repetition. -/
theorem runs_many1_many1_iff (hi : i ≤ T.size) (hw : ∀ e, w ≠ .raised e) :
    Runs defs T (.many1 (.many1 g)) i w j ↔
      ∃ v, Runs defs T (.many1 g) i v j ∧ w = v.ofRepetition := by
  constructor
  · intro h
    obtain ⟨v, k, hv⟩ := h.exists_of_many1
    have hne : ∀ e, v ≠ .raised e := by
      rintro e rfl
      exact hw e (h.deterministic (.many1_stop hv rfl) hi).1
    obtain ⟨rfl, rfl⟩ := h.deterministic (runs_many1_many1 hv hi hne) hi
    exact ⟨v, hv, rfl⟩
  · rintro ⟨v, hv, rfl⟩
    apply runs_many1_many1 hv hi
    rintro e rfl
    exact hw e rfl

/-! ### A repetition of an option -/

theorem runs_many1_optional (h : Runs defs T (.many1 g) i v j) :
    Runs defs T (.many1 (.optional g true)) i v.orEmpty j := by
  induction h using Runs.many1_induction with
  | @stop i v j hg hv =>
      cases v with
      | success a => cases hv
      | failure f => exact .many1_idle (.optional_none true hg) (Nat.le_refl _)
      | raised e => exact .many1_stop (.optional_raised true hg) rfl
  | idle hg hle => exact .many1_idle (.optional_match hg) hle
  | more hg hlt _ ih => exact .many1_more (.optional_match hg) hlt ih
  | last hg hlt hrest ih =>
      rw [hrest.many1_stays] at ih
      exact .many1_more (.optional_match hg) hlt ih
  | raised hg hlt _ ih => exact .many1_raised (.optional_match hg) hlt ih

/-- An option that moves on is a match. -/
theorem Runs.match_of_optional {a : Value} (h : Runs defs T (.optional g true) i (.success a) j)
    (hlt : i < j) : Runs defs T g i (.success a) j := by
  cases h with
  | optional_match hg => exact hg
  | optional_none => exact absurd hlt (Nat.lt_irrefl i)

/-- **A repetition of an option is the repetition, but does not fail.** -/
theorem runs_many1_optional_iff : Runs defs T (.many1 (.optional g true)) i w j ↔
    ∃ v, Runs defs T (.many1 g) i v j ∧ w = v.orEmpty := by
  constructor
  · intro h
    induction h using Runs.many1_induction with
    | stop hg hv =>
        cases hg with
        | optional_match | optional_none => cases hv
        | optional_raised _ hg => exact ⟨_, .many1_stop hg rfl, rfl⟩
    | idle hg hle =>
        cases hg with
        | optional_match hg => exact ⟨_, .many1_idle hg hle, rfl⟩
        | optional_none _ hg => exact ⟨_, .many1_stop hg rfl, rfl⟩
    | more hg hlt _ ih =>
        obtain ⟨v, hv, heq⟩ := ih
        have hmatch := hg.match_of_optional hlt
        cases v with
        | success b =>
            cases heq
            exact ⟨_, .many1_more hmatch hlt hv, rfl⟩
        | failure f =>
            cases heq
            have hstays := hv.many1_stays
            subst hstays
            exact ⟨_, .many1_last hmatch hlt hv, rfl⟩
        | raised e => cases heq
    | last _ _ _ ih =>
        obtain ⟨v, -, heq⟩ := ih
        cases v <;> cases heq
    | raised hg hlt _ ih =>
        obtain ⟨v, hv, heq⟩ := ih
        cases v with
        | raised e =>
            cases heq
            exact ⟨_, .many1_raised (hg.match_of_optional hlt) hlt hv, rfl⟩
        | success | failure => cases heq
  · rintro ⟨v, hv, rfl⟩
    exact runs_many1_optional hv

/-! ### The laws -/

/-- After a repetition, an optional one stays where it is. -/
theorem Runs.optional_many1_stays {a : Value} (h : Runs defs T (.many1 g) i (.success a) j)
    (backtrack : Bool) :
    ∃ b, Runs defs T (.optional (.many1 g) backtrack) j (.success b) j ∧ (b = .null ∨ b = .list []) := by
  rcases h.many1_maximal with ⟨f, hend⟩ | hend
  · have hnone := Runs.optional_none backtrack hend
    rw [ite_self] at hnone
    exact ⟨.null, hnone, .inl rfl⟩
  · exact ⟨.list [], .optional_match hend, .inr rfl⟩

theorem ends_iff_of_runs_iff {g' : Grammar Empty} {c d : Cursor} {change : Verdict Value → Verdict Value}
    (hc : c.index ≤ c.tokens.size)
    (h : ∀ {j}, Runs defs c.tokens g' c.index w j ↔
      ∃ v, Runs defs c.tokens g c.index v j ∧ w = change v) :
    Ends hand defs g' c w d ↔ ∃ v, Ends hand defs g c v d ∧ w = change v := by
  simp only [ends_iff_runs hc, h]
  constructor
  · rintro ⟨⟨v, hv, rfl⟩, hd⟩
    exact ⟨v, ⟨hv, hd⟩, rfl⟩
  · rintro ⟨v, ⟨hv, hd⟩, rfl⟩
    exact ⟨⟨v, hv, rfl⟩, hd⟩

/-- **Laws of repetition.** They compare grammars that start from one cursor, anywhere within its tokens.

A repetition of a repetition ends, where no error is raised, as the repetition does and with the same
cursor: with its failure, with no matches if it has none, and otherwise with one match, which has all of
its. A repetition of an option never fails; it ends as the repetition does, or with no matches and the
cursor where it was if that fails. And a repetition that succeeded leaves nothing: an optional one after it
succeeds, has no matches, and does not move the cursor. -/
theorem repetition_laws (hand : Empty → Parser Value) (defs : Definitions Empty) (g : Grammar Empty)
    {c : Cursor} (hc : c.index ≤ c.tokens.size) :
    (∀ w d, (∀ e, w ≠ .raised e) → (Ends hand defs (.many1 (.many1 g)) c w d ↔
      ∃ v, Ends hand defs (.many1 g) c v d ∧ w = v.ofRepetition)) ∧
    ((∀ w d, Ends hand defs (.many1 (.optional g true)) c w d ↔
      ∃ v, Ends hand defs (.many1 g) c v d ∧ w = v.orEmpty) ∧
      (∀ f d, ¬ Ends hand defs (.many1 (.optional g true)) c (.failure f) d) ∧
      ∀ f d, Ends hand defs (.many1 g) c (.failure f) d → d = c) ∧
    ∀ a d, Ends hand defs (.many1 g) c (.success a) d → ∀ backtrack,
      ∃ b, Ends hand defs (.optional (.many1 g) backtrack) d (.success b) d ∧
        (b = .null ∨ b = .list []) := by
  have hoption (w : Verdict Value) (d : Cursor) : Ends hand defs (.many1 (.optional g true)) c w d ↔
      ∃ v, Ends hand defs (.many1 g) c v d ∧ w = v.orEmpty :=
    ends_iff_of_runs_iff hc runs_many1_optional_iff
  refine ⟨fun w d hw => ?_, ⟨hoption, fun f d h => ?_, fun f d h => ?_⟩, fun a d h backtrack => ?_⟩
  · exact ends_iff_of_runs_iff hc (runs_many1_many1_iff hc hw)
  · obtain ⟨v, -, heq⟩ := (hoption _ d).mp h
    cases v <;> cases heq
  · obtain ⟨hr, hd⟩ := (ends_iff_runs hc).mp h
    rw [hd, hr.many1_stays]
    rfl
  · have honward := h.onward (balanced_of_empty hand) hc
    obtain ⟨b, hb, hvalue⟩ := (runs_of_ends hc h).optional_many1_stays backtrack
    rw [← honward.tokens_eq] at hb
    exact ⟨b, (ends_iff_runs honward.within).mpr ⟨hb, rfl⟩, hvalue⟩

/-- Two pairs, and half of a third that is given back. -/
theorem repetition_laws_pairs :
    let a : Token := ⟨"A", "a", .start⟩
    let b : Token := ⟨"B", "b", .start⟩
    let c : Cursor := ⟨#[a, b, a, b, a], 0, [0]⟩
    let pair : Grammar Empty := .sequence [.oneOf "A" [], .oneOf "B" []]
    let ab := Value.ofList [.ofToken a, .ofToken b]
    c.index ≤ c.tokens.size ∧
      Ends nofun [] (.many1 pair) c (.success (.list [ab, ab])) (c.moveTo 4) ∧
      Ends nofun [] (.many1 (.many1 pair)) c (.success (.list [.list [ab, ab]])) (c.moveTo 4) ∧
      Ends nofun [] (.many1 (.optional pair true)) c (.success (.list [ab, ab])) (c.moveTo 4) ∧
      ∃ v, Ends nofun [] (.optional (.many1 pair) true) (c.moveTo 4) (.success v) (c.moveTo 4) := by
  intro a b c pair ab
  have hc : c.index ≤ c.tokens.size := by decide
  have hends : Ends nofun [] (.many1 pair) c (.success (.list [ab, ab])) (c.moveTo 4) := ⟨3, rfl⟩
  obtain ⟨hnested, ⟨hoption, -⟩, hmaximal⟩ := repetition_laws nofun [] pair hc
  obtain ⟨v, hv, -⟩ := hmaximal _ _ hends true
  refine ⟨hc, hends, ?_, (hoption _ _).mpr ⟨_, hends, rfl⟩, v, hv⟩
  exact (hnested (.success (.list [.list [ab, ab]])) _ nofun).mpr ⟨_, hends, rfl⟩

end Grammar

end Descent
