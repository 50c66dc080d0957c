import Descent.Grammar.Run

/-!
# More levels keep every answer

A run that ends within some number of levels ends in the same way within every larger number. Here
this is an order on parsers: `p.Below q` says that `q` answers whatever `p` answers. Every combinator
keeps the order, so `parser_below_succ` is one case for each constructor of grammars. Nothing is
assumed of parsers written by hand.
-/

namespace Descent

namespace Parser

variable {α β ι : Type} {p q : Parser α} {F G : ι → Parser α}

/-- Where `p` has an answer, `q` has the same. -/
def Below (p q : Parser α) : Prop := ∀ ⦃c r⦄, p c = some r → q c = some r

theorem Below.refl (p : Parser α) : Below p p := fun _ _ h => h

theorem Below.trans {r : Parser α} (h : Below p q) (h' : Below q r) : Below p r :=
  fun _ _ hc => h' (h hc)

theorem unfinished_below (p : Parser α) : Below unfinished p := fun _ _ h => nomatch h

/-- An answer that is passed on keeps the order. -/
theorem Below.map_eq_some {γ : Type} (h : Below p q) {c : Cursor} {k : Verdict α × Cursor → γ}
    {r : γ} (hr : (p c).map k = some r) : (q c).map k = some r := by
  obtain ⟨s, hs, rfl⟩ := Option.map_eq_some_iff.mp hr
  rw [h hs, Option.map_some]

theorem Below.bind {f g : α → Parser β} (h : Below p q) (hf : ∀ a, Below (f a) (g a)) :
    Below (p.bind f) (q.bind g) := by
  intro c r hr
  unfold Parser.bind at hr ⊢
  rcases hp : p c with _ | ⟨v, d⟩ <;> rw [hp] at hr
  · cases hr
  · rw [h hp]
    cases v with
    | success a => exact hf a hr
    | failure f => exact hr
    | raised e => exact hr

theorem Below.mapM (h : Below p q) (f : α → Except Error β) : Below (mapM f p) (mapM f q) :=
  h.bind fun a => .refl (ofExcept (f a))

theorem Below.map (h : Below p q) (f : α → β) : Below (f <$> p) (f <$> q) :=
  h.bind fun a => .refl (always (f a))

theorem Below.sequence (h : ∀ x, Below (F x) (G x)) (xs : List ι) :
    Below (sequence (xs.map F)) (sequence (xs.map G)) := by
  induction xs with
  | nil => exact .refl _
  | cons x xs ih => exact (h x).bind fun a => ih.bind fun as => .refl (always (a :: as))

theorem speculate_below {b b' : Slot → Cursor → Option (Verdict α × Slot × Cursor)}
    (h : ∀ slot c r, b slot c = some r → b' slot c = some r) :
    Below (speculate b) (speculate b') := by
  intro c s hs
  obtain ⟨r, hr, hs⟩ := Option.map_eq_some_iff.mp hs
  exact Option.map_eq_some_iff.mpr ⟨r, h _ _ r hr, hs⟩

theorem Below.attempt (h : Below p q) : Below (attempt p) (attempt q) :=
  speculate_below fun _ _ _ hr => h.map_eq_some hr

theorem Below.round (h : Below p q) : Below (round p) (round q) :=
  speculate_below fun _ _ _ hr => h.map_eq_some hr

theorem Below.choiceAfter (h : ∀ x, Below (F x) (G x)) (f : Failure) (xs : List ι) :
    Below (choiceAfter f (xs.map F)) (choiceAfter f (xs.map G)) := by
  induction xs generalizing f with
  | nil => exact .refl _
  | cons x xs ih =>
      intro c r hr
      rw [List.map_cons, Parser.choiceAfter] at hr ⊢
      dsimp only at hr ⊢
      rcases hp : Parser.attempt (F x) c with _ | ⟨v, d⟩ <;> rw [hp] at hr
      · cases hr
      · rw [(h x).attempt hp]
        cases v with
        | failure g => exact ih (deeper f g) hr
        | success a => exact hr
        | raised e => exact hr

theorem Below.choice (h : Below p q) (hs : ∀ x, Below (F x) (G x)) (xs : List ι) :
    Below (choice p (xs.map F)) (choice q (xs.map G)) := by
  intro c r hr
  rw [Parser.choice] at hr ⊢
  rcases hp : Parser.attempt p c with _ | ⟨v, d⟩ <;> rw [hp] at hr
  · cases hr
  · rw [h.attempt hp]
    cases v with
    | failure g => exact Below.choiceAfter hs g xs hr
    | success a => exact hr
    | raised e => exact hr

theorem Below.rounds (h : Below p q) (n : Nat) : Below (rounds p n) (rounds q n) := by
  induction n with
  | zero => exact .refl _
  | succ n ih =>
      refine h.round.bind fun w => ?_
      cases w with
      | matched a => exact ih.bind fun _ => .refl _
      | idle => exact .refl _
      | halted f => exact .refl _

theorem Below.many1 (h : Below p q) : Below (many1 p) (many1 q) :=
  fun c _ hr => (h.rounds (roundBound c)).bind (fun _ => .refl _) hr

theorem Below.optional (h : Below p q) (backtrack : Bool) :
    Below (optional p backtrack) (optional q backtrack) := by
  have hb : Below (if backtrack then Parser.attempt p else p)
      (if backtrack then Parser.attempt q else q) := by
    cases backtrack
    · exact h
    · exact h.attempt
  intro c r hr
  unfold Parser.optional at hr ⊢
  rcases hp : (if backtrack then Parser.attempt p else p) c with _ | ⟨v, d⟩ <;> rw [hp] at hr
  · cases hr
  · rw [hb hp]
    exact hr

theorem Below.label (h : Below p q) (text : String) : Below (label text p) (label text q) := by
  intro c r hr
  unfold Parser.label at hr ⊢
  rcases hp : p c with _ | ⟨v, d⟩ <;> rw [hp] at hr
  · cases hr
  · rw [h hp]
    exact hr

end Parser

namespace Grammar

variable {κ : Type} {hand : κ → Parser Value} {defs : Definitions κ}

/-- One more level keeps every answer. -/
theorem parser_below_succ (n : Nat) (g : Grammar κ) :
    Parser.Below (parser hand defs n g) (parser hand defs (n + 1) g) := by
  induction n generalizing g with
  | zero => exact Parser.unfinished_below _
  | succ n ih =>
      cases g with
      | oneOf | noneOf | endOfInput | custom => exact .refl _
      | sequence parts => exact (Parser.Below.sequence ih parts).map _
      | choice first others => exact (ih first).choice ih others
      | many1 inner => exact (ih inner).many1.map _
      | optional inner backtrack => exact ((ih inner).optional backtrack).map _
      | attempt inner => exact (ih inner).attempt
      | label text inner => exact (ih inner).label text
      | map f inner => exact (ih inner).mapM f
      | combine f parts => exact (Parser.Below.sequence ih parts).mapM f
      | ref name =>
          intro c r hr
          rcases hd : defs.find? name with _ | g <;> simp only [parser, hd] at hr ⊢
          · exact hr
          · exact ih g hr

/-- **More levels keep every answer.** -/
theorem parser_below {n m : Nat} (h : n ≤ m) (g : Grammar κ) :
    Parser.Below (parser hand defs n g) (parser hand defs m g) := by
  induction h with
  | refl => exact .refl _
  | step _ ih => exact ih.trans (parser_below_succ _ g)

/-- A run has one answer, whatever levels it is given. -/
theorem parser_unique {n m : Nat} {g : Grammar κ} {c : Cursor} {r s : Verdict Value × Cursor}
    (hn : parser hand defs n g c = some r) (hm : parser hand defs m g c = some s) : r = s := by
  have hr := parser_below (Nat.le_max_left n m) g hn
  have hs := parser_below (Nat.le_max_right n m) g hm
  exact Option.some.inj (hr.symm.trans hs)

end Grammar

end Descent
