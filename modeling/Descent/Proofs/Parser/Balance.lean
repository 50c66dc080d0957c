import Descent.Parser.Combinators
import Descent.Parser.Tokens

/-!
# Balanced parsers

A parser is *balanced* if, from any cursor within its tokens, all it does to the cursor is to move it
on: the tokens and the stored positions are afterwards what they were, and the index is not smaller
and not beyond the end. This must hold of every way in which the parser ends.

* The parsers of one token are balanced, and every combinator builds balanced parsers out of
  balanced ones. The lemmas are in the order of the combinators.
* Over a balanced parser a speculation does what it is meant to do. `attempt_of_balanced` and
  `round_of_balanced` say so without a word about slots, `choice_cons` and `many1_of_balanced` are
  the laws that unroll a choice and a repetition by one step. All that is proved of a grammar later
  goes through these four.
-/

namespace Descent

/-! ### What becomes of a verdict -/

namespace Verdict

variable {α β : Type}

/-- Whether the parser matched. -/
def matched : Verdict α → Bool
  | success _ => true
  | failure _ => false
  | raised _ => false

/-- The verdict with its value passed through a function. -/
def map (f : α → β) : Verdict α → Verdict β
  | success a => success (f a)
  | failure g => failure g
  | raised e => raised e

/-- A success with the value, or the error. -/
def ofExcept : Except Error α → Verdict α
  | .ok a => success a
  | .error e => raised e

theorem ofExcept_eq_raised_iff {r : Except Error α} {e : Error} :
    ofExcept r = .raised e ↔ r = .error e := by
  cases r <;> simp [ofExcept]

theorem ofExcept_ne_failure {r : Except Error α} {f : Failure} : ofExcept r ≠ .failure f := by
  cases r <;> nofun

/-- The verdict with its value passed through a function that may raise. -/
def through (f : α → Except Error β) : Verdict α → Verdict β
  | success a => ofExcept (f a)
  | failure g => failure g
  | raised e => raised e

theorem through_of_not_matched {v : Verdict α} (hv : v.matched = false) (f : α → Except Error α) :
    v.through f = v := by
  cases v with
  | success a => cases hv
  | failure g => rfl
  | raised e => rfl

/-- The verdict with a label on its failure. -/
def labelled (text : String) : Verdict α → Verdict α
  | success a => success a
  | failure g => failure (g.withLabel text)
  | raised e => raised e

/-- A label leaves a match as it is. -/
theorem success_eq_labelled {text : String} {v : Verdict α} {a : α} :
    .success a = v.labelled text ↔ .success a = v := by
  cases v <;> simp [labelled]

/-- A label leaves an error as it is. -/
theorem raised_eq_labelled {text : String} {v : Verdict α} {e : Error} :
    .raised e = v.labelled text ↔ .raised e = v := by
  cases v <;> simp [labelled]

/-- The verdict of an option: a failure is no value. -/
def option : Verdict α → Verdict (Option α)
  | success a => success (some a)
  | failure _ => success none
  | raised e => raised e

/-- The verdict of a choice whose first alternative failed with `f` and whose others end so. -/
def orElse (f : Failure) : Verdict α → Verdict α
  | success a => success a
  | failure g => failure (Parser.deeper f g)
  | raised e => raised e

/-- The verdict of a repetition that matched `a` and goes on to end so. A failure after a match only
ends the repetition. -/
def follow (a : α) : Verdict (List α) → Verdict (List α)
  | success as => success (a :: as)
  | failure _ => success [a]
  | raised e => raised e

end Verdict

/-! ### Moving on -/

namespace Cursor

variable {c d e : Cursor}

/-- The cursor at another index. -/
def moveTo (c : Cursor) (i : Nat) : Cursor := { c with index := i }

@[simp] theorem tokens_moveTo (c : Cursor) (i : Nat) : (c.moveTo i).tokens = c.tokens := rfl

@[simp] theorem index_moveTo (c : Cursor) (i : Nat) : (c.moveTo i).index = i := rfl

@[simp] theorem saved_moveTo (c : Cursor) (i : Nat) : (c.moveTo i).saved = c.saved := rfl

@[simp] theorem tokens_store (c : Cursor) : c.store.tokens = c.tokens := rfl

/-- `d` is `c` moved on: the same but for the index, which is not smaller and not beyond the end. -/
structure Onward (c d : Cursor) : Prop where
  eq_moveTo : d = c.moveTo d.index
  index_le : c.index ≤ d.index
  index_le_size : d.index ≤ c.tokens.size

theorem Onward.refl (h : c.index ≤ c.tokens.size) : c.Onward c := ⟨rfl, Nat.le_refl _, h⟩

theorem Onward.tokens_eq (h : c.Onward d) : d.tokens = c.tokens := by rw [h.eq_moveTo, tokens_moveTo]

theorem Onward.saved_eq (h : c.Onward d) : d.saved = c.saved := by rw [h.eq_moveTo, saved_moveTo]

/-- Where a cursor moved on to, it is again within its tokens. -/
theorem Onward.within (h : c.Onward d) : d.index ≤ d.tokens.size := by
  rw [h.tokens_eq]
  exact h.index_le_size

theorem Onward.trans (h : c.Onward d) (h' : d.Onward e) : c.Onward e := by
  refine ⟨?_, Nat.le_trans h.index_le h'.index_le, ?_⟩
  · rw [h'.eq_moveTo, h.eq_moveTo]
    rfl
  · rw [← h.tokens_eq]
    exact h'.index_le_size

theorem onward_advance {t : Token} (h : c.peek = some t) : c.Onward c.advance := by
  obtain ⟨hlt, -⟩ := Array.getElem?_eq_some_iff.mp h
  exact ⟨rfl, Nat.le_succ _, hlt⟩

/-- A cursor that moved over a stored position can drop it, or go back to it. -/
theorem clear_of_eq_moveTo (h : d = c.store.moveTo d.index) : d.clear = .ok (c.moveTo d.index) := by
  rw [h]
  rfl

theorem restore_of_eq_moveTo (h : d = c.store.moveTo d.index) : d.restore = .ok c := by
  rw [h]
  rfl

/-- What moved on over a stored position moved on without it. -/
theorem Onward.moveTo_of_store (h : c.store.Onward d) : c.Onward (c.moveTo d.index) :=
  ⟨rfl, h.index_le, h.index_le_size⟩

end Cursor

namespace Parser

variable {α β : Type} {p q : Parser α} {c : Cursor}

/-- From a cursor within its tokens the parser only moves on, however it ends. -/
def Balanced (p : Parser α) : Prop :=
  ∀ ⦃c : Cursor⦄ ⦃v : Verdict α⦄ ⦃d : Cursor⦄, c.index ≤ c.tokens.size → p c = some (v, d) → c.Onward d

/-- From this cursor all that the parser does is to move the cursor, wherever to and however it ends. -/
def MovesOnly (p : Parser α) (c : Cursor) : Prop :=
  ∀ ⦃v : Verdict α⦄ ⦃d : Cursor⦄, p c = some (v, d) → d = c.moveTo d.index

/-- The same with the index stored before the parser is run. -/
theorem Balanced.onward_store (hp : Balanced p) (hc : c.index ≤ c.tokens.size) {v : Verdict α}
    {d : Cursor} (h : p c.store = some (v, d)) : c.store.Onward d := hp (c := c.store) hc h

theorem Balanced.movesOnly_store (hp : Balanced p) (hc : c.index ≤ c.tokens.size) :
    MovesOnly p c.store :=
  fun _ _ h => (hp.onward_store hc h).eq_moveTo

/-! ### Verdicts without a look at the tokens -/

theorem balanced_always (a : α) : Balanced (always a) := by
  rintro c v d hc ⟨⟩
  exact .refl hc

theorem balanced_raise (e : Error) : Balanced (raise e : Parser α) := by
  rintro c v d hc ⟨⟩
  exact .refl hc

theorem balanced_unfinished : Balanced (unfinished : Parser α) := by
  rintro c v d hc ⟨⟩

theorem balanced_ofExcept (r : Except Error α) : Balanced (ofExcept r) := by
  cases r with
  | ok a => exact balanced_always a
  | error e => exact balanced_raise e

theorem ofExcept_apply (r : Except Error α) (c : Cursor) :
    ofExcept r c = some (.ofExcept r, c) := by
  cases r <;> rfl

/-! ### One parser after another -/

theorem Balanced.bind {f : α → Parser β} (hp : Balanced p) (hf : ∀ a, Balanced (f a)) :
    Balanced (p.bind f) := by
  intro c v d hc h
  unfold Parser.bind at h
  split at h
  · cases h
  · next a e hpe =>
      have he := hp hc hpe
      exact he.trans (hf a he.within h)
  · next hpe => cases h; exact hp hc hpe
  · next hpe => cases h; exact hp hc hpe

/-- If one parser after another fails, the first of them fails, or the second. -/
theorem failure_of_bind {f : α → Parser β} {g : Failure} {d : Cursor}
    (h : p.bind f c = some (.failure g, d)) : p c = some (.failure g, d) ∨
      ∃ a e, p c = some (.success a, e) ∧ f a e = some (.failure g, d) := by
  unfold Parser.bind at h
  split at h
  · cases h
  · next a e hpe => exact Or.inr ⟨a, e, hpe, h⟩
  · next hpe => cases h; exact Or.inl hpe
  · cases h

theorem map_apply (f : α → β) (p : Parser α) (c : Cursor) :
    (f <$> p) c = (p c).map fun (v, d) => (v.map f, d) := by
  show Parser.bind p _ c = _
  unfold Parser.bind
  split <;> simp_all [Verdict.map, always]

theorem mapM_apply (f : α → Except Error β) (p : Parser α) (c : Cursor) :
    mapM f p c = (p c).map fun (v, d) => (v.through f, d) := by
  unfold mapM Parser.bind
  split <;> simp_all [Verdict.through, ofExcept_apply]

theorem Balanced.map (hp : Balanced p) (f : α → β) : Balanced (f <$> p) :=
  hp.bind fun a => balanced_always (f a)

theorem Balanced.mapM (hp : Balanced p) (f : α → Except Error β) : Balanced (mapM f p) :=
  hp.bind fun a => balanced_ofExcept (f a)

/-! ### Parsers of one token -/

theorem balanced_failHere (message code : String) : Balanced (failHere message code : Parser α) := by
  rintro c v d hc ⟨⟩
  exact .refl hc

section TokenWith

variable {ok : TokenType → Bool} {expectation : String} {c d : Cursor} {t : Token}
  {v : Verdict Token}

theorem tokenWith_match (ht : c.peek = some t) (hok : ok t.type = true) :
    tokenWith ok expectation c = some (.success t, c.advance) := by
  unfold tokenWith
  rw [ht]
  exact if_pos hok

theorem tokenWith_mismatch (hno : ∀ t, c.peek = some t → ok t.type = false) :
    tokenWith ok expectation c =
      some (.failure
        { message := expectation ++ ", but got " ++ describe c.peek
          position := c.errorPosition }, c) := by
  unfold tokenWith
  rcases ht : c.peek with _ | t
  · rfl
  · simp only [hno t ht]
    rfl

/-- Either the token under the cursor is accepted and taken, or no token is accepted, and the cursor
stays. -/
theorem tokenWith_cases (h : tokenWith ok expectation c = some (v, d)) :
    (∃ t, c.peek = some t ∧ ok t.type = true ∧ v = .success t ∧ d = c.advance) ∨
    ((∀ t, c.peek = some t → ok t.type = false) ∧ d = c ∧
      v = .failure
        { message := expectation ++ ", but got " ++ describe c.peek
          position := c.errorPosition }) := by
  by_cases hm : ∃ t, c.peek = some t ∧ ok t.type = true
  · obtain ⟨t, ht, hok⟩ := hm
    rw [tokenWith_match ht hok] at h
    cases h
    exact .inl ⟨t, ht, hok, rfl, rfl⟩
  · have hno : ∀ t, c.peek = some t → ok t.type = false := by
      intro t ht
      rw [Bool.eq_false_iff]
      exact fun hok => hm ⟨t, ht, hok⟩
    rw [tokenWith_mismatch hno] at h
    cases h
    exact .inr ⟨hno, rfl, rfl⟩

theorem balanced_tokenWith (ok : TokenType → Bool) (expectation : String) :
    Balanced (tokenWith ok expectation) := by
  intro c v d hc h
  obtain ⟨t, ht, -, -, rfl⟩ | ⟨-, rfl, -⟩ := tokenWith_cases h
  · exact Cursor.onward_advance ht
  · exact .refl hc

end TokenWith

/-- Either no token is left, or the token under the cursor stands for the end and is taken, or it is
another one, and the cursor stays. -/
theorem endOfInput_cases {c d : Cursor} {v : Verdict Unit} (h : endOfInput c = some (v, d)) :
    (c.peek = none ∧ v = .success () ∧ d = c) ∨
    (∃ t, c.peek = some t ∧ t.type = endOfInputType ∧ v = .success () ∧ d = c.advance) ∨
    (∃ t, c.peek = some t ∧ t.type ≠ endOfInputType ∧ d = c ∧
      v = .failure
        { message := "Expected end of input, but got token of type " ++ t.type
          position := c.errorPosition
          code := DiagnosticSpec.trailingInput.code }) := by
  unfold endOfInput at h
  split at h
  · next ht =>
      cases h
      exact .inl ⟨ht, rfl, rfl⟩
  · next t ht =>
      split at h
      · next hm =>
          cases h
          exact .inr (.inl ⟨t, ht, hm, rfl, rfl⟩)
      · next hm =>
          cases h
          exact .inr (.inr ⟨t, ht, hm, rfl, rfl⟩)

theorem balanced_endOfInput : Balanced endOfInput := by
  intro c v d hc h
  obtain ⟨-, -, rfl⟩ | ⟨t, ht, -, -, rfl⟩ | ⟨t, -, -, rfl, -⟩ := endOfInput_cases h
  · exact .refl hc
  · exact Cursor.onward_advance ht
  · exact .refl hc

/-! ### Sequences -/

theorem balanced_sequence {ps : List (Parser α)} (h : ∀ p ∈ ps, Balanced p) :
    Balanced (sequence ps) := by
  induction ps with
  | nil => exact balanced_always []
  | cons p ps ih =>
      have hps : Balanced (sequence ps) := ih fun q hq => h q (List.mem_cons_of_mem p hq)
      exact (h p List.mem_cons_self).bind fun a => hps.bind fun as => balanced_always (a :: as)

/-! ### Speculation -/

/-- An attempt keeps the progress of a match, and stays where it began otherwise. -/
theorem attempt_of_movesOnly (hp : MovesOnly p c.store) :
    attempt p c = (p c.store).map fun (v, d) => (v, if v.matched then c.moveTo d.index else c) := by
  rw [attempt_apply]
  cases h : p c.store with
  | none => rfl
  | some r =>
      obtain ⟨v, d⟩ := r
      have hd := hp h
      cases v <;> simp [Cursor.clear_of_eq_moveTo hd, Cursor.restore_of_eq_moveTo hd, Verdict.matched]

theorem attempt_of_balanced (hp : Balanced p) (hc : c.index ≤ c.tokens.size) :
    attempt p c = (p c.store).map fun (v, d) => (v, if v.matched then c.moveTo d.index else c) :=
  attempt_of_movesOnly (hp.movesOnly_store hc)

theorem Balanced.attempt (hp : Balanced p) : Balanced (attempt p) := by
  intro c v d hc h
  rw [attempt_of_balanced hp hc] at h
  obtain ⟨⟨w, e⟩, he, heq⟩ := Option.map_eq_some_iff.mp h
  have hon := hp.onward_store hc he
  cases heq
  split
  · exact hon.moveTo_of_store
  · exact .refl hc

/-! ### Choice -/

/-- Of three failures the deepest, the first of equals, is found in either order. -/
theorem deeper_assoc (f g h : Failure) : deeper (deeper f g) h = deeper f (deeper g h) := by
  unfold deeper ErrorPosition.DeeperThan
  grind

/-- The alternatives after a failure are a choice whose failure counts if it is deeper. -/
theorem choiceAfter_cons (f : Failure) (p : Parser α) (ps : List (Parser α)) (c : Cursor) :
    choiceAfter f (p :: ps) c = (choice p ps c).map fun (v, d) => (v.orElse f, d) := by
  induction ps generalizing f p c with
  | nil =>
      rw [choiceAfter, choice]
      dsimp only
      rcases attempt p c with _ | ⟨v, d⟩
      · rfl
      · cases v <;> rfl
  | cons q qs ih =>
      rw [choiceAfter, choice]
      dsimp only
      rcases attempt p c with _ | ⟨v, d⟩
      · rfl
      · cases v with
        | success a => rfl
        | raised e => rfl
        | failure g =>
            -- `f` is compared before the rest or after it.
            simp only
            rw [ih, ih, Option.map_map]
            congr 1
            funext ⟨w, e⟩
            cases w <;> simp [Verdict.orElse, deeper_assoc]

/-- A choice of one is an attempt. -/
theorem choice_nil (p : Parser α) : choice p [] = attempt p := by
  funext c
  rw [choice]
  rcases attempt p c with _ | ⟨v, d⟩
  · rfl
  · cases v <;> rfl

/-- **A choice, unrolled.** If the first alternative fails, the others are a choice that begins in the
same place. -/
theorem choice_cons (hp : Balanced p) (hc : c.index ≤ c.tokens.size) (q : Parser α)
    (qs : List (Parser α)) :
    choice p (q :: qs) c = (p c.store).bind fun
      | (.success a, d) => some (.success a, c.moveTo d.index)
      | (.failure f, _) => (choice q qs c).map fun (v, d) => (v.orElse f, d)
      | (.raised e, _) => some (.raised e, c) := by
  rw [choice, attempt_of_balanced hp hc]
  rcases p c.store with _ | ⟨v, d⟩
  · rfl
  · cases v with
    | success a => rfl
    | raised e => rfl
    | failure f => exact choiceAfter_cons f q qs c

theorem balanced_choice {ps : List (Parser α)} (hp : Balanced p) (h : ∀ q ∈ ps, Balanced q) :
    Balanced (choice p ps) := by
  induction ps generalizing p with
  | nil =>
      rw [choice_nil]
      exact hp.attempt
  | cons q qs ih =>
      intro c v d hc hd
      rw [choice_cons hp hc] at hd
      obtain ⟨⟨w, e⟩, he, hd⟩ := Option.bind_eq_some_iff.mp hd
      cases w with
      | success a =>
          cases hd
          exact (hp.onward_store hc he).moveTo_of_store
      | raised e' =>
          cases hd
          exact .refl hc
      | failure f =>
          have hqs : Balanced (choice q qs) :=
            ih (h q List.mem_cons_self) fun r hr => h r (List.mem_cons_of_mem q hr)
          obtain ⟨⟨w, d'⟩, hd', heq⟩ := Option.map_eq_some_iff.mp hd
          cases heq
          exact hqs hc hd'

/-! ### Repetition -/

/-- A round keeps the progress of a match, and undoes everything else. -/
theorem round_of_movesOnly (hp : MovesOnly p c.store) :
    round p c = (p c.store).map fun
      | (.success a, d) =>
        if c.index < d.index then (.success (.matched a), c.moveTo d.index) else (.success .idle, c)
      | (.failure f, _) => (.success (.halted f), c)
      | (.raised e, _) => (.raised e, c) := by
  rw [round_apply]
  rcases h : p c.store with _ | ⟨v, d⟩
  · rfl
  · have hclear := Cursor.clear_of_eq_moveTo (hp h)
    have hrestore := Cursor.restore_of_eq_moveTo (hp h)
    cases v with
    | success a => by_cases hlt : c.index < d.index <;> simp [hlt, hclear, hrestore]
    | failure f => simp [hrestore]
    | raised e => simp [hrestore]

theorem round_of_balanced (hp : Balanced p) (hc : c.index ≤ c.tokens.size) :
    round p c = (p c.store).map fun
      | (.success a, d) =>
        if c.index < d.index then (.success (.matched a), c.moveTo d.index) else (.success .idle, c)
      | (.failure f, _) => (.success (.halted f), c)
      | (.raised e, _) => (.raised e, c) :=
  round_of_movesOnly (hp.movesOnly_store hc)

/-- A round does not fail: a failure in it is one way in which it goes. -/
theorem round_ne_failure (p : Parser α) (c d : Cursor) (f : Failure) :
    round p c ≠ some (.failure f, d) := by
  intro h
  rw [round_apply] at h
  obtain ⟨⟨v, e⟩, -, heq⟩ := Option.map_eq_some_iff.mp h
  cases v <;> simp only at heq <;> grind

theorem rounds_ne_failure (p : Parser α) (n : Nat) (c d : Cursor) (f : Failure) :
    rounds p n c ≠ some (.failure f, d) := by
  induction n generalizing c d with
  | zero => exact nofun
  | succ n ih =>
      intro h
      rcases failure_of_bind h with hr | ⟨w, e, -, hr⟩
      · exact round_ne_failure p c d f hr
      · cases w with
        | idle => cases hr
        | halted g => cases hr
        | matched a =>
            rcases failure_of_bind hr with hr | ⟨_, _, -, hr⟩
            · exact ih e d hr
            · cases hr

/-- More rounds than `roundBound` change nothing: every round that is followed by another consumed a
token. -/
theorem rounds_of_le (hp : Balanced p) {n m : Nat} (hc : c.index ≤ c.tokens.size)
    (hn : roundBound c ≤ n) (hm : roundBound c ≤ m) : rounds p n c = rounds p m c := by
  induction n generalizing m c with
  | zero => exact absurd hn (Nat.not_succ_le_zero _)
  | succ n ih =>
      obtain ⟨m, rfl⟩ : ∃ k, m = k + 1 := ⟨m - 1, by unfold roundBound at hm; omega⟩
      rw [rounds, rounds, Parser.bind, Parser.bind, round_of_balanced hp hc]
      rcases h : p c.store with _ | ⟨v, d⟩
      · rfl
      · have hd : c.Onward (c.moveTo d.index) := (hp.onward_store hc h).moveTo_of_store
        cases v with
        | failure f => rfl
        | raised e => rfl
        | success a =>
            by_cases hlt : c.index < d.index
            -- The match consumed a token: from where it ended, one round less is enough for both.
            · have hle : roundBound (c.moveTo d.index) ≤ n ∧ roundBound (c.moveTo d.index) ≤ m := by
                have := hd.index_le_size
                simp only [roundBound, Cursor.tokens_moveTo, Cursor.index_moveTo] at *
                omega
              have heq := ih (m := m) hd.within hle.1 hle.2
              simp only [Option.map_some, hlt, if_true, Parser.bind, heq]
            · simp [hlt]

/-- **A repetition, unrolled.** After a match that consumed something, the rest is a repetition that
begins where the match ended. -/
theorem many1_of_balanced (hp : Balanced p) (hc : c.index ≤ c.tokens.size) :
    many1 p c = (p c.store).bind fun
      | (.success a, d) =>
        if c.index < d.index then
          (many1 p (c.moveTo d.index)).map fun (v, e) => (v.follow a, e)
        else some (.success [], c)
      | (.failure f, _) => some (.failure f, c)
      | (.raised e, _) => some (.raised e, c) := by
  rw [many1, roundBound, rounds, bind_assoc, Parser.bind, round_of_balanced hp hc]
  rcases h : p c.store with _ | ⟨v, d⟩
  · rfl
  · have hd : c.Onward (c.moveTo d.index) := (hp.onward_store hc h).moveTo_of_store
    cases v with
    | failure f => rfl
    | raised e => rfl
    | success a =>
        by_cases hlt : c.index < d.index
        -- The rounds that are left are at least those that a repetition from there is given.
        · have hle : roundBound (c.moveTo d.index) ≤ c.tokens.size - c.index := by
            have := hd.index_le_size
            simp only [roundBound, Cursor.tokens_moveTo, Cursor.index_moveTo] at *
            omega
          have heq := rounds_of_le hp hd.within hle (Nat.le_refl _)
          simp only [Option.map_some, hlt, if_true, Option.bind_some, bind_assoc, many1]
          rw [Parser.bind, Parser.bind, heq]
          rcases hr : rounds p (roundBound (c.moveTo d.index)) (c.moveTo d.index) with _ | ⟨w, e⟩
          · rfl
          · rcases w with ⟨as, last⟩ | f | e'
            · rcases as with _ | ⟨b, bs⟩
              · cases last <;> rfl
              · rfl
            · exact absurd hr (rounds_ne_failure p _ _ e f)
            · rfl
        · simp [hlt, Parser.bind, always]

theorem Balanced.many1 (hp : Balanced p) : Balanced (many1 p) := by
  intro c v d hc h
  -- Along the law that unrolls the repetition: what is left to the end of the tokens gets less.
  induction hk : c.tokens.size - c.index using Nat.strongRecOn generalizing c v d with
  | _ k ih =>
      rw [many1_of_balanced hp hc] at h
      obtain ⟨⟨w, e⟩, he, h⟩ := Option.bind_eq_some_iff.mp h
      have hon := hp.onward_store hc he
      cases w with
      | failure f => cases h; exact .refl hc
      | raised e' => cases h; exact .refl hc
      | success a =>
          dsimp only at h
          split at h
          · next hlt =>
              obtain ⟨⟨w, e'⟩, he', heq⟩ := Option.map_eq_some_iff.mp h
              cases heq
              have hm := hon.moveTo_of_store
              refine hm.trans (ih _ ?_ hm.within he' rfl)
              have := hon.index_le_size
              simp only [Cursor.tokens_moveTo, Cursor.index_moveTo, Cursor.tokens_store] at *
              omega
          · cases h; exact .refl hc

/-! ### One parser changed -/

theorem optional_apply (p : Parser α) (backtrack : Bool) (c : Cursor) :
    optional p backtrack c =
      ((if backtrack then attempt p else p) c).map fun (v, d) => (v.option, d) := by
  unfold optional
  rcases (if backtrack then attempt p else p) c with _ | ⟨v, d⟩
  · rfl
  · cases v <;> rfl

theorem label_apply (text : String) (p : Parser α) (c : Cursor) :
    label text p c = (p c).map fun (v, d) => (v.labelled text, d) := by
  unfold label
  rcases p c with _ | ⟨v, d⟩
  · rfl
  · cases v <;> rfl

/-- Changing the verdict of a parser keeps it balanced. -/
theorem Balanced.of_apply_eq_map {q : Parser β} {change : Verdict α → Verdict β} (hp : Balanced p)
    (hq : ∀ c, q c = (p c).map fun (v, d) => (change v, d)) : Balanced q := by
  intro c v d hc h
  rw [hq c] at h
  obtain ⟨⟨w, e⟩, he, heq⟩ := Option.map_eq_some_iff.mp h
  cases heq
  exact hp hc he

theorem Balanced.optional (hp : Balanced p) (backtrack : Bool) : Balanced (optional p backtrack) := by
  refine Balanced.of_apply_eq_map ?_ (optional_apply p backtrack)
  cases backtrack
  · exact hp
  · exact hp.attempt

theorem Balanced.label (hp : Balanced p) (text : String) : Balanced (label text p) :=
  hp.of_apply_eq_map (label_apply text p)

end Parser

end Descent
