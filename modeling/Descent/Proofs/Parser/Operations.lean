import Descent.Parser.Custom
import Descent.Proofs.Cursor.Order
import Descent.Proofs.Parser.Balance

/-!
# Parsers and the operations of a cursor

A parser has nothing of a cursor but its operations. Whatever it does by them, it stays among the
cursors that operations come to, and these are exactly the cursors in order
(`Cursor.ordered_iff_steps`).

* A parser *operates* if it brings a cursor anywhere by operations only. It may leave stored positions
  behind, and take away those of others. Parsers written by hand operate (`operates_script`), and so do
  parsers that are balanced.
* A parser is *positional* if it ends everywhere, leaves the stored positions as they were, does not
  end before its start, and is decided by the tokens and the index alone.
-/

namespace Descent

namespace Cursor

variable {c d : Cursor} {i : Nat}

/-- Consuming brings a cursor to any index up to the end. -/
theorem steps_moveTo (hle : c.index ≤ i) (hi : i ≤ c.tokens.size) : Steps c (c.moveTo i) := by
  induction hle with
  | refl => exact .refl
  | step _ ih => exact (ih (Nat.le_of_succ_le hi)).tail (.advance hi)

theorem Ordered.moveTo (hc : c.Ordered) (hle : c.index ≤ i) (hi : i ≤ c.tokens.size) :
    (c.moveTo i).Ordered := (steps_moveTo hle hi).ordered hc

theorem Ordered.store (hc : c.Ordered) : c.store.Ordered := Step.store.ordered hc

/-- **The cursors in order are those that operations come to.** -/
theorem ordered_iff_steps : c.Ordered ↔ Steps (.ofTokens c.tokens) c := by
  constructor
  · intro hc
    obtain ⟨tokens, index, saved⟩ := c
    -- The stack is built from the bottom: each index is consumed up to, and stored there.
    induction saved generalizing index with
    | nil => exact steps_moveTo (c := .ofTokens tokens) (Nat.zero_le index) hc.index_le_size
    | cons i rest ih =>
        have hle : i ≤ index := hc.le_index List.mem_cons_self
        have hrest : (⟨tokens, i, rest⟩ : Cursor).Ordered :=
          ⟨Nat.le_trans hle hc.index_le_size, hc.saved_sorted⟩
        have hstored : Steps (.ofTokens tokens) ⟨tokens, i, i :: rest⟩ := (ih i hrest).tail .store
        exact hstored.trans (steps_moveTo (c := ⟨tokens, i, i :: rest⟩) hle hc.index_le_size)
  · intro hc
    exact hc.ordered (ordered_ofTokens c.tokens)

/-- To move on is to leave the stored positions as they were and not to end before the start, as far
as operations come. -/
theorem onward_iff_steps (hc : c.Ordered) :
    c.Onward d ↔ Steps c d ∧ d.saved = c.saved ∧ c.index ≤ d.index := by
  constructor
  · intro h
    refine ⟨?_, h.saved_eq, h.index_le⟩
    rw [h.eq_moveTo]
    exact steps_moveTo h.index_le h.index_le_size
  · rintro ⟨hsteps, hsaved, hle⟩
    have htokens : d.tokens = c.tokens := hsteps.tokens_eq
    refine ⟨?_, hle, htokens ▸ (hsteps.ordered hc).index_le_size⟩
    obtain ⟨tokens, index, saved⟩ := d
    cases htokens
    cases hsaved
    rfl

end Cursor

namespace Parser

variable {α β : Type} {p : Parser α} {c d : Cursor} {v : Verdict α}

/-! ### Parsers that operate -/

/-- Whatever the parser does to a cursor, it does by operations. -/
def Operates (p : Parser α) : Prop :=
  ∀ ⦃c : Cursor⦄ ⦃v : Verdict α⦄ ⦃d : Cursor⦄, c.Ordered → p c = some (v, d) → c.Steps d

theorem Balanced.operates (hp : Balanced p) : Operates p := by
  intro c v d hc h
  exact ((Cursor.onward_iff_steps hc).mp (hp hc.index_le_size h)).1

theorem Operates.bind {f : α → Parser β} (hp : Operates p) (hf : ∀ a, Operates (f a)) :
    Operates (p.bind f) := by
  intro c v d hc h
  unfold Parser.bind at h
  split at h
  · cases h
  · next a e hpe =>
      have he := hp hc hpe
      exact he.trans (hf a (he.ordered hc) h)
  · next hpe => cases h; exact hp hc hpe
  · next hpe => cases h; exact hp hc hpe

theorem Operates.map (hp : Operates p) (f : α → β) : Operates (f <$> p) :=
  hp.bind fun a => (balanced_always (f a)).operates

theorem operates_change {act : Cursor → Except CursorError Cursor}
    (hact : ∀ c d, act c = .ok d → c.Steps d) : Operates (change act) := by
  intro c v d hc h
  unfold change at h
  split at h
  · next hd => cases h; exact hact _ _ hd
  · cases h; exact .refl

/-- Every operation of a parser written by hand is one of the cursor's. -/
theorem operates_perform (s : Step) : Operates s.perform := by
  cases s with
  | consume =>
      apply Operates.map
      rintro c v d hc ⟨⟩
      exact c.atMostStep_consume.to_reflTransGen
  | peek =>
      rintro c v d hc ⟨⟩
      exact .refl
  | store =>
      apply Operates.map
      rintro c v d hc ⟨⟩
      exact .single .store
  | clear => exact (operates_change fun c d hd => .single (.clear hd)).map _
  | restore => exact (operates_change fun c d hd => .single (.restore hd)).map _

theorem operates_performAll (steps : List Step) : Operates (performAll steps) := by
  induction steps with
  | nil => exact (balanced_always []).operates
  | cons s steps ih =>
      apply (operates_perform s).bind
      intro v
      apply ih.bind
      intro vs
      exact (balanced_always (v :: vs)).operates

/-- **Parsers written by hand operate.** -/
theorem operates_script (steps : List Step) (ending : Ending) : Operates (script steps ending) := by
  apply (operates_performAll steps).bind
  intro vs
  cases ending with
  | succeed => exact (balanced_always _).operates
  | fail message => exact (balanced_failHere message _).operates
  | raise e => exact (balanced_raise e).operates

/-! ### Parsers that end -/

theorem bind_ne_none {f : α → Parser β} (hp : p c ≠ none) (hf : ∀ a d, f a d ≠ none) :
    p.bind f c ≠ none := by
  unfold Parser.bind
  split
  · next hnone => exact absurd hnone hp
  · exact hf _ _
  · nofun
  · nofun

theorem perform_ne_none (s : Step) (c : Cursor) : s.perform c ≠ none := by
  cases s with
  | consume | peek | store => nofun
  | clear | restore =>
      apply bind_ne_none
      · simp only [clear, restore, change]
        split <;> nofun
      · nofun

/-- Parsers written by hand end everywhere. -/
theorem script_ne_none (steps : List Step) (ending : Ending) (c : Cursor) :
    script steps ending c ≠ none := by
  apply bind_ne_none
  · induction steps generalizing c with
    | nil => nofun
    | cons s steps ih =>
        apply bind_ne_none (perform_ne_none s c)
        intro v d
        exact bind_ne_none (ih d) nofun
  · intro vs d
    cases ending <;> nofun

/-! ### Positional parsers -/

/-- The parser ends everywhere, leaves the stored positions as they were, does not end before its
start, and how it ends is decided by the tokens and the index. -/
structure Positional (p : Parser α) : Prop where
  ends : ∀ ⦃c : Cursor⦄, c.Ordered → p c ≠ none
  operates : Operates p
  saved_eq : ∀ ⦃c : Cursor⦄ ⦃v : Verdict α⦄ ⦃d : Cursor⦄, c.Ordered → p c = some (v, d) →
    d.saved = c.saved
  index_le : ∀ ⦃c : Cursor⦄ ⦃v : Verdict α⦄ ⦃d : Cursor⦄, c.Ordered → p c = some (v, d) →
    c.index ≤ d.index
  decided : ∀ ⦃c c' : Cursor⦄ ⦃v : Verdict α⦄ ⦃d : Cursor⦄, c.Ordered → c'.Ordered →
    c'.tokens = c.tokens → c'.index = c.index → p c = some (v, d) →
      ∃ d', p c' = some (v, d') ∧ d'.index = d.index

theorem Positional.onward (hp : Positional p) (hc : c.Ordered) (h : p c = some (v, d)) :
    c.Onward d :=
  (Cursor.onward_iff_steps hc).mpr ⟨hp.operates hc h, hp.saved_eq hc h, hp.index_le hc h⟩

/-- With the index stored first, a positional parser ends the same. -/
theorem Positional.eq_some_store (hp : Positional p) (hc : c.Ordered) (h : p c = some (v, d)) :
    p c.store = some (v, c.store.moveTo d.index) := by
  obtain ⟨d', hd', hindex⟩ := hp.decided hc hc.store rfl rfl h
  have hon := hp.onward hc.store hd'
  rw [hd', hon.eq_moveTo, hindex]

end Parser

end Descent
