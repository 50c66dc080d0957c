import Descent.Cursor.Session
import Mathlib.Logic.Relation

/-!
# The order of the stored positions

A cursor can be misused: stored positions can be dropped and gone back to in any order, slots can be
decided twice, late, or without a stored position of their own. What no misuse can do is to bring the
cursor out of the tokens, or to let it go forward by going back.

* `Cursor.Step` is what a single operation can do to a cursor, and `Cursor.Ordered` what every step
  keeps. That the index stays within the tokens is not kept by itself, because going back takes the
  index from the stack. What is kept is that the stack *with the index on top of it* is sorted.
* `Session.Reachable` are the sessions that any operations, in any order, can come to.
  `Reachable.steps` says that each of them moves its cursor by steps only, and `Reachable.run` that a
  session run as a program comes to no others.
-/

namespace Descent

namespace Cursor

variable {c d : Cursor}

/-! ### Steps of a cursor -/

/-- What one operation can do to a cursor. -/
inductive Step : Cursor → Cursor → Prop
  | advance {c : Cursor} : c.index < c.tokens.size → Step c c.advance
  | store {c : Cursor} : Step c c.store
  | clear {c d : Cursor} : c.clear = .ok d → Step c d
  | restore {c d : Cursor} : c.restore = .ok d → Step c d

/-- A step, or nothing. -/
abbrev AtMostStep : Cursor → Cursor → Prop := Relation.ReflGen Step

/-- What operations can do to a cursor one after another. -/
abbrev Steps : Cursor → Cursor → Prop := Relation.ReflTransGen Step

/-- The cursor does not stand beyond the end, and its index on top of the stored ones makes a stack
that does not grow toward the bottom. -/
structure Ordered (c : Cursor) : Prop where
  index_le_size : c.index ≤ c.tokens.size
  sorted : (c.index :: c.saved).Pairwise (· ≥ ·)

/-- What is dropped was on top. -/
theorem clear_eq_ok_iff : c.clear = .ok d ↔
    ∃ i, c.saved = i :: d.saved ∧ d.index = c.index ∧ d.tokens = c.tokens := by
  obtain ⟨tokens, index, saved⟩ := c
  obtain ⟨tokens', index', saved'⟩ := d
  cases saved with
  | nil => simp [clear]
  | cons i rest =>
      constructor
      · intro h
        cases h
        exact ⟨i, rfl, rfl, rfl⟩
      · rintro ⟨j, hs, rfl, rfl⟩
        cases hs
        rfl

/-- What is gone back to was on top, and is taken off. -/
theorem restore_eq_ok_iff : c.restore = .ok d ↔
    c.saved = d.index :: d.saved ∧ d.tokens = c.tokens := by
  obtain ⟨tokens, index, saved⟩ := c
  obtain ⟨tokens', index', saved'⟩ := d
  cases saved with
  | nil => simp [restore]
  | cons i rest =>
      constructor
      · intro h
        cases h
        exact ⟨rfl, rfl⟩
      · rintro ⟨hs, rfl⟩
        cases hs
        rfl

/-- A token is seen only before the end. -/
theorem index_lt_of_peek {t : Token} (h : c.peek = some t) : c.index < c.tokens.size := by
  obtain ⟨hlt, -⟩ := Array.getElem?_eq_some_iff.mp h
  exact hlt

theorem ordered_ofTokens (tokens : Array Token) : (ofTokens tokens).Ordered :=
  ⟨Nat.zero_le _, List.pairwise_singleton _ _⟩

theorem Ordered.le_index (h : c.Ordered) {i : Nat} (hi : i ∈ c.saved) : i ≤ c.index :=
  (List.pairwise_cons.mp h.sorted).1 i hi

theorem Ordered.saved_sorted (h : c.Ordered) : c.saved.Pairwise (· ≥ ·) :=
  (List.pairwise_cons.mp h.sorted).2

/-- **Every step keeps the order.** -/
theorem Step.ordered (s : Step c d) (h : c.Ordered) : d.Ordered := by
  cases s with
  | advance hlt =>
      refine ⟨hlt, List.pairwise_cons.mpr ⟨fun i hi => ?_, h.saved_sorted⟩⟩
      exact Nat.le_succ_of_le (h.le_index hi)
  | store =>
      refine ⟨h.index_le_size, List.pairwise_cons.mpr ⟨fun i hi => ?_, h.sorted⟩⟩
      rcases List.mem_cons.mp hi with rfl | hi
      · exact Nat.le_refl _
      · exact h.le_index hi
  | clear hd =>
      obtain ⟨i, hs, hi, ht⟩ := clear_eq_ok_iff.mp hd
      have hsorted := h.sorted
      rw [hs] at hsorted
      refine ⟨by rw [hi, ht]; exact h.index_le_size, ?_⟩
      rw [hi]
      exact hsorted.sublist ((List.sublist_cons_self i d.saved).cons_cons c.index)
  | restore hd =>
      -- The index is now one from the stack, and all of these are within the tokens.
      obtain ⟨hs, ht⟩ := restore_eq_ok_iff.mp hd
      have hmem : d.index ∈ c.saved := by rw [hs]; exact List.mem_cons_self
      refine ⟨?_, ?_⟩
      · rw [ht]
        exact Nat.le_trans (h.le_index hmem) h.index_le_size
      · rw [← hs]
        exact h.saved_sorted

theorem Step.tokens_eq (s : Step c d) : d.tokens = c.tokens := by
  cases s with
  | advance => rfl
  | store => rfl
  | clear hd => exact (clear_eq_ok_iff.mp hd).choose_spec.2.2
  | restore hd => exact (restore_eq_ok_iff.mp hd).2

/-- **What every step keeps, a run keeps.** -/
theorem Steps.ordered (s : Steps c d) (h : c.Ordered) : d.Ordered := by
  induction s with
  | refl => exact h
  | tail _ s ih => exact s.ordered ih

theorem Steps.tokens_eq (s : Steps c d) : d.tokens = c.tokens := by
  induction s with
  | refl => rfl
  | tail _ s ih => exact s.tokens_eq.trans ih

/-- Going back does not go forward. -/
theorem Ordered.restore_index_le (h : c.Ordered) (hd : c.restore = .ok d) : d.index ≤ c.index := by
  obtain ⟨hs, -⟩ := restore_eq_ok_iff.mp hd
  exact h.le_index (by rw [hs]; exact List.mem_cons_self)

/-- Consuming is a step, or does nothing. -/
theorem atMostStep_consume (c : Cursor) : AtMostStep c c.consume.2 := by
  unfold consume
  split
  · next t ht => exact .single (.advance (index_lt_of_peek ht))
  · exact .refl

theorem atMostStep_consumeIf (types : List TokenType) (c : Cursor) :
    AtMostStep c (c.consumeIf types).2 := by
  unfold consumeIf
  split
  · split
    · exact atMostStep_consume c
    · exact .refl
  · exact .refl

end Cursor

/-! ### Decisions of a slot -/

namespace Slot

variable {slot : Slot} {c d : Cursor}

/-- Committing drops the index stored last, rewinding goes back to it, and leaving does nothing or
goes back to it. The start of the slot takes no part. -/
theorem clear_of_commit (h : (slot.commit c).2 = .ok d) : c.clear = .ok d := by
  cases hr : slot.resolved <;> simp_all [commit, resolve]

theorem restore_of_rewind (h : (slot.rewind c).2 = .ok d) : c.restore = .ok d := by
  cases hr : slot.resolved <;> simp_all [rewind, resolve]

theorem eq_or_restore_of_leave (h : (slot.leave c).2 = .ok d) : d = c ∨ c.restore = .ok d := by
  unfold leave at h
  split at h
  · exact Or.inl (Except.ok.inj h).symm
  · exact Or.inr (restore_of_rewind h)

end Slot

/-! ### Sessions -/

namespace Session

variable {κ ρ : Type} {hand : κ → Cursor → Except Error ρ × Cursor} {tokens : Array Token}

/-- The sessions over these tokens that operations can come to, in any order: operations of a
program, blocks that are entered and left, and decisions of any slot, by its number. A block may be
left before one that was entered after it, and a slot may be decided after its block. -/
inductive Reachable (hand : κ → Cursor → Except Error ρ × Cursor) (tokens : Array Token) :
    Session κ ρ → Prop
  | start : Reachable hand tokens { cursor := .ofTokens tokens }
  | perform {s : Session κ ρ} (o : Op κ) :
      Reachable hand tokens s → Reachable hand tokens (s.perform hand o).2
  | enter {s : Session κ ρ} (name : String) :
      Reachable hand tokens s → Reachable hand tokens (s.enter name)
  | commit {s : Session κ ρ} (i : Nat) :
      Reachable hand tokens s → Reachable hand tokens (s.settle Slot.commit i).2
  | rewind {s : Session κ ρ} (i : Nat) :
      Reachable hand tokens s → Reachable hand tokens (s.settle Slot.rewind i).2
  | leave {s : Session κ ρ} (name : String) (i : Nat) (error : Option Error) :
      Reachable hand tokens s → Reachable hand tokens (s.leave name i error).2
  | record {s : Session κ ρ} (event : Event κ ρ) :
      Reachable hand tokens s → Reachable hand tokens (s.record event)

/-- A decision brings the cursor where `act` brings it, or leaves it alone. -/
theorem settle_cursor (act : Slot → Cursor → Slot × Except CursorError Cursor) (i : Nat)
    (s : Session κ ρ) :
    (s.settle act i).2.cursor = s.cursor ∨
      ∃ slot, (act slot s.cursor).2 = .ok (s.settle act i).2.cursor := by
  unfold settle
  split
  · exact Or.inl rfl
  · next slot _ =>
      cases h : (act slot s.cursor).2 with
      | error e => simp [h]
      | ok c => exact Or.inr ⟨slot, by simp [h]⟩

/-- A refused decision leaves the cursor alone. -/
theorem settle_cursor_of_error {act : Slot → Cursor → Slot × Except CursorError Cursor} {i : Nat}
    {s : Session κ ρ} {e : Error} (h : (s.settle act i).1 = .error e) :
    (s.settle act i).2.cursor = s.cursor := by
  unfold settle at h ⊢
  split
  · rfl
  · next slot hslot =>
      simp only [hslot] at h
      cases hr : (act slot s.cursor).2 with
      | error e' => simp [hr]
      | ok c => simp [hr] at h

/-- What holds of the cursor after every decision of `act` that is carried out, and of the cursor as
it was, holds after settling. -/
theorem settle_cursor_induction {act : Slot → Cursor → Slot × Except CursorError Cursor}
    {P : Cursor → Prop} {s : Session κ ρ} (hrefl : P s.cursor)
    (hact : ∀ slot d, (act slot s.cursor).2 = .ok d → P d) (i : Nat) :
    P (s.settle act i).2.cursor := by
  rcases settle_cursor act i s with h | ⟨slot, h⟩
  · rw [h]
    exact hrefl
  · exact hact slot _ h

theorem atMostStep_settle_commit (i : Nat) (s : Session κ ρ) :
    Cursor.AtMostStep s.cursor (s.settle Slot.commit i).2.cursor :=
  settle_cursor_induction .refl (fun _ _ h => .single (.clear (Slot.clear_of_commit h))) i

theorem atMostStep_settle_rewind (i : Nat) (s : Session κ ρ) :
    Cursor.AtMostStep s.cursor (s.settle Slot.rewind i).2.cursor :=
  settle_cursor_induction .refl (fun _ _ h => .single (.restore (Slot.restore_of_rewind h))) i

theorem atMostStep_settle_leave (i : Nat) (s : Session κ ρ) :
    Cursor.AtMostStep s.cursor (s.settle Slot.leave i).2.cursor := by
  refine settle_cursor_induction .refl (fun _ _ h => ?_) i
  rcases Slot.eq_or_restore_of_leave h with rfl | hd
  · exact .refl
  · exact .single (.restore hd)

/-- What is done with the newest slot of a name is done with a slot, or nothing is done. -/
theorem withSlot_eq (name : String) (s : Session κ ρ)
    (k : Nat → Except Error (Reply ρ) × Session κ ρ) :
    (∃ i, s.withSlot name k = k i) ∨ s.withSlot name k = (.error (.undefined name), s) := by
  unfold withSlot
  split
  · exact Or.inl ⟨_, rfl⟩
  · exact Or.inr rfl

/-- **Every operation is at most one step of the cursor**, but for those that the session knows nothing
of. -/
theorem call_or_atMostStep_perform (o : Op κ) (s : Session κ ρ) :
    (∃ action, o = .call action) ∨ Cursor.AtMostStep s.cursor (s.perform hand o).2.cursor := by
  cases o with
  | call action => exact .inl ⟨action, rfl⟩
  | peek | remainder | errorPosition | size | slot | raise => exact .inr .refl
  | consume => exact .inr s.cursor.atMostStep_consume
  | consumeIf types => exact .inr (s.cursor.atMostStep_consumeIf types)
  | store => exact .inr (.single .store)
  | clear =>
      simp only [perform, change]
      split
      · next h => exact .inr (.single (.clear h))
      · exact .inr .refl
  | restore =>
      simp only [perform, change]
      split
      · next h => exact .inr (.single (.restore h))
      · exact .inr .refl
  | commit name =>
      simp only [perform]
      rcases withSlot_eq name s (fun i => s.settle Slot.commit i) with ⟨i, h⟩ | h <;> rw [h]
      · exact .inr (atMostStep_settle_commit i s)
      · exact .inr .refl
  | rewind name =>
      simp only [perform]
      rcases withSlot_eq name s (fun i => s.settle Slot.rewind i) with ⟨i, h⟩ | h <;> rw [h]
      · exact .inr (atMostStep_settle_rewind i s)
      · exact .inr .refl
  | progressed name =>
      simp only [perform]
      rcases withSlot_eq name s _ with ⟨i, h⟩ | h <;> rw [h] <;> exact .inr .refl

/-- Every operation is steps of the cursor, if those that the session knows nothing of are. -/
theorem steps_perform (hhand : ∀ action c, Cursor.Steps c (hand action c).2) (o : Op κ)
    (s : Session κ ρ) : Cursor.Steps s.cursor (s.perform hand o).2.cursor := by
  rcases call_or_atMostStep_perform o s with ⟨action, rfl⟩ | h
  · exact hhand action s.cursor
  · exact h.to_reflTransGen

/-- **Whatever a session did, its cursor came there by steps.** -/
theorem Reachable.steps (hhand : ∀ action c, Cursor.Steps c (hand action c).2) {s : Session κ ρ}
    (h : Reachable hand tokens s) : Cursor.Steps (.ofTokens tokens) s.cursor := by
  induction h with
  | start => exact .refl
  | perform o _ ih => exact ih.trans (steps_perform hhand o _)
  | enter name _ ih => exact ih.tail .store
  | commit i _ ih => exact ih.trans (atMostStep_settle_commit i _).to_reflTransGen
  | rewind i _ ih => exact ih.trans (atMostStep_settle_rewind i _).to_reflTransGen
  | leave name i error _ ih => exact ih.trans (atMostStep_settle_leave i _).to_reflTransGen
  | record event _ ih => exact ih

mutual

/-- Running a command comes from reachable sessions to reachable ones only. -/
theorem Reachable.exec : ∀ (command : Command κ) {s : Session κ ρ}, Reachable hand tokens s →
    Reachable hand tokens (Session.exec hand command s).2
  | .op o, s, h => by
      rw [Session.exec]
      exact .record _ (.perform o h)
  | .speculate name body, s, h => by
      rw [Session.exec]
      exact .leave _ _ _ (Reachable.execAll body (.enter name h))
  | .recover body, s, h => by
      rw [Session.exec]
      exact Reachable.execAll body h

theorem Reachable.execAll : ∀ (commands : List (Command κ)) {s : Session κ ρ},
    Reachable hand tokens s → Reachable hand tokens (Session.execAll hand commands s).2
  | [], s, h => by
      rw [Session.execAll]
      exact h
  | command :: rest, s, h => by
      have hs := Reachable.exec command h
      rw [Session.execAll]
      split
      · next heq => exact Reachable.execAll rest (by rw [heq] at hs; exact hs)
      · next heq => rw [heq] at hs; exact hs

end

theorem Reachable.run (hand : κ → Cursor → Except Error ρ × Cursor) (tokens : Array Token)
    (commands : List (Command κ)) :
    Reachable hand tokens (Session.run hand commands (.ofTokens tokens)) :=
  .execAll _ .start

/-! ### What is recorded -/

@[simp] theorem log_settle (act : Slot → Cursor → Slot × Except CursorError Cursor) (i : Nat)
    (s : Session κ ρ) : (s.settle act i).2.log = s.log := by
  unfold settle
  split
  · rfl
  · next slot _ => cases h : (act slot s.cursor).2 <;> simp [h]

@[simp] theorem log_perform (o : Op κ) (s : Session κ ρ) : (s.perform hand o).2.log = s.log := by
  cases o with
  | clear | restore => simp only [perform, change]; split <;> rfl
  | commit name =>
      simp only [perform]
      rcases withSlot_eq name s (fun i => s.settle Slot.commit i) with ⟨i, h⟩ | h <;> simp [h]
  | rewind name =>
      simp only [perform]
      rcases withSlot_eq name s (fun i => s.settle Slot.rewind i) with ⟨i, h⟩ | h <;> simp [h]
  | progressed name =>
      simp only [perform]
      rcases withSlot_eq name s _ with ⟨i, h⟩ | h <;> rw [h]
  | _ => rfl

/-- What a record adds to the log has the cursor of the session that is left. -/
theorem mem_log_record {event : Event κ ρ} {s : Session κ ρ} {m : Moment κ ρ}
    (hm : m ∈ (s.record event).log) : m ∈ s.log ∨ (s.record event).cursor = m.cursor := by
  rcases Array.mem_push.mp hm with hm | rfl
  · exact Or.inl hm
  · exact Or.inr rfl

/-- Every cursor that a reachable session has recorded is the cursor of a reachable session. -/
theorem Reachable.of_mem_log {s : Session κ ρ} (h : Reachable hand tokens s) {m : Moment κ ρ}
    (hm : m ∈ s.log) : ∃ r : Session κ ρ, Reachable hand tokens r ∧ r.cursor = m.cursor := by
  induction h with
  | start => simp at hm
  | perform o _ ih => exact ih (by simpa using hm)
  | commit i _ ih | rewind i _ ih => exact ih (by simpa using hm)
  | enter name hs ih =>
      rcases mem_log_record hm with hm | heq
      · exact ih hm
      · exact ⟨_, .enter name hs, heq⟩
  | leave name i error hs ih =>
      rcases mem_log_record hm with hm | heq
      · exact ih (log_settle Slot.leave i _ ▸ hm)
      · exact ⟨_, .leave name i error hs, heq⟩
  | record event hs ih =>
      rcases mem_log_record hm with hm | heq
      · exact ih hm
      · exact ⟨_, .record event hs, heq⟩

/-! ### Refusals, and going back -/

/-- **An operation that is refused leaves the cursor as it was.** -/
theorem perform_cursor_of_error {hand : Empty → Cursor → Except Error ρ × Cursor} {o : Op Empty}
    {s : Session Empty ρ} {e : Error} (h : (s.perform hand o).1 = .error e) :
    (s.perform hand o).2.cursor = s.cursor := by
  cases o with
  | clear | restore =>
      simp only [perform, change] at h ⊢
      split at h <;> simp_all
  | commit name =>
      simp only [perform] at h ⊢
      rcases withSlot_eq name s (fun i => s.settle Slot.commit i) with ⟨i, hi⟩ | hi <;>
        rw [hi] at h ⊢
      exact settle_cursor_of_error h
  | rewind name =>
      simp only [perform] at h ⊢
      rcases withSlot_eq name s (fun i => s.settle Slot.rewind i) with ⟨i, hi⟩ | hi <;>
        rw [hi] at h ⊢
      exact settle_cursor_of_error h
  | progressed name =>
      simp only [perform] at h ⊢
      rcases withSlot_eq name s _ with ⟨i, hi⟩ | hi <;> rw [hi]
  | call action => exact action.elim
  | raise => rfl
  | _ => simp [perform] at h

/-- Rewinding a slot, and leaving it, never moves an ordered cursor forward. -/
theorem index_settle_le {act : Slot → Cursor → Slot × Except CursorError Cursor}
    (hact : act = Slot.rewind ∨ act = Slot.leave) {s : Session κ ρ} (hs : s.cursor.Ordered)
    (i : Nat) : (s.settle act i).2.cursor.index ≤ s.cursor.index := by
  refine settle_cursor_induction (P := fun c => c.index ≤ s.cursor.index) (Nat.le_refl _) ?_ i
  intro slot d hd
  rcases hact with rfl | rfl
  · exact hs.restore_index_le (Slot.restore_of_rewind hd)
  · rcases Slot.eq_or_restore_of_leave hd with rfl | hd
    · exact Nat.le_refl _
    · exact hs.restore_index_le hd

theorem index_perform_restore_le (hand : κ → Cursor → Except Error ρ × Cursor) {s : Session κ ρ}
    (hs : s.cursor.Ordered) : (s.perform hand .restore).2.cursor.index ≤ s.cursor.index := by
  simp only [perform, change]
  split
  · next hd => exact hs.restore_index_le hd
  · exact Nat.le_refl _

/-! ### The cursor under every use -/

/-- **A cursor stays in order under every use, and misuse.** In every session that operations, blocks
and decisions of slots can come to, in any order, the index lies within the tokens, the stored
indices do not grow toward the bottom of the stack, and the topmost does not lie beyond the cursor.
So going back never goes forward. An operation, a decision or the end of a block that is refused
leaves the cursor as it was. A session that is run as a program goes through no other cursors. -/
theorem cursor_in_order (hand : Empty → Cursor → Except Error ρ × Cursor) (tokens : Array Token) :
    (∀ s : Session Empty ρ, Reachable hand tokens s →
      s.cursor.tokens = tokens ∧ s.cursor.index ≤ tokens.size ∧
      s.cursor.saved.reverse.Pairwise (· ≤ ·) ∧
      (∀ top ∈ s.cursor.saved.head?, top ≤ s.cursor.index) ∧
      (s.perform hand .restore).2.cursor.index ≤ s.cursor.index ∧
      (∀ i, (s.settle Slot.rewind i).2.cursor.index ≤ s.cursor.index) ∧
      (∀ name i error, (s.leave name i error).2.cursor.index ≤ s.cursor.index) ∧
      (∀ o e, (s.perform hand o).1 = .error e → (s.perform hand o).2.cursor = s.cursor) ∧
      (∀ act ∈ [Slot.commit, Slot.rewind], ∀ i e, (s.settle act i).1 = .error e →
        (s.settle act i).2.cursor = s.cursor) ∧
      (∀ name i error e, (s.settle Slot.leave i).1 = .error e →
        (s.leave name i error).2.cursor = s.cursor)) ∧
    ∀ commands : List (Command Empty),
      Reachable hand tokens (run hand commands (.ofTokens tokens)) ∧
      ∀ m ∈ (run hand commands (.ofTokens tokens)).log,
        ∃ s : Session Empty ρ, Reachable hand tokens s ∧ s.cursor = m.cursor := by
  refine ⟨fun s h => ?_, fun commands => ?_⟩
  · have steps := h.steps (fun action => action.elim)
    have ordered := steps.ordered (Cursor.ordered_ofTokens tokens)
    have htokens : s.cursor.tokens = tokens := steps.tokens_eq
    refine ⟨htokens, htokens ▸ ordered.index_le_size, ?_, ?_, index_perform_restore_le hand ordered,
      index_settle_le (Or.inl rfl) ordered, fun _ i _ => index_settle_le (Or.inr rfl) ordered i,
      ?_, ?_, ?_⟩
    · exact List.pairwise_reverse.mpr ordered.saved_sorted
    · exact fun top htop => ordered.le_index (List.mem_of_mem_head? htop)
    · exact fun o e he => perform_cursor_of_error he
    · exact fun act _ i e he => settle_cursor_of_error he
    · exact fun name i error e he => settle_cursor_of_error he
  · exact ⟨.run hand tokens commands, fun m hm => (Reachable.run hand tokens commands).of_mem_log hm⟩

end Session

end Descent
