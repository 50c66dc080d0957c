import Descent.Parser.Combinators
import Descent.Parser.Custom
import Descent.Proofs.Cursor.Order

/-!
# Leaving a speculation

A speculation stores a position when it begins, and goes back to a position when it is left
undecided. That is the position stored last. A slot knows the index where it began, but not how high
the stack was then: if its body leaves a position of its own behind, as one that raises an error
between storing a position and dropping it, the cursor goes back to that one, and the position of the
slot stays on the stack.

* `Cursor.Trail` is a run of a cursor in single steps. As long as it stays above a part of the stack,
  that part is kept (`Trail.suffix`).
* `Cursor.WentBack` says what becomes of a block over which the cursor stayed above the position of
  the slot: it comes back to where it began exactly if the body left nothing behind.
* The records of a session show every step of its cursor (`Session.recorded_exec`), so this holds of
  every block of a session, and of every attempt of a parser that drives the cursor by such steps.
-/

namespace Descent

namespace Cursor

/-! ### Trails -/

/-- A cursor comes from `c` to `e` through all cursors of a list in order, by at most a step each. -/
inductive Trail : Cursor → List Cursor → Cursor → Prop
  | nil {c : Cursor} : Trail c [] c
  | cons {c d e : Cursor} {path : List Cursor} :
      AtMostStep c d → Trail d path e → Trail c (d :: path) e

/-- A block that began at `c` went back at `d`, and left the cursor as `c'`. One position was taken
off the stack. Nothing is left of the block if nothing else was stored by then, and otherwise its own
position still is stored. -/
structure WentBack (c d c' : Cursor) : Prop where
  depth_eq : c'.depth + 1 = d.depth
  eq_iff : c' = c ↔ d.depth = c.depth + 1
  still_stored : c' ≠ c → c.store.saved <:+ c'.saved

variable {c d e : Cursor} {path : List Cursor} {base : List Nat}

namespace Trail

theorem single (s : AtMostStep c d) : Trail c [d] d := .cons s .nil

theorem append {path' : List Cursor} (h : Trail c path d) (h' : Trail d path' e) :
    Trail c (path ++ path') e := by
  induction h with
  | nil => exact h'
  | cons s _ ih => exact .cons s (ih h')

theorem tokens_eq (h : Trail c path d) : d.tokens = c.tokens := by
  induction h with
  | nil => rfl
  | cons s _ ih =>
      rw [ih]
      cases s with
      | refl => rfl
      | single s => exact s.tokens_eq

end Trail

/-- A step keeps what lies below the positions that are stored after it. -/
theorem AtMostStep.suffix (s : AtMostStep c d) (hbase : base <:+ c.saved)
    (hdepth : base.length ≤ d.depth) : base <:+ d.saved := by
  -- What is taken off the stack is above `base`, or too little would be left.
  have of_cons {i : Nat} (hs : c.saved = i :: d.saved) : base <:+ d.saved := by
    rw [hs] at hbase
    rcases List.suffix_cons_iff.mp hbase with rfl | h
    · exact absurd hdepth (Nat.not_succ_le_self _)
    · exact h
  cases s with
  | refl => exact hbase
  | single s =>
      cases s with
      | advance => exact hbase
      | store => exact hbase.trans (List.suffix_cons _ _)
      | clear hd =>
          obtain ⟨i, hs, -, -⟩ := clear_eq_ok_iff.mp hd
          exact of_cons hs
      | restore hd => exact of_cons (restore_eq_ok_iff.mp hd).1

/-- **What a run stays above, it keeps.** -/
theorem Trail.suffix (h : Trail c path d) (hbase : base <:+ c.saved)
    (hdepth : ∀ x ∈ path, base.length ≤ x.depth) : base <:+ d.saved := by
  induction h with
  | nil => exact hbase
  | @cons c d e path s _ ih =>
      have hd : base <:+ d.saved := s.suffix hbase (hdepth d List.mem_cons_self)
      exact ih hd fun x hx => hdepth x (List.mem_cons_of_mem d hx)

/-- **A block that stays above its own position can go back**, to where it began if nothing else is
stored. -/
theorem Trail.exists_wentBack (h : Trail c.store path d) (habove : ∀ x ∈ path, c.depth < x.depth) :
    ∃ c', d.restore = .ok c' ∧ WentBack c d c' := by
  have hsuffix : c.index :: c.saved <:+ d.saved := h.suffix (List.suffix_refl _) habove
  have htokens : d.tokens = c.tokens := h.tokens_eq
  obtain ⟨tokens, index, saved⟩ := d
  cases saved with
  | nil => exact absurd hsuffix (by simp)
  | cons i rest =>
      refine ⟨⟨tokens, i, rest⟩, rfl, ?_⟩
      rcases List.suffix_cons_iff.mp hsuffix with heq | hrest
      · -- The position of the block is the one stored last.
        cases heq
        cases htokens
        exact { depth_eq := rfl, eq_iff := by simp [depth], still_stored := absurd rfl }
      · have hdepth : c.depth + 1 ≤ rest.length := hrest.length_le
        have hne : (⟨tokens, i, rest⟩ : Cursor) ≠ c := by
          rintro rfl
          exact Nat.not_succ_le_self _ hdepth
        refine { depth_eq := rfl, eq_iff := ?_, still_stored := fun _ => hrest }
        simp only [hne, depth, List.length_cons, false_iff]
        show ¬rest.length + 1 = c.depth + 1
        omega

end Cursor

/-! ### Blocks of a session -/

namespace Session

variable {κ ρ : Type}

/-- What was recorded after an earlier session. -/
def since (s earlier : Session κ ρ) : List (Moment κ ρ) := s.log.toList.drop earlier.log.size

/-- There is a slot with this number that was not decided. -/
def Undecided (i : Nat) (s : Session κ ρ) : Prop :=
  ∃ slot, s.slots.all[i]? = some slot ∧ slot.resolved = false

/-- A session goes on to a later one, and its records show every step that its cursor takes. -/
def Recorded (s later : Session κ ρ) : Prop :=
  ∃ added, later.log.toList = s.log.toList ++ added ∧
    s.cursor.Trail (added.map (·.cursor)) later.cursor

namespace Recorded

variable {s s' s'' : Session κ ρ}

theorem refl (s : Session κ ρ) : Recorded s s := ⟨[], by simp, .nil⟩

theorem trans (h : Recorded s s') (h' : Recorded s' s'') : Recorded s s'' := by
  obtain ⟨added, hlog, htrail⟩ := h
  obtain ⟨added', hlog', htrail'⟩ := h'
  refine ⟨added ++ added', by rw [hlog', hlog, List.append_assoc], ?_⟩
  rw [List.map_append]
  exact htrail.append htrail'

/-- A step that is written down at once is recorded. -/
theorem record (event : Event κ ρ) (hlog : s'.log = s.log)
    (hstep : s.cursor.AtMostStep s'.cursor) : Recorded s (s'.record event) := by
  refine ⟨[{ event, cursor := s'.cursor, slots := s'.slots }], ?_, .single hstep⟩
  simp [Session.record, hlog]

theorem trail_since (h : Recorded s s') :
    s.cursor.Trail ((s'.since s).map (·.cursor)) s'.cursor := by
  obtain ⟨added, hlog, htrail⟩ := h
  have hsince : s'.since s = added := by
    rw [since, hlog, ← Array.length_toList, List.drop_left]
  rwa [hsince]

end Recorded

variable {hand : Empty → Cursor → Except Error ρ × Cursor}

theorem recorded_enter (name : String) (s : Session κ ρ) : Recorded s (s.enter name) :=
  .record _ rfl (.single .store)

theorem recorded_leave (name : String) (i : Nat) (error : Option Error) (s : Session κ ρ) :
    Recorded s (s.leave name i error).2 :=
  .record _ (log_settle Slot.leave i s) (atMostStep_settle_leave i s)

theorem recorded_op (o : Op Empty) (s : Session Empty ρ) :
    Recorded s (exec hand (.op o) s).2 := by
  rw [exec]
  apply Recorded.record
  · exact log_perform o s
  · rcases call_or_atMostStep_perform o s with ⟨action, -⟩ | h
    · exact action.elim
    · exact h

mutual

/-- **The records of a session show every step of its cursor**, whatever the commands are and
wherever an error ends them. -/
theorem recorded_exec : ∀ (command : Command Empty) (s : Session Empty ρ),
    Recorded s (exec hand command s).2
  | .op o, s => recorded_op o s
  | .speculate name body, s => by
      rw [exec]
      apply (recorded_enter name s).trans
      apply (recorded_execAll body (s.enter name)).trans
      exact recorded_leave _ _ _ _
  | .recover body, s => by
      rw [exec]
      exact recorded_execAll body s

theorem recorded_execAll : ∀ (commands : List (Command Empty)) (s : Session Empty ρ),
    Recorded s (execAll hand commands s).2
  | [], s => by
      rw [execAll]
      exact .refl s
  | command :: rest, s => by
      have hs := recorded_exec command s
      rw [execAll]
      split
      · next heq =>
          rw [heq] at hs
          exact hs.trans (recorded_execAll rest _)
      · next heq =>
          rw [heq] at hs
          exact hs

end

/-- A slot that was not decided is rewound when it is left, and the error of its body goes on. -/
theorem leave_of_undecided {i : Nat} {s : Session κ ρ} {c : Cursor} (hopen : s.Undecided i)
    (hc : s.cursor.restore = .ok c) (name : String) (error : Option Error) :
    (s.leave name i error).1 = error ∧ (s.leave name i error).2.cursor = c := by
  obtain ⟨slot, hslot, hresolved⟩ := hopen
  have hleave : slot.leave s.cursor = ({ slot with resolved := true }, .ok c) := by
    simp [Slot.leave, Slot.rewind, Slot.resolve, hresolved, hc]
  simp [leave, settle, hslot, hleave, record]

/-- **A block whose slot its body did not decide goes back**, and what comes out of it is what came
out of its body. -/
theorem wentBack_of_speculate {s : Session Empty ρ} {name : String} {body : List (Command Empty)}
    {error : Option Error} {inside : Session Empty ρ}
    (hbody : execAll hand body (s.enter name) = (error, inside))
    (habove : ∀ m ∈ inside.since (s.enter name), s.cursor.depth < m.cursor.depth)
    (hopen : inside.Undecided s.slots.all.size) :
    (exec hand (.speculate name body) s).1 = error ∧
      s.cursor.WentBack inside.cursor (exec hand (.speculate name body) s).2.cursor := by
  have hrecorded : (s.enter name).Recorded (execAll hand body (s.enter name)).2 :=
    recorded_execAll body (s.enter name)
  rw [hbody] at hrecorded
  have htrail : s.cursor.store.Trail ((inside.since (s.enter name)).map (·.cursor)) inside.cursor :=
    hrecorded.trail_since
  obtain ⟨c, hc, hback⟩ := htrail.exists_wentBack (by simpa using habove)
  obtain ⟨herror, hcursor⟩ := leave_of_undecided hopen hc name error
  rw [exec, hbody]
  refine ⟨herror, ?_⟩
  rw [hcursor]
  exact hback

end Session

/-! ### Attempts -/

namespace Parser

/-- **An attempt whose parser raises an error goes back**, and raises the same error. -/
theorem wentBack_of_attempt {α : Type} {p : Parser α} {c d : Cursor} {e : Error}
    {path : List Cursor} (hp : p c.store = some (.raised e, d)) (htrail : c.store.Trail path d)
    (habove : ∀ x ∈ path, c.depth < x.depth) :
    ∃ c', attempt p c = some (.raised e, c') ∧ c.WentBack d c' := by
  obtain ⟨c', hc', hback⟩ := htrail.exists_wentBack habove
  refine ⟨c', ?_, hback⟩
  rw [attempt_apply, hp]
  simp [hc']

end Parser

/-! ### Blocks and attempts -/

/-- **What is undone goes back to the position stored last.** Run a block that speculates, or an
attempt of a parser that raises an error, and let the cursor stay above the position that was stored
at the beginning. If the slot was not decided, the error of the body comes out, if there is one, and
the cursor is where it was, with the stack that it had, exactly if nothing that the body stored is
still stored. Otherwise the position stored at the beginning still is. -/
theorem undone_exactly_if_nothing_left {ρ : Type}
    (hand : Empty → Cursor → Except Error ρ × Cursor) :
    (∀ (s inside : Session Empty ρ) (name : String) (body : List (Command Empty))
      (error : Option Error),
      Session.execAll hand body (s.enter name) = (error, inside) →
      (∀ m ∈ inside.since (s.enter name), s.cursor.depth < m.cursor.depth) →
      inside.Undecided s.slots.all.size →
      (Session.exec hand (.speculate name body) s).1 = error ∧
        s.cursor.WentBack inside.cursor (Session.exec hand (.speculate name body) s).2.cursor) ∧
    ∀ (p : Parser Value) (c d : Cursor) (e : Error) (path : List Cursor),
      p c.store = some (.raised e, d) → c.store.Trail path d → (∀ x ∈ path, c.depth < x.depth) →
      ∃ c', Parser.attempt p c = some (.raised e, c') ∧ c.WentBack d c' := by
  constructor
  · intro s inside name body error hbody habove hopen
    exact Session.wentBack_of_speculate hbody habove hopen
  · intro p c d e path hp htrail habove
    exact Parser.wentBack_of_attempt hp htrail habove

/-- A block is undone over which an inner block left its own position to be dropped, and an attempt
that dropped what it stored. -/
theorem undone_with_nothing_left :
    let a : Token := ⟨"A", "a", .start⟩
    let c : Cursor := ⟨#[a, a, a], 1, [0]⟩
    let e : Error := .caller "boom"
    let s : Session Empty Empty := { cursor := c }
    let body : List (Command Empty) :=
      [.op .consume, .speculate "inner" [.op .consume, .op .store], .op .clear, .op (.raise e)]
    let inside := (Session.execAll Empty.elim body (s.enter "outer")).2
    let p : Parser Value := .script [.consume, .store, .clear] (.raise e)
    let path : List Cursor := [⟨#[a, a, a], 2, [1, 0]⟩, ⟨#[a, a, a], 2, [2, 1, 0]⟩,
      ⟨#[a, a, a], 2, [1, 0]⟩]
    ((∀ m ∈ inside.since (s.enter "outer"), s.cursor.depth < m.cursor.depth) ∧
      inside.Undecided s.slots.all.size ∧
      (Session.exec Empty.elim (.speculate "outer" body) s).1 = some e ∧
      (Session.exec Empty.elim (.speculate "outer" body) s).2.cursor = c) ∧
    c.store.Trail path ⟨#[a, a, a], 2, [1, 0]⟩ ∧ (∀ x ∈ path, c.depth < x.depth) ∧
      Parser.attempt p c = some (.raised e, c) := by
  intro a c e s body inside p path
  obtain ⟨hblock, hattempt⟩ :=
    undone_exactly_if_nothing_left (Empty.elim : Empty → Cursor → Except Error Empty × Cursor)
  have habove : ∀ m ∈ inside.since (s.enter "outer"), s.cursor.depth < m.cursor.depth := by decide
  have hopen : inside.Undecided s.slots.all.size := ⟨_, rfl, rfl⟩
  obtain ⟨herror, hback⟩ := hblock s inside "outer" body (some e) rfl habove hopen
  have htrail : c.store.Trail path ⟨#[a, a, a], 2, [1, 0]⟩ :=
    .cons (.single (.advance (by decide))) (.cons (.single .store) (.single (.single (.clear rfl))))
  have hpath : ∀ x ∈ path, c.depth < x.depth := by decide
  obtain ⟨c', hc', hback'⟩ := hattempt p c _ e path rfl htrail hpath
  have heq : c' = c := hback'.eq_iff.mpr rfl
  rw [heq] at hc'
  exact ⟨⟨habove, hopen, herror, hback.eq_iff.mpr rfl⟩, htrail, hpath, hc'⟩

/-- An error between storing a position and dropping it: the cursor stays where it stored, and the
position that was stored at the beginning is left on the stack. -/
theorem undone_with_position_left :
    let a : Token := ⟨"A", "a", .start⟩
    let c : Cursor := .ofTokens #[a]
    let left : Cursor := ⟨#[a], 1, [0]⟩
    let e : Error := .caller "boom"
    let s : Session Empty Empty := { cursor := c }
    let body : List (Command Empty) := [.op .consume, .op .store, .op (.raise e)]
    let inside := (Session.execAll Empty.elim body (s.enter "slot")).2
    let p : Parser Value := .script [.consume, .store] (.raise e)
    let path : List Cursor := [⟨#[a], 1, [0]⟩, ⟨#[a], 1, [1, 0]⟩]
    ((∀ m ∈ inside.since (s.enter "slot"), s.cursor.depth < m.cursor.depth) ∧
      inside.Undecided s.slots.all.size ∧
      (Session.exec Empty.elim (.speculate "slot" body) s).2.cursor = left) ∧
    (p c.store = some (.raised e, ⟨#[a], 1, [1, 0]⟩) ∧
      c.store.Trail path ⟨#[a], 1, [1, 0]⟩ ∧ (∀ x ∈ path, c.depth < x.depth) ∧
      Parser.attempt p c = some (.raised e, left)) ∧
    left ≠ c := by
  intro a c left e s body inside p path
  have htrail : c.store.Trail path ⟨#[a], 1, [1, 0]⟩ :=
    .cons (.single (.advance (by decide))) (.single (.single .store))
  exact ⟨⟨by decide, ⟨_, rfl, rfl⟩, rfl⟩, ⟨rfl, htrail, by decide, rfl⟩, by decide⟩

end Descent
