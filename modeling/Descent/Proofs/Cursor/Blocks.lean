import Descent.Proofs.Cursor.Speculation
import Mathlib.Data.List.Basic

/-!
# Nested blocks

A slot does not know which of the stored positions is its own: whatever decides it takes the one that
was stored last. Where blocks are nested that is its own, as long as a slot is decided only after those
that were opened later. It may be decided early, in its block, or left to the end of the block, and an
error may end any number of blocks at once.

* `Nested` are the sessions that such a use comes to, whatever a program does next and wherever it
  recovers from an error. It keeps the list of the blocks that are open.
* `Mirrors` is what every step keeps: on top of what was stored before there is one position for each
  open block whose slot is undecided, and it is the start of that slot. In the code nothing links the
  two, so the invariant has to say also which slots are undecided at all.
* `Session.nestsAll` decides of a program whether it uses its slots so. Its run then goes through nested
  sessions only, at every record that it makes (`Nested.of_log`).
-/

namespace Descent

namespace Slots

/-! ### Slots that are undecided -/

/-- The start of the slot with this number, as long as it is undecided. -/
def undecided (s : Slots) (i : Nat) : Option Int :=
  s.all[i]?.bind fun slot => if slot.resolved then none else some slot.start

/-- The starts of those of the slots with these numbers that are undecided. -/
def pending (s : Slots) (blocks : List Nat) : List Int := blocks.filterMap s.undecided

/-- Whether the slot with this number may be decided now: it was decided before, or all that were opened
after it were. -/
def mayDecide (s : Slots) (i : Nat) : Bool :=
  (s.undecided i).isNone || (s.all.toList.drop (i + 1)).all (·.resolved)

variable {s : Slots} {slot : Slot} {i j : Nat} {name : String} {blocks : List Nat} {start : Int}

theorem undecided_eq_some_iff : s.undecided i = some start ↔
    ∃ slot, s.all[i]? = some slot ∧ slot.resolved = false ∧ slot.start = start := by
  simp only [undecided, Option.bind_eq_some_iff]
  constructor
  · rintro ⟨slot, hslot, h⟩
    cases hr : slot.resolved <;> simp [hr] at h
    exact ⟨slot, hslot, hr, h⟩
  · rintro ⟨slot, hslot, hr, rfl⟩
    exact ⟨slot, hslot, by simp [hr]⟩

theorem undecided_eq_none_iff (h : s.all[i]? = some slot) : s.undecided i = none ↔ slot.resolved := by
  simp [undecided, h]

theorem undecided_of_size_le (h : s.all.size ≤ i) : s.undecided i = none := by
  simp [undecided, h]

/-- A new slot is undecided, and the others are as they were. -/
theorem undecided_add (h : slot.resolved = false) :
    (s.add name slot).undecided j = if j = s.all.size then some slot.start else s.undecided j := by
  rw [undecided, add, Array.getElem?_push]
  split
  · simp [h]
  · rfl

/-- Where a slot is decided, the others are as they were. -/
theorem undecided_set (h : slot.resolved) :
    undecided { s with all := s.all.setIfInBounds i slot } j =
      if j = i then none else s.undecided j := by
  rw [undecided, Array.getElem?_setIfInBounds]
  by_cases hij : i = j
  · rw [if_pos hij, if_pos hij.symm]
    split
    · simp [h]
    · rfl
  · simp [hij, Ne.symm hij, undecided]

theorem undecided_of_mayDecide (h : s.mayDecide i) :
    s.undecided i = none ∨ ∀ j, i < j → s.undecided j = none := by
  rcases Bool.or_eq_true_iff.mp h with h | h
  · exact .inl (Option.isNone_iff_eq_none.mp h)
  · right
    intro j hj
    rcases hslot : s.all[j]? with _ | slot
    · simp [undecided, hslot]
    · apply (undecided_eq_none_iff hslot).mpr
      have hdrop : (s.all.toList.drop (i + 1))[j - (i + 1)]? = some slot := by
        rw [List.getElem?_drop, Nat.add_sub_of_le hj, Array.getElem?_toList, hslot]
      exact List.all_eq_true.mp h slot (List.mem_of_getElem? hdrop)

/-- Of the open blocks the innermost that is undecided gives the first of the pending starts. -/
theorem pending_eq_cons {s' : Slots} (hblocks : blocks.Pairwise (· > ·)) (hi : i ∈ blocks)
    (hstart : s.undecided i = some start) (hlater : ∀ j, i < j → s.undecided j = none)
    (hs' : ∀ j, s'.undecided j = if j = i then none else s.undecided j) :
    s.pending blocks = start :: s'.pending blocks := by
  induction blocks with
  | nil => cases hi
  | cons j rest ih =>
      obtain ⟨hj, hrest⟩ := List.pairwise_cons.mp hblocks
      rcases List.mem_cons.mp hi with rfl | hi
      · -- All others are blocks further out, and keep what they have.
        have hsame : s'.pending rest = s.pending rest := by
          apply List.filterMap_congr
          intro k hk
          rw [hs', if_neg (Nat.ne_of_lt (hj k hk))]
        rw [pending, List.filterMap_cons_some hstart, pending, List.filterMap_cons_none (by simp [hs'])]
        exact congrArg _ hsame.symm
      · have hnone : s.undecided j = none := hlater j (hj i hi)
        have hnone' : s'.undecided j = none := by simp [hs', hnone]
        rw [pending, List.filterMap_cons_none hnone, pending, List.filterMap_cons_none hnone']
        exact ih hrest hi

end Slots

/-! ### What is on the stack -/

/-- On top of what was stored before there is one position for each open block whose slot is undecided,
the start of that slot, innermost first. No other slot is undecided. -/
structure Mirrors (base blocks : List Nat) (c : Cursor) (slots : Slots) : Prop where
  saved_eq : c.saved.map Int.ofNat = slots.pending blocks ++ base.map Int.ofNat
  innermost_first : blocks.Pairwise (· > ·)
  lt_size : ∀ i ∈ blocks, i < slots.all.size
  decided : ∀ i, i ∉ blocks → slots.undecided i = none

namespace Mirrors

variable {base blocks : List Nat} {c d : Cursor} {slots slots' : Slots} {slot : Slot} {i : Nat}
  {start : Int}

theorem mem_of_undecided (h : Mirrors base blocks c slots) (hi : slots.undecided i = some start) :
    i ∈ blocks := by
  by_contra hnot
  rw [h.decided i hnot] at hi
  cases hi

/-- The slot of the innermost block has none after it that is undecided. -/
theorem undecided_of_lt (h : Mirrors base (i :: blocks) c slots) (j : Nat) (hj : i < j) :
    slots.undecided j = none := by
  apply h.decided
  intro hmem
  rcases List.mem_cons.mp hmem with rfl | hmem
  · exact Nat.lt_irrefl _ hj
  · exact Nat.lt_asymm hj ((List.pairwise_cons.mp h.innermost_first).1 j hmem)

/-- The position stored last is that of the last slot that is undecided. -/
theorem exists_saved_eq (h : Mirrors base blocks c slots) (hi : slots.undecided i = some start)
    (hlater : ∀ j, i < j → slots.undecided j = none)
    (hslots' : ∀ j, slots'.undecided j = if j = i then none else slots.undecided j) :
    ∃ k rest, c.saved = k :: rest ∧ Int.ofNat k = start ∧
      rest.map Int.ofNat = slots'.pending blocks ++ base.map Int.ofNat := by
  have hsaved := h.saved_eq
  rw [Slots.pending_eq_cons h.innermost_first (h.mem_of_undecided hi) hi hlater hslots',
    List.cons_append] at hsaved
  obtain ⟨k, rest, hc, hk, hrest⟩ := List.map_eq_cons_iff.mp hsaved
  exact ⟨k, rest, hc, hk, hrest⟩

/-- Consuming leaves the stack alone. -/
theorem of_saved_eq (h : Mirrors base blocks c slots) (hd : d.saved = c.saved) :
    Mirrors base blocks d slots where
  saved_eq := by rw [hd, h.saved_eq]
  innermost_first := h.innermost_first
  lt_size := h.lt_size
  decided := h.decided

/-- A block whose slot is decided may be left. -/
theorem tail (h : Mirrors base (i :: blocks) c slots) (hi : slots.undecided i = none) :
    Mirrors base blocks c slots where
  saved_eq := by rw [h.saved_eq, Slots.pending, List.filterMap_cons_none hi, Slots.pending]
  innermost_first := (List.pairwise_cons.mp h.innermost_first).2
  lt_size j hj := h.lt_size j (List.mem_cons_of_mem i hj)
  decided j hj := by
    by_cases hji : j = i
    · rw [hji, hi]
    · exact h.decided j (by simp [hji, hj])

/-- The slot of a new block starts where the cursor stands. -/
theorem enter (h : Mirrors base blocks c slots) (name : String) :
    Mirrors base (slots.all.size :: blocks) c.store
      (slots.add name { start := c.index }) where
  saved_eq := by
    have hsame : (slots.add name { start := c.index }).pending blocks = slots.pending blocks := by
      apply List.filterMap_congr
      intro j hj
      rw [Slots.undecided_add rfl, if_neg (Nat.ne_of_lt (h.lt_size j hj))]
    have hnew : (slots.add name { start := c.index }).undecided slots.all.size = some ↑c.index := by
      rw [Slots.undecided_add rfl, if_pos rfl]
    rw [Slots.pending, List.filterMap_cons_some hnew, List.cons_append]
    show Int.ofNat c.index :: c.saved.map Int.ofNat = _
    rw [h.saved_eq, ← hsame]
    rfl
  innermost_first := List.pairwise_cons.mpr ⟨h.lt_size, h.innermost_first⟩
  lt_size j hj := by
    rw [Slots.add, Array.size_push]
    rcases List.mem_cons.mp hj with rfl | hj
    · exact Nat.lt_succ_self _
    · exact Nat.lt_succ_of_lt (h.lt_size j hj)
  decided j hj := by
    obtain ⟨hne, hnot⟩ := not_or.mp (mt List.mem_cons.mpr hj)
    rw [Slots.undecided_add rfl, if_neg hne, h.decided j hnot]

/-- Where a slot is decided, the stack has to be brought in step with those that are left. -/
theorem of_decided (h : Mirrors base blocks c slots) (hsize : slots'.all.size = slots.all.size)
    (hslots' : ∀ j, slots'.undecided j = if j = i then none else slots.undecided j)
    (hd : d.saved.map Int.ofNat = slots'.pending blocks ++ base.map Int.ofNat) :
    Mirrors base blocks d slots' where
  saved_eq := hd
  innermost_first := h.innermost_first
  lt_size j hj := by
    rw [hsize]
    exact h.lt_size j hj
  decided j hj := by rw [hslots', h.decided j hj, ite_self]

end Mirrors

/-! ### Decisions -/

namespace Slot

variable {slot : Slot} {c : Cursor} {k : Nat} {rest : List Nat}

theorem commit_of_open (hr : slot.resolved = false) (hc : c.saved = k :: rest) :
    (slot.commit c).2 = .ok { c with saved := rest } := by
  simp [commit, resolve, hr, Cursor.clear, hc]

theorem rewind_of_open (hr : slot.resolved = false) (hc : c.saved = k :: rest) :
    (slot.rewind c).2 = .ok { c with index := k, saved := rest } := by
  simp [rewind, resolve, hr, Cursor.restore, hc]

theorem leave_of_open (hr : slot.resolved = false) (hc : c.saved = k :: rest) :
    (slot.leave c).2 = .ok { c with index := k, saved := rest } := by
  rw [leave, if_neg (by simp [hr])]
  exact rewind_of_open hr hc

theorem resolve_of_resolved (hr : slot.resolved) (act : Cursor → Except CursorError Cursor) :
    slot.resolve act c = (slot, .error .alreadyResolved) := by
  rw [resolve, if_pos hr]

end Slot

namespace Session

/-- What decides a slot: it counts as decided afterwards. If it was decided before, the cursor stays, and
otherwise one position is taken off the stack. -/
structure Decides (act : Slot → Cursor → Slot × Except CursorError Cursor) : Prop where
  slot_eq : ∀ slot c, (act slot c).1 = { slot with resolved := true }
  of_resolved : ∀ ⦃slot : Slot⦄ ⦃c d⦄, slot.resolved → (act slot c).2 = .ok d → d = c
  of_open : ∀ ⦃slot : Slot⦄ ⦃c : Cursor⦄ ⦃k rest⦄, slot.resolved = false → c.saved = k :: rest →
    ∃ d, (act slot c).2 = .ok d ∧ d.saved = rest

theorem decides_commit : Decides Slot.commit where
  slot_eq := by
    rintro ⟨start, resolved⟩ c
    cases resolved <;> rfl
  of_resolved slot c d hr h := by
    rw [Slot.commit, Slot.resolve_of_resolved hr] at h
    cases h
  of_open slot c k rest hr hc := ⟨_, Slot.commit_of_open hr hc, rfl⟩

theorem decides_rewind : Decides Slot.rewind where
  slot_eq := by
    rintro ⟨start, resolved⟩ c
    cases resolved <;> rfl
  of_resolved slot c d hr h := by
    rw [Slot.rewind, Slot.resolve_of_resolved hr] at h
    cases h
  of_open slot c k rest hr hc := ⟨_, Slot.rewind_of_open hr hc, rfl⟩

theorem decides_leave : Decides Slot.leave where
  slot_eq := by
    rintro ⟨start, resolved⟩ c
    cases resolved <;> rfl
  of_resolved slot c d hr h := by
    rw [Slot.leave, if_pos hr] at h
    exact (Except.ok.inj h).symm
  of_open slot c k rest hr hc := ⟨_, Slot.leave_of_open hr hc, rfl⟩

variable {κ ρ : Type} {hand : κ → Cursor → Except Error ρ × Cursor} {base blocks : List Nat}
  {s : Session κ ρ} {c : Cursor} {slot : Slot} {i : Nat} {start : Int}
  {act : Slot → Cursor → Slot × Except CursorError Cursor}

/-- What a decision comes to if it is carried out, and if it is refused. -/
theorem settle_of_ok {slot' : Slot} {d : Cursor} (hslot : s.slots.all[i]? = some slot)
    (h : act slot s.cursor = (slot', .ok d)) :
    s.settle act i = (.ok .nothing,
      { s with cursor := d, slots := { s.slots with all := s.slots.all.setIfInBounds i slot' } }) := by
  simp [settle, hslot, h]

theorem settle_of_refused {slot' : Slot} {e : CursorError} (hslot : s.slots.all[i]? = some slot)
    (h : act slot s.cursor = (slot', .error e)) :
    s.settle act i = (.error (.cursor e),
      { s with slots := { s.slots with all := s.slots.all.setIfInBounds i slot' } }) := by
  simp [settle, hslot, h]

/-- A decision of a slot changes nothing about the others. -/
theorem slots_settle (hslot : s.slots.all[i]? = some slot) :
    (s.settle act i).2.slots =
      { s.slots with all := s.slots.all.setIfInBounds i (act slot s.cursor).1 } := by
  rcases h : act slot s.cursor with ⟨slot', e | d⟩
  · rw [settle_of_refused hslot h]
  · rw [settle_of_ok hslot h]

theorem size_slots_settle : (s.settle act i).2.slots.all.size = s.slots.all.size := by
  rcases hslot : s.slots.all[i]? with _ | slot
  · simp only [settle, hslot]
  · rw [slots_settle hslot, Array.size_setIfInBounds]

theorem undecided_settle (hact : Decides act) (j : Nat) :
    (s.settle act i).2.slots.undecided j = if j = i then none else s.slots.undecided j := by
  rcases hslot : s.slots.all[i]? with _ | slot
  · have hnone : s.slots.undecided i = none := by simp [Slots.undecided, hslot]
    simp only [settle, hslot]
    split
    · next h => rw [h, hnone]
    · rfl
  · rw [slots_settle hslot]
    exact Slots.undecided_set (by rw [hact.slot_eq])

/-- A slot that was decided before moves no cursor. -/
theorem cursor_settle_of_decided (hact : Decides act) (hi : s.slots.undecided i = none) :
    (s.settle act i).2.cursor = s.cursor := by
  rcases hslot : s.slots.all[i]? with _ | slot
  · simp only [settle, hslot]
  · have hresolved : slot.resolved := (Slots.undecided_eq_none_iff hslot).mp hi
    rcases h : act slot s.cursor with ⟨slot', e | d⟩
    · rw [settle_of_refused hslot h]
    · rw [settle_of_ok hslot h]
      exact hact.of_resolved hresolved (by rw [h])

/-- A slot that is undecided takes the position stored last off the stack. -/
theorem settle_of_undecided (hact : Decides act) {k : Nat} {rest : List Nat}
    (hi : s.slots.undecided i = some start) (hc : s.cursor.saved = k :: rest) :
    (s.settle act i).1 = .ok .nothing ∧ (s.settle act i).2.cursor.saved = rest := by
  obtain ⟨slot, hslot, hopen, -⟩ := Slots.undecided_eq_some_iff.mp hi
  obtain ⟨d, hd, hrest⟩ := hact.of_open hopen hc
  rw [settle_of_ok hslot (Prod.ext rfl hd)]
  exact ⟨rfl, hrest⟩

/-- **A decision keeps the stack in step with the slots**, if no later slot is undecided. -/
theorem mirrors_settle (hact : Decides act) (h : Mirrors base blocks s.cursor s.slots)
    (hmay : s.slots.undecided i = none ∨ ∀ j, i < j → s.slots.undecided j = none) :
    Mirrors base blocks (s.settle act i).2.cursor (s.settle act i).2.slots := by
  apply h.of_decided size_slots_settle (undecided_settle hact)
  rcases hopen : s.slots.undecided i with _ | start
  · have hsame : (s.settle act i).2.slots.undecided = s.slots.undecided := by
      funext j
      rw [undecided_settle hact]
      split
      · next hj => rw [hj, hopen]
      · rfl
    rw [cursor_settle_of_decided hact hopen, h.saved_eq, Slots.pending, Slots.pending, hsame]
  · have hlater := hmay.resolve_left (by simp [hopen])
    obtain ⟨k, rest, hc, -, hrest⟩ := h.exists_saved_eq hopen hlater (undecided_settle (i := i) hact)
    rw [(settle_of_undecided hact hopen hc).2, hrest]

/-! ### Nested use -/

/-- Whether an operation has a part in nested use. Positions are stored by blocks only, and slots are
decided in order. -/
def permits (s : Session κ ρ) : Op κ → Bool
  | .commit name | .rewind name => (s.slots.find? name).all s.slots.mayDecide
  | .store | .clear | .restore | .slot _ _ | .call _ => false
  | _ => true

theorem mirrors_settle_withSlot (hact : Decides act) (h : Mirrors base blocks s.cursor s.slots)
    {name : String} (hmay : (s.slots.find? name).all s.slots.mayDecide) :
    Mirrors base blocks (s.withSlot name fun i => s.settle act i).2.cursor
      (s.withSlot name fun i => s.settle act i).2.slots := by
  unfold withSlot
  split
  · next i hi =>
      rw [hi] at hmay
      exact mirrors_settle hact h (Slots.undecided_of_mayDecide hmay)
  · exact h

/-- **Every operation of nested use keeps the stack in step with the slots.** -/
theorem mirrors_perform (h : Mirrors base blocks s.cursor s.slots) {o : Op κ} (ho : s.permits o) :
    Mirrors base blocks (s.perform hand o).2.cursor (s.perform hand o).2.slots := by
  cases o with
  | store | clear | restore | slot | call => cases ho
  | peek | remainder | errorPosition | size | raise => exact h
  | consume =>
      apply h.of_saved_eq
      simp only [perform, Cursor.consume]
      split <;> rfl
  | consumeIf types =>
      apply h.of_saved_eq
      simp only [perform, Cursor.consumeIf, Cursor.consume]
      split
      · split
        · split <;> rfl
        · rfl
      · rfl
  | commit name => exact mirrors_settle_withSlot decides_commit h ho
  | rewind name => exact mirrors_settle_withSlot decides_rewind h ho
  | progressed name =>
      simp only [perform]
      rcases withSlot_eq name s _ with ⟨i, hi⟩ | hi <;> rw [hi] <;> exact h

/-- Sessions that nested use comes to from this cursor, and the numbers of the slots whose blocks are
open, the innermost first. After every operation a program is free to do what it likes: it may go on,
enter a block, or leave the innermost one, with an error or without. -/
inductive Nested (hand : κ → Cursor → Except Error ρ × Cursor) (c : Cursor) :
    List Nat → Session κ ρ → Prop
  | start : Nested hand c [] { cursor := c }
  | op {blocks : List Nat} {s : Session κ ρ} (o : Op κ) :
      Nested hand c blocks s → s.permits o → Nested hand c blocks (exec hand (.op o) s).2
  | enter {blocks : List Nat} {s : Session κ ρ} (name : String) :
      Nested hand c blocks s → Nested hand c (s.slots.all.size :: blocks) (s.enter name)
  | leave {i : Nat} {blocks : List Nat} {s : Session κ ρ} (name : String) (error : Option Error) :
      Nested hand c (i :: blocks) s → Nested hand c blocks (s.leave name i error).2

/-- **In nested use the stack mirrors the open blocks.** -/
theorem Nested.mirrors (h : Nested hand c blocks s) : Mirrors c.saved blocks s.cursor s.slots := by
  induction h with
  | start =>
      refine ⟨rfl, .nil, nofun, fun i _ => ?_⟩
      exact Slots.undecided_of_size_le (Nat.zero_le i)
  | op o _ ho ih =>
      rw [exec]
      exact mirrors_perform ih ho
  | enter name _ ih => exact ih.enter name
  | @leave i blocks s name error _ ih =>
      have hsettle := mirrors_settle decides_leave ih (.inr ih.undecided_of_lt)
      apply Mirrors.tail hsettle
      rw [undecided_settle decides_leave, if_pos rfl]

/-! ### Programs -/

mutual

/-- Whether a command, run from this session, makes nested use of the cursor. -/
def nests (hand : κ → Cursor → Except Error ρ × Cursor) : Command κ → Session κ ρ → Bool
  | .op o, s => s.permits o
  | .speculate name body, s => nestsAll hand body (s.enter name)
  | .recover body, s => nestsAll hand body s

/-- Whether commands, run from this session up to the first that an error comes out of, make nested use
of the cursor. -/
def nestsAll (hand : κ → Cursor → Except Error ρ × Cursor) :
    List (Command κ) → Session κ ρ → Bool
  | [], _ => true
  | command :: rest, s =>
    nests hand command s &&
      match exec hand command s with
      | (none, s) => nestsAll hand rest s
      | (some _, _) => true

end

mutual

/-- A program that makes nested use leaves the same blocks open. -/
theorem Nested.exec : ∀ (command : Command κ) {blocks : List Nat} {s : Session κ ρ},
    Nested hand c blocks s → nests hand command s → Nested hand c blocks (exec hand command s).2
  | .op o, _, _, h, ho => by
      rw [nests] at ho
      exact .op o h ho
  | .speculate name body, _, s, h, hbody => by
      rw [nests] at hbody
      rw [Session.exec]
      exact .leave name _ (Nested.execAll body (.enter name h) hbody)
  | .recover body, _, _, h, hbody => by
      rw [nests] at hbody
      rw [Session.exec]
      exact Nested.execAll body h hbody

theorem Nested.execAll : ∀ (commands : List (Command κ)) {blocks : List Nat} {s : Session κ ρ},
    Nested hand c blocks s → nestsAll hand commands s →
      Nested hand c blocks (execAll hand commands s).2
  | [], _, _, h, _ => by
      rw [Session.execAll]
      exact h
  | command :: rest, blocks, s, h, hall => by
      rw [nestsAll, Bool.and_eq_true] at hall
      obtain ⟨hcommand, hrest⟩ := hall
      have hs := Nested.exec command h hcommand
      rw [Session.execAll]
      rcases heq : Session.exec hand command s with ⟨_ | e, s'⟩ <;> rw [heq] at hs hrest
      · exact Nested.execAll rest hs hrest
      · exact hs

end

/-! ### What a program records -/

/-- The blocks that are open after a record, given those that were open before it. The slot of a block
that was just entered is the newest one. -/
def opened (blocks : List Nat) (m : Moment κ ρ) : List Nat :=
  match m.event with
  | .performed _ _ => blocks
  | .entered _ => (m.slots.all.size - 1) :: blocks
  | .left _ _ => blocks.tail

/-- The blocks that are open after these records. -/
def openAfter (log : List (Moment κ ρ)) : List Nat := log.foldl opened []

theorem openAfter_concat (log : List (Moment κ ρ)) (m : Moment κ ρ) :
    openAfter (log ++ [m]) = opened (openAfter log) m := by
  rw [openAfter, List.foldl_append]
  rfl

theorem log_record (event : Event κ ρ) (s : Session κ ρ) :
    (s.record event).log.toList = s.log.toList ++ [{ event, cursor := s.cursor, slots := s.slots }] :=
  Array.toList_push

/-- The records tell which blocks are open. -/
theorem Nested.openAfter_eq (h : Nested hand c blocks s) : openAfter s.log.toList = blocks := by
  induction h with
  | start => rfl
  | op o _ _ ih =>
      rw [Session.exec, log_record, log_perform, openAfter_concat, ih]
      rfl
  | @enter blocks s name _ ih =>
      rw [Session.enter, log_record, openAfter_concat, ih]
      simp [opened, Slots.add]
  | leave name error _ ih =>
      rw [Session.leave, log_record, log_settle, openAfter_concat, ih]
      rfl

/-- What is recorded of a session is recorded of the session before its last record, or right now. -/
theorem Nested.of_log_record {event : Event κ ρ} {before after : List (Moment κ ρ)} {m : Moment κ ρ}
    (h : Nested hand c blocks (s.record event))
    (hlog : (s.record event).log.toList = before ++ m :: after) :
    (∃ after', s.log.toList = before ++ m :: after') ∨
    ∃ r, Nested hand c (openAfter (before ++ [m])) r ∧ r.cursor = m.cursor ∧ r.slots = m.slots := by
  rcases List.eq_nil_or_concat after with rfl | ⟨after', m', rfl⟩
  · right
    have hopen := h.openAfter_eq
    rw [hlog] at hopen
    rw [log_record] at hlog
    obtain ⟨-, hm⟩ := List.append_inj' hlog rfl
    cases hm
    exact ⟨s.record event, hopen ▸ h, rfl, rfl⟩
  · left
    rw [log_record, List.concat_eq_append, ← List.cons_append, ← List.append_assoc] at hlog
    obtain ⟨hbefore, -⟩ := List.append_inj' hlog rfl
    exact ⟨after', hbefore⟩

/-- **Every record of nested use is of a session that nested use comes to**, with the blocks open that
the records up to there tell. -/
theorem Nested.of_log (h : Nested hand c blocks s) {before after : List (Moment κ ρ)} {m : Moment κ ρ}
    (hlog : s.log.toList = before ++ m :: after) :
    ∃ r, Nested hand c (openAfter (before ++ [m])) r ∧ r.cursor = m.cursor ∧ r.slots = m.slots := by
  induction h generalizing after with
  | start => simp at hlog
  | op o h ho ih =>
      have hs := Nested.op o h ho
      rw [Session.exec] at hs hlog
      rcases hs.of_log_record hlog with ⟨after', hlog'⟩ | hr
      · rw [log_perform] at hlog'
        exact ih hlog'
      · exact hr
  | enter name h ih =>
      rcases (Nested.enter name h).of_log_record hlog with ⟨after', hlog'⟩ | hr
      · exact ih hlog'
      · exact hr
  | leave name error h ih =>
      have hs := Nested.leave name error h
      rw [Session.leave] at hs hlog
      rcases hs.of_log_record hlog with ⟨after', hlog'⟩ | hr
      · rw [log_settle] at hlog'
        exact ih hlog'
      · exact hr

/-! ### What slots do -/

/-- The position that an undecided slot finds on top of the stack is its start. -/
theorem Nested.exists_saved_eq (h : Nested hand c blocks s) (hi : s.slots.undecided i = some start)
    (hlater : ∀ j, i < j → s.slots.undecided j = none) :
    ∃ k rest slot, s.cursor.saved = k :: rest ∧ Int.ofNat k = start ∧
      s.slots.all[i]? = some slot ∧ slot.resolved = false := by
  obtain ⟨k, rest, hc, hk, -⟩ :=
    h.mirrors.exists_saved_eq hi hlater (undecided_settle (i := i) decides_rewind)
  obtain ⟨slot, hslot, hopen, -⟩ := Slots.undecided_eq_some_iff.mp hi
  exact ⟨k, rest, slot, hc, hk, hslot, hopen⟩

/-- **A slot that is decided in order does what it says**: rewinding goes back to its start, and
committing does not move the cursor. -/
theorem Nested.settle_of_undecided (h : Nested hand c blocks s)
    (hi : s.slots.undecided i = some start) (hmay : s.slots.mayDecide i) :
    ((s.settle Slot.rewind i).1 = .ok .nothing ∧
      (s.settle Slot.rewind i).2.cursor.index = start) ∧
    ((s.settle Slot.commit i).1 = .ok .nothing ∧
      (s.settle Slot.commit i).2.cursor.index = s.cursor.index) := by
  have hlater := (Slots.undecided_of_mayDecide hmay).resolve_left (by simp [hi])
  obtain ⟨k, rest, slot, hc, hk, hslot, hopen⟩ := h.exists_saved_eq hi hlater
  rw [settle_of_ok hslot (Prod.ext rfl (Slot.rewind_of_open hopen hc)),
    settle_of_ok hslot (Prod.ext rfl (Slot.commit_of_open hopen hc))]
  exact ⟨⟨rfl, hk⟩, rfl, rfl⟩

/-- A slot that is decided says so. -/
theorem exists_resolved (hsize : i < s.slots.all.size) (hi : s.slots.undecided i = none) :
    ∃ slot, s.slots.all[i]? = some slot ∧ slot.resolved := by
  have hslot : s.slots.all[i]? = some s.slots.all[i] := Array.getElem?_eq_getElem hsize
  exact ⟨_, hslot, (Slots.undecided_eq_none_iff hslot).mp hi⟩

/-- A slot is decided once. -/
theorem settle_of_decided (hsize : i < s.slots.all.size) (hi : s.slots.undecided i = none)
    (act : Cursor → Except CursorError Cursor) :
    (s.settle (Slot.resolve act) i).1 = .error (.cursor .alreadyResolved) ∧
      (s.settle (Slot.resolve act) i).2.cursor = s.cursor := by
  obtain ⟨slot, hslot, hresolved⟩ := exists_resolved hsize hi
  rw [settle_of_refused hslot (Slot.resolve_of_resolved hresolved act)]
  exact ⟨rfl, rfl⟩

/-- **Leaving a block is never an error by itself.** If its slot is undecided, the cursor goes back to
where the block began. -/
theorem Nested.leave_eq (h : Nested hand c (i :: blocks) s) (name : String) (error : Option Error) :
    (s.leave name i error).1 = error ∧
      ∀ start, s.slots.undecided i = some start →
        (s.leave name i error).2.cursor.index = start := by
  rcases hi : s.slots.undecided i with _ | start
  · have hsize : i < s.slots.all.size := h.mirrors.lt_size i List.mem_cons_self
    obtain ⟨slot, hslot, hresolved⟩ := exists_resolved hsize hi
    have hleave : slot.leave s.cursor = (slot, .ok s.cursor) := by rw [Slot.leave, if_pos hresolved]
    rw [Session.leave, settle_of_ok hslot hleave]
    refine ⟨rfl, fun start heq => ?_⟩
    cases heq
  · obtain ⟨k, rest, slot, hc, hk, hslot, hopen⟩ := h.exists_saved_eq hi h.mirrors.undecided_of_lt
    have hrestore : s.cursor.restore = .ok { s.cursor with index := k, saved := rest } := by
      rw [Cursor.restore, hc]
    obtain ⟨herror, hcursor⟩ := leave_of_undecided ⟨slot, hslot, hopen⟩ hrestore name error
    refine ⟨herror, fun start' heq => ?_⟩
    cases heq
    rw [hcursor]
    exact hk

/-! ### The stack and the open blocks -/

/-- **In nested use the stack mirrors the open blocks.** Whatever a program does with a cursor by looking,
by consuming, and by blocks, as long as it decides a slot only after those that were opened inside its
block: after every operation the stack holds, on top of what was stored before the program, the starts of
the open blocks whose slots are undecided, the innermost on top. To rewind such a slot goes back to its
start, and to commit it does not move the cursor. A slot that was decided refuses to be decided again, and
leaves the cursor as it is. A block that is left undecided goes back to where it began, and leaving a block
keeps the error that is on its way, if there is one. With no block open the stack is that from before.

The run of a program that makes nested use goes through such sessions at each of its records, with those
blocks open that were entered and not left, and it ends with none. -/
theorem stack_mirrors_open_blocks (hand : κ → Cursor → Except Error ρ × Cursor) (c : Cursor) :
    (∀ (blocks : List Nat) (s : Session κ ρ), Nested hand c blocks s →
      s.cursor.saved.map Int.ofNat = s.slots.pending blocks ++ c.saved.map Int.ofNat ∧
      (∀ i start, s.slots.undecided i = some start → i ∈ blocks ∧
        (s.slots.mayDecide i →
          ((s.settle Slot.rewind i).1 = .ok .nothing ∧
            (s.settle Slot.rewind i).2.cursor.index = start) ∧
          ((s.settle Slot.commit i).1 = .ok .nothing ∧
            (s.settle Slot.commit i).2.cursor.index = s.cursor.index))) ∧
      (∀ i, i < s.slots.all.size → s.slots.undecided i = none →
        ∀ act ∈ [Slot.commit, Slot.rewind],
          (s.settle act i).1 = .error (.cursor .alreadyResolved) ∧
            (s.settle act i).2.cursor = s.cursor) ∧
      (∀ i outer, blocks = i :: outer → ∀ name error, (s.leave name i error).1 = error ∧
        ∀ start, s.slots.undecided i = some start →
          (s.leave name i error).2.cursor.index = start) ∧
      (blocks = [] → s.cursor.saved = c.saved)) ∧
    ∀ commands : List (Command κ), nestsAll hand commands { cursor := c } →
      Nested hand c [] (execAll hand commands { cursor := c }).2 ∧
      ∀ before m after,
        (execAll hand commands { cursor := c }).2.log.toList = before ++ m :: after →
        ∃ s, Nested hand c (openAfter (before ++ [m])) s ∧ s.cursor = m.cursor ∧
          s.slots = m.slots := by
  refine ⟨fun blocks s h => ⟨h.mirrors.saved_eq, ?_, ?_, ?_, ?_⟩, ?_⟩
  · intro i start hi
    exact ⟨h.mirrors.mem_of_undecided hi, h.settle_of_undecided hi⟩
  · intro i hsize hi act hact
    simp only [List.mem_cons, List.not_mem_nil, or_false] at hact
    rcases hact with rfl | rfl
    · exact settle_of_decided hsize hi Cursor.clear
    · exact settle_of_decided hsize hi Cursor.restore
  · rintro i outer rfl name error
    exact h.leave_eq name error
  · rintro rfl
    have hsaved := h.mirrors.saved_eq
    exact List.map_injective_iff.mpr (fun _ _ => Int.ofNat.inj) hsaved
  · intro commands hnests
    have hstart : Nested hand c [] { cursor := c } := .start
    have h := Nested.execAll commands hstart hnests
    exact ⟨h, fun before m after hlog => h.of_log hlog⟩

/-- Three blocks in one another, all decided in the innermost, from the inside out. The outermost is
decided once more, which is recovered from. Then an error ends a fourth block, which is undecided, and the
other three with it. -/
theorem stack_mirrors_open_blocks_unwound :
    let t : Token := ⟨"A", "a", .start⟩
    let T := #[t, t, t, t]
    let c : Cursor := ⟨T, 1, [0]⟩
    let hand : Empty → Cursor → Except Error Empty × Cursor := Empty.elim
    let program : List (Command Empty) :=
      [.recover [.speculate "outer" [.op .consume, .speculate "middle" [.op .consume,
        .speculate "inner" [.op (.rewind "inner"), .op (.commit "middle"), .op (.rewind "outer"),
          .recover [.op (.commit "outer")], .op .consume,
          .speculate "last" [.op .consume, .op (.raise (.caller "boom"))]]]]]]
    nestsAll hand program { cursor := c } ∧
      (execAll hand program { cursor := c }).2.cursor = ⟨T, 2, [0]⟩ ∧
      Nested hand c [] (execAll hand program { cursor := c }).2 ∧
      -- Where the first of them was decided, the two others are left.
      ∃ s, Nested hand c [2, 1, 0] s ∧ s.cursor = ⟨T, 3, [2, 1, 0]⟩ ∧
        s.slots.pending [2, 1, 0] = [2, 1] := by
  intro t T c hand program
  have hnests : nestsAll hand program { cursor := c } := by decide +kernel
  have hcursor : (execAll hand program { cursor := c }).2.cursor = ⟨T, 2, [0]⟩ := by
    decide +kernel
  obtain ⟨hsessions, hprograms⟩ := stack_mirrors_open_blocks hand c
  have hstart : Nested hand c [] { cursor := c } := .start
  have houter := Nested.op .consume (.enter "outer" hstart) rfl
  have hmiddle := Nested.op .consume (.enter "middle" houter) rfl
  have hinner := Nested.op (.rewind "inner") (.enter "inner" hmiddle) (by decide +kernel)
  refine ⟨hnests, hcursor, (hprograms program hnests).1, _, hinner, by decide +kernel, ?_⟩
  have hsaved := (hsessions _ _ hinner).1
  exact (List.append_cancel_right hsaved).symm

end Session

end Descent
