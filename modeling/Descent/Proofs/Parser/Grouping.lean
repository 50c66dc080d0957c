import Descent.Parser.Custom
import Descent.Proofs.Parser.Balance
import Mathlib.Data.List.Forall2

/-!
# Parts of a sequence in groups

A sequence may have sequences among its parts, and these others again. The values are then nested in the
same way, and that is all that comes of it. Parts may be any parsers: they may fail after they consumed,
leave stored positions behind, take those of others, raise an error, or not end.

* `grouped` is the parser that a tree of parts stands for, and `calls` are the calls it makes to the parts,
  in order, each with the cursor at which it is made. `grouped_called` says that it is these calls and no
  others that the answer comes from.
* The leaves of the values are what groups do not change. With only them kept, a sequence can be cut
  anywhere (`flatten_sequence_append`), and a tree of parts comes to the sequence of its leaves
  (`leaves_grouped`). The calls follow, because a part is called where the parts before it left off
  (`callsAll_eq`).
-/

namespace Descent.Parser

variable {ι α β : Type}

/-! ### Groups -/

section Groups

variable (run : ι → Parser Value)

mutual

/-- The parser that a tree of parts stands for, with a sequence for each of its lists. -/
def grouped : Tree ι → Parser Value
  | .leaf i => run i
  | .list ts => Value.ofList <$> sequence (groupedAll ts)

/-- The parsers that trees of parts stand for. -/
def groupedAll : List (Tree ι) → List (Parser Value)
  | [] => []
  | t :: ts => grouped t :: groupedAll ts

end

/-- The cursor with which a parser succeeds, if it does. -/
def passed (p : Parser α) (c : Cursor) : Option Cursor :=
  match p c with
  | some (.success _, d) => some d
  | _ => none

mutual

/-- The calls that a tree of parts makes from a cursor. -/
def calls : Tree ι → Cursor → List (ι × Cursor)
  | .leaf i, c => [(i, c)]
  | .list ts, c => callsAll ts c

/-- The calls that trees of parts make from a cursor, one tree after another: each is run where the one
before succeeded. -/
def callsAll : List (Tree ι) → Cursor → List (ι × Cursor)
  | [], _ => []
  | t :: ts, c => calls t c ++ (passed (grouped run t) c).elim [] (callsAll ts)

end

theorem groupedAll_map_leaf (is : List ι) : groupedAll run (is.map .leaf) = is.map run := by
  induction is with
  | nil => rw [List.map_nil, List.map_nil, groupedAll]
  | cons i is ih => rw [List.map_cons, List.map_cons, groupedAll, grouped, ih]

end Groups

/-! ### Success -/

theorem passed_eq_some_iff {p : Parser α} {c d : Cursor} :
    passed p c = some d ↔ ∃ a, p c = some (.success a, d) := by
  rw [passed]
  split
  · next a e h => simp [h, eq_comm]
  · next h => exact ⟨nofun, fun ⟨a, ha⟩ => (h a d ha).elim⟩

theorem passed_map (f : α → β) (p : Parser α) : passed (f <$> p) = passed p := by
  funext c
  rw [passed, passed, map_apply]
  rcases p c with _ | ⟨v, d⟩
  · rfl
  · cases v <;> rfl

theorem sequence_cons_of_success {p : Parser α} {ps : List (Parser α)} {c d : Cursor} {a : α}
    (h : p c = some (.success a, d)) : sequence (p :: ps) c = ((a :: ·) <$> sequence ps) d := by
  rw [sequence, Parser.bind, h]
  rfl

/-- Parsers in a row succeed where the last does, if each of them succeeds. -/
theorem passed_sequence_cons (p : Parser α) (ps : List (Parser α)) (c : Cursor) :
    passed (sequence (p :: ps)) c = (passed p c).bind (passed (sequence ps)) := by
  rcases h : p c with _ | ⟨v, d⟩
  · simp only [passed, sequence, Parser.bind, h, Option.bind_none]
  · cases v with
    | success a =>
        rw [passed, sequence_cons_of_success h, ← passed, passed_map,
          passed_eq_some_iff.mpr ⟨a, h⟩, Option.bind_some]
    | failure f => simp only [passed, sequence, Parser.bind, h, Option.bind_none]
    | raised e => simp only [passed, sequence, Parser.bind, h, Option.bind_none]

/-! ### The leaves of the values -/

theorem map_eq_bind (f : α → β) (p : Parser α) : f <$> p = p.bind fun a => always (f a) := rfl

theorem always_bind (a : α) (f : α → Parser β) : (always a).bind f = f a := rfl

/-- The leaves of the values of a sequence are those of the first value, and those of the others. -/
theorem flatten_sequence_cons (p : Parser Value) (ps : List (Parser Value)) :
    Tree.flatten <$> sequence (p :: ps) =
      (Tree.leaves <$> p).bind fun as => (as ++ ·) <$> Tree.flatten <$> sequence ps := by
  simp only [map_eq_bind, sequence, bind_assoc, always_bind, Tree.flatten_cons]

/-- **A sequence can be cut anywhere**, as far as the leaves of its values are concerned. -/
theorem flatten_sequence_append (ps qs : List (Parser Value)) :
    Tree.flatten <$> sequence (ps ++ qs) =
      (Tree.flatten <$> sequence ps).bind fun as => (as ++ ·) <$> Tree.flatten <$> sequence qs := by
  induction ps with
  | nil => simp only [List.nil_append, sequence, map_eq_bind, always_bind, Tree.flatten_nil, bind_assoc]
  | cons p ps ih =>
      rw [List.cons_append, flatten_sequence_cons, ih, flatten_sequence_cons]
      simp only [map_eq_bind, bind_assoc, always_bind, List.append_assoc]

section Groups

variable (run : ι → Parser Value)

mutual

/-- A part of a sequence, and the leaves of it as a sequence of their own. -/
theorem leaves_grouped :
    ∀ t, Tree.leaves <$> grouped run t = Tree.flatten <$> sequence ((Tree.leaves t).map run)
  | .leaf i => by
      rw [grouped, Tree.leaves_leaf, List.map_singleton, flatten_sequence_cons]
      simp only [sequence, map_eq_bind, always_bind, bind_assoc, Tree.flatten_nil, List.append_nil]
  | .list ts => by
      rw [grouped, Tree.leaves_list, ← flatten_groupedAll ts]
      simp only [map_eq_bind, bind_assoc, always_bind, Value.ofList, Tree.leaves_list]

/-- **The leaves of the values do not depend on groups.** -/
theorem flatten_groupedAll : ∀ ts, Tree.flatten <$> sequence (groupedAll run ts) =
    Tree.flatten <$> sequence ((Tree.flatten ts).map run)
  | [] => by rw [groupedAll, Tree.flatten_nil, List.map_nil]
  | t :: ts => by
      rw [groupedAll, flatten_sequence_cons, leaves_grouped t, flatten_groupedAll ts, Tree.flatten_cons,
        List.map_append, flatten_sequence_append]

end

/-! ### The calls -/

/-- A part succeeds where the sequence of its leaves does. -/
theorem passed_grouped (t : Tree ι) :
    passed (grouped run t) = passed (sequence ((Tree.leaves t).map run)) := by
  rw [← passed_map Tree.leaves, leaves_grouped, passed_map]

theorem callsAll_append (ts us : List (Tree ι)) (c : Cursor) : callsAll run (ts ++ us) c =
    callsAll run ts c ++ (passed (sequence (groupedAll run ts)) c).elim [] (callsAll run us) := by
  induction ts generalizing c with
  | nil => rw [List.nil_append, callsAll, List.nil_append, groupedAll]; rfl
  | cons t ts ih =>
      rw [List.cons_append, callsAll, callsAll, groupedAll, passed_sequence_cons, List.append_assoc]
      congr 1
      cases passed (grouped run t) c with
      | none => rfl
      | some d => exact ih d

mutual

theorem calls_eq : ∀ t c, calls run t c = callsAll run ((Tree.leaves t).map .leaf) c
  | .leaf i, c => by
      rw [Tree.leaves_leaf, List.map_singleton, callsAll]
      cases passed (grouped run (.leaf i)) c with
      | none => exact (List.append_nil _).symm
      | some d => rw [Option.elim_some, callsAll, List.append_nil]
  | .list ts, c => by rw [calls, Tree.leaves_list, callsAll_eq ts c]

/-- **The calls do not depend on groups.** -/
theorem callsAll_eq : ∀ ts c, callsAll run ts c = callsAll run ((Tree.flatten ts).map .leaf) c
  | [], c => by rw [Tree.flatten_nil, List.map_nil]
  | t :: ts, c => by
      rw [callsAll, Tree.flatten_cons, List.map_append, callsAll_append, groupedAll_map_leaf,
        ← passed_grouped, calls_eq t c]
      congr 1
      cases passed (grouped run t) c with
      | none => rfl
      | some d => exact callsAll_eq ts d

end

/-! ### What the calls are -/

variable {run} {run' : ι → Parser Value} {x : ι × Cursor}

/-- Of an answer that is made of parts: it runs them at exactly these calls. What a part does elsewhere
makes no difference, and if one does not end at one of the calls, there is no answer. -/
structure PartsCalledAt {γ : Type} (answer : (ι → Parser Value) → Option γ) (run : ι → Parser Value)
    (calls : List (ι × Cursor)) : Prop where
  only_there : ∀ run', (∀ x ∈ calls, run' x.1 x.2 = run x.1 x.2) → answer run' = answer run
  everywhere_there : ∀ run', ∀ x ∈ calls, (∀ y, y ≠ x → run' y.1 y.2 = run y.1 y.2) →
    run' x.1 x.2 = none → answer run' = none

theorem mem_callsAll_cons {t : Tree ι} {ts : List (Tree ι)} {c : Cursor} :
    x ∈ callsAll run (t :: ts) c ↔
      x ∈ calls run t c ∨ ∃ a d, grouped run t c = some (.success a, d) ∧ x ∈ callsAll run ts d := by
  rw [callsAll, List.mem_append]
  apply or_congr_right
  cases hpassed : passed (grouped run t) c with
  | none =>
      refine ⟨nofun, fun ⟨a, d, ha, _⟩ => ?_⟩
      cases hpassed.symm.trans (passed_eq_some_iff.mpr ⟨a, ha⟩)
  | some d =>
      obtain ⟨a, ha⟩ := passed_eq_some_iff.mp hpassed
      simp [ha]

mutual

theorem grouped_congr : ∀ t c, (∀ x ∈ calls run t c, run' x.1 x.2 = run x.1 x.2) →
    grouped run' t c = grouped run t c
  | .leaf i, c, h => by
      rw [grouped, grouped]
      exact h (i, c) (by rw [calls]; exact List.mem_cons_self)
  | .list ts, c, h => by
      rw [grouped, grouped, map_apply, map_apply, sequence_congr ts c (by rwa [calls] at h)]

theorem sequence_congr : ∀ ts c, (∀ x ∈ callsAll run ts c, run' x.1 x.2 = run x.1 x.2) →
    sequence (groupedAll run' ts) c = sequence (groupedAll run ts) c
  | [], _, _ => by rw [groupedAll, groupedAll]
  | t :: ts, c, h => by
      have hhead := grouped_congr t c fun x hx => h x (mem_callsAll_cons.mpr (.inl hx))
      rw [groupedAll, groupedAll]
      rcases hgrouped : grouped run t c with _ | ⟨v, d⟩
      · rw [sequence, sequence, Parser.bind, Parser.bind, hhead, hgrouped]
      · cases v with
        | success a =>
            have htail := sequence_congr ts d fun x hx =>
              h x (mem_callsAll_cons.mpr (.inr ⟨a, d, hgrouped, hx⟩))
            rw [sequence_cons_of_success (hhead.trans hgrouped), sequence_cons_of_success hgrouped,
              map_apply, map_apply, htail]
        | failure f => rw [sequence, sequence, Parser.bind, Parser.bind, hhead, hgrouped]
        | raised e => rw [sequence, sequence, Parser.bind, Parser.bind, hhead, hgrouped]

end

mutual

theorem grouped_none (hother : ∀ y, y ≠ x → run' y.1 y.2 = run y.1 y.2) (hx : run' x.1 x.2 = none) :
    ∀ t c, x ∈ calls run t c → grouped run' t c = none
  | .leaf i, c, h => by
      rw [calls, List.mem_singleton] at h
      subst h
      rw [grouped]
      exact hx
  | .list ts, c, h => by
      rw [calls] at h
      rw [grouped, map_apply, sequence_none hother hx ts c h]
      rfl

theorem sequence_none (hother : ∀ y, y ≠ x → run' y.1 y.2 = run y.1 y.2) (hx : run' x.1 x.2 = none) :
    ∀ ts c, x ∈ callsAll run ts c → sequence (groupedAll run' ts) c = none
  | [], _, h => by
      rw [callsAll] at h
      cases h
  | t :: ts, c, h => by
      rw [groupedAll]
      by_cases hmem : x ∈ calls run t c
      · rw [sequence, Parser.bind, grouped_none hother hx t c hmem]
      · obtain ⟨a, d, ha, htail⟩ := (mem_callsAll_cons.mp h).resolve_left hmem
        -- The calls before this one go as they did.
        have hhead : grouped run' t c = grouped run t c := by
          apply grouped_congr
          intro y hy
          apply hother
          rintro rfl
          exact hmem hy
        rw [sequence_cons_of_success (hhead.trans ha), map_apply, sequence_none hother hx ts d htail]
        rfl

end

/-- **The answer of a tree of parts comes from its calls.** -/
theorem grouped_called (run : ι → Parser Value) (t : Tree ι) (c : Cursor) :
    PartsCalledAt (fun run => grouped run t c) run (calls run t c) where
  only_there _ h := grouped_congr t c h
  everywhere_there _ _ hx hother hnone := grouped_none hother hnone t c hx

/-! ### The values of the parts -/

theorem bind_eq_success_iff {p : Parser α} {f : α → Parser β} {c e : Cursor} {b : β} :
    p.bind f c = some (.success b, e) ↔
      ∃ a d, p c = some (.success a, d) ∧ f a d = some (.success b, e) := by
  rw [Parser.bind]
  rcases p c with _ | ⟨v, d⟩
  · simp
  · cases v <;> simp

/-- A sequence that succeeds has called all its parts, in order, and collected their values. -/
theorem calls_of_sequence_success {is : List ι} {c d : Cursor} {vs : List Value}
    (h : sequence (is.map run) c = some (.success vs, d)) :
    (callsAll run (is.map .leaf) c).map Prod.fst = is ∧
      List.Forall₂ (fun x v => ∃ e, run x.1 x.2 = some (.success v, e))
        (callsAll run (is.map .leaf) c) vs := by
  induction is generalizing c vs with
  | nil =>
      cases h
      rw [List.map_nil, callsAll]
      exact ⟨rfl, .nil⟩
  | cons i is ih =>
      obtain ⟨a, e, ha, has⟩ := bind_eq_success_iff.mp h
      obtain ⟨as, e', has, heq⟩ := bind_eq_success_iff.mp has
      cases heq
      obtain ⟨hfst, hvalues⟩ := ih has
      have hpassed : passed (grouped run (.leaf i)) c = some e := by
        rw [grouped]
        exact passed_eq_some_iff.mpr ⟨a, ha⟩
      rw [List.map_cons, callsAll, calls, hpassed]
      exact ⟨congrArg (i :: ·) hfst, .cons ⟨e, ha⟩ hvalues⟩

theorem map_eq_success_iff {f : α → β} {p : Parser α} {c d : Cursor} {b : β} :
    (f <$> p) c = some (.success b, d) ↔ ∃ a, p c = some (.success a, d) ∧ f a = b := by
  rw [map_apply]
  rcases p c with _ | ⟨v, e⟩
  · simp
  · cases v <;> simp [Verdict.map, and_comm]

/-- Groups flattened are the leaves of all values. -/
theorem flat_grouped (ts : List (Tree ι)) : Value.flat <$> grouped run (.list ts) =
    (fun as => .list (as.map .leaf)) <$> Tree.flatten <$> sequence ((Tree.flatten ts).map run) := by
  rw [← flatten_groupedAll, grouped, ← comp_map, ← comp_map]
  rfl

/-- **Parts may be put in groups.** Write a sequence with some of its parts in groups, and these in groups
again, to any depth, empty ones too. From every cursor it calls the same parts as the sequence without
groups, in the same order and each at the same cursor. It ends as that does: with the same failure or the
same error, not at all if that does not, and with the same cursor, also if it succeeds. Then the values are
nested otherwise, which flattening undoes: what is left are the leaves of the values of the parts, from
left to right. -/
theorem sequence_regrouped (run : ι → Parser Value) (ts : List (Tree ι)) (c : Cursor) :
    let nested : Tree ι := .list ts
    let flat : Tree ι := .list ((Tree.flatten ts).map .leaf)
    (PartsCalledAt (fun run => grouped run nested c) run (calls run nested c) ∧
      PartsCalledAt (fun run => grouped run flat c) run (calls run flat c) ∧
      calls run nested c = calls run flat c) ∧
    (grouped run nested c).map (fun (v, d) => (v.map Value.flat, d)) =
      (grouped run flat c).map (fun (v, d) => (v.map Value.flat, d)) ∧
    ∀ w d, grouped run nested c = some (.success w, d) → ∃ vs,
      (calls run nested c).map Prod.fst = Tree.flatten ts ∧
      List.Forall₂ (fun x v => ∃ e, run x.1 x.2 = some (.success v, e)) (calls run nested c) vs ∧
      grouped run flat c = some (.success (.ofList vs), d) ∧
      w.flat = .list ((vs.flatMap Tree.leaves).map .leaf) := by
  intro nested flat
  have hcalls : calls run nested c = calls run flat c := by
    rw [calls, calls, callsAll_eq]
  have hanswer : (grouped run nested c).map (fun (v, d) => (v.map Value.flat, d)) =
      (grouped run flat c).map (fun (v, d) => (v.map Value.flat, d)) := by
    rw [← map_apply, ← map_apply, flat_grouped, flat_grouped, Tree.flatten_map_leaf]
  refine ⟨⟨grouped_called run nested c, grouped_called run flat c, hcalls⟩, hanswer, fun w d hw => ?_⟩
  -- The flat sequence succeeds as well, and its values are those of the parts.
  have hflat : (Value.flat <$> grouped run flat) c = some (.success w.flat, d) := by
    rw [map_apply, ← hanswer, hw]
    rfl
  obtain ⟨w', hw', heq⟩ := map_eq_success_iff.mp hflat
  have hlist := hw'
  rw [grouped, groupedAll_map_leaf] at hlist
  obtain ⟨vs, hvs, rfl⟩ := map_eq_success_iff.mp hlist
  obtain ⟨hfst, hvalues⟩ := calls_of_sequence_success hvs
  rw [hcalls, calls]
  refine ⟨vs, hfst, hvalues, hw', ?_⟩
  rw [← heq, Value.ofList, Value.flat, Tree.flatten_eq_flatMap]

/-- A part that consumes, leaves a stored position behind and fails, in a group after an empty one: the
part after it is not run, and what it did to the cursor stays. -/
example :
    let t : Token := ⟨"A", "a", .start⟩
    let run : Bool → Parser Value
      | true => script [.consume] .succeed
      | false => script [.store, .consume] (.fail "no")
    let nested : Tree Bool := .list [.leaf true, .list [.list [], .list [.leaf false, .leaf true]]]
    let c := Cursor.ofTokens #[t, t, t]
    let f : Failure := { message := "no", position := ⟨1, 1, 2⟩ }
    grouped run nested c = some (.failure f, ⟨#[t, t, t], 2, [1]⟩) ∧
      calls run nested c = [(true, c), (false, c.moveTo 1)] :=
  ⟨rfl, rfl⟩

end Groups

end Descent.Parser
