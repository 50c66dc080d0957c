import Descent.Proofs.Grammar.Termination

/-!
# The calls of a repetition

A repetition calls its parser again and again, until a call does not get ahead. Two things are said of
it, both without a bound on the number of rounds.

* Over a parser that operates, whatever else it does to the cursor and to the stored positions, every
  call begins further on than the one before. `Repeats` follows the calls one by one, and
  `exists_repeats` says that they come to a last one. `CalledAt` says in terms of the answer alone where
  a parser is called: what it would do elsewhere makes no difference, and if it did not end there,
  neither would the repetition.
* Over a positional parser the calls are a chain of matches (`Chain`) that is decided by the tokens and
  the index. The repetition answers with the values along the chain, and stands where the chain stops.
-/

namespace Descent

/-! ### The last call -/

namespace Verdict

variable {α : Type}

/-- The verdict of a repetition that matched `as`, if its parser then ends so and consumes nothing. A
failure counts only if nothing was matched before, and the value of a match that consumes nothing is
dropped. -/
def ending (as : List α) : Verdict α → Verdict (List α)
  | success _ => success as
  | failure f => match as with
    | [] => failure f
    | _ :: _ => success as
  | raised e => raised e

/-- The verdict of a repetition that matched `as`, if its last round went so. -/
def closing (as : List α) : Verdict (Parser.Round α) → Verdict (List α)
  | success (.halted f) => ending as (failure f)
  | success _ => success as
  | failure f => failure f
  | raised e => raised e

theorem eq_of_closing_eq_success {as bs : List α} {w : Verdict (Parser.Round α)}
    (h : w.closing as = .success bs) : bs = as := by
  cases w with
  | success r => cases r <;> cases as <;> cases h <;> rfl
  | failure f => cases h
  | raised e => cases h

end Verdict

namespace Parser

variable {α γ : Type} {p q : Parser α} {c d e : Cursor} {a : α} {as : List α} {v : Verdict α}
  {calls before after : List Cursor} {x : Cursor}

/-! ### From call to call -/

/-- A repetition of `p` comes from `c` to `e`. On the way its parser was called at the cursors `calls`,
in this order. Every time it matched, got ahead, and the position that the round had stored could be
dropped. The values are `as`. -/
inductive Repeats (p : Parser α) : Cursor → List Cursor → List α → Cursor → Prop
  | nil {c : Cursor} : Repeats p c [] [] c
  | cons {c c' d e : Cursor} {a : α} {calls : List Cursor} {as : List α} :
      p c.store = some (.success a, d) → c.index < d.index → d.clear = .ok c' →
      Repeats p c' calls as e → Repeats p c (c.store :: calls) (a :: as) e

/-- The call that a repetition makes from this cursor is its last. -/
def LastRound (p : Parser α) (c : Cursor) : Prop :=
  ∀ a d, round p c ≠ some (.success (.matched a), d)

theorem lastRound_of_ne_matched {w : Verdict (Round α)} (h : round p c = some (w, d))
    (hne : ∀ a, w ≠ .success (.matched a)) : LastRound p c := by
  intro a e hmatched
  rw [h] at hmatched
  cases hmatched
  exact hne a rfl

/-- A round gets ahead if the parser matches further on and the stored position can be dropped. -/
theorem round_eq_matched_iff : round p c = some (.success (.matched a), e) ↔
    ∃ d, p c.store = some (.success a, d) ∧ c.index < d.index ∧ d.clear = .ok e := by
  rw [round_apply]
  constructor
  · intro h
    obtain ⟨⟨v, d⟩, hd, heq⟩ := Option.map_eq_some_iff.mp h
    refine ⟨d, ?_⟩
    cases v with
    | success b =>
        simp only at heq
        split at heq
        · next hlt =>
            cases hclear : d.clear with
            | error err => simp [hclear] at heq
            | ok d' =>
                simp only [hclear, Prod.mk.injEq, Verdict.success.injEq, Round.matched.injEq] at heq
                obtain ⟨rfl, rfl⟩ := heq
                exact ⟨hd, hlt, rfl⟩
        · cases hrestore : d.restore <;> simp [hrestore] at heq
    | failure f => cases hrestore : d.restore <;> simp [hrestore] at heq
    | raised err => cases hrestore : d.restore <;> simp [hrestore] at heq
  · rintro ⟨d, hd, hlt, hclear⟩
    simp [hd, hlt, hclear]

/-- Dropping a position does not move a cursor. -/
theorem index_lt_of_clear (hlt : c.index < d.index) (hclear : d.clear = .ok e) :
    c.index < e.index := by
  obtain ⟨-, -, hindex, -⟩ := Cursor.clear_eq_ok_iff.mp hclear
  rwa [hindex]

namespace Repeats

theorem length_eq (h : Repeats p c calls as e) : as.length = calls.length := by
  induction h with
  | nil => rfl
  | cons _ _ _ _ ih => rw [List.length_cons, List.length_cons, ih]

/-- **Every call brings the cursor ahead.** -/
theorem index_le (h : Repeats p c calls as e) : c.index + calls.length ≤ e.index := by
  induction h with
  | nil => exact Nat.le_refl _
  | cons _ hlt hclear _ ih =>
      have := index_lt_of_clear hlt hclear
      rw [List.length_cons]
      omega

theorem index_le_of_mem (h : Repeats p c calls as e) : ∀ x ∈ calls ++ [e.store], c.index ≤ x.index := by
  induction h with
  | @nil c =>
      intro x hx
      rw [List.mem_singleton.mp hx]
      exact Nat.le_refl c.index
  | @cons c _ _ _ _ _ _ _ hlt hclear _ ih =>
      intro x hx
      rcases List.mem_cons.mp hx with rfl | hx
      · exact Nat.le_refl c.index
      · exact Nat.le_trans (Nat.le_of_lt (index_lt_of_clear hlt hclear)) (ih x hx)

/-- **Every call begins further on than those before it**, also the one that follows. -/
theorem increasing (h : Repeats p c calls as e) :
    (calls ++ [e.store]).Pairwise fun x y => x.index < y.index := by
  induction h with
  | nil => exact List.pairwise_singleton _ _
  | cons _ hlt hclear hrest ih =>
      apply List.pairwise_cons.mpr
      constructor
      · intro x hx
        exact Nat.lt_of_lt_of_le (index_lt_of_clear hlt hclear) (hrest.index_le_of_mem x hx)
      · exact ih

/-- A repetition of a parser that operates goes on by operations. -/
theorem steps (hp : Operates p) (hc : c.Ordered) (h : Repeats p c calls as e) : c.Steps e := by
  induction h with
  | nil => exact .refl
  | @cons c c' _ _ _ _ _ hd _ hclear _ ih =>
      have hsteps : c.Steps c' := ((hp hc.store hd).head .store).tail (.clear hclear)
      exact hsteps.trans (ih (hsteps.ordered hc))

/-- So there are not more calls than tokens that are left, and one. -/
theorem length_le (hp : Operates p) (hc : c.Ordered) (h : Repeats p c calls as e) :
    calls.length ≤ c.tokens.size - c.index := by
  have hsteps := h.steps hp hc
  have hsize := (hsteps.ordered hc).index_le_size
  have hindex := h.index_le
  rw [hsteps.tokens_eq] at hsize
  omega

theorem length_lt (hp : Operates p) (hc : c.Ordered) (h : Repeats p c calls as e) :
    calls.length < roundBound c := Nat.lt_succ_of_le (h.length_le hp hc)

/-- Two parsers that agree where the one is called repeat alike. -/
theorem congr (h : Repeats p c calls as e) (hq : ∀ x ∈ calls, q x = p x) :
    Repeats q c calls as e := by
  induction h with
  | nil => exact .nil
  | @cons c _ _ _ _ _ _ hd hlt hclear _ ih =>
      have hhead : q c.store = p c.store := hq _ List.mem_cons_self
      exact .cons (hhead.trans hd) hlt hclear (ih fun x hx => hq x (List.mem_cons_of_mem c.store hx))

/-- At every call, the calls before it led to where it is made. -/
theorem split (h : Repeats p c calls as e) (hcalls : calls ++ [e.store] = before ++ x :: after) :
    ∃ bs d, Repeats p c before bs d ∧ d.store = x := by
  induction h generalizing before with
  | nil =>
      cases before with
      | nil =>
          obtain ⟨rfl, -⟩ := List.cons.inj hcalls
          exact ⟨[], _, .nil, rfl⟩
      | cons y before =>
          obtain ⟨-, hnil⟩ := List.cons.inj hcalls
          simp at hnil
  | @cons c _ _ _ a _ _ hd hlt hclear _ ih =>
      cases before with
      | nil =>
          obtain ⟨rfl, -⟩ := List.cons.inj hcalls
          exact ⟨[], c, .nil, rfl⟩
      | cons y before =>
          obtain ⟨rfl, htail⟩ := List.cons.inj hcalls
          obtain ⟨bs, d', hbefore, hx⟩ := ih htail
          exact ⟨a :: bs, d', .cons hd hlt hclear hbefore, hx⟩

/-! ### From the calls to the answer -/

/-- The rounds that are left go on from where the calls led to, with the values in front. -/
theorem rounds_eq (h : Repeats p c calls as e) (n : Nat) :
    rounds p (calls.length + n) c =
      ((rounds p n).bind fun (bs, last) => always (as ++ bs, last)) e := by
  induction h with
  | @nil c =>
      have hpure : (fun (bs, last) => always ([] ++ bs, last) :
          List α × Option Failure → Parser (List α × Option Failure)) = always := rfl
      rw [hpure, bind_always, List.length_nil, Nat.zero_add]
  | @cons c c' d e a calls as hd hlt hclear _ ih =>
      have hround : round p c = some (.success (.matched a), c') :=
        round_eq_matched_iff.mpr ⟨d, hd, hlt, hclear⟩
      rw [List.length_cons, Nat.add_right_comm, rounds, Parser.bind, hround]
      dsimp only
      rw [Parser.bind, ih, Parser.bind, Parser.bind]
      rcases rounds p n e with _ | ⟨w, e'⟩
      · rfl
      · cases w <;> rfl

/-- **How the last round goes decides the repetition.** -/
theorem many1_eq (h : Repeats p c calls as e) (hlen : calls.length < roundBound c)
    (hlast : LastRound p e) :
    many1 p c = (round p e).map fun (w, d) => (w.closing as, d) := by
  obtain ⟨n, hn⟩ : ∃ n, roundBound c = calls.length + (n + 1) :=
    ⟨roundBound c - calls.length - 1, by omega⟩
  rw [many1, hn, Parser.bind, h.rounds_eq, Parser.bind, rounds, Parser.bind]
  rcases hround : round p e with _ | ⟨w, d⟩
  · rfl
  · cases w with
    | failure f => exact absurd hround (round_ne_failure p e d f)
    | raised err => rfl
    | success r =>
        cases r with
        | matched a => exact absurd hround (hlast a d)
        | idle => cases as <;> simp [Verdict.closing, always]
        | halted f => cases as <;> simp [Verdict.closing, Verdict.ending, always, fail]

end Repeats

/-! ### There is a last call -/

/-- **The calls of a repetition come to a last one.** -/
theorem exists_repeats (hp : Operates p) (hc : c.Ordered) :
    ∃ calls as e, Repeats p c calls as e ∧ LastRound p e := by
  -- Every round that another follows leaves fewer tokens.
  induction hk : c.tokens.size - c.index using Nat.strongRecOn generalizing c with
  | _ k ih =>
      by_cases hnext : ∃ a e, round p c = some (.success (.matched a), e)
      · obtain ⟨a, c', hround⟩ := hnext
        obtain ⟨d, hd, hlt, hclear⟩ := round_eq_matched_iff.mp hround
        have hone : Repeats p c [c.store] [a] c' := .cons hd hlt hclear .nil
        have hsteps := hone.steps hp hc
        have hc' := hsteps.ordered hc
        have htokens := hsteps.tokens_eq
        have hless : c'.tokens.size - c'.index < k := by
          have := hone.index_le
          have := hc'.index_le_size
          rw [htokens] at *
          simp only [List.length_singleton] at *
          omega
        obtain ⟨calls, as, e, hrest, hlast⟩ := ih _ hless hc' rfl
        exact ⟨c.store :: calls, a :: as, e, .cons hd hlt hclear hrest, hlast⟩
      · exact ⟨[], [], c, .nil, fun a d hround => hnext ⟨a, d, hround⟩⟩

/-- What is made of a parser calls it at exactly these cursors: what the parser does elsewhere makes no
difference, and if it does not end at one of them, there is no answer. -/
structure CalledAt (run : Parser α → Option γ) (p : Parser α) (calls : List Cursor) : Prop where
  only_there : ∀ q, (∀ x ∈ calls, q x = p x) → run q = run p
  everywhere_there : ∀ q, ∀ x ∈ calls, (∀ y, y ≠ x → q y = p y) → q x = none → run q = none

theorem Repeats.calledAt (hp : Operates p) (hc : c.Ordered) (h : Repeats p c calls as e)
    (hlast : LastRound p e) : CalledAt (fun q => many1 q c) p (calls ++ [e.store]) := by
  have hlen := h.length_lt hp hc
  constructor
  · intro q hq
    have hrepeats := h.congr fun x hx => hq x (List.mem_append_left _ hx)
    have hround : round q e = round p e := by
      rw [round_apply, round_apply, hq _ (by simp)]
    have hlast' : LastRound q e := by
      intro a d
      rw [hround]
      exact hlast a d
    show many1 q c = many1 p c
    rw [hrepeats.many1_eq hlen hlast', h.many1_eq hlen hlast, hround]
  · intro q x hx hq hnone
    obtain ⟨before, after, hsplit⟩ := List.append_of_mem hx
    obtain ⟨bs, d, hbefore, rfl⟩ := h.split hsplit
    -- The calls before are at other cursors, because they begin at smaller indices.
    have hother : ∀ y ∈ before, q y = p y := by
      intro y hy
      have hpairwise := h.increasing
      rw [hsplit] at hpairwise
      have hlt := (List.pairwise_append.mp hpairwise).2.2 y hy _ List.mem_cons_self
      apply hq
      rintro rfl
      exact Nat.lt_irrefl _ hlt
    have hround : round q d = none := by
      rw [round_apply, hnone]
      rfl
    have hlast' : LastRound q d := by
      rw [LastRound, hround]
      nofun
    show many1 q c = none
    rw [(hbefore.congr hother).many1_eq (hbefore.length_lt hp hc) hlast', hround]
    rfl

/-- **A repetition ends over every parser that ends.** Let the parser operate, and do to the index and
the stored positions whatever operations can do. From every cursor that operations come to, however far
a repetition is followed, each of its calls begins further on than those before it, and there are not
more of them than tokens that are left, and one. They come to a last call, and then the repetition
answers. It has called the parser exactly there, and the values it answers with are not more than the
tokens that were left. -/
theorem many1_calls_increase {p : Parser α} (hp : Operates p)
    (hends : ∀ c : Cursor, c.Ordered → p c ≠ none) {tokens : Array Token} {c : Cursor}
    (hc : (Cursor.ofTokens tokens).Steps c) :
    (∀ calls as e, Repeats p c calls as e →
      (calls ++ [e.store]).Pairwise (fun x y => x.index < y.index) ∧
      (calls ++ [e.store]).length ≤ tokens.size - c.index + 1) ∧
    ∃ calls as e v d, Repeats p c calls as e ∧ LastRound p e ∧ many1 p c = some (v, d) ∧
      (∀ bs, v = .success bs → bs.length ≤ tokens.size - c.index) ∧
      CalledAt (fun q => many1 q c) p (calls ++ [e.store]) := by
  have hordered : c.Ordered := hc.ordered (Cursor.ordered_ofTokens tokens)
  have htokens : c.tokens = tokens := hc.tokens_eq
  rw [← htokens]
  constructor
  · intro calls as e h
    refine ⟨h.increasing, ?_⟩
    rw [List.length_append, List.length_singleton]
    exact Nat.succ_le_succ (h.length_le hp hordered)
  · obtain ⟨calls, as, e, h, hlast⟩ := exists_repeats hp hordered
    have he : e.Ordered := (h.steps hp hordered).ordered hordered
    obtain ⟨⟨v, d⟩, hd⟩ := Option.ne_none_iff_exists'.mp (hends e.store he.store)
    obtain ⟨⟨w, d'⟩, hround⟩ : ∃ r, round p e = some r := ⟨_, by rw [round_apply, hd]; rfl⟩
    have hmany := h.many1_eq (h.length_lt hp hordered) hlast
    rw [hround] at hmany
    refine ⟨calls, as, e, _, _, h, hlast, hmany, ?_, h.calledAt hp hordered hlast⟩
    intro bs hbs
    rw [Verdict.eq_of_closing_eq_success hbs, h.length_eq]
    exact h.length_le hp hordered

/-- A parser that takes away the position of its round. The first round then drops one that was stored
before, and the second finds nothing to drop: there are two calls, and an error. -/
theorem many1_calls_increase_below_own_position :
    let t : Token := ⟨"A", "a", .start⟩
    let T := #[t, t, t]
    let p : Parser Value := script [.consume, .clear] .succeed
    let c : Cursor := ⟨T, 0, [0]⟩
    let e : Cursor := ⟨T, 1, []⟩
    Operates p ∧ (∀ c : Cursor, c.Ordered → p c ≠ none) ∧ (Cursor.ofTokens T).Steps c ∧
      Repeats p c [c.store] [.list [Value.ofToken t, Value.null]] e ∧ LastRound p e ∧
      [c.store, e.store].Pairwise (fun x y => x.index < y.index) ∧
      [c.store, e.store].length ≤ T.size - c.index + 1 ∧
      many1 p c = some (.raised (.cursor .nothingToClear), ⟨T, 2, []⟩) := by
  intro t T p c e
  have hp : Operates p := operates_script _ _
  have hends : ∀ c : Cursor, c.Ordered → p c ≠ none := fun c _ => script_ne_none _ _ c
  have hc : (Cursor.ofTokens T).Steps c := .single .store
  have hrepeats : Repeats p c [c.store] [.list [Value.ofToken t, Value.null]] e :=
    .cons rfl (by decide) rfl .nil
  have hlast : LastRound p e := by
    rintro a d ⟨⟩
  obtain ⟨hcalls, -⟩ := many1_calls_increase hp hends hc
  obtain ⟨hincreasing, hlength⟩ := hcalls _ _ _ hrepeats
  exact ⟨hp, hends, hc, hrepeats, hlast, hincreasing, hlength, rfl⟩

/-! ### The chain of matches -/

section Chain

variable {i j k k' : Nat} {links links' : List (α × Nat)} {v v' : Verdict α}

/-- From index `i`, with the other parts of the cursor as in `c`, the parser matches one thing after
another and ends at `k`. A link of the chain is what was matched, and where that ended, which is further
on than where it began. -/
inductive Chain (p : Parser α) (c : Cursor) : Nat → List (α × Nat) → Nat → Prop
  | nil {i : Nat} : Chain p c i [] i
  | cons {i j k : Nat} {a : α} {links : List (α × Nat)} :
      p (c.moveTo i) = some (.success a, c.moveTo j) → i < j → Chain p c j links k →
      Chain p c i ((a, j) :: links) k

/-- The parser ends so without getting ahead: it fails, it raises an error, or it matches and ends where
it began. -/
def StopsWith (p : Parser α) (c : Cursor) (v : Verdict α) : Prop :=
  ∃ d, p c = some (v, d) ∧ (v.matched → d.index = c.index)

theorem Chain.index_le (h : Chain p c i links k) : i ≤ k := by
  induction h with
  | nil => exact Nat.le_refl _
  | cons _ hlt _ ih => exact Nat.le_trans (Nat.le_of_lt hlt) ih

/-- **There is one chain that stops.** -/
theorem Chain.unique (h : Chain p c i links k) (hstop : StopsWith p (c.moveTo k) v)
    (h' : Chain p c i links' k') (hstop' : StopsWith p (c.moveTo k') v') : links = links' := by
  induction h generalizing links' with
  | nil =>
      cases h' with
      | nil => rfl
      | cons hp hlt _ =>
          -- The other chain goes on where this one stops.
          obtain ⟨d, hd, hindex⟩ := hstop
          cases hd.symm.trans hp
          exact absurd (hindex rfl) (Nat.ne_of_gt hlt)
  | cons hp hlt _ ih =>
      cases h' with
      | nil =>
          obtain ⟨d, hd, hindex⟩ := hstop'
          cases hd.symm.trans hp
          exact absurd (hindex rfl) (Nat.ne_of_gt hlt)
      | cons hp' _ hrest' =>
          obtain ⟨hvalue, hcursor⟩ := Prod.mk.inj (Option.some.inj (hp.symm.trans hp'))
          cases hvalue
          cases congrArg Cursor.index hcursor
          rw [ih hstop hrest']

/-- A positional parser that starts within the tokens ends within them. -/
theorem Positional.le_size (hp : Positional p) (hc : c.Ordered) (hi : c.index ≤ i)
    (hsize : i ≤ c.tokens.size) (h : p (c.moveTo i) = some (v, c.moveTo j)) :
    i ≤ j ∧ j ≤ c.tokens.size := by
  have hon := hp.onward (hc.moveTo hi hsize) h
  exact ⟨hon.index_le, hon.index_le_size⟩

/-- **There is a chain that stops.** -/
theorem exists_chain (hp : Positional p) (hc : c.Ordered) (hi : c.index ≤ i)
    (hsize : i ≤ c.tokens.size) :
    ∃ links k v, Chain p c i links k ∧ StopsWith p (c.moveTo k) v := by
  -- What is left of the tokens gets less with every link.
  induction hk : c.tokens.size - i using Nat.strongRecOn generalizing i with
  | _ n ih =>
      obtain ⟨⟨v, d⟩, hd⟩ := Option.ne_none_iff_exists'.mp (hp.ends (hc.moveTo hi hsize))
      have hon := hp.onward (hc.moveTo hi hsize) hd
      by_cases hahead : v.matched ∧ i < d.index
      · obtain ⟨hmatched, hlt⟩ := hahead
        cases v with
        | success a =>
            have hd' : p (c.moveTo i) = some (.success a, c.moveTo d.index) := by
              rw [hd, hon.eq_moveTo]
              rfl
            have hle : d.index ≤ c.tokens.size := hon.index_le_size
            obtain ⟨links, k, v, hchain, hstop⟩ := ih _ (by omega) (by omega) hle rfl
            exact ⟨(a, d.index) :: links, k, v, .cons hd' hlt hchain, hstop⟩
        | failure f => cases hmatched
        | raised err => cases hmatched
      · refine ⟨[], i, v, .nil, d, hd, fun hmatched => ?_⟩
        have hnot : ¬ i < d.index := fun hlt => hahead ⟨hmatched, hlt⟩
        exact Nat.le_antisymm (Nat.le_of_not_lt hnot) hon.index_le

/-- A chain is what a repetition goes through. -/
theorem Chain.repeats (hp : Positional p) (hc : c.Ordered) (hi : c.index ≤ i)
    (hsize : i ≤ c.tokens.size) (h : Chain p c i links k) :
    k ≤ c.tokens.size ∧ ∃ calls, Repeats p (c.moveTo i) calls (links.map (·.1)) (c.moveTo k) := by
  induction h with
  | nil => exact ⟨hsize, [], .nil⟩
  | @cons i j k a links hmatch hlt _ ih =>
      obtain ⟨-, hj⟩ := hp.le_size hc hi hsize hmatch
      obtain ⟨hk, calls, hrest⟩ := ih (Nat.le_trans hi (Nat.le_of_lt hlt)) hj
      have hstored := hp.eq_some_store (hc.moveTo hi hsize) hmatch
      exact ⟨hk, (c.moveTo i).store :: calls, .cons hstored hlt rfl hrest⟩

/-- Where the chain stops, the last round goes back to where it began. -/
theorem StopsWith.round_eq (hp : Positional p) (hc : c.Ordered) (h : StopsWith p c v) :
    ∃ w, round p c = some (w, c) ∧ LastRound p c ∧ ∀ as, w.closing as = v.ending as := by
  obtain ⟨d, hd, hindex⟩ := h
  have hmoves : MovesOnly p c.store := fun _ _ h => (hp.onward hc.store h).eq_moveTo
  have hround := round_of_movesOnly hmoves
  rw [hp.eq_some_store hc hd] at hround
  cases v with
  | success a =>
      have hnot : ¬ c.index < d.index := by
        rw [hindex rfl]
        exact Nat.lt_irrefl _
      have hidle : round p c = some (.success .idle, c) := by
        rw [hround]
        simp [hnot]
      exact ⟨_, hidle, lastRound_of_ne_matched hidle nofun, fun as => rfl⟩
  | failure f => exact ⟨_, hround, lastRound_of_ne_matched hround nofun, fun as => rfl⟩
  | raised err => exact ⟨_, hround, lastRound_of_ne_matched hround nofun, fun as => rfl⟩

/-- **What a repetition comes to.** -/
theorem many1_of_chain (hp : Positional p) (hc : c.Ordered) (h : Chain p c c.index links k)
    (hstop : StopsWith p (c.moveTo k) v) :
    many1 p c = some (v.ending (links.map (·.1)), c.moveTo k) := by
  obtain ⟨hk, calls, hrepeats⟩ := h.repeats hp hc (Nat.le_refl _) hc.index_le_size
  have hrepeats : Repeats p c calls (links.map (·.1)) (c.moveTo k) := hrepeats
  obtain ⟨w, hround, hlast, hclosing⟩ := hstop.round_eq hp (hc.moveTo h.index_le hk)
  rw [hrepeats.many1_eq (hrepeats.length_lt hp.operates hc) hlast, hround, Option.map_some]
  dsimp only
  rw [hclosing]

/-- **The closed form of a repetition.** Over a positional parser, from every cursor that operations
come to, there is exactly one chain of matches that begins there and stops. At its end the parser fails,
raises an error, or matches without getting ahead.

The repetition ends there too, with the stored positions that it found. An error is raised. A failure is
passed on if the chain is empty. In every other case the repetition matches, and its values are those of
the chain. -/
theorem many1_closed_form {p : Parser α} (hp : Positional p) {c : Cursor}
    (hc : (Cursor.ofTokens c.tokens).Steps c) :
    (∃! links, ∃ k v, Chain p c c.index links k ∧ StopsWith p (c.moveTo k) v) ∧
    ∀ links k v, Chain p c c.index links k → StopsWith p (c.moveTo k) v →
      many1 p c = some (v.ending (links.map (·.1)), c.moveTo k) := by
  have hordered : c.Ordered := Cursor.ordered_iff_steps.mpr hc
  constructor
  · obtain ⟨links, k, v, h, hstop⟩ := exists_chain hp hordered (Nat.le_refl _) hordered.index_le_size
    refine ⟨links, ⟨k, v, h, hstop⟩, ?_⟩
    rintro links' ⟨k', v', h', hstop'⟩
    exact h'.unique hstop' h hstop
  · intro links k v h hstop
    exact many1_of_chain hp hordered h hstop

/-- Two pairs, and half of a third that is given back. -/
theorem many1_closed_form_pairs :
    let a : Token := ⟨"A", "a", .start⟩
    let b : Token := ⟨"B", "b", .start⟩
    let T := #[a, b, a, b, a, a]
    let pair : Grammar Empty := .sequence [.oneOf "A" [], .oneOf "B" []]
    let p := Grammar.parse nofun [] pair
    let c : Cursor := ⟨T, 0, [0]⟩
    let ab := Value.ofList [.ofToken a, .ofToken b]
    let f : Failure :=
      { message := "Expected token of type B, but got A", position := ⟨1, 1, 5⟩ }
    Positional p ∧ (Cursor.ofTokens c.tokens).Steps c ∧
      Chain p c c.index [(ab, 2), (ab, 4)] 4 ∧ StopsWith p (c.moveTo 4) (.failure f) ∧
      many1 p c = some (.success [ab, ab], c.moveTo 4) := by
  intro a b T pair p c ab f
  have hleft : ¬ Grammar.LeftRecursive [] := by
    apply Grammar.not_leftRecursive_of_rank fun _ => 0
    rintro name name' ⟨g, hd, -⟩
    cases hd
  have hp : Positional p := Grammar.positional_parse nofun hleft pair
  have hc : (Cursor.ofTokens c.tokens).Steps c := .single .store
  have hchain : Chain p c c.index [(ab, 2), (ab, 4)] 4 :=
    .cons rfl (by decide) (.cons rfl (by decide) .nil)
  have hstop : StopsWith p (c.moveTo 4) (.failure f) := ⟨⟨T, 5, [0]⟩, rfl, nofun⟩
  exact ⟨hp, hc, hchain, hstop, (many1_closed_form hp hc).2 _ _ _ hchain hstop⟩

end Chain

end Parser

end Descent
