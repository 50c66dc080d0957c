import Descent.Proofs.Grammar.Refinement

/-!
# Nothing is lost on the way into a value

A grammar without functions on values only nests what it has consumed. Read from left to right, the
value of a match is the tokens between the index where the run began and the one where it ended,
each once and in order, apart from marks for parts that are absent (`Spans`).

Two things would break this, and are left out. An option that does not go back drops what it has
consumed before it failed, and a token that stands for the end is consumed without being kept. What
alternatives and repetitions give up, in contrast, leaves no trace, since the cursor goes back.

The tokens between two indices are put together at every index between them, so the induction on the
derivation has the shape of the value.
-/

namespace Descent

/-! ### What a value holds -/

namespace Value

/-- What a value holds, from left to right, without the marks for what is absent. -/
def held (a : Value) : List Atom := a.leaves.filter (· ≠ .null)

@[simp] theorem held_null : held .null = [] := by simp [held, null]

@[simp] theorem held_ofToken (t : Token) : held (.ofToken t) = [.token t] := by
  simp [held, ofToken]

@[simp] theorem held_ofList_nil : held (.ofList []) = [] := by simp [held, ofList]

@[simp] theorem held_ofList_cons (a : Value) (as : List Value) :
    held (.ofList (a :: as)) = held a ++ held (.ofList as) := by
  simp [held, ofList]

/-- A value as the only item of a list holds what it holds by itself. -/
theorem filter_flatten_singleton (a : Value) :
    (Tree.flatten [a]).filter (· ≠ .null) = held a := by
  rw [Tree.flatten_cons, Tree.flatten_nil, List.append_nil, held]

end Value

namespace Grammar

/-- The grammars that keep in their values all that they consume. An option has to go back. -/
def isKeeping : Grammar Empty → Bool
  | map _ _ => false
  | combine _ _ => false
  | optional _ backtrack => backtrack
  | _ => true

/-- Everything that occurs in the grammar keeps what it consumes. -/
def Keeping (defs : Definitions Empty) (g : Grammar Empty) : Prop :=
  ∀ h, Occurs defs h g → h.isKeeping

/-- The value holds the tokens between two indices, and nothing else. -/
def Spans (T : Array Token) (i j : Nat) (a : Value) : Prop :=
  a.held = (T.extract i j).toList.map .token

variable {defs : Definitions Empty} {T : Array Token} {g h k : Grammar Empty}
  {gs : List (Grammar Empty)} {i j m : Nat} {a : Value} {as : List Value}

namespace Keeping

theorem self (hg : Keeping defs g) : g.isKeeping := hg g .refl

theorem part (hg : Keeping defs g) (hp : Part defs g h) : Keeping defs h :=
  fun k hk => hg k (.head hp hk)

/-- What has no other parts than a keeping grammar is keeping. -/
theorem of_parts_subset (hg : Keeping defs g) (hh : h.isKeeping)
    (hparts : ∀ k, Part defs h k → Part defs g k) : Keeping defs h := by
  intro k hk
  by_cases hkh : k = h
  · rw [hkh]
    exact hh
  · exact hg k (occurs_of_parts_subset hk hkh hparts)

theorem tail (hg : Keeping defs (.sequence (g :: gs))) : Keeping defs (.sequence gs) :=
  hg.of_parts_subset rfl fun _ hp => hp.sequence_cons g

theorem others (hg : Keeping defs (.choice g (h :: gs))) : Keeping defs (.choice h gs) :=
  hg.of_parts_subset rfl fun _ hp => hp.choice_cons g

/-- It is enough to look at what is written down. -/
theorem of_all (hall : (reach defs g).all isKeeping) : Keeping defs g :=
  fun _ hh => List.all_eq_true.mp hall _ hh.mem_reach

end Keeping

/-! ### Spans put together -/

theorem spans_null (T : Array Token) (i : Nat) : Spans T i i .null := by
  simp [Spans]

theorem spans_nil (T : Array Token) (i : Nat) : Spans T i i (.ofList []) := by
  simp [Spans]

theorem spans_token {t : Token} (ht : T[i]? = some t) : Spans T i (i + 1) (.ofToken t) := by
  obtain ⟨hi, rfl⟩ := Array.getElem?_eq_some_iff.mp ht
  have hextract : T.extract i (i + 1) = #[T[i]] := by
    rw [Array.extract_succ_right (Nat.lt_succ_self i) hi,
      Array.extract_empty_of_stop_le_start (Nat.le_refl i)]
    rfl
  rw [Spans, Value.held_ofToken, hextract, List.map_singleton]

theorem Spans.cons (ha : Spans T i m a) (has : Spans T m j (.ofList as)) (him : i ≤ m)
    (hmj : m ≤ j) : Spans T i j (.ofList (a :: as)) := by
  have hextract : T.extract i m ++ T.extract m j = T.extract i j := by
    rw [Array.extract_append_extract, Nat.min_eq_left him, Nat.max_eq_right hmj]
  rw [Spans, Value.held_ofList_cons, ha, has, ← hextract, Array.toList_append, List.map_append]

/-! ### Every match spans what it consumed -/

/-- **The value of a match holds the tokens that the run consumed.** -/
theorem Runs.spans (hT : ∀ t ∈ T, t.type ≠ endOfInputType) (hg : Keeping defs g)
    (hr : Runs defs T g i (.success a) j) (hi : i ≤ T.size) : Spans T i j a := by
  generalize hv : Verdict.success a = v at hr
  induction hr generalizing a with
  | oneOf_match ht | noneOf_match ht =>
      cases hv
      exact spans_token ht
  | @end_reached i =>
      cases hv
      exact spans_null T i
  | end_marked ht hmark => exact absurd hmark (hT _ (Array.mem_of_getElem? ht))
  | @sequence_nil i =>
      cases hv
      exact spans_nil T i
  | sequence_cons hr hrs ih ih' =>
      cases hv
      have hm := hr.bounds hi
      have hfirst := ih (hg.part (.sequence List.mem_cons_self)) hi rfl
      have hrest := ih' hg.tail hm.2 rfl
      exact hfirst.cons hrest hm.1 (hrs.bounds hm.2).1
  | choice_match _ ih => exact ih (hg.part (.choice List.mem_cons_self)) hi hv
  | choice_next_match _ _ _ ih => exact ih hg.others hi hv
  | @many1_idle _ i =>
      cases hv
      exact spans_nil T i
  | many1_more hr _ hrs ih ih' =>
      cases hv
      have hm := hr.bounds hi
      have hfirst := ih (hg.part .many1) hi rfl
      have hrest := ih' hg hm.2 rfl
      exact hfirst.cons hrest hm.1 (hrs.bounds hm.2).1
  | @many1_last _ _ _ m _ _ hr _ _ ih =>
      cases hv
      have hfirst := ih (hg.part .many1) hi rfl
      exact hfirst.cons (spans_nil T m) (hr.bounds hi).1 (Nat.le_refl m)
  | optional_match _ ih => exact ih (hg.part .optional) hi hv
  | @optional_none _ i _ _ backtrack =>
      cases hv
      -- An option that does not go back is not keeping.
      obtain rfl : backtrack = true := hg.self
      exact spans_null T i
  | attempt_match _ ih => exact ih (hg.part .attempt) hi hv
  | label _ ih => exact ih (hg.part .label) hi (Verdict.success_eq_labelled.mp hv)
  | map_match | combine_match => cases hg.self
  | ref hd _ ih => exact ih (hg.part (.ref hd)) hi hv
  | sequence_stop _ hm | sequence_later _ _ hm | many1_stop _ hm | attempt_stop _ hm
  | map_stop _ hm | combine_stop _ hm =>
      cases hv
      cases hm
  | _ => cases hv

/-- **Values are lossless.** Let a grammar be built without functions on values and without options
that do not go back, and let no token stand for the end. Whenever it matches, the leaves of its
value, but for those that mark an absent part, are exactly the tokens from the index where the run
began to the one where it ended, in order. -/
theorem value_lossless (hand : Empty → Parser Value) {defs : Definitions Empty}
    {g : Grammar Empty} {n p : Nat} {T : Array Token} {S : List Nat} {a : Value} {d : Cursor}
    (hg : ∀ h, Occurs defs h g → h.isKeeping) (hT : ∀ t ∈ T, t.type ≠ endOfInputType)
    (hp : p ≤ T.size) (hr : parser hand defs n g ⟨T, p, S⟩ = some (.success a, d)) :
    p ≤ d.index ∧ d.index ≤ T.size ∧
      (Tree.flatten [a]).filter (· ≠ .null) = (T.extract p d.index).toList.map .token := by
  have hruns : Runs defs T g p (.success a) d.index :=
    runs_of_ends (c := ⟨T, p, S⟩) hp ⟨n, hr⟩
  have hbounds := hruns.bounds hp
  have hspans := hruns.spans hT hg hp
  rw [Value.filter_flatten_singleton]
  exact ⟨hbounds.1, hbounds.2, hspans⟩

/-- An alternative is given up after one token, and a repetition and an option at the end. The value
holds the tokens from the second one on. -/
theorem value_lossless_given_up :
    let a : Token := ⟨"A", "a", .start⟩
    let b : Token := ⟨"B", "b", .start⟩
    let T := #[b, a, a, b]
    let defs : Definitions Empty := [("pair", .sequence [.oneOf "A" [], .noneOf "A" []])]
    let single : Grammar Empty := .attempt (.label "single" (.oneOf "A" ["C"]))
    let item : Grammar Empty := .choice (.ref "pair") [single]
    let g : Grammar Empty := .sequence [.many1 item, .optional (.ref "pair") true, .endOfInput]
    let value : Value :=
      .ofList [.ofList [.ofToken a, .ofList [.ofToken a, .ofToken b]], .null, .null]
    (∀ h, Occurs defs h g → h.isKeeping) ∧ (∀ t ∈ T, t.type ≠ endOfInputType) ∧ 1 ≤ T.size ∧
      parser nofun defs 9 g ⟨T, 1, [0]⟩ = some (.success value, ⟨T, 4, [0]⟩) ∧
      (Tree.flatten [value]).filter (· ≠ .null) = (T.extract 1 4).toList.map .token := by
  intro a b T defs single item g value
  have hg : ∀ h, Occurs defs h g → h.isKeeping := Keeping.of_all rfl
  have hT : ∀ t ∈ T, t.type ≠ endOfInputType := by decide
  have hp : 1 ≤ T.size := by decide
  have hr : parser nofun defs 9 g ⟨T, 1, [0]⟩ = some (.success value, ⟨T, 4, [0]⟩) := rfl
  exact ⟨hg, hT, hp, hr, (value_lossless nofun hg hT hp hr).2.2⟩

end Grammar

end Descent
