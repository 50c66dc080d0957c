import Descent.Grammar
import Descent.Parser.Tokens
import Descent.Proofs.Parser.Balance

/-!
# What a grammar means

`Runs defs T g i v j` is the meaning of a grammar without a cursor, a stack of stored positions or
slots: over the tokens `T`, the grammar `g` started at index `i` ends with the verdict `v` at index
`j`. It is given by rules, one or a few for each form of grammar.

* A sequence stops at the first part that does not match, and stays where that part ended.
* A choice runs every alternative from where it began itself. The first match counts; if all fail,
  the deepest failure does, the earliest of equals, and the choice ends where it began.
* A repetition takes matches that consume something, one after another, until its grammar fails or
  matches without consuming anything, and ends where the last of them ended. The first failure is
  its own only if nothing was taken.
* An error ends everything. It is passed on from where it was raised, but for the forms that undo:
  a choice, an attempt and an option with `backtrack` end where they began, and a repetition where
  its last match ended.

A run that does not end has no verdict: nothing is derived for it.

`oneOf` and `noneOf` differ in the types that they match. `OneToken` is what their rules have in
common, for any test of a type.
-/

namespace Descent.Grammar

/-- The place that is shown for an index: that of its token, at the end that of the last token, and
the start of the text if there are no tokens. -/
def placeAt (T : Array Token) (i : Nat) : SourcePosition :=
  ((T[i]?.or T.back?).map (·.position)).getD .start

/-- The failure that is found at an index. -/
def failureAt (T : Array Token) (i : Nat) (message : String)
    (code : String := DiagnosticSpec.tokenMismatch.code) : Failure :=
  { message, position := .ofSource (placeAt T i) i, code }

/-- What a grammar means: started at index `i` it ends with verdict `v` at index `j`. -/
inductive Runs (defs : Definitions Empty) (T : Array Token) :
    Grammar Empty → Nat → Verdict Value → Nat → Prop
  -- The grammars of one token
  | oneOf_match {type types i t} : T[i]? = some t → t.type ∈ type :: types →
      Runs defs T (.oneOf type types) i (.success (.ofToken t)) (i + 1)
  | oneOf_mismatch {type types i} : (∀ t, T[i]? = some t → t.type ∉ type :: types) →
      Runs defs T (.oneOf type types) i
        (.failure (failureAt T i ("Expected token of type " ++ Parser.enumerate (type :: types) ++
          ", but got " ++ Parser.describe T[i]?))) i
  | noneOf_match {type types i t} : T[i]? = some t → t.type ∉ type :: types →
      Runs defs T (.noneOf type types) i (.success (.ofToken t)) (i + 1)
  | noneOf_mismatch {type types i} : (∀ t, T[i]? = some t → t.type ∈ type :: types) →
      Runs defs T (.noneOf type types) i
        (.failure (failureAt T i ("Expected any token not of type " ++
          Parser.enumerate (type :: types) ++ ", but got " ++ Parser.describe T[i]?))) i
  | end_reached {i} : T[i]? = none → Runs defs T .endOfInput i (.success .null) i
  | end_marked {i t} : T[i]? = some t → t.type = endOfInputType →
      Runs defs T .endOfInput i (.success .null) (i + 1)
  | end_missed {i t} : T[i]? = some t → t.type ≠ endOfInputType →
      Runs defs T .endOfInput i
        (.failure (failureAt T i ("Expected end of input, but got token of type " ++ t.type)
          DiagnosticSpec.trailingInput.code)) i
  -- Sequences
  | sequence_nil {i} : Runs defs T (.sequence []) i (.success (.ofList [])) i
  | sequence_cons {g gs i k j a as} : Runs defs T g i (.success a) k →
      Runs defs T (.sequence gs) k (.success (.ofList as)) j →
      Runs defs T (.sequence (g :: gs)) i (.success (.ofList (a :: as))) j
  | sequence_stop {g gs i v j} : Runs defs T g i v j → v.matched = false →
      Runs defs T (.sequence (g :: gs)) i v j
  | sequence_later {g gs i a k v j} : Runs defs T g i (.success a) k →
      Runs defs T (.sequence gs) k v j → v.matched = false →
      Runs defs T (.sequence (g :: gs)) i v j
  -- Choice
  | choice_match {g gs i a j} : Runs defs T g i (.success a) j →
      Runs defs T (.choice g gs) i (.success a) j
  | choice_raised {g gs i e j} : Runs defs T g i (.raised e) j →
      Runs defs T (.choice g gs) i (.raised e) i
  | choice_only {g i f j} : Runs defs T g i (.failure f) j →
      Runs defs T (.choice g []) i (.failure f) i
  | choice_next_match {g h gs i f k a j} : Runs defs T g i (.failure f) k →
      Runs defs T (.choice h gs) i (.success a) j →
      Runs defs T (.choice g (h :: gs)) i (.success a) j
  | choice_next_raised {g h gs i f k e j} : Runs defs T g i (.failure f) k →
      Runs defs T (.choice h gs) i (.raised e) j →
      Runs defs T (.choice g (h :: gs)) i (.raised e) i
  | choice_first {g h gs i f k f' j} : Runs defs T g i (.failure f) k →
      Runs defs T (.choice h gs) i (.failure f') j → f'.position.index ≤ f.position.index →
      Runs defs T (.choice g (h :: gs)) i (.failure f) i
  | choice_deeper {g h gs i f k f' j} : Runs defs T g i (.failure f) k →
      Runs defs T (.choice h gs) i (.failure f') j → f.position.index < f'.position.index →
      Runs defs T (.choice g (h :: gs)) i (.failure f') i
  -- Repetition
  | many1_stop {g i v j} : Runs defs T g i v j → v.matched = false →
      Runs defs T (.many1 g) i v i
  | many1_idle {g i a j} : Runs defs T g i (.success a) j → j ≤ i →
      Runs defs T (.many1 g) i (.success (.ofList [])) i
  | many1_more {g i a k as j} : Runs defs T g i (.success a) k → i < k →
      Runs defs T (.many1 g) k (.success (.ofList as)) j →
      Runs defs T (.many1 g) i (.success (.ofList (a :: as))) j
  | many1_last {g i a k f j} : Runs defs T g i (.success a) k → i < k →
      Runs defs T (.many1 g) k (.failure f) j →
      Runs defs T (.many1 g) i (.success (.ofList [a])) k
  | many1_raised {g i a k e j} : Runs defs T g i (.success a) k → i < k →
      Runs defs T (.many1 g) k (.raised e) j → Runs defs T (.many1 g) i (.raised e) j
  -- One part changed
  | optional_match {g backtrack i a j} : Runs defs T g i (.success a) j →
      Runs defs T (.optional g backtrack) i (.success a) j
  | optional_none {g i f j} (backtrack : Bool) : Runs defs T g i (.failure f) j →
      Runs defs T (.optional g backtrack) i (.success .null) (if backtrack then i else j)
  | optional_raised {g i e j} (backtrack : Bool) : Runs defs T g i (.raised e) j →
      Runs defs T (.optional g backtrack) i (.raised e) (if backtrack then i else j)
  | attempt_match {g i a j} : Runs defs T g i (.success a) j →
      Runs defs T (.attempt g) i (.success a) j
  | attempt_stop {g i v j} : Runs defs T g i v j → v.matched = false →
      Runs defs T (.attempt g) i v i
  | label {text g i v j} : Runs defs T g i v j →
      Runs defs T (.label text g) i (v.labelled text) j
  | map_match {f g i a j} : Runs defs T g i (.success a) j →
      Runs defs T (.map f g) i (.ofExcept (f a)) j
  | map_stop {f g i v j} : Runs defs T g i v j → v.matched = false →
      Runs defs T (.map f g) i v j
  | combine_match {f gs i as j} : Runs defs T (.sequence gs) i (.success (.ofList as)) j →
      Runs defs T (.combine f gs) i (.ofExcept (f as)) j
  | combine_stop {f gs i v j} : Runs defs T (.sequence gs) i v j → v.matched = false →
      Runs defs T (.combine f gs) i v j
  -- References
  | ref {name g i v j} : defs.find? name = some g → Runs defs T g i v j →
      Runs defs T (.ref name) i v j
  | undefined {name i} : defs.find? name = none →
      Runs defs T (.ref name) i (.raised (.undefined name)) i

namespace Runs

variable {defs : Definitions Empty} {T : Array Token} {g : Grammar Empty} {i j : Nat}
  {v : Verdict Value}

/-- **A run moves forward within the tokens**, however it ends. -/
theorem bounds (h : Runs defs T g i v j) (hi : i ≤ T.size) : i ≤ j ∧ j ≤ T.size := by
  induction h with
  | oneOf_match ht | noneOf_match ht | end_marked ht =>
      obtain ⟨hlt, -⟩ := Array.getElem?_eq_some_iff.mp ht
      omega
  | oneOf_mismatch | noneOf_mismatch | end_reached | end_missed | sequence_nil | undefined =>
      exact ⟨Nat.le_refl _, hi⟩
  | sequence_cons _ _ ih ih' | sequence_later _ _ _ ih ih' | many1_more _ _ _ ih ih'
  | many1_raised _ _ _ ih ih' =>
      have hk := ih hi
      have hj := ih' hk.2
      omega
  | choice_raised | choice_only | choice_next_raised | choice_first | choice_deeper | many1_stop
  | many1_idle | attempt_stop => exact ⟨Nat.le_refl _, hi⟩
  | choice_next_match _ _ _ ih => exact ih hi
  | optional_none backtrack _ ih | optional_raised backtrack _ ih =>
      have hj := ih hi
      split <;> omega
  | many1_last _ _ _ ih _ => exact ih hi
  | sequence_stop _ _ ih | choice_match _ ih | optional_match _ ih | attempt_match _ ih
  | label _ ih | map_match _ ih | map_stop _ _ ih | combine_match _ ih | combine_stop _ _ ih
  | ref _ _ ih => exact ih hi

/-- The value of a sequence is a list. -/
theorem sequence_value {gs : List (Grammar Empty)} {a : Value}
    (h : Runs defs T (.sequence gs) i (.success a) j) : ∃ as, a = .ofList as := by
  cases h with
  | sequence_nil => exact ⟨[], rfl⟩
  | sequence_cons _ _ => exact ⟨_, rfl⟩
  | sequence_stop _ hv => cases hv
  | sequence_later _ _ hv => cases hv

/-- The value of a repetition is a list. -/
theorem many1_value {a : Value} (h : Runs defs T (.many1 g) i (.success a) j) :
    ∃ as, a = .ofList as := by
  cases h with
  | many1_stop _ hv => cases hv
  | many1_idle _ _ => exact ⟨[], rfl⟩
  | many1_more _ _ _ => exact ⟨_, rfl⟩
  | many1_last _ _ _ => exact ⟨_, rfl⟩

/-- A choice that does not match ends where it began. -/
theorem choice_stays {gs : List (Grammar Empty)} (h : Runs defs T (.choice g gs) i v j)
    (hv : v.matched = false) : j = i := by
  cases h <;> first | rfl | cases hv

theorem many1_stays {f : Failure} (h : Runs defs T (.many1 g) i (.failure f) j) : j = i := by
  cases h
  rfl

end Runs

/-! ### The grammars of one token -/

/-- The grammar matches a token if its type is `ok`. At any other token, and at the end, it fails
with a message that starts with `expectation`. -/
structure OneToken (defs : Definitions Empty) (T : Array Token) (g : Grammar Empty)
    (ok : TokenType → Prop) (expectation : String) : Prop where
  match_of : ∀ {i t}, T[i]? = some t → ok t.type → Runs defs T g i (.success (.ofToken t)) (i + 1)
  mismatch_of : ∀ {i}, (∀ t, T[i]? = some t → ¬ ok t.type) → Runs defs T g i
    (.failure (failureAt T i (expectation ++ ", but got " ++ Parser.describe T[i]?))) i

theorem oneToken_oneOf (defs : Definitions Empty) (T : Array Token) (type : TokenType)
    (types : List TokenType) : OneToken defs T (.oneOf type types) (· ∈ type :: types)
      ("Expected token of type " ++ Parser.enumerate (type :: types)) where
  match_of := .oneOf_match
  mismatch_of := .oneOf_mismatch

theorem oneToken_noneOf (defs : Definitions Empty) (T : Array Token) (type : TokenType)
    (types : List TokenType) : OneToken defs T (.noneOf type types) (· ∉ type :: types)
      ("Expected any token not of type " ++ Parser.enumerate (type :: types)) where
  match_of := .noneOf_match
  mismatch_of hno := .noneOf_mismatch fun t ht => Classical.not_not.mp (hno t ht)

end Descent.Grammar
