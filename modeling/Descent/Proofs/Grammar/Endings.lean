import Descent.Proofs.Grammar.Levels
import Descent.Proofs.Grammar.Unrolling

/-!
# How runs end

`Ends hand defs g c v d` says that a run of `g` from `c` ends with the verdict `v` and the cursor `d`,
whatever number of levels that takes. The lemmas put endings together: for each form of grammar they
say how it ends if its parts end so. As in the laws of a run, parsers written by hand are taken to be
balanced where a form goes back.
-/

namespace Descent.Grammar

variable {κ : Type} {hand : κ → Parser Value} {defs : Definitions κ} {g h : Grammar κ}
  {gs : List (Grammar κ)} {c d e : Cursor} {v w : Verdict Value} {a : Value} {f : Failure}
  {err : Error}

/-- A run of `g` from `c` ends with this verdict and this cursor, if it is given enough levels. -/
def Ends (hand : κ → Parser Value) (defs : Definitions κ) (g : Grammar κ) (c : Cursor)
    (v : Verdict Value) (d : Cursor) : Prop := ∃ n, parser hand defs n g c = some (v, d)

namespace Ends

theorem unique (hg : Ends hand defs g c v d) (hg' : Ends hand defs g c w e) : v = w ∧ d = e := by
  obtain ⟨n, hn⟩ := hg
  obtain ⟨m, hm⟩ := hg'
  exact Prod.mk.inj (parser_unique hn hm)

/-- A part and what is run after it end with a common number of levels, where the latter is given
one more. -/
theorem common {c' d' : Cursor} (hg : Ends hand defs g c v d) (hh : Ends hand defs h c' w d') :
    ∃ n, parser hand defs n g c = some (v, d) ∧ parser hand defs (n + 1) h c' = some (w, d') := by
  obtain ⟨n, hn⟩ := hg
  obtain ⟨m, hm⟩ := hh
  have hle : m ≤ max n m + 1 := Nat.le_succ_of_le (Nat.le_max_right n m)
  exact ⟨max n m, parser_below (Nat.le_max_left n m) g hn, parser_below hle h hm⟩

/-- Wherever a run ends, its cursor was only moved on. -/
theorem onward (hhand : ∀ leaf, (hand leaf).Balanced) (hc : c.index ≤ c.tokens.size)
    (hg : Ends hand defs g c v d) : c.Onward d := by
  obtain ⟨n, hn⟩ := hg
  exact parser_balanced hhand n g hc hn

/-! ### Sequences -/

theorem sequence_cons (hg : Ends hand defs g c (.success a) d)
    (hgs : Ends hand defs (.sequence gs) d v e) :
    Ends hand defs (.sequence (g :: gs)) c (v.prepend a) e := by
  obtain ⟨n, hn, hn'⟩ := hg.common hgs
  refine ⟨n + 1, ?_⟩
  rw [parser_sequence_cons, hn, Option.bind_some]
  dsimp only
  rw [hn', Option.map_some]

theorem sequence_stop (hg : Ends hand defs g c v d) (hv : v.matched = false) :
    Ends hand defs (.sequence (g :: gs)) c v d := by
  obtain ⟨n, hn⟩ := hg
  refine ⟨n + 1, ?_⟩
  rw [parser_sequence_cons, hn, Option.bind_some]
  cases v with
  | success a => cases hv
  | failure f => rfl
  | raised err => rfl

theorem combine {f : List Value → Except Error Value} (h : Ends hand defs (.sequence gs) c v d) :
    Ends hand defs (.combine f gs) c (v.through fun a => f a.items) d := by
  obtain ⟨n, hn⟩ := h
  refine ⟨n + 1, ?_⟩
  have hn' := parser_below_succ n (.sequence gs) hn
  rw [parser_combine, hn', Option.map_some]

/-! ### Choice -/

section Undoing

variable (hhand : ∀ leaf, (hand leaf).Balanced) (hc : c.index ≤ c.tokens.size)
include hhand hc

theorem choice_match (hg : Ends hand defs g c.store (.success a) d) :
    Ends hand defs (.choice g gs) c (.success a) (c.moveTo d.index) := by
  obtain ⟨n, hn⟩ := hg
  refine ⟨n + 1, ?_⟩
  cases gs with
  | nil => rw [parser_choice_nil hhand n g hc, hn]; rfl
  | cons h gs => rw [parser_choice_cons hhand n g h gs hc, hn]; rfl

theorem choice_raised (hg : Ends hand defs g c.store (.raised err) d) :
    Ends hand defs (.choice g gs) c (.raised err) c := by
  obtain ⟨n, hn⟩ := hg
  refine ⟨n + 1, ?_⟩
  cases gs with
  | nil => rw [parser_choice_nil hhand n g hc, hn]; rfl
  | cons h gs => rw [parser_choice_cons hhand n g h gs hc, hn]; rfl

theorem choice_only (hg : Ends hand defs g c.store (.failure f) d) :
    Ends hand defs (.choice g []) c (.failure f) c := by
  obtain ⟨n, hn⟩ := hg
  refine ⟨n + 1, ?_⟩
  rw [parser_choice_nil hhand n g hc, hn]
  rfl

theorem choice_next (hg : Ends hand defs g c.store (.failure f) d)
    (hgs : Ends hand defs (.choice h gs) c v e) :
    Ends hand defs (.choice g (h :: gs)) c (v.orElse f) e := by
  obtain ⟨n, hn, hn'⟩ := hg.common hgs
  refine ⟨n + 1, ?_⟩
  rw [parser_choice_cons hhand n g h gs hc, hn, Option.bind_some]
  dsimp only
  rw [hn', Option.map_some]

/-! ### Repetition -/

theorem many1_stop (hg : Ends hand defs g c.store v d) (hv : v.matched = false) :
    Ends hand defs (.many1 g) c v c := by
  obtain ⟨n, hn⟩ := hg
  refine ⟨n + 1, ?_⟩
  rw [parser_many1 hhand n g hc, hn, Option.bind_some]
  cases v with
  | success a => cases hv
  | failure f => rfl
  | raised err => rfl

theorem many1_idle (hg : Ends hand defs g c.store (.success a) d) (hle : d.index ≤ c.index) :
    Ends hand defs (.many1 g) c (.success (.ofList [])) c := by
  obtain ⟨n, hn⟩ := hg
  refine ⟨n + 1, ?_⟩
  rw [parser_many1 hhand n g hc, hn, Option.bind_some]
  exact if_neg (Nat.not_lt.mpr hle)

theorem many1_more (hg : Ends hand defs g c.store (.success a) d) (hlt : c.index < d.index)
    (hrest : Ends hand defs (.many1 g) (c.moveTo d.index) v e) :
    Ends hand defs (.many1 g) c (v.followed a) e := by
  obtain ⟨n, hn, hn'⟩ := hg.common hrest
  refine ⟨n + 1, ?_⟩
  rw [parser_many1 hhand n g hc, hn, Option.bind_some]
  dsimp only
  rw [if_pos hlt, hn', Option.map_some]

/-! ### One part changed -/

theorem attempt (hg : Ends hand defs g c.store v d) :
    Ends hand defs (.attempt g) c v (if v.matched then c.moveTo d.index else c) := by
  obtain ⟨n, hn⟩ := hg
  refine ⟨n + 1, ?_⟩
  rw [parser_attempt hhand n g hc, hn, Option.map_some]

theorem optional_true (hg : Ends hand defs g c.store v d) :
    Ends hand defs (.optional g true) c v.orNull (if v.matched then c.moveTo d.index else c) := by
  obtain ⟨n, hn⟩ := hg
  refine ⟨n + 1, ?_⟩
  rw [parser_optional_true hhand n g hc, hn, Option.map_some]

end Undoing

theorem optional_false (hg : Ends hand defs g c v d) :
    Ends hand defs (.optional g false) c v.orNull d := by
  obtain ⟨n, hn⟩ := hg
  refine ⟨n + 1, ?_⟩
  rw [parser_optional_false, hn, Option.map_some]

theorem label {text : String} (hg : Ends hand defs g c v d) :
    Ends hand defs (.label text g) c (v.labelled text) d := by
  obtain ⟨n, hn⟩ := hg
  refine ⟨n + 1, ?_⟩
  rw [parser_label, hn, Option.map_some]

theorem map {f : Value → Except Error Value} (hg : Ends hand defs g c v d) :
    Ends hand defs (.map f g) c (v.through f) d := by
  obtain ⟨n, hn⟩ := hg
  refine ⟨n + 1, ?_⟩
  rw [parser_map, hn, Option.map_some]

theorem ref {name : String} (hd : defs.find? name = some g) (hg : Ends hand defs g c v d) :
    Ends hand defs (.ref name) c v d := by
  obtain ⟨n, hn⟩ := hg
  refine ⟨n + 1, ?_⟩
  rw [parser_ref hd, hn]

theorem undefined {name : String} (hd : defs.find? name = none) (c : Cursor) :
    Ends hand defs (.ref name) c (.raised (.undefined name)) c :=
  ⟨1, parser_ref_undefined hd 0 c⟩

end Ends

end Descent.Grammar
