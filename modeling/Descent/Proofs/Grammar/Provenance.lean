import Descent.Proofs.Grammar.Refinement

/-!
# Where a failure comes from

A failure is found by a parser of one token. On its way out it may be passed by, compared with others,
dropped, or given labels, while the cursor goes back or stays. Three things are kept in step by all
forms of grammar (`Found`):

* the index that the run ends at, which is not beyond the index that the failure is found at;
* the index that the failure is found at, which is not beyond the end;
* a grammar of one token, part of the grammar that was run, that fails at this index so, but for
  labels of the grammar before its message.
-/

namespace Descent.Grammar

/-- The failure is one of a primitive in the grammar, found at index `i`, with labels of the grammar
before its message. -/
def Origin (defs : Definitions Empty) (T : Array Token) (g : Grammar Empty) (i : Nat)
    (f : Failure) : Prop :=
  ∃ (primitive : Grammar Empty) (texts : List String) (f₀ : Failure),
    Occurs defs primitive g ∧ primitive.isPrimitive ∧
    (∀ text ∈ texts, ∃ inner, Occurs defs (.label text inner) g) ∧
    Runs defs T primitive i (.failure f₀) i ∧ f = texts.foldr Failure.withLabel f₀

/-- What is kept about a failure of a run that ends at index `j`. -/
structure Found (defs : Definitions Empty) (T : Array Token) (g : Grammar Empty) (f : Failure)
    (j : Nat) : Prop where
  end_le : j ≤ f.position.index
  index_le_size : f.position.index ≤ T.size
  origin : Origin defs T g f.position.index f

variable {defs : Definitions Empty} {T : Array Token} {g h k : Grammar Empty} {i j : Nat}
  {v : Verdict Value} {f : Failure}

/-! ### From a part to the whole -/

theorem Origin.of_part (hf : Origin defs T g i f) (hp : Part defs h g) : Origin defs T h i f := by
  obtain ⟨primitive, texts, f₀, hocc, hprim, htexts, hruns, rfl⟩ := hf
  refine ⟨primitive, texts, f₀, .head hp hocc, hprim, fun text ht => ?_, hruns, rfl⟩
  obtain ⟨inner, hinner⟩ := htexts text ht
  exact ⟨inner, .head hp hinner⟩

/-- The same for the rest of a sequence or of a choice, which is no part of the whole itself. -/
theorem Origin.of_parts_subset (hf : Origin defs T g i f) (hprim : g.isPrimitive = false)
    (hlabel : ∀ text inner, .label text inner ≠ g) (hparts : ∀ m, Part defs g m → Part defs h m) :
    Origin defs T h i f := by
  obtain ⟨primitive, texts, f₀, hocc, hp, htexts, hruns, rfl⟩ := hf
  have hne : primitive ≠ g := by
    rintro rfl
    rw [hprim] at hp
    cases hp
  refine ⟨primitive, texts, f₀, occurs_of_parts_subset hocc hne hparts, hp, fun text ht => ?_,
    hruns, rfl⟩
  obtain ⟨inner, hinner⟩ := htexts text ht
  exact ⟨inner, occurs_of_parts_subset hinner (hlabel text inner) hparts⟩

/-- A label is one more of the labels before the message. -/
theorem Origin.label (hf : Origin defs T g i f) (text : String) :
    Origin defs T (.label text g) i (f.withLabel text) := by
  obtain ⟨primitive, texts, f₀, hocc, hprim, htexts, hruns, rfl⟩ :=
    hf.of_part (.label : Part defs (.label text g) g)
  refine ⟨primitive, text :: texts, f₀, hocc, hprim, fun t ht => ?_, hruns, rfl⟩
  rcases List.mem_cons.mp ht with rfl | ht
  · exact ⟨g, .refl⟩
  · exact htexts t ht

/-- A failure that a primitive finds is its own. -/
theorem found_of_primitive (hprim : g.isPrimitive) (hr : Runs defs T g i (.failure f) i)
    (hindex : f.position.index = i) (hi : i ≤ T.size) : Found defs T g f i := by
  subst hindex
  exact ⟨Nat.le_refl _, hi, g, [], f, .refl, hprim, nofun, hr, rfl⟩

theorem Found.of_parts_subset (hf : Found defs T g f j) (hprim : g.isPrimitive = false)
    (hlabel : ∀ text inner, .label text inner ≠ g) (hparts : ∀ m, Part defs g m → Part defs h m) :
    Found defs T h f j :=
  ⟨hf.end_le, hf.index_le_size, hf.origin.of_parts_subset hprim hlabel hparts⟩

theorem Found.of_part (hf : Found defs T g f j) (hp : Part defs h g) : Found defs T h f j :=
  ⟨hf.end_le, hf.index_le_size, hf.origin.of_part hp⟩

/-- A run that goes back ends no later. -/
theorem Found.back (hf : Found defs T g f j) (hij : i ≤ j) : Found defs T g f i :=
  ⟨Nat.le_trans hij hf.end_le, hf.index_le_size, hf.origin⟩

/-! ### Every failure is found -/

/-- **Every failure that a grammar ends with is found in it.** -/
theorem Runs.found (hr : Runs defs T g i (.failure f) j) (hi : i ≤ T.size) : Found defs T g f j := by
  -- Bounds of a run say that going back brings the cursor nowhere beyond the failure.
  generalize hv : Verdict.failure f = v at hr
  induction hr generalizing f with
  | oneOf_mismatch hm =>
      cases hv
      exact found_of_primitive rfl (.oneOf_mismatch hm) rfl hi
  | noneOf_mismatch hm =>
      cases hv
      exact found_of_primitive rfl (.noneOf_mismatch hm) rfl hi
  | end_missed ht hm =>
      cases hv
      exact found_of_primitive rfl (.end_missed ht hm) rfl hi
  | sequence_stop _ _ ih => exact (ih hi hv).of_part (.sequence List.mem_cons_self)
  | @sequence_later g _ _ _ _ _ _ hg _ _ _ ih =>
      have hf := ih (hg.bounds hi).2 hv
      exact hf.of_parts_subset rfl nofun fun _ hp => hp.sequence_cons g
  | choice_only hg ih =>
      cases hv
      exact ((ih hi rfl).of_part (.choice List.mem_cons_self)).back (hg.bounds hi).1
  | choice_first hg _ _ ih _ =>
      cases hv
      exact ((ih hi rfl).of_part (.choice List.mem_cons_self)).back (hg.bounds hi).1
  | @choice_deeper g _ _ _ _ _ _ _ _ hgs _ _ ih =>
      cases hv
      have hf := (ih hi rfl).back (hgs.bounds hi).1
      exact hf.of_parts_subset rfl nofun fun _ hp => hp.choice_cons g
  | many1_stop hg _ ih => exact ((ih hi hv).of_part .many1).back (hg.bounds hi).1
  | attempt_stop hg _ ih => exact ((ih hi hv).of_part .attempt).back (hg.bounds hi).1
  | @label text g i v j _ ih =>
      cases v with
      | failure f₀ =>
          cases hv
          have hf := ih hi rfl
          exact ⟨hf.end_le, hf.index_le_size, hf.origin.label text⟩
      | success a => cases hv
      | raised e => cases hv
  | map_stop _ _ ih => exact (ih hi hv).of_part .map
  | @combine_stop fn _ _ _ _ _ _ ih =>
      exact (ih hi hv).of_parts_subset rfl nofun fun _ hp => hp.combine_of_sequence fn
  | ref hd _ ih => exact (ih hi hv).of_part (.ref hd)
  | map_match | combine_match => exact absurd hv.symm Verdict.ofExcept_ne_failure
  | _ => cases hv

/-! ### What is shown of a failure -/

theorem placeAt_of_getElem {t : Token} (ht : T[i]? = some t) : placeAt T i = t.position := by
  rw [placeAt, ht]
  rfl

theorem placeAt_size {t : Token} (ht : T[T.size - 1]? = some t) :
    placeAt T T.size = t.position := by
  rw [placeAt, Array.getElem?_eq_none (Nat.le_refl _), Array.back?, ht]
  rfl

theorem placeAt_empty (i : Nat) : placeAt #[] i = .start := rfl

/-- The place that is shown is that of the token under the index, or else of the nearest one. -/
theorem placeAt_nearest {t : Token} (hi : i ≤ T.size) (ht : T[min i (T.size - 1)]? = some t) :
    placeAt T i = t.position := by
  rcases Nat.lt_or_eq_of_le hi with hlt | rfl
  · have hmin : min i (T.size - 1) = i := by omega
    rw [hmin] at ht
    exact placeAt_of_getElem ht
  · have hmin : min T.size (T.size - 1) = T.size - 1 := by omega
    rw [hmin] at ht
    exact placeAt_size ht

/-- Labels change neither the place nor the code, and stand before the message. -/
theorem foldr_withLabel (texts : List String) (f : Failure) :
    texts.foldr Failure.withLabel f =
      { f with message := String.join (texts.map (· ++ ": ")) ++ f.message } := by
  induction texts with
  | nil => simp [String.join]
  | cons text texts ih =>
      rw [List.foldr_cons, ih, Failure.withLabel, List.map_cons]
      simp [String.join_cons, String.append_assoc]

/-- The failures of a primitive are found where it is run, and have one of two codes. -/
theorem Runs.failure_of_primitive (hr : Runs defs T g i (.failure f) j) (hg : g.isPrimitive) :
    f.position = .ofSource (placeAt T i) i ∧
      (f.code = DiagnosticSpec.tokenMismatch.code ∨ f.code = DiagnosticSpec.trailingInput.code) := by
  cases g with
  | oneOf | noneOf =>
      cases hr
      exact ⟨rfl, .inl rfl⟩
  | endOfInput =>
      cases hr
      exact ⟨rfl, .inr rfl⟩
  | _ => cases hg

/-- Every failure shows the place of the index that it was found at. -/
theorem Runs.failure_position (hr : Runs defs T g i (.failure f) j) (hi : i ≤ T.size) :
    f.position = .ofSource (placeAt T f.position.index) f.position.index ∧
      f.position.index ≤ T.size := by
  obtain ⟨-, hsize, primitive, texts, f₀, -, hprim, -, hf₀, hf⟩ := hr.found hi
  rw [foldr_withLabel] at hf
  have hposition : f₀.position = f.position := (congrArg Failure.position hf).symm
  have hplace := (hf₀.failure_of_primitive hprim).1
  rw [hposition] at hplace
  exact ⟨hplace, hsize⟩

theorem registered_of_code {code : String} (hc : code = DiagnosticSpec.tokenMismatch.code ∨
    code = DiagnosticSpec.trailingInput.code) :
    ∃ spec ∈ DiagnosticSpec.registered, DiagnosticSpec.ofCode? code = some spec := by
  rcases hc with rfl | rfl
  · exact ⟨.tokenMismatch, by decide, by decide⟩
  · exact ⟨.trailingInput, by decide, by decide⟩

/-- **Every failure was found by a primitive of the grammar**, at the index that it shows. That index
lies between the one where the run ends and the end of the tokens; line and column are those of the
token there, at the end those of the last token, and 1:1 if there are no tokens. The primitive, run
at this index, fails at the same place with the same code, and only labels of the grammar stand
before its message. So the code is one of two, and is registered. -/
theorem failure_provenance (hand : Empty → Parser Value) (defs : Definitions Empty)
    (g : Grammar Empty) {n p : Nat} {T : Array Token} {S : List Nat} {f : Failure} {d : Cursor}
    (hp : p ≤ T.size) (hr : parser hand defs n g ⟨T, p, S⟩ = some (.failure f, d)) :
    (p ≤ d.index ∧ d.index ≤ f.position.index ∧ f.position.index ≤ T.size) ∧
    ((∀ t, T[f.position.index]? = some t → f.position = .ofSource t.position f.position.index) ∧
      (∀ t, f.position.index = T.size → T[T.size - 1]? = some t →
        f.position = .ofSource t.position T.size) ∧
      (T.size = 0 → f.position = ⟨1, 1, 0⟩)) ∧
    (∃ (primitive : Grammar Empty) (texts : List String) (f₀ : Failure),
      Occurs defs primitive g ∧ primitive.isPrimitive ∧
      (∀ text ∈ texts, ∃ inner, Occurs defs (.label text inner) g) ∧
      (∀ S', parser hand defs 1 primitive ⟨T, f.position.index, S'⟩ =
        some (.failure f₀, ⟨T, f.position.index, S'⟩)) ∧
      f₀.position = f.position ∧ f₀.code = f.code ∧
      f.message = String.join (texts.map (· ++ ": ")) ++ f₀.message) ∧
    (f.code = DiagnosticSpec.tokenMismatch.code ∨ f.code = DiagnosticSpec.trailingInput.code) ∧
    ∃ spec ∈ DiagnosticSpec.registered, DiagnosticSpec.ofCode? f.code = some spec ∧
      f.diagnostic = .ofSpec spec f.position (some f.message) := by
  have hruns : Runs defs T g p (.failure f) d.index :=
    runs_of_ends (c := ⟨T, p, S⟩) hp ⟨n, hr⟩
  obtain ⟨hend, hsize, primitive, texts, f₀, hocc, hprim, htexts, hf₀, hf⟩ := hruns.found hp
  rw [foldr_withLabel] at hf
  have hposition : f₀.position = f.position := (congrArg Failure.position hf).symm
  have hcode : f₀.code = f.code := (congrArg Failure.code hf).symm
  have hmessage := congrArg Failure.message hf
  obtain ⟨hplace, hcodes⟩ := hf₀.failure_of_primitive hprim
  rw [hposition] at hplace
  rw [hcode] at hcodes
  obtain ⟨spec, hspec, hfind⟩ := registered_of_code hcodes
  refine ⟨⟨(hruns.bounds hp).1, hend, hsize⟩, ⟨fun t ht => ?_, fun t hi ht => ?_, fun hempty => ?_⟩,
    ⟨primitive, texts, f₀, hocc, hprim, htexts,
      fun S' => hf₀.parser_eq_of_primitive hprim hand S' hsize, hposition, hcode, hmessage⟩,
    hcodes, spec, hspec, hfind, ?_⟩
  · rwa [placeAt_of_getElem ht] at hplace
  · rwa [hi, placeAt_size ht] at hplace
  · have hzero : f.position.index = 0 := by omega
    obtain rfl := Array.size_eq_zero_iff.mp hempty
    rwa [placeAt_empty, hzero] at hplace
  · rw [Failure.diagnostic, Diagnostic.ofCode, hfind]

/-- The deeper of two failures, under two labels, is found at the end of the tokens, while the cursor
went back to the start. -/
theorem failure_provenance_labelled :
    let a : Token := ⟨"A", "a", .start⟩
    let item : Grammar Empty := .label "item" (.oneOf "B" [])
    let defs : Definitions Empty := [("pair", .sequence [.oneOf "A" [], item])]
    let g : Grammar Empty := .label "list" (.choice (.ref "pair") [.oneOf "C" []])
    let c : Cursor := ⟨#[a], 0, [0]⟩
    let f : Failure :=
      { message := "list: item: Expected token of type B, but got end of input"
        position := ⟨1, 1, 1⟩ }
    0 ≤ c.tokens.size ∧ parser nofun defs 6 g c = some (.failure f, c) ∧
      ∃ (primitive : Grammar Empty) (texts : List String) (f₀ : Failure),
        Occurs defs primitive g ∧ primitive.isPrimitive ∧
        (∀ text ∈ texts, ∃ inner, Occurs defs (.label text inner) g) ∧
        (∀ S', parser nofun defs 1 primitive ⟨#[a], 1, S'⟩ =
          some (.failure f₀, ⟨#[a], 1, S'⟩)) ∧
        f₀.position = f.position ∧ f₀.code = f.code ∧
        f.message = String.join (texts.map (· ++ ": ")) ++ f₀.message := by
  intro a item defs g c f
  have hp : 0 ≤ c.tokens.size := Nat.zero_le _
  have hr : parser nofun defs 6 g c = some (.failure f, c) := rfl
  exact ⟨hp, hr, (failure_provenance nofun defs g hp hr).2.2.1⟩

end Descent.Grammar
