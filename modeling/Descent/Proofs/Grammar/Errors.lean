import Descent.Proofs.Grammar.Parts
import Descent.Proofs.Grammar.Runs

/-!
# Which errors a run ends with

The forms of grammar raise nothing of their own. An error that a run ends with was returned by a
function that occurs in the grammar, or names a reference in it that has no definition.
-/

namespace Descent.Grammar

variable {defs : Definitions Empty} {T : Array Token} {g h : Grammar Empty} {i j : Nat}
  {v : Verdict Value} {e : Error}

/-- What can raise an error without any of its parts raising it. -/
inductive Raiser (defs : Definitions Empty) : Grammar Empty → Error → Prop
  | map {f g a e} : f a = .error e → Raiser defs (.map f g) e
  | combine {f gs as e} : f as = .error e → Raiser defs (.combine f gs) e
  | undefined {name} : defs.find? name = none → Raiser defs (.ref name) (.undefined name)

/-- Something that can raise the error occurs in the grammar. -/
def HasRaiser (defs : Definitions Empty) (g : Grammar Empty) (e : Error) : Prop :=
  ∃ h, Occurs defs h g ∧ Raiser defs h e

theorem Raiser.hasRaiser (hr : Raiser defs g e) : HasRaiser defs g e := ⟨g, .refl, hr⟩

theorem HasRaiser.of_part (hg : HasRaiser defs g e) (hp : Part defs h g) : HasRaiser defs h e := by
  obtain ⟨k, hk, hr⟩ := hg
  exact ⟨k, .head hp hk, hr⟩

/-- The rest of a sequence or of a choice is no part of the whole, but has no other parts. -/
theorem HasRaiser.of_parts_subset (hg : HasRaiser defs g e) (hne : ¬ Raiser defs g e)
    (hparts : ∀ m, Part defs g m → Part defs h m) : HasRaiser defs h e := by
  obtain ⟨k, hk, hr⟩ := hg
  have hkg : k ≠ g := by
    rintro rfl
    exact hne hr
  exact ⟨k, occurs_of_parts_subset hk hkg hparts, hr⟩

/-- **An error that a run ends with is raised by something that occurs in the grammar.** -/
theorem Runs.hasRaiser (hr : Runs defs T g i (.raised e) j) : HasRaiser defs g e := by
  generalize hv : Verdict.raised e = v at hr
  induction hr with
  | sequence_stop _ _ ih => exact (ih hv).of_part (.sequence List.mem_cons_self)
  | @sequence_later g _ _ _ _ _ _ _ _ _ _ ih =>
      exact (ih hv).of_parts_subset nofun fun _ hp => hp.sequence_cons g
  | choice_raised _ ih => exact (ih hv).of_part (.choice List.mem_cons_self)
  | @choice_next_raised g _ _ _ _ _ _ _ _ _ _ ih =>
      exact (ih hv).of_parts_subset nofun fun _ hp => hp.choice_cons g
  | many1_stop _ _ ih => exact (ih hv).of_part .many1
  | many1_raised _ _ _ _ ih => exact ih hv
  | optional_raised _ _ ih => exact (ih hv).of_part .optional
  | attempt_stop _ _ ih => exact (ih hv).of_part .attempt
  | label _ ih => exact (ih (Verdict.raised_eq_labelled.mp hv)).of_part .label
  | map_match =>
      have hf := Verdict.ofExcept_eq_raised_iff.mp hv.symm
      exact (Raiser.map hf).hasRaiser
  | map_stop _ _ ih => exact (ih hv).of_part .map
  | combine_match =>
      have hf := Verdict.ofExcept_eq_raised_iff.mp hv.symm
      exact (Raiser.combine hf).hasRaiser
  | @combine_stop f _ _ _ _ _ _ ih =>
      exact (ih hv).of_parts_subset nofun fun _ hp => hp.combine_of_sequence f
  | ref hd _ ih => exact (ih hv).of_part (.ref hd)
  | undefined hd =>
      cases hv
      exact (Raiser.undefined hd).hasRaiser
  | _ => cases hv

end Descent.Grammar
