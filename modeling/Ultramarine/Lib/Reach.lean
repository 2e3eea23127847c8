/-!
# Runs of a labelled transition system

A system steps from state to state under labels; a step may be impossible. `Reach next ok s₀ s`
says that `s` is reached from `s₀` by steps that all meet `ok`, a condition on the label and on the
state before the step. `Reach.invariant` is the induction every statement about runs goes through;
`Reach.follow` is how a concrete run is evaluated.
-/

namespace Lib

variable {σ ℓ : Type}

/-- `s` is reached from `s₀` by steps that all meet `ok`. -/
inductive Reach (next : ℓ → σ → Option σ) (ok : σ → ℓ → Prop) (s₀ : σ) : σ → Prop
  | refl : Reach next ok s₀ s₀
  | step {s s' : σ} (l : ℓ) : Reach next ok s₀ s → ok s l → next l s = some s' →
      Reach next ok s₀ s'

namespace Reach

variable {next : ℓ → σ → Option σ} {ok : σ → ℓ → Prop} {s₀ s : σ}

/-- **The invariant rule.** What holds initially and is kept by every step that meets `ok` holds in
every state reached. -/
theorem invariant {I : σ → Prop} (h : Reach next ok s₀ s) (hinit : I s₀)
    (hstep : ∀ s l s', I s → ok s l → next l s = some s' → I s') : I s := by
  induction h with
  | refl => exact hinit
  | step l _ hok hnext ih => exact hstep _ l _ ih hok hnext

/-- Runs compose. -/
theorem trans {s' : σ} (h : Reach next ok s₀ s) (h' : Reach next ok s s') :
    Reach next ok s₀ s' := by
  induction h' with
  | refl => exact h
  | step l _ hok hnext ih => exact .step l ih hok hnext

end Reach

/-! ## Runs that can be evaluated -/

section Follow

variable (next : ℓ → σ → Option σ) (ok : σ → ℓ → Prop)

/-- One step, or the same state where the step is impossible. -/
def advance (s : σ) (l : ℓ) : σ := (next l s).getD s

/-- The state at the end of a list of labels. -/
def follow (ls : List ℓ) (s : σ) : σ := ls.foldl (advance next) s

/-- Every label of the list is possible where it comes, and meets `ok` there. -/
def Follows : List ℓ → σ → Prop
  | [], _ => True
  | l :: ls, s => ok s l ∧ (next l s).isSome = true ∧ Follows ls (advance next s l)

instance decidableFollows [∀ s l, Decidable (ok s l)] :
    ∀ (ls : List ℓ) (s : σ), Decidable (Follows next ok ls s)
  | [], _ => .isTrue trivial
  | l :: ls, s =>
    have := decidableFollows ls (advance next s l)
    inferInstanceAs (Decidable (ok s l ∧ (next l s).isSome = true ∧
      Follows next ok ls (advance next s l)))

variable {next ok}

theorem Reach.follow {s₀ : σ} : ∀ {ls : List ℓ} {s : σ}, Reach next ok s₀ s →
    Follows next ok ls s → Reach next ok s₀ (Lib.follow next ls s)
  | [], _, h, _ => h
  | l :: ls, s, h, ⟨hok, hsome, hrest⟩ => by
    obtain ⟨s', hs'⟩ := Option.isSome_iff_exists.1 hsome
    have hadv : advance next s l = s' := by
      unfold advance
      rw [hs']
      rfl
    rw [hadv] at hrest
    have hfollow : Lib.follow next (l :: ls) s = Lib.follow next ls s' := by
      rw [← hadv]
      rfl
    rw [hfollow]
    exact Reach.follow (.step l h hok hs') hrest

end Follow

end Lib
