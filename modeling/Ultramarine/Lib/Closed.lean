import Ultramarine.Lib.Prog

/-!
# Properties that are checked call by call

What a program writes (`Emits`), how it changes its memory, where it may break an invariant: each holds of a program once it holds of the calls the program is made of. `Closed P` says
so of any property `P`, and its rules are the only induction over programs: a walk through a program
that uses them is made once, for every such property.

Results:

* `Closed.ofExit_bind`, `Closed.forEach_of`, `Closed.attempt_bind` and the other rules;
* `Emits.closed`.
-/

namespace Lib.Prog

variable {δ μ ω ε : Type} [DiskOp ω δ]

/-- A property of calls that holds where nothing is done, and passes from calls to their sequence and
to a caught call. -/
structure Closed (P : ∀ {α : Type}, Prog δ μ ω ε α → Machine δ μ → Prop) : Prop where
  still : ∀ {α : Type} {p : Prog δ μ ω ε α} {m : Machine δ μ},
    (p.run m).log = [] → (p.run m).state = m → P p m
  bind : ∀ {α β : Type} {p : Prog δ μ ω ε α} {f : α → Prog δ μ ω ε β} {m : Machine δ μ}, P p m →
    (∀ a, (p.run m).exit = .ok a → P (f a) (p.run m).state) → P (p >>= f) m
  attempt : ∀ {α : Type} {p : Prog δ μ ω ε α} {m : Machine δ μ}, P p m → P p.attempt m

namespace Closed

variable {P : ∀ {α : Type}, Prog δ μ ω ε α → Machine δ μ → Prop} {α β : Type} {m : Machine δ μ}
  (h : Closed P)

include h

theorem pure (a : α) : P (Pure.pure a) m := h.still rfl rfl

theorem fail (e : ε) : P (Prog.fail e : Prog δ μ ω ε α) m := h.still rfl rfl

theorem panicked : P (Prog.panicked : Prog δ μ ω ε α) m := h.still rfl rfl

theorem ofExit (x : Exit ε α) : P (Prog.ofExit x) m := h.still rfl rfl

theorem get_bind {f : Machine δ μ → Prog δ μ ω ε β} (hf : P (f m) m) :
    P (get >>= f) m := by
  refine h.bind (h.still rfl rfl) fun a ha => ?_
  cases ha
  exact hf

theorem ofExit_bind {x : Exit ε α} {f : α → Prog δ μ ω ε β}
    (hf : ∀ a, x = .ok a → P (f a) m) : P (Prog.ofExit x >>= f) m :=
  h.bind (h.ofExit x) hf

theorem onlyIf {c : Prop} [Decidable c] {p : Prog δ μ ω ε Unit} (hp : c → P p m) :
    P (Prog.onlyIf c p) m := by
  unfold Prog.onlyIf
  split
  · exact hp ‹c›
  · exact h.pure ()

/-- A loop with an invariant that every iteration keeps. -/
theorem forEach_of {I : Machine δ μ → Prop} {f : α → Prog δ μ ω ε Unit}
    {as : List α} (hf : ∀ a ∈ as, ∀ m, I m → P (f a) m ∧ I ((f a).run m).state) (hm : I m) :
    P (Prog.forEach f as) m := by
  induction as generalizing m with
  | nil => exact h.pure ()
  | cons a as ih =>
    obtain ⟨hfirst, hnext⟩ := hf a List.mem_cons_self m hm
    exact h.bind hfirst fun _ _ => ih (fun b hb => hf b (List.mem_cons_of_mem _ hb)) hnext

theorem forEach {f : α → Prog δ μ ω ε Unit} {as : List α}
    (hf : ∀ a ∈ as, ∀ m, P (f a) m) : P (Prog.forEach f as) m :=
  h.forEach_of (I := fun _ => True) (fun a ha m _ => ⟨hf a ha m, trivial⟩) trivial

/-- A caught call, then what follows its value or its error. -/
theorem attempt_bind {p : Prog δ μ ω ε α} {f : Except ε α → Prog δ μ ω ε β}
    (hp : P p m) (hok : ∀ a, (p.run m).exit = .ok a → P (f (.ok a)) (p.run m).state)
    (herr : ∀ e, (p.run m).exit = .error e → P (f (.error e)) (p.run m).state) :
    P (p.attempt >>= f) m := by
  refine h.bind (h.attempt hp) fun r hr => ?_
  rw [attempt_state]
  rw [run_attempt] at hr
  cases hexit : (p.run m).exit with
  | ok a =>
    rw [hexit] at hr
    cases hr
    exact hok a hexit
  | error e =>
    rw [hexit] at hr
    cases hr
    exact herr e hexit
  | panic =>
    rw [hexit] at hr
    cases hr

end Closed

theorem Emits.closed (A : Machine δ μ → ω → Prop) :
    Closed fun (p : Prog δ μ ω ε _) m => Emits A (p.run m) where
  still hlog _ := .of_log_nil hlog
  bind := .bind
  attempt := .attempt

end Lib.Prog
