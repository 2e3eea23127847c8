import Ultramarine.Lib.Prog

/-!
# What a program returns

`Returns p m a m'` is the big-step reading of a program: from machine `m` it returns `a` and leaves
`m'`. One rule per construct says exactly when it holds, so that `simp only` with the rules takes a
program apart, and putting it together is the other direction of the same rule. `Fails p m e m'` is the
same for a program that ends with the error `e`. `Total p` says that `p` always returns, `Throws E p`
that every error it can end with satisfies `E`, and `Panics p m` that it panics from `m`; `Calm p`
never does. `Ignores g p` says that `p` does not read what `g` changes in the memory.
-/

namespace Lib

namespace Prog

variable {δ μ ω ε α β : Type} [DiskOp ω δ]

/-- From `m`, the program returns `a` and leaves `m'`. -/
def Returns (p : Prog δ μ ω ε α) (m : Machine δ μ) (a : α) (m' : Machine δ μ) : Prop :=
  (p.run m).exit = .ok a ∧ (p.run m).state = m'

section Rules

variable {p : Prog δ μ ω ε α} {f : α → Prog δ μ ω ε β} {m m' : Machine δ μ} {a a' : α} {b : β}

theorem returns_bind :
    Returns (p >>= f) m b m' ↔ ∃ a m₁, Returns p m a m₁ ∧ Returns (f a) m₁ b m' := by
  constructor
  · rintro ⟨hexit, rfl⟩
    obtain ⟨a, ha, hb⟩ := exit_bind_ok.1 hexit
    exact ⟨a, _, ⟨ha, rfl⟩, hb, (state_bind ha).symm⟩
  · rintro ⟨a, m₁, ⟨ha, rfl⟩, hb, rfl⟩
    exact ⟨exit_bind_ok.2 ⟨a, ha, hb⟩, state_bind ha⟩

/-- The sequence of two calls that return. -/
theorem Returns.bind {m₁ : Machine δ μ} (hp : Returns p m a m₁) (hf : Returns (f a) m₁ b m') :
    Returns (p >>= f) m b m' :=
  returns_bind.2 ⟨a, m₁, hp, hf⟩

/-- A program returns at most one way. -/
theorem Returns.exit_bind {m₁ : Machine δ μ} (hp : Returns p m a m₁) :
    ((p >>= f).run m).exit = ((f a).run m₁).exit := by
  rw [run_bind_ok hp.1, hp.2]

theorem Returns.state_bind {m₁ : Machine δ μ} (hp : Returns p m a m₁) :
    ((p >>= f).run m).state = ((f a).run m₁).state := by
  rw [run_bind_ok hp.1, hp.2]

theorem Returns.unique {m'' : Machine δ μ} (h : Returns p m a m') (h' : Returns p m a' m'') :
    a = a' ∧ m' = m'' := by
  refine ⟨?_, h.2.symm.trans h'.2⟩
  have := h.1.symm.trans h'.1
  cases this
  rfl

theorem returns_pure : Returns (pure a : Prog δ μ ω ε α) m a' m' ↔ a = a' ∧ m = m' := by
  simp [Returns]

theorem returns_fail {e : ε} : ¬ Returns (fail e : Prog δ μ ω ε α) m a m' := by
  simp [Returns]

theorem returns_panicked : ¬ Returns (panicked : Prog δ μ ω ε α) m a m' := by
  simp [Returns]

theorem returns_modifyMem {g : μ → μ} {u : Unit} :
    Returns (modifyMem g : Prog δ μ ω ε Unit) m u m' ↔ { m with mem := g m.mem } = m' := by
  simp [Returns]

theorem returns_write {w : ω} {u : Unit} :
    Returns (write w : Prog δ μ ω ε Unit) m u m' ↔
      { m with disk := DiskOp.apply w m.disk } = m' := by
  simp [Returns]

theorem returns_ofExit {x : Exit ε α} :
    Returns (ofExit x : Prog δ μ ω ε α) m a m' ↔ x = .ok a ∧ m = m' := by
  simp [Returns]

theorem returns_get_bind {f : Machine δ μ → Prog δ μ ω ε β} :
    Returns (get >>= f) m b m' ↔ Returns (f m) m b m' := by
  simp [Returns]

theorem returns_modifyMem_bind {g : μ → μ} {f : Unit → Prog δ μ ω ε β} :
    Returns ((modifyMem g : Prog δ μ ω ε Unit) >>= f) m b m' ↔
      Returns (f ()) { m with mem := g m.mem } b m' := by
  simp [Returns]

/-- What follows a pure computation follows its value, on the same machine. -/
theorem exists_returns_ofExit {x : Exit ε α} {K : α → Machine δ μ → Prop} :
    (∃ a m₁, Returns (ofExit x : Prog δ μ ω ε α) m a m₁ ∧ K a m₁) ↔ ∃ a, x = .ok a ∧ K a m := by
  simp only [returns_ofExit]
  constructor
  · rintro ⟨a, m₁, ⟨hx, rfl⟩, hk⟩
    exact ⟨a, hx, hk⟩
  · rintro ⟨a, hx, hk⟩
    exact ⟨a, m, ⟨hx, rfl⟩, hk⟩

theorem returns_ofExit_bind {x : Exit ε α} :
    Returns ((ofExit x : Prog δ μ ω ε α) >>= f) m b m' ↔
      ∃ a, x = .ok a ∧ Returns (f a) m b m' :=
  returns_bind.trans exists_returns_ofExit

theorem returns_onlyIf {c : Prop} [Decidable c] {p : Prog δ μ ω ε Unit} {u : Unit} :
    Returns (onlyIf c p) m u m' ↔ (c ∧ Returns p m () m') ∨ (¬ c ∧ m = m') := by
  by_cases hc : c
  · simp [hc]
  · rw [onlyIf_false hc, returns_pure]
    simp [hc]

/-- A caught call returns its value, or its error. -/
theorem returns_attempt {r : Except ε α} :
    Returns p.attempt m r m' ↔
      (∃ a, r = .ok a ∧ Returns p m a m') ∨
        (∃ e, r = .error e ∧ (p.run m).exit = .error e ∧ (p.run m).state = m') := by
  unfold Returns
  rw [run_attempt]
  cases (p.run m).exit <;> simp [eq_comm]

theorem returns_writeAll {ws : List ω} {u : Unit} :
    Returns (writeAll ws : Prog δ μ ω ε Unit) m u m' ↔
      ⟨ws.foldl (fun d w => DiskOp.apply w d) m.disk, m.mem⟩ = m' := by
  unfold Returns
  rw [(run_writeAll ws m).1, (run_writeAll ws m).2]
  simp

/-- A loop whose body returns from every machine it passes through. -/
theorem returns_forEach_cons {f : α → Prog δ μ ω ε Unit} {as : List α} {u : Unit} :
    Returns (forEach f (a :: as)) m u m' ↔
      ∃ m₁, Returns (f a) m () m₁ ∧ Returns (forEach f as) m₁ () m' := by
  have heq : forEach f (a :: as) = (do f a; forEach f as) := rfl
  rw [heq, returns_bind]
  exact ⟨fun ⟨_, m₁, h⟩ => ⟨m₁, h⟩, fun ⟨m₁, h⟩ => ⟨(), m₁, h⟩⟩

theorem returns_forEach_nil {f : α → Prog δ μ ω ε Unit} {u : Unit} :
    Returns (forEach f []) m u m' ↔ m = m' := by
  unfold forEach
  rw [returns_pure]
  simp

end Rules

/-! ## Programs that always return -/

/-- The program returns from every machine. -/
def Total (p : Prog δ μ ω ε α) : Prop := ∀ m, ∃ a m', Returns p m a m'

namespace Total

variable {p : Prog δ μ ω ε α} {f : α → Prog δ μ ω ε β}

theorem bind (hp : Total p) (hf : ∀ a, Total (f a)) : Total (p >>= f) := by
  intro m
  obtain ⟨a, m₁, h₁⟩ := hp m
  obtain ⟨b, m₂, h₂⟩ := hf a m₁
  exact ⟨b, m₂, h₁.bind h₂⟩

theorem pure (a : α) : Total (Pure.pure a : Prog δ μ ω ε α) := fun m => ⟨a, m, rfl, rfl⟩

theorem get : Total (Prog.get : Prog δ μ ω ε (Machine δ μ)) := fun m => ⟨m, m, rfl, rfl⟩

theorem modifyMem (g : μ → μ) : Total (Prog.modifyMem g : Prog δ μ ω ε Unit) :=
  fun _ => ⟨(), _, rfl, rfl⟩

theorem write (w : ω) : Total (Prog.write w : Prog δ μ ω ε Unit) := fun _ => ⟨(), _, rfl, rfl⟩

theorem onlyIf {c : Prop} [Decidable c] {p : Prog δ μ ω ε Unit} (h : Total p) :
    Total (Prog.onlyIf c p) := by
  unfold Prog.onlyIf
  split
  · exact h
  · exact pure ()

theorem forEach {f : α → Prog δ μ ω ε Unit} (h : ∀ a, Total (f a)) :
    ∀ as : List α, Total (Prog.forEach f as)
  | [] => pure ()
  | a :: as => (h a).bind fun _ => forEach h as

theorem writeAll : ∀ ws : List ω, Total (Prog.writeAll ws : Prog δ μ ω ε Unit)
  | [] => pure ()
  | w :: ws => (write w).bind fun _ => writeAll ws

end Total

/-! ## Programs that leave the memory alone -/

/-- The program never changes the memory. -/
def KeepsMem (p : Prog δ μ ω ε α) : Prop := ∀ m, (p.run m).state.mem = m.mem

namespace KeepsMem

variable {p : Prog δ μ ω ε α} {f : α → Prog δ μ ω ε β}

theorem bind (hp : KeepsMem p) (hf : ∀ a, KeepsMem (f a)) : KeepsMem (p >>= f) := by
  intro m
  cases h : (p.run m).exit with
  | ok a => rw [run_bind_ok h, hf a, hp m]
  | error e => rw [run_bind_error h, hp m]
  | panic => rw [run_bind_panic h, hp m]

theorem pure (a : α) : KeepsMem (Pure.pure a : Prog δ μ ω ε α) := fun _ => rfl

theorem write (w : ω) : KeepsMem (Prog.write w : Prog δ μ ω ε Unit) := fun _ => rfl

theorem writeAll (ws : List ω) : KeepsMem (Prog.writeAll ws : Prog δ μ ω ε Unit) := fun m => by
  rw [(run_writeAll ws m).2]

theorem forEach {f : α → Prog δ μ ω ε Unit} (h : ∀ a, KeepsMem (f a)) :
    ∀ as : List α, KeepsMem (Prog.forEach f as)
  | [] => pure ()
  | a :: as => (h a).bind fun _ => forEach h as

end KeepsMem

/-! ## Programs that do not read a part of the memory -/

/-- The machine with its memory changed by `g`. -/
def mapMem (g : μ → μ) (m : Machine δ μ) : Machine δ μ := ⟨m.disk, g m.mem⟩

/-- The program does not read what `g` changes: it does the same before and after `g`. -/
def Ignores (g : μ → μ) (p : Prog δ μ ω ε α) : Prop :=
  ∀ m, (p.run (mapMem g m)).exit = (p.run m).exit ∧
    (p.run (mapMem g m)).state = mapMem g (p.run m).state

namespace Ignores

variable {g : μ → μ} {p : Prog δ μ ω ε α} {f : α → Prog δ μ ω ε β}

theorem bind (hp : Ignores g p) (hf : ∀ a, Ignores g (f a)) : Ignores g (p >>= f) := by
  intro m
  obtain ⟨hexit, hstate⟩ := hp m
  cases h : (p.run m).exit with
  | ok a =>
    rw [run_bind_ok h, run_bind_ok (hexit.trans h), hstate]
    exact hf a _
  | error e =>
    rw [run_bind_error h, run_bind_error (hexit.trans h)]
    exact ⟨rfl, hstate⟩
  | panic =>
    rw [run_bind_panic h, run_bind_panic (hexit.trans h)]
    exact ⟨rfl, hstate⟩

theorem pure (a : α) : Ignores g (Pure.pure a : Prog δ μ ω ε α) := fun _ => ⟨rfl, rfl⟩

theorem ofExit (x : Exit ε α) : Ignores g (Prog.ofExit x : Prog δ μ ω ε α) := fun _ => ⟨rfl, rfl⟩

theorem write (w : ω) : Ignores g (Prog.write w : Prog δ μ ω ε Unit) := fun _ => ⟨rfl, rfl⟩

theorem get_bind {k : Machine δ μ → Prog δ μ ω ε β} (h : ∀ m, Ignores g (k m))
    (hk : ∀ m, k (mapMem g m) = k m) : Ignores g (Prog.get >>= k) := by
  have hrun : ∀ m, (Prog.get >>= k).run m = (k m).run m := fun _ => run_bind_of_eq rfl
  intro m
  rw [hrun, hrun, hk]
  exact h m m

theorem modifyMem {k : μ → μ} (h : ∀ mem, k (g mem) = g (k mem)) :
    Ignores g (Prog.modifyMem k : Prog δ μ ω ε Unit) := by
  intro m
  exact ⟨rfl, congrArg (Machine.mk m.disk) (h m.mem)⟩

theorem attempt (hp : Ignores g p) : Ignores g p.attempt := by
  intro m
  obtain ⟨hexit, hstate⟩ := hp m
  rw [run_attempt, run_attempt, hexit, hstate]
  cases (p.run m).exit <;> exact ⟨rfl, rfl⟩

/-- What the program returns after `g` it returns before. -/
theorem returns (hp : Ignores g p) {m m' : Machine δ μ} {a : α} (h : Returns p (mapMem g m) a m') :
    ∃ m₁, Returns p m a m₁ ∧ m' = mapMem g m₁ :=
  ⟨_, ⟨(hp m).1.symm.trans h.1, rfl⟩, h.2.symm.trans (hp m).2⟩

end Ignores

/-! ## Errors -/

/-- Every error the program can end with satisfies `E`. -/
def Throws (E : ε → Prop) (p : Prog δ μ ω ε α) : Prop :=
  ∀ m e, (p.run m).exit = .error e → E e

namespace Throws

variable {E : ε → Prop} {p : Prog δ μ ω ε α} {f : α → Prog δ μ ω ε β}

theorem bind (hp : Throws E p) (hf : ∀ a, Throws E (f a)) : Throws E (p >>= f) := by
  intro m e he
  cases h : (p.run m).exit with
  | ok a =>
    rw [run_bind_ok h] at he
    exact hf a _ e he
  | error e' =>
    rw [run_bind_error h] at he
    cases he
    exact hp m _ h
  | panic =>
    rw [run_bind_panic h] at he
    cases he

theorem pure (a : α) : Throws E (Pure.pure a : Prog δ μ ω ε α) := fun _ _ h => nomatch h

theorem get : Throws E (Prog.get : Prog δ μ ω ε (Machine δ μ)) := fun _ _ h => nomatch h

theorem modifyMem (g : μ → μ) : Throws E (Prog.modifyMem g : Prog δ μ ω ε Unit) :=
  fun _ _ h => nomatch h

theorem write (w : ω) : Throws E (Prog.write w : Prog δ μ ω ε Unit) := fun _ _ h => nomatch h

theorem ofExit {x : Exit ε α} (h : ∀ e, x = .error e → E e) :
    Throws E (Prog.ofExit x : Prog δ μ ω ε α) := fun _ e he => h e he

theorem attempt (p : Prog δ μ ω ε α) : Throws E p.attempt := by
  intro m e he
  rw [run_attempt] at he
  cases h : (p.run m).exit <;> rw [h] at he <;> cases he

end Throws

/-- From `m`, the program ends with the error `e` and leaves `m'`. -/
def Fails (p : Prog δ μ ω ε α) (m : Machine δ μ) (e : ε) (m' : Machine δ μ) : Prop :=
  (p.run m).exit = .error e ∧ (p.run m).state = m'

section Fails

variable {p : Prog δ μ ω ε α} {f : α → Prog δ μ ω ε β} {m m' : Machine δ μ} {e : ε}

theorem fails_bind :
    Fails (p >>= f) m e m' ↔ Fails p m e m' ∨ ∃ a m₁, Returns p m a m₁ ∧ Fails (f a) m₁ e m' := by
  unfold Fails Returns
  cases h : (p.run m).exit with
  | ok a => simp [run_bind_ok h]
  | error e' => simp [run_bind_error h]
  | panic => simp [run_bind_panic h]

theorem Total.throws {E : ε → Prop} (hp : Total p) : Throws E p := by
  intro m e he
  obtain ⟨a, _, hr⟩ := hp m
  rw [hr.1] at he
  cases he

theorem Total.not_fails (hp : Total p) : ¬ Fails p m e m' := by
  rintro ⟨he, _⟩
  obtain ⟨a, m₁, hr⟩ := hp m
  cases hr.1.symm.trans he

/-- After a part that always returns, the rest has to fail. -/
theorem Total.fails_bind (hp : Total p) :
    Fails (p >>= f) m e m' ↔ ∃ a m₁, Returns p m a m₁ ∧ Fails (f a) m₁ e m' := by
  rw [Prog.fails_bind]
  exact or_iff_right hp.not_fails

theorem fails_ofExit_bind {x : Exit ε α} :
    Fails ((ofExit x : Prog δ μ ω ε α) >>= f) m e m' ↔
      (x = .error e ∧ m = m') ∨ ∃ a, x = .ok a ∧ Fails (f a) m e m' := by
  rw [fails_bind]
  exact or_congr Iff.rfl exists_returns_ofExit

theorem fails_modifyMem_bind {g : μ → μ} {f : Unit → Prog δ μ ω ε β} :
    Fails ((modifyMem g : Prog δ μ ω ε Unit) >>= f) m e m' ↔
      Fails (f ()) { m with mem := g m.mem } e m' := by
  simp [Fails]

theorem not_fails_pure {a : α} : ¬ Fails (pure a : Prog δ μ ω ε α) m e m' := by
  simp [Fails]

end Fails

/-! ## Panics -/

/-- From `m`, the program panics. -/
def Panics (p : Prog δ μ ω ε α) (m : Machine δ μ) : Prop := (p.run m).exit = .panic

section Panics

variable {p : Prog δ μ ω ε α} {f : α → Prog δ μ ω ε β} {m : Machine δ μ}

theorem panics_bind :
    Panics (p >>= f) m ↔ Panics p m ∨ ∃ a m₁, Returns p m a m₁ ∧ Panics (f a) m₁ := by
  unfold Panics Returns
  cases h : (p.run m).exit with
  | ok a => simp [run_bind_ok h]
  | error e => simp [run_bind_error h]
  | panic => simp [run_bind_panic h]

theorem panics_ofExit_bind {x : Exit ε α} :
    Panics ((ofExit x : Prog δ μ ω ε α) >>= f) m ↔ x = .panic ∨ ∃ a, x = .ok a ∧ Panics (f a) m := by
  rw [panics_bind]
  exact or_congr Iff.rfl exists_returns_ofExit

end Panics

/-- The program never panics. -/
def Calm (p : Prog δ μ ω ε α) : Prop := ∀ m, ¬ Panics p m

/-- After a part that does not panic, the rest has to. -/
theorem Calm.panics_bind {p : Prog δ μ ω ε α} {f : α → Prog δ μ ω ε β} {m : Machine δ μ}
    (hp : Calm p) : Panics (p >>= f) m ↔ ∃ a m₁, Returns p m a m₁ ∧ Panics (f a) m₁ := by
  rw [Prog.panics_bind]
  exact or_iff_right (hp m)

namespace Calm

variable {p : Prog δ μ ω ε α} {f : α → Prog δ μ ω ε β}

theorem bind (hp : Calm p) (hf : ∀ a, Calm (f a)) : Calm (p >>= f) := by
  intro m hpanic
  obtain ⟨a, m₁, _, h⟩ := hp.panics_bind.1 hpanic
  exact hf a m₁ h

theorem of_total (h : Total p) : Calm p := by
  intro m hpanic
  obtain ⟨a, m', hr⟩ := h m
  cases hpanic.symm.trans hr.1

theorem ofExit {x : Exit ε α} (h : x ≠ .panic) : Calm (Prog.ofExit x : Prog δ μ ω ε α) :=
  fun _ hpanic => h hpanic

/-- Errors that are caught and no panics: the program returns. -/
theorem total_attempt (h : Calm p) : Total p.attempt := by
  intro m
  cases hexit : (p.run m).exit with
  | ok a => exact ⟨.ok a, _, returns_attempt.2 (.inl ⟨a, rfl, hexit, rfl⟩)⟩
  | error e => exact ⟨.error e, _, returns_attempt.2 (.inr ⟨e, rfl, hexit, rfl⟩)⟩
  | panic => exact absurd hexit (h m)

end Calm

/-! ## Where a program stops -/

/-- If the program does not return from `m`, `J` holds where it stops. -/
def StopsAt (J : Machine δ μ → Prop) (p : Prog δ μ ω ε α) (m : Machine δ μ) : Prop :=
  (∀ a, (p.run m).exit ≠ .ok a) → J (p.run m).state

namespace StopsAt

variable {J : Machine δ μ → Prop} {p : Prog δ μ ω ε α} {f : α → Prog δ μ ω ε β} {m : Machine δ μ}

theorem of_state (h : J (p.run m).state) : StopsAt J p m := fun _ => h

theorem of_returns {a : α} {m' : Machine δ μ} (h : Returns p m a m') : StopsAt J p m :=
  fun hno => absurd h.1 (hno a)

theorem of_total (h : Total p) : StopsAt J p m := by
  obtain ⟨a, m', hr⟩ := h m
  exact of_returns hr

theorem bind (hp : StopsAt J p m) (hf : ∀ a m₁, Returns p m a m₁ → StopsAt J (f a) m₁) :
    StopsAt J (p >>= f) m := by
  intro hno
  cases h : (p.run m).exit with
  | ok a =>
    rw [run_bind_ok h] at hno ⊢
    exact hf a _ ⟨h, rfl⟩ hno
  | error e =>
    rw [run_bind_error h]
    exact hp fun a ha => by cases h.symm.trans ha
  | panic =>
    rw [run_bind_panic h]
    exact hp fun a ha => by cases h.symm.trans ha

theorem ofExit_bind {x : Exit ε α} (hm : J m) (hf : ∀ a, x = .ok a → StopsAt J (f a) m) :
    StopsAt J ((ofExit x : Prog δ μ ω ε α) >>= f) m := by
  refine bind (of_state hm) fun a m₁ h => ?_
  obtain ⟨hx, rfl⟩ := returns_ofExit.1 h
  exact hf a hx

end StopsAt

end Prog

end Lib
