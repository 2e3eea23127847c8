import Mathlib.Data.List.Basic

/-!
# Programs over a durable disk and a volatile memory

A machine has a `disk`, changed only by atomic writes, and a `mem`, changed freely and lost in a
crash. A program runs to an `Exit` (a value, an error that leaves the machine as it is at that
point, or a panic) and logs every write together with the machine just before it. The log is all a
crash can observe: a machine stopped inside a call has the disk of some logged write's pre-state,
or of the end of the call.

`Prog` carries the proof that its log explains its disk (`Chain`), so a program that changes the
disk behind the log's back cannot be built. `Prog.disk_invariant` is the rule every durable
invariant rests on: it is enough to look at the writes, one by one.

Results:

* `Prog.disk_eq_foldl`: the final disk is the fold of the logged writes;
* `Prog.disk_invariant`, `Prog.cutAt_invariant`: an invariant kept by each logged write holds
  wherever the call may be cut;
* `Prog.mem_log_bind`, `Prog.Emits.bind`: where the writes of a composed program come from.
-/

namespace Lib

/-- How a call ends. An `error` is returned to the caller, a `panic` unwinds the whole task. -/
inductive Exit (ε α : Type) where
  | ok (a : α)
  | error (e : ε)
  | panic
deriving DecidableEq

namespace Exit

variable {ε α β : Type}

/-- Continue with a returned value. -/
protected def bind : Exit ε α → (α → Exit ε β) → Exit ε β
  | ok a, f => f a
  | error e, _ => error e
  | panic, _ => panic

instance : Monad (Exit ε) where
  pure := ok
  bind := Exit.bind

/-- Return an error unless `c` holds. -/
def ensure (c : Prop) [Decidable c] (e : ε) : Exit ε Unit := if c then ok () else error e

/-- Return an error where there is no value. -/
def ofOption (e : ε) : Option α → Exit ε α
  | some a => ok a
  | none => error e

/-- Return the value of a computation, or its error under `f`. -/
def ofExcept {ε' : Type} (f : ε' → ε) : Except ε' α → Exit ε α
  | .ok a => ok a
  | .error e => error (f e)

/-- Panic where there is no value. -/
def orPanic : Option α → Exit ε α
  | some a => ok a
  | none => panic

/-- A value is returned that passes the test. -/
def okAnd (p : α → Bool) : Exit ε α → Bool
  | ok a => p a
  | _ => false

/-- Check every element, in order, up to the first error. -/
def forEach (f : α → Exit ε Unit) : List α → Exit ε Unit
  | [] => ok ()
  | a :: as => do
    f a
    forEach f as

theorem okAnd_iff {p : α → Bool} {x : Exit ε α} :
    x.okAnd p = true ↔ ∃ a, x = ok a ∧ p a = true := by
  cases x <;> simp [okAnd]

@[simp] theorem ok_bind (a : α) (f : α → Exit ε β) : (ok a >>= f) = f a := rfl

@[simp] theorem pure_eq_ok (a : α) : (pure a : Exit ε α) = ok a := rfl

@[simp] theorem error_bind (e : ε) (f : α → Exit ε β) : (error e >>= f) = error e := rfl

@[simp] theorem panic_bind (f : α → Exit ε β) : ((panic : Exit ε α) >>= f) = panic := rfl

/-- A sequence returns a value exactly when both halves do. -/
theorem bind_eq_ok {x : Exit ε α} {f : α → Exit ε β} {b : β} :
    (x >>= f) = ok b ↔ ∃ a, x = ok a ∧ f a = ok b := by
  cases x <;> simp

@[simp] theorem ensure_eq_ok {c : Prop} [Decidable c] {e : ε} {u : Unit} :
    ensure c e = ok u ↔ c := by
  unfold ensure
  split <;> simp [*]

@[simp] theorem ensure_eq_error {c : Prop} [Decidable c] {e e' : ε} :
    ensure c e = error e' ↔ ¬ c ∧ e = e' := by
  unfold ensure
  split <;> simp [*]

@[simp] theorem ofOption_eq_ok {e : ε} {x : Option α} {a : α} :
    ofOption e x = ok a ↔ x = some a := by
  cases x <;> simp [ofOption]

@[simp] theorem ofOption_eq_error {e e' : ε} {x : Option α} :
    ofOption e x = error e' ↔ x = none ∧ e = e' := by
  cases x <;> simp [ofOption]

@[simp] theorem ofExcept_eq_ok {ε' : Type} {f : ε' → ε} {x : Except ε' α} {a : α} :
    ofExcept f x = ok a ↔ x = .ok a := by
  cases x <;> simp [ofExcept]

@[simp] theorem orPanic_eq_ok {x : Option α} {a : α} :
    (orPanic x : Exit ε α) = ok a ↔ x = some a := by
  cases x <;> simp [orPanic]

theorem bind_eq_error {x : Exit ε α} {f : α → Exit ε β} {e : ε} :
    (x >>= f) = error e ↔ x = error e ∨ ∃ a, x = ok a ∧ f a = error e := by
  cases x <;> simp

theorem bind_eq_panic {x : Exit ε α} {f : α → Exit ε β} :
    (x >>= f) = panic ↔ x = panic ∨ ∃ a, x = ok a ∧ f a = panic := by
  cases x <;> simp

@[simp] theorem ensure_ne_panic {c : Prop} [Decidable c] {e : ε} : ensure c e ≠ panic := by
  unfold ensure
  split <;> simp

@[simp] theorem ofOption_ne_panic {e : ε} {x : Option α} : ofOption e x ≠ panic := by
  cases x <;> simp [ofOption]

@[simp] theorem orPanic_eq_panic {x : Option α} : (orPanic x : Exit ε α) = panic ↔ x = none := by
  cases x <;> simp [orPanic]

@[simp] theorem orPanic_ne_error {x : Option α} {e : ε} : (orPanic x : Exit ε α) ≠ error e := by
  cases x <;> simp [orPanic]

@[simp] theorem forEach_eq_ok {f : α → Exit ε Unit} {u : Unit} :
    ∀ {as : List α}, forEach f as = ok u ↔ ∀ a ∈ as, f a = ok ()
  | [] => by simp [forEach]
  | a :: as => by
    unfold forEach
    rw [bind_eq_ok]
    simp only [List.mem_cons, forall_eq_or_imp, forEach_eq_ok, exists_and_right]
    constructor
    · rintro ⟨⟨⟨⟩, ha⟩, has⟩
      exact ⟨ha, has⟩
    · rintro ⟨ha, has⟩
      exact ⟨⟨(), ha⟩, has⟩

instance : LawfulMonad (Exit ε) :=
  LawfulMonad.mk' _ (fun x => by cases x <;> rfl) (fun _ _ => rfl) fun x _ _ => by cases x <;> rfl

/-- A list of calls returns the list of what each of them returns. -/
theorem mapM_eq_ok {f : α → Exit ε β} : ∀ {as : List α} {bs : List β},
    as.mapM f = ok bs ↔ as.map f = bs.map ok
  | [], bs => by
    rw [List.mapM_nil, pure_eq_ok, ok.injEq, List.map_nil, eq_comm, eq_comm (a := []),
      List.map_eq_nil_iff]
  | a :: as, bs => by
    simp only [List.mapM_cons, bind_eq_ok, mapM_eq_ok, pure_eq_ok, ok.injEq]
    constructor
    · rintro ⟨b, hb, bs', hbs', rfl⟩
      rw [List.map_cons, List.map_cons, hb, hbs']
    · intro h
      cases bs with
      | nil => cases h
      | cons b bs =>
        obtain ⟨hb, hbs⟩ := List.cons.inj h
        exact ⟨b, hb, bs, hbs, rfl⟩

end Exit

/-- What a write does to the disk. -/
class DiskOp (ω δ : Type) where
  apply : ω → δ → δ

/-- A running machine. -/
@[ext]
structure Machine (δ μ : Type) where
  disk : δ
  mem : μ
deriving DecidableEq

/-- Everything a run leaves behind: its exit, its final machine, and each write with the machine
just before it. -/
@[ext]
structure Outcome (δ μ ω ε α : Type) where
  exit : Exit ε α
  state : Machine δ μ
  log : List (Machine δ μ × ω)

section Chain

variable {δ μ ω : Type} [DiskOp ω δ]

/-- `log` leads from disk `d` to disk `d'`: every logged write starts where the one before it
ended. -/
def Chain : δ → List (Machine δ μ × ω) → δ → Prop
  | d, [], d' => d = d'
  | d, (m, w) :: rest, d' => m.disk = d ∧ Chain (DiskOp.apply w d) rest d'

theorem Chain.append {d₁ d₂ d₃ : δ} :
    ∀ {l₁ l₂ : List (Machine δ μ × ω)}, Chain d₁ l₁ d₂ → Chain d₂ l₂ d₃ → Chain d₁ (l₁ ++ l₂) d₃
  | [], _, h₁, h₂ => by
    simp only [Chain] at h₁
    subst h₁
    exact h₂
  | (_, _) :: _, _, h₁, h₂ => ⟨h₁.1, Chain.append h₁.2 h₂⟩

/-- The disk a chain ends with is the fold of its writes. -/
theorem Chain.eq_foldl {d' : δ} :
    ∀ {l : List (Machine δ μ × ω)} {d : δ}, Chain d l d' →
      d' = l.foldl (fun d e => DiskOp.apply e.2 d) d
  | [], _, h => h.symm
  | (_, w) :: rest, d, h => Chain.eq_foldl (l := rest) (d := DiskOp.apply w d) h.2

/-- An invariant that each logged write keeps holds at the start of every write and at the end. -/
theorem Chain.invariant {I : δ → Prop} {d' : δ} :
    ∀ {l : List (Machine δ μ × ω)} {d : δ}, Chain d l d' → I d →
      (∀ e ∈ l, I e.1.disk → I (DiskOp.apply e.2 e.1.disk)) →
      (∀ e ∈ l, I e.1.disk) ∧ I d'
  | [], _, h, hd, _ => by
    simp only [Chain] at h
    subst h
    exact ⟨by simp, hd⟩
  | (m, w) :: rest, d, h, hd, hw => by
    obtain ⟨hm, hrest⟩ := h
    have hm' : I m.disk := hm ▸ hd
    have hnext : I (DiskOp.apply w d) := hm ▸ hw (m, w) (by simp) hm'
    obtain ⟨hlog, hend⟩ := Chain.invariant hrest hnext
      (fun e he => hw e (List.mem_cons_of_mem _ he))
    refine ⟨fun e he => ?_, hend⟩
    rcases List.mem_cons.1 he with rfl | he
    · exact hm'
    · exact hlog e he

end Chain

/-- A program: its runs, and the proof that each run's log explains the disk it leaves. -/
structure Prog (δ μ ω ε : Type) [DiskOp ω δ] (α : Type) where
  run : Machine δ μ → Outcome δ μ ω ε α
  chain : ∀ m, Chain m.disk (run m).log (run m).state.disk

namespace Prog

variable {δ μ ω ε α β γ : Type} [DiskOp ω δ]

@[ext]
theorem ext {p q : Prog δ μ ω ε α} (h : ∀ m, p.run m = q.run m) : p = q := by
  cases p
  cases q
  congr
  exact funext h

/-- Return a value. -/
protected def pure (a : α) : Prog δ μ ω ε α where
  run m := ⟨.ok a, m, []⟩
  chain _ := rfl

/-- Return an error; what was done so far stays done. -/
def fail (e : ε) : Prog δ μ ω ε α where
  run m := ⟨.error e, m, []⟩
  chain _ := rfl

/-- Unwind. -/
def panicked : Prog δ μ ω ε α where
  run m := ⟨.panic, m, []⟩
  chain _ := rfl

/-- Run `p`, and if it returns a value continue with `f`. -/
def bindRun (p : Prog δ μ ω ε α) (f : α → Prog δ μ ω ε β) (m : Machine δ μ) :
    Outcome δ μ ω ε β :=
  match (p.run m).exit with
  | .ok a =>
    let next := (f a).run (p.run m).state
    ⟨next.exit, next.state, (p.run m).log ++ next.log⟩
  | .error e => ⟨.error e, (p.run m).state, (p.run m).log⟩
  | .panic => ⟨.panic, (p.run m).state, (p.run m).log⟩

/-- Sequencing. -/
protected def bind (p : Prog δ μ ω ε α) (f : α → Prog δ μ ω ε β) : Prog δ μ ω ε β where
  run := bindRun p f
  chain m := by
    unfold bindRun
    cases (p.run m).exit with
    | ok a => exact (p.chain m).append ((f a).chain _)
    | error e => exact p.chain m
    | panic => exact p.chain m

instance : Monad (Prog δ μ ω ε) where
  pure := Prog.pure
  bind := Prog.bind

/-- Read the machine. -/
def get : Prog δ μ ω ε (Machine δ μ) where
  run m := ⟨.ok m, m, []⟩
  chain _ := rfl

/-- Change the memory. -/
def modifyMem (f : μ → μ) : Prog δ μ ω ε Unit where
  run m := ⟨.ok (), { m with mem := f m.mem }, []⟩
  chain _ := rfl

/-- One atomic durable write. -/
def write (w : ω) : Prog δ μ ω ε Unit where
  run m := ⟨.ok (), { m with disk := DiskOp.apply w m.disk }, [(m, w)]⟩
  chain _ := ⟨rfl, rfl⟩

/-- Run `p` and hand its error, if any, to the continuation. A panic is not caught. -/
def attempt (p : Prog δ μ ω ε α) : Prog δ μ ω ε (Except ε α) where
  run m :=
    match (p.run m).exit with
    | .ok a => ⟨.ok (.ok a), (p.run m).state, (p.run m).log⟩
    | .error e => ⟨.ok (.error e), (p.run m).state, (p.run m).log⟩
    | .panic => ⟨.panic, (p.run m).state, (p.run m).log⟩
  chain m := by
    cases h : (p.run m).exit with
    | ok a => exact p.chain m
    | error e => exact p.chain m
    | panic => exact p.chain m

/-- End as a pure computation does. -/
def ofExit (x : Exit ε α) : Prog δ μ ω ε α where
  run m := ⟨x, m, []⟩
  chain _ := rfl

/-- Run `p` only if `c` holds. -/
def onlyIf (c : Prop) [Decidable c] (p : Prog δ μ ω ε Unit) : Prog δ μ ω ε Unit :=
  if c then p else pure ()

/-- Run `f` on every element, in order, up to the first error. -/
def forEach (f : α → Prog δ μ ω ε Unit) : List α → Prog δ μ ω ε Unit
  | [] => pure ()
  | a :: as => do
    f a
    forEach f as

/-- Perform the writes, in order. -/
def writeAll : List ω → Prog δ μ ω ε Unit
  | [] => pure ()
  | w :: ws => do
    write w
    writeAll ws

/-! ## Running the pieces -/

variable {p : Prog δ μ ω ε α} {f : α → Prog δ μ ω ε β} {m : Machine δ μ}

@[simp] theorem run_pure (a : α) (m : Machine δ μ) :
    (pure a : Prog δ μ ω ε α).run m = ⟨.ok a, m, []⟩ := rfl

@[simp] theorem run_fail (e : ε) (m : Machine δ μ) :
    (fail e : Prog δ μ ω ε α).run m = ⟨.error e, m, []⟩ := rfl

@[simp] theorem run_panicked (m : Machine δ μ) :
    (panicked : Prog δ μ ω ε α).run m = ⟨.panic, m, []⟩ := rfl

@[simp] theorem run_get (m : Machine δ μ) :
    (get : Prog δ μ ω ε (Machine δ μ)).run m = ⟨.ok m, m, []⟩ := rfl

@[simp] theorem run_modifyMem (f : μ → μ) (m : Machine δ μ) :
    (modifyMem f : Prog δ μ ω ε Unit).run m = ⟨.ok (), { m with mem := f m.mem }, []⟩ := rfl

@[simp] theorem run_write (w : ω) (m : Machine δ μ) :
    (write w : Prog δ μ ω ε Unit).run m =
      ⟨.ok (), { m with disk := DiskOp.apply w m.disk }, [(m, w)]⟩ := rfl

theorem run_bind (p : Prog δ μ ω ε α) (f : α → Prog δ μ ω ε β) (m : Machine δ μ) :
    (p >>= f).run m = bindRun p f m := rfl

theorem run_bind_ok {a : α} (h : (p.run m).exit = .ok a) :
    (p >>= f).run m =
      ⟨((f a).run (p.run m).state).exit, ((f a).run (p.run m).state).state,
        (p.run m).log ++ ((f a).run (p.run m).state).log⟩ := by
  rw [run_bind, bindRun, h]

theorem run_bind_error {e : ε} (h : (p.run m).exit = .error e) :
    (p >>= f).run m = ⟨.error e, (p.run m).state, (p.run m).log⟩ := by
  rw [run_bind, bindRun, h]

theorem run_bind_panic (h : (p.run m).exit = .panic) :
    (p >>= f).run m = ⟨.panic, (p.run m).state, (p.run m).log⟩ := by
  rw [run_bind, bindRun, h]

/-- A bind whose first part neither moves nor logs. -/
theorem run_bind_of_eq {a : α} (h : p.run m = ⟨.ok a, m, []⟩) : (p >>= f).run m = (f a).run m := by
  rw [run_bind_ok (a := a) (by rw [h]), h]
  rfl

@[simp] theorem run_get_bind (f : Machine δ μ → Prog δ μ ω ε β) (m : Machine δ μ) :
    (get >>= f).run m = (f m).run m := run_bind_of_eq rfl

@[simp] theorem run_pure_bind (a : α) (f : α → Prog δ μ ω ε β) (m : Machine δ μ) :
    ((pure a : Prog δ μ ω ε α) >>= f).run m = (f a).run m := run_bind_of_eq rfl

@[simp] theorem run_modifyMem_bind (g : μ → μ) (f : Unit → Prog δ μ ω ε β) (m : Machine δ μ) :
    ((modifyMem g : Prog δ μ ω ε Unit) >>= f).run m =
      (f ()).run { m with mem := g m.mem } := rfl

@[simp] theorem run_write_bind (w : ω) (f : Unit → Prog δ μ ω ε β) (m : Machine δ μ) :
    ((write w : Prog δ μ ω ε Unit) >>= f).run m =
      let o := (f ()).run { m with disk := DiskOp.apply w m.disk }
      ⟨o.exit, o.state, (m, w) :: o.log⟩ := rfl

@[simp] theorem onlyIf_true {c : Prop} [Decidable c] (h : c) (p : Prog δ μ ω ε Unit) :
    onlyIf c p = p := if_pos h

@[simp] theorem onlyIf_false {c : Prop} [Decidable c] (h : ¬ c) (p : Prog δ μ ω ε Unit) :
    onlyIf c p = pure () := if_neg h

theorem bind_assoc_run (p : Prog δ μ ω ε α) (f : α → Prog δ μ ω ε β) (g : β → Prog δ μ ω ε γ) :
    p >>= f >>= g = p >>= fun a => f a >>= g := by
  ext m : 1
  cases h : (p.run m).exit with
  | ok a =>
    rw [run_bind_ok h]
    cases h' : ((f a).run (p.run m).state).exit with
    | ok b =>
      rw [run_bind_ok (a := b) (by rw [run_bind_ok h, h']), run_bind_ok h', run_bind_ok h]
      simp
    | error e =>
      rw [run_bind_error (e := e) (by rw [run_bind_ok h, h']), run_bind_error h', run_bind_ok h]
    | panic =>
      rw [run_bind_panic (by rw [run_bind_ok h, h']), run_bind_panic h', run_bind_ok h]
  | error e =>
    rw [run_bind_error h, run_bind_error (e := e) (by rw [run_bind_error h]), run_bind_error h]
  | panic =>
    rw [run_bind_panic h, run_bind_panic (by rw [run_bind_panic h]), run_bind_panic h]

theorem bind_pure_run (p : Prog δ μ ω ε α) : (p >>= fun a => pure a) = p := by
  ext m : 1
  cases h : (p.run m).exit with
  | ok a => rw [run_bind_ok h]; simp [← h]
  | error e => rw [run_bind_error h, ← h]
  | panic => rw [run_bind_panic h, ← h]

instance : LawfulMonad (Prog δ μ ω ε) :=
  LawfulMonad.mk' _ bind_pure_run (fun a f => ext fun m => run_pure_bind a f m) bind_assoc_run

@[simp] theorem run_attempt (p : Prog δ μ ω ε α) (m : Machine δ μ) :
    p.attempt.run m =
      match (p.run m).exit with
      | .ok a => ⟨.ok (.ok a), (p.run m).state, (p.run m).log⟩
      | .error e => ⟨.ok (.error e), (p.run m).state, (p.run m).log⟩
      | .panic => ⟨.panic, (p.run m).state, (p.run m).log⟩ := rfl

@[simp] theorem attempt_log (p : Prog δ μ ω ε α) (m : Machine δ μ) :
    (p.attempt.run m).log = (p.run m).log := by
  rw [run_attempt]
  cases (p.run m).exit <;> rfl

@[simp] theorem attempt_state (p : Prog δ μ ω ε α) (m : Machine δ μ) :
    (p.attempt.run m).state = (p.run m).state := by
  rw [run_attempt]
  cases (p.run m).exit <;> rfl

@[simp] theorem run_ofExit (x : Exit ε α) (m : Machine δ μ) :
    (ofExit x : Prog δ μ ω ε α).run m = ⟨x, m, []⟩ := rfl

/-- A pure computation that returns, then the rest. -/
theorem run_ofExit_bind {x : Exit ε α} {a : α} (h : x = .ok a) (f : α → Prog δ μ ω ε β)
    (m : Machine δ μ) : ((ofExit x : Prog δ μ ω ε α) >>= f).run m = (f a).run m := by
  subst h
  exact run_bind_of_eq rfl

/-! ## What a call returns, and what it logs -/

/-- A sequence returns a value exactly when both halves do. -/
theorem exit_bind_ok {b : β} :
    ((p >>= f).run m).exit = .ok b ↔
      ∃ a, (p.run m).exit = .ok a ∧ ((f a).run (p.run m).state).exit = .ok b := by
  cases h : (p.run m).exit with
  | ok a => rw [run_bind_ok h]; simp
  | error e => rw [run_bind_error h]; simp
  | panic => rw [run_bind_panic h]; simp

theorem state_bind {a : α} (h : (p.run m).exit = .ok a) :
    ((p >>= f).run m).state = ((f a).run (p.run m).state).state := by
  rw [run_bind_ok h]

/-- A condition on the machine that both halves keep, however they end. -/
theorem state_bind_invariant {I : Machine δ μ → Prop} (hp : I (p.run m).state)
    (hf : ∀ a, I ((f a).run (p.run m).state).state) : I ((p >>= f).run m).state := by
  cases h : (p.run m).exit with
  | ok a => rw [run_bind_ok h]; exact hf a
  | error e => rw [run_bind_error h]; exact hp
  | panic => rw [run_bind_panic h]; exact hp

/-- A condition on the machine that every iteration keeps, however it ends. -/
theorem state_forEach_invariant {I : Machine δ μ → Prop} {f : α → Prog δ μ ω ε Unit} :
    ∀ {as : List α} {m : Machine δ μ}, I m → (∀ a ∈ as, ∀ m, I m → I ((f a).run m).state) →
      I ((forEach f as).run m).state
  | [], _, hm, _ => hm
  | a :: _, m, hm, h =>
    have hfirst := h a (by simp) m hm
    state_bind_invariant hfirst fun _ =>
      state_forEach_invariant hfirst fun b hb => h b (List.mem_cons_of_mem _ hb)

/-- Where the writes of a sequence come from. -/
theorem mem_log_bind {e : Machine δ μ × ω} :
    e ∈ ((p >>= f).run m).log ↔
      e ∈ (p.run m).log ∨
        ∃ a, (p.run m).exit = .ok a ∧ e ∈ ((f a).run (p.run m).state).log := by
  cases h : (p.run m).exit with
  | ok a => rw [run_bind_ok h]; simp
  | error e => rw [run_bind_error h]; simp
  | panic => rw [run_bind_panic h]; simp

/-- Every write of the run is one that `A` allows in the machine it starts from. -/
def Emits (A : Machine δ μ → ω → Prop) (o : Outcome δ μ ω ε α) : Prop :=
  ∀ e ∈ o.log, A e.1 e.2

namespace Emits

variable {A B : Machine δ μ → ω → Prop}

omit [DiskOp ω δ] in
theorem mono {o : Outcome δ μ ω ε α} (h : Emits A o) (hAB : ∀ m w, A m w → B m w) : Emits B o :=
  fun e he => hAB _ _ (h e he)

theorem bind (hp : Emits A (p.run m))
    (hf : ∀ a, (p.run m).exit = .ok a → Emits A ((f a).run (p.run m).state)) :
    Emits A ((p >>= f).run m) := by
  intro e he
  rcases mem_log_bind.1 he with he | ⟨a, ha, he⟩
  · exact hp e he
  · exact hf a ha e he

theorem write {w : ω} (h : A m w) :
    Emits A ((Prog.write w : Prog δ μ ω ε Unit).run m) := by
  intro e he
  rw [run_write, List.mem_singleton] at he
  subst he
  exact h

omit [DiskOp ω δ] in
theorem of_log_nil {o : Outcome δ μ ω ε α} (h : o.log = []) : Emits A o := by
  intro e he
  rw [h] at he
  cases he

theorem attempt (h : Emits A (p.run m)) : Emits A (p.attempt.run m) := by
  unfold Emits
  rw [attempt_log]
  exact h

/-- A pure computation, then what follows each value it may return. -/
theorem ofExit_bind {x : Exit ε α} (h : ∀ a, x = .ok a → Emits A ((f a).run m)) :
    Emits A (((Prog.ofExit x : Prog δ μ ω ε α) >>= f).run m) :=
  bind (of_log_nil rfl) h

/-- A batch emits its writes, each in a machine with the memory it was started with and a disk of
which an invariant of the writes holds. -/
theorem writeAll_of {I : δ → Prop} : ∀ {ws : List ω} {m : Machine δ μ}, I m.disk →
    (∀ w ∈ ws, ∀ d, I d → A ⟨d, m.mem⟩ w ∧ I (DiskOp.apply w d)) →
      Emits A ((Prog.writeAll ws : Prog δ μ ω ε Unit).run m)
  | [], _, _, _ => of_log_nil rfl
  | w :: _, m, hm, h =>
    have hw := h w (by simp) m.disk hm
    bind (write hw.1) fun _ _ =>
      writeAll_of hw.2 fun w' hw' d hd => h w' (List.mem_cons_of_mem _ hw') d hd

theorem writeAll {ws : List ω} {m : Machine δ μ} (h : ∀ w ∈ ws, ∀ d, A ⟨d, m.mem⟩ w) :
    Emits A ((Prog.writeAll ws : Prog δ μ ω ε Unit).run m) :=
  writeAll_of (I := fun _ => True) trivial fun w hw d _ => ⟨h w hw d, trivial⟩

end Emits

/-- A batch of writes always returns, leaves the memory alone and folds its writes over the
disk. -/
theorem run_writeAll : ∀ (ws : List ω) (m : Machine δ μ),
    ((writeAll ws : Prog δ μ ω ε Unit).run m).exit = .ok () ∧
      ((writeAll ws : Prog δ μ ω ε Unit).run m).state =
        ⟨ws.foldl (fun d w => DiskOp.apply w d) m.disk, m.mem⟩
  | [], _ => ⟨rfl, rfl⟩
  | w :: ws, m => by
    obtain ⟨hexit, hstate⟩ := run_writeAll ws { m with disk := DiskOp.apply w m.disk }
    unfold writeAll
    rw [run_write_bind]
    exact ⟨hexit, hstate⟩

/-- The final disk is the fold of the writes. -/
theorem disk_eq_foldl (p : Prog δ μ ω ε α) (m : Machine δ μ) :
    (p.run m).state.disk = (p.run m).log.foldl (fun d e => DiskOp.apply e.2 d) m.disk :=
  (p.chain m).eq_foldl

/-- A run that writes nothing leaves the disk as it is. -/
theorem disk_eq_of_log_nil (h : (p.run m).log = []) : (p.run m).state.disk = m.disk := by
  rw [disk_eq_foldl, h]
  rfl

/-- A program that never writes. -/
def Silent (p : Prog δ μ ω ε α) : Prop := ∀ m, Emits (fun _ _ => False) (p.run m)

namespace Silent

theorem log_nil (h : Silent p) (m : Machine δ μ) : (p.run m).log = [] :=
  List.eq_nil_iff_forall_not_mem.2 fun e he => h m e he

theorem disk_eq (h : Silent p) (m : Machine δ μ) : (p.run m).state.disk = m.disk :=
  disk_eq_of_log_nil (h.log_nil m)

theorem emits (h : Silent p) {A : Machine δ μ → ω → Prop} (m : Machine δ μ) : Emits A (p.run m) :=
  (h m).mono fun _ _ => False.elim

theorem of_log_nil (h : ∀ m, (p.run m).log = []) : Silent p := fun m => Emits.of_log_nil (h m)

theorem pure (a : α) : Silent (Pure.pure a : Prog δ μ ω ε α) := of_log_nil fun _ => rfl

theorem fail (e : ε) : Silent (Prog.fail e : Prog δ μ ω ε α) := of_log_nil fun _ => rfl

theorem panicked : Silent (Prog.panicked : Prog δ μ ω ε α) := of_log_nil fun _ => rfl

theorem get : Silent (Prog.get : Prog δ μ ω ε (Machine δ μ)) := of_log_nil fun _ => rfl

theorem modifyMem (g : μ → μ) : Silent (Prog.modifyMem g : Prog δ μ ω ε Unit) :=
  of_log_nil fun _ => rfl

theorem ofExit (x : Exit ε α) : Silent (Prog.ofExit x : Prog δ μ ω ε α) := of_log_nil fun _ => rfl

theorem bind (hp : Silent p) (hf : ∀ a, Silent (f a)) : Silent (p >>= f) :=
  fun m => Emits.bind (hp m) fun a _ => hf a _

theorem onlyIf {c : Prop} [Decidable c] {p : Prog δ μ ω ε Unit} (hp : Silent p) :
    Silent (Prog.onlyIf c p) := by
  unfold Prog.onlyIf
  split
  · exact hp
  · exact pure ()

end Silent

/-- **Durable invariants are checked write by write.** If each logged write keeps `I`, then `I`
holds wherever the call may be cut, and at its end. -/
theorem disk_invariant {I : δ → Prop} (p : Prog δ μ ω ε α) (hm : I m.disk)
    (hw : Emits (fun m w => I m.disk → I (DiskOp.apply w m.disk)) (p.run m)) :
    (∀ e ∈ (p.run m).log, I e.1.disk) ∧ I (p.run m).state.disk :=
  (p.chain m).invariant hm hw

/-- The machine at the `k`-th write of a run, or its end if the run has fewer writes. -/
def cutAt (o : Outcome δ μ ω ε α) (k : Nat) : Machine δ μ :=
  match o.log[k]? with
  | some e => e.1
  | none => o.state

/-- A durable invariant holds at every cut. -/
theorem cutAt_invariant {I : δ → Prop} (p : Prog δ μ ω ε α) (hm : I m.disk)
    (hw : Emits (fun m w => I m.disk → I (DiskOp.apply w m.disk)) (p.run m)) (k : Nat) :
    I (cutAt (p.run m) k).disk := by
  obtain ⟨hlog, hend⟩ := p.disk_invariant hm hw
  unfold cutAt
  cases h : (p.run m).log[k]? with
  | none => exact hend
  | some e => exact hlog e (List.mem_of_getElem? h)

end Prog

end Lib
