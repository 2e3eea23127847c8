import Ultramarine.Lib.Prog

/-!
# Two runs of one program

`Alike R p` says that `p` does not see the difference between two machines that `R` relates: it ends the
same way on both, and leaves machines that `R` relates again. There is one rule per construct; what is
left to check of a program are its reads, which have to agree on related machines, and its changes, which
have to keep the relation.

`cutAt` lemmas say at which machine a run is stopped, in terms of the parts of the program.
-/

namespace Lib

namespace Prog

variable {δ μ ω ε α β : Type} [DiskOp ω δ]

/-! ## Related machines -/

/-- The program does the same on machines that are related, and leaves related machines. -/
def Alike (R : Machine δ μ → Machine δ μ → Prop) (p : Prog δ μ ω ε α) : Prop :=
  ∀ m m', R m m' → (p.run m').exit = (p.run m).exit ∧ R (p.run m).state (p.run m').state

namespace Alike

variable {R : Machine δ μ → Machine δ μ → Prop} {p : Prog δ μ ω ε α} {f : α → Prog δ μ ω ε β}

theorem bind (hp : Alike R p) (hf : ∀ a, Alike R (f a)) : Alike R (p >>= f) := by
  intro m m' hm
  obtain ⟨hexit, hstate⟩ := hp m m' hm
  cases h : (p.run m).exit with
  | ok a =>
    rw [run_bind_ok h, run_bind_ok (hexit.trans h)]
    exact hf a _ _ hstate
  | error e =>
    rw [run_bind_error h, run_bind_error (hexit.trans h)]
    exact ⟨rfl, hstate⟩
  | panic =>
    rw [run_bind_panic h, run_bind_panic (hexit.trans h)]
    exact ⟨rfl, hstate⟩

theorem pure (a : α) : Alike R (Pure.pure a : Prog δ μ ω ε α) := fun _ _ hm => ⟨rfl, hm⟩

theorem ofExit (x : Exit ε α) : Alike R (Prog.ofExit x : Prog δ μ ω ε α) := fun _ _ hm => ⟨rfl, hm⟩

/-- A read whose continuations agree on related machines. -/
theorem get_bind {k : Machine δ μ → Prog δ μ ω ε β} (hk : ∀ m m', R m m' → k m' = k m)
    (h : ∀ m, Alike R (k m)) : Alike R (get >>= k) := by
  intro m m' hm
  rw [run_get_bind, run_get_bind, hk m m' hm]
  exact h m m m' hm

theorem write {w : ω} (h : ∀ m m', R m m' →
    R { m with disk := DiskOp.apply w m.disk } { m' with disk := DiskOp.apply w m'.disk }) :
    Alike R (Prog.write w : Prog δ μ ω ε Unit) := fun m m' hm => ⟨rfl, h m m' hm⟩

theorem modifyMem {g : μ → μ} (h : ∀ m m', R m m' →
    R { m with mem := g m.mem } { m' with mem := g m'.mem }) :
    Alike R (Prog.modifyMem g : Prog δ μ ω ε Unit) := fun m m' hm => ⟨rfl, h m m' hm⟩

theorem writeAll : ∀ {ws : List ω}, (∀ w ∈ ws, Alike R (Prog.write w : Prog δ μ ω ε Unit)) →
    Alike R (Prog.writeAll ws : Prog δ μ ω ε Unit)
  | [], _ => pure ()
  | w :: _, h => (h w (List.mem_cons_self ..)).bind fun _ =>
    writeAll fun w' hw' => h w' (List.mem_cons_of_mem _ hw')

theorem forEach {f : α → Prog δ μ ω ε Unit} (h : ∀ a, Alike R (f a)) :
    ∀ as : List α, Alike R (Prog.forEach f as)
  | [] => pure ()
  | a :: as => (h a).bind fun _ => forEach h as

end Alike

/-! ## Where a run is stopped -/

section Cut

variable {p : Prog δ μ ω ε α} {f : α → Prog δ μ ω ε β} {m : Machine δ μ} {k : Nat}

/-- The writes of a call come first, whatever follows it. -/
theorem log_prefix_bind : (p.run m).log <+: ((p >>= f).run m).log := by
  cases hexit : (p.run m).exit with
  | ok a =>
    rw [run_bind_ok hexit]
    exact List.prefix_append _ _
  | error e =>
    have hlog : ((p >>= f).run m).log = (p.run m).log := by rw [run_bind_error hexit]
    exact hlog ▸ List.prefix_rfl
  | panic =>
    have hlog : ((p >>= f).run m).log = (p.run m).log := by rw [run_bind_panic hexit]
    exact hlog ▸ List.prefix_rfl

omit [DiskOp ω δ] in
/-- A stop among the writes of a part of a run. -/
theorem cutAt_within {o : Outcome δ μ ω ε α} {o' : Outcome δ μ ω ε β} (h : o.log <+: o'.log)
    (hk : k < o.log.length) : cutAt o' k = cutAt o k := by
  obtain ⟨rest, hrest⟩ := h
  unfold cutAt
  rw [← hrest, List.getElem?_append_left hk, List.getElem?_eq_getElem hk]

theorem length_log_writeAll : ∀ (ws : List ω) (m : Machine δ μ),
    ((writeAll ws : Prog δ μ ω ε Unit).run m).log.length = ws.length
  | [], _ => rfl
  | w :: ws, m => by
    unfold writeAll
    rw [run_write_bind, List.length_cons, List.length_cons, length_log_writeAll ws]

/-- A batch of writes is stopped after the first `k` of them. -/
theorem cutAt_writeAll : ∀ (ws : List ω) (k : Nat) (m : Machine δ μ),
    cutAt ((writeAll ws : Prog δ μ ω ε Unit).run m) k =
      ⟨(ws.take k).foldl (fun d w => DiskOp.apply w d) m.disk, m.mem⟩
  | [], k, m => by
    rw [List.take_nil]
    rfl
  | w :: ws, 0, m => rfl
  | w :: ws, k + 1, m => by
    unfold writeAll
    rw [run_write_bind, List.take_succ_cons, List.foldl_cons]
    exact cutAt_writeAll ws k { m with disk := DiskOp.apply w m.disk }

end Cut

end Prog

end Lib
