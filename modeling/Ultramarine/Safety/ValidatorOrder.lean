import Mathlib.Algebra.BigOperators.Group.Finset.Basic
import Mathlib.Data.List.Destutter
import Ultramarine.App.Run

/-!
# The order of the validators

`ValidatorSet::new` is documented to hold its validators sorted by address, and its `sort_validators` to
sort and deduplicate. The sort is commented out: what is left is `Vec::dedup`, so the set has the order
of the genesis file, and a validator listed twice apart stays twice. Proposer selection, the proposer
index of blob headers and the validator-set hash read that list by position.

Result:

* `validator_set_sorted_iff`: the set is sorted without repeated addresses exactly if genesis lists the
  validators in that order, with repetitions only next to each other; over such lists it depends on the
  validators alone.
-/

namespace Ultramarine

open Lib Ssz

/-! ## Removing consecutive repetitions -/

/-- What is kept is a chain exactly if the list is one up to repetitions. The induction is on the list
after the element last kept. -/
theorem isChain_destutter'_ne {α : Type*} [DecidableEq α] {r : α → α → Prop}
    (hirrefl : ∀ a, ¬ r a a) : ∀ (l : List α) (a : α),
    (l.destutter' (· ≠ ·) a).IsChain r ↔ (a :: l).IsChain fun x y => r x y ∨ x = y
  | [], a => by simp
  | b :: l, a => by
    have ih := isChain_destutter'_ne hirrefl l
    rw [List.isChain_cons_cons]
    by_cases hab : a = b
    · subst hab
      rw [List.destutter'_cons_neg _ (not_not.2 rfl), ih a]
      simp
    · have hhead : ∀ (l : List α) (b : α), (l.destutter' (· ≠ ·) b).head? = some b := by
        intro l
        induction l with
        | nil => exact fun _ => rfl
        | cons c l hl => intro b; by_cases hbc : b = c <;> simp [hbc, hl]
      obtain ⟨kept, hkept⟩ := List.head?_eq_some_iff.1 (hhead l b)
      rw [List.destutter'_cons_pos _ hab, hkept, List.isChain_cons_cons, ← hkept, ih b]
      simp [hab]

/-! ## The set of a genesis list -/

namespace ValidatorSet

/-- The order of `Validator`: by address. -/
def Before (v w : Validator) : Prop := v.address.bytes < w.address.bytes

instance : DecidableRel Before := fun v w => inferInstanceAs (Decidable (v.address.bytes < w.address.bytes))

/-- Genesis lists the validators by ascending address, and repeats an entry only right after itself. -/
def Listed (vals : List Validator) : Prop := vals.IsChain fun v w => Before v w ∨ v = w

instance (vals : List Validator) : Decidable (Listed vals) :=
  inferInstanceAs (Decidable (vals.IsChain fun v w => Before v w ∨ v = w))

variable {vals vals' : List Validator} {vs : ValidatorSet} {u v w : Validator}

theorem Before.irrefl (v : Validator) : ¬ Before v v := BitVec.lt_irrefl _

theorem Before.trans (huv : Before u v) (hvw : Before v w) : Before u w := BitVec.lt_trans huv hvw

theorem sortValidators_eq_nil : sortValidators vals = [] ↔ vals = [] := List.destutter_eq_nil _

theorem new_eq_some : new vals = some vs ↔ vals ≠ [] ∧ vs.validators = sortValidators vals := by
  unfold new
  split
  · rename_i hempty
    simp [sortValidators_eq_nil.1 hempty]
  · rename_i hne
    obtain ⟨validators, hvalidators⟩ := vs
    simp [mt sortValidators_eq_nil.2 hne, eq_comm]

theorem sorted_sortValidators : (sortValidators vals).Pairwise Before ↔ Listed vals := by
  have : IsTrans Validator Before := ⟨fun _ _ _ => Before.trans⟩
  rw [← List.isChain_iff_pairwise]
  cases vals with
  | nil => exact ⟨fun _ => .nil, fun _ => .nil⟩
  | cons v vals => exact isChain_destutter'_ne Before.irrefl vals v

/-- Over such a list `Vec::dedup` leaves each validator once. -/
theorem sortValidators_eq_dedup (h : Listed vals) : sortValidators vals = vals.dedup := by
  have htrans : IsTrans Validator fun v w => Before v w ∨ v = w := ⟨by
    rintro u v w (huv | rfl) (hvw | rfl)
    exacts [.inl (huv.trans hvw), .inl huv, .inl hvw, .inr rfl]⟩
  have hantisymm : Std.Antisymm fun v w => Before v w ∨ v = w := ⟨by
    rintro v w (hvw | rfl) (hwv | hwv)
    exacts [absurd (hvw.trans hwv) (Before.irrefl v), hwv.symm, rfl, rfl]⟩
  exact (List.isChain_iff_pairwise.1 h).destutter_eq_dedup

/-- Sorted lists of the same validators are the same list. -/
theorem sortValidators_eq (h : Listed vals) (h' : Listed vals') (hperm : vals'.Perm vals) :
    sortValidators vals' = sortValidators vals := by
  have hsame : (sortValidators vals').Perm (sortValidators vals) := by
    rw [sortValidators_eq_dedup h, sortValidators_eq_dedup h']
    exact hperm.dedup
  refine hsame.eq_of_pairwise (fun v w _ _ hvw hwv => ?_) (sorted_sortValidators.2 h')
    (sorted_sortValidators.2 h)
  exact absurd (hvw.trans hwv) (Before.irrefl v)

theorem totalVotingPower_of_listed (h : Listed vals) (hnew : new vals = some vs) :
    vs.totalVotingPower = (∑ v ∈ vals.toFinset, v.votingPower) % 2 ^ 64 := by
  have honce : vals.dedup.toFinset = vals.toFinset := Finset.ext fun v => by simp
  unfold totalVotingPower
  rw [(new_eq_some.1 hnew).2, sortValidators_eq_dedup h, ← honce, List.sum_toFinset _ vals.nodup_dedup]

end ValidatorSet

open ValidatorSet

/-- **The order of the set is the order of genesis.** The set is sorted by address without repetitions
exactly if genesis lists the validators so. Two such listings of the same validators give one set, hence
one proposer for every height and round, one index for every validator and one hash; and the total counts
each validator once. -/
theorem validator_set_sorted_iff (vals : List Validator) :
    ((∃ vs, ValidatorSet.new vals = some vs ∧ vs.validators.Pairwise Before) ↔
        vals ≠ [] ∧ Listed vals) ∧
      ∀ vs, ValidatorSet.new vals = some vs → Listed vals →
        vs.totalVotingPower = (∑ v ∈ vals.toFinset, v.votingPower) % 2 ^ 64 ∧
          ∀ vals', vals'.Perm vals → Listed vals' → ∃ vs', ValidatorSet.new vals' = some vs' ∧
            (∀ height round, LoadContext.selectProposer vs' height round =
              LoadContext.selectProposer vs height round) ∧
            (∀ address, vs'.validatorIndex address = vs.validatorIndex address) ∧
            (∀ cfg : Config, validatorSetHash { cfg with validators := vs' } =
              validatorSetHash { cfg with validators := vs }) ∧ vs' = vs := by
  refine ⟨⟨?_, ?_⟩, ?_⟩
  · rintro ⟨vs, hnew, hsorted⟩
    obtain ⟨hne, hvalidators⟩ := new_eq_some.1 hnew
    exact ⟨hne, sorted_sortValidators.1 (hvalidators ▸ hsorted)⟩
  · rintro ⟨hne, hlisted⟩
    exact ⟨⟨sortValidators vals, mt sortValidators_eq_nil.1 hne⟩, new_eq_some.2 ⟨hne, rfl⟩,
      sorted_sortValidators.2 hlisted⟩
  · intro vs hnew hlisted
    obtain ⟨hne, hvalidators⟩ := new_eq_some.1 hnew
    refine ⟨totalVotingPower_of_listed hlisted hnew, fun vals' hperm hlisted' => ?_⟩
    have hne' : vals' ≠ [] := fun hnil => hne (hnil ▸ hperm).nil_eq.symm
    refine ⟨vs, new_eq_some.2 ⟨hne', ?_⟩, fun _ _ => rfl, fun _ => rfl, fun _ => rfl, rfl⟩
    rw [hvalidators, sortValidators_eq hlisted hlisted' hperm]

namespace Sample

/-- Two validators; `second` has the larger address. -/
def first : Validator := ⟨⟨1⟩, ⟨1⟩, 1⟩

@[inherit_doc first]
def second : Validator := ⟨⟨2⟩, ⟨2⟩, 1⟩

/-- The first configuration with the validators of a genesis list. -/
def configOf (vals : List Validator) : Option Config :=
  (ValidatorSet.new vals).map fun vs =>
    { config 1 with validators := vs, oracles := { oracles with hash32Concat := fun a _ => a } }

end Sample

open Sample in
/-- Two genesis files with the same two validators: the first proposer, the index of a validator and the
hash differ. One that names a validator twice, apart, counts its power twice. -/
theorem genesis_order_matters :
    ¬ (∃ vs, ValidatorSet.new [second, first] = some vs ∧ vs.validators.Pairwise Before) ∧
      (configOf [first, second]).bind (fun cfg => LoadContext.selectProposer cfg.validators 1 (.some 0)) ≠
        (configOf [second, first]).bind
          (fun cfg => LoadContext.selectProposer cfg.validators 1 (.some 0)) ∧
      (configOf [first, second]).bind (·.validatorIndex second.address) = some 1 ∧
      (configOf [second, first]).bind (·.validatorIndex second.address) = some 0 ∧
      (configOf [first, second]).map validatorSetHash ≠ (configOf [second, first]).map validatorSetHash ∧
      (configOf [first, second, first]).map (·.validators.totalVotingPower) = some 3 := by
  refine ⟨?_, by decide +kernel, by decide +kernel, by decide +kernel, by decide +kernel,
    by decide +kernel⟩
  rintro ⟨vs, hnew, hsorted⟩
  have hlisted : ¬ Listed [second, first] := by decide
  exact hlisted (sorted_sortValidators.1 ((new_eq_some.1 hnew).2 ▸ hsorted))

end Ultramarine
