import Mathlib.Data.List.Sort
import Mathlib.Data.Set.Card
import Mathlib.Order.Defs.Unbundled

/-!
# Ordered tables

A table of an ordered key-value store is a finite map iterated in key order. This module adds what
such stores do beyond point access: a scan of the entries whose key satisfies a predicate, in key
order, and the removal of a set of keys collected by a scan.

Results:

* `Table.getElem?_eraseAll`, `Table.getElem?_eraseWhere`: point reads after a removal;
* `Table.size_insertAll_eq_iff`, `Table.size_eraseAll_eq_iff`: when insertions and removals change the
  number of rows by one each;
* `Table.All`: a property of every row, kept by insertions and removals;
* `Table.mem_scan`, `Table.scan_congr`: a scan is determined by the point reads it covers;
* `Table.scan_eq_of_sorted`: a sorted list of entries that agrees with the point reads is the scan;
* `Table.ncard_keys_scan`, `Table.find?_reverse_eq_some`: how many entries a scan has, and which is
  the last one with a property;
* `Table.scanFrom_eq_scan`: a seek followed by an ordered iteration is a scan;
* `Table.Image`: a table under encoded keys and rows. Where the encoding keeps the order of the keys,
  reads, writes and scans of the two agree.
-/

namespace Lib

/-- A table with keys in `κ` and rows in `α`, iterated in key order. -/
abbrev Table (κ α : Type) [Ord κ] : Type := Std.ExtTreeMap κ α compare

/-- Order a key type by one projection, then by another. -/
abbrev lexOn {κ α β : Type} [Ord α] [Ord β] (f : κ → α) (g : κ → β) : Ord κ :=
  ⟨compareLex (compareOn f) (compareOn g)⟩

theorem lexOn_transOrd {κ α β : Type} [Ord α] [Ord β] [Std.TransOrd α] [Std.TransOrd β]
    (f : κ → α) (g : κ → β) : @Std.TransOrd κ (lexOn f g) :=
  inferInstanceAs (Std.TransCmp (compareLex (compareOn f) (compareOn g)))

/-- Two projections that together determine the key give a lawful order. -/
theorem lexOn_lawfulEqOrd {κ α β : Type} [Ord α] [Ord β] [Std.LawfulEqOrd α]
    [Std.LawfulEqOrd β] [Std.TransOrd α] [Std.TransOrd β] (f : κ → α) (g : κ → β)
    (inj : ∀ a b, f a = f b → g a = g b → a = b) : @Std.LawfulEqOrd κ (lexOn f g) :=
  letI := lexOn f g
  haveI := lexOn_transOrd f g
  { eq_of_compare := fun {a b} h => by
      have h' := compareLex_eq_eq.1 h
      simp only [compareOn, Std.LawfulEqCmp.compare_eq_iff_eq] at h'
      exact inj a b h'.1 h'.2 }

namespace Table

variable {κ α : Type} [Ord κ] [Std.TransOrd κ]

/-- Insert the listed entries, one after the other. -/
def insertAll (t : Table κ α) (l : List (κ × α)) : Table κ α :=
  l.foldl (fun t e => t.insert e.1 e.2) t

/-- Remove every listed key. -/
def eraseAll (t : Table κ α) (ks : List κ) : Table κ α :=
  ks.foldl (fun t k => t.erase k) t

/-- Remove every key that satisfies `p`. -/
def eraseWhere (p : κ → Bool) (t : Table κ α) : Table κ α :=
  eraseAll t (t.keys.filter p)

/-- The entries whose key satisfies `p`, in key order. -/
def scan (p : κ → Bool) (t : Table κ α) : List (κ × α) :=
  t.toList.filter fun e => p e.1

/-- An iteration from the first key that is not below `start`, up to the first key outside `p`. -/
def scanFrom (start : κ) (p : κ → Bool) (t : Table κ α) : List (κ × α) :=
  (t.toList.dropWhile fun e => compare e.1 start == .lt).takeWhile fun e => p e.1

/-- The greatest key. -/
def lastKey? (t : Table κ α) : Option κ := t.keys.getLast?

variable [Std.LawfulEqOrd κ]

theorem getElem?_eraseAll [DecidableEq κ] :
    ∀ (ks : List κ) (t : Table κ α) (k : κ),
      (eraseAll t ks)[k]? = if k ∈ ks then none else t[k]?
  | [], _, _ => by simp [eraseAll]
  | k' :: ks, t, k => by
    have ih := getElem?_eraseAll ks (t.erase k') k
    unfold eraseAll at ih ⊢
    rw [List.foldl_cons, ih, Std.ExtTreeMap.getElem?_erase]
    simp only [Std.LawfulEqCmp.compare_eq_iff_eq, List.mem_cons]
    by_cases h : k' = k
    · subst h
      simp
    · simp [h, Ne.symm h]

theorem getElem?_eraseWhere [DecidableEq κ] (p : κ → Bool) (t : Table κ α) (k : κ) :
    (eraseWhere p t)[k]? = if p k then none else t[k]? := by
  unfold eraseWhere
  rw [getElem?_eraseAll]
  by_cases hp : p k
  · by_cases hk : k ∈ t
    · simp [hp, Std.ExtTreeMap.mem_keys, hk]
    · have hnone : t[k]? = none := Std.ExtTreeMap.getElem?_eq_none hk
      simp [hp, hnone]
  · simp [hp]

/-- Point reads after an insertion. -/
theorem getElem?_insert_eq [DecidableEq κ] (t : Table κ α) (k a : κ) (v : α) :
    (Std.ExtTreeMap.insert t k v)[a]? = if k = a then some v else t[a]? := by
  rw [Std.ExtTreeMap.getElem?_insert]
  simp only [Std.LawfulEqCmp.compare_eq_iff_eq]

/-- Point reads after an insertion that keeps an existing row. -/
theorem getElem?_insertIfNew_eq [DecidableEq κ] (t : Table κ α) (k a : κ) (v : α) :
    (Std.ExtTreeMap.insertIfNew t k v)[a]? = if k = a then some ((t[k]?).getD v) else t[a]? := by
  rw [Std.ExtTreeMap.getElem?_insertIfNew]
  simp only [Std.LawfulEqCmp.compare_eq_iff_eq]
  by_cases hk : k = a
  · subst hk
    cases h : t[k]? with
    | none =>
      have : ¬ k ∈ t := fun hmem => by
        rw [Std.ExtTreeMap.mem_iff_isSome_getElem?, h] at hmem
        cases hmem
      simp [this]
    | some v' =>
      have : k ∈ t := Std.ExtTreeMap.mem_iff_isSome_getElem?.2 (by rw [h]; rfl)
      simp [this]
  · simp [hk]

/-- Point reads after a removal. -/
theorem getElem?_erase_eq [DecidableEq κ] (t : Table κ α) (k a : κ) :
    (Std.ExtTreeMap.erase t k)[a]? = if k = a then none else t[a]? := by
  rw [Std.ExtTreeMap.getElem?_erase]
  simp only [Std.LawfulEqCmp.compare_eq_iff_eq]

/-- What is there after an erasure was there before. -/
theorem eq_some_of_erase [DecidableEq κ] {t : Table κ α} {k a : κ} {v : α}
    (h : (Std.ExtTreeMap.erase t k)[a]? = some v) : t[a]? = some v := by
  rw [getElem?_erase_eq] at h
  split at h
  · cases h
  · exact h

theorem eq_some_of_eraseWhere [DecidableEq κ] {p : κ → Bool} {t : Table κ α} {a : κ} {v : α}
    (h : (eraseWhere p t)[a]? = some v) : t[a]? = some v := by
  rw [getElem?_eraseWhere] at h
  split at h
  · cases h
  · exact h

/-- Two tables with the same point reads are the same. -/
theorem ext_getElem? {t t' : Table κ α} (h : ∀ k : κ, t[k]? = t'[k]?) : t = t' :=
  Std.ExtTreeMap.ext_getElem? h

theorem insert_eq_self [DecidableEq κ] {t : Table κ α} {k : κ} {v : α} :
    Std.ExtTreeMap.insert t k v = t ↔ t[k]? = some v := by
  constructor
  · intro h
    rw [← h, getElem?_insert_eq, if_pos rfl]
  · intro h
    refine ext_getElem? fun a => ?_
    rw [getElem?_insert_eq]
    split
    · rename_i hk
      rw [← hk, h]
    · rfl

theorem insertIfNew_eq_self [DecidableEq κ] {t : Table κ α} {k : κ} {v : α} :
    Std.ExtTreeMap.insertIfNew t k v = t ↔ (t[k]?).isSome := by
  constructor
  · intro h
    rw [← h, getElem?_insertIfNew_eq, if_pos rfl]
    rfl
  · intro h
    refine ext_getElem? fun a => ?_
    rw [getElem?_insertIfNew_eq]
    split
    · rename_i hk
      subst hk
      obtain ⟨v', hv'⟩ := Option.isSome_iff_exists.1 h
      rw [hv']
      rfl
    · rfl

theorem erase_eq_self [DecidableEq κ] {t : Table κ α} {k : κ} :
    Std.ExtTreeMap.erase t k = t ↔ t[k]? = none := by
  constructor
  · intro h
    rw [← h, getElem?_erase_eq, if_pos rfl]
  · intro h
    refine ext_getElem? fun a => ?_
    rw [getElem?_erase_eq]
    split
    · rename_i hk
      rw [← hk, h]
    · rfl

/-! ### How many rows there are -/

omit [Std.LawfulEqOrd κ] in
theorem size_insert_of_none {t : Table κ α} {k : κ} (h : t[k]? = none) (v : α) :
    (Std.ExtTreeMap.insert t k v).size = t.size + 1 := by
  have hk : t.contains k = false := by
    rw [← Std.ExtTreeMap.isSome_getElem?_eq_contains, h]
    rfl
  rw [Std.ExtTreeMap.size_insert, hk]
  rfl

omit [Std.LawfulEqOrd κ] in
theorem size_insert_of_some {t : Table κ α} {k : κ} (h : (t[k]?).isSome) (v : α) :
    (Std.ExtTreeMap.insert t k v).size = t.size := by
  rw [Std.ExtTreeMap.size_insert, ← Std.ExtTreeMap.isSome_getElem?_eq_contains, h]
  rfl

omit [Std.LawfulEqOrd κ] in
theorem size_insertAll_le (l : List (κ × α)) (t : Table κ α) :
    (insertAll t l).size ≤ t.size + l.length := by
  induction l generalizing t with
  | nil => exact Nat.le_refl _
  | cons e l ih =>
    have hrest := ih (t.insert e.1 e.2)
    have hstep : (Std.ExtTreeMap.insert t e.1 e.2).size ≤ t.size + 1 :=
      Std.ExtTreeMap.size_insert_le
    rw [List.length_cons]
    exact hrest.trans (by omega)

/-- **Insertions add one row each exactly if they are all under different, new keys.** -/
theorem size_insertAll_eq_iff [DecidableEq κ] (l : List (κ × α)) (t : Table κ α) :
    (insertAll t l).size = t.size + l.length ↔
      (l.map (·.1)).Nodup ∧ ∀ e ∈ l, t[e.1]? = none := by
  induction l generalizing t with
  | nil => simp [insertAll]
  | cons e l ih =>
    have hstep : insertAll t (e :: l) = insertAll (t.insert e.1 e.2) l := rfl
    rw [hstep, List.map_cons, List.nodup_cons, List.forall_mem_cons, List.length_cons]
    cases hget : t[e.1]? with
    | some v =>
      have hsize := size_insert_of_some (Option.isSome_iff_exists.2 ⟨v, hget⟩) e.2
      have hle := size_insertAll_le l (t.insert e.1 e.2)
      refine ⟨fun heq => ?_, fun h => ?_⟩
      · omega
      · cases h.2.1
    | none =>
      have hsize := size_insert_of_none hget e.2
      have hiff := ih (t.insert e.1 e.2)
      rw [hsize, Nat.add_assoc, Nat.add_comm 1] at hiff
      rw [hiff]
      simp only [getElem?_insert_eq]
      constructor
      · rintro ⟨hnodup, hfree⟩
        refine ⟨⟨fun hmem => ?_, hnodup⟩, trivial, fun a ha => ?_⟩
        · obtain ⟨a, ha, hae⟩ := List.mem_map.1 hmem
          have hnone := hfree a ha
          rw [if_pos hae.symm] at hnone
          cases hnone
        · have hnone := hfree a ha
          split at hnone
          · cases hnone
          · exact hnone
      · rintro ⟨⟨hnew, hnodup⟩, -, hfree⟩
        refine ⟨hnodup, fun a ha => ?_⟩
        rw [if_neg fun hea => hnew (List.mem_map.2 ⟨a, ha, hea.symm⟩)]
        exact hfree a ha

omit [Std.LawfulEqOrd κ] in
theorem size_erase_of_none {t : Table κ α} {k : κ} (h : t[k]? = none) :
    (Std.ExtTreeMap.erase t k).size = t.size := by
  have hk : t.contains k = false := by
    rw [← Std.ExtTreeMap.isSome_getElem?_eq_contains, h]
    rfl
  rw [Std.ExtTreeMap.size_erase, hk]
  rfl

omit [Std.LawfulEqOrd κ] in
theorem size_erase_of_some {t : Table κ α} {k : κ} (h : (t[k]?).isSome) :
    (Std.ExtTreeMap.erase t k).size + 1 = t.size := by
  have hpos : t.size ≠ 0 := fun h0 => by
    rw [← Std.ExtTreeMap.eq_empty_iff_size_eq_zero] at h0
    subst h0
    simp at h
  rw [Std.ExtTreeMap.size_erase, ← Std.ExtTreeMap.isSome_getElem?_eq_contains, h, if_pos rfl]
  omega

omit [Std.LawfulEqOrd κ] in
theorem le_size_eraseAll (ks : List κ) (t : Table κ α) :
    t.size ≤ (eraseAll t ks).size + ks.length := by
  induction ks generalizing t with
  | nil => exact Nat.le_refl _
  | cons k ks ih =>
    have hrest := ih (t.erase k)
    have hstep : t.size ≤ (Std.ExtTreeMap.erase t k).size + 1 := Std.ExtTreeMap.size_le_size_erase
    have heq : eraseAll t (k :: ks) = eraseAll (t.erase k) ks := rfl
    rw [List.length_cons, heq]
    omega

/-- **Removals take one row each exactly if their keys are different and there.** -/
theorem size_eraseAll_eq_iff [DecidableEq κ] (ks : List κ) (t : Table κ α) :
    t.size = (eraseAll t ks).size + ks.length ↔ ks.Nodup ∧ ∀ k ∈ ks, (t[k]?).isSome := by
  induction ks generalizing t with
  | nil => simp [eraseAll]
  | cons k ks ih =>
    have heq : eraseAll t (k :: ks) = eraseAll (t.erase k) ks := rfl
    have hle := le_size_eraseAll ks (t.erase k)
    rw [heq, List.nodup_cons, List.forall_mem_cons, List.length_cons]
    cases hget : t[k]? with
    | none =>
      have hsize := size_erase_of_none hget
      refine ⟨fun h => ?_, fun h => ?_⟩
      · omega
      · cases h.2.1
    | some v =>
      have hsize := size_erase_of_some (Option.isSome_iff_exists.2 ⟨v, hget⟩)
      have hiff : t.size = (eraseAll (t.erase k) ks).size + (ks.length + 1) ↔
          ks.Nodup ∧ ∀ a ∈ ks, ((t.erase k)[a]?).isSome := by
        rw [← ih (t.erase k), ← hsize]
        omega
      rw [hiff]
      simp only [getElem?_erase_eq]
      constructor
      · rintro ⟨hnodup, hthere⟩
        refine ⟨⟨fun hmem => ?_, hnodup⟩, rfl, fun a ha => ?_⟩
        · have hsome := hthere k hmem
          rw [if_pos rfl] at hsome
          cases hsome
        · have hsome := hthere a ha
          split at hsome
          · cases hsome
          · exact hsome
      · rintro ⟨⟨hnew, hnodup⟩, -, hthere⟩
        refine ⟨hnodup, fun a ha => ?_⟩
        rw [if_neg fun hka : k = a => hnew (hka ▸ ha)]
        exact hthere a ha

/-- The last of two insertions under one key is the one that counts. -/
theorem insert_insert [DecidableEq κ] (t : Table κ α) (k : κ) (v v' : α) :
    Std.ExtTreeMap.insert (Std.ExtTreeMap.insert t k v) k v' = Std.ExtTreeMap.insert t k v' := by
  refine ext_getElem? fun a => ?_
  rw [getElem?_insert_eq, getElem?_insert_eq, getElem?_insert_eq]
  split <;> rfl

/-- Insertions under different keys commute. -/
theorem insert_comm [DecidableEq κ] (t : Table κ α) {k k' : κ} (hne : k ≠ k') (v v' : α) :
    Std.ExtTreeMap.insert (Std.ExtTreeMap.insert t k v) k' v' =
      Std.ExtTreeMap.insert (Std.ExtTreeMap.insert t k' v') k v := by
  refine ext_getElem? fun a => ?_
  rw [getElem?_insert_eq, getElem?_insert_eq, getElem?_insert_eq, getElem?_insert_eq]
  by_cases hk : k = a
  · have hk' : k' ≠ a := fun h => hne (hk.trans h.symm)
    rw [if_neg hk', if_pos hk, if_pos hk]
  · rw [if_neg hk, if_neg hk]

/-- An insertion removes no row. -/
theorem isSome_insert [DecidableEq κ] {t : Table κ α} {a : κ} (h : (t[a]?).isSome) (k : κ) (v : α) :
    ((Std.ExtTreeMap.insert t k v)[a]?).isSome := by
  rw [getElem?_insert_eq]
  split
  · rfl
  · exact h

/-- An existing row keeps its first value. -/
theorem getElem?_insertIfNew_of_some [DecidableEq κ] {t : Table κ α} {a : κ} {v : α}
    (h : t[a]? = some v) (k : κ) (v' : α) : (Std.ExtTreeMap.insertIfNew t k v')[a]? = some v := by
  rw [getElem?_insertIfNew_eq]
  split
  · rename_i hk
    subst hk
    rw [h]
    rfl
  · exact h

theorem mem_keys {t : Table κ α} {k : κ} : k ∈ t.keys ↔ (t[k]?).isSome := by
  rw [Std.ExtTreeMap.mem_keys, Std.ExtTreeMap.mem_iff_isSome_getElem?]

/-- A scan of the keys from the start that ends at the first key without `p`: with a `p` that only
lower keys meet, those are all keys with `p`. -/
theorem mem_takeWhile_keys {p : κ → Bool} (hp : ∀ a b, compare a b = .lt → p b = true → p a = true)
    {t : Table κ α} {k : κ} : k ∈ t.keys.takeWhile p ↔ (t[k]?).isSome ∧ p k = true := by
  have hsorted := Std.ExtTreeMap.ordered_keys (t := t)
  rw [← mem_keys]
  generalize t.keys = keys at hsorted ⊢
  induction keys with
  | nil => simp
  | cons a keys ih =>
    obtain ⟨ha, hkeys⟩ := List.pairwise_cons.1 hsorted
    have hrest : k ∈ keys.takeWhile p ↔ k ∈ keys ∧ p k = true := ih hkeys
    by_cases hpa : p a = true
    · rw [List.takeWhile_cons_of_pos hpa, List.mem_cons, List.mem_cons, hrest]
      constructor
      · rintro (rfl | ⟨hk, hpk⟩)
        · exact ⟨.inl rfl, hpa⟩
        · exact ⟨.inr hk, hpk⟩
      · rintro ⟨rfl | hk, hpk⟩
        · exact .inl rfl
        · exact .inr ⟨hk, hpk⟩
    · rw [List.takeWhile_cons_of_neg hpa]
      refine ⟨nofun, ?_⟩
      rintro ⟨hk, hpk⟩
      rcases List.mem_cons.1 hk with rfl | hk
      · exact absurd hpk hpa
      · exact absurd (hp a k (ha k hk) hpk) hpa

/-- The last key is the greatest. -/
theorem lastKey?_eq_some {t : Table κ α} {k : κ} :
    lastKey? t = some k ↔ (t[k]?).isSome ∧
      ∀ k', (t[k']?).isSome → k' = k ∨ compare k' k = .lt := by
  have hforward : ∀ {k : κ}, lastKey? t = some k → (t[k]?).isSome ∧
      ∀ k', (t[k']?).isSome → k' = k ∨ compare k' k = .lt := by
    intro k h
    obtain ⟨init, hinit⟩ := List.getLast?_eq_some_iff.1 h
    refine ⟨mem_keys.1 (by rw [hinit]; simp), fun k' hk' => ?_⟩
    have hmem := mem_keys.2 hk'
    have hsorted := Std.ExtTreeMap.ordered_keys (t := t)
    rw [hinit] at hmem hsorted
    rcases List.mem_append.1 hmem with hmem | hmem
    · exact .inr ((List.pairwise_append.1 hsorted).2.2 k' hmem k (by simp))
    · exact .inl (List.mem_singleton.1 hmem)
  refine ⟨hforward, fun ⟨hk, hmax⟩ => ?_⟩
  cases hlast : lastKey? t with
  | none =>
    have hnil : t.keys = [] := List.getLast?_eq_none_iff.1 hlast
    have hmem := mem_keys.2 hk
    rw [hnil] at hmem
    cases hmem
  | some k₀ =>
    obtain ⟨hk₀, hmax₀⟩ := hforward hlast
    rcases hmax k₀ hk₀ with rfl | hlt
    · rfl
    · rcases hmax₀ k hk with rfl | hlt'
      · rfl
      · rw [Std.OrientedCmp.gt_of_lt hlt] at hlt'
        cases hlt'

theorem lastKey?_eq_none {t : Table κ α} : lastKey? t = none ↔ ∀ k : κ, t[k]? = none := by
  unfold lastKey?
  rw [List.getLast?_eq_none_iff, List.eq_nil_iff_forall_not_mem]
  refine forall_congr' fun k => ?_
  rw [mem_keys, Option.not_isSome_iff_eq_none]

/-- Every row of the table satisfies `Q`. -/
def All (Q : κ → α → Prop) (t : Table κ α) : Prop := ∀ k a, t[k]? = some a → Q k a

namespace All

variable {Q R : κ → α → Prop} {t : Table κ α}

omit [Std.LawfulEqOrd κ] in
theorem mono (h : All Q t) (hQR : ∀ k a, Q k a → R k a) : All R t :=
  fun k a ha => hQR k a (h k a ha)

omit [Std.LawfulEqOrd κ] in
theorem empty : All Q (∅ : Table κ α) := by
  intro k a h
  simp at h

theorem insert [DecidableEq κ] (h : All Q t) {k : κ} {v : α} (hq : Q k v) :
    All Q (Std.ExtTreeMap.insert t k v) := by
  intro k' a ha
  rw [getElem?_insert_eq] at ha
  split at ha
  · rename_i hk
    subst hk
    cases ha
    exact hq
  · exact h k' a ha

/-- An insertion that keeps an existing row only has to be checked where there was none. -/
theorem insertIfNew [DecidableEq κ] (h : All Q t) {k : κ} {v : α} (hq : t[k]? = none → Q k v) :
    All Q (Std.ExtTreeMap.insertIfNew t k v) := by
  intro k' a ha
  rw [getElem?_insertIfNew_eq] at ha
  split at ha
  · rename_i hk
    subst hk
    cases hrow : t[k]? with
    | none =>
      rw [hrow] at ha
      cases ha
      exact hq hrow
    | some v' =>
      rw [hrow] at ha
      cases ha
      exact h k _ hrow
  · exact h k' a ha

theorem erase [DecidableEq κ] (h : All Q t) (k : κ) : All Q (Std.ExtTreeMap.erase t k) :=
  fun k' a ha => h k' a (eq_some_of_erase ha)

theorem eraseWhere [DecidableEq κ] (h : All Q t) (p : κ → Bool) : All Q (Table.eraseWhere p t) :=
  fun k a ha => h k a (eq_some_of_eraseWhere ha)

end All

theorem mem_scan {p : κ → Bool} {t : Table κ α} {e : κ × α} :
    e ∈ scan p t ↔ t[e.1]? = some e.2 ∧ p e.1 := by
  obtain ⟨k, a⟩ := e
  unfold scan
  rw [List.mem_filter, Std.ExtTreeMap.mem_toList_iff_getElem?_eq_some]

omit [Std.LawfulEqOrd κ] in
theorem scan_sorted (p : κ → Bool) (t : Table κ α) :
    (scan p t).Pairwise fun a b => compare a.1 b.1 = .lt :=
  Std.ExtTreeMap.ordered_keys_toList.filter _

/-- A sorted list of entries that agrees with the point reads under `p` is the scan. -/
theorem scan_eq_of_sorted {p : κ → Bool} {t : Table κ α} {l : List (κ × α)}
    (hsorted : l.Pairwise fun a b => compare a.1 b.1 = .lt)
    (hmem : ∀ e, e ∈ l ↔ t[e.1]? = some e.2 ∧ p e.1) : scan p t = l := by
  have hnodup : ∀ {l : List (κ × α)}, (l.Pairwise fun a b => compare a.1 b.1 = .lt) → l.Nodup :=
    fun h => h.imp fun {a b} hab heq => by
      subst heq
      simp at hab
  refine @List.Perm.eq_of_pairwise _ (fun a b => compare a.1 b.1 = .lt) _ _ ?_
    (scan_sorted p t) hsorted ?_
  · intro a b _ _ hab hba
    exact absurd hba (Std.OrientedCmp.not_lt_of_lt hab)
  · rw [List.perm_ext_iff_of_nodup (hnodup (scan_sorted p t)) (hnodup hsorted)]
    intro e
    rw [mem_scan, hmem]

/-- Tables that agree on the keys under `p` have the same scan. -/
theorem scan_congr {p : κ → Bool} {t t' : Table κ α} (h : ∀ k, p k → t[k]? = t'[k]?) :
    scan p t = scan p t' := by
  refine scan_eq_of_sorted (scan_sorted p t') fun e => ?_
  rw [mem_scan]
  refine and_congr_left fun hp => ?_
  rw [h _ hp]

omit [Ord κ] [Std.TransOrd κ] [Std.LawfulEqOrd κ] in
/-- An iteration through a list that leaves `q` once finds no more of it. -/
theorem takeWhile_eq_filter {q : κ × α → Bool} {l : List (κ × α)}
    (h : l.Pairwise fun a b => q b = true → q a = true) : l.takeWhile q = l.filter q := by
  induction l with
  | nil => rfl
  | cons e l ih =>
    obtain ⟨he, hl⟩ := List.pairwise_cons.1 h
    by_cases hq : q e = true
    · rw [List.takeWhile_cons_of_pos hq, List.filter_cons_of_pos hq, ih hl]
    · rw [List.takeWhile_cons_of_neg hq, List.filter_cons_of_neg hq]
      exact (List.filter_eq_nil_iff.2 fun a ha hqa => hq (he a ha hqa)).symm

omit [Std.LawfulEqOrd κ] in
/-- **A seek and an ordered iteration find exactly the keys of `p`**, if none is below the start and
none comes after a gap. -/
theorem scanFrom_eq_scan {start : κ} {p : κ → Bool} (hstart : ∀ k, p k → compare k start ≠ .lt)
    (hgap : ∀ a b, compare a start ≠ .lt → compare a b = .lt → p b → p a) (t : Table κ α) :
    scanFrom start p t = scan p t := by
  have hsorted := Std.ExtTreeMap.ordered_keys_toList (t := t)
  unfold scanFrom scan
  generalize t.toList = l at hsorted ⊢
  induction l with
  | nil => rfl
  | cons e l ih =>
    obtain ⟨he, hl⟩ := List.pairwise_cons.1 hsorted
    by_cases hlt : compare e.1 start = .lt
    · -- the seek passes `e`, which is not in `p`
      have hp : p e.1 = false := Bool.eq_false_of_not_eq_true fun hp => hstart e.1 hp hlt
      rw [List.dropWhile_cons_of_pos (by simp [hlt]), List.filter_cons_of_neg (by simp [hp])]
      exact ih hl
    · rw [List.dropWhile_cons_of_neg (by simp [hlt])]
      refine takeWhile_eq_filter (List.pairwise_cons.2 ⟨fun a ha => hgap e.1 a.1 hlt (he a ha), ?_⟩)
      refine hl.imp_of_mem fun {a b} ha _ hab => hgap a.1 b.1 (fun h => hlt ?_) hab
      exact Std.TransCmp.lt_trans (he a ha) h

/-- A scan has one entry for every key it covers. -/
theorem ncard_keys_scan (p : κ → Bool) (t : Table κ α) :
    {k : κ | p k = true ∧ (t[k]?).isSome}.ncard = (scan p t).length := by
  classical
  have hnodup : ((scan p t).map (·.1)).Nodup := by
    refine List.pairwise_map.2 ((scan_sorted p t).imp fun {a b} hab heq => ?_)
    rw [heq] at hab
    simp at hab
  have hset : {k : κ | p k = true ∧ (t[k]?).isSome} = ((scan p t).map (·.1)).toFinset := by
    ext k
    simp only [Set.mem_ofPred_eq, List.coe_toFinset, List.mem_map]
    constructor
    · rintro ⟨hp, hsome⟩
      obtain ⟨v, hv⟩ := Option.isSome_iff_exists.1 hsome
      exact ⟨(k, v), mem_scan.2 ⟨hv, hp⟩, rfl⟩
    · rintro ⟨e, he, rfl⟩
      obtain ⟨hget, hp⟩ := mem_scan.1 he
      exact ⟨hp, by rw [hget]; rfl⟩
  rw [hset, Set.ncard_coe_finset, List.toFinset_card_of_nodup hnodup, List.length_map]

omit [Std.LawfulEqOrd κ] in
/-- The last entry of a sorted list with a property is the one with the greatest key. -/
theorem find?_reverse_eq_some {q : κ × α → Bool} {l : List (κ × α)}
    (h : l.Pairwise fun a b => compare a.1 b.1 = .lt) {e : κ × α} :
    l.reverse.find? q = some e ↔
      e ∈ l ∧ q e = true ∧ ∀ e' ∈ l, q e' = true → compare e'.1 e.1 ≠ .gt := by
  induction l with
  | nil => simp
  | cons a l ih =>
    obtain ⟨ha, hl⟩ := List.pairwise_cons.1 h
    rw [List.reverse_cons, List.find?_append]
    cases hfind : l.reverse.find? q with
    | some f =>
      have hf : f ∈ l := List.mem_reverse.1 (List.mem_of_find?_eq_some hfind)
      have hqf : q f = true := List.find?_some hfind
      rw [Option.some_or, ← hfind, ih hl]
      constructor
      · rintro ⟨he, hq, hmax⟩
        refine ⟨List.mem_cons_of_mem a he, hq, List.forall_mem_cons.2 ⟨fun _ => ?_, hmax⟩⟩
        rw [ha e he]
        exact nofun
      · rintro ⟨he, hq, hmax⟩
        rcases List.mem_cons.1 he with rfl | he
        · exact absurd (Std.OrientedCmp.gt_of_lt (ha f hf))
            (hmax f (List.mem_cons_of_mem _ hf) hqf)
        · exact ⟨he, hq, fun e' he' => hmax e' (List.mem_cons_of_mem a he')⟩
    | none =>
      have hnone : ∀ f ∈ l, ¬ q f = true := fun f hf =>
        List.find?_eq_none.1 hfind f (List.mem_reverse.2 hf)
      rw [Option.none_or, List.find?_cons, List.find?_nil]
      constructor
      · intro hsome
        split at hsome
        · rename_i hq
          obtain rfl := Option.some.inj hsome
          have hself : compare a.1 a.1 = .eq := Std.ReflCmp.compare_self
          refine ⟨List.mem_cons_self, hq, List.forall_mem_cons.2 ⟨fun _ => ?_, ?_⟩⟩
          · rw [hself]
            exact nofun
          · exact fun e' he' hq' => absurd hq' (hnone e' he')
        · cases hsome
      · rintro ⟨he, hq, -⟩
        rcases List.mem_cons.1 he with rfl | he
        · rw [hq]
        · exact absurd hq (hnone e he)

/-! ## Encoded tables -/

/-- `t'` is `t` with its keys encoded by `f` and its rows by `g`; the keys in use are in `P`. -/
structure Image {κ' β : Type} [Ord κ'] [Std.TransOrd κ'] (P : κ → Prop) (f : κ → κ') (g : α → β)
    (t : Table κ α) (t' : Table κ' β) : Prop where
  key : ∀ {k : κ} {v : α}, t[k]? = some v → P k
  row : ∀ {k' : κ'} {v' : β}, t'[k']? = some v' ↔
    ∃ (k : κ) (v : α), t[k]? = some v ∧ f k = k' ∧ g v = v'

namespace Image

variable {κ' β : Type} [Ord κ'] [Std.TransOrd κ'] [Std.LawfulEqOrd κ'] {P : κ → Prop} {f : κ → κ'}
  {g : α → β} {t : Table κ α} {t' : Table κ' β}

omit [Std.LawfulEqOrd κ] [Std.LawfulEqOrd κ'] in
theorem empty : Image P f g ∅ ∅ := by
  refine ⟨fun h => by simp at h, ?_⟩
  intro k' v'
  simp

section Order

variable (hmono : ∀ {k k' : κ}, P k → P k' → compare (f k) (f k') = compare k k')

include hmono

omit [Std.TransOrd κ] [Std.TransOrd κ'] in
/-- An encoding that keeps the order keeps keys apart. -/
theorem injOn {k k' : κ} (hk : P k) (hk' : P k') (h : f k = f k') : k = k' := by
  have hcompare : compare k k' = .eq := by
    rw [← hmono hk hk', Std.LawfulEqCmp.compare_eq_iff_eq]
    exact h
  exact Std.LawfulEqCmp.compare_eq_iff_eq.1 hcompare

theorem insert [DecidableEq κ] [DecidableEq κ'] (h : Image P f g t t') {k : κ} (hk : P k) (v : α) :
    Image P f g (Std.ExtTreeMap.insert t k v) (Std.ExtTreeMap.insert t' (f k) (g v)) := by
  constructor
  · intro k₁ v₁ h₁
    rw [getElem?_insert_eq] at h₁
    split at h₁
    · rename_i heq
      rwa [← heq]
    · exact h.key h₁
  · intro k' v'
    simp only [getElem?_insert_eq]
    constructor
    · intro h'
      split at h'
      · rename_i heq
        exact ⟨k, v, if_pos rfl, heq, Option.some.inj h'⟩
      · rename_i hne
        obtain ⟨k₁, v₁, h₁, hf, hg⟩ := h.row.1 h'
        refine ⟨k₁, v₁, ?_, hf, hg⟩
        rw [if_neg]
        · exact h₁
        · rintro rfl
          exact hne hf
    · rintro ⟨k₁, v₁, h₁, rfl, rfl⟩
      split at h₁
      · rename_i heq
        rw [heq, if_pos rfl, Option.some.inj h₁]
      · rename_i hne
        rw [if_neg fun heq => hne (injOn hmono hk (h.key h₁) heq)]
        exact h.row.2 ⟨k₁, v₁, h₁, rfl, rfl⟩

/-- Point reads of the encoded table. -/
theorem getElem?_eq (h : Image P f g t t') {k : κ} (hk : P k) : t'[f k]? = (t[k]?).map g := by
  refine Option.ext fun v' => ?_
  rw [h.row, Option.map_eq_some_iff]
  constructor
  · rintro ⟨k₁, v₁, h₁, hf, hg⟩
    obtain rfl := injOn hmono (h.key h₁) hk hf
    exact ⟨v₁, h₁, hg⟩
  · rintro ⟨v, hv, hg⟩
    exact ⟨k, v, hv, rfl, hg⟩

theorem erase [DecidableEq κ] [DecidableEq κ'] (h : Image P f g t t') {k : κ} (hk : P k) :
    Image P f g (Std.ExtTreeMap.erase t k) (Std.ExtTreeMap.erase t' (f k)) := by
  constructor
  · intro k₁ v₁ h₁
    rw [getElem?_erase_eq] at h₁
    split at h₁
    · cases h₁
    · exact h.key h₁
  · intro k' v'
    simp only [getElem?_erase_eq]
    constructor
    · intro h'
      split at h'
      · cases h'
      · rename_i hne
        obtain ⟨k₁, v₁, h₁, hf, hg⟩ := h.row.1 h'
        refine ⟨k₁, v₁, ?_, hf, hg⟩
        rw [if_neg]
        · exact h₁
        · rintro rfl
          exact hne hf
    · rintro ⟨k₁, v₁, h₁, rfl, rfl⟩
      split at h₁
      · cases h₁
      · rename_i hne
        rw [if_neg fun heq => hne (injOn hmono hk (h.key h₁) heq)]
        exact h.row.2 ⟨k₁, v₁, h₁, rfl, rfl⟩

/-- **A scan of the encoded table** is the encoded scan, in the same order. -/
theorem scan_eq (h : Image P f g t t') {p : κ → Bool} {p' : κ' → Bool}
    (hp : ∀ k, P k → p' (f k) = p k) :
    scan p' t' = (scan p t).map fun e => (f e.1, g e.2) := by
  refine scan_eq_of_sorted ?_ ?_
  · rw [List.pairwise_map]
    refine (scan_sorted p t).imp_of_mem ?_
    intro a b ha hb hab
    rw [hmono (h.key (mem_scan.1 ha).1) (h.key (mem_scan.1 hb).1)]
    exact hab
  · intro e
    rw [List.mem_map]
    constructor
    · rintro ⟨e₁, he₁, rfl⟩
      obtain ⟨hget, hp₁⟩ := mem_scan.1 he₁
      exact ⟨h.row.2 ⟨e₁.1, e₁.2, hget, rfl, rfl⟩, (hp _ (h.key hget)).trans hp₁⟩
    · rintro ⟨hget, hp₁⟩
      obtain ⟨k, v, hk, hf, hg⟩ := h.row.1 hget
      refine ⟨(k, v), mem_scan.2 ⟨hk, ?_⟩, Prod.ext hf hg⟩
      rw [← hp k (h.key hk), hf]
      exact hp₁

/-- An encoded table lists the encoded rows. -/
theorem toList_eq (h : Image P f g t t') :
    t'.toList = t.toList.map fun e => (f e.1, g e.2) := by
  have hscan : scan (fun _ => true) t' = (scan (fun _ => true) t).map fun e => (f e.1, g e.2) :=
    h.scan_eq hmono fun _ _ => rfl
  unfold scan at hscan
  rwa [List.filter_true, List.filter_true] at hscan

end Order

end Image

end Table

end Lib
