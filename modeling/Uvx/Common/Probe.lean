import Mathlib.Data.Finset.Card
import Mathlib.Data.Finset.Range
import Mathlib.Data.Nat.ModEq

/-!
# Linear probing

An array of `size` cells holds keys, each searched for from a home cell on, wrapping around at the
end. Two sentinels mark the cells without a key: `empty` for a cell never used since, which ends a
search, and `freed` for a cell whose key was deleted, which does not. `Layout` is the invariant that
makes the search complete.
-/

namespace Probe

/-- The cell after `n`. -/
def next (size n : ℕ) : ℕ := if n + 1 = size then 0 else n + 1

/-- Visit the cells from `n` on until `f` has a result, at most `fuel` of them. -/
def scan {β : Type*} (size : ℕ) (f : ℕ → Option β) : ℕ → ℕ → Option β
  | 0, _ => none
  | fuel + 1, n =>
    match f n with
    | some b => some b
    | none => scan size f fuel (next size n)

/-! ## Visiting cells -/

theorem next_add_mod (size n i : ℕ) :
    (next size n + i) % size = (n + (i + 1)) % size := by
  rw [next]
  split
  · next h => rw [← h, Nat.zero_add, show n + (i + 1) = i + (n + 1) by omega, Nat.add_mod_right]
  · congr 1; omega

theorem next_lt {size n : ℕ} (hn : n < size) : next size n < size := by
  rw [next]
  split <;> omega

/-- From every cell, every cell is met. -/
theorem exists_add_mod_eq {size n m : ℕ} (hn : n < size) (hm : m < size) :
    ∃ i < size, (n + i) % size = m := by
  rcases Nat.lt_or_ge m n with h | h
  · refine ⟨m + size - n, by omega, ?_⟩
    rw [show n + (m + size - n) = m + size by omega, Nat.add_mod_right, Nat.mod_eq_of_lt hm]
  · refine ⟨m - n, by omega, ?_⟩
    rw [Nat.add_sub_cancel' h, Nat.mod_eq_of_lt hm]

section Scan

variable {β : Type*} {size : ℕ} {f : ℕ → Option β}

/-- A scan stops at the first cell with a result. -/
theorem scan_of_first {fuel n i : ℕ} {b : β} (hn : n < size) (hi : i < fuel)
    (hb : f ((n + i) % size) = some b) (hfirst : ∀ j < i, f ((n + j) % size) = none) :
    scan size f fuel n = some b := by
  induction fuel generalizing n i with
  | zero => omega
  | succ fuel ih =>
    rw [scan]
    cases i with
    | zero =>
      rw [Nat.add_zero, Nat.mod_eq_of_lt hn] at hb
      rw [hb]
    | succ i =>
      have h0 := hfirst 0 (Nat.succ_pos i)
      rw [Nat.add_zero, Nat.mod_eq_of_lt hn] at h0
      rw [h0]
      refine ih (next_lt hn) (by omega) (i := i) ?_ ?_
      · rw [next_add_mod, hb]
      · intro j hj
        rw [next_add_mod, hfirst (j + 1) (by omega)]

/-- What a scan returns is the result at the first cell that has one. -/
theorem exists_first_of_scan {fuel n : ℕ} {b : β} (hn : n < size)
    (h : scan size f fuel n = some b) :
    ∃ i < fuel, f ((n + i) % size) = some b ∧ ∀ j < i, f ((n + j) % size) = none := by
  induction fuel generalizing n with
  | zero => simp [scan] at h
  | succ fuel ih =>
    rw [scan] at h
    cases hfn : f n with
    | some b' =>
      rw [hfn] at h
      refine ⟨0, by omega, ?_, by omega⟩
      rw [Nat.add_zero, Nat.mod_eq_of_lt hn, hfn]
      exact h
    | none =>
      rw [hfn] at h
      obtain ⟨i, hi, hb, hfirst⟩ := ih (next_lt hn) h
      refine ⟨i + 1, by omega, by rw [← next_add_mod, hb], ?_⟩
      intro j hj
      cases j with
      | zero => rw [Nat.add_zero, Nat.mod_eq_of_lt hn, hfn]
      | succ j => rw [← next_add_mod, hfirst j (by omega)]

/-- A scan without a result has met none. -/
theorem eq_none_of_scan {fuel n i : ℕ} (hn : n < size) (h : scan size f fuel n = none)
    (hi : i < fuel) : f ((n + i) % size) = none := by
  induction fuel generalizing n i with
  | zero => omega
  | succ fuel ih =>
    rw [scan] at h
    cases hfn : f n with
    | some b => rw [hfn] at h; exact absurd h (by simp)
    | none =>
      rw [hfn] at h
      cases i with
      | zero => rw [Nat.add_zero, Nat.mod_eq_of_lt hn, hfn]
      | succ i => rw [← next_add_mod]; exact ih (next_lt hn) h (by omega)

/-- `size` steps without a result mean that no cell has one, so that a loop over the cells which ends
at the first result never ends. -/
theorem scan_eq_none_iff {n : ℕ} (hn : n < size) :
    scan size f size n = none ↔ ∀ m < size, f m = none := by
  constructor
  · intro h m hm
    obtain ⟨i, hi, him⟩ := exists_add_mod_eq hn hm
    rw [← him]
    exact eq_none_of_scan hn h hi
  · intro h
    cases hs : scan size f size n with
    | none => rfl
    | some b =>
      obtain ⟨i, -, hb, -⟩ := exists_first_of_scan hn hs
      rw [h _ (Nat.mod_lt _ (by omega))] at hb
      exact absurd hb (by simp)

end Scan

/-! ## The layout of the keys -/

section Layout

variable {κ : Type*} {empty freed : κ} {size : ℕ} {home : κ → ℕ} {key : ℕ → κ}

/-- A cell without a key. -/
def Vacant (empty freed k : κ) : Prop := k = empty ∨ k = freed

instance [DecidableEq κ] (k : κ) : Decidable (Vacant empty freed k) :=
  inferInstanceAs (Decidable (_ ∨ _))

/-- Each key is reached from its home over cells that are not empty, and no key is held twice. -/
structure Layout (empty freed : κ) (size : ℕ) (home : κ → ℕ) (key : ℕ → κ) : Prop where
  reach : ∀ n < size, ¬ Vacant empty freed (key n) →
    ∃ i < size, (home (key n) % size + i) % size = n ∧
      ∀ j < i, key ((home (key n) % size + j) % size) ≠ empty
  inj : ∀ m < size, ∀ n < size, ¬ Vacant empty freed (key m) → key m = key n → m = n

/-- No cell holds a key at first. -/
theorem Layout.init (h : ∀ n < size, key n = empty) : Layout empty freed size home key :=
  ⟨fun n hn hv => absurd (Or.inl (h n hn)) hv, fun m hm _ _ hv => absurd (Or.inl (h m hm)) hv⟩

variable [DecidableEq κ]

/-- One step of the search for `k`: stop at an empty cell and at the key. -/
def findStep (empty freed : κ) (key : ℕ → κ) (k : κ) (n : ℕ) : Option (Option ℕ) :=
  if key n = empty then some none
  else if key n ≠ freed ∧ key n = k then some (some n)
  else none

/-- One step of the search for a cell to put `k` in: a vacant one, or the one that holds `k`. -/
def placeStep (empty freed : κ) (key : ℕ → κ) (k : κ) (n : ℕ) : Option (ℕ × Bool) :=
  if Vacant empty freed (key n) then some (n, false)
  else if key n = k then some (n, true)
  else none

/-- A held key is found. -/
theorem Layout.scan_findStep (h : Layout empty freed size home key) {n : ℕ} (hn : n < size)
    (hv : ¬ Vacant empty freed (key n)) :
    scan size (findStep empty freed key (key n)) size (home (key n) % size) = some (some n) := by
  obtain ⟨i, hi, hin, hj⟩ := h.reach n hn hv
  refine scan_of_first (Nat.mod_lt _ (by omega)) hi ?_ ?_
  · rw [hin, findStep, if_neg fun he => hv (Or.inl he), if_pos ⟨fun hf => hv (Or.inr hf), rfl⟩]
  · intro j hji
    have hm : (home (key n) % size + j) % size < size := Nat.mod_lt _ (by omega)
    rw [findStep, if_neg (hj j hji), if_neg]
    rintro ⟨hf, he⟩
    -- a second cell with the same key
    have heq := Nat.ModEq.add_left_cancel (Nat.ModEq.refl (home (key n) % size))
      (hin.trans (h.inj n hn _ hm hv he.symm))
    rw [Nat.ModEq, Nat.mod_eq_of_lt hi, Nat.mod_eq_of_lt (hji.trans hi)] at heq
    omega

/-- A key that is not held is not found. -/
theorem scan_findStep_of_absent (home : κ → ℕ) {k : κ} (hsize : 0 < size) (h : ∀ n < size, key n ≠ k) :
    (scan size (findStep empty freed key k) size (home k % size)).join = none := by
  cases hs : scan size (findStep empty freed key k) size (home k % size) with
  | none => rfl
  | some r =>
    obtain ⟨i, -, hb, -⟩ := exists_first_of_scan (Nat.mod_lt _ hsize) hs
    rw [findStep] at hb
    split at hb
    · rw [← Option.some.inj hb]; rfl
    · rw [if_neg fun hk => h _ (Nat.mod_lt _ hsize) hk.2] at hb
      exact absurd hb (by simp)

/-- A vacant cell exists when fewer keys than cells are held. -/
theorem exists_vacant {slots : List ℕ} (hlen : slots.length < size)
    (hmem : ∀ n < size, ¬ Vacant empty freed (key n) → n ∈ slots) :
    ∃ n < size, Vacant empty freed (key n) := by
  by_contra hnone
  have hsub : Finset.range size ⊆ slots.toFinset := by
    intro n hn
    rw [Finset.mem_range] at hn
    rw [List.mem_toFinset]
    exact hmem n hn fun hv => hnone ⟨n, hn, hv⟩
  have h₁ := Finset.card_le_card hsub
  have h₂ := slots.toFinset_card_le
  rw [Finset.card_range] at h₁
  omega

/-- With a vacant cell about, an absent key gets the first one from its home on. -/
theorem scan_placeStep (home : κ → ℕ) {k : κ} (hvacant : ∃ n < size, Vacant empty freed (key n))
    (habsent : ∀ n < size, key n ≠ k) :
    ∃ i < size,
      scan size (placeStep empty freed key k) size (home k % size)
        = some ((home k % size + i) % size, false) ∧
      Vacant empty freed (key ((home k % size + i) % size)) ∧
      ∀ j < i, key ((home k % size + j) % size) ≠ empty := by
  obtain ⟨m, hm, hv⟩ := hvacant
  have hhome : home k % size < size := Nat.mod_lt _ (by omega)
  cases hs : scan size (placeStep empty freed key k) size (home k % size) with
  | none =>
    have := (scan_eq_none_iff hhome).mp hs m hm
    rw [placeStep, if_pos hv] at this
    exact absurd this (by simp)
  | some r =>
    obtain ⟨i, hi, hb, hfirst⟩ := exists_first_of_scan hhome hs
    have hlt : (home k % size + i) % size < size := Nat.mod_lt _ (by omega)
    rw [placeStep] at hb
    split at hb
    · next hvi =>
      refine ⟨i, hi, by rw [← Option.some.inj hb], hvi, ?_⟩
      intro j hj he
      have := hfirst j hj
      rw [placeStep, if_pos (show Vacant empty freed _ from Or.inl he)] at this
      exact absurd this (by simp)
    · rw [if_neg (habsent _ hlt)] at hb
      exact absurd hb (by simp)

omit [DecidableEq κ] in
/-- Putting an absent key into the cell its search stops at. -/
theorem Layout.place (h : Layout empty freed size home key) {k : κ} {key' : ℕ → κ} {i : ℕ}
    (hi : i < size) (hk : ¬ Vacant empty freed k) (habsent : ∀ n < size, key n ≠ k)
    (hj : ∀ j < i, key ((home k % size + j) % size) ≠ empty)
    (hplaced : key' ((home k % size + i) % size) = k)
    (hkept : ∀ n < size, n ≠ (home k % size + i) % size → key' n = key n) :
    Layout empty freed size home key' := by
  set p := (home k % size + i) % size with hp
  -- no cell has become empty
  have hmono : ∀ n < size, key n ≠ empty → key' n ≠ empty := by
    intro n hn hne
    by_cases hnp : n = p
    · rw [hnp, hplaced]; exact fun he => hk (Or.inl he)
    · rwa [hkept n hn hnp]
  constructor
  · intro n hn hv
    by_cases hnp : n = p
    · rw [hnp, hplaced]
      exact ⟨i, hi, hp.symm, fun j hji => hmono _ (Nat.mod_lt _ (by omega)) (hj j hji)⟩
    · rw [hkept n hn hnp] at hv ⊢
      obtain ⟨i', hi', hin, hj'⟩ := h.reach n hn hv
      exact ⟨i', hi', hin, fun j hji => hmono _ (Nat.mod_lt _ (by omega)) (hj' j hji)⟩
  · intro m hm n hn hv he
    by_cases hmp : m = p <;> by_cases hnp : n = p
    · rw [hmp, hnp]
    · rw [hmp, hplaced, hkept n hn hnp] at he
      exact absurd he.symm (habsent n hn)
    · rw [hnp, hplaced, hkept m hm hmp] at he
      exact absurd he (habsent m hm)
    · rw [hkept m hm hmp, hkept n hn hnp] at he
      rw [hkept m hm hmp] at hv
      exact h.inj m hm n hn hv he

omit [DecidableEq κ] in
/-- Freeing a cell. -/
theorem Layout.free (h : Layout empty freed size home key) {p : ℕ} {key' : ℕ → κ}
    (hne : freed ≠ empty) (hfreed : key' p = freed) (hkept : ∀ n < size, n ≠ p → key' n = key n) :
    Layout empty freed size home key' := by
  have hmono : ∀ n < size, key n ≠ empty → key' n ≠ empty := by
    intro n hn hnp
    by_cases hp : n = p
    · rw [hp, hfreed]; exact hne
    · rwa [hkept n hn hp]
  have hne' : ∀ n, ¬ Vacant empty freed (key' n) → n ≠ p := by
    rintro n hv rfl
    exact hv (Or.inr hfreed)
  constructor
  · intro n hn hv
    have hnp := hne' n hv
    rw [hkept n hn hnp] at hv ⊢
    obtain ⟨i, hi, hin, hj⟩ := h.reach n hn hv
    exact ⟨i, hi, hin, fun j hji => hmono _ (Nat.mod_lt _ (by omega)) (hj j hji)⟩
  · intro m hm n hn hv he
    have hmp := hne' m hv
    rw [hkept m hm hmp] at hv he
    by_cases hnp : n = p
    · rw [hnp, hfreed] at he
      exact absurd (Or.inr he) hv
    · rw [hkept n hn hnp] at he
      exact h.inj m hm n hn hv he

end Layout

end Probe
