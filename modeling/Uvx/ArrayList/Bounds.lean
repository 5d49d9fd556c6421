import Uvx.ArrayList.Sequence

/-!
# How large an array is, and where a pointer must not be put

`array_list_expand_internal` makes room for `size << 1` pointers or for `idx`, not for `idx + 1`. An
index from the double of the size on is written behind the end.
-/

namespace Uvx.ArrayList

variable {α : Type} {m : Allocator α} {arr arr₀ arr₁ : ArrayListT α} {freeFn : Bool} {xs : List (Option α)}
  {c c' i : ℕ} {idx : Int32} {s s' : Seq α} {op : Op α}

/-! ## The memory in use -/

/-- Half of the array is in use, unless it is as small as it gets. -/
def HalfFull (c : ℕ) (s : Seq α) : Prop := c = 32 ∨ c / 2 ≤ s.elems.length

theorem Seq.Puts.length_le {data : Option α} {r : Ret α} (h : s.Puts i data r s') :
    s.elems.length ≤ s'.elems.length := by
  rcases h with ⟨-, rfl⟩ | ⟨-, rfl⟩
  · show _ ≤ (putAt s.elems i data).length
    rw [length_putAt]
    exact le_max_left ..
  · exact le_rfl

theorem HalfFull.step {r : Ret α} (h : HalfFull c s) (hc : ∃ k, c = 32 * 2 ^ k)
    (hgrants : ∀ n < c, m.grants n) (hstep : s.Step (op, r) s') (hsize : Resizes m c s s' c' op) :
    HalfFull c' s' := by
  have hpos : 32 ≤ c := by
    obtain ⟨k, rfl⟩ := hc
    exact Nat.le_mul_of_pos_right 32 (Nat.two_pow_pos k)
  have hput : s.elems.length ≤ s'.elems.length → (c' = c ∨ c' = 2 * c ∧ c < s'.elems.length) →
      HalfFull c' s' := by
    unfold HalfFull at h ⊢
    omega
  have hsame : s'.elems = s.elems ∧ c' = c → HalfFull c' s' := by
    rintro ⟨hs, rfl⟩
    rwa [HalfFull, hs]
  cases op with
  | putIdx idx data => exact hput (Seq.Puts.length_le hstep) hsize
  | add data => exact hput (Seq.Puts.length_le hstep) hsize
  | delIdx idx =>
    rcases hsize with hkept | ⟨hlength, rfl⟩
    · exact hsame hkept
    · obtain ⟨k, hk⟩ := hc
      have hhalf := hgrants (c / 2) (by omega)
      unfold HalfFull at h ⊢
      simp only [hhalf, and_true]
      split_ifs with hshrink
      · right
        omega
      · omega
  | getIdx idx => exact hsame hsize
  | length => exact hsame hsize

/-- **Memory follows the length.** In every run whose requests for less memory are granted the array
has no more than 32 cells, or twice as many as there are pointers. -/
theorem size_le_of_grants {g : Bool} {as : List (Op α × Ret α)}
    (hnew : arrayListNew g m freeFn = some arr₀)
    (h : Exec (Guarded StepGrants fun arr a => a.1.Fits arr) arr₀ as arr) :
    (∃ k : ℕ, arr.size.toInt = 32 * 2 ^ k) ∧ arr.array.length = arr.size.toInt ∧
      arr.size.toInt ≤ max 32 (2 * arr.length.toInt) := by
  obtain ⟨hrefines, hfree⟩ := refines_new hnew
  have hreached : ∃ s c, Reached freeFn as arr s c ∧ HalfFull c s := by
    refine h.invariant_actions (I := fun as arr => ∃ s c, Reached freeFn as arr s c ∧ HalfFull c s)
      ⟨_, _, ⟨hrefines, .nil, hfree⟩, .inl rfl⟩ ?_
    rintro as arr ⟨op, r⟩ arr' ⟨s, c, hs, hhalf⟩ ⟨⟨m, hgrants, hrun⟩, hfits⟩
    obtain ⟨arr'', r', s', c', hruns⟩ := hs.refines.run hfits m
    obtain ⟨rfl, rfl⟩ := Prod.mk.inj (Except.ok.inj (hrun.symm.trans hruns.run))
    refine ⟨s', c', ⟨hruns.refines, .snoc hs.exec hruns.step, hruns.freeFn.trans hs.freeFn⟩, ?_⟩
    refine hhalf.step hs.refines.holds.size_eq (fun n hn => hgrants n ?_) hruns.step hruns.resizes
    rw [hs.refines.holds.size]
    exact Int.ofNat_lt.mpr hn
  obtain ⟨s, c, hs, hhalf⟩ := hreached
  have hholds := hs.refines.holds
  obtain ⟨k, hk⟩ := hholds.size_eq
  refine ⟨⟨k, ?_⟩, ?_, ?_⟩
  · rw [hholds.size, hk, Nat.cast_mul, Nat.cast_pow]
    rfl
  · rw [hholds.length_array, hholds.size]
  · rw [hholds.size, hholds.length]
    unfold HalfFull at hhalf
    omega

theorem size_le_of_grants_gap :
    (∃ k : ℕ, gapArray.size.toInt = 32 * 2 ^ k) ∧
      gapArray.array.length = gapArray.size.toInt ∧
      gapArray.size.toInt ≤ max 32 (2 * gapArray.length.toInt) :=
  size_le_of_grants (g := true) (m := ⟨fun _ => true, fun _ => some 9⟩) rfl exec_gap

/-! ## Where a call faults -/

theorem putIdx_of_cell_error (hexp : arrayListExpandInternal m arr idx = .ok (arr₁, 0))
    (hcell : cell arr₁ idx = .error .outOfBounds) (data : Option α) :
    arrayListPutIdx m arr idx data = .error .outOfBounds := by
  rw [arrayListPutIdx, hexp]
  show (do
    let p ← cell arr₁ idx
    _) = _
  rw [hcell]
  rfl

theorem putIdx_of_neg (h : Holds arr xs c) (hneg : idx < 0) (m : Allocator α) (data : Option α) :
    arrayListPutIdx m arr idx data = .error .outOfBounds := by
  have hsize : idx < arr.size := by
    rw [Int32.lt_iff_toInt_lt, Int32.toInt_zero] at hneg
    rw [Int32.lt_iff_toInt_lt, h.size]
    omega
  have hexp : arrayListExpandInternal m arr idx = .ok (arr, 0) := by
    rw [arrayListExpandInternal, if_pos hsize]
    rfl
  exact putIdx_of_cell_error hexp (cell_of_neg hneg) data

/-- The new array ends before the index. -/
theorem putIdx_of_grownSize_le (h : Holds arr xs c) (hi : idx.toInt = i) (hle : c ≤ i)
    (hend : grownSize c i ≤ i) (hgrants : m.grants (grownSize c i)) (data : Option α) :
    arrayListPutIdx m arr idx data = .error .outOfBounds := by
  have hexp := expandInternal_of_le (m := m) h hi hle
  rw [if_pos hgrants] at hexp
  refine putIdx_of_cell_error hexp (cell_of_le hi ?_) data
  have hlength := h.length_le
  rw [resized, toInt_newSize h hi, Int.toNat_natCast, List.length_append, List.length_replicate]
  omega

theorem putIdx_of_not_freeFn (h : Holds arr xs c) (hi : idx.toInt = i) (hlt : i < c)
    (hsome : (Cell xs i).isSome) (hfree : ¬ arr.freeFn) (m : Allocator α) (data : Option α) :
    arrayListPutIdx m arr idx data = .error .nullPointer := by
  have hcell : cell arr idx = .ok (Cell xs i) := cell_of_getElem? hi (h.getElem?_array hlt)
  simp only [arrayListPutIdx, expandInternal_of_lt h hi hlt, hcell, freeOld, hsome, callFree, hfree,
    bind, Except.bind, ne_eq, not_true_eq_false, if_false, if_true]
  rfl

/-- The first index for which the array is not grown far enough. -/
def reach (size : ℤ) : ℤ := if size < 2 ^ 30 then 2 * size else size

theorem grownSize_le_iff (hle : c ≤ i) : grownSize c i ≤ i ↔ reach c ≤ i := by
  rw [grownSize, reach]
  split_ifs <;> omega

theorem grownSize_of_reach_le (hle : c ≤ i) (h : reach c ≤ i) : grownSize c i = i := by
  have hge := (grownSize_le_iff hle).mpr h
  rw [grownSize] at hge ⊢
  split_ifs at hge ⊢ <;> omega

/-- A pointer that is put faults for one of two reasons only. -/
theorem Holds.putIdx_faults (h : Holds arr xs c) (m : Allocator α) (idx : Int32)
    (data : Option α) :
    (arrayListPutIdx m arr idx data = .error .outOfBounds ↔
      idx < 0 ∨ reach arr.size.toInt ≤ idx.toInt ∧ m.grants idx.toInt.toNat) ∧
    (arrayListPutIdx m arr idx data = .error .nullPointer ↔
      (∃ a, arrayListGetIdx arr idx = .ok (some a)) ∧ ¬ arr.freeFn) := by
  by_cases hneg : idx < 0
  · have hget : arrayListGetIdx arr idx = .error .outOfBounds := by
      have hlength : ¬ arr.length ≤ idx := by
        rw [Int32.lt_iff_toInt_lt, Int32.toInt_zero] at hneg
        rw [Int32.le_iff_toInt_le, h.length]
        omega
      rw [arrayListGetIdx, if_neg hlength, cell_of_neg hneg]
    simp [putIdx_of_neg h hneg m data, hget, hneg]
  obtain ⟨i, hi⟩ : ∃ i : ℕ, idx.toInt = i := exists_toInt_eq (Int32.not_lt.mp hneg)
  simp only [hneg, false_or, h.size, hi, Int.toNat_natCast, getIdx_eq h hi, Except.ok.injEq,
    ← Option.isSome_iff_exists]
  by_cases hlt : i < c
  · -- the pointer replaces another
    have hreach : ¬ reach c ≤ i := by
      rw [reach]
      split_ifs <;> omega
    by_cases hnull : (Cell xs i).isSome ∧ ¬ arr.freeFn
    · simp [putIdx_of_not_freeFn h hi hlt hnull.1 hnull.2 m data, hreach, hnull]
    · obtain ⟨arr', hok, -⟩ := putIdx_of_lt h hi hlt (by tauto) m data
      simp only [hok, hreach, hnull, false_and, reduceCtorEq, and_self]
  · have hle := not_lt.mp hlt
    have hnull : Cell xs i = none := by
      rw [Cell, List.getElem?_eq_none (h.length_le.trans hle)]
      rfl
    by_cases hreach : reach c ≤ i
    · have hsize := grownSize_of_reach_le hle hreach
      by_cases hgrants : m.grants i
      · rw [putIdx_of_grownSize_le h hi hle hsize.le (by rwa [hsize])]
        simp [hreach, hgrants, hnull]
      · rw [putIdx_of_not_grants h hi hle (by rwa [hsize])]
        simp [hgrants, hnull]
    · have hdouble : i < 2 * c ∧ c < 2 ^ 30 := by
        rw [reach] at hreach
        split_ifs at hreach <;> omega
      by_cases hgrants : m.grants (2 * c)
      · obtain ⟨arr', hok, -⟩ := putIdx_of_grants h hi hle hdouble.1 hdouble.2 hgrants data
        simp [hok, hreach, hnull]
      · rw [putIdx_of_not_grants h hi hle (by rwa [grownSize_of_lt hdouble.2 hdouble.1])]
        simp [hreach, hnull]

/-- **Exactly when a put faults.** In every array that a run reaches, a pointer is written outside the
array where its index is negative or is at least the double of the size and is granted, and `free_fn`
is called without being there where the pointer replaces another. -/
theorem putIdx_error_iff {g : Bool} {as : List (Op α × Ret α)}
    (hnew : arrayListNew g m freeFn = some arr₀)
    (h : Exec (Guarded Step fun arr a => a.1.Fits arr) arr₀ as arr) (m' : Allocator α) (idx : Int32)
    (data : Option α) :
    (arrayListPutIdx m' arr idx data = .error .outOfBounds ↔
      idx < 0 ∨ reach arr.size.toInt ≤ idx.toInt ∧ m'.grants idx.toInt.toNat) ∧
    (arrayListPutIdx m' arr idx data = .error .nullPointer ↔
      (∃ a, arrayListGetIdx arr idx = .ok (some a)) ∧ freeFn = false) := by
  obtain ⟨s, c, hs⟩ := exists_reached hnew h
  have herror := hs.refines.holds.putIdx_faults m' idx data
  rwa [hs.freeFn, Bool.not_eq_true] at herror

theorem putIdx_error_iff_gap :
    (arrayListPutIdx ⟨fun _ => true, fun _ => none⟩ gapArray 128 (some 8) = .error .outOfBounds ↔
      (128 : Int32) < 0 ∨ reach gapArray.size.toInt ≤ (128 : Int32).toInt ∧ true) ∧
    (arrayListPutIdx ⟨fun _ => true, fun _ => none⟩ gapArray 128 (some 8) = .error .nullPointer ↔
      (∃ a, arrayListGetIdx gapArray 128 = .ok (some a)) ∧ true = false) :=
  putIdx_error_iff (g := true) (m := ⟨fun _ => true, fun _ => some 9⟩) rfl exec_gap_step _ 128 _

end Uvx.ArrayList
