import Uvx.ArrayList.Cells

/-!
# What the calls do to the list
-/

namespace Uvx.ArrayList

variable {α : Type} {m : Allocator α} {arr arr₁ arr' : ArrayListT α} {xs ys u v w : List (Option α)}
  {c i : ℕ} {idx : Int32} {p data : Option α}

/-- The list with `p` at index `i`, which is filled up with null pointers as far as `i`. -/
def putAt (xs : List (Option α)) (i : ℕ) (p : Option α) : List (Option α) :=
  if i < xs.length then xs.set i p else xs ++ List.replicate (i - xs.length) none ++ [p]

/-- A pointer that is replaced is released unless it is null. -/
def released (p : Option α) : List (Option α) := if p.isSome then [p] else []

/-- The array holds `xs` after a call of `free_fn` for each of `fs`. -/
structure Becomes (arr arr' : ArrayListT α) (xs : List (Option α)) (c : ℕ)
    (fs : List (Option α)) : Prop where
  holds : Holds arr' xs c
  freed : arr'.freed = arr.freed ++ fs
  freeFn : arr'.freeFn = arr.freeFn

/-! ## `array_list_put_idx` -/

theorem length_putAt (xs : List (Option α)) (i : ℕ) (p : Option α) :
    (putAt xs i p).length = max xs.length (i + 1) := by
  rw [putAt]
  split_ifs with h
  · rw [List.length_set, max_eq_left h]
  · rw [List.length_append, List.length_append, List.length_replicate, List.length_singleton,
      max_eq_right (by omega)]
    omega

theorem set_append_replicate (hi : i < c) (hle : xs.length ≤ c) (p : Option α) :
    (xs ++ List.replicate (c - xs.length) none).set i p =
      putAt xs i p ++ List.replicate (c - (putAt xs i p).length) none := by
  rw [length_putAt, putAt]
  split_ifs with h
  · rw [List.set_append_left i p h, max_eq_left h]
  · have hlt : i - xs.length < (List.replicate (c - xs.length) (none : Option α)).length := by
      rw [List.length_replicate]
      omega
    rw [List.set_append_right i p (not_lt.mp h), List.set_eq_take_append_cons_drop, if_pos hlt,
      List.take_replicate, List.drop_replicate, min_eq_left (by omega), max_eq_right (by omega),
      List.append_assoc, List.append_assoc, List.singleton_append]
    congr 4
    omega

/-- What is behind the expansion. -/
theorem putIdx_of_expand (hexp : arrayListExpandInternal m arr idx = .ok (arr₁, 0))
    (h : Holds arr₁ xs c) (hi : idx.toInt = i) (hlt : i < c)
    (hfree : (Cell xs i).isSome → arr₁.freeFn) (data : Option α) :
    ∃ arr', arrayListPutIdx m arr idx data = .ok (arr', 0) ∧
      Becomes arr₁ arr' (putAt xs i data) c (released (Cell xs i)) := by
  have hc := h.size_lt
  have hcell : cell arr₁ idx = .ok (Cell xs i) := cell_of_getElem? hi (h.getElem?_array hlt)
  have hcall : freeOld arr₁ (Cell xs i) =
      .ok { arr₁ with freed := arr₁.freed ++ released (Cell xs i) } := by
    rw [freeOld, released]
    split_ifs with hsome
    · exact callFree_of_freeFn (hfree hsome) _
    · rw [List.append_nil]
      rfl
  have hset : setCell { arr₁ with freed := arr₁.freed ++ released (Cell xs i) } idx data =
      .ok { arr₁ with
        freed := arr₁.freed ++ released (Cell xs i)
        array := arr₁.array.set i data } :=
    setCell_of_lt hi (by rw [h.length_array]; exact hlt) data
  have hlength : (if arr₁.length ≤ idx then idx + 1 else arr₁.length).toInt =
      (putAt xs i data).length := by
    have hnext : (idx + 1).toInt = (i + 1 : ℕ) := by
      rw [Int32.toInt_add, hi, Int32.toInt_one, Int.bmod_eq_of_le (by omega) (by omega),
        Nat.cast_add_one]
    simp only [Int32.le_iff_toInt_le, h.length, hi, length_putAt]
    split_ifs with hle
    · rw [hnext, max_eq_right (by omega)]
    · rw [h.length, max_eq_left (by omega)]
  refine ⟨{ arr₁ with
      array := arr₁.array.set i data
      length := if arr₁.length ≤ idx then idx + 1 else arr₁.length
      freed := arr₁.freed ++ released (Cell xs i) }, ?_, ⟨?_, hlength, h.size, ?_, h.size_eq⟩, rfl, rfl⟩
  · simp only [arrayListPutIdx, hexp, hcell, hcall, hset, bind, Except.bind, pure, Except.pure,
      ne_eq, not_true_eq_false, if_false]
    split_ifs <;> rfl
  · show arr₁.array.set i data = _
    rw [h.array, set_append_replicate hlt h.length_le]
  · rw [length_putAt]
    exact max_le h.length_le hlt

theorem putIdx_of_lt (h : Holds arr xs c) (hi : idx.toInt = i) (hlt : i < c)
    (hfree : (Cell xs i).isSome → arr.freeFn) (m : Allocator α) (data : Option α) :
    ∃ arr', arrayListPutIdx m arr idx data = .ok (arr', 0) ∧
      Becomes arr arr' (putAt xs i data) c (released (Cell xs i)) :=
  putIdx_of_expand (expandInternal_of_lt h hi hlt) h hi hlt hfree data

theorem grownSize_of_lt (hc : c < 2 ^ 30) (hi : i < 2 * c) : grownSize c i = 2 * c := by
  rw [grownSize, if_pos hc, max_eq_left hi.le]

/-- The array is doubled for the pointer. -/
theorem putIdx_of_grants (h : Holds arr xs c) (hi : idx.toInt = i) (hle : c ≤ i) (hlt : i < 2 * c)
    (hc : c < 2 ^ 30) (hgrants : m.grants (2 * c)) (data : Option α) :
    ∃ arr', arrayListPutIdx m arr idx data = .ok (arr', 0) ∧
      Becomes arr arr' (putAt xs i data) (2 * c) [] := by
  have hnew := toInt_newSize h hi
  have hexp := expandInternal_of_le (m := m) h hi hle
  rw [grownSize_of_lt hc hlt] at hnew hexp
  rw [if_pos hgrants] at hexp
  have hdouble : ∃ k, 2 * c = 32 * 2 ^ k := by
    obtain ⟨k, rfl⟩ := h.size_eq
    exact ⟨k + 1, by ring⟩
  have hnull : Cell xs i = none := by
    rw [Cell, List.getElem?_eq_none (h.length_le.trans hle)]
    rfl
  have hholds := h.resized hnew (h.length_le.trans (by omega)) hdouble
  obtain ⟨arr', hok, hbecomes⟩ := putIdx_of_expand hexp hholds hi hlt (by simp [hnull]) data
  refine ⟨arr', hok, hbecomes.holds, ?_, hbecomes.freeFn⟩
  rw [hbecomes.freed, hnull]
  rfl

/-- Without memory the call fails and nothing changes. -/
theorem putIdx_of_not_grants (h : Holds arr xs c) (hi : idx.toInt = i) (hle : c ≤ i)
    (hgrants : ¬ m.grants (grownSize c i)) (data : Option α) :
    arrayListPutIdx m arr idx data = .ok (arr, -1) := by
  have hexp := expandInternal_of_le (m := m) h hi hle
  rw [if_neg hgrants] at hexp
  rw [arrayListPutIdx, hexp]
  rfl

/-! ## `array_list_del_idx` -/

/-- Each turn of the loop copies the pointer behind. -/
theorem foldlM_moveDown (harr : arr.array = u ++ p :: v ++ w)
    (hlt : u.length + v.length + 1 < 2 ^ 31) :
    ∃ q, (List.range' u.length v.length).foldlM moveCell arr =
      .ok { arr with array := u ++ v ++ q :: w } := by
  induction v generalizing arr u p with
  | nil =>
    refine ⟨p, ?_⟩
    rw [List.append_nil, ← List.singleton_append, ← List.append_assoc, ← harr]
    rfl
  | cons y v ih =>
    rw [List.length_cons] at hlt
    have hcell : cell arr (.ofNat (u.length + 1)) = .ok y := by
      refine cell_of_getElem? (toInt_ofNat_of_lt (by omega)) ?_
      rw [harr, List.append_assoc, List.getElem?_append_right (by omega), Nat.add_sub_cancel_left]
      rfl
    have hturn : moveCell arr u.length = .ok { arr with array := (u ++ [y]) ++ y :: v ++ w } := by
      have hlength : u.length < arr.array.length := by
        rw [harr]
        simp
      simp only [moveCell, hcell, bind, Except.bind]
      rw [setCell_of_lt (toInt_ofNat_of_lt (by omega)) hlength, harr]
      simp
    have hlength : (u ++ [y]).length = u.length + 1 := by
      rw [List.length_append, List.length_singleton]
    have hnext : ({ arr with array := (u ++ [y]) ++ y :: v ++ w } : ArrayListT α).array =
        (u ++ [y]) ++ y :: v ++ w := rfl
    obtain ⟨q, hq⟩ := ih hnext (by omega)
    refine ⟨q, ?_⟩
    rw [hlength] at hq
    rw [List.length_cons, List.range'_succ, List.foldlM_cons, hturn, List.append_cons u y v]
    exact hq

/-- Halving the array. -/
theorem checkAndFree_eq (h : Holds arr xs c) (m : Allocator α) :
    checkAndFreeArrayMemary m arr =
      if 32 < c ∧ xs.length < c / 2 ∧ m.grants (c / 2) then .ok (resized arr xs (arr.size >>> 1))
      else .ok arr := by
  have hhalf : (arr.size >>> 1).toInt = (c / 2 : ℕ) := by
    rw [toInt_shiftRight_one, h.size, Int.natCast_ediv]
    rfl
  have hfull : arr.size = arr.length ↔ c = xs.length := by
    rw [← Int32.toInt_inj, h.size, h.length, Nat.cast_inj]
  have hdefault : arrayListDefaultSize.toInt = (32 : ℕ) := rfl
  have hzero := zero_realloc (m := m) h h.length hhalf le_rfl h.length_le
  simp only [checkAndFreeArrayMemary, hfull, Int32.le_iff_toInt_le, hhalf, h.size, h.length,
    hdefault, Nat.cast_le]
  by_cases hsmall : c ≤ 32 ∨ c = xs.length
  · rw [if_pos hsmall, if_neg (by omega)]
    rfl
  · rw [if_neg hsmall]
    by_cases hlong : c / 2 ≤ xs.length
    · rw [if_pos hlong, if_neg (by omega)]
      rfl
    · rw [if_neg hlong, realloc_of_nat hhalf]
      by_cases hgrants : m.grants (c / 2)
      · rw [if_pos hgrants, if_pos ⟨by omega, by omega, hgrants⟩]
        simp only [hzero (by omega), bind, Except.bind, pure, Except.pure, resized, hhalf,
          Int.toNat_natCast]
      · rw [if_neg hgrants, if_neg (fun hall => hgrants hall.2.2)]
        rfl

theorem Holds.checkAndFree (h : Holds arr xs c) (m : Allocator α) :
    ∃ arr' c', checkAndFreeArrayMemary m arr = .ok arr' ∧ Becomes arr arr' xs c' [] ∧
      c' = if 32 < c ∧ xs.length < c / 2 ∧ m.grants (c / 2) then c / 2 else c := by
  rw [checkAndFree_eq h m]
  split_ifs with hshrink
  · have hhalf : (arr.size >>> 1).toInt = (c / 2 : ℕ) := by
      rw [toInt_shiftRight_one, h.size, Int.natCast_ediv]
      rfl
    have heq : ∃ k, c / 2 = 32 * 2 ^ k := by
      obtain ⟨k, rfl⟩ := h.size_eq
      cases k with
      | zero => exact absurd hshrink.1 (by decide)
      | succ k => exact ⟨k, by rw [pow_succ]; omega⟩
    exact ⟨_, _, rfl, ⟨h.resized hhalf hshrink.2.1.le heq, (List.append_nil _).symm, rfl⟩, rfl⟩
  · exact ⟨_, _, rfl, ⟨h, (List.append_nil _).symm, rfl⟩, rfl⟩

/-- The pointer at `idx` is released and taken out. -/
theorem delIdx_of_lt (h : Holds arr xs c) (hi : idx.toInt = i) (hlt : i < xs.length)
    (hfree : arr.freeFn) (m : Allocator α) :
    ∃ arr' c', arrayListDelIdx m arr idx = .ok (arr', 1) ∧
      Becomes arr arr' (xs.eraseIdx i) c' [Cell xs i] ∧
      c' = if 32 < c ∧ (xs.eraseIdx i).length < c / 2 ∧ m.grants (c / 2) then c / 2 else c := by
  have hc := h.size_lt
  have hle := h.length_le
  have hlength := h.length
  have hcell : cell arr idx = .ok (Cell xs i) := cell_of_getElem? hi (h.getElem?_array (by omega))
  have hrange : ¬ (arr.length ≤ idx ∨ idx < 0) := by
    rw [Int32.le_iff_toInt_le, Int32.lt_iff_toInt_lt, hlength, hi, Int32.toInt_zero]
    omega
  have hdec : (arr.length - 1).toInt = (xs.length - 1 : ℕ) :=
    toInt_sub_of_le hlength Int32.toInt_one (by omega)
  have hcount : (arr.length - 1 - idx).toInt = (xs.length - 1 - i : ℕ) :=
    toInt_sub_of_le hdec hi (by omega)
  -- the pointers behind it move down, and the last cell is cleared
  obtain ⟨arr₁, harr₁⟩ : ∃ arr₁ : ArrayListT α, arr₁ =
      { arr with freed := arr.freed ++ [Cell xs i], length := arr.length - 1 } := ⟨_, rfl⟩
  have hmove : ∃ q, moveDown arr₁ idx = .ok { arr₁ with
      array := xs.eraseIdx i ++ q :: List.replicate (c - xs.length) none } := by
    have hsplit : xs = xs.take i ++ xs[i] :: xs.drop (i + 1) := by
      rw [List.cons_getElem_drop_succ, List.take_append_drop]
    have harray : arr₁.array =
        xs.take i ++ xs[i] :: xs.drop (i + 1) ++ List.replicate (c - xs.length) none := by
      rw [← hsplit, harr₁]
      exact h.array
    have htake : (xs.take i).length = i := List.length_take_of_le hlt.le
    have hdrop : (xs.drop (i + 1)).length = xs.length - 1 - i := by
      rw [List.length_drop]
      omega
    obtain ⟨q, hq⟩ := foldlM_moveDown harray (by omega)
    refine ⟨q, ?_⟩
    rw [htake, hdrop, ← List.eraseIdx_eq_take_drop_succ] at hq
    rw [moveDown, hi, harr₁, hcount, Int.toNat_natCast, Int.toNat_natCast, ← harr₁]
    exact hq
  obtain ⟨q, hmove⟩ := hmove
  have herase : (xs.eraseIdx i).length = xs.length - 1 := List.length_eraseIdx_of_lt hlt
  have hset : setCell { arr₁ with
      array := xs.eraseIdx i ++ q :: List.replicate (c - xs.length) none } arr₁.length none =
      .ok { arr₁ with
        array := xs.eraseIdx i ++ List.replicate (c - (xs.eraseIdx i).length) none } := by
    have hspare : c - (xs.eraseIdx i).length = c - xs.length + 1 := by omega
    rw [setCell_of_lt (i := (xs.eraseIdx i).length) (by rw [harr₁, herase]; exact hdec) (by simp),
      hspare, List.set_append_right _ _ le_rfl, Nat.sub_self]
    rfl
  have hholds : Holds { arr₁ with
      array := xs.eraseIdx i ++ List.replicate (c - (xs.eraseIdx i).length) none }
      (xs.eraseIdx i) c := by
    rw [harr₁]
    refine ⟨rfl, ?_, h.size, by omega, h.size_eq⟩
    rw [herase]
    exact hdec
  obtain ⟨arr', c', hok, hbecomes, hc'⟩ := hholds.checkAndFree m
  refine ⟨arr', c', ?_, ⟨hbecomes.holds, ?_, ?_⟩, hc'⟩
  · simp only [arrayListDelIdx, if_neg hrange, hcell, callFree_of_freeFn hfree, ← harr₁, hmove, hset,
      hok, bind, Except.bind, pure, Except.pure]
  · rw [hbecomes.freed, List.append_nil, harr₁]
  · rw [hbecomes.freeFn, harr₁]

theorem delIdx_of_notMem (h : Holds arr xs c) (hidx : idx.toInt < 0 ∨ xs.length ≤ idx.toInt)
    (m : Allocator α) : arrayListDelIdx m arr idx = .ok (arr, 0) := by
  have hrange : arr.length ≤ idx ∨ idx < 0 := by
    rw [Int32.le_iff_toInt_le, Int32.lt_iff_toInt_lt, h.length, Int32.toInt_zero]
    exact hidx.symm
  rw [arrayListDelIdx, if_pos hrange]
  rfl

/-! ## Reading and freeing -/

theorem getIdx_eq (h : Holds arr xs c) (hi : idx.toInt = i) :
    arrayListGetIdx arr idx = .ok (Cell xs i) := by
  have hle := h.length_le
  have hidx : arr.length ≤ idx ↔ xs.length ≤ i := by
    rw [Int32.le_iff_toInt_le, h.length, hi, Nat.cast_le]
  by_cases hout : xs.length ≤ i
  · rw [arrayListGetIdx, if_pos (hidx.mpr hout), Cell, List.getElem?_eq_none hout]
    rfl
  · rw [arrayListGetIdx, if_neg (mt hidx.mp hout)]
    exact cell_of_getElem? hi (h.getElem?_array (by omega))

theorem freeCell_eq (hp : arr.array[i]? = some p) (hi : i < 2 ^ 31) (hfree : arr.freeFn) :
    freeCell arr i = .ok { arr with freed := arr.freed ++ released p } := by
  have hcell := cell_of_getElem? (toInt_ofNat_of_lt hi) hp
  simp only [freeCell, hcell, released, bind, Except.bind]
  by_cases hsome : p.isSome
  · rw [if_pos ⟨hsome, hfree⟩, if_pos hsome]
    exact callFree_of_freeFn hfree p
  · rw [if_neg fun h => hsome h.1, if_neg hsome, List.append_nil]
    rfl

theorem foldlM_freeCell (h : Holds arr xs c) (hfree : arr.freeFn) (hi : i ≤ xs.length) :
    (List.range i).foldlM freeCell arr =
      .ok { arr with freed := arr.freed ++ (xs.take i).flatMap released } := by
  have hc := h.size_lt
  have hle := h.length_le
  induction i with
  | zero =>
    rw [List.take_zero, List.flatMap_nil, List.append_nil]
    rfl
  | succ i ih =>
    have hp : arr.array[i]? = some xs[i] := by
      rw [h.array, List.getElem?_append_left hi, List.getElem?_eq_getElem hi]
    have hturn : freeCell { arr with freed := arr.freed ++ (xs.take i).flatMap released } i =
        .ok { arr with freed := arr.freed ++ (xs.take i).flatMap released ++ released xs[i] } :=
      freeCell_eq hp (by omega) hfree
    rw [List.range_succ, List.foldlM_append, ih (by omega), List.take_succ_eq_append_getElem hi,
      List.flatMap_append, List.flatMap_singleton, ← List.append_assoc]
    show [i].foldlM freeCell { arr with freed := arr.freed ++ (xs.take i).flatMap released } = _
    rw [List.foldlM_cons, hturn]
    rfl

theorem free_eq (h : Holds arr xs c) (hfree : arr.freeFn) :
    arrayListFree arr = .ok (arr.freed ++ xs.flatMap released) := by
  have hloop := foldlM_freeCell h hfree le_rfl
  rw [List.take_length] at hloop
  rw [arrayListFree, h.length, Int.toNat_natCast, hloop]
  rfl

end Uvx.ArrayList
