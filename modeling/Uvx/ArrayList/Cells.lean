import Mathlib
import Uvx.ArrayList.Defs

/-!
# The cells of an array

The cells up to `length` hold the list, and those behind it are null. `realloc` leaves what it adds
undefined; both calls of `memset` start between the end of the list and the end of the old array, so
one lemma covers growing and shrinking (`write?_realloc`). The array has 32 cells or a doubling of
them.
-/

namespace Uvx.ArrayList

variable {α : Type} {m : Allocator α} {arr arr' : ArrayListT α} {xs ys u v : List (Option α)}
  {c i f s : ℕ} {idx j : Int32} {p q data : Option α}

/-- The array of `c` cells holds the pointers `xs`. -/
structure Holds (arr : ArrayListT α) (xs : List (Option α)) (c : ℕ) : Prop where
  array : arr.array = xs ++ List.replicate (c - xs.length) none
  length : arr.length.toInt = xs.length
  size : arr.size.toInt = c
  length_le : xs.length ≤ c
  size_eq : ∃ k, c = 32 * 2 ^ k

/-! ## Numbers -/

theorem toInt_shiftLeft_one (s : Int32) : (s <<< 1).toInt = (2 * s.toInt).bmod (2 ^ 32) := by
  have h : s <<< 1 = s + s := by
    rw [← Int32.mul_two]
    apply Int32.toBitVec_inj.mp
    rw [Int32.toBitVec_mul, Int32.toBitVec_shiftLeft]
    exact BitVec.shiftLeft_eq_mul_twoPow s.toBitVec 1
  rw [h, Int32.toInt_add, two_mul]

theorem toInt_shiftRight_one (s : Int32) : (s >>> 1).toInt = s.toInt / 2 := by
  show (s.toBitVec.sshiftRight 1).toInt = s.toInt / 2
  rw [BitVec.toInt_sshiftRight, Int.shiftRight_eq_div_pow]
  rfl

theorem toInt_ofNat_of_lt (h : i < 2 ^ 31) : (Int32.ofNat i).toInt = i := Int32.toInt_ofNat_of_lt h

theorem toInt_sub_of_le {a b : Int32} {x y : ℕ} (ha : a.toInt = x) (hb : b.toInt = y) (h : y ≤ x) :
    (a - b).toInt = (x - y : ℕ) := by
  have hlt := a.toInt_lt
  rw [Int32.toInt_sub, ha, hb, Int.bmod_eq_of_le (by omega) (by omega)]
  omega

theorem Holds.size_ge (h : Holds arr xs c) : 32 ≤ c := by
  obtain ⟨k, rfl⟩ := h.size_eq
  exact Nat.le_mul_of_pos_right 32 (Nat.two_pow_pos k)

theorem Holds.size_lt (h : Holds arr xs c) : c < 2 ^ 31 := by
  have hlt := arr.size.toInt_lt
  rw [h.size] at hlt
  omega

/-- The size that `array_list_expand_internal` chooses for the index `i` behind the array. From
2^30 on `size << 1` is negative. -/
def grownSize (size i : ℕ) : ℕ := if size < 2 ^ 30 then max (2 * size) i else i

theorem le_grownSize (h : s ≤ i) : s ≤ grownSize s i := by
  rw [grownSize]
  split_ifs
  · exact h.trans (le_max_right ..)
  · exact h

/-- The new size as the code computes it. -/
theorem toInt_newSize (h : Holds arr xs c) (hi : idx.toInt = i) :
    (if arr.size <<< 1 > idx then arr.size <<< 1 else idx).toInt =
      (grownSize c i : ℕ) := by
  have hlt := h.size_lt
  have hge := h.size_ge
  have hilt := idx.toInt_lt
  have hdouble := toInt_shiftLeft_one arr.size
  rw [h.size] at hdouble
  simp only [gt_iff_lt, Int32.lt_iff_toInt_lt, hi]
  rw [grownSize]
  by_cases hsmall : c < 2 ^ 30
  · rw [Int.bmod_eq_of_le (by omega) (by omega)] at hdouble
    rw [if_pos hsmall]
    split_ifs with hgt
    · rw [hdouble, max_eq_left (by omega)]
      push_cast
      rfl
    · rw [hi, max_eq_right (by omega)]
  · -- the doubled size is negative
    have hneg : (arr.size <<< 1).toInt < 0 := by
      rw [hdouble, Int.bmod_def]
      omega
    rw [if_neg hsmall, if_neg (by omega), hi]

/-! ## Single cells -/

theorem cell_of_getElem? (hi : idx.toInt = i) (hp : arr.array[i]? = some p) :
    cell arr idx = .ok p := by
  have hneg : ¬ idx < 0 := by
    rw [Int32.lt_iff_toInt_lt, hi, Int32.toInt_zero]
    omega
  rw [cell, if_neg hneg, hi, Int.toNat_natCast, hp]
  rfl

theorem cell_of_neg (hi : idx < 0) : cell arr idx = .error .outOfBounds := by
  rw [cell, if_pos hi]
  rfl

theorem cell_of_le (hi : idx.toInt = i) (hle : arr.array.length ≤ i) :
    cell arr idx = .error .outOfBounds := by
  rw [cell, hi, Int.toNat_natCast, List.getElem?_eq_none hle]
  split_ifs <;> rfl

theorem setCell_of_lt (hi : idx.toInt = i) (hlt : i < arr.array.length) (p : Option α) :
    setCell arr idx p = .ok { arr with array := arr.array.set i p } := by
  have hnonneg : 0 ≤ idx := by
    rw [Int32.le_iff_toInt_le, hi, Int32.toInt_zero]
    omega
  rw [setCell, if_pos ⟨hnonneg, by rwa [hi, Int.toNat_natCast]⟩, hi, Int.toNat_natCast]
  rfl

theorem callFree_of_freeFn (h : arr.freeFn) (p : Option α) :
    callFree arr p = .ok { arr with freed := arr.freed ++ [p] } := if_pos h

/-- What the cell `i` holds, which is null behind the list. -/
def Cell (xs : List (Option α)) (i : ℕ) : Option α := xs[i]?.join

theorem Holds.getElem?_array (h : Holds arr xs c) (hi : i < c) :
    arr.array[i]? = some (Cell xs i) := by
  rw [h.array, Cell, List.getElem?_append]
  split_ifs with hlt
  · rw [List.getElem?_eq_getElem hlt]
    rfl
  · rw [List.getElem?_eq_none (not_lt.mp hlt), List.getElem?_replicate, if_pos (by omega)]
    rfl

theorem Holds.length_array (h : Holds arr xs c) : arr.array.length = c := by
  have hle := h.length_le
  rw [h.array, List.length_append, List.length_replicate]
  omega

/-! ## Another allocation -/

/-- The list survives `realloc`, and `memset` clears what is behind it. -/
theorem write?_realloc (fresh : ℕ → Option α) (hf : xs.length ≤ f) (hc : f ≤ c) (hs : f ≤ s) :
    Block.write? (Block.realloc fresh (xs ++ List.replicate (c - xs.length) none) s) f
        (List.replicate (s - f) none) = some (xs ++ List.replicate (s - xs.length) none) := by
  have hlength := Block.length_realloc fresh (xs ++ List.replicate (c - xs.length) none) s
  have htake : (xs ++ List.replicate (c - xs.length) (none : Option α)).take f =
      xs ++ List.replicate (f - xs.length) none := by
    rw [List.take_append, List.take_of_length_le hf, List.take_replicate, min_eq_left (by omega)]
  rw [Block.write?_of_le (by rw [hlength, List.length_replicate]; omega),
    Block.take_realloc (by rw [List.length_append, List.length_replicate]; omega) hs, htake,
    List.length_replicate, List.drop_of_length_le (by omega), List.append_nil, List.append_assoc,
    List.replicate_append_replicate]
  congr 3
  omega

theorem realloc_of_nat {x : Int32} (hx : x.toInt = s) :
    realloc m arr x = if m.grants s then some (Block.realloc m.fresh arr.array s) else none := by
  have hnonneg : 0 ≤ x := by
    rw [Int32.le_iff_toInt_le, hx, Int32.toInt_zero]
    omega
  simp only [realloc, hnonneg, true_and, hx, Int.toNat_natCast]

theorem zero_of_nat {a b : Int32} {x y : ℕ} (ha : a.toInt = x) (hb : b.toInt = y)
    (hw : Block.write? arr.array x (List.replicate y none) = some ys) :
    zero arr a b = .ok { arr with array := ys } := by
  have hneg : ¬ (a < 0 ∨ b < 0) := by
    rw [Int32.lt_iff_toInt_lt, Int32.lt_iff_toInt_lt, ha, hb, Int32.toInt_zero]
    omega
  rw [zero, if_neg hneg, ha, hb, Int.toNat_natCast, Int.toNat_natCast, hw]
  rfl

/-- The array in an allocation of `s` cells. -/
def resized (arr : ArrayListT α) (xs : List (Option α)) (x : Int32) : ArrayListT α :=
  { arr with array := xs ++ List.replicate (x.toInt.toNat - xs.length) none, size := x }

theorem Holds.resized {x : Int32} (h : Holds arr xs c) (hx : x.toInt = s) (hle : xs.length ≤ s)
    (heq : ∃ k, s = 32 * 2 ^ k) : Holds (resized arr xs x) xs s where
  array := by rw [ArrayList.resized, hx, Int.toNat_natCast]
  length := h.length
  size := hx
  length_le := hle
  size_eq := heq

/-- `realloc` and `memset` together. -/
theorem zero_realloc {a x : Int32} (h : Holds arr xs c) (ha : a.toInt = f) (hx : x.toInt = s)
    (hf : xs.length ≤ f) (hc : f ≤ c) (hs : f ≤ s) :
    zero { arr with array := Block.realloc m.fresh arr.array s } a (x - a) =
      .ok { arr with array := xs ++ List.replicate (s - xs.length) none } := by
  refine zero_of_nat ha (toInt_sub_of_le hx ha hs) ?_
  rw [h.array]
  exact write?_realloc m.fresh hf hc hs

/-! ## `array_list_expand_internal` -/

theorem expandInternal_of_lt (h : Holds arr xs c) (hi : idx.toInt = i) (hlt : i < c) :
    arrayListExpandInternal m arr idx = .ok (arr, 0) := by
  have hsize : idx < arr.size := by
    rw [Int32.lt_iff_toInt_lt, hi, h.size]
    omega
  rw [arrayListExpandInternal, if_pos hsize]
  rfl

theorem expandInternal_of_le (h : Holds arr xs c) (hi : idx.toInt = i) (hle : c ≤ i) :
    arrayListExpandInternal m arr idx =
      if m.grants (grownSize c i) then
        .ok (resized arr xs (if arr.size <<< 1 > idx then arr.size <<< 1 else idx), 0)
      else .ok (arr, -1) := by
  have hsize : ¬ idx < arr.size := by
    rw [Int32.lt_iff_toInt_lt, hi, h.size]
    omega
  have hnew := toInt_newSize h hi
  have hgrown := le_grownSize hle
  rw [arrayListExpandInternal, if_neg hsize]
  dsimp only
  generalize (if arr.size <<< 1 > idx then arr.size <<< 1 else idx) = x at hnew ⊢
  rw [realloc_of_nat hnew]
  split_ifs with hgrants
  · simp only [zero_realloc h h.size hnew h.length_le le_rfl hgrown, bind, Except.bind, pure,
      Except.pure, resized, hnew, Int.toNat_natCast]
  · rfl

end Uvx.ArrayList
