import Mathlib

/-!
# Blocks of memory with checked accesses

An allocated block is the list of its cells. Reading and writing fail outside the block, so that a
computation which does not fail has stayed inside.
-/

namespace Block

variable {α : Type*} {b b' l : List α} {i n m : ℕ} {fresh : ℕ → α}

/-- A block of `n` cells, which hold whatever `fresh` says. -/
def malloc (fresh : ℕ → α) (n : ℕ) : List α := (List.range n).map fresh

/-- The block with `n` cells instead; what fits of it is kept. -/
def realloc (fresh : ℕ → α) (b : List α) (n : ℕ) : List α :=
  b.take n ++ malloc fresh (n - b.length)

/-- The `n` cells from index `i` on, if they lie in the block. -/
def read? (b : List α) (i n : ℕ) : Option (List α) :=
  if i + n ≤ b.length then some ((b.drop i).take n) else none

/-- The block with `l` written from index `i` on, if it fits. -/
def write? (b : List α) (i : ℕ) (l : List α) : Option (List α) :=
  if i + l.length ≤ b.length then some (b.take i ++ l ++ b.drop (i + l.length)) else none

@[simp] theorem length_malloc (fresh : ℕ → α) (n : ℕ) : (malloc fresh n).length = n := by
  simp [malloc]

theorem length_realloc (fresh : ℕ → α) (b : List α) (n : ℕ) : (realloc fresh b n).length = n := by
  rw [realloc, List.length_append, List.length_take, length_malloc]
  omega

/-- Growing a block keeps its cells. -/
theorem take_realloc (h : n ≤ b.length) (hn : n ≤ m) : (realloc fresh b m).take n = b.take n := by
  rw [realloc, List.take_append_of_le_length (by rw [List.length_take]; omega), List.take_take,
    Nat.min_eq_left hn]

theorem read?_of_le (h : i + n ≤ b.length) : read? b i n = some ((b.drop i).take n) := if_pos h

theorem write?_of_le (h : i + l.length ≤ b.length) :
    write? b i l = some (b.take i ++ l ++ b.drop (i + l.length)) := if_pos h

theorem write?_eq_none (h : b.length < i + l.length) : write? b i l = none :=
  if_neg (Nat.not_le.mpr h)

theorem length_of_write? (h : write? b i l = some b') : b'.length = b.length := by
  unfold write? at h
  split_ifs at h with hle
  obtain rfl := Option.some_inj.mp h
  simp only [List.length_append, List.length_take, List.length_drop]
  omega

/-- The cells up to the end of what was written. -/
theorem take_of_write? (h : write? b i l = some b') :
    b'.take (i + l.length) = b.take i ++ l := by
  unfold write? at h
  split_ifs at h with hle
  obtain rfl := Option.some_inj.mp h
  have hlen : (b.take i ++ l).length = i + l.length := by
    rw [List.length_append, List.length_take]
    omega
  rw [List.take_append_of_le_length (Nat.le_of_eq hlen.symm), List.take_of_length_le hlen.le]

/-- Copying `n` cells to the front of a block. -/
theorem copy_front {d : List α} (hb : i + n ≤ b.length) (hd : n ≤ d.length) :
    ∃ l d', read? b i n = some l ∧ write? d 0 l = some d' ∧ d'.length = d.length ∧
      d'.take n = (b.take (i + n)).drop i := by
  have hlength : ((b.drop i).take n).length = n := by
    rw [List.length_take, List.length_drop]
    omega
  obtain ⟨d', hw⟩ : ∃ d', write? d 0 ((b.drop i).take n) = some d' :=
    ⟨_, write?_of_le (by omega)⟩
  refine ⟨_, d', read?_of_le hb, hw, length_of_write? hw, ?_⟩
  have htake := take_of_write? hw
  rw [hlength, Nat.zero_add] at htake
  rw [htake, List.take_zero, List.nil_append, List.drop_take, Nat.add_sub_cancel_left]

/-! ## Writing piece by piece -/

/-- The block with `l` in the place of the cells from index `i` on. -/
def put (b : List α) (i : ℕ) (l : List α) : List α := b.take i ++ l ++ b.drop (i + l.length)

theorem put_nil (b : List α) (i : ℕ) : put b i [] = b := by
  rw [put, List.append_nil, List.length_nil, Nat.add_zero, List.take_append_drop]

theorem length_put (h : i + l.length ≤ b.length) : (put b i l).length = b.length :=
  length_of_write? (write?_of_le h)

theorem take_put (h : i + l.length ≤ b.length) :
    (put b i l).take (i + l.length) = b.take i ++ l :=
  take_of_write? (write?_of_le h)

theorem drop_put (h : i + l.length ≤ b.length) :
    (put b i l).drop (i + l.length) = b.drop (i + l.length) := by
  have hlen : (b.take i ++ l).length = i + l.length := by
    rw [List.length_append, List.length_take_of_le (by omega)]
  rw [put, List.drop_left' hlen]

/-- A write that goes on where another has ended. -/
theorem write?_put {l' : List α} (h : i + (l ++ l').length ≤ b.length) :
    write? (put b i l) (i + l.length) l' = some (put b i (l ++ l')) := by
  rw [List.length_append] at h
  have hlen : i + l.length ≤ b.length := by omega
  have hrest : (put b i l).drop (i + l.length + l'.length) = b.drop (i + (l ++ l').length) := by
    rw [← List.drop_drop, drop_put hlen, List.drop_drop, List.length_append, Nat.add_assoc]
  rw [write?_of_le (by rw [length_put hlen]; omega), take_put hlen, hrest, List.append_assoc _ l l']
  rfl

end Block
