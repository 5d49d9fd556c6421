import Uvx.ArrayList.Calls
import Uvx.Common.Exec

/-!
# An array is a sequence

The array does what a list of pointers does that has no cells, sizes or allocator: `Seq`. The
allocator is free to refuse any request, and to fill new memory with anything.
-/

namespace Uvx.ArrayList

variable {α : Type} {m : Allocator α} {arr arr₀ arr' : ArrayListT α} {c i : ℕ} {idx : Int32}
  {freeFn : Bool}

/-- The calls made on an array. -/
inductive Op (α : Type)
  | putIdx (idx : Int32) (data : Option α)
  | add (data : Option α)
  | delIdx (idx : Int32)
  | getIdx (i : Int32)
  | length

/-- What a call returns. -/
inductive Ret (α : Type)
  | code (r : Int32)
  | pointer (p : Option α)
deriving DecidableEq

def Op.run (m : Allocator α) (arr : ArrayListT α) : Op α → Except Fault (ArrayListT α × Ret α)
  | .putIdx idx data => (arrayListPutIdx m arr idx data).map (Prod.map id .code)
  | .add data => (arrayListAdd m arr data).map (Prod.map id .code)
  | .delIdx idx => (arrayListDelIdx m arr idx).map (Prod.map id .code)
  | .getIdx i => (arrayListGetIdx arr i).map fun p => (arr, .pointer p)
  | .length => .ok (arr, .code (arrayListLength arr))

/-- A call and what it returns, whatever the allocator does. -/
def Step (arr : ArrayListT α) (a : Op α × Ret α) (arr' : ArrayListT α) : Prop :=
  ∃ m, a.1.run m arr = .ok (arr', a.2)

/-- What a caller must see to: an index is not negative, not beyond the double of the array and small
enough to be doubled, and nothing is released without `free_fn`. -/
def Op.Fits (arr : ArrayListT α) : Op α → Prop
  | .putIdx idx _ =>
    0 ≤ idx ∧ (idx < arr.size ∨ idx.toInt < 2 * arr.size.toInt ∧ arr.size.toInt < 2 ^ 30) ∧
      (arrayListGetIdx arr idx ≠ .ok none → arr.freeFn)
  | .add _ => arr.length < arr.size ∨ arr.size.toInt < 2 ^ 30
  | .delIdx idx => 0 ≤ idx → idx < arr.length → arr.freeFn
  | .getIdx i => 0 ≤ i
  | .length => True

/-! ## The sequence -/

/-- A list of pointers, and the pointers released so far. -/
structure Seq (α : Type) where
  elems : List (Option α)
  released : List (Option α)

namespace Seq

def put (s : Seq α) (i : ℕ) (data : Option α) : Seq α :=
  ⟨putAt s.elems i data, s.released ++ ArrayList.released (Cell s.elems i)⟩

def del (s : Seq α) (i : ℕ) : Seq α := ⟨s.elems.eraseIdx i, s.released ++ [Cell s.elems i]⟩

/-- A pointer is put, or the call fails and nothing changes. -/
def Puts (s : Seq α) (i : ℕ) (data : Option α) (r : Ret α) (s' : Seq α) : Prop :=
  r = .code 0 ∧ s' = s.put i data ∨ r = .code (-1) ∧ s' = s

def Step (s : Seq α) : Op α × Ret α → Seq α → Prop
  | (.putIdx idx data, r), s' => s.Puts idx.toInt.toNat data r s'
  | (.add data, r), s' => s.Puts s.elems.length data r s'
  | (.delIdx idx, r), s' =>
    if 0 ≤ idx.toInt ∧ idx.toInt < s.elems.length then r = .code 1 ∧ s' = s.del idx.toInt.toNat
    else r = .code 0 ∧ s' = s
  | (.getIdx i, r), s' => r = .pointer (Cell s.elems i.toInt.toNat) ∧ s' = s
  | (.length, r), s' => r = .code (.ofNat s.elems.length) ∧ s' = s

end Seq

/-- The array of `c` cells stands for the sequence. -/
structure Refines (arr : ArrayListT α) (c : ℕ) (s : Seq α) : Prop where
  holds : Holds arr s.elems c
  freed : arr.freed = s.released

variable {s : Seq α}

theorem Becomes.refines {xs fs : List (Option α)} (h : Becomes arr arr' xs c fs)
    (hfreed : arr.freed = s.released) : Refines arr' c ⟨xs, s.released ++ fs⟩ :=
  ⟨h.holds, by rw [h.freed, hfreed]⟩

/-! ## One call -/

/-- A non-negative index. -/
theorem exists_toInt_eq (h : 0 ≤ idx) : ∃ i : ℕ, idx.toInt = i := by
  rw [Int32.le_iff_toInt_le, Int32.toInt_zero] at h
  exact ⟨idx.toInt.toNat, (Int.toNat_of_nonneg h).symm⟩

/-- The sizes before and after a call. A deletion halves the array at most, and does so where the
allocator grants it. -/
def Resizes (m : Allocator α) (c : ℕ) (s s' : Seq α) (c' : ℕ) : Op α → Prop
  | .putIdx .. | .add _ => c' = c ∨ c' = 2 * c ∧ c < s'.elems.length
  | .delIdx _ =>
    s'.elems = s.elems ∧ c' = c ∨ s'.elems.length + 1 = s.elems.length ∧
      c' = if 32 < c ∧ s'.elems.length < c / 2 ∧ m.grants (c / 2) then c / 2 else c
  | .getIdx _ | .length => s'.elems = s.elems ∧ c' = c

theorem Refines.putIdx (h : Refines arr c s) (hi : idx.toInt = i)
    (hroom : i < c ∨ i < 2 * c ∧ c < 2 ^ 30) (hfree : (Cell s.elems i).isSome → arr.freeFn)
    (m : Allocator α) (data : Option α) :
    ∃ arr' r s' c', arrayListPutIdx m arr idx data = .ok (arr', r) ∧ s.Puts i data (.code r) s' ∧
      Refines arr' c' s' ∧ (c' = c ∨ c' = 2 * c ∧ c < s'.elems.length) ∧
      ((∀ n, m.grants n) → r = 0) ∧ arr'.freeFn = arr.freeFn := by
  by_cases hlt : i < c
  · obtain ⟨arr', hok, hbecomes⟩ := putIdx_of_lt h.holds hi hlt hfree m data
    exact ⟨arr', 0, s.put i data, c, hok, .inl ⟨rfl, rfl⟩, hbecomes.refines h.freed, .inl rfl,
      fun _ => rfl, hbecomes.freeFn⟩
  · have hle := not_lt.mp hlt
    obtain ⟨hdouble, hsmall⟩ := hroom.resolve_left hlt
    by_cases hgrants : m.grants (2 * c)
    · obtain ⟨arr', hok, hbecomes⟩ := putIdx_of_grants h.holds hi hle hdouble hsmall hgrants data
      have hnull : released (Cell s.elems i) = [] := by
        rw [Cell, List.getElem?_eq_none (h.holds.length_le.trans hle)]
        rfl
      have hlong : c < (putAt s.elems i data).length := by
        rw [length_putAt]
        omega
      refine ⟨arr', 0, s.put i data, 2 * c, hok, .inl ⟨rfl, rfl⟩, ?_, .inr ⟨rfl, hlong⟩, fun _ => rfl,
        hbecomes.freeFn⟩
      rw [Seq.put, hnull]
      exact hbecomes.refines h.freed
    · rw [← grownSize_of_lt hsmall hdouble] at hgrants
      exact ⟨arr, -1, s, c, putIdx_of_not_grants h.holds hi hle hgrants data, .inr ⟨rfl, rfl⟩, h,
        .inl rfl, fun hall => absurd (hall _) hgrants, rfl⟩

theorem Refines.delIdx (h : Refines arr c s) (hfree : 0 ≤ idx → idx < arr.length → arr.freeFn)
    (m : Allocator α) :
    ∃ arr' r s' c', arrayListDelIdx m arr idx = .ok (arr', r) ∧
      s.Step (.delIdx idx, .code r) s' ∧ Refines arr' c' s' ∧ Resizes m c s s' c' (.delIdx idx) ∧
      arr'.freeFn = arr.freeFn := by
  simp only [Int32.le_iff_toInt_le, Int32.lt_iff_toInt_lt, Int32.toInt_zero, h.holds.length] at hfree
  by_cases hin : 0 ≤ idx.toInt ∧ idx.toInt < s.elems.length
  · obtain ⟨i, hi⟩ : ∃ i : ℕ, idx.toInt = i := ⟨_, (Int.toNat_of_nonneg hin.1).symm⟩
    have hlt : i < s.elems.length := by omega
    obtain ⟨arr', c', hok, hbecomes, hc'⟩ :=
      delIdx_of_lt h.holds hi hlt (hfree hin.1 hin.2) m
    refine ⟨arr', 1, s.del i, c', hok, ?_, hbecomes.refines h.freed, .inr ⟨?_, hc'⟩, hbecomes.freeFn⟩
    · rw [Seq.Step, if_pos hin, hi, Int.toNat_natCast]
      exact ⟨rfl, rfl⟩
    · show (s.elems.eraseIdx i).length + 1 = _
      rw [List.length_eraseIdx_of_lt hlt]
      omega
  · refine ⟨arr, 0, s, c, delIdx_of_notMem h.holds (by omega) m, ?_, h, .inl ⟨rfl, rfl⟩, rfl⟩
    rw [Seq.Step, if_neg hin]
    exact ⟨rfl, rfl⟩

theorem getIdx_ne_none (h : Holds arr xs c) (hi : idx.toInt = i) :
    arrayListGetIdx arr idx ≠ .ok none ↔ (Cell xs i).isSome := by
  rw [getIdx_eq h hi, Option.isSome_iff_ne_none, ne_eq, ne_eq, Except.ok.injEq]

/-- A call on the array and on its sequence, which has `c` cells before and `c'` after it. -/
structure Runs (m : Allocator α) (arr : ArrayListT α) (c : ℕ) (s : Seq α) (op : Op α)
    (arr' : ArrayListT α) (r : Ret α) (s' : Seq α) (c' : ℕ) : Prop where
  run : op.run m arr = .ok (arr', r)
  step : s.Step (op, r) s'
  refines : Refines arr' c' s'
  resizes : Resizes m c s s' c' op
  /-- With enough memory nothing is refused. -/
  granted : (∀ n, m.grants n) → r ≠ .code (-1)
  freeFn : arr'.freeFn = arr.freeFn

theorem code_ne {x y : Int32} (h : x ≠ y) : (.code x : Ret α) ≠ .code y := by
  rintro ⟨⟩
  exact h rfl

/-- A call that fits does not fail, and does what the sequence does. -/
theorem Refines.run (h : Refines arr c s) {op : Op α} (hfits : op.Fits arr) (m : Allocator α) :
    ∃ arr' r s' c', Runs m arr c s op arr' r s' c' := by
  have hge := h.holds.size_ge
  have hle := h.holds.length_le
  cases op with
  | putIdx idx data =>
    obtain ⟨hnonneg, hroom, hfree⟩ := hfits
    obtain ⟨i, hi⟩ := exists_toInt_eq hnonneg
    rw [getIdx_ne_none h.holds hi] at hfree
    rw [Int32.lt_iff_toInt_lt, h.holds.size, hi] at hroom
    obtain ⟨arr', r, s', c', hok, hputs, hrefines, hsize, hgrants, hsame⟩ :=
      h.putIdx hi (by omega) hfree m data
    refine ⟨arr', .code r, s', c', ?_, ?_, hrefines, hsize, ?_, hsame⟩
    · rw [Op.run, hok]
      rfl
    · rw [Seq.Step, hi, Int.toNat_natCast]
      exact hputs
    · intro hall
      rw [hgrants hall]
      exact code_ne (by decide)
  | add data =>
    have hnull : Cell s.elems s.elems.length = none := by
      rw [Cell, List.getElem?_eq_none le_rfl]
      rfl
    rw [Op.Fits, Int32.lt_iff_toInt_lt, h.holds.size, h.holds.length] at hfits
    obtain ⟨arr', r, s', c', hok, hputs, hrefines, hsize, hgrants, hsame⟩ :=
      h.putIdx h.holds.length (by omega) (by simp [hnull]) m data
    refine ⟨arr', .code r, s', c', ?_, hputs, hrefines, hsize, ?_, hsame⟩
    · rw [Op.run, arrayListAdd, hok]
      rfl
    · intro hall
      rw [hgrants hall]
      exact code_ne (by decide)
  | delIdx idx =>
    obtain ⟨arr', r, s', c', hok, hstep, hrefines, hsize, hsame⟩ := h.delIdx hfits m
    refine ⟨arr', .code r, s', c', ?_, hstep, hrefines, hsize, ?_, hsame⟩
    · rw [Op.run, hok]
      rfl
    · intro _
      rw [Seq.Step] at hstep
      split_ifs at hstep
      · rw [hstep.1]
        exact code_ne (by decide)
      · rw [hstep.1]
        exact code_ne (by decide)
  | getIdx idx =>
    obtain ⟨i, hi⟩ := exists_toInt_eq hfits
    refine ⟨arr, .pointer (Cell s.elems i), s, c, ?_, ?_, h, ⟨rfl, rfl⟩, ?_, rfl⟩
    · rw [Op.run, getIdx_eq h.holds hi]
      rfl
    · rw [Seq.Step, hi, Int.toNat_natCast]
      exact ⟨rfl, rfl⟩
    · rintro - ⟨⟩
  | length =>
    have hlt := h.holds.size_lt
    have hlength : arr.length = .ofNat s.elems.length := by
      rw [← Int32.toInt_inj, h.holds.length, toInt_ofNat_of_lt (by omega)]
    refine ⟨arr, .code arr.length, s, c, rfl, ⟨by rw [hlength], rfl⟩, h, ⟨rfl, rfl⟩, fun _ => ?_, rfl⟩
    apply code_ne
    rw [ne_eq, ← Int32.toInt_inj, h.holds.length]
    show ¬ (s.elems.length : ℤ) = -1
    omega

/-! ## Runs -/

theorem refines_new {g : Bool} (h : arrayListNew g m freeFn = some arr) :
    Refines arr 32 ⟨[], []⟩ ∧ arr.freeFn = freeFn := by
  rw [arrayListNew] at h
  split_ifs at h
  obtain rfl := Option.some_inj.mp h
  exact ⟨⟨⟨rfl, rfl, rfl, Nat.zero_le _, 0, rfl⟩, rfl⟩, rfl⟩

/-- What is known after the calls `as`: the array, its sequence and its size. -/
structure Reached (freeFn : Bool) (as : List (Op α × Ret α)) (arr : ArrayListT α) (s : Seq α)
    (c : ℕ) : Prop where
  refines : Refines arr c s
  exec : Exec Seq.Step ⟨[], []⟩ as s
  freeFn : arr.freeFn = freeFn

theorem exists_reached {g : Bool} {as : List (Op α × Ret α)}
    (hnew : arrayListNew g m freeFn = some arr₀)
    (h : Exec (Guarded Step fun arr a => a.1.Fits arr) arr₀ as arr) :
    ∃ s c, Reached freeFn as arr s c := by
  obtain ⟨hrefines, hfree⟩ := refines_new hnew
  refine h.invariant_actions (I := fun as arr => ∃ s c, Reached freeFn as arr s c)
    ⟨_, _, hrefines, .nil, hfree⟩ ?_
  rintro as arr ⟨op, r⟩ arr' ⟨s, c, hs⟩ ⟨⟨m, hrun⟩, hfits⟩
  obtain ⟨arr'', r', s', c', hruns⟩ := hs.refines.run hfits m
  obtain ⟨rfl, rfl⟩ := Prod.mk.inj (Except.ok.inj (hrun.symm.trans hruns.run))
  exact ⟨s', c', hruns.refines, .snoc hs.exec hruns.step, hruns.freeFn.trans hs.freeFn⟩

/-- **The array is a sequence.** In every run the calls return what the calls on a sequence return, the
array holds that sequence, and the next call that fits does not fail. -/
theorem sequence_run {g : Bool} {as : List (Op α × Ret α)}
    (hnew : arrayListNew g m freeFn = some arr₀)
    (h : Exec (Guarded Step fun arr a => a.1.Fits arr) arr₀ as arr) :
    ∃ s c, Exec Seq.Step ⟨[], []⟩ as s ∧ Holds arr s.elems c ∧ arr.freed = s.released ∧
      ∀ op : Op α, op.Fits arr → ∀ m, ∃ arr' r, op.run m arr = .ok (arr', r) ∧
        ((∀ n, m.grants n) → r ≠ .code (-1)) := by
  obtain ⟨s, c, hs⟩ := exists_reached hnew h
  refine ⟨s, c, hs.exec, hs.refines.holds, hs.refines.freed, ?_⟩
  intro op hfits m
  obtain ⟨arr', r, s', c', hruns⟩ := hs.refines.run hfits m
  exact ⟨arr', r, hruns.run, hruns.granted⟩

/-- An allocator that gives memory back when it is asked to. -/
def StepGrants (arr : ArrayListT α) (a : Op α × Ret α) (arr' : ArrayListT α) : Prop :=
  ∃ m, (∀ n : ℕ, n < arr.size.toInt → m.grants n) ∧ a.1.run m arr = .ok (arr', a.2)

theorem StepGrants.step {a : Op α × Ret α} (h : StepGrants arr a arr') : Step arr a arr' := by
  obtain ⟨m, -, hrun⟩ := h
  exact ⟨m, hrun⟩

/-- Three pointers with a gap, of which the first is deleted. -/
def gapCalls : List (Op ℕ × Ret ℕ) :=
  [(.add (some 5), .code 0), (.putIdx 33 (some 6), .code 0), (.putIdx 1 (some 7), .code 0),
    (.delIdx 0, .code 1), (.getIdx 32, .pointer (some 6))]

/-- What these calls leave. -/
def gapArray : ArrayListT ℕ :=
  ⟨some 7 :: List.replicate 31 none ++ some 6 :: List.replicate 31 none, 33, 64, true, [some 5]⟩

theorem exec_gap :
    Exec (Guarded StepGrants fun arr a => a.1.Fits arr) ⟨List.replicate 32 none, 0, 32, true, []⟩
      gapCalls gapArray := by
  have hstep : ∀ {arr arr' : ArrayListT ℕ} {a : Op ℕ × Ret ℕ},
      a.1.run ⟨fun _ => true, fun _ => some 9⟩ arr = .ok (arr', a.2) → StepGrants arr a arr' :=
    fun h => ⟨_, fun _ _ => rfl, h⟩
  have h₁ : StepGrants ⟨List.replicate 32 none, 0, 32, true, []⟩ (.add (some 5), .code 0)
      ⟨some 5 :: List.replicate 31 none, 1, 32, true, []⟩ := hstep (by rfl)
  have h₂ : StepGrants ⟨some 5 :: List.replicate 31 none, 1, 32, true, []⟩
      (.putIdx 33 (some 6), .code 0)
      ⟨some 5 :: List.replicate 32 none ++ some 6 :: List.replicate 30 none, 34, 64, true, []⟩ :=
    hstep (by rfl)
  have h₃ : StepGrants
      ⟨some 5 :: List.replicate 32 none ++ some 6 :: List.replicate 30 none, 34, 64, true, []⟩
      (.putIdx 1 (some 7), .code 0)
      ⟨some 5 :: some 7 :: List.replicate 31 none ++ some 6 :: List.replicate 30 none, 34, 64, true,
        []⟩ := hstep (by rfl)
  have h₄ : StepGrants
      ⟨some 5 :: some 7 :: List.replicate 31 none ++ some 6 :: List.replicate 30 none, 34, 64, true,
        []⟩ (.delIdx 0, .code 1) gapArray := hstep (by rfl)
  have h₅ : StepGrants gapArray (.getIdx 32, .pointer (some 6)) gapArray := hstep (by rfl)
  exact .cons ⟨h₁, .inl (by decide)⟩ <| .cons ⟨h₂, by decide, .inr (by decide), fun _ => rfl⟩ <|
    .cons ⟨h₃, by decide, .inl (by decide), fun _ => rfl⟩ <| .cons ⟨h₄, fun _ _ => rfl⟩ <|
      .cons ⟨h₅, show (0 : Int32) ≤ 32 by decide⟩ .nil

theorem exec_gap_step :
    Exec (Guarded Step fun arr a => a.1.Fits arr) ⟨List.replicate 32 none, 0, 32, true, []⟩
      gapCalls gapArray :=
  exec_gap.mono fun _ _ _ h => ⟨h.1.step, h.2⟩

theorem sequence_run_gap :
    ∃ s c, Exec Seq.Step ⟨[], []⟩ gapCalls s ∧ Holds gapArray s.elems c ∧
      gapArray.freed = s.released ∧
      ∀ op : Op ℕ, op.Fits gapArray → ∀ m, ∃ arr' r, op.run m gapArray = .ok (arr', r) ∧
        ((∀ n, m.grants n) → r ≠ .code (-1)) :=
  sequence_run (g := true) (m := ⟨fun _ => true, fun _ => some 9⟩) rfl exec_gap_step

end Uvx.ArrayList
