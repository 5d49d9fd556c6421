import Uvx.Common.Linked
import Uvx.LinkHash.Defs

/-!
# The entries of a table and their order

`Threads t slots`: the list of `t` runs through the entries `slots`, forward and backward. Taking an
entry out (`unlinkEntry_spec`) and putting one last (`linkEntry_spec`) keep the order of the others, and
change neither keys nor values.
-/

namespace Uvx.LinkHash

/-! ## Fields after a store -/

namespace LhTable

variable (t : LhTable) (n m : ℕ) (p : Option ℕ) (e : LhEntry)

@[simp] theorem setEntry_size : (t.setEntry n e).size = t.size := rfl
@[simp] theorem setEntry_hashFn : (t.setEntry n e).hashFn = t.hashFn := rfl
@[simp] theorem setEntry_equalFn : (t.setEntry n e).equalFn = t.equalFn := rfl
@[simp] theorem setEntry_count : (t.setEntry n e).count = t.count := rfl
@[simp] theorem setEntry_head : (t.setEntry n e).head = t.head := rfl
@[simp] theorem setEntry_tail : (t.setEntry n e).tail = t.tail := rfl

theorem table_setEntry : (t.setEntry n e).table m = if m = n then e else t.table m :=
  Function.update_apply ..

theorem key_setEntry : (t.setEntry n e).key m = if m = n then e.k else t.key m := by
  rw [key, table_setEntry, apply_ite LhEntry.k]; rfl

theorem next_setEntry : (t.setEntry n e).next m = if m = n then e.next else t.next m := by
  rw [next, table_setEntry, apply_ite LhEntry.next]; rfl

theorem prev_setEntry : (t.setEntry n e).prev m = if m = n then e.prev else t.prev m := by
  rw [prev, table_setEntry, apply_ite LhEntry.prev]; rfl

theorem value_setEntry : (t.setEntry n e).value m = if m = n then e.v else t.value m := by
  rw [value, table_setEntry, apply_ite LhEntry.v]; rfl

@[simp] theorem setNext_size : (t.setNext n p).size = t.size := rfl
@[simp] theorem setNext_hashFn : (t.setNext n p).hashFn = t.hashFn := rfl
@[simp] theorem setNext_equalFn : (t.setNext n p).equalFn = t.equalFn := rfl
@[simp] theorem setNext_count : (t.setNext n p).count = t.count := rfl
@[simp] theorem setNext_head : (t.setNext n p).head = t.head := rfl
@[simp] theorem setNext_tail : (t.setNext n p).tail = t.tail := rfl
@[simp] theorem setPrev_size : (t.setPrev n p).size = t.size := rfl
@[simp] theorem setPrev_hashFn : (t.setPrev n p).hashFn = t.hashFn := rfl
@[simp] theorem setPrev_equalFn : (t.setPrev n p).equalFn = t.equalFn := rfl
@[simp] theorem setPrev_count : (t.setPrev n p).count = t.count := rfl
@[simp] theorem setPrev_head : (t.setPrev n p).head = t.head := rfl
@[simp] theorem setPrev_tail : (t.setPrev n p).tail = t.tail := rfl

@[simp] theorem next_setNext : (t.setNext n p).next m = if m = n then p else t.next m :=
  t.next_setEntry ..

@[simp] theorem prev_setPrev : (t.setPrev n p).prev m = if m = n then p else t.prev m :=
  t.prev_setEntry ..

@[simp] theorem next_setPrev : (t.setPrev n p).next m = t.next m := by
  rw [setPrev, next_setEntry]
  split
  · next h => rw [h]; rfl
  · rfl

@[simp] theorem prev_setNext : (t.setNext n p).prev m = t.prev m := by
  rw [setNext, prev_setEntry]
  split
  · next h => rw [h]; rfl
  · rfl

@[simp] theorem key_setNext : (t.setNext n p).key m = t.key m := by
  rw [setNext, key_setEntry]
  split
  · next h => rw [h]; rfl
  · rfl

@[simp] theorem key_setPrev : (t.setPrev n p).key m = t.key m := by
  rw [setPrev, key_setEntry]
  split
  · next h => rw [h]; rfl
  · rfl

@[simp] theorem value_setNext : (t.setNext n p).value m = t.value m := by
  rw [setNext, value_setEntry]
  split
  · next h => rw [h]; rfl
  · rfl

@[simp] theorem value_setPrev : (t.setPrev n p).value m = t.value m := by
  rw [setPrev, value_setEntry]
  split
  · next h => rw [h]; rfl
  · rfl

end LhTable

/-! ## The links -/

/-- The list of `t` runs through the entries `slots`. -/
def Threads (t : LhTable) (slots : List ℕ) : Prop :=
  Linked t.next t.prev t.head t.tail slots

/-- The tables `t` and `t'` agree but for their links and values. -/
structure SameKeys (t t' : LhTable) : Prop where
  size_eq : t'.size = t.size
  hashFn_eq : t'.hashFn = t.hashFn
  equalFn_eq : t'.equalFn = t.equalFn
  count_eq : t'.count = t.count
  key_eq : ∀ m, t'.key m = t.key m

/-- Taking an entry out of the list. -/
theorem unlinkEntry_spec {t : LhTable} {a b : List ℕ} {n : ℕ} (h : Threads t (a ++ n :: b)) :
    ∃ t', unlinkEntry t n = .ok t' ∧ SameKeys t t' ∧ Threads t' (a ++ b) := by
  have hnext : t.next n = b.head? := h.next_eq a n b rfl
  have hprev : t.prev n = a.getLast? := h.prev_eq a n b rfl
  have hnodup := h.nodup
  have hna : n ∉ a := fun hn => (List.nodup_append.mp hnodup).2.2 n hn n (by simp) rfl
  have hhead : t.head = some n ↔ a = [] := by
    rw [h.head_eq]
    cases a with
    | nil => simp
    | cons x a => simp only [List.cons_append, List.head?_cons, Option.some_inj, reduceCtorEq,
        iff_false]; rintro rfl; simp at hna
  have htail : t.tail = some n ↔ b = [] := by
    rw [h.tail_eq]
    refine ⟨?_, fun hb => by simp [hb]⟩
    intro hn
    by_contra hb
    exact Linked.getLast?_ne_of_nodup hnodup hb hn
  unfold unlinkEntry
  by_cases ha : a = [] <;> by_cases hb : b = []
  · -- the only entry
    rw [if_pos ⟨htail.mpr hb, hhead.mpr ha⟩]
    refine ⟨_, rfl, ⟨rfl, rfl, rfl, rfl, fun m => rfl⟩, ?_⟩
    rw [ha, hb]
    exact Linked.nil _ _
  · -- the head leaves, and the entry behind it becomes the head
    obtain ⟨y, b, rfl⟩ := List.exists_cons_of_ne_nil hb
    rw [if_neg fun hn => hb (htail.mp hn.1), if_pos (hhead.mpr ha), hnext]
    refine ⟨_, rfl, ⟨rfl, rfl, rfl, rfl, fun m => t.key_setPrev y m none⟩, ?_⟩
    have htl : t.tail = (a ++ y :: b).getLast? := by
      rw [h.tail_eq, ha]; simp [List.getLast?_cons_cons]
    subst ha
    have : Linked (t.setPrev y none).next (t.setPrev y none).prev _ _ ([] ++ y :: b) := h.unlink
      (by simp) (by simp +contextual) (by simp) (fun z _ hz => by
        rw [LhTable.prev_setPrev, if_neg]; rintro rfl; simp at hz)
    rw [← htl] at this
    exact this
  · -- the tail leaves, and the entry in front of it becomes the tail
    obtain ⟨a, y, rfl⟩ := List.eq_nil_or_concat a |>.resolve_left ha
    rw [List.concat_eq_append] at *
    rw [if_neg fun hn => ha (hhead.mp hn.2), if_neg fun hn => ha (hhead.mp hn),
      if_pos (htail.mpr hb), hprev, List.getLast?_append]
    refine ⟨_, rfl, ⟨rfl, rfl, rfl, rfl, fun m => t.key_setNext y m none⟩, ?_⟩
    have hhd : t.head = (a ++ [y] ++ b).head? := by
      rw [h.head_eq, hb]; simp
    subst hb
    have : Linked (t.setNext y none).next (t.setNext y none).prev _ _ (a ++ [y] ++ []) := h.unlink
      (by simp) (by simp) (fun z _ hz => by
        rw [LhTable.next_setNext, if_neg]; rintro rfl; simp at hz) (by simp)
    rw [← hhd] at this
    simp only [List.append_nil, List.getLast?_concat] at this ⊢
    exact this
  · -- an entry between two others, which are linked to each other
    obtain ⟨y, b, rfl⟩ := List.exists_cons_of_ne_nil hb
    obtain ⟨a, z, rfl⟩ := List.eq_nil_or_concat a |>.resolve_left ha
    rw [List.concat_eq_append] at *
    rw [if_neg fun hn => ha (hhead.mp hn.2), if_neg fun hn => ha (hhead.mp hn),
      if_neg fun hn => hb (htail.mp hn), hprev, hnext, List.getLast?_append]
    refine ⟨_, rfl, ⟨rfl, rfl, rfl, rfl, fun m => by simp⟩, ?_⟩
    set t' := (t.setNext z (some y)).setPrev y (some z) with ht'
    have hnext' : ∀ w, t'.next w = if w = z then some y else t.next w := fun w => by simp [ht']
    have hprev' : ∀ w, t'.prev w = if w = y then some z else t.prev w := fun w => by simp [ht']
    have hhd : t.head = (a ++ [z] ++ y :: b).head? := by
      rw [h.head_eq]; simp
    have htl : t.tail = (a ++ [z] ++ y :: b).getLast? := by
      rw [h.tail_eq]; simp [List.getLast?_append, List.getLast?_cons]
    show Linked t'.next t'.prev t.head t.tail (a ++ [z] ++ y :: b)
    rw [hhd, htl]
    refine h.unlink ?_ ?_ (fun w _ hw => ?_) fun w _ hw => ?_
    · simp [hnext']
    · simp [hprev']
    · rw [hnext', if_neg]; rintro rfl; simp at hw
    · rw [hprev', if_neg]; rintro rfl; simp at hw

/-- Putting an entry behind the tail. -/
theorem linkEntry_spec {t : LhTable} {slots : List ℕ} {n : ℕ} (h : Threads t slots)
    (hn : n ∉ slots) :
    ∃ t', linkEntry t n = .ok t' ∧ SameKeys t t' ∧ Threads t' (slots ++ [n]) := by
  unfold linkEntry
  rcases List.eq_nil_or_concat slots with rfl | ⟨a, y, rfl⟩
  · rw [show t.head = none from h.head_eq]
    refine ⟨_, rfl, ⟨rfl, rfl, rfl, rfl, fun m => ?_⟩, ?_⟩
    · rw [LhTable.key_setPrev, LhTable.key_setNext]; rfl
    exact h.push hn (by simp) (by simp) (by simp) (by simp) (by simp)
  · rw [List.concat_eq_append] at *
    have htail : t.tail = some y := by rw [h.tail_eq]; simp
    obtain ⟨x, hx⟩ : ∃ x, t.head = some x := by
      rw [h.head_eq, ← Option.isSome_iff_exists]; simp
    have hny : y ≠ n := by rintro rfl; simp at hn
    rw [hx, htail]
    refine ⟨_, rfl, ⟨rfl, rfl, rfl, rfl, fun m => ?_⟩, ?_⟩
    · exact ((LhTable.key_setNext ..).trans (LhTable.key_setPrev ..)).trans (LhTable.key_setNext ..)
    set t' := ((t.setNext y (some n)).setPrev n (some y)).setNext n none with ht'
    have hnext' : ∀ z, t'.next z = if z = n then none else if z = y then some n else t.next z :=
      fun z => by simp [ht']
    have hprev' : ∀ z, t'.prev z = if z = n then some y else t.prev z := fun z => by simp [ht']
    have hne : ∀ z ∈ a ++ [y], z ≠ n := fun z hz hzn => hn (hzn ▸ hz)
    have hhd : t.head = (a ++ [y] ++ [n]).head? := by
      rw [h.head_eq]; simp
    show Linked t'.next t'.prev t.head (some n) (a ++ [y] ++ [n])
    rw [hhd]
    refine h.push hn ?_ ?_ (fun z hz => ?_) (fun z hz hlast => ?_) fun z hz => ?_
    · rw [hnext', if_pos rfl]
    · rw [hprev', if_pos rfl]; simp
    · have : y = z := by simpa using hz
      rw [hnext', ← this, if_neg hny, if_pos rfl]
    · rw [hnext', if_neg (hne z hz), if_neg]
      rintro rfl; simp at hlast
    · rw [hprev', if_neg (hne z hz)]

/-! ## The values -/

/-- Taking an entry out of the list keeps all values. -/
theorem value_unlinkEntry {t t' : LhTable} {n : ℕ} (h : unlinkEntry t n = .ok t') (m : ℕ) :
    t'.value m = t.value m := by
  unfold unlinkEntry at h
  split_ifs at h
  · obtain rfl := Except.ok.inj h
    rfl
  · split at h
    · obtain rfl := Except.ok.inj h
      exact LhTable.value_setPrev ..
    · exact absurd h nofun
  · split at h
    · obtain rfl := Except.ok.inj h
      exact LhTable.value_setNext ..
    · exact absurd h nofun
  · split at h
    · obtain rfl := Except.ok.inj h
      exact (LhTable.value_setPrev ..).trans (LhTable.value_setNext ..)
    · exact absurd h nofun

/-- Putting an entry behind the tail keeps all values. -/
theorem value_linkEntry {t t' : LhTable} {n : ℕ} (h : linkEntry t n = .ok t') (m : ℕ) :
    t'.value m = t.value m := by
  unfold linkEntry at h
  split at h
  · obtain rfl := Except.ok.inj h
    exact (LhTable.value_setPrev ..).trans (LhTable.value_setNext ..)
  · obtain rfl := Except.ok.inj h
    exact ((LhTable.value_setNext ..).trans (LhTable.value_setPrev ..)).trans
      (LhTable.value_setNext ..)
  · exact absurd h nofun

/-- Deleting an entry keeps the values of the others. -/
theorem value_lhTableDeleteEntry {t t' : LhTable} {n : ℕ} {r : ℤ}
    (h : lhTableDeleteEntry t n = .ok (r, t')) {m : ℕ} (hm : m ≠ n) : t'.value m = t.value m := by
  unfold lhTableDeleteEntry at h
  split_ifs at h
  · obtain ⟨-, rfl⟩ := Prod.mk.inj (Except.ok.inj h)
    rfl
  · set t₁ := LhTable.setEntry { t with count := t.count - 1 } n
      { t.table n with v := 0, k := lhFreed } with ht₁
    cases hunlink : unlinkEntry t₁ n with
    | error e =>
      have herr : (Except.error e : Except LhFault (ℤ × LhTable)) = .ok (r, t') := by
        rw [← h]
        show _ = (unlinkEntry t₁ n >>= _)
        rw [hunlink]
        rfl
      exact absurd herr nofun
    | ok t₂ =>
      have hok : (Except.ok (0, t₂.setEntry n { t₂.table n with next := none, prev := none }) :
          Except LhFault (ℤ × LhTable)) = .ok (r, t') := by
        rw [← h]
        show _ = (unlinkEntry t₁ n >>= _)
        rw [hunlink]
        rfl
      obtain ⟨-, rfl⟩ := Prod.mk.inj (Except.ok.inj hok)
      rw [LhTable.value_setEntry, if_neg hm, value_unlinkEntry hunlink]
      exact (LhTable.value_setEntry ..).trans (if_neg hm)

end Uvx.LinkHash
