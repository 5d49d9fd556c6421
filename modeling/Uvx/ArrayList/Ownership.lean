import Uvx.ArrayList.Sequence

/-!
# Every pointer is released once

An array that has `free_fn` owns the pointers put into it. Each of them is either still held or has
been released, and not both: no call releases a pointer twice, and `array_list_free` releases what is
left.
-/

namespace Uvx.ArrayList

variable {α : Type} {m : Allocator α} {arr arr₀ : ArrayListT α} {xs ys : List (Option α)} {c i : ℕ}
  {p : Option α} {s s' : Seq α}

/-- The pointers of a list, without the null pointers. -/
def owned (xs : List (Option α)) : Multiset α := xs.reduceOption

/-- The pointer that a call hands over to the array. -/
def Op.hands : Op α × Ret α → Option α
  | (.putIdx _ data, .code 0) | (.add data, .code 0) => data
  | _ => none

/-- The pointers handed over by the calls `as`. -/
def handed (as : List (Op α × Ret α)) : List α := (as.map Op.hands).reduceOption

/-! ## What lists own -/

theorem owned_append (xs ys : List (Option α)) : owned (xs ++ ys) = owned xs + owned ys := by
  rw [owned, List.reduceOption_append, ← Multiset.coe_add]
  rfl

theorem owned_replicate_none (n : ℕ) : owned (List.replicate n (none : Option α)) = 0 := by
  rw [owned, List.reduceOption_replicate_none, Multiset.coe_nil]

theorem owned_released (p : Option α) : owned (released p) = owned [p] := by
  cases p <;> rfl

theorem owned_flatMap_released (xs : List (Option α)) : owned (xs.flatMap released) = owned xs := by
  induction xs with
  | nil => rfl
  | cons p xs ih =>
    rw [List.flatMap_cons, owned_append, ih, owned_released, ← owned_append, List.singleton_append]

/-- The list around the pointer at `i`. -/
theorem exists_split (h : i < xs.length) :
    ∃ u p v, xs = u ++ p :: v ∧ u.length = i ∧ Cell xs i = p := by
  refine ⟨xs.take i, xs[i], xs.drop (i + 1), ?_, List.length_take_of_le h.le, ?_⟩
  · rw [List.cons_getElem_drop_succ, List.take_append_drop]
  · rw [Cell, List.getElem?_eq_getElem h]
    rfl

/-- The pointer that is put takes the place of the one that was there. -/
theorem owned_putAt (xs : List (Option α)) (i : ℕ) (p : Option α) :
    owned (putAt xs i p) + owned [Cell xs i] = owned xs + owned [p] := by
  by_cases h : i < xs.length
  · obtain ⟨u, q, v, rfl, rfl, hq⟩ := exists_split h
    rw [putAt, if_pos h, hq, List.set_append_right _ _ le_rfl, Nat.sub_self, List.set_cons_zero,
      List.append_cons, List.append_cons u q, owned_append, owned_append, owned_append, owned_append]
    exact add_right_comm _ _ _ |>.trans (by abel)
  · have hnull : Cell xs i = none := by
      rw [Cell, List.getElem?_eq_none (not_lt.mp h)]
      rfl
    rw [putAt, if_neg h, owned_append, owned_append, owned_replicate_none, hnull, add_zero]
    exact add_zero _

theorem owned_eraseIdx (h : i < xs.length) :
    owned (xs.eraseIdx i) + owned [Cell xs i] = owned xs := by
  obtain ⟨u, p, v, rfl, rfl, hp⟩ := exists_split h
  rw [hp, List.eraseIdx_append_of_length_le le_rfl, Nat.sub_self, List.eraseIdx_cons_zero,
    List.append_cons u p v, owned_append, owned_append, owned_append]
  exact add_right_comm _ _ _

/-! ## Runs -/

/-- What the sequence holds and has released is what it was handed. -/
def Seq.owned (s : Seq α) : Multiset α := ArrayList.owned s.elems + ArrayList.owned s.released

theorem Seq.owned_put (s : Seq α) (i : ℕ) (data : Option α) :
    (s.put i data).owned = s.owned + ArrayList.owned [data] := by
  have h := owned_putAt s.elems i data
  rw [Seq.owned, Seq.put, owned_append, owned_released, Seq.owned]
  calc ArrayList.owned (putAt s.elems i data) +
        (ArrayList.owned s.released + ArrayList.owned [Cell s.elems i])
      = ArrayList.owned (putAt s.elems i data) + ArrayList.owned [Cell s.elems i] +
          ArrayList.owned s.released := by abel
    _ = ArrayList.owned s.elems + ArrayList.owned s.released + ArrayList.owned [data] := by
        rw [h]
        abel

theorem Seq.owned_del (h : i < s.elems.length) : (s.del i).owned = s.owned := by
  have h := owned_eraseIdx h
  rw [Seq.owned, Seq.del, owned_append, Seq.owned, ← h]
  abel

theorem Seq.Step.owned {a : Op α × Ret α} (h : s.Step a s') :
    s'.owned = s.owned + ArrayList.owned [Op.hands a] := by
  -- a call that hands nothing over
  have hnone : ∀ {t : Seq α}, t.owned = t.owned + ArrayList.owned [none] := fun {t} =>
    (add_zero t.owned).symm
  have hputs : ∀ {i : ℕ} {data : Option α} {r : Ret α}, s.Puts i data r s' →
      r = .code 0 ∧ s'.owned = s.owned + ArrayList.owned [data] ∨ r = .code (-1) ∧ s' = s := by
    rintro i data r (⟨hr, rfl⟩ | hrefused)
    · exact .inl ⟨hr, s.owned_put i data⟩
    · exact .inr hrefused
  obtain ⟨op, r⟩ := a
  cases op with
  | putIdx idx data =>
    rcases hputs h with ⟨rfl, howned⟩ | ⟨rfl, rfl⟩
    · exact howned
    · exact hnone
  | add data =>
    rcases hputs h with ⟨rfl, howned⟩ | ⟨rfl, rfl⟩
    · exact howned
    · exact hnone
  | delIdx idx =>
    rw [Seq.Step] at h
    split_ifs at h with hin
    · obtain ⟨rfl, rfl⟩ := h
      rw [Seq.owned_del (by omega)]
      exact hnone
    · obtain ⟨rfl, rfl⟩ := h
      exact hnone
  | getIdx i =>
    obtain ⟨rfl, rfl⟩ := h
    exact hnone
  | length =>
    obtain ⟨rfl, rfl⟩ := h
    exact hnone

theorem Seq.owned_of_exec {as : List (Op α × Ret α)} (h : Exec Seq.Step ⟨[], []⟩ as s) :
    s.owned = (handed as : Multiset α) := by
  refine h.invariant_actions (I := fun as s => s.owned = (handed as : Multiset α)) rfl ?_
  intro as s a s' hs hstep
  rw [hstep.owned, hs, handed, handed, List.map_append, List.reduceOption_append, ← Multiset.coe_add]
  rfl

/-- **No pointer is lost and none is released twice.** After any run the pointers in the array and the
released ones are those that were handed over, and `array_list_free` releases the rest. -/
theorem freed_once {g : Bool} {as : List (Op α × Ret α)}
    (hnew : arrayListNew g m true = some arr₀)
    (h : Exec (Guarded Step fun arr a => a.1.Fits arr) arr₀ as arr) :
    (arr.array.reduceOption ++ arr.freed.reduceOption).Perm (handed as) ∧
      ∃ fs, arrayListFree arr = .ok fs ∧ fs.reduceOption.Perm (handed as) ∧
        ((handed as).Nodup → fs.reduceOption.Nodup) := by
  obtain ⟨s, c, hs⟩ := exists_reached hnew h
  have howned := Seq.owned_of_exec hs.exec
  rw [Seq.owned] at howned
  have hfreed : (arr.freed ++ s.elems.flatMap released).reduceOption.Perm (handed as) := by
    rw [← Multiset.coe_eq_coe, ← howned]
    calc owned (arr.freed ++ s.elems.flatMap released)
        = owned s.released + owned s.elems := by
          rw [owned_append, owned_flatMap_released, hs.refines.freed]
      _ = owned s.elems + owned s.released := add_comm _ _
  refine ⟨?_, _, free_eq hs.refines.holds hs.freeFn, hfreed, hfreed.nodup_iff.mpr⟩
  rw [← Multiset.coe_eq_coe, ← howned, ← Multiset.coe_add, hs.refines.freed]
  have harray : owned arr.array = owned s.elems := by
    rw [hs.refines.holds.array, owned_append, owned_replicate_none, add_zero]
  exact congrArg (· + owned s.released) harray

theorem freed_once_gap :
    (gapArray.array.reduceOption ++ gapArray.freed.reduceOption).Perm (handed gapCalls) ∧
      ∃ fs, arrayListFree gapArray = .ok fs ∧ fs.reduceOption.Perm (handed gapCalls) ∧
        ((handed gapCalls).Nodup → fs.reduceOption.Nodup) :=
  freed_once (g := true) (m := ⟨fun _ => true, fun _ => some 9⟩) rfl exec_gap_step

end Uvx.ArrayList
