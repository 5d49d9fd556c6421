import Mathlib.Data.List.Nodup

/-!
# Doubly linked lists

Nodes carry a link to the node behind and to the node in front of them. `Linked` says that the links
and the two ends thread exactly a given list of nodes.
-/

/-- The nodes `l`, each once, are threaded by their links from `head` to `tail`. -/
structure Linked {ι : Type*} (next prev : ι → Option ι) (head tail : Option ι) (l : List ι) :
    Prop where
  nodup : l.Nodup
  head_eq : head = l.head?
  tail_eq : tail = l.getLast?
  next_eq : ∀ a x b, l = a ++ x :: b → next x = b.head?
  prev_eq : ∀ a x b, l = a ++ x :: b → prev x = a.getLast?

namespace Linked

variable {ι : Type*} {next prev next' prev' : ι → Option ι} {head tail : Option ι} {l : List ι}

theorem nil (next prev : ι → Option ι) : Linked next prev none none [] :=
  ⟨List.nodup_nil, rfl, rfl, fun a x b h => by simp at h, fun a x b h => by simp at h⟩

/-- Only the links of the nodes matter. -/
theorem congr (h : Linked next prev head tail l) (hnext : ∀ x ∈ l, next' x = next x)
    (hprev : ∀ x ∈ l, prev' x = prev x) : Linked next' prev' head tail l := by
  refine ⟨h.nodup, h.head_eq, h.tail_eq, ?_, ?_⟩
  · intro a x b hl
    rw [hnext x (by simp [hl]), h.next_eq a x b hl]
  · intro a x b hl
    rw [hprev x (by simp [hl]), h.prev_eq a x b hl]

/-- The last node of a list without repetition is met nowhere earlier. -/
theorem getLast?_ne_of_nodup {a b : List ι} {x : ι} (hnodup : (a ++ x :: b).Nodup) (hb : b ≠ []) :
    (a ++ x :: b).getLast? ≠ some x := by
  intro hlast
  obtain ⟨b, y, rfl⟩ := List.eq_nil_or_concat b |>.resolve_left hb
  rw [List.nodup_append, List.nodup_cons] at hnodup
  have : y = x := by
    rw [List.getLast?_append, List.getLast?_cons] at hlast
    simpa using hlast
  exact hnodup.2.1.1 (by simp [this])

/-- A new node behind the tail. -/
theorem push (h : Linked next prev head tail l) {x : ι} (hx : x ∉ l) (hxnext : next' x = none)
    (hxprev : prev' x = l.getLast?) (hlast : ∀ y, l.getLast? = some y → next' y = some x)
    (hnext : ∀ y ∈ l, l.getLast? ≠ some y → next' y = next y)
    (hprev : ∀ y ∈ l, prev' y = prev y) :
    Linked next' prev' (l ++ [x]).head? (some x) (l ++ [x]) := by
  refine ⟨?_, rfl, by simp, ?_, ?_⟩
  · rw [List.nodup_append]
    exact ⟨h.nodup, List.nodup_singleton x, fun y hy z hz he => hx (by simp_all)⟩
  · intro a y b hl
    rcases List.eq_nil_or_concat b with rfl | ⟨b, z, rfl⟩
    · obtain ⟨-, hxy⟩ := List.append_inj' hl rfl
      rw [← List.singleton_inj.mp hxy, hxnext, List.head?_nil]
    · rw [List.concat_eq_append, show a ++ y :: (b ++ [z]) = (a ++ y :: b) ++ [z] by simp] at hl
      obtain ⟨rfl, hxz⟩ := List.append_inj' hl rfl
      rw [← List.singleton_inj.mp hxz, List.concat_eq_append]
      by_cases hb : b = []
      · rw [hb, hlast y (by simp [hb])]; rfl
      · rw [hnext y (by simp) (getLast?_ne_of_nodup h.nodup hb), h.next_eq a y b rfl,
          List.head?_append_of_ne_nil _ hb]
  · intro a y b hl
    rcases List.eq_nil_or_concat b with rfl | ⟨b, z, rfl⟩
    · obtain ⟨rfl, hxy⟩ := List.append_inj' hl rfl
      rw [← List.singleton_inj.mp hxy, hxprev]
    · rw [List.concat_eq_append, show a ++ y :: (b ++ [z]) = (a ++ y :: b) ++ [z] by simp] at hl
      obtain ⟨rfl, -⟩ := List.append_inj' hl rfl
      rw [hprev y (by simp), h.prev_eq a y b rfl]

/-- Taking a node out and linking its neighbours to each other. -/
theorem unlink {a b : List ι} {x : ι} (h : Linked next prev head tail (a ++ x :: b))
    (hlast : ∀ y, a.getLast? = some y → next' y = b.head?)
    (hfirst : ∀ y, b.head? = some y → prev' y = a.getLast?)
    (hnext : ∀ y ∈ a ++ b, a.getLast? ≠ some y → next' y = next y)
    (hprev : ∀ y ∈ a ++ b, b.head? ≠ some y → prev' y = prev y) :
    Linked next' prev' (a ++ b).head? (a ++ b).getLast? (a ++ b) := by
  have hnodup := h.nodup
  have hab : (a ++ b).Nodup := by
    rw [List.nodup_append, List.nodup_cons] at hnodup
    rw [List.nodup_append]
    exact ⟨hnodup.1, hnodup.2.1.2, fun y hy z hz => hnodup.2.2 y hy z (List.mem_cons_of_mem _ hz)⟩
  have hdisj : ∀ y ∈ a, y ∉ b := fun y hya hyb => (List.nodup_append.mp hab).2.2 y hya y hyb rfl
  refine ⟨hab, rfl, rfl, ?_, ?_⟩
  · intro c y d hl
    have hy : y ∈ a ++ b := by simp [hl]
    rcases List.append_eq_append_iff.mp hl with ⟨e, rfl, rfl⟩ | ⟨e, rfl, hd⟩
    · -- `y` is behind `x`
      rw [hnext y hy, h.next_eq (a ++ x :: e) y d (by simp)]
      intro hya
      exact hdisj y (List.mem_of_getLast? hya) (by simp)
    · rcases e with _ | ⟨z, e⟩
      · rw [List.nil_append] at hd
        rw [hnext y hy, h.next_eq (c ++ [x]) y d (by simp [← hd])]
        intro hya
        exact hdisj y (List.mem_of_getLast? hya) (by simp [← hd])
      · rw [List.cons_append, List.cons_eq_cons] at hd
        obtain ⟨rfl, rfl⟩ := hd
        by_cases he : e = []
        · rw [hlast y (by simp [he]), he, List.nil_append]
        · have hne := getLast?_ne_of_nodup (List.nodup_append.mp hab).1 he
          rw [hnext y hy hne, h.next_eq c y (e ++ x :: b) (by simp),
            List.head?_append_of_ne_nil _ he, List.head?_append_of_ne_nil _ he]
  · intro c y d hl
    have hy : y ∈ a ++ b := by simp [hl]
    rcases List.append_eq_append_iff.mp hl with ⟨e, rfl, rfl⟩ | ⟨e, rfl, hd⟩
    · rcases e with _ | ⟨z, e⟩
      · rw [List.append_nil, hfirst y (by simp)]
      · have hne : (z :: e ++ y :: d).head? ≠ some y := by
          intro hz
          rw [List.cons_append, List.head?_cons, Option.some_inj] at hz
          rw [List.nodup_append, hz] at hab
          exact (List.nodup_cons.mp hab.2.1).1 (by simp)
        rw [hprev y hy hne, h.prev_eq (a ++ x :: z :: e) y d (by simp)]
        simp [List.getLast?_append, List.getLast?_cons]
    · rcases e with _ | ⟨z, e⟩
      · rw [List.nil_append] at hd
        rw [hfirst y (by simp [← hd]), List.append_nil]
      · rw [List.cons_append, List.cons_eq_cons] at hd
        obtain ⟨rfl, rfl⟩ := hd
        have hne : b.head? ≠ some y := fun hyb =>
          hdisj y (by simp) (List.mem_of_head? hyb)
        rw [hprev y hy hne, h.prev_eq c y (e ++ x :: b) (by simp)]

end Linked
