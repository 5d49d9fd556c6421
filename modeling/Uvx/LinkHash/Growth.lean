import Uvx.LinkHash.Reinsert

/-!
# How large a table gets

Deletions keep the size of a table. An insertion keeps it too, or doubles it, and this only when the
table is more than 66 % full (`grown_of_insert`). The layout does not matter.
-/

namespace Uvx.LinkHash

variable {t t' : LhTable} {n : ℕ} {k v : UInt64}

/-- `t'` is as large as `t`, or twice as large as `t`, which was too full. -/
def Grown (t t' : LhTable) : Prop :=
  t'.size = t.size ∨ (Heavy t ∧ t'.size = 2 * t.size)

/-- `t'` is as large as `t` and has no more entries. -/
structure Shrunk (t t' : LhTable) : Prop where
  size_eq : t'.size = t.size
  count_le : t'.count ≤ t.count

theorem exists_of_bind_eq_ok {α β : Type} {x : Except LhFault α} {f : α → Except LhFault β} {b : β}
    (h : x >>= f = .ok b) : ∃ a, x = .ok a ∧ f a = .ok b := by
  cases x with
  | ok a => exact ⟨a, rfl, h⟩
  | error fault => exact absurd h nofun

theorem size_unlinkEntry (h : unlinkEntry t n = .ok t') :
    t'.size = t.size ∧ t'.count = t.count := by
  unfold unlinkEntry at h
  split_ifs at h
  · obtain rfl := Except.ok.inj h
    exact ⟨rfl, rfl⟩
  all_goals
    split at h
    · obtain rfl := Except.ok.inj h
      exact ⟨rfl, rfl⟩
    · exact absurd h nofun

theorem size_linkEntry (h : linkEntry t n = .ok t') : t'.size = t.size := by
  unfold linkEntry at h
  split at h
  · obtain rfl := Except.ok.inj h
    rfl
  · obtain rfl := Except.ok.inj h
    rfl
  · exact absurd h nofun

theorem shrunk_deleteEntry {r : ℤ} (h : lhTableDeleteEntry t n = .ok (r, t')) : Shrunk t t' := by
  unfold lhTableDeleteEntry at h
  split_ifs at h
  · obtain ⟨-, rfl⟩ := Prod.mk.inj (Except.ok.inj h)
    exact ⟨rfl, le_refl _⟩
  · obtain ⟨t₂, hunlink, h⟩ := exists_of_bind_eq_ok h
    obtain ⟨-, rfl⟩ := Prod.mk.inj (Except.ok.inj h)
    obtain ⟨hsize, hcount⟩ := size_unlinkEntry hunlink
    refine ⟨hsize, ?_⟩
    rw [LhTable.setEntry_count, hcount, LhTable.setEntry_count]
    exact Int.sub_le_self _ (by decide)

theorem shrunk_delete {r : ℤ} (h : lhTableDelete t k = .ok (r, t')) : Shrunk t t' := by
  unfold lhTableDelete at h
  obtain ⟨found, -, h⟩ := exists_of_bind_eq_ok h
  cases found with
  | none =>
    obtain ⟨-, rfl⟩ := Prod.mk.inj (Except.ok.inj h)
    exact ⟨rfl, le_refl _⟩
  | some n => exact shrunk_deleteEntry h

theorem size_put (h : lhTablePut t k v = .ok t') : t'.size = t.size := by
  unfold lhTablePut at h
  obtain ⟨n, -, h⟩ := exists_of_bind_eq_ok h
  dsimp only at h
  split at h
  · exact absurd h nofun
  · next m same _ =>
    -- the key itself is deleted from its cell first
    split at h
    · obtain ⟨t₁, hdel, h⟩ := exists_of_bind_eq_ok h
      cases hr : lhTableDeleteEntry t m with
      | ok r =>
        rw [hr] at hdel
        obtain rfl := Except.ok.inj hdel
        exact (size_linkEntry h).trans (shrunk_deleteEntry hr).size_eq
      | error fault =>
        rw [hr] at hdel
        exact absurd hdel nofun
    · obtain ⟨t₁, hsame, h⟩ := exists_of_bind_eq_ok h
      obtain rfl := Except.ok.inj hsame
      have hsize := size_linkEntry h
      exact hsize

/-- A table is doubled when its double is an `int`. -/
theorem size_resize {insert : LhTable → UInt64 → UInt64 → Except LhFault LhTable}
    (hlt : t.size < 2 ^ 31)
    (h : lhTableResize insert t (Int.bmod (t.size * 2) (2 ^ 32)) = .ok t') :
    t'.size = 2 * t.size := by
  rcases Nat.lt_or_ge t.size (2 ^ 30) with hsize | hsize
  · rw [Int.bmod_eq_of_le (by omega) (by omega)] at h
    unfold lhTableResize at h
    obtain ⟨newT, -, h⟩ := exists_of_bind_eq_ok h
    obtain ⟨newT', -, h⟩ := exists_of_bind_eq_ok h
    obtain rfl := Except.ok.inj h
    show (t.size * 2 : ℤ).toNat = 2 * t.size
    omega
  · rw [lhTableResize_abort hsize hlt] at h
    exact absurd h nofun

/-- **Inserting** doubles a table only when it is too full. -/
theorem grown_of_insert (hlt : t.size < 2 ^ 31) (h : lhTableInsert t k v = .ok t') :
    Grown t t' := by
  rw [lhTableInsert, insertDepth] at h
  by_cases hload : 66 * (t.size : ℤ) < 100 * t.count
  · rw [if_pos hload] at h
    obtain ⟨t₁, hresize, h⟩ := exists_of_bind_eq_ok h
    exact Or.inr ⟨hload, (size_put h).trans (size_resize hlt hresize)⟩
  · rw [if_neg hload] at h
    exact Or.inl (size_put h)

/-- A deletion in front of the insertion does not make a table too full. -/
theorem Shrunk.grown {t₁ : LhTable} (h : Shrunk t t₁) (hgrown : Grown t₁ t') : Grown t t' := by
  rw [Grown, h.size_eq] at hgrown
  refine hgrown.imp_right fun ⟨hload, hsize⟩ => ⟨?_, hsize⟩
  have := h.count_le
  rw [Heavy, h.size_eq] at hload
  rw [Heavy]
  omega

end Uvx.LinkHash
