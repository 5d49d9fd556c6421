import Uvx.LinkHash.Reinsert

/-!
# Deleting while iterating: `lh_foreach_safe`

The macro remembers the next entry before its body runs, so that the body may delete the entry at hand.
Every entry is visited once, in order, and what the body does not delete stays (`lhForeachSafe_spec`).
-/

namespace Uvx.LinkHash

variable {t : LhTable} {d : Dict} {slots : List ℕ}

/-- `lh_foreach_safe` with this `body`, from entry `ent` on, with the entries visited. The list has at
most `size` entries, or it is a cycle. -/
def lhForeachSafe (body : ℕ → LhTable → Except LhFault LhTable) :
    ℕ → Option ℕ → LhTable → Except LhFault (List (Σ _ : UInt64, UInt64) × LhTable)
  | _, none, t => pure ([], t)
  | 0, some _, _ => throw .loops
  | fuel + 1, some n, t => do
    let tmp := t.next n
    let e := t.entry n
    let t ← body n t
    let (es, t) ← lhForeachSafe body fuel tmp t
    pure (e :: es, t)

/-- A body that deletes some of the entries. -/
def deleteIf (p : (Σ _ : UInt64, UInt64) → Bool) (n : ℕ) (t : LhTable) : Except LhFault LhTable :=
  if p (t.entry n) then Prod.snd <$> lhTableDelete t (t.key n) else pure t

/-- The entries for which `p` does not hold. -/
def Dict.drop (d : Dict) (p : (Σ _ : UInt64, UInt64) → Bool) : Dict :=
  ⟨d.entries.filter (fun e => !p e), d.nodupKeys.sublist (List.filter_sublist)⟩

/-- Deleting an entry leaves the others as they are. -/
theorem Repr.deleteKey {a b : List ℕ} {n : ℕ} (h : Repr t (a ++ n :: b)) :
    ∃ t', lhTableDelete t (t.key n) = .ok (0, t') ∧ Repr t' (a ++ b) ∧ t'.size = t.size ∧
      ∀ m ∈ a ++ b, t'.entry m = t.entry m := by
  have hnab : n ∉ a ++ b := (List.nodup_middle.mp h.threads.nodup).notMem
  obtain ⟨t', ht', hrepr, hsize, -, hkey⟩ := h.deleteEntry
  refine ⟨t', ?_, hrepr, hsize, ?_⟩
  · unfold lhTableDelete
    rw [h.lookup (by simp)]
    exact ht'
  · intro m hm
    have hne : m ≠ n := fun hmn => hnab (hmn ▸ hm)
    rw [LhTable.entry, LhTable.entry, hkey m hne, value_lhTableDeleteEntry ht' hne]

/-- The loop in front of the entries `rest`, when the entries `a` have been kept so far. -/
theorem foreach_deleteIf (p : (Σ _ : UInt64, UInt64) → Bool) {a rest : List ℕ}
    (h : Repr t (a ++ rest)) {fuel : ℕ} (hfuel : rest.length ≤ fuel) :
    ∃ t' slots', lhForeachSafe (deleteIf p) fuel rest.head? t = .ok (rest.map t.entry, t') ∧
      Repr t' slots' ∧
      slots'.map t'.entry = a.map t.entry ++ (rest.map t.entry).filter fun e => !p e := by
  induction rest generalizing t a fuel with
  | nil =>
    refine ⟨t, a, ?_, by rwa [List.append_nil] at h, ?_⟩
    · rw [List.head?_nil, lhForeachSafe]
      rfl
    · rw [List.map_nil, List.filter_nil, List.append_nil]
  | cons n rest ih =>
    cases fuel with
    | zero => simp at hfuel
    | succ fuel =>
      have hfuel' : rest.length ≤ fuel := by simpa using hfuel
      have hnext : t.next n = rest.head? := h.threads.next_eq a n rest rfl
      rw [List.head?_cons, lhForeachSafe, List.map_cons]
      by_cases hp : p (t.entry n) = true
      · -- the entry leaves, and `tmp` leads on
        obtain ⟨t₁, ht₁, hrepr₁, -, hentry₁⟩ := h.deleteKey
        obtain ⟨t₂, slots₂, hloop, hrepr₂, hentries₂⟩ := ih hrepr₁ hfuel'
        have hbody : deleteIf p n t = .ok t₁ := by
          rw [deleteIf, if_pos hp, ht₁]
          rfl
        have hrest : rest.map t₁.entry = rest.map t.entry :=
          List.map_congr_left fun m hm => hentry₁ m (List.mem_append_right _ hm)
        have hkept : a.map t₁.entry = a.map t.entry :=
          List.map_congr_left fun m hm => hentry₁ m (List.mem_append_left _ hm)
        refine ⟨t₂, slots₂, ?_, hrepr₂, ?_⟩
        · simp only [hnext, hbody, bind, Except.bind, hloop, hrest]
          rfl
        · rw [hentries₂, hrest, hkept, List.filter_cons_of_neg (by simp [hp])]
      · obtain ⟨t₂, slots₂, hloop, hrepr₂, hentries₂⟩ :=
          ih (a := a ++ [n]) (by rwa [List.append_assoc, List.singleton_append]) hfuel'
        have hbody : deleteIf p n t = .ok t := by
          rw [deleteIf, if_neg hp]
          rfl
        refine ⟨t₂, slots₂, ?_, hrepr₂, ?_⟩
        · simp only [hnext, hbody, bind, Except.bind, hloop]
          rfl
        · rw [hentries₂, List.filter_cons_of_pos (by simp [hp]), List.map_append, List.map_singleton,
            List.append_assoc, List.singleton_append]

/-- **Every entry is visited once, in the order of insertion, and exactly the chosen ones are
deleted.** -/
theorem lhForeachSafe_spec (h : Maps t d) (p : (Σ _ : UInt64, UInt64) → Bool) :
    ∃ t', lhForeachSafe (deleteIf p) t.size t.head t = .ok (d.entries.reverse, t') ∧
      Maps t' (d.drop p) := by
  obtain ⟨slots, hrepr, hentries⟩ := h
  obtain ⟨t', slots', hloop, hrepr', hentries'⟩ :=
    foreach_deleteIf p (show Repr t ([] ++ slots) from hrepr) hrepr.length_le
  rw [List.map_nil, List.nil_append, hentries] at hentries'
  refine ⟨t', ?_, slots', hrepr', ?_⟩
  · rw [show t.head = slots.head? from hrepr.threads.head_eq, hloop, hentries]
  · rw [hentries', List.filter_reverse]
    rfl

/-- A loop that deletes the entries with the value 2. -/
theorem lhForeachSafe_spec_collide : ∃ t t', Maps t (dictOf collide) ∧
    lhForeachSafe (deleteIf fun e => e.2 = 2) t.size t.head t = .ok ([⟨80, 2⟩], t') ∧
    Maps t' ((dictOf collide).drop fun e => e.2 = 2) := by
  obtain ⟨t₀, t, hnew, h, -⟩ := exec_collide
  have hmaps := maps_run (show (4 : ℤ) < 2 ^ 31 by decide) hnew h
  obtain ⟨t', hloop, hmaps'⟩ := lhForeachSafe_spec hmaps fun e => e.2 = 2
  exact ⟨t, t', hmaps, hloop, hmaps'⟩

end Uvx.LinkHash
