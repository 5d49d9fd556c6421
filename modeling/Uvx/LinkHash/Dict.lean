import Mathlib.Data.List.AList
import Uvx.Common.Exec
import Uvx.LinkHash.Table

/-!
# The table as a dictionary

`Maps t d`: the entries of `t` are those of the dictionary `d`, the newest last. Inserting a key that is
held replaces its entry, unless the search for a place meets a freed cell first (`Shadowed`).
-/

namespace Uvx.LinkHash

variable {t : LhTable} {slots : List ℕ} {k v : UInt64}

/-- A dictionary of pointers, the newest entry first. -/
abbrev Dict := AList fun _ : UInt64 => UInt64

/-- The entries of `t` are those of `d`, in the order of their insertion. -/
def Maps (t : LhTable) (d : Dict) : Prop :=
  ∃ slots, Repr t slots ∧ slots.map t.entry = d.entries.reverse

variable {d : Dict}

/-! ## Dictionaries -/

/-- Taking an entry out of the middle. -/
theorem entries_erase_reverse {l l' : List (Σ _ : UInt64, UInt64)}
    (h : d.entries.reverse = l ++ ⟨k, v⟩ :: l') :
    (d.erase k).entries.reverse = l ++ l' := by
  have hentries : d.entries = l'.reverse ++ ⟨k, v⟩ :: l.reverse := by
    rw [← List.reverse_reverse d.entries, h]
    simp
  have hnot : k ∉ l'.reverse.keys := by
    have hnodup := d.nodupKeys
    rw [hentries, List.NodupKeys, List.keys, List.map_append, List.map_cons] at hnodup
    exact fun hmem => (List.nodup_append.mp hnodup).2.2 _ hmem _ (List.mem_cons_self) rfl
  have hcons : List.kerase k (⟨k, v⟩ :: l.reverse) = l.reverse := List.kerase_cons_eq rfl
  show (List.kerase k d.entries).reverse = _
  rw [hentries, List.kerase_append_right hnot, hcons, List.reverse_append, List.reverse_reverse,
    List.reverse_reverse]

theorem entries_insert_reverse (d : Dict) (k v : UInt64) :
    (d.insert k v).entries.reverse = (d.erase k).entries.reverse ++ [⟨k, v⟩] := by
  rw [AList.entries_insert, List.reverse_cons]
  rfl

theorem erase_of_notMem (h : k ∉ d) : d.erase k = d :=
  AList.ext (List.kerase_of_notMem_keys (mt AList.mem_keys.mpr h))

/-- The keys of the dictionary are those of the cells. -/
theorem mem_iff_of_entries (h : slots.map t.entry = d.entries.reverse) :
    k ∈ d ↔ ∃ n ∈ slots, t.key n = k := by
  rw [AList.mem_keys, AList.keys, List.keys, ← List.mem_reverse, ← List.map_reverse, ← h,
    List.map_map, List.mem_map]
  rfl

namespace Maps

theorem holds (h : Maps t d) : Holds t d.keys.reverse := by
  obtain ⟨slots, hrepr, hentries⟩ := h
  refine ⟨slots, hrepr, ?_⟩
  have hkeys := congrArg (List.map Sigma.fst) hentries
  rw [List.map_map, List.map_reverse] at hkeys
  exact hkeys

theorem keys_eq (h : Maps t d) : t.keys = d.keys.reverse := h.holds.keys_eq

/-- **Looking up.** -/
theorem lookup (h : Maps t d) (hsize : 0 < t.size) (hk : IsKey k) :
    lhTableLookup t k = .ok ((d.lookup k).getD 0) := by
  unfold lhTableLookup
  by_cases hmem : k ∈ d
  · obtain ⟨slots, hrepr, hentries⟩ := h
    obtain ⟨n, hn, rfl⟩ := (mem_iff_of_entries hentries).mp hmem
    have hentry : t.entry n ∈ d.entries := by
      rw [← List.mem_reverse, ← hentries]
      exact List.mem_map_of_mem hn
    rw [hrepr.lookup hn, AList.mem_lookup_iff.mpr hentry]
    rfl
  · have hnot : k ∉ d.keys.reverse := by
      rw [List.mem_reverse]
      exact mt AList.mem_keys.mpr hmem
    rw [h.holds.lookup_of_notMem hsize hk hnot, AList.lookup_eq_none.mpr hmem]
    rfl

/-- **Deleting.** -/
theorem delete (h : Maps t d) (hmem : k ∈ d) :
    ∃ t', lhTableDelete t k = .ok (0, t') ∧ Maps t' (d.erase k) ∧ t'.size = t.size := by
  obtain ⟨slots, hrepr, hentries⟩ := h
  obtain ⟨n, hn, rfl⟩ := (mem_iff_of_entries hentries).mp hmem
  have hlookup := hrepr.lookup hn
  obtain ⟨a, b, rfl⟩ := List.append_of_mem hn
  obtain ⟨t', ht', hrepr', hsize, -, hkey⟩ := hrepr.deleteEntry
  have hnab : n ∉ a ++ b := (List.nodup_middle.mp hrepr.threads.nodup).notMem
  refine ⟨t', ?_, ⟨a ++ b, hrepr', ?_⟩, hsize⟩
  · unfold lhTableDelete
    rw [hlookup]
    exact ht'
  · have hsame : (a ++ b).map t'.entry = (a ++ b).map t.entry := by
      refine List.map_congr_left ?_
      intro m hm
      have hne : m ≠ n := fun hmn => hnab (hmn ▸ hm)
      rw [LhTable.entry, LhTable.entry, hkey m hne, value_lhTableDeleteEntry ht' hne]
    rw [List.map_append, List.map_cons] at hentries
    rw [hsame, entries_erase_reverse hentries.symm, List.map_append]

theorem delete_of_notMem (h : Maps t d) (hsize : 0 < t.size) (hk : IsKey k) (hmem : k ∉ d) :
    lhTableDelete t k = .ok (-1, t) := by
  have hnot : k ∉ d.keys.reverse := by
    rw [List.mem_reverse]
    exact mt AList.mem_keys.mpr hmem
  unfold lhTableDelete
  rw [h.holds.lookup_of_notMem hsize hk hnot]
  rfl

end Maps

/-- The table of double size is the same dictionary, and has no freed cell. -/
theorem Maps.resize {insert : LhTable → UInt64 → UInt64 → Except LhFault LhTable}
    (hinsert : PutsLast insert) (h : Maps t d) (hsize : t.size < 2 ^ 30) :
    ∃ t', lhTableResize insert t (Int.bmod (t.size * 2) (2 ^ 32)) = .ok t' ∧ Maps t' d ∧
      NoFreed t' ∧ t'.size = 2 * t.size := by
  obtain ⟨slots, h, hentries⟩ := h
  obtain ⟨t', slots', ht', hrepr, hsame, hfree, hsize'⟩ := h.resize hinsert hsize
  exact ⟨t', ht', ⟨slots', hrepr, hsame.trans hentries⟩, hfree, hsize'⟩

end Uvx.LinkHash
