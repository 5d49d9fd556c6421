import Mathlib.Data.Nat.Find
import Uvx.LinkHash.Dict

/-!
# Inserting a key again

The search for a place stops at the first vacant cell, so that a freed cell in front of the one that
holds the key hides it (`Shadowed`). The key is then in the table twice, and deleting it brings the old
entry back (`insert_delete`). Otherwise, and after every enlargement of the table, the entry is replaced,
so that all runs without a shadowed insertion are those of a dictionary (`dictionary_run`).
-/

namespace Uvx.LinkHash

variable {t t' : LhTable} {slots a b : List ℕ} {k v : UInt64} {n p : ℕ} {d : Dict}

/-- The cell met after `i` steps of the search for `k`. -/
def LhTable.cell (t : LhTable) (k : UInt64) (i : ℕ) : ℕ := (t.home k % t.size + i) % t.size

/-- The search for a place for `k` meets a freed cell in front of the one that holds `k`. -/
def Shadowed (t : LhTable) (k : UInt64) : Prop :=
  ∃ i < t.size, t.key (t.cell k i) = lhFreed ∧ ∀ j < i, t.key (t.cell k j) ≠ k

instance (t : LhTable) (k : UInt64) : Decidable (Shadowed t k) :=
  inferInstanceAs (Decidable (∃ i < t.size, _ ∧ ∀ j < i, _))

/-- The next insertion enlarges the table. -/
def Heavy (t : LhTable) : Prop := 66 * (t.size : ℤ) < 100 * t.count

instance (t : LhTable) : Decidable (Heavy t) := inferInstanceAs (Decidable (_ < _))

theorem not_shadowed_of_noFreed (h : NoFreed t) (k : UInt64) : ¬ Shadowed t k := by
  rintro ⟨i, hi, hfreed, -⟩
  exact h _ (Nat.mod_lt _ (by omega)) hfreed

/-! ## Where the search stops -/

/-- The search for a place passes the cells that hold other keys. -/
def Passes (t : LhTable) (k : UInt64) (i : ℕ) : Prop :=
  ∀ j < i, IsKey (t.key (t.cell k j)) ∧ t.key (t.cell k j) ≠ k

theorem Passes.placeStep {i : ℕ} (h : Passes t k i) {j : ℕ} (hj : j < i) :
    Probe.placeStep lhEmpty lhFreed t.key k (t.cell k j) = none := by
  rw [Probe.placeStep, if_neg (h j hj).1, if_neg (h j hj).2]

/-- The search stops at a vacant cell. -/
theorem lhTablePut_of_vacant {i : ℕ} (heq : t.equalFn = lhPtrEqual) (hi : i < t.size)
    (hpass : Passes t k i) (hvacant : ¬ IsKey (t.key (t.cell k i))) (v : UInt64) :
    lhTablePut t k v = linkEntry
      { t.setEntry (t.cell k i) { t.table (t.cell k i) with k := k, v := v } with
        count := t.count + 1 } (t.cell k i) := by
  have hstop : Probe.scan t.size (Probe.placeStep lhEmpty lhFreed t.key k) t.size
      (t.home k % t.size) = some (t.cell k i, false) := by
    refine Probe.scan_of_first (Nat.mod_lt _ (by omega)) hi ?_ fun j hj => hpass.placeStep hj
    exact if_pos (not_not.mp hvacant)
  rw [lhTablePut_of_scan heq (by omega) hstop]
  rfl

/-- The search stops at the key itself, whose entry is then deleted. -/
theorem lhTablePut_of_same {i : ℕ} (heq : t.equalFn = lhPtrEqual) (hi : i < t.size)
    (hpass : Passes t k i) (hk : IsKey k) (hsame : t.key (t.cell k i) = k) {r : ℤ} {t₁ : LhTable}
    (hdelete : lhTableDeleteEntry t (t.cell k i) = .ok (r, t₁)) (v : UInt64) :
    lhTablePut t k v = linkEntry
      { t₁.setEntry (t.cell k i) { t₁.table (t.cell k i) with k := k, v := v } with
        count := t₁.count + 1 } (t.cell k i) := by
  have hstop : Probe.scan t.size (Probe.placeStep lhEmpty lhFreed t.key k) t.size
      (t.home k % t.size) = some (t.cell k i, true) := by
    refine Probe.scan_of_first (Nat.mod_lt _ (by omega)) hi ?_ fun j hj => hpass.placeStep hj
    rw [← LhTable.cell, Probe.placeStep, if_neg (hsame.symm ▸ hk), if_pos hsame]
  rw [lhTablePut_of_scan heq (by omega) hstop, if_pos rfl, hdelete]
  rfl

/-- The way to the cell of a key leads over cells that are not empty and hold no such key. -/
theorem Repr.reach (h : Repr t slots) (hn : n ∈ slots) :
    ∃ i < t.size, t.cell (t.key n) i = n ∧
      ∀ j < i, t.key (t.cell (t.key n) j) ≠ lhEmpty ∧ t.key (t.cell (t.key n) j) ≠ t.key n := by
  have hlt := h.lt_size hn
  obtain ⟨i, hi, hin, hj⟩ := h.layout.reach n hlt (h.isKey hn)
  refine ⟨i, hi, hin, ?_⟩
  intro j hji
  refine ⟨hj j hji, ?_⟩
  intro he
  -- a second cell with the same key
  have hm : t.cell (t.key n) j < t.size := Nat.mod_lt _ (by omega)
  have heq := Nat.ModEq.add_left_cancel (Nat.ModEq.refl (t.home (t.key n) % t.size))
    (hin.trans (h.layout.inj n hlt _ hm (h.isKey hn) he.symm))
  rw [Nat.ModEq, Nat.mod_eq_of_lt hi, Nat.mod_eq_of_lt (hji.trans hi)] at heq
  omega

/-- Without a freed cell in front, the search for a place finds the key. -/
theorem Repr.passes (h : Repr t slots) (hn : n ∈ slots) (hclear : ¬ Shadowed t (t.key n)) :
    ∃ i < t.size, t.cell (t.key n) i = n ∧ Passes t (t.key n) i := by
  obtain ⟨i, hi, hin, hpath⟩ := h.reach hn
  refine ⟨i, hi, hin, ?_⟩
  intro j hj
  refine ⟨?_, (hpath j hj).2⟩
  rintro (hempty | hfreed)
  · exact (hpath j hj).1 hempty
  · exact hclear ⟨j, hj.trans hi, hfreed, fun j' hj' => (hpath j' (hj'.trans hj)).2⟩

/-- Behind a freed cell, it stops at a vacant one. -/
theorem Shadowed.passes (h : Shadowed t k) :
    ∃ i < t.size, Passes t k i ∧ ¬ IsKey (t.key (t.cell k i)) := by
  classical
  obtain ⟨i, hi, hfreed, hne⟩ := h
  have hex : ∃ i, ¬ IsKey (t.key (t.cell k i)) := ⟨i, not_not.mpr (Or.inr hfreed)⟩
  have hle : Nat.find hex ≤ i := Nat.find_min' hex (not_not.mpr (Or.inr hfreed))
  refine ⟨Nat.find hex, by omega, ?_, Nat.find_spec hex⟩
  intro j hj
  exact ⟨not_not.mp (Nat.find_min hex hj), hne j (by omega)⟩

/-! ## Replacing an entry -/

/-- Without a freed cell in front, the entry is deleted and put into its cell again. -/
theorem Repr.putAgain (h : Repr t (a ++ n :: b)) (hclear : ¬ Shadowed t (t.key n)) (v : UInt64) :
    ∃ t', lhTablePut t (t.key n) v = .ok t' ∧ Repr t' (a ++ b ++ [n]) ∧
      Placed t t' n (t.key n) v := by
  have hn : n ∈ a ++ n :: b := by simp
  have hk := h.isKey hn
  have hnab : n ∉ a ++ b := (List.nodup_middle.mp h.threads.nodup).notMem
  obtain ⟨i, hi, hin, hpass⟩ := h.passes hn hclear
  obtain ⟨t₁, ht₁, hrepr, hsize, hhash, hkey⟩ := h.deleteEntry
  have hhome : t₁.home = t.home := LhTable.home_congr hhash
  have hcell : ∀ j, (t₁.home (t.key n) % t₁.size + j) % t₁.size = t.cell (t.key n) j := by
    intro j
    rw [hhome, hsize, LhTable.cell]
  have hvacant : ¬ IsKey (t₁.key n) := by
    intro hkey₁
    exact hnab ((hrepr.mem_iff n).mpr ⟨hsize ▸ h.lt_size hn, hkey₁⟩)
  have habsent : ∀ m < t₁.size, t₁.key m ≠ t.key n := by
    intro m hm heq
    by_cases hmn : m = n
    · rw [hmn] at heq
      exact hvacant (heq ▸ hk)
    · rw [hkey m hmn] at heq
      exact hmn (h.layout.inj m (hsize ▸ hm) n (h.lt_size hn) (heq ▸ hk) heq)
  obtain ⟨t₂, ht₂, hrepr₂, hplaced⟩ := hrepr.place hk habsent (hsize ▸ hi)
    (by rw [hcell, hin]; exact hvacant)
    (fun j hj => by
      have hne : t.cell (t.key n) j ≠ n := fun he => (hpass j hj).2 (congrArg t.key he)
      rw [hcell, hkey _ hne]
      exact fun he => (hpass j hj).1 (Or.inl he)) v
  rw [hcell, hin] at ht₂ hrepr₂ hplaced
  refine ⟨t₂, ?_, hrepr₂, hplaced.size_eq.trans hsize, hplaced.hashFn_eq.trans hhash,
    hrepr₂.equalFn_eq.trans h.equalFn_eq.symm, ?_, ?_⟩
  · rw [lhTablePut_of_same h.equalFn_eq hi hpass hk (congrArg t.key hin) (hin.symm ▸ ht₁), hin]
    exact ht₂
  · intro m
    rw [hplaced.key_eq]
    split_ifs with hm
    · rfl
    · exact hkey m hm
  · intro m
    rw [hplaced.value_eq]
    split_ifs with hm
    · rfl
    · exact value_lhTableDeleteEntry ht₁ hm

/-- **Putting an entry** without a freed cell in front of its key. -/
theorem Maps.put (h : Maps t d) (hlen : d.keys.length < t.size) (hk : IsKey k)
    (hclear : k ∈ d → ¬ Shadowed t k) (v : UInt64) :
    ∃ t', lhTablePut t k v = .ok t' ∧ Maps t' (d.insert k v) ∧ t'.size = t.size ∧
      (NoFreed t → NoFreed t') := by
  obtain ⟨slots, hrepr, hentries⟩ := h
  have hlength : slots.length = d.keys.length := by
    have hl := congrArg List.length hentries
    rw [List.length_map, List.length_reverse] at hl
    rw [hl, AList.keys, List.keys, List.length_map]
  by_cases hmem : k ∈ d
  · obtain ⟨n, hn, rfl⟩ := (mem_iff_of_entries hentries).mp hmem
    obtain ⟨a, b, rfl⟩ := List.append_of_mem hn
    have hnab : n ∉ a ++ b := (List.nodup_middle.mp hrepr.threads.nodup).notMem
    obtain ⟨t', hput, hrepr', hplaced⟩ := hrepr.putAgain (hclear hmem) v
    refine ⟨t', hput, ⟨a ++ b ++ [n], hrepr', ?_⟩, hplaced.size_eq, hplaced.noFreed hk⟩
    rw [List.map_append, List.map_cons] at hentries
    rw [hplaced.map_entry hnab, entries_insert_reverse, entries_erase_reverse hentries.symm,
      List.map_append]
  · have habsent : ∀ m < t.size, t.key m ≠ k := by
      rintro m hm rfl
      exact hmem ((mem_iff_of_entries hentries).mpr ⟨m, (hrepr.mem_iff m).mpr ⟨hm, hk⟩, rfl⟩)
    obtain ⟨p, t', hput, hp, hrepr', hplaced⟩ := hrepr.put (hlength ▸ hlen) hk habsent v
    refine ⟨t', hput, ⟨slots ++ [p], hrepr', ?_⟩, hplaced.size_eq, hplaced.noFreed hk⟩
    rw [hplaced.map_entry hp, entries_insert_reverse, erase_of_notMem hmem, hentries]

/-- **Inserting** replaces the entry of a key that is not shadowed. It fails only on a table of size 0,
where the remainder is undefined, and on a table too large to be doubled. -/
theorem Maps.insert (h : Maps t d) (hk : IsKey k) (hclear : k ∈ d → Heavy t ∨ ¬ Shadowed t k)
    (v : UInt64) :
    (∃ t', lhTableInsert t k v = .ok t' ∧ Maps t' (d.insert k v) ∧ t.size ≤ t'.size ∧
        (NoFreed t → NoFreed t')) ∨
      (t.size = 0 ∧ lhTableInsert t k v = .error .divByZero) ∨
      (2 ^ 30 ≤ t.size ∧ lhTableInsert t k v = .error .abort) := by
  have hcount := h.holds.count_eq
  have hlen := h.holds.length_le
  rw [List.length_reverse] at hcount hlen
  rw [lhTableInsert]
  by_cases hload : Heavy t
  · rw [Heavy] at hload
    rw [insertDepth, if_pos hload]
    rcases Nat.lt_or_ge t.size (2 ^ 30) with hsize | hsize
    · obtain ⟨t₁, ht₁, h₁, hfree, hsize₁⟩ := h.resize (putsLast_insertDepth 30) hsize
      -- the table of double size has no freed cell
      obtain ⟨t₂, ht₂, h₂, hsize₂, hfree₂⟩ :=
        h₁.put (by omega) hk (fun _ => not_shadowed_of_noFreed hfree k) v
      refine Or.inl ⟨t₂, ?_, h₂, by omega, fun _ => hfree₂ hfree⟩
      rw [ht₁]
      exact ht₂
    · refine Or.inr (Or.inr ⟨hsize, ?_⟩)
      rw [lhTableResize_abort hsize h.holds.size_lt]
      rfl
  · rw [insertDepth_of_light hload]
    rcases Nat.eq_zero_or_pos t.size with hz | hpos
    · refine Or.inr (Or.inl ⟨hz, ?_⟩)
      unfold lhTablePut
      rw [homeSlot_of_zero hz]
      rfl
    · rw [Heavy] at hload
      obtain ⟨t₂, ht₂, h₂, hsize₂, hfree₂⟩ :=
        h.put (by omega) hk (fun hmem => (hclear hmem).resolve_left hload) v
      exact Or.inl ⟨t₂, ht₂, h₂, by omega, hfree₂⟩

/-! ## Behind a freed cell -/

/-- A search for a key ends at the first cell that holds it. -/
theorem lookup_of_passes {i : ℕ} (heq : t.equalFn = lhPtrEqual) (hi : i < t.size)
    (hpass : Passes t k i) (hk : IsKey k) (hkey : t.key (t.cell k i) = k) :
    lhTableLookupEntry t k = .ok (some (t.cell k i)) := by
  have hscan : Probe.scan t.size (Probe.findStep lhEmpty lhFreed t.key k) t.size (t.home k % t.size)
      = some (some (t.cell k i)) := by
    refine Probe.scan_of_first (Nat.mod_lt _ (by omega)) hi ?_ ?_
    · rw [← LhTable.cell, Probe.findStep, hkey, if_neg fun he => hk (Or.inl he),
        if_pos ⟨fun he => hk (Or.inr he), rfl⟩]
    · intro j hj
      rw [← LhTable.cell, Probe.findStep, if_neg fun he => (hpass j hj).1 (Or.inl he),
        if_neg fun he => (hpass j hj).2 he.2]
  rw [lhTableLookupEntry_eq heq, homeSlot_of_pos (by omega)]
  exact congrArg (fun r => Except.ok (Option.join r)) hscan

/-- A shadowed key is put a second time, into a cell in front of its own. -/
theorem Repr.putShadowed (h : Repr t slots) (hk : IsKey k) (hshadow : Shadowed t k) (v : UInt64) :
    ∃ p t', lhTablePut t k v = .ok t' ∧ p ∉ slots ∧ Threads t' (slots ++ [p]) ∧
      t'.count = t.count + 1 ∧ Placed t t' p k v ∧ p < t.size ∧
      lhTableLookupEntry t' k = .ok (some p) := by
  obtain ⟨i, hi, hpass, hvacant⟩ := hshadow.passes
  have hp : t.cell k i ∉ slots := fun hps => hvacant (h.isKey hps)
  obtain ⟨t', ht', hth, hcount, hplaced⟩ := h.threads.place hp k v
  have hcell : ∀ j, t'.cell k j = t.cell k j := by
    intro j
    rw [LhTable.cell, LhTable.cell, hplaced.size_eq, LhTable.home_congr hplaced.hashFn_eq]
  refine ⟨_, t', (lhTablePut_of_vacant h.equalFn_eq hi hpass hvacant v).trans ht', hp, hth, hcount,
    hplaced, Nat.mod_lt _ (by omega), ?_⟩
  rw [← hcell]
  refine lookup_of_passes (hplaced.equalFn_eq.trans h.equalFn_eq) (hplaced.size_eq.symm ▸ hi) ?_ hk ?_
  · intro j hj
    have hne : t.cell k j ≠ t.cell k i := fun he => hvacant (he ▸ (hpass j hj).1)
    rw [hcell, hplaced.key_eq, if_neg hne]
    exact hpass j hj
  · rw [hcell, hplaced.key_eq, if_pos rfl]

/-- Deleting the second entry of a shadowed key leaves the first one behind. -/
theorem Maps.put_delete_of_shadowed (h : Maps t d) (hk : IsKey k) (hshadow : Shadowed t k)
    (v : UInt64) :
    ∃ t₁ t₂, lhTablePut t k v = .ok t₁ ∧ t₁.keys = d.keys.reverse ++ [k] ∧
      lhTableDelete t₁ k = .ok (0, t₂) ∧ Maps t₂ d := by
  have hkeys := h.keys_eq
  obtain ⟨slots, hrepr, hentries⟩ := h
  obtain ⟨p, t₁, hput, hp, hth, hcount, hplaced, hpsize, hlookup⟩ := hrepr.putShadowed hk hshadow v
  have hkey : t₁.key p = k := by rw [hplaced.key_eq, if_pos rfl]
  obtain ⟨t₂, hdelete, hth₂, hfreed⟩ := Threads.deleteEntry hth (hkey.symm ▸ hk)
  rw [List.append_nil] at hth₂
  have hkey₂ : ∀ m, t₂.key m = if m = p then lhFreed else t.key m := by
    intro m
    rw [hfreed.key_eq, hplaced.key_eq]
    split_ifs
    · rfl
    · rfl
  have hequal : t₂.equalFn = lhPtrEqual :=
    (hfreed.equalFn_eq.trans hplaced.equalFn_eq).trans hrepr.equalFn_eq
  refine ⟨t₁, t₂, hput, ?_, ?_, slots, ⟨?_, hth₂, ?_, ?_, ?_, hequal⟩, ?_⟩
  · have hlen : (slots ++ [p]).length ≤ t₁.size := by
      have hsub : slots ++ [p] ⊆ List.range t₁.size := by
        intro m hm
        rw [hplaced.size_eq, List.mem_range]
        rcases List.mem_append.mp hm with hm | hm
        · exact hrepr.lt_size hm
        · exact List.mem_singleton.mp hm ▸ hpsize
      have hle := (hth.nodup.subperm hsub).length_le
      rwa [List.length_range] at hle
    rw [hth.keys_eq hlen, hplaced.map_key hp, ← hrepr.threads.keys_eq hrepr.length_le, hkeys]
  · unfold lhTableDelete
    rw [hlookup]
    exact hdelete
  · rw [hfreed.size_eq, hplaced.size_eq]
    exact hrepr.size_lt
  · intro m
    rw [hkey₂, hfreed.size_eq, hplaced.size_eq]
    by_cases hm : m = p
    · rw [if_pos hm, hm]
      exact iff_of_false hp fun hv => hv.2 (Or.inr rfl)
    · rw [if_neg hm, hrepr.mem_iff]
  · rw [hfreed.size_eq, hplaced.size_eq,
      show t₂.home = t.home from
        (LhTable.home_congr hfreed.hashFn_eq).trans (LhTable.home_congr hplaced.hashFn_eq)]
    exact hrepr.layout.free (by decide) (by rw [hkey₂, if_pos rfl]) fun m _ hm => by
      rw [hkey₂, if_neg hm]
  · rw [hfreed.count_eq, hcount, hrepr.count_eq]
    omega
  · rw [← hentries]
    refine List.map_congr_left ?_
    intro m hm
    have hne : m ≠ p := by rintro rfl; exact hp hm
    rw [LhTable.entry, LhTable.entry, hkey₂, if_neg hne, value_lhTableDeleteEntry hdelete hne,
      hplaced.value_eq, if_neg hne]

/-- **Inserting a held key and deleting it** takes it out, unless a freed cell lies in front of it and
the table is not enlarged: then the key is there twice in between, and its old entry comes back. -/
theorem insert_delete (h : Maps t d) (hmem : k ∈ d) (hsize : t.size < 2 ^ 30) (v : UInt64) :
    ∃ t₁ t₂, lhTableInsert t k v = .ok t₁ ∧ lhTableDelete t₁ k = .ok (0, t₂) ∧
      if Heavy t ∨ ¬ Shadowed t k then
        t₁.keys = (d.erase k).keys.reverse ++ [k] ∧ Maps t₂ (d.erase k)
      else t₁.keys = d.keys.reverse ++ [k] ∧ Maps t₂ d := by
  have hkeys : k ∈ d.keys.reverse := List.mem_reverse.mpr (AList.mem_keys.mp hmem)
  have hk : IsKey k := h.holds.isKey hkeys
  have hpos : 0 < t.size := by
    have hlen := h.holds.length_le
    have := List.length_pos_of_mem hkeys
    omega
  split_ifs with hclear
  · rcases h.insert hk (fun _ => hclear) v with ⟨t₁, hinsert, h₁, -, -⟩ | ⟨hz, -⟩ | ⟨hbig, -⟩
    · obtain ⟨t₂, hdelete, h₂, -⟩ := h₁.delete ((AList.mem_insert d).mpr (Or.inl rfl))
      refine ⟨t₁, t₂, hinsert, hdelete, ?_, ?_⟩
      · rw [h₁.keys_eq, AList.keys_insert, List.reverse_cons, AList.keys_erase]
      · have herase : (d.insert k v).erase k = d.erase k := by
          refine AList.ext (List.reverse_injective ?_)
          rw [entries_erase_reverse (entries_insert_reverse d k v), List.append_nil]
        rwa [herase] at h₂
    · omega
    · omega
  · rw [not_or, not_not] at hclear
    obtain ⟨t₁, t₂, hput, hkeys₁, hdelete, h₂⟩ := h.put_delete_of_shadowed hk hclear.2 v
    exact ⟨t₁, t₂, (insertDepth_of_light hclear.1 31).trans hput, hdelete, hkeys₁, h₂⟩

/-! ## Runs -/

/-- The calls that change a table. -/
inductive Op
  | insert (k v : UInt64)
  | delete (k : UInt64)

/-- What a call does. -/
def Op.run : Op → LhTable → Except LhFault LhTable
  | .insert k v, t => lhTableInsert t k v
  | .delete k, t => Prod.snd <$> lhTableDelete t k

/-- What it does to a dictionary. -/
def Op.apply : Op → Dict → Dict
  | .insert k v, d => d.insert k v
  | .delete k, d => d.erase k

def Op.Step (t : LhTable) (op : Op) (t' : LhTable) : Prop := op.run t = .ok t'

/-- The key is no sentinel, and a held key that is inserted again is not shadowed. -/
def Op.Clear (t : LhTable) : Op → Prop
  | .insert k _ => IsKey k ∧ (k ∈ t.keys → Heavy t ∨ ¬ Shadowed t k)
  | .delete k => IsKey k

/-- The dictionary after some calls. -/
def dictOf (ops : List Op) : Dict := ops.foldl (fun d op => op.apply d) ∅

theorem Maps.step (h : Maps t d) {op : Op} (hclear : op.Clear t) (hstep : op.Step t t') :
    Maps t' (op.apply d) := by
  cases op with
  | insert k v =>
    have hmem : k ∈ d → Heavy t ∨ ¬ Shadowed t k := by
      intro hmem
      refine hclear.2 ?_
      rw [h.keys_eq, List.mem_reverse]
      exact AList.mem_keys.mp hmem
    have hrun : lhTableInsert t k v = .ok t' := hstep
    rcases h.insert hclear.1 hmem v with ⟨t₁, hinsert, h₁, -, -⟩ | ⟨-, herror⟩ | ⟨-, herror⟩
    · obtain rfl := Except.ok.inj (hinsert.symm.trans hrun)
      exact h₁
    · exact absurd (herror.symm.trans hrun) nofun
    · exact absurd (herror.symm.trans hrun) nofun
  | delete k =>
    have hrun : Prod.snd <$> lhTableDelete t k = .ok t' := hstep
    by_cases hmem : k ∈ d
    · obtain ⟨t₁, hdelete, h₁, -⟩ := h.delete hmem
      rw [hdelete] at hrun
      obtain rfl := Except.ok.inj hrun
      exact h₁
    · rcases Nat.eq_zero_or_pos t.size with hz | hpos
      · have herror : lhTableDelete t k = .error .divByZero := by
          unfold lhTableDelete lhTableLookupEntry
          rw [homeSlot_of_zero hz]
          rfl
        rw [herror] at hrun
        exact absurd hrun nofun
      · rw [h.delete_of_notMem hpos hclear hmem] at hrun
        obtain rfl := Except.ok.inj hrun
        rw [Op.apply, erase_of_notMem hmem]
        exact h

/-- A new table is an empty dictionary. -/
theorem maps_lhTableNew {size : ℤ} {hashFn : UInt64 → UInt64} (hsize : size < 2 ^ 31) {t₀ : LhTable}
    (hnew : lhTableNew size hashFn lhPtrEqual = .ok t₀) : Maps t₀ ∅ ∧ NoFreed t₀ := by
  rcases Int.lt_or_le size 0 with hneg | hpos
  · unfold lhTableNew at hnew
    rw [if_pos hneg] at hnew
    exact absurd hnew nofun
  · obtain ⟨t₁, hnew₁, ⟨slots, hrepr, hkeys⟩, -, -⟩ := lhTableNew_spec hpos hsize hashFn
    obtain rfl := Except.ok.inj (hnew₁.symm.trans hnew)
    obtain rfl := List.map_eq_nil_iff.mp hkeys
    refine ⟨⟨[], hrepr, rfl⟩, ?_⟩
    unfold lhTableNew at hnew
    rw [if_neg (by omega)] at hnew
    obtain rfl := Except.ok.inj hnew
    exact fun n _ => show lhEmpty ≠ lhFreed by decide

theorem maps_run {size : ℤ} (hsize : size < 2 ^ 31) {t₀ : LhTable} {ops : List Op}
    (hnew : lhKptrTableNew size = .ok t₀) (h : Exec (Guarded Op.Step Op.Clear) t₀ ops t) :
    Maps t (dictOf ops) := by
  refine h.invariant_actions (I := fun ops t => Maps t (dictOf ops))
    (maps_lhTableNew hsize hnew).1 ?_
  rintro ops t op t' hmaps ⟨hstep, hclear⟩
  rw [dictOf, List.foldl_concat]
  exact hmaps.step hclear hstep

/-- **The table is a dictionary**, in every run in which no held key is inserted behind a freed cell: its
list has the keys in the order of their last insertion, and a search finds the last value. -/
theorem dictionary_run {size : ℤ} (hsize : size < 2 ^ 31) {t₀ : LhTable} {ops : List Op}
    (hnew : lhKptrTableNew size = .ok t₀) (h : Exec (Guarded Op.Step Op.Clear) t₀ ops t) :
    t.keys = (dictOf ops).keys.reverse ∧
      (0 < t.size → ∀ k, IsKey k → lhTableLookup t k = .ok (((dictOf ops).lookup k).getD 0)) := by
  have hmaps := maps_run hsize hnew h
  exact ⟨hmaps.keys_eq, fun hpos k hk => hmaps.lookup hpos hk⟩

/-- Two keys with the same home in a table of four cells, of which the first is deleted. -/
def collide : List Op := [.insert 16 1, .insert 80 2, .delete 16]

theorem exec_collide : ∃ t₀ t, lhKptrTableNew 4 = .ok t₀ ∧
    Exec (Guarded Op.Step Op.Clear) t₀ collide t ∧ Shadowed t 80 ∧ ¬ Heavy t ∧ t.size = 4 := by
  refine ⟨_, _, rfl, show Exec (Guarded Op.Step Op.Clear) _
    ([] ++ [.insert 16 1] ++ [.insert 80 2] ++ [.delete 16]) _ from
    .snoc (.snoc (.snoc .nil ⟨by exact rfl, by decide, ?_⟩) ⟨by exact rfl, by decide, ?_⟩)
      ⟨by exact rfl, ?_⟩, ?_, ?_, ?_⟩
  · decide
  · decide +kernel
  · exact show IsKey 16 by decide
  · decide +kernel
  · decide +kernel
  · rfl

theorem dictionary_run_collide : ∃ t₀ t, lhKptrTableNew 4 = .ok t₀ ∧
    Exec (Guarded Op.Step Op.Clear) t₀ collide t ∧ t.keys = (dictOf collide).keys.reverse ∧
    (0 < t.size → ∀ k, IsKey k →
      lhTableLookup t k = .ok (((dictOf collide).lookup k).getD 0)) := by
  obtain ⟨t₀, t, hnew, h, -⟩ := exec_collide
  exact ⟨t₀, t, hnew, h, dictionary_run (show (4 : ℤ) < 2 ^ 31 by decide) hnew h⟩

/-- The second key is then inserted behind a freed cell. -/
theorem insert_delete_collide : ∃ t, Maps t (dictOf collide) ∧
    ∃ t₁ t₂, lhTableInsert t 80 3 = .ok t₁ ∧ lhTableDelete t₁ 80 = .ok (0, t₂) ∧
      t₁.keys = [80, 80] ∧ Maps t₂ (dictOf collide) := by
  obtain ⟨t₀, t, hnew, h, hshadow, hlight, hsize⟩ := exec_collide
  have hmaps := maps_run (show (4 : ℤ) < 2 ^ 31 by decide) hnew h
  obtain ⟨t₁, t₂, hinsert, hdelete, hif⟩ :=
    insert_delete hmaps (show 80 ∈ dictOf collide by decide) (by omega) 3
  rw [if_neg fun hclear => hclear.elim hlight fun hnot => hnot hshadow] at hif
  exact ⟨t, hmaps, t₁, t₂, hinsert, hdelete, hif⟩

/-- **Without deletions** the table is a dictionary in every run: the last value of a key wins. -/
theorem dictionary_run_of_insert {size : ℤ} (hsize : size < 2 ^ 31) {t₀ : LhTable} {ops : List Op}
    (hops : ∀ op ∈ ops, ∃ k v, op = .insert k v ∧ IsKey k) (hnew : lhKptrTableNew size = .ok t₀)
    (h : Exec Op.Step t₀ ops t) :
    t.keys = (dictOf ops).keys.reverse ∧
      (0 < t.size → ∀ k, IsKey k → lhTableLookup t k = .ok (((dictOf ops).lookup k).getD 0)) := by
  have hinv : Maps t (dictOf ops) ∧ NoFreed t := by
    refine h.invariant_of_forall (I := fun ops t => Maps t (dictOf ops) ∧ NoFreed t) hops
      (maps_lhTableNew hsize hnew) ?_
    rintro ops t op t' ⟨hmaps, hfree⟩ ⟨k, v, rfl, hk⟩ hstep
    have hrun : lhTableInsert t k v = .ok t' := hstep
    rw [dictOf, List.foldl_concat]
    rcases hmaps.insert hk (fun _ => Or.inr (not_shadowed_of_noFreed hfree k)) v with
      ⟨t₁, hinsert, h₁, -, hfree₁⟩ | ⟨-, herror⟩ | ⟨-, herror⟩
    · obtain rfl := Except.ok.inj (hinsert.symm.trans hrun)
      exact ⟨h₁, hfree₁ hfree⟩
    · exact absurd (herror.symm.trans hrun) nofun
    · exact absurd (herror.symm.trans hrun) nofun
  exact ⟨hinv.1.keys_eq, fun hpos k hk => hinv.1.lookup hpos hk⟩

/-- The key 16 is inserted twice, around another. -/
theorem dictionary_run_of_insert_twice :
    let ops : List Op := [.insert 16 1, .insert 32 2, .insert 16 3]
    ∃ t₀ t, lhKptrTableNew 4 = .ok t₀ ∧ Exec Op.Step t₀ ops t ∧
      t.keys = (dictOf ops).keys.reverse := by
  intro ops
  obtain ⟨t₀, t, hnew, h⟩ : ∃ t₀ t, lhKptrTableNew 4 = .ok t₀ ∧ Exec Op.Step t₀ ops t :=
    ⟨_, _, rfl, show Exec Op.Step _ ([] ++ [.insert 16 1] ++ [.insert 32 2] ++ [.insert 16 3]) _ from
      .snoc (.snoc (.snoc .nil (by exact rfl)) (by exact rfl)) (by exact rfl)⟩
  refine ⟨t₀, t, hnew, h,
    (dictionary_run_of_insert (show (4 : ℤ) < 2 ^ 31 by decide) ?_ hnew h).1⟩
  intro op hop
  simp only [ops, List.mem_cons, List.not_mem_nil, or_false] at hop
  rcases hop with rfl | rfl | rfl
  · exact ⟨16, 1, rfl, by decide⟩
  · exact ⟨32, 2, rfl, by decide⟩
  · exact ⟨16, 3, rfl, by decide⟩

end Uvx.LinkHash
