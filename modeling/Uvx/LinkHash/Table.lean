import Mathlib.Data.List.Perm.Subperm
import Uvx.LinkHash.Entries

/-!
# The table as an ordered set of keys

`Holds t ks`: the list of `t` runs through entries with the keys `ks`, and the search finds each of
them. A deletion takes a key out (`Holds.delete`), an insertion puts a new key last (`Holds.insert`),
also when the array is replaced by a larger one.
-/

namespace Uvx.LinkHash

/-- Pointers other than the sentinels. -/
def IsKey (k : UInt64) : Prop := ¬ Probe.Vacant lhEmpty lhFreed k

instance (k : UInt64) : Decidable (IsKey k) := inferInstanceAs (Decidable (¬ Probe.Vacant _ _ _))

/-- The hash of a key, before the remainder. -/
def LhTable.home (t : LhTable) (k : UInt64) : ℕ := (t.hashFn k).toNat

theorem LhTable.home_congr {t t' : LhTable} (h : t'.hashFn = t.hashFn) : t'.home = t.home := by
  funext k
  rw [LhTable.home, LhTable.home, h]

/-- The occupied entries of `t`, whose keys are compared as pointers, are `slots`, in the order of the
list. -/
structure Repr (t : LhTable) (slots : List ℕ) : Prop where
  size_lt : t.size < 2 ^ 31
  threads : Threads t slots
  mem_iff : ∀ n, n ∈ slots ↔ n < t.size ∧ IsKey (t.key n)
  layout : Probe.Layout lhEmpty lhFreed t.size t.home t.key
  count_eq : t.count = slots.length
  equalFn_eq : t.equalFn = lhPtrEqual

/-- The keys of `t` are `ks`, in the order of the list. -/
def Holds (t : LhTable) (ks : List UInt64) : Prop :=
  ∃ slots, Repr t slots ∧ slots.map t.key = ks

variable {t : LhTable} {slots : List ℕ} {ks : List UInt64} {k v : UInt64}

namespace Repr

theorem lt_size (h : Repr t slots) {n : ℕ} (hn : n ∈ slots) : n < t.size :=
  ((h.mem_iff n).mp hn).1

theorem isKey (h : Repr t slots) {n : ℕ} (hn : n ∈ slots) : IsKey (t.key n) :=
  ((h.mem_iff n).mp hn).2

theorem nodup_keys (h : Repr t slots) : (slots.map t.key).Nodup :=
  h.threads.nodup.map_on fun m hm n hn he =>
    h.layout.inj m (h.lt_size hm) n (h.lt_size hn) (h.isKey hm) he

theorem length_le (h : Repr t slots) : slots.length ≤ t.size := by
  have hsub : slots ⊆ List.range t.size := fun n hn => List.mem_range.mpr (h.lt_size hn)
  have := (h.threads.nodup.subperm hsub).length_le
  rwa [List.length_range] at this

/-- A key is absent from every cell when it is not among the keys. -/
theorem key_ne (h : Repr t slots) (hk : IsKey k) (hmem : k ∉ slots.map t.key) {n : ℕ}
    (hn : n < t.size) : t.key n ≠ k := by
  rintro rfl
  exact hmem (List.mem_map_of_mem ((h.mem_iff n).mpr ⟨hn, hk⟩))

end Repr

namespace Holds

theorem nodup (h : Holds t ks) : ks.Nodup := by
  obtain ⟨slots, h, rfl⟩ := h
  exact h.nodup_keys

theorem isKey (h : Holds t ks) (hk : k ∈ ks) : IsKey k := by
  obtain ⟨slots, h, rfl⟩ := h
  obtain ⟨n, hn, rfl⟩ := List.mem_map.mp hk
  exact h.isKey hn

theorem count_eq (h : Holds t ks) : t.count = ks.length := by
  obtain ⟨slots, h, rfl⟩ := h
  rw [h.count_eq, List.length_map]

theorem length_le (h : Holds t ks) : ks.length ≤ t.size := by
  obtain ⟨slots, h, rfl⟩ := h
  rw [List.length_map]
  exact h.length_le

theorem size_lt (h : Holds t ks) : t.size < 2 ^ 31 := by
  obtain ⟨slots, h, -⟩ := h
  exact h.size_lt

end Holds

/-- The list runs through the entries from any of them on. -/
theorem Threads.walk (h : Threads t slots) {a b : List ℕ} (hslots : slots = a ++ b) {fuel : ℕ}
    (hfuel : b.length ≤ fuel) : t.walk fuel b.head? = b.map t.key := by
  induction b generalizing a fuel with
  | nil => cases fuel <;> rfl
  | cons n b ih =>
    cases fuel with
    | zero => simp at hfuel
    | succ fuel =>
      rw [List.head?_cons, LhTable.walk, show t.next n = b.head? from h.next_eq a n b hslots,
        ih (a := a ++ [n]) (by simp [hslots]) (Nat.le_of_succ_le_succ hfuel), List.map_cons]

theorem Threads.keys_eq (h : Threads t slots) (hlen : slots.length ≤ t.size) :
    t.keys = slots.map t.key := by
  rw [LhTable.keys, show t.head = slots.head? from h.head_eq]
  exact h.walk (List.nil_append _).symm hlen

/-- The list from `t->head` on has the keys of the table. -/
theorem Holds.keys_eq (h : Holds t ks) : t.keys = ks := by
  obtain ⟨slots, h, rfl⟩ := h
  exact h.threads.keys_eq h.length_le

/-- A new table holds no key. -/
theorem lhTableNew_spec {size : ℤ} (h₀ : 0 ≤ size) (h₁ : size < 2 ^ 31)
    (hashFn : UInt64 → UInt64) :
    ∃ t, lhTableNew size hashFn lhPtrEqual = .ok t ∧ Holds t [] ∧ t.size = size.toNat ∧
      t.hashFn = hashFn := by
  unfold lhTableNew
  rw [if_neg (by omega)]
  refine ⟨_, rfl, ⟨[], ⟨?_, Linked.nil _ _, ?_, ?_, rfl, rfl⟩, rfl⟩, rfl, rfl⟩
  · simp only; omega
  · intro n
    refine ⟨fun h => absurd h (by simp), fun h => absurd (Or.inl rfl) h.2⟩
  · exact Probe.Layout.init fun n _ => rfl

/-! ## Searching -/

theorem homeSlot_of_pos (h : 0 < t.size) (k : UInt64) :
    homeSlot t k = .ok (t.home k % t.size) := by
  unfold homeSlot
  rw [if_neg (by omega)]; rfl

theorem homeSlot_of_zero (h : t.size = 0) (k : UInt64) : homeSlot t k = .error .divByZero := by
  unfold homeSlot
  rw [if_pos h]; rfl

/-- With `lh_ptr_equal` a search looks for the key itself. -/
theorem lhTableLookupEntry_eq (h : t.equalFn = lhPtrEqual) (k : UInt64) :
    lhTableLookupEntry t k = homeSlot t k >>= fun n =>
      pure (Probe.scan t.size (Probe.findStep lhEmpty lhFreed t.key k) t.size n).join := by
  unfold lhTableLookupEntry
  simp only [h, lhPtrEqual, beq_iff_eq]
  rfl

/-- The entry of a key is found. -/
theorem Repr.lookup (h : Repr t slots) {n : ℕ} (hn : n ∈ slots) :
    lhTableLookupEntry t (t.key n) = .ok (some n) := by
  have hlt := h.lt_size hn
  rw [lhTableLookupEntry_eq h.equalFn_eq, homeSlot_of_pos (by omega)]
  exact congrArg (fun r => Except.ok (Option.join r)) (h.layout.scan_findStep hlt (h.isKey hn))

/-- A key that is not held is not found. -/
theorem Holds.lookup_of_notMem (h : Holds t ks) (hsize : 0 < t.size) (hk : IsKey k)
    (hmem : k ∉ ks) : lhTableLookupEntry t k = .ok none := by
  obtain ⟨slots, h, rfl⟩ := h
  rw [lhTableLookupEntry_eq h.equalFn_eq, homeSlot_of_pos hsize]
  exact congrArg Except.ok
    (Probe.scan_findStep_of_absent t.home hsize fun n hn => h.key_ne hk hmem hn)

/-! ## Deleting -/

/-- The table `t'` is `t` with cell `n` freed, up to the links. -/
structure Freed (t t' : LhTable) (n : ℕ) : Prop where
  size_eq : t'.size = t.size
  hashFn_eq : t'.hashFn = t.hashFn
  equalFn_eq : t'.equalFn = t.equalFn
  count_eq : t'.count = t.count - 1
  key_eq : ∀ m, t'.key m = if m = n then lhFreed else t.key m

/-- Deleting an entry frees its cell and takes it out of the list, whatever the layout is. -/
theorem Threads.deleteEntry {a b : List ℕ} {n : ℕ} (h : Threads t (a ++ n :: b))
    (hkey : IsKey (t.key n)) :
    ∃ t', lhTableDeleteEntry t n = .ok (0, t') ∧ Threads t' (a ++ b) ∧ Freed t t' n := by
  have hnab : n ∉ a ++ b := (List.nodup_middle.mp h.nodup).notMem
  unfold lhTableDeleteEntry
  rw [if_neg (show ¬ (t.key n = lhEmpty ∨ t.key n = lhFreed) from hkey)]
  -- the cell is marked as freed, then unlinked, then its links are cleared
  set t₁ := LhTable.setEntry { t with count := t.count - 1 } n
    { t.table n with v := 0, k := lhFreed } with ht₁
  have hth₁ : Threads t₁ (a ++ n :: b) := by
    refine Linked.congr h (fun m _ => ?_) fun m _ => ?_
    · rw [ht₁, LhTable.next_setEntry]
      split
      · next hm => rw [hm]; rfl
      · rfl
    · rw [ht₁, LhTable.prev_setEntry]
      split
      · next hm => rw [hm]; rfl
      · rfl
  have hkey₁ : ∀ m, t₁.key m = if m = n then lhFreed else t.key m :=
    fun m => LhTable.key_setEntry ..
  obtain ⟨t₂, ht₂, hsame, hth₂⟩ := unlinkEntry_spec hth₁
  set t₃ := t₂.setEntry n { t₂.table n with next := none, prev := none } with ht₃
  have hkey₃ : ∀ m, t₃.key m = if m = n then lhFreed else t.key m := by
    intro m
    rw [ht₃, LhTable.key_setEntry, ← hkey₁ m, ← hsame.key_eq]
    split
    · next hm => rw [hm]; rfl
    · rfl
  refine ⟨t₃, ?_, ?_, hsame.size_eq, hsame.hashFn_eq, hsame.equalFn_eq, hsame.count_eq,
    hkey₃⟩
  · show (unlinkEntry t₁ n >>= fun t => pure
      ((0 : ℤ), t.setEntry n { t.table n with next := none, prev := none })) = _
    rw [ht₂]; rfl
  · refine Linked.congr hth₂ (fun m hm => ?_) fun m hm => ?_
    · rw [ht₃, LhTable.next_setEntry, if_neg]; rintro rfl; exact hnab hm
    · rw [ht₃, LhTable.prev_setEntry, if_neg]; rintro rfl; exact hnab hm

/-- Deleting an entry keeps the others. -/
theorem Repr.deleteEntry {a b : List ℕ} {n : ℕ} (h : Repr t (a ++ n :: b)) :
    ∃ t', lhTableDeleteEntry t n = .ok (0, t') ∧ Repr t' (a ++ b) ∧ t'.size = t.size ∧
      t'.hashFn = t.hashFn ∧ ∀ m, m ≠ n → t'.key m = t.key m := by
  have hn : n ∈ a ++ n :: b := by simp
  have hnab : n ∉ a ++ b := (List.nodup_middle.mp h.threads.nodup).notMem
  obtain ⟨t', ht', hth, hfreed⟩ := h.threads.deleteEntry (h.isKey hn)
  have hkeep : ∀ m, m ≠ n → t'.key m = t.key m := fun m hm => by rw [hfreed.key_eq, if_neg hm]
  refine ⟨t', ht', ⟨?_, hth, ?_, ?_, ?_, hfreed.equalFn_eq.trans h.equalFn_eq⟩, hfreed.size_eq,
    hfreed.hashFn_eq, hkeep⟩
  · rw [hfreed.size_eq]; exact h.size_lt
  · intro m
    rw [hfreed.key_eq, hfreed.size_eq]
    by_cases hm : m = n
    · rw [if_pos hm, hm]
      exact iff_of_false hnab fun hv => hv.2 (Or.inr rfl)
    · rw [if_neg hm, ← h.mem_iff m]
      simp [hm]
  · rw [show t'.home = t.home from LhTable.home_congr hfreed.hashFn_eq, hfreed.size_eq]
    exact h.layout.free (by decide) (by rw [hfreed.key_eq, if_pos rfl]) fun m _ hm => hkeep m hm
  · rw [hfreed.count_eq, h.count_eq]
    simp only [List.length_append, List.length_cons]
    omega

/-- **Deleting.** A key that is held is taken out, and the deletion reports success. -/
theorem Holds.delete (h : Holds t ks) (hk : k ∈ ks) :
    ∃ t', lhTableDelete t k = .ok (0, t') ∧ Holds t' (ks.erase k) ∧ t'.size = t.size := by
  obtain ⟨slots, h, rfl⟩ := h
  obtain ⟨n, hn, rfl⟩ := List.mem_map.mp hk
  have hlookup := h.lookup hn
  have hnodup := h.nodup_keys
  obtain ⟨a, b, rfl⟩ := List.append_of_mem hn
  obtain ⟨t', ht', hrepr, hsize, -, hkey⟩ := h.deleteEntry
  have hnab : n ∉ a ++ b := (List.nodup_middle.mp h.threads.nodup).notMem
  refine ⟨t', ?_, ⟨a ++ b, hrepr, ?_⟩, hsize⟩
  · unfold lhTableDelete
    rw [hlookup]
    exact ht'
  · rw [List.map_append, List.map_cons] at hnodup
    have hkeys : (a ++ b).map t'.key = (a ++ b).map t.key :=
      List.map_congr_left fun m hm => hkey m fun hmn => hnab (hmn ▸ hm)
    rw [hkeys, List.map_append, List.map_append, List.map_cons, List.erase_append_right,
      List.erase_cons_head]
    intro hmem
    exact (List.nodup_append.mp hnodup).2.2 _ hmem _ (by simp) rfl

/-! ## Inserting -/

/-- The table `t'` is `t` with `k` and `v` in cell `p`, up to the links. -/
structure Placed (t t' : LhTable) (p : ℕ) (k v : UInt64) : Prop where
  size_eq : t'.size = t.size
  hashFn_eq : t'.hashFn = t.hashFn
  equalFn_eq : t'.equalFn = t.equalFn
  key_eq : ∀ m, t'.key m = if m = p then k else t.key m
  value_eq : ∀ m, t'.value m = if m = p then v else t.value m

/-- An entry is put into the cell `p` and linked behind the tail. -/
theorem Threads.place {p : ℕ} (h : Threads t slots) (hp : p ∉ slots) (k v : UInt64) :
    ∃ t', linkEntry { t.setEntry p { t.table p with k := k, v := v } with count := t.count + 1 } p
        = .ok t' ∧ Threads t' (slots ++ [p]) ∧ t'.count = t.count + 1 ∧ Placed t t' p k v := by
  -- the cell gets its key, then it is linked
  set t₁ : LhTable :=
    { t.setEntry p { t.table p with k := k, v := v } with count := t.count + 1 } with ht₁
  have hkey₁ : ∀ m, t₁.key m = if m = p then k else t.key m := fun m => LhTable.key_setEntry ..
  have hvalue₁ : ∀ m, t₁.value m = if m = p then v else t.value m :=
    fun m => LhTable.value_setEntry ..
  have hth₁ : Threads t₁ slots := by
    refine Linked.congr h (fun m hm => ?_) fun m hm => ?_
    · exact (LhTable.next_setEntry ..).trans (if_neg fun hmp : m = p => hp (hmp ▸ hm))
    · exact (LhTable.prev_setEntry ..).trans (if_neg fun hmp : m = p => hp (hmp ▸ hm))
  obtain ⟨t₂, ht₂, hsame, hth₂⟩ := linkEntry_spec hth₁ hp
  refine ⟨t₂, ht₂, hth₂, hsame.count_eq, hsame.size_eq, hsame.hashFn_eq, hsame.equalFn_eq,
    fun m => ?_, fun m => ?_⟩
  · rw [hsame.key_eq, hkey₁]
  · rw [value_linkEntry ht₂, hvalue₁]

/-- A new key is put into the vacant cell `p` that its search meets. -/
theorem Repr.place (h : Repr t slots) (hk : IsKey k) (habsent : ∀ n < t.size, t.key n ≠ k) {i : ℕ}
    (hi : i < t.size) (hvacant : ¬ IsKey (t.key ((t.home k % t.size + i) % t.size)))
    (hfirst : ∀ j < i, t.key ((t.home k % t.size + j) % t.size) ≠ lhEmpty) (v : UInt64) :
    let p := (t.home k % t.size + i) % t.size
    ∃ t', linkEntry { t.setEntry p { t.table p with k := k, v := v } with count := t.count + 1 } p
        = .ok t' ∧ Repr t' (slots ++ [p]) ∧ Placed t t' p k v := by
  intro p
  have hpsize : p < t.size := Nat.mod_lt _ (by omega)
  obtain ⟨t₂, ht₂, hth₂, hcount, hplaced⟩ :=
    h.threads.place (fun hps : p ∈ slots => hvacant (h.isKey hps)) k v
  refine ⟨t₂, ht₂, ⟨?_, hth₂, ?_, ?_, ?_, hplaced.equalFn_eq.trans h.equalFn_eq⟩, hplaced⟩
  · rw [hplaced.size_eq]; exact h.size_lt
  · intro m
    rw [hplaced.size_eq, hplaced.key_eq, List.mem_append, List.mem_singleton]
    by_cases hm : m = p
    · rw [if_pos hm, hm]
      exact iff_of_true (Or.inr rfl) ⟨hpsize, hk⟩
    · rw [if_neg hm, or_iff_left hm, h.mem_iff]
  · rw [hplaced.size_eq, show t₂.home = t.home from LhTable.home_congr hplaced.hashFn_eq]
    refine h.layout.place hi hk habsent hfirst ?_ ?_
    · rw [hplaced.key_eq, if_pos rfl]
    · intro n _ hn
      rw [hplaced.key_eq, if_neg hn]
  · rw [hcount, h.count_eq, List.length_append, List.length_singleton]; rfl

/-- What becomes of an insertion is decided where its search stops. -/
theorem lhTablePut_of_scan (h : t.equalFn = lhPtrEqual) (hpos : 0 < t.size) {p : ℕ} {same : Bool}
    (hscan : Probe.scan t.size (Probe.placeStep lhEmpty lhFreed t.key k) t.size (t.home k % t.size)
      = some (p, same)) (v : UInt64) :
    lhTablePut t k v =
      (if same then Prod.snd <$> lhTableDeleteEntry t p else pure t) >>= fun t =>
        linkEntry { t.setEntry p { t.table p with k := k, v := v } with count := t.count + 1 } p := by
  have hstop : Probe.scan t.size (fun n =>
      if t.key n = lhEmpty ∨ t.key n = lhFreed then some (n, false)
      else if t.equalFn (t.key n) k then some (n, true)
      else none) t.size (t.home k % t.size) = some (p, same) := by
    simp only [h, lhPtrEqual, beq_iff_eq]
    exact hscan
  unfold lhTablePut
  rw [homeSlot_of_pos hpos]
  simp only [bind, Except.bind, hstop]
  cases same with
  | true => rfl
  | false => rfl

/-- Where a new key is put. -/
theorem Repr.put (h : Repr t slots) (hlen : slots.length < t.size) (hk : IsKey k)
    (habsent : ∀ n < t.size, t.key n ≠ k) (v : UInt64) :
    ∃ p t', lhTablePut t k v = .ok t' ∧ p ∉ slots ∧ Repr t' (slots ++ [p]) ∧ Placed t t' p k v := by
  obtain ⟨i, hi, hscan, hvacant, hfirst⟩ :=
    Probe.scan_placeStep t.home
      (Probe.exists_vacant hlen fun n hn hv => (h.mem_iff n).mpr ⟨hn, hv⟩) habsent
  obtain ⟨t₂, ht₂, hrepr, hplaced⟩ := h.place hk habsent hi (not_not.mpr hvacant) hfirst v
  refine ⟨_, t₂, ?_, fun hps => h.isKey hps hvacant, hrepr, hplaced⟩
  rw [lhTablePut_of_scan h.equalFn_eq (by omega) hscan]
  exact ht₂

/-- Key and value of a cell. -/
def LhTable.entry (t : LhTable) (n : ℕ) : Σ _ : UInt64, UInt64 := ⟨t.key n, t.value n⟩

/-- The same entries have the same keys. -/
theorem map_key_of_entries {t' : LhTable} {slots' : List ℕ}
    (h : slots'.map t'.entry = slots.map t.entry) : slots'.map t'.key = slots.map t.key := by
  have hkeys := congrArg (List.map Sigma.fst) h
  rwa [List.map_map, List.map_map] at hkeys

/-- The entries with a new one put last. -/
theorem Placed.map_entry {t' : LhTable} {p : ℕ} (h : Placed t t' p k v) (hp : p ∉ slots) :
    (slots ++ [p]).map t'.entry = slots.map t.entry ++ [⟨k, v⟩] := by
  have hlast : t'.entry p = ⟨k, v⟩ := by
    rw [LhTable.entry, h.key_eq, h.value_eq, if_pos rfl, if_pos rfl]
  rw [List.map_append, List.map_singleton, hlast]
  congr 1
  refine List.map_congr_left ?_
  intro m hm
  have hne : m ≠ p := by rintro rfl; exact hp hm
  rw [LhTable.entry, LhTable.entry, h.key_eq, h.value_eq, if_neg hne, if_neg hne]

/-- The keys with a new one put last. -/
theorem Placed.map_key {t' : LhTable} {p : ℕ} (h : Placed t t' p k v) (hp : p ∉ slots) :
    (slots ++ [p]).map t'.key = slots.map t.key ++ [k] := by
  have hkeys := congrArg (List.map Sigma.fst) (h.map_entry hp)
  rw [List.map_map] at hkeys
  refine hkeys.trans ?_
  rw [List.map_append, List.map_map]
  rfl

/-- No cell has been freed. -/
def NoFreed (t : LhTable) : Prop := ∀ n < t.size, t.key n ≠ lhFreed

theorem Placed.noFreed {t' : LhTable} {p : ℕ} (h : Placed t t' p k v) (hk : IsKey k)
    (hfree : NoFreed t) : NoFreed t' := by
  intro n hn
  rw [h.size_eq] at hn
  rw [h.key_eq]
  split_ifs
  · exact fun he => hk (Or.inr he)
  · exact hfree n hn

/-- A new key goes into a vacant cell and behind the tail. -/
theorem Holds.put (h : Holds t ks) (hlen : ks.length < t.size) (hk : IsKey k) (hmem : k ∉ ks)
    (v : UInt64) :
    ∃ t', lhTablePut t k v = .ok t' ∧ Holds t' (ks ++ [k]) ∧ t'.size = t.size := by
  obtain ⟨slots, h, rfl⟩ := h
  rw [List.length_map] at hlen
  obtain ⟨p, t', hput, hp, hrepr, hplaced⟩ :=
    h.put hlen hk (fun n hn => h.key_ne hk hmem hn) v
  exact ⟨t', hput, ⟨slots ++ [p], hrepr, hplaced.map_key hp⟩, hplaced.size_eq⟩

/-! ## Growing -/

/-- Inserting without resizing. -/
theorem insertDepth_of_light (hload : ¬ 66 * (t.size : ℤ) < 100 * t.count)
    (depth : ℕ) : insertDepth (depth + 1) t k v = lhTablePut t k v := by
  rw [insertDepth, if_neg hload]; rfl

/-- What `lh_table_resize` relies on: into a table that is at most half full, the insertion puts a new
entry last. -/
def PutsLast (insert : LhTable → UInt64 → UInt64 → Except LhFault LhTable) : Prop :=
  ∀ t slots k v, Repr t slots → 2 * slots.length < t.size → IsKey k → (∀ n < t.size, t.key n ≠ k) →
    ∃ p t', insert t k v = .ok t' ∧ p ∉ slots ∧ Repr t' (slots ++ [p]) ∧ Placed t t' p k v

theorem putsLast_insertDepth (depth : ℕ) : PutsLast (insertDepth (depth + 1)) := by
  intro t slots k v h hlen hk habsent
  have hcount := h.count_eq
  rw [insertDepth_of_light (by omega)]
  exact h.put (by omega) hk habsent v

section Resize

variable {insert : LhTable → UInt64 → UInt64 → Except LhFault LhTable}

/-- The table `newT` has got the entries `done` of `t`. -/
structure Moved (t newT : LhTable) (done : List ℕ) : Prop where
  size_eq : newT.size = 2 * t.size
  hashFn_eq : newT.hashFn = t.hashFn
  noFreed : NoFreed newT
  entries : ∃ slots, Repr newT slots ∧ slots.map newT.entry = done.map t.entry

/-- The loop of `lh_table_resize` moves the entries over in their order. -/
theorem reinsert_moved (hinsert : PutsLast insert) (h : Repr t slots) {done rest : List ℕ}
    (hslots : slots = done ++ rest) {fuel : ℕ} (hfuel : rest.length ≤ fuel) {newT : LhTable}
    (hnew : Moved t newT done) :
    ∃ newT', reinsert insert t fuel rest.head? newT = .ok newT' ∧ Moved t newT' slots := by
  induction rest generalizing done fuel newT with
  | nil =>
    rw [List.append_nil] at hslots
    refine ⟨newT, ?_, hslots ▸ hnew⟩
    rw [List.head?_nil, reinsert]
    rfl
  | cons n rest ih =>
    cases fuel with
    | zero => simp at hfuel
    | succ fuel =>
      have hn : n ∈ slots := by simp [hslots]
      obtain ⟨newSlots, hrepr, hentries⟩ := hnew.entries
      have hlen : newSlots.length = done.length := by
        simpa using congrArg List.length hentries
      have hdone : done.length < slots.length := by simp [hslots]
      have hle := h.length_le
      -- the key is not among those that have been moved
      have habsent : ∀ m < newT.size, newT.key m ≠ t.key n := by
        refine fun m hm => hrepr.key_ne (h.isKey hn) ?_ hm
        rw [map_key_of_entries hentries]
        have hnodup := h.nodup_keys
        rw [hslots, List.map_append, List.map_cons] at hnodup
        exact fun hmem => (List.nodup_append.mp hnodup).2.2 _ hmem _ List.mem_cons_self rfl
      obtain ⟨p, newT₁, hins, hp, hrepr₁, hplaced⟩ := hinsert newT newSlots (t.key n) (t.value n) hrepr
        (by rw [hlen, hnew.size_eq]; omega) (h.isKey hn) habsent
      have hmoved : Moved t newT₁ (done ++ [n]) := by
        refine ⟨hplaced.size_eq.trans hnew.size_eq, hplaced.hashFn_eq.trans hnew.hashFn_eq,
          hplaced.noFreed (h.isKey hn) hnew.noFreed, newSlots ++ [p], hrepr₁, ?_⟩
        rw [hplaced.map_entry hp, hentries, List.map_append, List.map_singleton]
        rfl
      obtain ⟨newT₂, hre, hmoved₂⟩ := ih (by simp [hslots]) (by simpa using hfuel) hmoved
      refine ⟨newT₂, ?_, hmoved₂⟩
      rw [List.head?_cons, reinsert]
      show (insert newT (t.key n) (t.value n) >>= fun newT =>
        reinsert insert t fuel (t.next n) newT) = _
      rw [hins, show t.next n = rest.head? from h.threads.next_eq done n rest hslots]
      exact hre

/-- The table of double size has the same entries, and no freed cell. -/
theorem Repr.resize (hinsert : PutsLast insert) (h : Repr t slots) (hsize : t.size < 2 ^ 30) :
    ∃ t' slots', lhTableResize insert t (Int.bmod (t.size * 2) (2 ^ 32)) = .ok t' ∧
      Repr t' slots' ∧ slots'.map t'.entry = slots.map t.entry ∧ NoFreed t' ∧
      t'.size = 2 * t.size := by
  have hbmod : Int.bmod (t.size * 2) (2 ^ 32) = t.size * 2 :=
    Int.bmod_eq_of_le (by omega) (by omega)
  rw [hbmod]
  have hfresh : lhTableNew (t.size * 2) t.hashFn lhPtrEqual = .ok
      { size := (t.size * 2 : ℤ).toNat, count := 0, head := none, tail := none,
        table := fun _ => ⟨lhEmpty, 0, none, none⟩, hashFn := t.hashFn, equalFn := lhPtrEqual } := by
    unfold lhTableNew
    rw [if_neg (by omega)]
    rfl
  obtain ⟨newT, hnew, ⟨slots₀, hrepr₀, hkeys₀⟩, hnsize, hnhash⟩ :=
    lhTableNew_spec (show 0 ≤ (t.size * 2 : ℤ) by omega) (by omega) t.hashFn
  obtain rfl := Except.ok.inj (hfresh.symm.trans hnew)
  obtain rfl := List.map_eq_nil_iff.mp hkeys₀
  have hmoved₀ : Moved t _ [] :=
    ⟨by rw [hnsize]; omega, hnhash, fun n _ => show lhEmpty ≠ lhFreed by decide, [], hrepr₀, rfl⟩
  obtain ⟨newT₁, hre, hmoved⟩ :=
    reinsert_moved hinsert h (List.nil_append _).symm h.length_le hmoved₀
  obtain ⟨slots₁, h₁, hentries₁⟩ := hmoved.entries
  have hsz : newT₁.size = (t.size * 2 : ℤ).toNat := by rw [hmoved.size_eq]; omega
  refine ⟨{ t with
      table := newT₁.table, size := (t.size * 2 : ℤ).toNat, head := newT₁.head, tail := newT₁.tail },
    slots₁, ?_, ?_, hentries₁, ?_, by simp only; omega⟩
  · unfold lhTableResize
    rw [h.equalFn_eq, hnew, show t.head = slots.head? from h.threads.head_eq]
    show (reinsert insert t t.size slots.head? _ >>= _) = _
    rw [hre]
    rfl
  · -- everything but the count is the new table's, and the counts agree
    have hhome : newT₁.home = t.home := LhTable.home_congr hmoved.hashFn_eq
    refine ⟨hsz ▸ h₁.size_lt, h₁.threads, hsz ▸ h₁.mem_iff, hsz ▸ hhome ▸ h₁.layout, ?_,
      h.equalFn_eq⟩
    have hlen := congrArg List.length hentries₁
    rw [List.length_map, List.length_map] at hlen
    rw [hlen]
    exact h.count_eq
  · intro n hn
    exact hmoved.noFreed n (hsz ▸ hn)

/-- The table of double size holds the same keys. -/
theorem Holds.resize (hinsert : PutsLast insert) (h : Holds t ks) (hsize : t.size < 2 ^ 30) :
    ∃ t', lhTableResize insert t (Int.bmod (t.size * 2) (2 ^ 32)) = .ok t' ∧ Holds t' ks ∧
      t'.size = 2 * t.size := by
  obtain ⟨slots, h, rfl⟩ := h
  obtain ⟨t', slots', ht', hrepr, hentries, -, hsize'⟩ := h.resize hinsert hsize
  exact ⟨t', ht', ⟨slots', hrepr, map_key_of_entries hentries⟩, hsize'⟩

/-- A size of `2 ^ 30` cannot be doubled in an `int`. -/
theorem lhTableResize_abort (h₀ : 2 ^ 30 ≤ t.size) (h₁ : t.size < 2 ^ 31) :
    lhTableResize insert t (Int.bmod (t.size * 2) (2 ^ 32)) = .error .abort := by
  have hbmod : Int.bmod (t.size * 2) (2 ^ 32) < 0 := by
    rw [Int.bmod_def]
    split <;> omega
  unfold lhTableResize lhTableNew
  rw [if_pos hbmod]; rfl

end Resize

/-- **Inserting.** A new key is put last. The insertion fails only on a table of size 0, where the
remainder is undefined, and on a table too large to be doubled. -/
theorem Holds.insert (h : Holds t ks) (hk : IsKey k) (hmem : k ∉ ks) (v : UInt64) :
    (∃ t', lhTableInsert t k v = .ok t' ∧ Holds t' (ks ++ [k]) ∧ t.size ≤ t'.size) ∨
      (t.size = 0 ∧ lhTableInsert t k v = .error .divByZero) ∨
      (2 ^ 30 ≤ t.size ∧ lhTableInsert t k v = .error .abort) := by
  have hcount := h.count_eq
  have hlen := h.length_le
  rw [lhTableInsert]
  by_cases hload : 66 * (t.size : ℤ) < 100 * t.count
  · rw [insertDepth, if_pos hload]
    rcases Nat.lt_or_ge t.size (2 ^ 30) with hsize | hsize
    · obtain ⟨t₁, ht₁, h₁, hsize₁⟩ := h.resize (putsLast_insertDepth 30) hsize
      obtain ⟨t₂, ht₂, h₂, hsize₂⟩ := h₁.put (by omega) hk hmem v
      refine Or.inl ⟨t₂, ?_, h₂, by omega⟩
      rw [ht₁]
      exact ht₂
    · refine Or.inr (Or.inr ⟨hsize, ?_⟩)
      rw [lhTableResize_abort hsize h.size_lt]; rfl
  · rw [insertDepth_of_light hload]
    rcases Nat.eq_zero_or_pos t.size with hz | hpos
    · refine Or.inr (Or.inl ⟨hz, ?_⟩)
      unfold lhTablePut
      rw [homeSlot_of_zero hz]; rfl
    · obtain ⟨t₂, ht₂, h₂, hsize₂⟩ := h.put (by omega) hk hmem v
      exact Or.inl ⟨t₂, ht₂, h₂, by omega⟩

end Uvx.LinkHash
