import Uvx.LinkHash.Rename
import Uvx.Loge.Defs

/-!
# Tables with strings as keys

The tables of `lh_kchar_table_new` compare the strings that their keys point to. Each string in memory
is given one of its addresses as a name, and what is known of tables of pointers then holds of strings:
in every run in which no held string is inserted behind a freed cell, the table is an ordered dictionary
of strings (`string_dictionary_run`).
-/

namespace Uvx.LinkHash

open Loge (CString textOf)

/-- The strings in memory. There are none at the addresses of the sentinels. -/
structure Memory where
  string : UInt64 → Option CString
  empty : string lhEmpty = none
  freed : string lhFreed = none

variable {mem : Memory} {t t' : LhTable} {a b k v : UInt64} {l : List UInt8}

/-- The string at an address. -/
def Memory.text (mem : Memory) (k : UInt64) : List UInt8 := textOf (mem.string k)

/-- There is a string at the address. -/
def Memory.Readable (mem : Memory) (k : UInt64) : Prop := (mem.string k).isSome

instance (mem : Memory) (k : UInt64) : Decidable (mem.Readable k) :=
  inferInstanceAs (Decidable (_ = _))

/-- `lh_char_hash`: a `char` is signed, and the sum is kept as an `unsigned int`. -/
def lhCharHash (mem : Memory) (k : UInt64) : UInt64 :=
  match mem.string k with
  | some data =>
    (data.bytes.foldl (fun h c => h * 129 + c.toInt8.toInt32.toUInt32 + 0x9e370001)
      (0 : UInt32)).toUInt64
  | none => 0

/-- `lh_char_equal`. It is called with strings only. -/
def lhCharEqual (mem : Memory) (k1 k2 : UInt64) : Bool :=
  match mem.string k1, mem.string k2 with
  | some s1, some s2 => s1.bytes == s2.bytes
  | _, _ => k1 == k2

/-- `lh_kchar_table_new` -/
def lhKcharTableNew (mem : Memory) (size : ℤ) : Except LhFault LhTable :=
  lhTableNew size (lhCharHash mem) (lhCharEqual mem)

/-! ## A name for each string -/

open Classical in
/-- One of the addresses of a string. -/
noncomputable def Memory.address (mem : Memory) (l : List UInt8) : UInt64 :=
  if h : ∃ k, mem.Readable k ∧ mem.text k = l then h.choose else 0

/-- The address chosen for the string at `k`. -/
noncomputable def Memory.name (mem : Memory) (k : UInt64) : UInt64 :=
  if mem.Readable k then mem.address (mem.text k) else k

namespace Memory

theorem readable_address (h : mem.Readable k) :
    mem.Readable (mem.address (mem.text k)) ∧ mem.text (mem.address (mem.text k)) = mem.text k := by
  have hex : ∃ j, mem.Readable j ∧ mem.text j = mem.text k := ⟨k, h, rfl⟩
  rw [address, dif_pos hex]
  exact hex.choose_spec

theorem name_of_readable (h : mem.Readable k) : mem.name k = mem.address (mem.text k) := if_pos h

theorem name_of_not_readable (h : ¬ mem.Readable k) : mem.name k = k := if_neg h

theorem text_name (mem : Memory) (k : UInt64) : mem.text (mem.name k) = mem.text k := by
  by_cases h : mem.Readable k
  · rw [name_of_readable h]
    exact (readable_address h).2
  · rw [name_of_not_readable h]

theorem readable_name : mem.Readable (mem.name k) ↔ mem.Readable k := by
  by_cases h : mem.Readable k
  · rw [name_of_readable h]
    exact iff_of_true (readable_address h).1 h
  · rw [name_of_not_readable h]

/-- The names tell the strings apart. -/
theorem name_eq_iff (ha : mem.Readable a) (hb : mem.Readable b) :
    mem.name a = mem.name b ↔ mem.text a = mem.text b := by
  refine ⟨fun h => ?_, fun h => ?_⟩
  · rw [← text_name mem a, h, text_name]
  · rw [name_of_readable ha, name_of_readable hb, h]

theorem name_ne (ha : mem.Readable a) (hb : ¬ mem.Readable b) : mem.name a ≠ mem.name b := by
  intro h
  rw [name_of_not_readable hb] at h
  exact hb (h ▸ readable_name.mpr ha)

theorem exists_string (h : mem.Readable k) : ∃ s, mem.string k = some s ∧ mem.text k = s.bytes := by
  obtain ⟨s, hs⟩ := Option.isSome_iff_exists.mp h
  exact ⟨s, hs, by rw [text, hs]; rfl⟩

theorem string_eq_none (h : ¬ mem.Readable k) : mem.string k = none :=
  Option.not_isSome_iff_eq_none.mp h

theorem isKey (h : mem.Readable k) : IsKey k := by
  rintro (rfl | rfl)
  · rw [Readable, mem.empty] at h
    cases h
  · rw [Readable, mem.freed] at h
    cases h

/-- A sentinel is its own name, and no other name. -/
theorem name_eq_iff_of_not_readable (hb : ¬ mem.Readable b) : mem.name k = b ↔ k = b := by
  by_cases hk : mem.Readable k
  · refine iff_of_false ?_ ?_
    · rintro rfl
      exact hb (readable_name.mpr hk)
    · rintro rfl
      exact hb hk
  · rw [name_of_not_readable hk]

theorem names (mem : Memory) : Names (lhCharEqual mem) (lhCharHash mem) mem.name := by
  refine ⟨fun a b => ?_, fun k => ?_, fun k => ?_, fun k => ?_⟩
  · by_cases ha : mem.Readable a
    · obtain ⟨s, hs, htext⟩ := exists_string ha
      by_cases hb : mem.Readable b
      · obtain ⟨s', hs', htext'⟩ := exists_string hb
        rw [name_eq_iff ha hb, htext, htext', lhCharEqual, hs, hs']
        exact beq_iff_eq
      · rw [lhCharEqual, hs, string_eq_none hb]
        refine iff_of_false (fun he => ?_) (name_ne ha hb)
        exact hb (beq_iff_eq.mp he ▸ ha)
    · have hna := string_eq_none ha
      have hequal : lhCharEqual mem a b = (a == b) := by
        rw [lhCharEqual, hna]
      rw [hequal, beq_iff_eq, name_of_not_readable ha, eq_comm, ← name_eq_iff_of_not_readable ha,
        eq_comm]
  · by_cases hk : mem.Readable k
    · obtain ⟨s, hs, htext⟩ := exists_string hk
      obtain ⟨s', hs', htext'⟩ := exists_string (readable_name.mpr hk)
      have hbytes : s'.bytes = s.bytes := by rw [← htext', text_name, htext]
      rw [lhCharHash, lhCharHash, hs, hs']
      dsimp only
      rw [hbytes]
    · rw [name_of_not_readable hk]
  · exact name_eq_iff_of_not_readable (by rw [Readable, mem.empty]; decide)
  · exact name_eq_iff_of_not_readable (by rw [Readable, mem.freed]; decide)

end Memory

/-! ## Dictionaries of strings -/

/-- A dictionary of strings, the newest entry first. -/
abbrev TextDict := AList fun _ : List UInt8 => UInt64

/-- An entry with the string of its key. -/
def Memory.title (mem : Memory) (e : Σ _ : UInt64, UInt64) : Σ _ : List UInt8, UInt64 :=
  ⟨mem.text e.1, e.2⟩

/-- The keys of the dictionary `d` are names, and `D` has their strings. -/
structure Titled (mem : Memory) (d : Dict) (D : TextDict) : Prop where
  entries_eq : D.entries = d.entries.map mem.title
  named : ∀ e ∈ d.entries, mem.Readable e.1 ∧ mem.name e.1 = e.1

variable {d : Dict} {D : TextDict} {es : List (Σ _ : UInt64, UInt64)}

/-- Among names the strings tell the keys apart. -/
theorem text_eq_iff_of_named (hk : mem.Readable k)
    (ha : mem.Readable a ∧ mem.name a = a) : mem.text k = mem.text a ↔ mem.name k = a := by
  rw [← Memory.name_eq_iff hk ha.1, ha.2]

theorem kerase_map_title (hk : mem.Readable k)
    (hes : ∀ e ∈ es, mem.Readable e.1 ∧ mem.name e.1 = e.1) :
    List.kerase (mem.text k) (es.map mem.title) = (List.kerase (mem.name k) es).map mem.title := by
  induction es with
  | nil => rfl
  | cons e es ih =>
    have hsame := text_eq_iff_of_named hk (hes e List.mem_cons_self)
    rw [List.map_cons]
    by_cases he : mem.name k = e.1
    · rw [List.kerase_cons_eq (hsame.mpr he), List.kerase_cons_eq he]
    · rw [List.kerase_cons_ne (mt hsame.mp he), List.kerase_cons_ne he, List.map_cons,
        ih fun e' he' => hes e' (List.mem_cons_of_mem e he')]

theorem dlookup_map_title (hk : mem.Readable k)
    (hes : ∀ e ∈ es, mem.Readable e.1 ∧ mem.name e.1 = e.1) :
    List.dlookup (mem.text k) (es.map mem.title) = List.dlookup (mem.name k) es := by
  induction es with
  | nil => rfl
  | cons e es ih =>
    have hsame := text_eq_iff_of_named hk (hes e List.mem_cons_self)
    obtain ⟨a, v⟩ := e
    rw [List.map_cons, Memory.title]
    by_cases he : mem.name k = a
    · rw [hsame.mpr he, he, List.dlookup_cons_eq, List.dlookup_cons_eq]
    · rw [List.dlookup_cons_ne _ _ (mt hsame.mp he), List.dlookup_cons_ne _ _ he,
        ih fun e' he' => hes e' (List.mem_cons_of_mem _ he')]

namespace Titled

theorem empty (mem : Memory) : Titled mem ∅ ∅ := ⟨rfl, fun _ he => absurd he List.not_mem_nil⟩

theorem keys_eq (h : Titled mem d D) : D.keys = d.keys.map mem.text := by
  rw [AList.keys, AList.keys, List.keys, List.keys, h.entries_eq, List.map_map, List.map_map]
  rfl

theorem lookup (h : Titled mem d D) (hk : mem.Readable k) :
    D.lookup (mem.text k) = d.lookup (mem.name k) := by
  rw [AList.lookup, AList.lookup, h.entries_eq, dlookup_map_title hk h.named]

theorem erase (h : Titled mem d D) (hk : mem.Readable k) :
    Titled mem (d.erase (mem.name k)) (D.erase (mem.text k)) := by
  refine ⟨?_, fun e he => h.named e ((List.kerase_sublist _ _).subset he)⟩
  show List.kerase _ D.entries = (List.kerase _ d.entries).map mem.title
  rw [h.entries_eq, kerase_map_title hk h.named]

theorem insert (h : Titled mem d D) (hk : mem.Readable k) (v : UInt64) :
    Titled mem (d.insert (mem.name k) v) (D.insert (mem.text k) v) := by
  obtain ⟨hentries, hnamed⟩ := h.erase hk
  refine ⟨?_, fun e he => ?_⟩
  · rw [AList.entries_insert, AList.entries_insert, List.map_cons, Memory.title, mem.text_name]
    exact congrArg _ hentries
  · rw [AList.entries_insert] at he
    rcases List.mem_cons.mp he with rfl | he
    · refine ⟨Memory.readable_name.mpr hk, ?_⟩
      rw [Memory.name_eq_iff (Memory.readable_name.mpr hk) hk, mem.text_name]
    · exact hnamed e he

end Titled

/-! ## Runs -/

/-- The search for a place for the string at `k` meets a freed cell in front of the string. -/
def StringShadowed (mem : Memory) (t : LhTable) (k : UInt64) : Prop :=
  ∃ i < t.size, t.key (t.cell k i) = lhFreed ∧ ∀ j < i, ¬ lhCharEqual mem (t.key (t.cell k j)) k

instance (mem : Memory) (t : LhTable) (k : UInt64) : Decidable (StringShadowed mem t k) :=
  inferInstanceAs (Decidable (∃ i < t.size, _ ∧ ∀ j < i, _))

/-- The key is a string, and a held string that is inserted again is not shadowed. -/
def Op.StringClear (mem : Memory) (t : LhTable) : Op → Prop
  | .insert k _ => mem.Readable k ∧
    (mem.text k ∈ t.keys.map mem.text → Heavy t ∨ ¬ StringShadowed mem t k)
  | .delete k => mem.Readable k

/-- What a call does to a dictionary of strings. -/
def Op.applyStrings (mem : Memory) : Op → TextDict → TextDict
  | .insert k v, D => D.insert (mem.text k) v
  | .delete k, D => D.erase (mem.text k)

/-- The dictionary of strings after some calls. -/
def textDictOf (mem : Memory) (ops : List Op) : TextDict :=
  ops.foldl (fun D op => op.applyStrings mem D) ∅

/-- The call with the name of its key. -/
noncomputable def Op.name (mem : Memory) : Op → Op
  | .insert k v => .insert (mem.name k) v
  | .delete k => .delete (mem.name k)

theorem Renamed.walk_eq {equalFn : UInt64 → UInt64 → Bool} {hash rep : UInt64 → UInt64}
    (h : Renamed equalFn hash rep t t') (fuel : ℕ) (ent : Option ℕ) :
    t'.walk fuel ent = (t.walk fuel ent).map rep := by
  induction fuel generalizing ent with
  | zero => cases ent <;> rfl
  | succ fuel ih =>
    cases ent with
    | none => rfl
    | some n =>
      rw [LhTable.walk, LhTable.walk, List.map_cons, ih, h.eq_rename]
      rfl

theorem Renamed.keys_eq {equalFn : UInt64 → UInt64 → Bool} {hash rep : UInt64 → UInt64}
    (h : Renamed equalFn hash rep t t') :
    t'.keys = t.keys.map rep := by
  rw [LhTable.keys, LhTable.keys, h.walk_eq, h.eq_rename]
  rfl

section Named

variable (h : Renamed (lhCharEqual mem) (lhCharHash mem) mem.name t t') {op : Op} {t₁ : LhTable}
include h

/-- A call goes alike on the table of the names. -/
theorem Renamed.stringStep (hstep : op.Step t t₁) :
    ∃ t₁', (op.name mem).Step t' t₁' ∧ Renamed (lhCharEqual mem) (lhCharHash mem) mem.name t₁ t₁' := by
  cases op with
  | insert k v => exact (h.insert mem.names k v).exists_of_ok hstep
  | delete k =>
    exact ((h.delete mem.names k).map fun _ _ hr => hr.2).exists_of_ok hstep

theorem Renamed.cell_name (k : UInt64) (i : ℕ) : t'.cell (mem.name k) i = t.cell k i := by
  have hhome : t'.home (mem.name k) = t.home k := by
    rw [LhTable.home, LhTable.home, h.eq_rename]
    show (t.hashFn (mem.name k)).toNat = _
    rw [h.hashFn_eq, mem.names.hash_eq]
  rw [LhTable.cell, LhTable.cell, hhome, h.eq_rename]
  rfl

theorem Renamed.stringClear (hclear : op.StringClear mem t) : (op.name mem).Clear t' := by
  cases op with
  | insert k v =>
    obtain ⟨hk, hshadow⟩ := hclear
    refine ⟨Memory.isKey (Memory.readable_name.mpr hk), fun hmem => ?_⟩
    have htext : mem.text k ∈ t.keys.map mem.text := by
      rw [h.keys_eq] at hmem
      obtain ⟨a, ha, hname⟩ := List.mem_map.mp hmem
      refine List.mem_map.mpr ⟨a, ha, ?_⟩
      rw [← mem.text_name a, hname, mem.text_name]
    refine (hshadow htext).imp (fun hheavy => ?_) fun hnot hshadowed => hnot ?_
    · rw [h.eq_rename]
      exact hheavy
    · obtain ⟨i, hi, hfreed, hothers⟩ := hshadowed
      have hkey : ∀ n, t'.key n = mem.name (t.key n) := fun n => by rw [h.eq_rename, rename_key]
      rw [h.eq_rename, rename_size] at hi
      rw [h.cell_name, hkey, mem.names.freed_iff] at hfreed
      refine ⟨i, hi, hfreed, fun j hj hequal => hothers j hj ?_⟩
      rw [h.cell_name, hkey]
      exact (mem.names.equal_iff _ _).mp hequal
  | delete k => exact Memory.isKey (Memory.readable_name.mpr hclear)

end Named

theorem Titled.step {op : Op} (h : Titled mem d D) (hclear : op.StringClear mem t) :
    Titled mem ((op.name mem).apply d) (op.applyStrings mem D) := by
  cases op with
  | insert k v => exact h.insert hclear.1 v
  | delete k => exact h.erase hclear

/-- **A table of strings is a dictionary** of strings, in every run in which no held string is
inserted behind a freed cell: its list has the strings in the order of their last insertion, and a
search with any pointer to a string finds the last value. -/
theorem string_dictionary_run {size : ℤ} (hsize : size < 2 ^ 31) {t₀ : LhTable} {ops : List Op}
    (hnew : lhKcharTableNew mem size = .ok t₀)
    (hrun : Exec (Guarded Op.Step (Op.StringClear mem)) t₀ ops t) :
    t.keys.map mem.text = (textDictOf mem ops).keys.reverse ∧
      (0 < t.size → ∀ k, mem.Readable k → lhTableLookup t k
        = .ok (((textDictOf mem ops).lookup (mem.text k)).getD 0)) := by
  have hinv : ∃ t' d, Renamed (lhCharEqual mem) (lhCharHash mem) mem.name t t' ∧ Maps t' d ∧
      Titled mem d (textDictOf mem ops) := by
    refine hrun.invariant_actions (I := fun ops t => ∃ t' d,
      Renamed (lhCharEqual mem) (lhCharHash mem) mem.name t t' ∧ Maps t' d ∧
        Titled mem d (textDictOf mem ops)) ?_ ?_
    · obtain ⟨t₀', hnew', h₀⟩ := (Renamed.lhTableNew mem.names size).exists_of_ok hnew
      exact ⟨t₀', ∅, h₀, (maps_lhTableNew hsize hnew').1, .empty mem⟩
    · rintro ops t op t₁ ⟨t', d, h, hmaps, htitled⟩ ⟨hstep, hclear⟩
      obtain ⟨t₁', hstep', h₁⟩ := h.stringStep hstep
      refine ⟨t₁', (op.name mem).apply d, h₁, hmaps.step (h.stringClear hclear) hstep', ?_⟩
      rw [textDictOf, List.foldl_concat]
      exact htitled.step hclear
  obtain ⟨t', d, h, hmaps, htitled⟩ := hinv
  refine ⟨?_, fun hpos k hk => ?_⟩
  · have htext : t.keys.map mem.text = (t.keys.map mem.name).map mem.text := by
      rw [List.map_map]
      exact List.map_congr_left fun k _ => (mem.text_name k).symm
    rw [htext, ← h.keys_eq, hmaps.keys_eq, htitled.keys_eq, List.map_reverse]
  · have hsize' : 0 < t'.size := by
      rw [h.eq_rename]
      exact hpos
    have hkey := Memory.isKey (Memory.readable_name.mpr hk)
    rw [← h.lookup mem.names, hmaps.lookup hsize' hkey, htitled.lookup hk]

/-- Two copies of the string `a`, and the string `b`. -/
def twoStrings : Memory where
  string k :=
    if k = 16 ∨ k = 32 then some ⟨[97], by decide⟩
    else if k = 48 then some ⟨[98], by decide⟩
    else none
  empty := by decide
  freed := by decide

/-- The second copy of `a` replaces the entry of the first. -/
theorem string_dictionary_run_two :
    let ops : List Op := [.insert 16 1, .insert 48 2, .insert 32 3]
    ∃ t₀ t, lhKcharTableNew twoStrings 4 = .ok t₀ ∧
      Exec (Guarded Op.Step (Op.StringClear twoStrings)) t₀ ops t ∧
      t.keys.map twoStrings.text = (textDictOf twoStrings ops).keys.reverse := by
  intro ops
  obtain ⟨t₀, t, hnew, hrun⟩ : ∃ t₀ t, lhKcharTableNew twoStrings 4 = .ok t₀ ∧
      Exec (Guarded Op.Step (Op.StringClear twoStrings)) t₀ ops t := by
    refine ⟨_, _, rfl, show Exec (Guarded Op.Step (Op.StringClear twoStrings)) _
      ([] ++ [.insert 16 1] ++ [.insert 48 2] ++ [.insert 32 3]) _ from
      .snoc (.snoc (.snoc .nil ⟨by exact rfl, by decide, fun _ => Or.inr ?_⟩)
        ⟨by exact rfl, by decide, fun _ => Or.inr ?_⟩) ⟨by exact rfl, by decide, fun _ => Or.inr ?_⟩⟩
    · decide +kernel
    · decide +kernel
    · decide +kernel
  exact ⟨t₀, t, hnew, hrun, (string_dictionary_run (show (4 : ℤ) < 2 ^ 31 by decide) hnew hrun).1⟩

end Uvx.LinkHash
