import Uvx.Common.Alike
import Uvx.LinkHash.Reinsert

/-!
# Tables that compare keys by a function

A table compares its keys by its `equal_fn`. If every key is given a name, the same for equal keys, then
the routines go on the table like on the table of the names, which are compared as pointers
(`Renamed.insert`, `Renamed.delete`, `Renamed.lookup`).
-/

namespace Uvx.LinkHash

/-! ## Renaming the keys -/

/-- The table of the names. -/
def LhTable.rename (rep : UInt64 → UInt64) (t : LhTable) : LhTable :=
  { t with
    table := fun n => { t.table n with k := rep (t.table n).k }
    equalFn := lhPtrEqual }

/-- A name for each key, the same for equal keys. -/
structure Names (equalFn : UInt64 → UInt64 → Bool) (hash rep : UInt64 → UInt64) : Prop where
  equal_iff : ∀ a b, equalFn a b = true ↔ rep a = rep b
  hash_eq : ∀ k, hash (rep k) = hash k
  empty_iff : ∀ k, rep k = lhEmpty ↔ k = lhEmpty
  freed_iff : ∀ k, rep k = lhFreed ↔ k = lhFreed

variable {equalFn : UInt64 → UInt64 → Bool} {hash rep : UInt64 → UInt64} {t t' : LhTable}
  {k v : UInt64} {n : ℕ}

/-- `t'` is `t` with the keys renamed. -/
structure Renamed (equalFn : UInt64 → UInt64 → Bool) (hash rep : UInt64 → UInt64) (t t' : LhTable) :
    Prop where
  hashFn_eq : t.hashFn = hash
  equalFn_eq : t.equalFn = equalFn
  eq_rename : t' = t.rename rep

section Fields

variable (rep : UInt64 → UInt64) (t : LhTable) (n : ℕ)

@[simp] theorem rename_size : (t.rename rep).size = t.size := rfl

@[simp] theorem rename_count : (t.rename rep).count = t.count := rfl

@[simp] theorem rename_head : (t.rename rep).head = t.head := rfl

@[simp] theorem rename_tail : (t.rename rep).tail = t.tail := rfl

@[simp] theorem rename_key : (t.rename rep).key n = rep (t.key n) := rfl

@[simp] theorem rename_next : (t.rename rep).next n = t.next n := rfl

@[simp] theorem rename_prev : (t.rename rep).prev n = t.prev n := rfl

theorem rename_setEntry (e : LhEntry) :
    (t.setEntry n e).rename rep = (t.rename rep).setEntry n { e with k := rep e.k } := by
  have htable : (fun m => { (Function.update t.table n e) m with
      k := rep ((Function.update t.table n e) m).k } : ℕ → LhEntry)
      = Function.update (t.rename rep).table n { e with k := rep e.k } := by
    funext m
    by_cases hm : m = n
    · subst hm
      rw [Function.update_self, Function.update_self]
    · rw [Function.update_of_ne hm, Function.update_of_ne hm]
      rfl
  rw [LhTable.rename, LhTable.setEntry, LhTable.setEntry, htable]
  rfl

theorem rename_setNext (p : Option ℕ) :
    (t.setNext n p).rename rep = (t.rename rep).setNext n p := rename_setEntry ..

theorem rename_setPrev (p : Option ℕ) :
    (t.setPrev n p).rename rep = (t.rename rep).setPrev n p := rename_setEntry ..

end Fields

/-! ## The routines go alike -/

namespace Renamed

theorem setEntry (h : Renamed equalFn hash rep t t') (n : ℕ) {e e' : LhEntry}
    (he : e' = { e with k := rep e.k }) :
    Renamed equalFn hash rep (t.setEntry n e) (t'.setEntry n e') := by
  obtain ⟨hhash, hequal, rfl⟩ := h
  exact ⟨hhash, hequal, he ▸ (rename_setEntry ..).symm⟩

theorem setNext (h : Renamed equalFn hash rep t t') (n : ℕ) (p : Option ℕ) :
    Renamed equalFn hash rep (t.setNext n p) (t'.setNext n p) := by
  obtain ⟨hhash, hequal, rfl⟩ := h
  exact ⟨hhash, hequal, (rename_setNext ..).symm⟩

theorem setPrev (h : Renamed equalFn hash rep t t') (n : ℕ) (p : Option ℕ) :
    Renamed equalFn hash rep (t.setPrev n p) (t'.setPrev n p) := by
  obtain ⟨hhash, hequal, rfl⟩ := h
  exact ⟨hhash, hequal, (rename_setPrev ..).symm⟩

theorem setHead (h : Renamed equalFn hash rep t t') (p : Option ℕ) :
    Renamed equalFn hash rep { t with head := p } { t' with head := p } := by
  obtain ⟨hhash, hequal, rfl⟩ := h
  exact ⟨hhash, hequal, rfl⟩

theorem setTail (h : Renamed equalFn hash rep t t') (p : Option ℕ) :
    Renamed equalFn hash rep { t with tail := p } { t' with tail := p } := by
  obtain ⟨hhash, hequal, rfl⟩ := h
  exact ⟨hhash, hequal, rfl⟩

theorem setCount (h : Renamed equalFn hash rep t t') (c : ℤ) :
    Renamed equalFn hash rep { t with count := c } { t' with count := c } := by
  obtain ⟨hhash, hequal, rfl⟩ := h
  exact ⟨hhash, hequal, rfl⟩

theorem homeSlot (h : Renamed equalFn hash rep t t') (hn : Names equalFn hash rep) (k : UInt64) :
    homeSlot t' (rep k) = homeSlot t k := by
  obtain ⟨hhash, -, rfl⟩ := h
  unfold LinkHash.homeSlot
  have hsame : (t.rename rep).hashFn (rep k) = t.hashFn k := by
    rw [hhash, ← hn.hash_eq k, ← hhash]
    rfl
  rw [hsame]
  rfl

theorem lookupEntry (h : Renamed equalFn hash rep t t') (hn : Names equalFn hash rep) (k : UInt64) :
    lhTableLookupEntry t' (rep k) = lhTableLookupEntry t k := by
  have hpointers : t'.equalFn = lhPtrEqual := by rw [h.eq_rename]; rfl
  rw [lhTableLookupEntry_eq hpointers, h.homeSlot hn]
  unfold lhTableLookupEntry Probe.findStep
  obtain ⟨-, hequal, rfl⟩ := h
  simp only [rename_key, rename_size, ne_eq, hn.empty_iff, hn.freed_iff, ← hn.equal_iff, hequal]

theorem lookup (h : Renamed equalFn hash rep t t') (hn : Names equalFn hash rep) (k : UInt64) :
    lhTableLookup t' (rep k) = lhTableLookup t k := by
  unfold lhTableLookup
  rw [h.lookupEntry hn]
  obtain ⟨-, -, rfl⟩ := h
  rfl

theorem unlinkEntry (h : Renamed equalFn hash rep t t') (n : ℕ) :
    Alike (Renamed equalFn hash rep) (unlinkEntry t n) (unlinkEntry t' n) := by
  have hnext : t'.next n = t.next n := by rw [h.eq_rename, rename_next]
  have hprev : t'.prev n = t.prev n := by rw [h.eq_rename, rename_prev]
  have hhead : t'.head = t.head := by rw [h.eq_rename, rename_head]
  have htail : t'.tail = t.tail := by rw [h.eq_rename, rename_tail]
  unfold LinkHash.unlinkEntry
  rw [hnext, hprev, hhead, htail]
  split_ifs
  · exact .ok ((h.setHead none).setTail none)
  · cases t.next n with
    | none => exact .error _
    | some b => exact .ok ((h.setPrev b none).setHead (some b))
  · cases t.prev n with
    | none => exact .error _
    | some a => exact .ok ((h.setNext a none).setTail (some a))
  · cases t.prev n with
    | none => exact .error _
    | some a =>
      cases t.next n with
      | none => exact .error _
      | some b => exact .ok ((h.setNext a _).setPrev b _)

theorem linkEntry (h : Renamed equalFn hash rep t t') (n : ℕ) :
    Alike (Renamed equalFn hash rep) (linkEntry t n) (linkEntry t' n) := by
  have hhead : t'.head = t.head := by rw [h.eq_rename, rename_head]
  have htail : t'.tail = t.tail := by rw [h.eq_rename, rename_tail]
  unfold LinkHash.linkEntry
  rw [hhead, htail]
  cases t.head with
  | none => exact .ok ((((h.setHead (some n)).setTail (some n)).setNext n none).setPrev n none)
  | some a =>
    cases t.tail with
    | none => exact .error _
    | some m =>
      exact .ok ((((h.setNext m (some n)).setPrev n (some m)).setNext n none).setTail (some n))

theorem table_eq (h : Renamed equalFn hash rep t t') (n : ℕ) :
    t'.table n = { t.table n with k := rep (t.table n).k } := by
  rw [h.eq_rename]
  rfl

theorem deleteEntry (h : Renamed equalFn hash rep t t') (hn : Names equalFn hash rep) (n : ℕ) :
    Alike (fun r r' => r.1 = r'.1 ∧ Renamed equalFn hash rep r.2 r'.2) (lhTableDeleteEntry t n)
      (lhTableDeleteEntry t' n) := by
  have hkey : t'.key n = rep (t.key n) := by rw [h.eq_rename, rename_key]
  have hcount : t'.count = t.count := by rw [h.eq_rename, rename_count]
  have hvacant : (t'.key n = lhEmpty ∨ t'.key n = lhFreed) ↔
      (t.key n = lhEmpty ∨ t.key n = lhFreed) := by
    rw [hkey, hn.empty_iff, hn.freed_iff]
  unfold lhTableDeleteEntry
  by_cases hv : t.key n = lhEmpty ∨ t.key n = lhFreed
  · rw [if_pos hv, if_pos (hvacant.mpr hv)]
    exact .ok ⟨rfl, h⟩
  · rw [if_neg hv, if_neg (mt hvacant.mp hv), hcount]
    -- the freed cell, out of the list, and then without links
    have hfreed : rep lhFreed = lhFreed := (hn.freed_iff _).mpr rfl
    refine .bind (((h.setCount _).setEntry n ?_).unlinkEntry n) fun t₁ t₁' h₁ =>
      .ok ⟨rfl, h₁.setEntry n ?_⟩
    · rw [h.table_eq, hfreed]
    · rw [h₁.table_eq]

theorem delete (h : Renamed equalFn hash rep t t') (hn : Names equalFn hash rep) (k : UInt64) :
    Alike (fun r r' => r.1 = r'.1 ∧ Renamed equalFn hash rep r.2 r'.2) (lhTableDelete t k)
      (lhTableDelete t' (rep k)) := by
  unfold lhTableDelete
  rw [h.lookupEntry hn]
  cases lhTableLookupEntry t k with
  | error fault => exact .error _
  | ok found =>
    cases found with
    | none => exact .ok ⟨rfl, h⟩
    | some n => exact h.deleteEntry hn n

theorem put (h : Renamed equalFn hash rep t t') (hn : Names equalFn hash rep) (k v : UInt64) :
    Alike (Renamed equalFn hash rep) (lhTablePut t k v) (lhTablePut t' (rep k) v) := by
  have hscan : Probe.scan t'.size (fun n =>
      if t'.key n = lhEmpty ∨ t'.key n = lhFreed then some (n, false)
      else if t'.equalFn (t'.key n) (rep k) then some (n, true)
      else none) t'.size = Probe.scan t.size (fun n =>
      if t.key n = lhEmpty ∨ t.key n = lhFreed then some (n, false)
      else if t.equalFn (t.key n) k then some (n, true)
      else none) t.size := by
    have hpointers : t'.equalFn = lhPtrEqual := by rw [h.eq_rename]; rfl
    have hsize : t'.size = t.size := by rw [h.eq_rename, rename_size]
    have hkey : ∀ m, t'.key m = rep (t.key m) := fun m => by rw [h.eq_rename, rename_key]
    rw [hsize, hpointers, h.equalFn_eq]
    congr 1
    funext m
    simp only [lhPtrEqual, beq_iff_eq, hkey, hn.empty_iff, hn.freed_iff, ← hn.equal_iff]
  -- the entry in its cell, and the cell behind the tail
  have hplace : ∀ m t₁ t₁', Renamed equalFn hash rep t₁ t₁' → Alike (Renamed equalFn hash rep)
      (LinkHash.linkEntry { t₁.setEntry m { t₁.table m with k := k, v := v } with
        count := (t₁.setEntry m { t₁.table m with k := k, v := v }).count + 1 } m)
      (LinkHash.linkEntry { t₁'.setEntry m { t₁'.table m with k := rep k, v := v } with
        count := (t₁'.setEntry m { t₁'.table m with k := rep k, v := v }).count + 1 } m) := by
    intro m t₁ t₁' h₁
    have hcount : t₁'.count = t₁.count := by rw [h₁.eq_rename, rename_count]
    rw [LhTable.setEntry_count, LhTable.setEntry_count, hcount]
    refine ((h₁.setEntry m ?_).setCount _).linkEntry m
    rw [h₁.table_eq]
  unfold lhTablePut
  rw [h.homeSlot hn]
  refine .bind (.refl _) ?_
  rintro home _ rfl
  dsimp only
  rw [hscan]
  generalize Probe.scan t.size _ t.size home = stop
  cases stop with
  | none => exact .error _
  | some found =>
    obtain ⟨m, same⟩ := found
    cases same with
    | true => exact .bind ((h.deleteEntry hn m).map fun _ _ hr => hr.2) (hplace m)
    | false => exact hplace m t t' h

/-- Inserting the entries of a table into another. -/
theorem reinsert {insert insert' : LhTable → UInt64 → UInt64 → Except LhFault LhTable}
    (hinsert : ∀ t t' k v, Renamed equalFn hash rep t t' →
      Alike (Renamed equalFn hash rep) (insert t k v) (insert' t' (rep k) v))
    (h : Renamed equalFn hash rep t t') {fuel : ℕ} {ent : Option ℕ} {newT newT' : LhTable}
    (hnew : Renamed equalFn hash rep newT newT') :
    Alike (Renamed equalFn hash rep) (reinsert insert t fuel ent newT)
      (reinsert insert' t' fuel ent newT') := by
  induction fuel generalizing ent newT newT' with
  | zero =>
    cases ent with
    | none => exact .ok hnew
    | some n => exact .error _
  | succ fuel ih =>
    cases ent with
    | none => exact .ok hnew
    | some n =>
      rw [LinkHash.reinsert, LinkHash.reinsert, h.table_eq]
      have hnext : t'.next n = t.next n := by rw [h.eq_rename, rename_next]
      rw [hnext]
      exact .bind (hinsert _ _ _ _ hnew) fun _ _ h₁ => ih h₁

theorem lhTableNew (hn : Names equalFn hash rep) (size : ℤ) :
    Alike (Renamed equalFn hash rep) (lhTableNew size hash equalFn)
      (lhTableNew size hash lhPtrEqual) := by
  unfold LinkHash.lhTableNew
  split_ifs
  · exact .error _
  · have hempty : rep lhEmpty = lhEmpty := (hn.empty_iff _).mpr rfl
    refine .ok ⟨rfl, rfl, ?_⟩
    rw [LhTable.rename]
    dsimp only
    rw [hempty]

theorem resize {insert insert' : LhTable → UInt64 → UInt64 → Except LhFault LhTable}
    (hn : Names equalFn hash rep)
    (hinsert : ∀ t t' k v, Renamed equalFn hash rep t t' →
      Alike (Renamed equalFn hash rep) (insert t k v) (insert' t' (rep k) v))
    (h : Renamed equalFn hash rep t t') (newSize : ℤ) :
    Alike (Renamed equalFn hash rep) (lhTableResize insert t newSize)
      (lhTableResize insert' t' newSize) := by
  have hhash : t'.hashFn = t.hashFn := by rw [h.eq_rename]; rfl
  have hpointers : t'.equalFn = lhPtrEqual := by rw [h.eq_rename]; rfl
  have hsize : t'.size = t.size := by rw [h.eq_rename, rename_size]
  have hhead : t'.head = t.head := by rw [h.eq_rename, rename_head]
  unfold lhTableResize
  rw [hhash, hpointers, hsize, hhead, h.hashFn_eq, h.equalFn_eq]
  refine .bind (Renamed.lhTableNew hn newSize) fun newT newT' hnew => ?_
  refine .bind (h.reinsert hinsert hnew) fun newT₁ newT₁' hnew₁ => .ok ?_
  obtain ⟨-, -, rfl⟩ := h
  obtain ⟨-, -, rfl⟩ := hnew₁
  exact ⟨rfl, rfl, rfl⟩

theorem insertDepth (hn : Names equalFn hash rep) (depth : ℕ) (h : Renamed equalFn hash rep t t')
    (k v : UInt64) :
    Alike (Renamed equalFn hash rep) (insertDepth depth t k v)
      (insertDepth depth t' (rep k) v) := by
  induction depth generalizing t t' k v with
  | zero => exact .error _
  | succ depth ih =>
    have hsize : t'.size = t.size := by rw [h.eq_rename, rename_size]
    have hcount : t'.count = t.count := by rw [h.eq_rename, rename_count]
    rw [LinkHash.insertDepth, LinkHash.insertDepth, hsize, hcount]
    split_ifs
    · exact .bind (h.resize hn (fun _ _ k v h => ih h k v) _) fun t₁ t₁' h₁ => h₁.put hn k v
    · exact h.put hn k v

/-- **Inserting** goes alike. -/
theorem insert (hn : Names equalFn hash rep) (h : Renamed equalFn hash rep t t') (k v : UInt64) :
    Alike (Renamed equalFn hash rep) (lhTableInsert t k v) (lhTableInsert t' (rep k) v) :=
  h.insertDepth hn 32 k v

end Renamed

end Uvx.LinkHash
