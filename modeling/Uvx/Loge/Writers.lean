import Uvx.Common.Utf8
import Uvx.Loge.Defs

/-!
# What the writers of `loge.c` do

Into an area of `m` bytes `writeStr` stores `storeLen` bytes, keeps the first `keepLen` bytes of the
string in front of the NUL it adds, and moves its pointer by `advance`. `writeStr_spec` and
`writeBin_spec` say this for every call whose pointers are in order; the stores of the other calls are
only known to be added to the earlier ones (`stored_writeStr`).
-/

namespace Uvx.Loge

open Bytes

/-! ## Conversions and the backward search -/

theorem toUnsigned_of_lt {z : ℤ} (h₀ : 0 ≤ z) (h : z < 2 ^ 32) : toUnsigned z = z.toNat := by
  rw [toUnsigned, Int.emod_eq_of_lt h₀ h]

theorem toUnsigned_succ {n : ℕ} (h : n + 1 < 2 ^ 32) : toUnsigned ((n : ℤ) + 1) = n + 1 := by
  rw [toUnsigned_of_lt (by omega) (by omega)]
  omega

theorem toUnsigned_sub {p e : ℕ} (hpe : p ≤ e) (h : e - p < 2 ^ 32) :
    toUnsigned ((e : ℤ) - p) = e - p := by
  rw [toUnsigned_of_lt (by omega) (by omega)]
  omega

theorem toUnsigned_lt (z : ℤ) : toUnsigned z < 2 ^ 32 := by
  have := Int.emod_lt_of_pos z (show (0 : ℤ) < 2 ^ 32 by norm_num)
  simp only [toUnsigned]
  omega

theorem toInt_of_lt {z : ℤ} (h₀ : -2 ^ 31 ≤ z) (h : z < 2 ^ 31) : toInt z = z := by
  rw [toInt, Int.bmod_eq_of_le] <;> omega

/-- The leading-byte test of the source is the one UTF-8 defines. -/
theorem isLeadingByte_iff (c : UInt8) : isLeadingByte c = true ↔ c.IsUTF8FirstByte := by
  have hall : ∀ n : Fin 256, isLeadingByte (UInt8.ofNat n) = true ↔
      (UInt8.ofNat n).IsUTF8FirstByte := by decide +kernel
  have hc := hall ⟨c.toNat, c.toNat_lt⟩
  rwa [UInt8.ofNat_toNat] at hc

theorem rfindDown_eq_findGreatest (buf : ℕ → UInt8) (n : ℕ) :
    rfindDown buf n = Nat.findGreatest (fun i => isLeadingByte (buf i) = true) n := by
  induction n with
  | zero => rfl
  | succ n ih =>
    rw [rfindDown, Nat.findGreatest_succ, ih]

theorem rfindDown_le (buf : ℕ → UInt8) (n : ℕ) : rfindDown buf n ≤ n := by
  rw [rfindDown_eq_findGreatest]
  exact Nat.findGreatest_le n

theorem rfindDown_congr {buf buf' : ℕ → UInt8} {n : ℕ} (h : ∀ i, i ≤ n → buf i = buf' i) :
    rfindDown buf n = rfindDown buf' n := by
  induction n with
  | zero => rfl
  | succ n ih =>
    rw [rfindDown, rfindDown, h (n + 1) (Nat.le_refl _), ih (fun i hi => h i (by omega))]

/-- The search stops at once on a leading byte. -/
theorem rfindDown_of_isLeadingByte {buf : ℕ → UInt8} {n : ℕ} (h : isLeadingByte (buf n) = true) :
    rfindDown buf n = n := by
  cases n with
  | zero => rfl
  | succ n => rw [rfindDown, if_pos h]

/-! ## Strings -/

/-- The empty string, as which a null pointer reads. -/
def CString.empty : CString := ⟨[], List.not_mem_nil⟩

theorem textOf_eq (s : Option CString) : textOf s = (s.getD .empty).bytes := by
  cases s <;> rfl

theorem CString.get_of_lt {s : CString} {i : ℕ} (h : i < s.bytes.length) : s.get i = s.bytes[i] := by
  rw [CString.get, List.getD_eq_getElem _ _ h]

theorem CString.get_of_le {s : CString} {i : ℕ} (h : s.length ≤ i) : s.get i = 0 :=
  List.getD_eq_default _ _ h

theorem CString.get_ne_zero {s : CString} {i : ℕ} (h : i < s.length) : s.get i ≠ 0 := by
  rw [CString.get_of_lt h]
  exact fun h0 => s.nonzero (h0 ▸ List.getElem_mem h)

theorem CString.get_zero_eq_zero_iff (s : CString) : s.get 0 = 0 ↔ s.bytes = [] := by
  constructor
  · intro h
    by_contra hne
    exact s.get_ne_zero (List.length_pos_iff.mpr hne) h
  · intro h
    rw [CString.get, h]; rfl

/-- The number of bytes `write_str` copies into an area of `m` bytes. -/
def copyLen (s : CString) (m : ℕ) : ℕ :=
  min (toUnsigned (s.length + 1)) m

/-- The number of bytes of `s` that `write_str` leaves in front of the NUL it adds. -/
def keepLen (s : CString) (m : ℕ) : ℕ :=
  rfindDown s.get (copyLen s m - 1)

/-- The text that `write_str` leaves in an area of `m` bytes. -/
def kept (s : Option CString) (m : ℕ) : List UInt8 :=
  (textOf s).take (keepLen (s.getD .empty) m)

/-- How far `write_str` moves its pointer in an area of `m` bytes. -/
def advance (s : CString) (m : ℕ) : ℕ :=
  if m = 0 then 0 else keepLen s m + 1

/-- How many bytes `write_str` stores into an area of `m` bytes. -/
def storeLen (s : CString) (m : ℕ) : ℕ :=
  if m = 0 then 0 else max 1 (copyLen s m)

theorem copyLen_le (s : CString) (m : ℕ) : copyLen s m ≤ m :=
  Nat.min_le_right _ _

theorem copyLen_le_length (s : CString) (m : ℕ) : copyLen s m ≤ s.length + 1 := by
  simp only [copyLen, toUnsigned]
  omega

theorem keepLen_le_length (s : CString) (m : ℕ) : keepLen s m ≤ s.length := by
  have h₁ := rfindDown_le s.get (copyLen s m - 1)
  have h₂ := copyLen_le_length s m
  rw [keepLen]
  omega

theorem length_kept (s : Option CString) (m : ℕ) : (kept s m).length = keepLen (s.getD .empty) m := by
  rw [kept, List.length_take, textOf_eq]
  exact Nat.min_eq_left (keepLen_le_length _ m)

theorem kept_nonzero (s : Option CString) (m : ℕ) : 0 ∉ kept s m := by
  rw [kept, textOf_eq]
  exact fun h => (s.getD .empty).nonzero (List.mem_of_mem_take h)

theorem storeLen_le (s : CString) (m : ℕ) : storeLen s m ≤ m := by
  have h := copyLen_le s m
  rw [storeLen]
  split_ifs <;> omega

/-- What is kept and its NUL lie in the stored bytes. -/
theorem advance_le_storeLen (s : CString) (m : ℕ) : advance s m ≤ storeLen s m := by
  have h := rfindDown_le s.get (copyLen s m - 1)
  rw [advance, storeLen, keepLen]
  split_ifs <;> omega

theorem advance_le (s : CString) (m : ℕ) : advance s m ≤ m :=
  (advance_le_storeLen s m).trans (storeLen_le s m)

theorem advance_pos {s : CString} {m : ℕ} (hm : 0 < m) : 0 < advance s m := by
  rw [advance, if_neg (by omega)]
  exact Nat.succ_pos _

theorem advance_eq {s : CString} {m : ℕ} (hm : 0 < m) : advance s m = keepLen s m + 1 := by
  rw [advance, if_neg (by omega)]

/-- A string that fits is kept whole. -/
theorem keepLen_of_fits {s : CString} {m : ℕ} (hm : s.length + 1 ≤ m) (hs : s.length + 1 < 2 ^ 32) :
    keepLen s m = s.length := by
  have hn : copyLen s m = s.length + 1 := by
    rw [copyLen, toUnsigned_succ hs, Nat.min_eq_left hm]
  rw [keepLen, hn, Nat.add_sub_cancel]
  refine rfindDown_of_isLeadingByte ?_
  rw [CString.get_of_le (Nat.le_refl _)]
  decide

/-- **What `write_str` keeps of valid UTF-8 is its longest whole-character prefix.** -/
theorem isLongestPrefix_kept {s : Option CString} {m : ℕ} (hs : Utf8.Valid (textOf s))
    (hlen : (textOf s).length + 1 < 2 ^ 32) (hm : 0 < m) :
    Utf8.IsLongestPrefix (m - 1) (textOf s) (kept s m) := by
  rw [textOf_eq] at hs hlen ⊢
  rw [kept, textOf_eq]
  by_cases hfits : (s.getD .empty).length + 1 ≤ m
  · rw [keepLen_of_fits hfits hlen, CString.length, List.take_length]
    rw [CString.length] at hfits
    exact hs.isLongestPrefix_self (by omega)
  · -- the string is cut: the search starts at its byte `m - 1`
    rw [CString.length] at hfits
    have hn : copyLen (s.getD .empty) m = m := by
      rw [copyLen, CString.length, toUnsigned_succ hlen]; omega
    rw [keepLen, hn, rfindDown_eq_findGreatest]
    refine hs.isLongestPrefix_take_findGreatest (by omega) ?_
    intro i hi
    rw [isLeadingByte_iff, CString.get_of_lt hi]

/-! ## `write_str` -/

@[simp] theorem Out.byte_store (o : Out) (i : ℕ) (v : UInt8) (j : ℕ) :
    (o.store i v).byte j = if j = i then v else o.byte j := rfl

@[simp] theorem Out.stored_store (o : Out) (i : ℕ) (v : UInt8) :
    (o.store i v).stored = i :: o.stored := rfl

@[simp] theorem Out.asserted_store (o : Out) (i : ℕ) (v : UInt8) :
    (o.store i v).asserted = o.asserted := rfl

@[simp] theorem Out.byte_storeLE (o : Out) (i w x j : ℕ) :
    (o.storeLE i w x).byte j
      = if i ≤ j ∧ j < i + w then .ofNat (x / 256 ^ (j - i)) else o.byte j :=
  Buf.byte_copy _ _ _ _ _

theorem Out.mem_stored_storeLE (o : Out) (i w x j : ℕ) :
    j ∈ (o.storeLE i w x).stored ↔ (i ≤ j ∧ j < i + w) ∨ j ∈ o.stored :=
  Buf.mem_stored_copy _ _ _ _ _

@[simp] theorem Out.asserted_storeLE (o : Out) (i w x : ℕ) :
    (o.storeLE i w x).asserted = o.asserted := rfl

theorem Out.byte_copy (o : Out) (i : ℕ) (src : ℕ → UInt8) (n j : ℕ) :
    (o.copy i src n).byte j = if i ≤ j ∧ j < i + n then src (j - i) else o.byte j :=
  Buf.byte_copy _ _ _ _ _

theorem Out.mem_stored_copy (o : Out) (i : ℕ) (src : ℕ → UInt8) (n j : ℕ) :
    j ∈ (o.copy i src n).stored ↔ (i ≤ j ∧ j < i + n) ∨ j ∈ o.stored :=
  Buf.mem_stored_copy _ _ _ _ _

@[simp] theorem Out.asserted_copy (o : Out) (i : ℕ) (src : ℕ → UInt8) (n : ℕ) :
    (o.copy i src n).asserted = o.asserted := rfl

@[simp] theorem Out.byte_check (o : Out) (b : Bool) : (o.check b).byte = o.byte := rfl

@[simp] theorem Out.stored_check (o : Out) (b : Bool) : (o.check b).stored = o.stored := rfl

@[simp] theorem Out.asserted_check (o : Out) (b : Bool) :
    (o.check b).asserted = b :: o.asserted := rfl

/-- The effect of `write_str` on the area from `p` to `e`: unless the area is empty, `text` and a NUL
stand at `p`; what lies in front of `p` is unchanged, and exactly the `n` bytes from `p` on were stored
into. -/
structure Written (o o' : Out) (p e n : ℕ) (text : List UInt8) : Prop where
  hasStr : p < e → HasStr o'.byte p text
  frame : ∀ j, j < p → o'.byte j = o.byte j
  stored : ∀ j, j ∈ o'.stored ↔ (p ≤ j ∧ j < p + n) ∨ j ∈ o.stored
  asserted : o'.asserted = true :: o.asserted

/-- The single NUL written for an empty or null string. -/
theorem written_nul (o : Out) (p e : ℕ) : Written o ((o.check true).store p 0) p e 1 [] where
  hasStr _ := ⟨fun k hk => absurd hk (Nat.not_lt_zero k), by simp⟩
  frame j hj := by rw [Out.byte_store, if_neg (by omega), Out.byte_check]
  stored j := by
    rw [Out.stored_store, List.mem_cons, Out.stored_check]
    exact or_congr (by omega) Iff.rfl
  asserted := rfl

/-- The bytes of `s` copied to `p` and cut at `k` by a NUL. -/
theorem written_copy (o : Out) (p e : ℕ) {s : CString} {n k : ℕ} (hk : k < max 1 n)
    (hlen : k ≤ s.length) :
    Written o (((o.check true).copy p s.get n).store (p + k) 0) p e (max 1 n) (s.bytes.take k) := by
  have htake : (s.bytes.take k).length = k := by
    rw [List.length_take]
    exact Nat.min_eq_left hlen
  refine ⟨fun _ => ⟨?_, ?_⟩, ?_, ?_, rfl⟩
  · intro i hi
    rw [htake] at hi
    have hs : i < s.bytes.length := Nat.lt_of_lt_of_le hi hlen
    rw [Out.byte_store, if_neg (by omega), Out.byte_copy, if_pos (by omega),
      Nat.add_sub_cancel_left, CString.get_of_lt hs, List.getElem_take]
  · rw [htake, Out.byte_store, if_pos rfl]
  · intro j hj
    rw [Out.byte_store, if_neg (by omega), Out.byte_copy, if_neg (by omega), Out.byte_check]
  · intro j
    rw [Out.stored_store, List.mem_cons, Out.mem_stored_copy, Out.stored_check, ← or_assoc]
    exact or_congr (by omega) Iff.rfl

/-- The backward search of `writeStr` reads the bytes just copied. -/
theorem rfind_copy (o : Out) (p : ℕ) (s : CString) {m : ℕ} (hm : m < 2 ^ 31) :
    rfindUtf8LeadingByteIndex (fun i => (o.copy p s.get (copyLen s m)).byte (p + i))
      (toInt ((copyLen s m : ℕ) - 1)) = keepLen s m := by
  have hn := copyLen_le s m
  rw [rfindUtf8LeadingByteIndex, toInt_of_lt (by omega) (by omega), keepLen,
    show ((copyLen s m : ℤ) - 1).toNat = copyLen s m - 1 from by omega]
  by_cases hz : copyLen s m = 0
  · rw [hz]; rfl
  · refine rfindDown_congr ?_
    intro i hi
    rw [Out.byte_copy, if_pos (by omega), Nat.add_sub_cancel_left]

/-- **`writeStr` keeps a prefix of the string and stays in its area.** -/
theorem writeStr_spec (o : Out) {p e : ℕ} (str : Option CString) (hpe : p ≤ e)
    (hlt : e - p < 2 ^ 31) :
    Written o (writeStr o p e str).1 p e (storeLen (str.getD .empty) (e - p))
        (kept str (e - p)) ∧
      (writeStr o p e str).2 = p + advance (str.getD .empty) (e - p) := by
  have hcheck : decide (p ≤ e) = true := decide_eq_true hpe
  rcases Nat.eq_or_lt_of_le hpe with rfl | hpe
  · have hw : writeStr o p p str = (o.check true, p) := by simp [writeStr]
    rw [hw, storeLen, advance, Nat.sub_self, if_pos rfl, if_pos rfl]
    refine ⟨⟨fun h => absurd h (Nat.lt_irrefl p), fun _ _ => rfl, ?_, rfl⟩, rfl⟩
    intro j
    rw [Out.stored_check]
    exact ⟨Or.inr, fun h => h.resolve_left (by omega)⟩
  rw [storeLen, if_neg (by omega), advance_eq (by omega)]
  have hempty : copyLen .empty (e - p) = 1 := by
    have h1 : toUnsigned ((CString.empty.length : ℤ) + 1) = 1 := by decide
    rw [copyLen, h1]; omega
  rcases str with _ | s
  · have hw : writeStr o p e none = ((o.check true).store p 0, p + 1) := by
      simp only [writeStr]
      rw [if_neg (by omega), hcheck]
    rw [hw, kept, Option.getD_none, keepLen, hempty]
    exact ⟨written_nul o p e, rfl⟩
  · by_cases h0 : s.get 0 = 0
    · have hw : writeStr o p e (some s) = ((o.check true).store p 0, p + 1) := by
        simp only [writeStr]
        rw [if_neg (by omega), if_pos h0, hcheck]
      have hs : s = .empty := by
        cases s; simpa [CString.empty] using (CString.get_zero_eq_zero_iff _).mp h0
      rw [hw, kept, Option.getD_some, hs, keepLen, hempty]
      exact ⟨written_nul o p e, rfl⟩
    · have hdiff := toUnsigned_sub hpe.le (Nat.lt_trans hlt (by norm_num))
      have hw : writeStr o p e (some s) =
          (((o.check true).copy p s.get (copyLen s (e - p))).store (p + keepLen s (e - p)) 0,
            p + keepLen s (e - p) + 1) := by
        simp only [writeStr]
        rw [if_neg (by omega), if_neg h0, hdiff, hcheck]
        simp only [← copyLen.eq_def, rfind_copy (o.check true) p s hlt]
      have hkeep : keepLen s (e - p) < max 1 (copyLen s (e - p)) := by
        have h := rfindDown_le s.get (copyLen s (e - p) - 1)
        rw [keepLen]; omega
      rw [hw, Option.getD_some]
      exact ⟨written_copy o p e hkeep (keepLen_le_length s _), rfl⟩

/-- Whatever its pointers are, `writeStr` only adds stores. -/
theorem stored_writeStr (o : Out) (p e : ℕ) (str : Option CString) {j : ℕ} (hj : j ∈ o.stored) :
    j ∈ (writeStr o p e str).1.stored := by
  simp only [writeStr]
  split_ifs
  · exact hj
  · split
    · exact List.mem_cons_of_mem _ hj
    · split_ifs
      · exact List.mem_cons_of_mem _ hj
      · exact List.mem_cons_of_mem _ ((Out.mem_stored_copy _ _ _ _ _).mpr (Or.inr hj))

/-! ## `write_bin` -/

theorem writeBin_full (o : Out) (p : ℕ) (data : Option (ℕ → UInt8)) (datasize : ℕ) :
    writeBin o p p data datasize = (o.check true, some p) := by
  simp [writeBin]

/-- `writeBin` stores inside its area and answers a pointer only when all data and a NUL fit. -/
theorem writeBin_spec (o : Out) {p e : ℕ} (data : ℕ → UInt8) {datasize : ℕ} (hpe : p < e)
    (hlt : e - p < 2 ^ 32) (hsize : datasize < 2 ^ 32 - 1) :
    let o' := (writeBin o p e (some data) datasize).1
    (∀ j, j < p → o'.byte j = o.byte j) ∧
      (∀ j, j ∈ o'.stored ↔ (p ≤ j ∧ j < p + min (datasize + 1) (e - p)) ∨ j ∈ o.stored) ∧
      o'.asserted = true :: o.asserted ∧
      (writeBin o p e (some data) datasize).2
        = if e - p < datasize + 1 then none else some (p + (datasize + 1)) := by
  have hn := toUnsigned_succ (n := datasize) (by omega)
  have hdiff := toUnsigned_sub hpe.le hlt
  have hcheck : decide (p ≤ e) = true := decide_eq_true (by omega)
  have hw : writeBin o p e (some data) datasize =
      (((o.check true).copy p data (min (datasize + 1) (e - p))).store
          (p + min (datasize + 1) (e - p) - 1) 0,
        if e - p < datasize + 1 then none else some (p + (datasize + 1))) := by
    simp only [writeBin]
    rw [if_neg (by omega), hn, hdiff, hcheck]
    by_cases hfit : e - p < datasize + 1
    · rw [if_pos (by omega), if_pos hfit]
    · rw [if_neg (by omega), if_neg hfit, Nat.min_eq_left (by omega)]
  rw [hw]
  refine ⟨?_, ?_, rfl, rfl⟩
  · intro j hj
    rw [Out.byte_store, if_neg (by omega), Out.byte_copy, if_neg (by omega), Out.byte_check]
  · intro j
    rw [Out.stored_store, List.mem_cons, Out.mem_stored_copy, Out.stored_check, ← or_assoc]
    exact or_congr (by omega) Iff.rfl

/-- Data that fits is stored whole, with a NUL behind it in place of the byte that was read too
much. -/
theorem byte_writeBin_of_fits (o : Out) {p e : ℕ} (data : ℕ → UInt8) {datasize : ℕ}
    (hlt : e - p < 2 ^ 32) (hfits : datasize + 1 ≤ e - p) :
    let o' := (writeBin o p e (some data) datasize).1
    (∀ k, k < datasize → o'.byte (p + k) = data k) ∧ o'.byte (p + datasize) = 0 := by
  have hn := toUnsigned_succ (n := datasize) (by omega)
  have hdiff := toUnsigned_sub (p := p) (e := e) (by omega) hlt
  have hw : (writeBin o p e (some data) datasize).1 =
      ((o.check (p ≤ e)).copy p data (datasize + 1)).store (p + datasize) 0 := by
    simp only [writeBin]
    rw [if_neg (by omega), hn, hdiff, Nat.min_eq_left hfits, if_neg (Nat.lt_irrefl _)]
    rfl
  rw [hw]
  refine ⟨?_, by rw [Out.byte_store, if_pos rfl]⟩
  intro k hk
  rw [Out.byte_store, if_neg (by omega), Out.byte_copy, if_pos (by omega),
    Nat.add_sub_cancel_left]

theorem stored_writeBin (o : Out) (p e : ℕ) (data : Option (ℕ → UInt8)) (datasize : ℕ) {j : ℕ}
    (hj : j ∈ o.stored) : j ∈ (writeBin o p e data datasize).1.stored := by
  simp only [writeBin]
  split_ifs
  · exact hj
  all_goals
    split
    · exact List.mem_cons_of_mem _ hj
    · exact List.mem_cons_of_mem _ ((Out.mem_stored_copy _ _ _ _ _).mpr (Or.inr hj))

end Uvx.Loge
