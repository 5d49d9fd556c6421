import Mathlib

/-!
# Byte buffers written by stores

A `Buf` is the memory behind an output pointer together with the list of all indices stored into.
The memory is unbounded on purpose: a store past the end of the caller's buffer is not refused, it is
recorded, and staying inside the buffer is a statement about `stored`.
-/

/-- The bytes behind an output pointer and every index stored into so far, latest first. -/
structure Buf where
  byte : ℕ → UInt8
  stored : List ℕ

namespace Buf

/-- Store one byte. -/
def store (b : Buf) (i : ℕ) (v : UInt8) : Buf where
  byte j := if j = i then v else b.byte j
  stored := i :: b.stored

/-- `memcpy`: store the first `n` bytes of `src` from index `i` on. -/
def copy (b : Buf) (i : ℕ) (src : ℕ → UInt8) : ℕ → Buf
  | 0 => b
  | n + 1 => (b.copy i src n).store (i + n) (src n)

/-- Store the low `w` bytes of `x`, least significant byte first. -/
def storeLE (b : Buf) (i w x : ℕ) : Buf :=
  b.copy i (fun j => UInt8.ofNat (x / 256 ^ j)) w

@[simp] theorem byte_store (b : Buf) (i : ℕ) (v : UInt8) (j : ℕ) :
    (b.store i v).byte j = if j = i then v else b.byte j := rfl

@[simp] theorem stored_store (b : Buf) (i : ℕ) (v : UInt8) :
    (b.store i v).stored = i :: b.stored := rfl

theorem byte_copy (b : Buf) (i : ℕ) (src : ℕ → UInt8) (n j : ℕ) :
    (b.copy i src n).byte j = if i ≤ j ∧ j < i + n then src (j - i) else b.byte j := by
  induction n with
  | zero => rw [copy, if_neg (by omega)]
  | succ n ih =>
    rw [copy, byte_store, ih]
    by_cases hj : j = i + n
    · subst hj
      rw [if_pos rfl, if_pos (by omega), Nat.add_sub_cancel_left]
    · rw [if_neg hj]
      exact if_congr (by omega) rfl rfl

theorem mem_stored_copy (b : Buf) (i : ℕ) (src : ℕ → UInt8) (n j : ℕ) :
    j ∈ (b.copy i src n).stored ↔ (i ≤ j ∧ j < i + n) ∨ j ∈ b.stored := by
  induction n with
  | zero => simp [copy]
  | succ n ih =>
    have hsplit : (i ≤ j ∧ j < i + (n + 1)) ↔ j = i + n ∨ (i ≤ j ∧ j < i + n) := by omega
    rw [copy, stored_store, List.mem_cons, ih, hsplit, or_assoc]

end Buf

namespace Bytes

/-! ## Reading numbers and strings back -/

/-- The number held in the `w` bytes from index `i` on, least significant byte first. -/
def readLE (byte : ℕ → UInt8) (i : ℕ) : ℕ → ℕ
  | 0 => 0
  | w + 1 => readLE byte i w + (byte (i + w)).toNat * 256 ^ w

/-- Reading the stored digits gives the number modulo the width. -/
theorem readLE_digits {byte : ℕ → UInt8} {i w x : ℕ}
    (h : ∀ j, j < w → byte (i + j) = UInt8.ofNat (x / 256 ^ j)) :
    readLE byte i w = x % 256 ^ w := by
  induction w with
  | zero => simp [readLE, Nat.mod_one]
  | succ w ih =>
    have hdigit : (UInt8.ofNat (x / 256 ^ w)).toNat = x / 256 ^ w % 256 := UInt8.toNat_ofNat'
    rw [readLE, ih (fun j hj => h j (by omega)), h w (by omega), hdigit, pow_succ, Nat.mod_mul,
      Nat.mul_comm]

theorem readLE_congr {byte byte' : ℕ → UInt8} {i w : ℕ}
    (h : ∀ j, i ≤ j → j < i + w → byte j = byte' j) :
    readLE byte i w = readLE byte' i w := by
  induction w with
  | zero => rfl
  | succ w ih =>
    rw [readLE, readLE, ih (fun j h₁ h₂ => h j h₁ (by omega)), h (i + w) (by omega) (by omega)]

/-- Read a NUL-terminated string of which at most `fuel` bytes, the NUL included, may be read. -/
def cstr? (byte : ℕ → UInt8) (i : ℕ) : ℕ → Option (List UInt8)
  | 0 => none
  | fuel + 1 =>
    if byte i = 0 then some []
    else (cstr? byte (i + 1) fuel).map (byte i :: ·)

theorem cstr?_congr {byte byte' : ℕ → UInt8} {i fuel : ℕ}
    (h : ∀ j, i ≤ j → j < i + fuel → byte' j = byte j) : cstr? byte' i fuel = cstr? byte i fuel := by
  induction fuel generalizing i with
  | zero => rfl
  | succ fuel ih =>
    rw [cstr?, cstr?, h i (by omega) (by omega), ih fun j hj hj' => h j (by omega) (by omega)]

/-- The bytes of `l` followed by a NUL stand from index `i` on. -/
def HasStr (byte : ℕ → UInt8) (i : ℕ) (l : List UInt8) : Prop :=
  (∀ k, (h : k < l.length) → byte (i + k) = l[k]) ∧ byte (i + l.length) = 0

theorem HasStr.congr {byte byte' : ℕ → UInt8} {i : ℕ} {l : List UInt8} (h : HasStr byte i l)
    (heq : ∀ j, i ≤ j → j ≤ i + l.length → byte' j = byte j) : HasStr byte' i l :=
  ⟨fun k hk => by rw [heq _ (by omega) (by omega), h.1 k hk],
    by rw [heq _ (by omega) (by omega), h.2]⟩

/-- A string free of NULs is read back exactly. -/
theorem HasStr.cstr?_eq {byte : ℕ → UInt8} {i : ℕ} {l : List UInt8} (h : HasStr byte i l)
    (hl : 0 ∉ l) {fuel : ℕ} (hfuel : l.length < fuel) : cstr? byte i fuel = some l := by
  induction l generalizing i fuel with
  | nil =>
    obtain ⟨f, rfl⟩ : ∃ f, fuel = f + 1 := ⟨fuel - 1, by simp at hfuel; omega⟩
    rw [cstr?, if_pos (by simpa using h.2)]
  | cons a l ih =>
    obtain ⟨f, rfl⟩ : ∃ f, fuel = f + 1 := ⟨fuel - 1, by simp at hfuel; omega⟩
    have ha : byte i = a := h.1 0 (by simp)
    have htail : HasStr byte (i + 1) l := by
      constructor
      · intro k hk
        have hstep := h.1 (k + 1) (by simpa using hk)
        rw [show i + 1 + k = i + (k + 1) from by omega, hstep]
        rfl
      · have hend := h.2
        rwa [List.length_cons, show i + (l.length + 1) = i + 1 + l.length from by omega] at hend
    rw [List.mem_cons, not_or] at hl
    rw [cstr?, ha, if_neg (fun h0 => hl.1 h0.symm),
      ih htail hl.2 (by simpa using hfuel)]
    rfl

/-! ## Lists of bytes in memory -/

/-- The bytes of `l` stand from index `i` on. -/
def HasBytes (byte : ℕ → UInt8) (i : ℕ) (l : List UInt8) : Prop :=
  ∀ k, (h : k < l.length) → byte (i + k) = l[k]

/-- The low `w` bytes of `x`, least significant byte first. -/
def digits (w x : ℕ) : List UInt8 := (List.range w).map fun j => .ofNat (x / 256 ^ j)

@[simp] theorem length_digits (w x : ℕ) : (digits w x).length = w := by
  simp [digits]

theorem HasBytes.append {byte : ℕ → UInt8} {i : ℕ} {l l' : List UInt8} (h : HasBytes byte i l)
    (h' : HasBytes byte (i + l.length) l') : HasBytes byte i (l ++ l') := by
  intro k hk
  rw [List.length_append] at hk
  rcases Nat.lt_or_ge k l.length with hlt | hge
  · rw [List.getElem_append_left hlt, h k hlt]
  · obtain ⟨j, rfl⟩ := Nat.exists_eq_add_of_le hge
    rw [List.getElem_append_right hge, ← Nat.add_assoc, h' j (by omega)]
    simp only [Nat.add_sub_cancel_left]

theorem HasStr.hasBytes {byte : ℕ → UInt8} {i : ℕ} {l : List UInt8} (h : HasStr byte i l) :
    HasBytes byte i (l ++ [0]) := by
  refine HasBytes.append h.1 ?_
  intro k hk
  obtain rfl : k = 0 := by simpa using hk
  exact h.2

theorem hasBytes_nil (byte : ℕ → UInt8) (i : ℕ) : HasBytes byte i [] :=
  fun k hk => absurd hk (Nat.not_lt_zero k)

theorem hasBytes_cons_iff {byte : ℕ → UInt8} {i : ℕ} {b : UInt8} {l : List UInt8} :
    HasBytes byte i (b :: l) ↔ byte i = b ∧ HasBytes byte (i + 1) l := by
  constructor
  · intro h
    refine ⟨h 0 (Nat.succ_pos _), ?_⟩
    intro k hk
    have hnext := h (k + 1) (Nat.succ_lt_succ hk)
    rwa [← Nat.add_assoc, Nat.add_right_comm] at hnext
  · rintro ⟨hb, hl⟩ (_ | k) hk
    · exact hb
    · have hnext := hl k (Nat.lt_of_succ_lt_succ hk)
      rwa [Nat.add_right_comm, Nat.add_assoc] at hnext

/-- Data in front of a NUL is read as a string up to its first zero byte. -/
theorem HasBytes.hasStr_takeWhile {byte : ℕ → UInt8} {i : ℕ} {l : List UInt8}
    (h : HasBytes byte i (l ++ [0])) : HasStr byte i (l.takeWhile (· ≠ 0)) := by
  induction l generalizing i with
  | nil =>
    have hnul := (hasBytes_cons_iff.mp h).1
    exact ⟨fun k hk => absurd hk (Nat.not_lt_zero k), hnul⟩
  | cons a l ih =>
    obtain ⟨ha, hl⟩ := hasBytes_cons_iff.mp h
    by_cases h0 : a = 0
    · rw [List.takeWhile_cons_of_neg (by simpa using h0)]
      exact ⟨fun k hk => absurd hk (Nat.not_lt_zero k), ha.trans h0⟩
    · obtain ⟨hbytes, hnul⟩ := ih hl
      rw [List.takeWhile_cons_of_pos (by simpa using h0)]
      refine ⟨hasBytes_cons_iff.mpr ⟨ha, hbytes⟩, ?_⟩
      rwa [List.length_cons, Nat.add_comm _ 1, ← Nat.add_assoc]

/-- Memory that begins with `l` is copied out as `l`. -/
theorem HasBytes.map_range {byte : ℕ → UInt8} {l : List UInt8} (h : HasBytes byte 0 l) :
    (List.range l.length).map byte = l := by
  refine List.ext_getElem (by simp) ?_
  intro k _ hk
  have hbyte := h k hk
  rw [Nat.zero_add] at hbyte
  rw [List.getElem_map, List.getElem_range, hbyte]

theorem readLE_lt (byte : ℕ → UInt8) (i w : ℕ) : readLE byte i w < 256 ^ w := by
  induction w with
  | zero => simp [readLE]
  | succ w ih =>
    have hb := (byte (i + w)).toNat_lt
    calc readLE byte i w + (byte (i + w)).toNat * 256 ^ w
        < 256 ^ w + (byte (i + w)).toNat * 256 ^ w := Nat.add_lt_add_right ih _
      _ = ((byte (i + w)).toNat + 1) * 256 ^ w := by rw [Nat.add_mul, Nat.one_mul, Nat.add_comm]
      _ ≤ 256 * 256 ^ w := Nat.mul_le_mul_right _ (by omega)
      _ = 256 ^ (w + 1) := by rw [pow_succ, Nat.mul_comm]

/-- A number read back has been stored digit by digit. -/
theorem digit_readLE (byte : ℕ → UInt8) (i : ℕ) {w j : ℕ} (hj : j < w) :
    readLE byte i w / 256 ^ j % 256 = (byte (i + j)).toNat := by
  induction w with
  | zero => exact absurd hj (Nat.not_lt_zero j)
  | succ w ih =>
    have hpos : 0 < 256 ^ j := by positivity
    rcases Nat.lt_or_eq_of_le (Nat.lt_succ_iff.mp hj) with hlt | rfl
    · -- the last digit is a multiple of `256 ^ (j + 1)`
      have hsplit : (256 : ℕ) ^ w = 256 ^ j * (256 * 256 ^ (w - j - 1)) := by
        rw [← pow_succ', ← pow_add]
        congr 1
        omega
      rw [readLE, hsplit, Nat.mul_left_comm, Nat.add_mul_div_left _ _ hpos, Nat.mul_left_comm,
        Nat.add_mul_mod_self_left, ih hlt]
    · have hb := (byte (i + j)).toNat_lt
      rw [readLE, Nat.mul_comm _ (256 ^ j), Nat.add_mul_div_left _ _ hpos,
        Nat.div_eq_of_lt (readLE_lt byte i j), Nat.zero_add, Nat.mod_eq_of_lt hb]

theorem hasBytes_digits_readLE (byte : ℕ → UInt8) (i w : ℕ) :
    HasBytes byte i (digits w (readLE byte i w)) := by
  intro k hk
  rw [length_digits] at hk
  refine UInt8.toNat_inj.mp ?_
  simp only [digits, List.getElem_map, List.getElem_range]
  rw [UInt8.toNat_ofNat', ← digit_readLE byte i hk]

end Bytes
