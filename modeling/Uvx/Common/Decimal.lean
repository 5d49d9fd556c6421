import Mathlib.Data.Nat.Digits.Lemmas

/-!
# Decimal numbers as text

A number is written with the digits `0` to `9` and no sign or with a `-` in front, and read back
from them.
-/

namespace Decimal

/-- The character of a digit. -/
def digit (d : ℕ) : UInt8 := .ofNat (48 + d)

def ofNat (n : ℕ) : List UInt8 := if n = 0 then [48] else ((Nat.digits 10 n).map digit).reverse

def ofInt (z : ℤ) : List UInt8 := if z < 0 then 45 :: ofNat z.natAbs else ofNat z.natAbs

/-- The value of a row of digits. -/
def toNat (l : List UInt8) : ℕ := l.foldl (fun n c => 10 * n + (c.toNat - 48)) 0

def toInt (l : List UInt8) : ℤ := if l.head? = some 45 then -toNat l.tail else toNat l

def IsDigit (c : UInt8) : Prop := 48 ≤ c.toNat ∧ c.toNat ≤ 57

instance (c : UInt8) : Decidable (IsDigit c) := inferInstanceAs (Decidable (_ ∧ _))

variable {n k : ℕ} {c : UInt8}

theorem toNat_digit (h : n < 10) : (digit n).toNat = 48 + n :=
  UInt8.toNat_ofNat_of_lt' (show 48 + n < 2 ^ 8 by omega)

theorem isDigit_of_mem_ofNat (h : c ∈ ofNat n) : IsDigit c := by
  rw [ofNat] at h
  split_ifs at h with hn
  · obtain rfl := List.mem_singleton.mp h
    decide
  · rw [List.mem_reverse, List.mem_map] at h
    obtain ⟨d, hd, rfl⟩ := h
    have hlt := Nat.digits_lt_base (by decide) hd
    rw [IsDigit, toNat_digit hlt]
    omega

theorem ofNat_ne_nil (n : ℕ) : ofNat n ≠ [] := by
  rw [ofNat]
  split_ifs with hn
  · exact List.cons_ne_nil _ _
  · rw [ne_eq, List.reverse_eq_nil_iff, List.map_eq_nil_iff]
    exact Nat.digits_ne_nil_iff_ne_zero.mpr hn

theorem foldr_digit (l : List ℕ) (h : ∀ d ∈ l, d < 10) :
    (l.map digit).foldr (fun c n => 10 * n + (c.toNat - 48)) 0 = Nat.ofDigits 10 l := by
  induction l with
  | nil => rfl
  | cons d l ih =>
    rw [List.map_cons, List.foldr_cons, ih fun x hx => h x (List.mem_cons_of_mem d hx),
      toNat_digit (h d List.mem_cons_self), Nat.ofDigits_cons]
    omega

/-- A number is read back. -/
theorem toNat_ofNat (n : ℕ) : toNat (ofNat n) = n := by
  rw [ofNat]
  split_ifs with hn
  · rw [hn]
    rfl
  · rw [toNat, List.foldl_reverse, foldr_digit _ fun d hd => Nat.digits_lt_base (by decide) hd]
    exact Nat.ofDigits_digits 10 n

theorem head?_ofNat_ne (n : ℕ) : (ofNat n).head? ≠ some 45 := by
  intro h
  have hdigit := isDigit_of_mem_ofNat (List.mem_of_mem_head? h)
  exact absurd hdigit (by decide)

theorem toInt_ofNat (n : ℕ) : toInt (ofNat n) = n := by
  rw [toInt, if_neg (head?_ofNat_ne n), toNat_ofNat]

theorem toInt_ofInt (z : ℤ) : toInt (ofInt z) = z := by
  rw [ofInt]
  split_ifs with hneg
  · have hhead : (45 :: ofNat z.natAbs).head? = some 45 := rfl
    rw [toInt, if_pos hhead, List.tail_cons, toNat_ofNat]
    omega
  · rw [toInt_ofNat]
    omega

/-- A number below 10^k has at most `k` digits. -/
theorem length_ofNat_le (hk : 0 < k) (h : n < 10 ^ k) : (ofNat n).length ≤ k := by
  rw [ofNat]
  split_ifs with hn
  · exact hk
  · rw [List.length_reverse, List.length_map]
    exact (Nat.digits_length_le_iff (by decide) n).mpr h

theorem mem_ofInt {z : ℤ} (h : c ∈ ofInt z) : c = 45 ∨ IsDigit c := by
  rw [ofInt] at h
  split_ifs at h with hneg
  · rcases List.mem_cons.mp h with rfl | h
    · exact .inl rfl
    · exact .inr (isDigit_of_mem_ofNat h)
  · exact .inr (isDigit_of_mem_ofNat h)

theorem length_ofInt_le {z : ℤ} (hk : 0 < k) (h : z.natAbs < 10 ^ k) :
    (ofInt z).length ≤ k + 1 := by
  have hlength := length_ofNat_le hk h
  rw [ofInt]
  split_ifs with hneg
  · exact Nat.succ_le_succ hlength
  · exact hlength.trans (Nat.le_succ k)

end Decimal
