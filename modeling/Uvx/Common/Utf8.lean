import Mathlib

/-!
# Valid UTF-8 byte strings and their whole-character prefixes

A byte string is valid when it encodes some list of characters. The leading bytes of a valid string
are exactly its character boundaries, so searching backwards for a leading byte finds the longest
prefix made of whole characters (`Valid.isLongestPrefix_take_findGreatest`).
-/

namespace Utf8

/-- The UTF-8 encoding of a list of characters. -/
def encode (cs : List Char) : List UInt8 :=
  cs.flatMap String.utf8EncodeChar

/-- A byte string is valid UTF-8 when it is the encoding of some characters. -/
def Valid (bs : List UInt8) : Prop :=
  ∃ cs, encode cs = bs

@[simp] theorem encode_nil : encode [] = [] := rfl

@[simp] theorem encode_cons (c : Char) (cs : List Char) :
    encode (c :: cs) = String.utf8EncodeChar c ++ encode cs := rfl

theorem encode_append (cs ds : List Char) : encode (cs ++ ds) = encode cs ++ encode ds :=
  List.flatMap_append

theorem Valid.nil : Valid [] := ⟨[], rfl⟩

/-! ## Character boundaries -/

/-- A leading byte inside a valid string starts a character: the bytes before it are valid. -/
theorem Valid.take_of_isUTF8FirstByte {bs : List UInt8} (h : Valid bs) {i : ℕ}
    (hi : i < bs.length) (hlead : bs[i].IsUTF8FirstByte) : Valid (bs.take i) := by
  obtain ⟨cs, rfl⟩ := h
  induction cs generalizing i with
  | nil => exact absurd hi (Nat.not_lt_zero _)
  | cons c cs ih =>
    simp only [encode_cons] at hi hlead ⊢
    by_cases hc : i < (String.utf8EncodeChar c).length
    · -- inside the first character only its first byte is a leading byte
      rw [List.getElem_append_left hc, UInt8.isUTF8FirstByte_getElem_utf8EncodeChar] at hlead
      subst hlead
      simpa using Valid.nil
    · have hle : (String.utf8EncodeChar c).length ≤ i := Nat.le_of_not_lt hc
      rw [List.getElem_append_right hle] at hlead
      rw [List.length_append] at hi
      obtain ⟨ds, hds⟩ := ih (by omega) hlead
      refine ⟨c :: ds, ?_⟩
      rw [encode_cons, hds, List.take_append, List.take_of_length_le hle]

/-- The first byte of a nonempty valid string is a leading byte. -/
theorem Valid.isUTF8FirstByte_zero {bs : List UInt8} (h : Valid bs) (hpos : 0 < bs.length) :
    bs[0].IsUTF8FirstByte := by
  obtain ⟨cs, rfl⟩ := h
  cases cs with
  | nil => exact absurd hpos (Nat.lt_irrefl 0)
  | cons c cs =>
    have hc : 0 < (String.utf8EncodeChar c).length := by
      rw [String.length_utf8EncodeChar]; exact c.utf8Size_pos
    simp only [encode_cons]
    rw [List.getElem_append_left hc]
    simp

/-- Cutting a valid prefix off a valid string leaves a valid string. -/
theorem Valid.of_append {q r : List UInt8} (h : Valid (q ++ r)) (hq : Valid q) : Valid r := by
  obtain ⟨cs, hcs⟩ := h
  obtain ⟨ds, rfl⟩ := hq
  have hpre : ds <+: cs := by
    refine List.isPrefix_of_utf8Encode_append_eq_utf8Encode r.toByteArray ?_
    rw [List.utf8Encode, List.utf8Encode, ← List.toByteArray_append]
    exact congrArg List.toByteArray hcs.symm
  obtain ⟨es, rfl⟩ := hpre
  rw [encode_append] at hcs
  exact ⟨es, List.append_cancel_left hcs⟩

/-- A prefix of a valid string is valid when it ends in front of a leading byte, or is the whole
string. -/
theorem Valid.take_iff {bs : List UInt8} (h : Valid bs) {i : ℕ} (hi : i < bs.length) :
    Valid (bs.take i) ↔ bs[i].IsUTF8FirstByte := by
  constructor
  · intro htake
    have hdrop : Valid (bs.drop i) :=
      Valid.of_append (q := bs.take i) (by rwa [List.take_append_drop]) htake
    have hfirst := hdrop.isUTF8FirstByte_zero (by rw [List.length_drop]; omega)
    simpa using hfirst
  · exact h.take_of_isUTF8FirstByte hi

/-- An ASCII byte is a whole character. -/
theorem utf8EncodeChar_of_ascii {c : Char} {b : UInt8} {rest : List UInt8}
    (hc : String.utf8EncodeChar c = b :: rest) (hb : b < 128) : rest = [] := by
  simp only [String.utf8EncodeChar] at hc
  split_ifs at hc with h₁ h₂ h₃
  · exact (List.cons.inj hc).2.symm
  -- the leading byte of a longer character is at least 192
  all_goals
    rw [← (List.cons.inj hc).1, UInt8.lt_iff_toNat_lt] at hb
    simp at hb
    try omega

/-- What follows an ASCII byte of a valid string is valid. -/
theorem Valid.drop_of_ascii {bs : List UInt8} (h : Valid bs) {i : ℕ} (hi : i < bs.length)
    (hascii : bs[i] < 128) : Valid (bs.drop (i + 1)) := by
  have hlead : bs[i].IsUTF8FirstByte := by
    have hall : ∀ n : Fin 256, UInt8.ofNat n < 128 → (UInt8.ofNat n).IsUTF8FirstByte := by
      decide +kernel
    have hb := hall ⟨bs[i].toNat, bs[i].toNat_lt⟩
    rw [UInt8.ofNat_toNat] at hb
    exact hb hascii
  obtain ⟨cs, hcs⟩ : Valid (bs.drop i) :=
    Valid.of_append (q := bs.take i) (by rwa [List.take_append_drop])
      (h.take_of_isUTF8FirstByte hi hlead)
  cases cs with
  | nil =>
    have hlen := congrArg List.length hcs
    rw [encode_nil, List.length_nil, List.length_drop] at hlen
    omega
  | cons c cs =>
    have hpos : 0 < (String.utf8EncodeChar c).length := by simp [c.utf8Size_pos]
    obtain ⟨b, rest, hb⟩ := List.exists_cons_of_length_pos hpos
    rw [List.drop_eq_getElem_cons hi, encode_cons, hb, List.cons_append, List.cons.injEq] at hcs
    obtain rfl := utf8EncodeChar_of_ascii hb (hcs.1 ▸ hascii)
    exact ⟨cs, hcs.2⟩

/-! ## The longest whole-character prefix -/

/-- `pre` is the longest prefix of `bs` that is valid UTF-8 and has at most `m` bytes. -/
structure IsLongestPrefix (m : ℕ) (bs pre : List UInt8) : Prop where
  isPrefix : pre <+: bs
  valid : Valid pre
  length_le : pre.length ≤ m
  longest : ∀ q, q <+: bs → Valid q → q.length ≤ m → q.length ≤ pre.length

/-- A valid string that fits is its own longest prefix. -/
theorem Valid.isLongestPrefix_self {bs : List UInt8} {m : ℕ} (h : Valid bs)
    (hm : bs.length ≤ m) : IsLongestPrefix m bs bs :=
  ⟨List.prefix_rfl, h, hm, fun _ hq _ _ => hq.length_le⟩

/-- Searching backwards from byte `m` of a longer valid string for a leading byte cuts the string
to its longest valid prefix of at most `m` bytes. -/
theorem Valid.isLongestPrefix_take_findGreatest {bs : List UInt8} (h : Valid bs) {m : ℕ}
    (hm : m < bs.length) {lead : ℕ → Prop} [DecidablePred lead]
    (hlead : ∀ i, (hi : i < bs.length) → (lead i ↔ bs[i].IsUTF8FirstByte)) :
    IsLongestPrefix m bs (bs.take (Nat.findGreatest lead m)) := by
  have hle : Nat.findGreatest lead m ≤ m := Nat.findGreatest_le m
  have hlen : (bs.take (Nat.findGreatest lead m)).length = Nat.findGreatest lead m := by
    rw [List.length_take]; omega
  refine ⟨List.take_prefix _ _, ?_, by omega, ?_⟩
  · by_cases hz : Nat.findGreatest lead m = 0
    · rw [hz]; simpa using Valid.nil
    · have hspec : lead (Nat.findGreatest lead m) := Nat.findGreatest_of_ne_zero rfl hz
      exact h.take_of_isUTF8FirstByte (by omega) ((hlead _ (by omega)).mp hspec)
  · -- a shorter valid prefix ends where the next character starts
    rintro q ⟨r, rfl⟩ hq hqm
    have hr : 0 < r.length := by rw [List.length_append] at hm; omega
    have hfirst : lead q.length := by
      rw [hlead _ (by rw [List.length_append]; omega), List.getElem_append_right (Nat.le_refl _)]
      simpa using (h.of_append hq).isUTF8FirstByte_zero hr
    rw [hlen]
    exact Nat.le_findGreatest hqm hfirst

end Utf8
