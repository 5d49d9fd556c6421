import Uvx.Automem.Room

/-!
# `automem_attach`

The function asks for `len - buffersize` bytes of room, which `automem_ensure_newspace` counts from
the end of the content and not from the end of the buffer.
-/

namespace Uvx.Automem

variable {fresh p : ℕ → UInt8} {s s' : AutomemT} {b b' : List UInt8} {len : UInt32}

/-- The buffer holds the attached block and nothing else, and nothing was written outside. -/
def AttachesSafely (fresh : ℕ → UInt8) (s : AutomemT) (p : ℕ → UInt8) (len : UInt32) : Prop :=
  ∃ s' b', automemAttach fresh s p len = .ok s' ∧ Allocated s' b' ∧ len ≤ s'.buffersize ∧
    s'.size = len ∧ b'.take len.toNat = bytesAt p len

/-- Once the buffer has been grown, what counts is whether the block fits. -/
theorem attachesSafely_iff_le (hs' : Allocated s' b')
    (hgrow : (if s.buffersize < len then automemEnsureNewspace fresh s (len - s.buffersize)
      else .ok s) = .ok s') :
    AttachesSafely fresh s p len ↔ len.toNat ≤ s'.buffersize.toNat := by
  have hlength := length_bytesAt p len
  have hattach : automemAttach fresh s p len =
      (inside (Block.write? b' 0 (bytesAt p len))).map fun b'' =>
        { s' with size := len, pdata := some b'' } := by
    by_cases h : s.buffersize < len
    · rw [if_pos h] at hgrow
      simp only [automemAttach, if_pos h, bind, Except.bind, pure, Except.pure, hgrow, deref,
        hs'.pdata]
      cases inside (Block.write? b' 0 (bytesAt p len)) <;> rfl
    · rw [if_neg h] at hgrow
      obtain rfl := Except.ok.inj hgrow
      simp only [automemAttach, if_neg h, bind, Except.bind, pure, Except.pure, deref, hs'.pdata]
      cases inside (Block.write? b' 0 (bytesAt p len)) <;> rfl
  constructor
  · rintro ⟨s'', b'', hok, hs'', -, hsize, -⟩
    by_contra hlt
    rw [hattach, Block.write?_eq_none (by rw [hlength, hs'.length]; omega)] at hok
    cases hok
  · intro hle
    have hw := Block.write?_of_le (b := b') (i := 0) (l := bytesAt p len)
      (by rw [hlength, hs'.length]; omega)
    generalize b'.take _ ++ _ ++ _ = b'' at hw
    rw [← UInt32.le_iff_toNat_le] at hle
    refine ⟨{ s' with size := len, pdata := some b'' }, b'', ?_, ⟨rfl, ?_, hs'.pos, hle⟩, hle, rfl,
      ?_⟩
    · rw [hattach, hw]
      rfl
    · rw [Block.length_of_write? hw]
      exact hs'.length
    · have htake := Block.take_of_write? hw
      rwa [hlength, Nat.zero_add, List.take_zero, List.nil_append] at htake

/-- Attaching is safe exactly when no doubling of the capacity is enough for the room that is asked
for and too little for the block. -/
theorem attachesSafely_iff (hs : Allocated s b) (hlen : s.size.toNat + len.toNat ≤ 2 ^ 31) :
    AttachesSafely fresh s p len ↔ ∀ k, s.buffersize.toNat * 2 ^ k < len.toNat →
      s.buffersize.toNat * 2 ^ k + s.buffersize.toNat < s.size.toNat + len.toNat := by
  by_cases hgrow : s.buffersize < len
  · have hb := UInt32.lt_iff_toNat_lt.mp hgrow
    have hd : (len - s.buffersize).toNat = len.toNat - s.buffersize.toNat :=
      UInt32.toNat_sub_of_le _ _ (UInt32.le_of_lt hgrow)
    obtain ⟨s', b', hok, hgrown⟩ := ensureNewspace_of_reaches fresh hs
      (show s.size.toNat + (len - s.buffersize).toNat < 2 ^ 32 by omega)
      (reaches_of_le hs (by omega))
    obtain ⟨k, hk, hbefore⟩ := hgrown.capacity
    have hbelow : ∀ j ≤ k, capacityAfter s j = s.buffersize.toNat * 2 ^ j := by
      intro j hj
      refine capacityAfter_eq ?_
      intro i hi
      have := hbefore i (hi.trans_le hj)
      omega
    have hroom := hgrown.room
    rw [attachesSafely_iff_le hgrown.allocated (by rw [if_pos hgrow]; exact hok), hk,
      hbelow k le_rfl]
    rw [hk, hbelow k le_rfl] at hroom
    constructor
    · intro hle i hi
      have hik : i < k := by
        by_contra hki
        have hpow := Nat.mul_le_mul_left s.buffersize.toNat
          (Nat.pow_le_pow_right (show 0 < 2 from Nat.two_pos) (Nat.le_of_not_lt hki))
        omega
      have := hbefore i hik
      rw [hbelow i hik.le] at this
      omega
    · intro hall
      by_contra hlt
      have := hall k (Nat.lt_of_not_le hlt)
      omega
  · have hle : len.toNat ≤ s.buffersize.toNat := by
      rw [UInt32.lt_iff_toNat_lt] at hgrow
      omega
    rw [attachesSafely_iff_le hs (if_neg hgrow)]
    refine iff_of_true hle ?_
    intro k hk
    have := Nat.le_mul_of_pos_right s.buffersize.toNat (Nat.two_pow_pos k)
    omega

/-- A full buffer of three bytes is grown to the six that are attached. -/
theorem attachesSafely_iff_full :
    AttachesSafely (fun _ => 0) ⟨3, 3, some [1, 2, 3]⟩ (fun _ => 7) 6 := by
  have hs : Allocated ⟨3, 3, some [1, 2, 3]⟩ [1, 2, 3] := ⟨rfl, rfl, by decide, by decide⟩
  refine (attachesSafely_iff hs (by decide)).mpr ?_
  intro k hk
  -- three bytes are too few, and the next doubling gives six
  rcases k with _ | k
  · decide
  · have hpow : 3 * 2 ^ (k + 1) < 6 := hk
    have hpos := Nat.two_pow_pos k
    omega

/-- An empty buffer of 128 bytes has room for the 72 that 200 are more than 128, and is not grown. -/
theorem not_attachesSafely_larger :
    Allocated (automemInit (fun _ => 0) 128) (Block.malloc (fun _ => 0) 128) ∧
      ¬ AttachesSafely (fun _ => 0) (automemInit (fun _ => 0) 128) (fun _ => 7) 200 := by
  have hs : Allocated (automemInit (fun _ => 0) 128) (Block.malloc (fun _ => 0) 128) :=
    ⟨rfl, Block.length_malloc _ _, by decide, by decide⟩
  refine ⟨hs, ?_⟩
  intro hsafe
  rw [attachesSafely_iff_le hs rfl] at hsafe
  exact absurd hsafe (by decide)

end Uvx.Automem
