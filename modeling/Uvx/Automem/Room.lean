import Uvx.Automem.Defs

/-!
# Making room: `automem_ensure_newspace`

The loop doubles the capacity modulo 2^32. It makes enough room exactly when it comes to a capacity
that is large enough before it comes to one that is smaller than the content.
-/

namespace Uvx.Automem

variable {fresh : ℕ → UInt8} {s : AutomemT} {b : List UInt8} {size len nb x : UInt32}
  {fuel j k : ℕ}

/-- A buffer of which the first `size` bytes of `buffersize` allocated ones are in use. -/
structure Allocated (s : AutomemT) (b : List UInt8) : Prop where
  pdata : s.pdata = some b
  length : b.length = s.buffersize.toNat
  pos : 0 < s.buffersize
  size_le : s.size ≤ s.buffersize

/-- The capacity after `k` doublings. -/
def capacityAfter (s : AutomemT) (k : ℕ) : ℕ := s.buffersize.toNat * 2 ^ k % 2 ^ 32

/-- The doublings come to enough capacity, and to none below the content before that. -/
def Reaches (s : AutomemT) (len : UInt32) : Prop :=
  ∃ k, s.size.toNat + len.toNat ≤ capacityAfter s k ∧ ∀ j < k, s.size.toNat ≤ capacityAfter s j

/-- The loop ends and leaves a buffer that is not smaller and has room for `len` more bytes, so that
appending them stays inside. -/
def MakesRoom (fresh : ℕ → UInt8) (s : AutomemT) (len : UInt32) : Prop :=
  (∃ fuel, (growLoop s.size len fuel s.buffersize).isSome) ∧
    ∃ s', automemEnsureNewspace fresh s len = .ok s' ∧ s.buffersize ≤ s'.buffersize ∧
      s.size.toNat + len.toNat ≤ s'.buffersize.toNat ∧
      ∀ p, ∃ r, automemAppendVoidp fresh s p len = .ok r

/-! ## The loop -/

def doubled (nb : UInt32) (k : ℕ) : UInt32 := (· * 2)^[k] nb

theorem doubled_succ (nb : UInt32) (k : ℕ) : doubled nb (k + 1) = doubled (nb * 2) k := rfl

theorem toNat_doubled (nb : UInt32) (k : ℕ) :
    (doubled nb k).toNat = nb.toNat * 2 ^ k % 2 ^ 32 := by
  induction k generalizing nb with
  | zero =>
    have hnb := nb.toNat_lt
    rw [pow_zero, mul_one, Nat.mod_eq_of_lt hnb]
    rfl
  | succ k ih =>
    have h2 : (2 : UInt32).toNat = 2 := rfl
    rw [doubled_succ, ih, UInt32.toNat_mul, h2, Nat.mod_mul_mod, pow_succ']
    ring_nf

theorem growLoop_eq_none :
    growLoop size len fuel nb = none ↔ ∀ k < fuel, doubled nb k - size < len := by
  induction fuel generalizing nb with
  | zero => simp [growLoop]
  | succ fuel ih =>
    rw [growLoop]
    split_ifs with h
    · rw [ih]
      constructor
      · intro hall k hk
        cases k with
        | zero => exact h
        | succ k => exact hall k (Nat.lt_of_succ_lt_succ hk)
      · intro hall k hk
        exact hall (k + 1) (Nat.succ_lt_succ hk)
    · refine iff_of_false not_false ?_
      intro hall
      exact h (hall 0 (Nat.succ_pos fuel))

theorem doubled_of_growLoop (h : growLoop size len fuel nb = some x) :
    ∃ k, x = doubled nb k ∧ ¬ doubled nb k - size < len ∧ ∀ j < k, doubled nb j - size < len := by
  induction fuel generalizing nb with
  | zero => cases h
  | succ fuel ih =>
    rw [growLoop] at h
    split_ifs at h with hlt
    · obtain ⟨k, rfl, hk, hall⟩ := ih h
      refine ⟨k + 1, rfl, hk, ?_⟩
      intro j hj
      cases j with
      | zero => exact hlt
      | succ j => exact hall j (Nat.lt_of_succ_lt_succ hj)
    · exact ⟨0, (Option.some_inj.mp h).symm, hlt, fun j hj => absurd hj (Nat.not_lt_zero j)⟩

theorem growLoop_endless (h : growLoop size len growRounds nb = none) (fuel : ℕ) :
    growLoop size len fuel nb = none := by
  rw [growLoop_eq_none] at h ⊢
  intro k _
  by_cases hk : k < growRounds
  · exact h k hk
  · -- from the 32nd doubling on the capacity is 0
    have hzero : ∀ i, 32 ≤ i → doubled nb i = 0 := by
      intro i hi
      obtain ⟨d, rfl⟩ := Nat.exists_eq_add_of_le hi
      have hdvd : 2 ^ 32 ∣ nb.toNat * 2 ^ (32 + d) := ⟨nb.toNat * 2 ^ d, by rw [pow_add]; ring⟩
      apply UInt32.toNat.inj
      rw [toNat_doubled, Nat.mod_eq_zero_of_dvd hdvd]
      rfl
    have hlast := h 32 (Nat.lt_succ_self 32)
    rw [hzero 32 le_rfl] at hlast
    rw [hzero k (le_trans (Nat.le_succ 32) (Nat.le_of_not_lt hk))]
    exact hlast

/-- The test of the loop compares the capacity with both ends of the room that is asked for. -/
theorem sub_lt_iff (h : size.toNat + len.toNat < 2 ^ 32) :
    nb - size < len ↔ size.toNat ≤ nb.toNat ∧ nb.toNat < size.toNat + len.toNat := by
  have hnb := nb.toNat_lt
  rw [UInt32.lt_iff_toNat_lt, UInt32.toNat_sub]
  omega

/-! ## When there is room -/

theorem capacityAfter_zero (s : AutomemT) : capacityAfter s 0 = s.buffersize.toNat := by
  rw [capacityAfter, pow_zero, mul_one, Nat.mod_eq_of_lt s.buffersize.toNat_lt]

theorem toNat_doubled_buffersize (s : AutomemT) (k : ℕ) :
    (doubled s.buffersize k).toNat = capacityAfter s k := toNat_doubled _ _

/-- The loop ends with the first capacity that is below the content or large enough. -/
theorem capacity_of_growLoop (hlen : s.size.toNat + len.toNat < 2 ^ 32)
    (h : growLoop s.size len fuel s.buffersize = some x) :
    ∃ k, x.toNat = capacityAfter s k ∧
      (capacityAfter s k < s.size.toNat ∨ s.size.toNat + len.toNat ≤ capacityAfter s k) ∧
      ∀ j < k, s.size.toNat ≤ capacityAfter s j ∧ capacityAfter s j < s.size.toNat + len.toNat := by
  obtain ⟨k, rfl, hstop, hgo⟩ := doubled_of_growLoop h
  rw [sub_lt_iff hlen, toNat_doubled_buffersize] at hstop
  refine ⟨k, toNat_doubled_buffersize s k, by omega, ?_⟩
  intro j hj
  have hj := hgo j hj
  rwa [sub_lt_iff hlen, toNat_doubled_buffersize] at hj

theorem growLoop_of_reaches (hlen : s.size.toNat + len.toNat < 2 ^ 32) (h : Reaches s len) :
    ∃ x, growLoop s.size len growRounds s.buffersize = some x := by
  obtain ⟨k, hk, -⟩ := h
  rw [← Option.ne_none_iff_exists']
  intro hnone
  have hgo := growLoop_eq_none.mp (growLoop_endless hnone (k + 1)) k (Nat.lt_succ_self k)
  rw [sub_lt_iff hlen, toNat_doubled_buffersize] at hgo
  omega

/-- The capacity the loop ends with when there will be room. -/
theorem room_of_reaches (hlen : s.size.toNat + len.toNat < 2 ^ 32) (h : Reaches s len)
    (hx : growLoop s.size len fuel s.buffersize = some x) :
    ∃ k, x.toNat = capacityAfter s k ∧ s.size.toNat + len.toNat ≤ capacityAfter s k ∧
      ∀ j < k, capacityAfter s j < s.size.toNat + len.toNat := by
  obtain ⟨k, hk, hstop, hgo⟩ := capacity_of_growLoop hlen hx
  obtain ⟨i, hi, hbefore⟩ := h
  refine ⟨k, hk, ?_, fun j hj => (hgo j hj).2⟩
  rcases lt_trichotomy k i with hki | rfl | hik
  · have := hbefore k hki
    omega
  · exact hi
  · have := (hgo i hik).2
    omega

/-- What the function leaves behind when there will be room. -/
structure Grown (s : AutomemT) (b : List UInt8) (len : UInt32) (s' : AutomemT) (b' : List UInt8) :
    Prop where
  allocated : Allocated s' b'
  size : s'.size = s.size
  le : s.buffersize ≤ s'.buffersize
  room : s.size.toNat + len.toNat ≤ s'.buffersize.toNat
  kept : b'.take s.size.toNat = b.take s.size.toNat
  capacity : ∃ k, s'.buffersize.toNat = capacityAfter s k ∧
    ∀ j < k, capacityAfter s j < s.size.toNat + len.toNat

theorem ensureNewspace_of_reaches (fresh : ℕ → UInt8) (hs : Allocated s b)
    (hlen : s.size.toNat + len.toNat < 2 ^ 32) (h : Reaches s len) :
    ∃ s' b', automemEnsureNewspace fresh s len = .ok s' ∧ Grown s b len s' b' := by
  obtain ⟨x, hx⟩ := growLoop_of_reaches hlen h
  obtain ⟨k, hk, hroom, hbefore⟩ := room_of_reaches hlen h hx
  have hsize : s.size.toNat ≤ b.length := by
    rw [hs.length]
    exact UInt32.le_iff_toNat_le.mp hs.size_le
  simp only [automemEnsureNewspace, hx]
  by_cases hgrow : s.buffersize < x
  · rw [if_pos hgrow]
    refine ⟨_, _, rfl, ⟨rfl, ?_, ?_, ?_⟩, rfl, ?_, ?_, ?_, k, hk, hbefore⟩
    · exact Block.length_realloc ..
    · exact UInt32.lt_trans hs.pos hgrow
    · exact UInt32.le_trans hs.size_le (UInt32.le_of_lt hgrow)
    · exact UInt32.le_of_lt hgrow
    · rw [hk]
      exact hroom
    · rw [hs.pdata]
      rw [UInt32.lt_iff_toNat_lt] at hgrow
      exact Block.take_realloc hsize (by rw [← hs.length] at hgrow; omega)
  · -- the loop has stopped at once, as any later capacity with room is larger
    rw [if_neg hgrow]
    have hle : x.toNat ≤ s.buffersize.toNat := by
      rw [UInt32.lt_iff_toNat_lt] at hgrow
      omega
    refine ⟨s, b, rfl, hs, rfl, UInt32.le_refl _, by omega, rfl, 0, (capacityAfter_zero s).symm, ?_⟩
    exact fun j hj => absurd hj (Nat.not_lt_zero j)

theorem appendVoidp_of_reaches (fresh : ℕ → UInt8) (hs : Allocated s b)
    (hlen : s.size.toNat + len.toNat < 2 ^ 32) (h : Reaches s len) (p : ℕ → UInt8) :
    ∃ s' b', automemAppendVoidp fresh s p len = .ok (s', len.toInt32) ∧ Allocated s' b' ∧
      s'.size = s.size + len ∧
      b'.take s'.size.toNat = b.take s.size.toNat ++ bytesAt p len := by
  obtain ⟨s₁, b₁, hok, hgrown⟩ := ensureNewspace_of_reaches fresh hs hlen h
  have hlength := length_bytesAt p len
  have hfits : s₁.size.toNat + (bytesAt p len).length ≤ b₁.length := by
    rw [hlength, hgrown.allocated.length, hgrown.size]
    exact hgrown.room
  have hw := Block.write?_of_le hfits
  generalize b₁.take _ ++ _ ++ _ = b₂ at hw
  have hsum : (s.size + len).toNat = s.size.toNat + len.toNat := by
    rw [UInt32.toNat_add, Nat.mod_eq_of_lt hlen]
  refine ⟨{ s₁ with pdata := some b₂, size := s₁.size + len }, b₂, ?_, ⟨rfl, ?_, ?_, ?_⟩, ?_, ?_⟩
  · simp only [automemAppendVoidp, hok, deref, hgrown.allocated.pdata, inside, hw, bind, Except.bind,
      pure, Except.pure]
  · rw [Block.length_of_write? hw]
    exact hgrown.allocated.length
  · exact hgrown.allocated.pos
  · rw [UInt32.le_iff_toNat_le, hgrown.size, hsum]
    exact hgrown.room
  · rw [hgrown.size]
  · have htake := Block.take_of_write? hw
    rw [hlength, hgrown.size, hgrown.kept] at htake
    rw [hgrown.size, hsum]
    exact htake

/-- Where there will be no room, appending goes on for ever or writes outside. -/
theorem appendVoidp_of_not_reaches (hs : Allocated s b)
    (hlen : s.size.toNat + len.toNat < 2 ^ 32) (h : ¬ Reaches s len) (p : ℕ → UInt8) :
    automemAppendVoidp fresh s p len = .error .endless ∨
      automemAppendVoidp fresh s p len = .error .outOfBounds := by
  cases hx : growLoop s.size len growRounds s.buffersize with
  | none =>
    refine Or.inl ?_
    simp only [automemAppendVoidp, automemEnsureNewspace, hx, bind, Except.bind]
  | some x =>
    obtain ⟨k, hk, hstop, hgo⟩ := capacity_of_growLoop hlen hx
    have hbelow : capacityAfter s k < s.size.toNat :=
      hstop.resolve_right fun hroom => h ⟨k, hroom, fun j hj => (hgo j hj).1⟩
    have hfull : s.buffersize.toNat < s.size.toNat + len.toNat := by
      by_contra hroom
      refine h ⟨0, ?_, fun j hj => absurd hj (Nat.not_lt_zero j)⟩
      rw [capacityAfter_zero]
      exact Nat.le_of_not_lt hroom
    -- the capacity has wrapped below the content, so the buffer stays as it is
    have hgrow : ¬ s.buffersize < x := by
      have hle := UInt32.le_iff_toNat_le.mp hs.size_le
      rw [UInt32.lt_iff_toNat_lt]
      omega
    have hw : Block.write? b s.size.toNat (bytesAt p len) = none :=
      Block.write?_eq_none (by rw [hs.length, length_bytesAt]; exact hfull)
    refine Or.inr ?_
    simp only [automemAppendVoidp, automemEnsureNewspace, hx, if_neg hgrow, deref, hs.pdata, inside,
      hw, bind, Except.bind]

/-- Growing makes room exactly when the doublings, taken modulo 2^32, come to it. -/
theorem makesRoom_iff (hs : Allocated s b) (hlen : s.size.toNat + len.toNat < 2 ^ 32) :
    MakesRoom fresh s len ↔ Reaches s len := by
  constructor
  · rintro ⟨-, s', -, -, -, happend⟩
    by_contra h
    obtain ⟨r, hr⟩ := happend fun _ => 0
    rcases appendVoidp_of_not_reaches hs hlen h fun _ => 0 with hend | hout
    · cases hr.symm.trans hend
    · cases hr.symm.trans hout
  · intro h
    obtain ⟨x, hx⟩ := growLoop_of_reaches hlen h
    obtain ⟨s', b', hok, hgrown⟩ := ensureNewspace_of_reaches fresh hs hlen h
    refine ⟨⟨growRounds, by rw [hx]; rfl⟩, s', hok, hgrown.le, hgrown.room, ?_⟩
    intro p
    obtain ⟨s'', b'', happend, -⟩ := appendVoidp_of_reaches fresh hs hlen h p
    exact ⟨_, happend⟩

/-- From 128 bytes the capacity is doubled to 0, which is never enough. -/
theorem not_makesRoom_doubled_to_zero :
    Allocated (automemInit (fun _ => 0) 128) (Block.malloc (fun _ => 0) 128) ∧
      (∀ fuel, growLoop 0 (2 ^ 31 + 1) fuel 128 = none) ∧
      ¬ MakesRoom (fun _ => 0) (automemInit (fun _ => 0) 128) (2 ^ 31 + 1) := by
  have hloop : growLoop 0 (2 ^ 31 + 1) growRounds 128 = none := by decide
  have hnone := growLoop_endless hloop
  refine ⟨⟨rfl, Block.length_malloc _ _, by decide, by decide⟩, hnone, ?_⟩
  rintro ⟨⟨fuel, hfuel⟩, -⟩
  have hend : growLoop 0 (2 ^ 31 + 1) fuel 128 ≠ none := Option.isSome_iff_ne_none.mp hfuel
  exact hend (hnone fuel)

theorem makesRoom_iff_init :
    MakesRoom (fun _ => 0) (automemInit (fun _ => 0) 3) 10 ↔
      Reaches (automemInit (fun _ => 0) 3) 10 :=
  makesRoom_iff (b := Block.malloc (fun _ => 0) 3)
    ⟨rfl, Block.length_malloc _ _, by decide, by decide⟩ (by decide)

/-! ## Less than half of the numbers -/

theorem capacityAfter_succ (h : s.buffersize.toNat * 2 ^ k < 2 ^ 31) :
    capacityAfter s (k + 1) = s.buffersize.toNat * 2 ^ (k + 1) := by
  rw [capacityAfter, pow_succ, ← mul_assoc]
  exact Nat.mod_eq_of_lt (by omega)

theorem capacityAfter_eq (h : ∀ j < k, capacityAfter s j < 2 ^ 31) :
    capacityAfter s k = s.buffersize.toNat * 2 ^ k := by
  induction k with
  | zero => rw [capacityAfter_zero, pow_zero, mul_one]
  | succ k ih =>
    have hlast := h k (Nat.lt_succ_self k)
    rw [ih fun j hj => h j (Nat.lt_succ_of_lt hj)] at hlast
    exact capacityAfter_succ hlast

/-- No doubling wraps around before the room asked for is reached. -/
theorem reaches_of_le (hs : Allocated s b) (hlen : s.size.toNat + len.toNat ≤ 2 ^ 31) :
    Reaches s len := by
  have hpos := UInt32.lt_iff_toNat_lt.mp hs.pos
  have hsize := UInt32.le_iff_toNat_le.mp hs.size_le
  have hex : ∃ k, s.size.toNat + len.toNat ≤ s.buffersize.toNat * 2 ^ k :=
    ⟨_, (Nat.lt_two_pow_self).le.trans (Nat.le_mul_of_pos_left _ hpos)⟩
  have hbelow : ∀ k ≤ Nat.find hex, capacityAfter s k = s.buffersize.toNat * 2 ^ k := by
    intro k hk
    cases k with
    | zero => rw [capacityAfter_zero, pow_zero, mul_one]
    | succ k =>
      have hmin := Nat.find_min hex (Nat.lt_of_succ_le hk)
      exact capacityAfter_succ (by omega)
  refine ⟨Nat.find hex, ?_, ?_⟩
  · rw [hbelow _ le_rfl]
    exact Nat.find_spec hex
  · intro j hj
    rw [hbelow j hj.le]
    exact hsize.trans (Nat.le_mul_of_pos_right _ (Nat.two_pow_pos j))

/-- From a power of two the doublings come to 2^31, and then to 0. -/
theorem reaches_iff_of_two_pow (hs : Allocated s b) {i : ℕ} (hi : s.buffersize.toNat = 2 ^ i) :
    Reaches s len ↔ s.size.toNat + len.toNat ≤ 2 ^ 31 := by
  constructor
  · rintro ⟨k, hk, -⟩
    refine hk.trans ?_
    rw [capacityAfter, hi, ← pow_add]
    rcases Nat.lt_or_ge (i + k) 32 with hlt | hge
    · have hpow : 2 ^ (i + k) ≤ 2 ^ 31 := Nat.pow_le_pow_right (by norm_num) (by omega)
      exact (Nat.mod_le _ _).trans hpow
    · rw [Nat.mod_eq_zero_of_dvd (Nat.pow_dvd_pow 2 hge)]
      exact Nat.zero_le _
  · exact reaches_of_le hs

end Uvx.Automem
