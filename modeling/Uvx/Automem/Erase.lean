import Uvx.Automem.Queue

/-!
# Erasing with a limit

`automem_erase_ex` leaves the content that `automem_erase` leaves, and gives memory back where more
than `limit` bytes are spare. The new capacity is a 32-bit sum. Where it wraps around it is smaller
than the content that is copied there (`agrees_iff`).
-/

namespace Uvx.Automem

variable {fresh : ℕ → UInt8} {s : AutomemT} {b q : List UInt8} {n limit : UInt32}

/-- The bytes `pdata[0..size]`. -/
def content (s : AutomemT) : List UInt8 := (s.pdata.getD []).take s.size.toNat

theorem Holds.content_eq (h : Holds s q) : content s = q := by
  obtain ⟨b, hs, rfl⟩ := h
  rw [content, hs.pdata, Option.getD_some]

theorem Holds.length_eq (h : Holds s q) : q.length = s.size.toNat := by
  obtain ⟨b, hs, rfl⟩ := h
  rw [List.length_take, Nat.min_eq_left hs.size_le_length]

/-- The two functions end with the same result and the same content, and the content fits. -/
def Agrees (fresh : ℕ → UInt8) (s : AutomemT) (n limit : UInt32) : Prop :=
  ∃ s₁ s₂ ret, automemErase s n = .ok (s₁, ret) ∧ automemEraseEx fresh s n limit = .ok (s₂, ret) ∧
    s₂.size = s₁.size ∧ content s₂ = content s₁ ∧ s₂.size ≤ s₂.buffersize ∧ 0 < s₂.buffersize

/-- The new allocation is smaller than the content that is kept, if the sum wraps around. -/
theorem eraseEx_outOfBounds (hs : Allocated s b) (hn : n < s.size)
    (hwrap : 2 ^ 32 ≤ s.size.toNat - n.toNat + limit.toNat) :
    automemEraseEx fresh s n limit = .error .outOfBounds := by
  have hlt := UInt32.lt_iff_toNat_lt.mp hn
  have hsub := UInt32.toNat_sub_of_le _ _ (UInt32.le_of_lt hn)
  have hlimit := limit.toNat_lt
  have hsize := UInt32.le_iff_toNat_le.mp hs.size_le
  have hlength := hs.size_le_length
  have hsum : (s.size - n + limit).toNat = s.size.toNat - n.toNat + limit.toNat - 2 ^ 32 := by
    have hbig := s.size.toNat_lt
    rw [UInt32.toNat_add, hsub]
    omega
  have hshrink : s.size - n + limit < s.buffersize := by
    rw [UInt32.lt_iff_toNat_lt, hsum]
    omega
  have hread : Block.read? b n.toNat (s.size - n).toNat =
      some ((b.drop n.toNat).take (s.size - n).toNat) := Block.read?_of_le (by omega)
  have hwrite : Block.write? (Block.malloc fresh (s.size - n + limit).toNat) 0
      ((b.drop n.toNat).take (s.size - n).toNat) = none := by
    refine Block.write?_eq_none ?_
    rw [Block.length_malloc, List.length_take, List.length_drop]
    omega
  simp only [automemEraseEx, if_pos hn, if_pos hshrink, deref, hs.pdata, inside, hread, hwrite, bind,
    Except.bind]

/-- **Erasing with a limit shows what erasing shows**, as long as the capacity it asks for is a 32-bit
number. -/
theorem agrees_iff (hs : Allocated s b) (fresh : ℕ → UInt8) (n limit : UInt32) :
    Agrees fresh s n limit ↔ (n < s.size → s.size.toNat - n.toNat + limit.toNat < 2 ^ 32) := by
  constructor
  · rintro ⟨s₁, s₂, ret, -, hex, -⟩ hn
    by_contra hwrap
    rw [eraseEx_outOfBounds hs hn (Nat.le_of_not_lt hwrap)] at hex
    exact absurd hex (by simp)
  · intro hlimit
    have h : Holds s (b.take s.size.toNat) := ⟨b, hs, rfl⟩
    obtain ⟨s₁, hok₁, h₁⟩ := h.erase n
    obtain ⟨s₂, hok₂, h₂⟩ := h.eraseEx hlimit fresh
    have hsize : s₂.size = s₁.size := UInt32.toNat_inj.mp (h₂.length_eq.symm.trans h₁.length_eq)
    obtain ⟨b₂, hs₂, -⟩ := id h₂
    rw [hsize] at hok₂
    exact ⟨s₁, s₂, _, hok₁, hok₂, hsize, h₂.content_eq.trans h₁.content_eq.symm, hs₂.size_le, hs₂.pos⟩

/-- Two bytes are erased from a buffer of four, with a limit that never lets it shrink, but just does
not wrap around. -/
theorem agrees_iff_largeLimit :
    Agrees (fun _ => 0) ⟨4, 8, some [1, 2, 3, 4, 0, 0, 0, 0]⟩ 2 0xfffffffd := by
  have hs : Allocated ⟨4, 8, some [1, 2, 3, 4, 0, 0, 0, 0]⟩ [1, 2, 3, 4, 0, 0, 0, 0] :=
    ⟨rfl, rfl, by decide, by decide⟩
  exact (agrees_iff hs _ _ _).mpr fun _ => by decide

/-- With the largest limit, one byte of two is to be kept in an allocation of none. -/
theorem not_agrees_maxLimit :
    Allocated ⟨2, 4, some [1, 2, 0, 0]⟩ [1, 2, 0, 0] ∧
      automemEraseEx (fun _ => 0) ⟨2, 4, some [1, 2, 0, 0]⟩ 1 0xffffffff = .error .outOfBounds ∧
      ¬ Agrees (fun _ => 0) ⟨2, 4, some [1, 2, 0, 0]⟩ 1 0xffffffff := by
  have hs : Allocated ⟨2, 4, some [1, 2, 0, 0]⟩ [1, 2, 0, 0] := ⟨rfl, rfl, by decide, by decide⟩
  have hfault : automemEraseEx (fun _ => 0) ⟨2, 4, some [1, 2, 0, 0]⟩ 1 0xffffffff =
      .error .outOfBounds := eraseEx_outOfBounds hs (by decide) (by decide)
  refine ⟨hs, hfault, ?_⟩
  rintro ⟨s₁, s₂, ret, -, hex, -⟩
  rw [hfault] at hex
  exact absurd hex (by simp)

end Uvx.Automem
