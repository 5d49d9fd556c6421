import Uvx.Automem.Field
import Uvx.Common.Decimal

/-!
# Appending numbers and plain values

`automem_append_field_int`, `automem_append_field_ulong` and `automem_append_field_fast` make room once
for the value and what stands around it, and append the value by `automem_append_voidp`, which asks
for room again. That second request never moves the buffer (`Room.appendVoidp`). They are compiled
with `_NEW_CENTER_SERVEER` only.
-/

namespace Uvx.Automem

open Uvx.Loge (CString)

variable {field p : ℕ → UInt8} {fresh : ℕ → ℕ → UInt8} {s s' : AutomemT} {b q l text : List UInt8}
  {fLen len room : UInt32} {c : UInt8} {n : ℕ}

/-! ## The functions -/

/-- `pdata[size++] = c` -/
def pushChar (pmem : AutomemT) (c : UInt8) : Except Fault AutomemT := do
  let b ← deref pmem
  let b ← inside (Block.write? b pmem.size.toNat [c])
  pure { pmem with pdata := some b, size := pmem.size + 1 }

/-- A pointer to the bytes `l`. -/
def pointer (l : List UInt8) (i : ℕ) : UInt8 := l.getD i 0

/-- What the three functions do with a value that is text. -/
def appendQuoted (fresh : ℕ → ℕ → UInt8) (pmem : AutomemT) (field : ℕ → UInt8) (fLen : UInt32)
    (text : List UInt8) (room : UInt32) : Except Fault (AutomemT × Int32) := do
  let (pmem, _) ← automemAppendVoidp (fresh 0) pmem field fLen
  let pmem ← automemEnsureNewspace (fresh 1) pmem room
  let pmem ← pushChar pmem 61 -- `=`
  let pmem ← pushChar pmem 34 -- `"`
  let (pmem, _) ← automemAppendVoidp (fresh 2) pmem (pointer text) (.ofNat text.length)
  let pmem ← pushChar pmem 34 -- `"`
  let pmem ← pushChar pmem 32
  pure (pmem, pmem.size.toInt32)

/-- The text of a number in a `char[size]`, up to its NUL. -/
def numberText (fresh : ℕ → UInt8) (size : ℕ) (number : List UInt8) : Except Fault (List UInt8) := do
  let buf ← inside (Block.write? (Block.malloc fresh size) 0 (number ++ [0]))
  pure (buf.takeWhile (· ≠ 0))

/-- `automem_append_field_int`, where `_itoa` writes a decimal number. -/
def automemAppendFieldInt (fresh : ℕ → ℕ → UInt8) (pmem : AutomemT) (field : ℕ → UInt8)
    (fLen : UInt32) (val : Int32) : Except Fault (AutomemT × Int32) := do
  let text ← numberText (fresh 3) 20 (Decimal.ofInt val.toInt)
  appendQuoted fresh pmem field fLen text (.ofNat text.length + 4)

/-- `automem_append_field_ulong`, for an `unsigned long` of at most 64 bits. -/
def automemAppendFieldUlong (fresh : ℕ → ℕ → UInt8) (pmem : AutomemT) (field : ℕ → UInt8)
    (fLen : UInt32) (val : UInt64) : Except Fault (AutomemT × Int32) := do
  let text ← numberText (fresh 3) 32 (Decimal.ofNat val.toNat)
  appendQuoted fresh pmem field fLen text (.ofNat text.length + 4)

/-- `automem_append_field_fast` -/
def automemAppendFieldFast (fresh : ℕ → ℕ → UInt8) (pmem : AutomemT) (field : ℕ → UInt8)
    (fLen : UInt32) (val : Option CString) (vLen : UInt32) : Except Fault (AutomemT × Int32) := do
  match val with
  | none => pure (pmem, pmem.size.toInt32)
  | some val =>
    let vLen := if vLen = 0 then .ofNat val.length else vLen
    if vLen = 0 then
      pure (pmem, pmem.size.toInt32)
    else
      let text ← inside (Block.read? (val.bytes ++ [0]) 0 vLen.toNat)
      appendQuoted fresh pmem field fLen text (vLen + 5)

/-! ## A buffer with room -/

/-- The buffer holds `q` and has room for `n` more bytes. -/
def Room (s : AutomemT) (q : List UInt8) (n : ℕ) : Prop :=
  Holds s q ∧ q.length + n ≤ s.buffersize.toNat

theorem bytesAt_pointer (h : len.toNat = l.length) : bytesAt (pointer l) len = l := by
  rw [bytesAt, h]
  refine List.ext_getElem (by simp) fun i h₁ h₂ => ?_
  rw [List.getElem_map, List.getElem_range, pointer, List.getD_eq_getElem _ _ h₂]

theorem ensureNewspace_of_room (fresh : ℕ → UInt8)
    (h : s.size.toNat + len.toNat ≤ s.buffersize.toNat) :
    automemEnsureNewspace fresh s len = .ok s := by
  have hlt := s.buffersize.toNat_lt
  have hloop : growLoop s.size len growRounds s.buffersize = some s.buffersize := by
    rw [growRounds, growLoop, if_neg]
    rw [sub_lt_iff (by omega)]
    omega
  rw [automemEnsureNewspace, hloop]
  exact if_neg (UInt32.lt_irrefl _)

theorem Holds.ensureNewspace (h : Holds s q) (hlen : s.size.toNat + len.toNat ≤ 2 ^ 31)
    (fresh : ℕ → UInt8) :
    ∃ s', automemEnsureNewspace fresh s len = .ok s' ∧ Room s' q len.toNat := by
  have hq := h.length_eq
  obtain ⟨b, hs, rfl⟩ := h
  obtain ⟨s', b', hok, hgrown⟩ :=
    ensureNewspace_of_reaches fresh hs (by omega) (reaches_of_le hs hlen)
  refine ⟨s', hok, ⟨b', hgrown.allocated, ?_⟩, ?_⟩
  · rw [hgrown.size]
    exact hgrown.kept
  · rw [hq]
    exact hgrown.room

/-- Bytes that are written behind the content. -/
theorem Room.write (h : Room s q (l.length + n)) :
    ∃ b b', s.pdata = some b ∧ Block.write? b s.size.toNat l = some b' ∧
      Room { s with pdata := some b', size := s.size + .ofNat l.length } (q ++ l) n := by
  have hq := h.1.length_eq
  obtain ⟨⟨b, hs, rfl⟩, hroom⟩ := h
  have hlt := s.buffersize.toNat_lt
  have hlength := hs.length
  have hsize : (s.size + .ofNat l.length).toNat = s.size.toNat + l.length := by
    have hl : (UInt32.ofNat l.length).toNat = l.length :=
      UInt32.toNat_ofNat_of_lt' (show l.length < 2 ^ 32 by omega)
    rw [UInt32.toNat_add, hl, Nat.mod_eq_of_lt (by omega)]
  have hw := Block.write?_of_le (b := b) (i := s.size.toNat) (l := l) (by omega)
  generalize b.take _ ++ l ++ _ = b' at hw
  refine ⟨b, b', hs.pdata, hw, ⟨b', ⟨rfl, ?_, hs.pos, ?_⟩, ?_⟩, ?_⟩
  · rw [Block.length_of_write? hw]
    exact hlength
  · rw [UInt32.le_iff_toNat_le, hsize]
    show _ ≤ s.buffersize.toNat
    omega
  · rw [hsize]
    exact Block.take_of_write? hw
  · rw [List.length_append]
    show _ ≤ s.buffersize.toNat
    omega

theorem Room.pushChar (h : Room s q (n + 1)) (c : UInt8) :
    ∃ s', pushChar s c = .ok s' ∧ Room s' (q ++ [c]) n := by
  rw [Nat.add_comm n 1] at h
  obtain ⟨b, b', hb, hw, hroom⟩ := Room.write (l := [c]) h
  refine ⟨_, ?_, hroom⟩
  simp only [Automem.pushChar, deref, hb, inside, hw, bind, Except.bind, pure, Except.pure]
  rfl

/-- Appending does not move a buffer that has room. -/
theorem Room.appendVoidp (h : Room s q (len.toNat + n)) (fresh p : ℕ → UInt8) :
    ∃ s', automemAppendVoidp fresh s p len = .ok (s', len.toInt32) ∧
      Room s' (q ++ bytesAt p len) n := by
  have hensure : automemEnsureNewspace fresh s len = .ok s :=
    ensureNewspace_of_room fresh (by rw [← h.1.length_eq]; exact le_trans (by omega) h.2)
  rw [← length_bytesAt p len] at h
  obtain ⟨b, b', hb, hw, hroom⟩ := h.write
  refine ⟨_, ?_, hroom⟩
  simp only [automemAppendVoidp, hensure, deref, hb, inside, hw, bind, Except.bind, pure,
    Except.pure, length_bytesAt, UInt32.ofNat_toNat]

/-! ## What is appended -/

/-- A value between `="` and `" `. -/
def plain (text : List UInt8) : List UInt8 := [61, 34] ++ text ++ [34, 32]

theorem Holds.appendQuoted (h : Holds s q) (hroom : text.length + 4 ≤ room.toNat)
    (hfits : s.size.toNat + fLen.toNat + room.toNat ≤ 2 ^ 31) (fresh : ℕ → ℕ → UInt8)
    (field : ℕ → UInt8) :
    ∃ s', appendQuoted fresh s field fLen text room = .ok (s', s'.size.toInt32) ∧
      Holds s' (q ++ bytesAt field fLen ++ plain text) := by
  have htext : (UInt32.ofNat text.length).toNat = text.length :=
    UInt32.toNat_ofNat_of_lt' (show text.length < 2 ^ 32 by omega)
  have hq := h.length_eq
  obtain ⟨s₁, hok₁, h₁⟩ := h.appendVoidp (show s.size.toNat + fLen.toNat ≤ 2 ^ 31 by omega) (fresh 0) field
  have hsize₁ := h₁.length_eq
  rw [List.length_append, length_bytesAt] at hsize₁
  obtain ⟨s₂, hok₂, h₂⟩ := h₁.ensureNewspace (show s₁.size.toNat + room.toNat ≤ 2 ^ 31 by omega) (fresh 1)
  have hspare : room.toNat = (text.length + (room.toNat - text.length - 4 + 1 + 1)) + 1 + 1 := by omega
  rw [hspare] at h₂
  obtain ⟨s₃, hok₃, h₃⟩ := h₂.pushChar 61
  obtain ⟨s₄, hok₄, h₄⟩ := h₃.pushChar 34
  rw [← htext] at h₄
  obtain ⟨s₅, hok₅, h₅⟩ := h₄.appendVoidp (fresh 2) (pointer text)
  obtain ⟨s₆, hok₆, h₆⟩ := h₅.pushChar 34
  obtain ⟨s₇, hok₇, h₇⟩ := h₆.pushChar 32
  refine ⟨s₇, ?_, ?_⟩
  · simp only [Automem.appendQuoted, hok₁, hok₂, hok₃, hok₄, hok₅, hok₆, hok₇, bind, Except.bind,
      pure, Except.pure]
  · have hholds := h₇.1
    rw [bytesAt_pointer htext] at hholds
    simpa only [plain, List.append_assoc, List.singleton_append, List.cons_append,
      List.nil_append] using hholds

/-- The number fits into its array. -/
theorem numberText_eq {number : List UInt8} (hnumber : 0 ∉ number) (h : number.length < n)
    (fresh : ℕ → UInt8) : numberText fresh n number = .ok number := by
  have hw := Block.write?_of_le (b := Block.malloc fresh n) (i := 0) (l := number ++ [0])
    (by rw [Block.length_malloc, List.length_append, List.length_singleton]; omega)
  simp only [numberText, hw, inside, bind, Except.bind, pure, Except.pure, List.take_zero,
    List.nil_append, List.append_assoc]
  congr 1
  rw [List.takeWhile_append_of_pos]
  · simp
  · intro c hc
    simpa using fun h : c = 0 => hnumber (h ▸ hc)

theorem zero_notMem_ofNat (n : ℕ) : 0 ∉ Decimal.ofNat n := fun h =>
  absurd (Decimal.isDigit_of_mem_ofNat h) (by decide)

theorem zero_notMem_ofInt (z : ℤ) : 0 ∉ Decimal.ofInt z := fun h => by
  rcases Decimal.mem_ofInt h with h | h
  · exact absurd h (by decide)
  · exact absurd h (by decide)

end Uvx.Automem
