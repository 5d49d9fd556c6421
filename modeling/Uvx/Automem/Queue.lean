import Uvx.Automem.Room
import Uvx.Common.Exec

/-!
# A buffer is a queue of bytes

Appending adds at the end of a list, erasing drops from its front. The buffer holds that list
through every growing, shifting and shrinking of the allocation.
-/

namespace Uvx.Automem

variable {fresh p : ℕ → UInt8} {s s' : AutomemT} {b q : List UInt8} {len n limit : UInt32}

/-- The calls made on a buffer. -/
inductive Op
  | appendVoidp (p : ℕ → UInt8) (len : UInt32)
  | appendInt (n : Int32)
  | appendPchar (n : UInt64)
  | appendChar (c : Int8)
  | appendByte (c : UInt8)
  | erase (size : UInt32)
  | eraseEx (size limit : UInt32)
  | reset
  | clean

/-- The buffer after a call. -/
def Op.run (fresh : ℕ → UInt8) (s : AutomemT) : Op → Except Fault AutomemT
  | .appendVoidp p len => (automemAppendVoidp fresh s p len).map Prod.fst
  | .appendInt n => (automemAppendInt fresh s n).map Prod.fst
  | .appendPchar n => (automemAppendPchar fresh s n).map Prod.fst
  | .appendChar c => (automemAppendChar fresh s c).map Prod.fst
  | .appendByte c => (automemAppendByte fresh s c).map Prod.fst
  | .erase size => (automemErase s size).map Prod.fst
  | .eraseEx size limit => (automemEraseEx fresh s size limit).map Prod.fst
  | .reset => .ok (automemReset s)
  | .clean => .ok (automemClean fresh s)

/-- New memory may hold anything. -/
def Step (s : AutomemT) (op : Op) (s' : AutomemT) : Prop := ∃ fresh, op.run fresh s = .ok s'

/-- The arguments keep the sizes apart from 2^32. -/
def Op.Fits (s : AutomemT) : Op → Prop
  | .appendVoidp _ len => s.size.toNat + len.toNat ≤ 2 ^ 31
  | .appendInt _ => s.size.toNat + 4 ≤ 2 ^ 31
  | .appendPchar _ => s.size.toNat + 8 ≤ 2 ^ 31
  | .appendChar _ | .appendByte _ => s.size.toNat + 1 ≤ 2 ^ 31
  | .eraseEx _ limit => s.size.toNat + limit.toNat < 2 ^ 32
  | .erase _ | .reset | .clean => True

/-! ## The queue -/

/-- What a call does to the queue. -/
def Op.apply (q : List UInt8) : Op → List UInt8
  | .appendVoidp p len => q ++ bytesAt p len
  | .appendInt n => q ++ (List.range 4).map (littleEndian n.toUInt32.toNat)
  | .appendPchar n => q ++ (List.range 8).map (littleEndian n.toNat)
  | .appendChar c => q ++ [c.toUInt8]
  | .appendByte c => q ++ [c]
  | .erase size | .eraseEx size _ => q.drop size.toNat
  | .reset | .clean => []

/-- The queue after the calls `ops`. -/
def contents (ops : List Op) : List UInt8 := ops.foldl Op.apply []

/-- The first `size` bytes of the allocation are the queue. -/
def Holds (s : AutomemT) (q : List UInt8) : Prop :=
  ∃ b, Allocated s b ∧ b.take s.size.toNat = q

theorem Allocated.size_le_length (hs : Allocated s b) : s.size.toNat ≤ b.length := by
  rw [hs.length]
  exact UInt32.le_iff_toNat_le.mp hs.size_le

/-! ## The operations -/

theorem holds_init (fresh : ℕ → UInt8) (n : UInt32) : Holds (automemInit fresh n) [] := by
  refine ⟨_, ⟨rfl, Block.length_malloc .., ?_, UInt32.zero_le⟩, List.take_zero⟩
  show 0 < if n = 0 then 128 else n
  split_ifs with hn
  · decide
  · exact UInt32.pos_iff_ne_zero.mpr hn

theorem Holds.reset (h : Holds s q) : Holds (automemReset s) [] := by
  obtain ⟨b, hs, -⟩ := h
  exact ⟨b, ⟨hs.pdata, hs.length, hs.pos, UInt32.zero_le⟩, List.take_zero⟩

theorem Holds.appendVoidp (h : Holds s q) (hlen : s.size.toNat + len.toNat ≤ 2 ^ 31)
    (fresh p : ℕ → UInt8) :
    ∃ s', automemAppendVoidp fresh s p len = .ok (s', len.toInt32) ∧
      Holds s' (q ++ bytesAt p len) := by
  obtain ⟨b, hs, rfl⟩ := h
  obtain ⟨s', b', hok, hs', -, hbytes⟩ :=
    appendVoidp_of_reaches fresh hs (by omega) (reaches_of_le hs hlen) p
  exact ⟨s', hok, b', hs', hbytes⟩

/-- Shifting the last `n` bytes of the content to the front. -/
theorem moveDown_spec (hs : Allocated s b) (hn : n ≤ s.size) :
    ∃ b', moveDown s n (s.size - n) = .ok { s with pdata := some b' } ∧ b'.length = b.length ∧
      b'.take (s.size - n).toNat = (b.take s.size.toNat).drop n.toNat := by
  have hsize := hs.size_le_length
  have hle := UInt32.le_iff_toNat_le.mp hn
  have hsub := UInt32.toNat_sub_of_le _ _ hn
  obtain ⟨moved, b', hr, hw, hlength, htake⟩ := Block.copy_front (b := b) (d := b)
    (i := n.toNat) (n := (s.size - n).toNat) (by omega) (by omega)
  refine ⟨b', ?_, hlength, ?_⟩
  · simp only [moveDown, deref, hs.pdata, inside, hr, hw, bind, Except.bind, pure, Except.pure]
  · rw [htake, hsub, Nat.add_sub_cancel' hle]

theorem Holds.erase (h : Holds s q) (n : UInt32) :
    ∃ s', automemErase s n = .ok (s', s'.size.toInt32) ∧ Holds s' (q.drop n.toNat) := by
  obtain ⟨b, hs, rfl⟩ := h
  by_cases hn : n < s.size
  · obtain ⟨b', hok, hlength, hbytes⟩ := moveDown_spec hs (UInt32.le_of_lt hn)
    refine ⟨{ s with pdata := some b', size := s.size - n }, ?_, b', ⟨rfl, ?_, hs.pos, ?_⟩, hbytes⟩
    · simp only [automemErase, if_pos hn, hok, bind, Except.bind, pure, Except.pure]
    · rw [hlength]
      exact hs.length
    · exact UInt32.le_trans (UInt32.sub_le (UInt32.le_of_lt hn)) hs.size_le
  · refine ⟨{ s with size := 0 }, ?_, b, ⟨hs.pdata, hs.length, hs.pos, UInt32.zero_le⟩, ?_⟩
    · simp only [automemErase, if_neg hn, pure, Except.pure]
    · rw [List.drop_of_length_le]
      · exact List.take_zero
      · rw [UInt32.lt_iff_toNat_lt] at hn
        rw [List.length_take]
        omega

/-- The part of the content that is kept goes to a smaller allocation, if `limit` asks for one. -/
theorem Holds.eraseEx (h : Holds s q) {n : UInt32}
    (hlimit : n < s.size → s.size.toNat - n.toNat + limit.toNat < 2 ^ 32) (fresh : ℕ → UInt8) :
    ∃ s', automemEraseEx fresh s n limit = .ok (s', s'.size.toInt32) ∧
      Holds s' (q.drop n.toNat) := by
  obtain ⟨s₁, hok₁, h₁⟩ := h.erase n
  obtain ⟨b, hs, rfl⟩ := h
  by_cases hn : n < s.size
  · have hsub := UInt32.toNat_sub_of_le _ _ (UInt32.le_of_lt hn)
    have hlt := UInt32.lt_iff_toNat_lt.mp hn
    have hlimit := hlimit hn
    by_cases hshrink : s.size - n + limit < s.buffersize
    · have hsum : (s.size - n + limit).toNat = (s.size - n).toNat + limit.toNat := by
        rw [UInt32.toNat_add, Nat.mod_eq_of_lt (by omega)]
      have hsize := hs.size_le_length
      obtain ⟨kept, b', hr, hw, hlength, htake⟩ := Block.copy_front (b := b)
        (d := Block.malloc fresh (s.size - n + limit).toNat) (i := n.toNat)
        (n := (s.size - n).toNat) (by omega) (by rw [Block.length_malloc]; omega)
      refine ⟨{ size := s.size - n, buffersize := s.size - n + limit, pdata := some b' }, ?_, b',
        ⟨rfl, ?_, ?_, ?_⟩, ?_⟩
      · simp only [automemEraseEx, if_pos hn, if_pos hshrink, deref, hs.pdata, inside, hr, hw, bind,
          Except.bind, pure, Except.pure]
      · rw [hlength, Block.length_malloc]
      · rw [UInt32.lt_iff_toNat_lt, hsum]
        show 0 < _
        omega
      · rw [UInt32.le_iff_toNat_le, hsum]
        exact Nat.le_add_right ..
      · rw [htake, hsub, Nat.add_sub_cancel' hlt.le]
    · -- as `automem_erase` does
      obtain ⟨b', hmove, -⟩ := moveDown_spec hs (UInt32.le_of_lt hn)
      refine ⟨s₁, ?_, h₁⟩
      rw [← hok₁]
      simp only [automemEraseEx, automemErase, if_pos hn, if_neg hshrink, hmove, bind, Except.bind,
        pure, Except.pure]
  · rw [UInt32.lt_iff_toNat_lt] at hn
    have hempty : (b.take s.size.toNat).drop n.toNat = [] := by
      refine List.drop_of_length_le ?_
      rw [List.length_take]
      omega
    rw [← UInt32.lt_iff_toNat_lt] at hn
    rw [hempty]
    by_cases hshrink : limit < s.buffersize
    · refine ⟨automemInit fresh limit, ?_, holds_init fresh limit⟩
      simp only [automemEraseEx, if_neg hn, if_pos hshrink, pure, Except.pure]
    · refine ⟨automemReset s, ?_, Holds.reset ⟨b, hs, rfl⟩⟩
      simp only [automemEraseEx, if_neg hn, if_neg hshrink, pure, Except.pure, automemReset]

/-! ## Runs -/

theorem Holds.run (h : Holds s q) (fresh : ℕ → UInt8) {op : Op} (hfits : op.Fits s) :
    ∃ s', op.run fresh s = .ok s' ∧ Holds s' (op.apply q) := by
  -- a call with a return value
  have hfst : ∀ {x : Except Fault (AutomemT × Int32)} {q' : List UInt8},
      (∃ s' r, x = .ok (s', r) ∧ Holds s' q') → ∃ s', x.map Prod.fst = .ok s' ∧ Holds s' q' := by
    rintro x q' ⟨s', r, rfl, hs'⟩
    exact ⟨s', rfl, hs'⟩
  have happend : ∀ (p : ℕ → UInt8) (len : UInt32), s.size.toNat + len.toNat ≤ 2 ^ 31 →
      ∃ s', (automemAppendVoidp fresh s p len).map Prod.fst = .ok s' ∧
        Holds s' (q ++ bytesAt p len) := by
    intro p len hlen
    obtain ⟨s', hs'⟩ := h.appendVoidp hlen fresh p
    exact hfst ⟨s', _, hs'⟩
  cases op with
  | appendVoidp p len => exact happend p len hfits
  | appendInt n => exact happend _ 4 hfits
  | appendPchar n => exact happend _ 8 hfits
  | appendChar c => exact happend _ 1 hfits
  | appendByte c => exact happend _ 1 hfits
  | erase n =>
    obtain ⟨s', hs'⟩ := h.erase n
    exact hfst ⟨s', _, hs'⟩
  | eraseEx n limit =>
    obtain ⟨s', hs'⟩ := h.eraseEx (fun _ =>
      Nat.lt_of_le_of_lt (Nat.add_le_add_right (Nat.sub_le _ n.toNat) _) hfits) fresh
    exact hfst ⟨s', _, hs'⟩
  | reset => exact ⟨_, rfl, h.reset⟩
  | clean => exact ⟨_, rfl, holds_init fresh 128⟩

theorem contents_append (ops : List Op) (op : Op) :
    contents (ops ++ [op]) = op.apply (contents ops) := by
  rw [contents, List.foldl_append]
  rfl

/-- In every run the buffer holds the queue, and the next call does not fail. -/
theorem holds_contents {ops : List Op}
    (h : Exec (Guarded Step Op.Fits) (automemInit fresh n) ops s) :
    Holds s (contents ops) ∧ ∀ op : Op, op.Fits s → ∀ fresh, ∃ s', op.run fresh s = .ok s' := by
  have hholds : Holds s (contents ops) := by
    refine h.invariant_actions (I := fun ops s => Holds s (contents ops)) (holds_init fresh n) ?_
    rintro ops s op s' hs ⟨⟨fresh, hrun⟩, hfits⟩
    obtain ⟨s'', hok, hs''⟩ := hs.run fresh hfits
    obtain rfl := Except.ok.inj (hrun.symm.trans hok)
    rw [contents_append]
    exact hs''
  refine ⟨hholds, ?_⟩
  intro op hfits fresh
  obtain ⟨s', hok, -⟩ := hholds.run fresh hfits
  exact ⟨s', hok⟩

/-- Growing from three bytes, shrinking to four and growing again. -/
theorem holds_contents_regrown :
    let ops : List Op := [.appendVoidp .ofNat 9, .erase 2, .eraseEx 4 1, .appendInt (-2)]
    ∃ s, Exec (Guarded Step Op.Fits) (automemInit (fun _ => 0) 3) ops s ∧
      contents ops = [6, 7, 8, 254, 255, 255, 255] ∧ Holds s (contents ops) := by
  intro ops
  have h₁ : Step (automemInit (fun _ => 0) 3) (.appendVoidp .ofNat 9)
      ⟨9, 12, some [0, 1, 2, 3, 4, 5, 6, 7, 8, 0, 0, 0]⟩ := ⟨fun _ => 0, by rfl⟩
  have h₂ : Step ⟨9, 12, some [0, 1, 2, 3, 4, 5, 6, 7, 8, 0, 0, 0]⟩ (.erase 2)
      ⟨7, 12, some [2, 3, 4, 5, 6, 7, 8, 7, 8, 0, 0, 0]⟩ := ⟨fun _ => 0, by rfl⟩
  have h₃ : Step ⟨7, 12, some [2, 3, 4, 5, 6, 7, 8, 7, 8, 0, 0, 0]⟩ (.eraseEx 4 1)
      ⟨3, 4, some [6, 7, 8, 0]⟩ := ⟨fun _ => 0, by rfl⟩
  have h₄ : Step ⟨3, 4, some [6, 7, 8, 0]⟩ (.appendInt (-2))
      ⟨7, 8, some [6, 7, 8, 254, 255, 255, 255, 0]⟩ := ⟨fun _ => 0, by rfl⟩
  have hrun : Exec (Guarded Step Op.Fits) (automemInit (fun _ => 0) 3) ops _ :=
    .cons ⟨h₁, show 0 + 9 ≤ 2 ^ 31 from by decide⟩ <| .cons ⟨h₂, trivial⟩ <|
      .cons ⟨h₃, show 7 + 1 < 2 ^ 32 from by decide⟩ <|
        .cons ⟨h₄, show 3 + 4 ≤ 2 ^ 31 from by decide⟩ .nil
  exact ⟨_, hrun, by decide, (holds_contents hrun).1⟩

end Uvx.Automem
