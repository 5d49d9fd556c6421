import Uvx.Loge.Writers

/-!
# The layout of a serialized item

`packNames_spec` gives the places of name, tags and file behind the header, as functions of the
logger and the strings alone. The places are what the `*_offset` fields store, so reading a text item
back is determined by them (`readItem_logeItem`).
-/

namespace Uvx.Loge

open Bytes

/-! ## Loggers -/

/-- The name of a logger is a C string of `name_len` bytes in its 16-byte array. -/
structure LogeT.WF (loge : LogeT) : Prop where
  len_le : loge.nameLen ≤ 15
  nonzero : ∀ i, (h : i < loge.nameLen) → loge.name[i] ≠ 0
  nul : loge.name[loge.nameLen] = 0

/-- Setting a name establishes it whatever the memory held before. -/
theorem LogeT.wf_logeName (loge : LogeT) (s : CString) : (logeName loge (some s)).WF := by
  have hle : toUnsigned s.length ≤ s.length := by
    simp only [toUnsigned]; omega
  refine ⟨Nat.min_le_right _ _, ?_, ?_⟩
  · intro i hi
    simp only [logeName] at hi ⊢
    rw [Vector.getElem_ofFn, if_pos hi]
    refine s.get_ne_zero ?_
    simp only
    omega
  · simp only [logeName]
    rw [Vector.getElem_ofFn, if_neg (Nat.lt_irrefl _), if_pos rfl]

theorem LogeT.Reachable.wf {loge : LogeT} (h : loge.Reachable) : loge.WF := by
  induction h with
  | init loge name pid =>
    have h := LogeT.wf_logeName loge (name.getD defaultName)
    exact ⟨h.len_le, h.nonzero, h.nul⟩
  | reinit _ name ih =>
    rcases name with _ | s
    · exact ih
    · exact LogeT.wf_logeName _ s
  | enable _ enabled ih => exact ⟨ih.len_le, ih.nonzero, ih.nul⟩

/-- A logger initialised without a name, in process 1. -/
def defaultLoge : LogeT := logeInit ⟨.replicate 16 0, 0, 0, 0⟩ none 1

theorem reachable_defaultLoge : defaultLoge.Reachable := .init _ _ _

theorem LogeT.WF.nameText_eq {loge : LogeT} (h : loge.WF) :
    loge.nameText = loge.name.toList.take loge.nameLen := by
  have hlen : loge.nameLen < loge.name.toList.length := by
    have := h.len_le
    rw [Vector.length_toList]; omega
  rw [LogeT.nameText, List.takeWhile_eq_take_findIdx_not]
  congr 1
  rw [List.findIdx_eq hlen]
  refine ⟨by simpa using h.nul, ?_⟩
  intro j hj
  simpa using h.nonzero j hj

theorem LogeT.WF.length_nameText {loge : LogeT} (h : loge.WF) :
    loge.nameText.length = loge.nameLen := by
  have := h.len_le
  rw [h.nameText_eq, List.length_take, Vector.length_toList]
  omega

theorem LogeT.nameText_nonzero (loge : LogeT) : 0 ∉ loge.nameText := by
  intro h
  simpa using List.mem_takeWhile_imp h

/-- Byte `i` of the copied name. -/
theorem LogeT.WF.getD_name {loge : LogeT} (h : loge.WF) {i : ℕ} (hi : i < loge.nameLen)
    (hi' : i < loge.nameText.length) : loge.name.toList.getD i 0 = loge.nameText[i] := by
  have := h.len_le
  simp only [h.nameText_eq, List.getElem_take]
  rw [List.getD_eq_getElem _ _ (by rw [Vector.length_toList]; omega)]

theorem LogeT.WF.getD_name_nul {loge : LogeT} (h : loge.WF) :
    loge.name.toList.getD loge.nameLen 0 = 0 := by
  have := h.len_le
  rw [List.getD_eq_getElem _ _ (by rw [Vector.length_toList]; omega), Vector.getElem_toList]
  exact h.nul

/-! ## The places of the strings -/

/-- Where the tags start behind the header. -/
def tagsStart (loge : LogeT) : ℕ := loge.nameLen + 1

/-- Where the file starts behind the header. -/
def fileStart (loge : LogeT) (tags : Option CString) : ℕ :=
  tagsStart loge + advance (tags.getD .empty) (255 - tagsStart loge)

/-- Where the message starts behind the header. -/
def msgStart (loge : LogeT) (tags file : Option CString) : ℕ :=
  fileStart loge tags + advance ((shortenPath file).getD .empty) (255 - fileStart loge tags)

/-- The tags start behind the name and its NUL. -/
theorem LogeT.WF.nameEnd_eq {loge : LogeT} (h : loge.WF) :
    loge.nameText.length + 1 = tagsStart loge := by
  rw [h.length_nameText, tagsStart]

theorem LogeT.WF.tagsStart_le {loge : LogeT} (h : loge.WF) : tagsStart loge ≤ 16 := by
  have := h.len_le
  rw [tagsStart]; omega

theorem LogeT.WF.tagsStart_lt {loge : LogeT} (h : loge.WF) (tags : Option CString) :
    tagsStart loge < fileStart loge tags := by
  have h₁ := h.tagsStart_le
  have h₂ := advance_pos (s := tags.getD .empty) (m := 255 - tagsStart loge) (by omega)
  rw [fileStart]; omega

theorem LogeT.WF.fileStart_le {loge : LogeT} (h : loge.WF) (tags : Option CString) :
    fileStart loge tags ≤ 255 := by
  have h₁ := h.tagsStart_le
  have h₂ := advance_le (tags.getD .empty) (255 - tagsStart loge)
  rw [fileStart]; omega

theorem fileStart_le_msgStart (loge : LogeT) (tags file : Option CString) :
    fileStart loge tags ≤ msgStart loge tags file :=
  Nat.le_add_right _ _

theorem LogeT.WF.msgStart_le {loge : LogeT} (h : loge.WF) (tags file : Option CString) :
    msgStart loge tags file ≤ 255 := by
  have h₁ := h.fileStart_le tags
  have h₂ := advance_le ((shortenPath file).getD .empty) (255 - fileStart loge tags)
  rw [msgStart]; omega

theorem toNat_ofNat_of_le {n : ℕ} (h : n ≤ 255) : (UInt8.ofNat n).toNat = n := by
  rw [UInt8.toNat_ofNat']; omega

/-- What `packNames` leaves behind: the offsets, the strings, the stores and the assertions. -/
structure Packed (loge : LogeT) (o o' : Out) (tags file : Option CString) : Prop where
  header : ∀ j, j < 28 → j ≠ 20 → j ≠ 21 → j ≠ 22 → j ≠ 23 → o'.byte j = o.byte j
  nameOffset : o'.byte 20 = 0
  tagsOffset : (o'.byte 21).toNat = tagsStart loge
  fileOffset : (o'.byte 22).toNat = fileStart loge tags
  msgOffset : (o'.byte 23).toNat = msgStart loge tags file
  nameStr : HasStr o'.byte 28 loge.nameText
  tagsStr : HasStr o'.byte (28 + tagsStart loge)
    (kept tags (255 - tagsStart loge))
  fileStr : fileStart loge tags < 255 → HasStr o'.byte (28 + fileStart loge tags)
    (kept (shortenPath file) (255 - fileStart loge tags))
  stored : ∀ j, j ∈ o'.stored ↔ (20 ≤ j ∧ j ≤ 23) ∨ (28 ≤ j ∧ j < 28 + tagsStart loge) ∨
    (28 + tagsStart loge ≤ j ∧
      j < 28 + tagsStart loge + storeLen (tags.getD .empty) (255 - tagsStart loge)) ∨
    (28 + fileStart loge tags ≤ j ∧ j < 28 + fileStart loge tags +
      storeLen ((shortenPath file).getD .empty) (255 - fileStart loge tags)) ∨ j ∈ o.stored
  asserted : o'.asserted = true :: true :: o.asserted

/-- The name is copied with its NUL behind the header. -/
theorem LogeT.WF.hasStr_name {loge : LogeT} (h : loge.WF) (o : Out) :
    HasStr (o.copy 28 (fun i => loge.name.toList.getD i 0) (tagsStart loge)).byte 28
      loge.nameText := by
  rw [tagsStart]
  constructor
  · intro k hk
    have hk' := h.length_nameText ▸ hk
    rw [Out.byte_copy, if_pos (by omega), Nat.add_sub_cancel_left, h.getD_name hk' hk]
  · rw [h.length_nameText, Out.byte_copy, if_pos (by omega), Nat.add_sub_cancel_left,
      h.getD_name_nul]

/-- The text kept of the tags ends in front of the file. -/
theorem LogeT.WF.tagsEnd_lt {loge : LogeT} (h : loge.WF) (tags : Option CString) :
    tagsStart loge + (kept tags (255 - tagsStart loge)).length < fileStart loge tags := by
  have h₁ := h.tagsStart_le
  rw [length_kept, fileStart, advance_eq (by omega)]
  omega

theorem packNames_spec {loge : LogeT} (h : loge.WF) (o : Out) (tags file : Option CString) :
    Packed loge o (packNames loge o tags file).1 tags file ∧
      (packNames loge o tags file).2 = 28 + msgStart loge tags file := by
  have hts := h.tagsStart_le
  have htf := h.tagsStart_lt tags
  have hfs := h.fileStart_le tags
  have hms := h.msgStart_le tags file
  have hnl := h.length_nameText
  have hte := h.tagsEnd_lt tags
  -- the buffers when the tags are written, and when the file is written
  set oN := (o.store 20 0).copy 28 (fun i => loge.name.toList.getD i 0) (tagsStart loge) with hoN
  set oA := oN.store 21 (.ofNat (tagsStart loge)) with hoA
  obtain ⟨hw, hp⟩ := writeStr_spec oA (p := 28 + tagsStart loge) (e := 28 + 255) tags
    (by omega) (by omega)
  rw [Nat.add_sub_add_left] at hw hp
  rw [Nat.add_assoc, ← fileStart] at hp
  set oT := (writeStr oA (28 + tagsStart loge) (28 + 255) tags).1 with hoT
  set oB := oT.store 22 (.ofNat (fileStart loge tags)) with hoB
  obtain ⟨hv, hq⟩ := writeStr_spec oB (p := 28 + fileStart loge tags) (e := 28 + 255)
    (shortenPath file) (by omega) (by omega)
  rw [Nat.add_sub_add_left] at hv hq
  rw [Nat.add_assoc, ← msgStart] at hq
  set oF := (writeStr oB (28 + fileStart loge tags) (28 + 255) (shortenPath file)).1 with hoF
  have hpack : packNames loge o tags file =
      (oF.store 23 (.ofNat (msgStart loge tags file)), 28 + msgStart loge tags file) := by
    simp only [packNames, sizeofItem, ← tagsStart.eq_def, ← hoN, Nat.add_sub_cancel_left, ← hoA, hp,
      ← hoT, ← hoB, hq, ← hoF]
  rw [hpack]
  have hA20 : oA.byte 20 = 0 := by
    rw [hoA, Out.byte_store, if_neg (by omega), hoN, Out.byte_copy, if_neg (by omega),
      Out.byte_store, if_pos rfl]
  have hA21 : oA.byte 21 = .ofNat (tagsStart loge) := by rw [hoA, Out.byte_store, if_pos rfl]
  have hAhead : ∀ j, j < 28 → j ≠ 20 → j ≠ 21 → oA.byte j = o.byte j := by
    intro j hj h20 h21
    rw [hoA, Out.byte_store, if_neg h21, hoN, Out.byte_copy, if_neg (by omega), Out.byte_store,
      if_neg h20]
  -- what stands in front of the file only changes at the offset fields after the tags
  have hback : ∀ j, j < 28 + fileStart loge tags → j ≠ 22 → j ≠ 23 →
      (oF.store 23 (.ofNat (msgStart loge tags file))).byte j = oT.byte j := by
    intro j hj h22 h23
    rw [Out.byte_store, if_neg h23, hv.frame j hj, hoB, Out.byte_store, if_neg h22]
  refine ⟨⟨fun j hj h20 h21 h22 h23 => ?_, ?_, ?_, ?_, ?_, ?_, ?_, fun hlt => ?_, fun j => ?_, ?_⟩,
    rfl⟩
  · rw [hback j (by omega) h22 h23, hw.frame j (by omega), hAhead j hj h20 h21]
  · rw [hback 20 (by omega) (by omega) (by omega), hw.frame 20 (by omega), hA20]
  · rw [hback 21 (by omega) (by omega) (by omega), hw.frame 21 (by omega), hA21,
      toNat_ofNat_of_le (by omega)]
  · rw [Out.byte_store, if_neg (by omega), hv.frame 22 (by omega), hoB, Out.byte_store,
      if_pos rfl, toNat_ofNat_of_le (by omega)]
  · rw [Out.byte_store, if_pos rfl, toNat_ofNat_of_le (by omega)]
  · refine (h.hasStr_name (o.store 20 0)).congr ?_
    intro j hj hj'
    rw [hnl] at hj'
    rw [tagsStart] at htf
    rw [hback j (by omega) (by omega) (by omega), hw.frame j (by rw [tagsStart]; omega), hoA,
      Out.byte_store, if_neg (by omega)]
  · refine (hw.hasStr (by omega)).congr ?_
    intro j hj hj'
    rw [hback j (by omega) (by omega) (by omega)]
  · refine (hv.hasStr (by omega)).congr ?_
    intro j hj _
    rw [Out.byte_store, if_neg (by omega)]
  · rw [Out.stored_store, List.mem_cons, hv.stored, hoB, Out.stored_store, List.mem_cons, hw.stored,
      hoA, Out.stored_store, List.mem_cons, hoN, Out.mem_stored_copy, Out.stored_store,
      List.mem_cons, show (20 ≤ j ∧ j ≤ 23) ↔ j = 23 ∨ j = 22 ∨ j = 21 ∨ j = 20 from by omega]
    refine iff_of_eq ?_
    ac_rfl
  · rw [Out.asserted_store, hv.asserted, hoB, Out.asserted_store, hw.asserted]
    rfl

end Uvx.Loge
