import Uvx.Loge.TextItem

/-!
# Where `loge_item_bin` stores

The tags and the file are written against the limit `extra + 255`, whatever the size of the buffer, so
a small buffer is respected only when the strings are short enough (`inBounds_iff`).
-/

namespace Uvx.Loge

/-- What the header promises: all stores lie in front of `limit`, the assertion `buf <= buf_end` holds
at each of the three calls of the writers, and the returned size is at most `limit`. -/
structure InBounds (limit : ℕ) (r : Out × ℕ) : Prop where
  stored : ∀ j ∈ r.1.stored, j < limit
  asserted : r.1.asserted = [true, true, true]
  size : r.2 ≤ limit

/-- The strings in front of the message fit, measured as `write_str` would store them into an area
without limit. -/
def StringsFit (loge : LogeT) (bufsize : ℕ) (tags file : Option CString) : Prop :=
  283 ≤ bufsize ∨
    (tagsStart loge + storeLen (tags.getD .empty) (2 ^ 32) ≤ min bufsize maxBuf - sizeofItem ∧
      tagsStart loge + advance (tags.getD .empty) (2 ^ 32)
        + storeLen ((shortenPath file).getD .empty) (2 ^ 32) ≤ min bufsize maxBuf - sizeofItem)

/-- A string of less than 4 GiB takes its length and a NUL in an area without limit. -/
theorem storeLen_unlimited {s : CString} (hs : s.length + 1 < 2 ^ 32) :
    storeLen s (2 ^ 32) = s.length + 1 ∧ advance s (2 ^ 32) = s.length + 1 := by
  have hF := toUnsigned_succ hs
  constructor
  · rw [storeLen, if_neg (by omega), copyLen, hF]; omega
  · rw [advance_eq (by omega), keepLen_of_fits (by omega) hs]

/-- For such strings the condition is about the lengths alone: the buffer has at least 283 bytes, or
name, tags and shortened file fit into it, each with a NUL. -/
theorem stringsFit_iff {loge : LogeT} (h : loge.WF) {bufsize : ℕ} {tags file : Option CString}
    (htags : (textOf tags).length + 1 < 2 ^ 32)
    (hfile : (textOf (shortenPath file)).length + 1 < 2 ^ 32) :
    StringsFit loge bufsize tags file ↔ 283 ≤ bufsize ∨
      (loge.nameText.length + 1) + ((textOf tags).length + 1)
        + ((textOf (shortenPath file)).length + 1) ≤ min bufsize 1024 - 28 := by
  rw [textOf_eq] at htags hfile ⊢
  rw [textOf_eq]
  obtain ⟨h₁, h₂⟩ := storeLen_unlimited htags
  obtain ⟨h₃, -⟩ := storeLen_unlimited hfile
  rw [StringsFit, h₁, h₂, h₃, h.length_nameText, tagsStart, CString.length, CString.length, maxBuf,
    sizeofItem]
  omega

/-- Below 255 bytes the limit `extra + 255` does not cut what is stored. -/
theorem add_storeLen_le_iff (s : CString) {a e : ℕ} (ha : a ≤ 255) (he : e < 255) :
    a + storeLen s (255 - a) ≤ e ↔ a ≤ e ∧ a + storeLen s (2 ^ 32) ≤ e := by
  have hF := toUnsigned_lt (s.length + 1)
  rw [storeLen, storeLen, if_neg (show (2 : ℕ) ^ 32 ≠ 0 by omega), copyLen, copyLen]
  split_ifs <;> omega

/-- A string stored without being cut moves the pointer as in an area without limit. -/
theorem advance_eq_unlimited {s : CString} {a e : ℕ} (he : e < 255)
    (h : a + storeLen s (2 ^ 32) ≤ e) : advance s (255 - a) = advance s (2 ^ 32) := by
  have hF := toUnsigned_lt (s.length + 1)
  rw [storeLen, if_neg (by omega), copyLen] at h
  rw [advance_eq (by omega), advance_eq (by omega), keepLen, keepLen, copyLen, copyLen,
    Nat.min_eq_left (by omega), Nat.min_eq_left (by omega)]

/-- The condition in terms of what the writers really store. -/
theorem stringsFit_iff_storeLen {loge : LogeT} (h : loge.WF) {bufsize : ℕ} (hbuf : 28 < bufsize)
    (tags file : Option CString) :
    StringsFit loge bufsize tags file ↔
      tagsStart loge + storeLen (tags.getD .empty) (255 - tagsStart loge)
          ≤ min bufsize maxBuf - sizeofItem ∧
        fileStart loge tags + storeLen ((shortenPath file).getD .empty) (255 - fileStart loge tags)
          ≤ min bufsize maxBuf - sizeofItem := by
  have hts := h.tagsStart_le
  have hfs := h.fileStart_le tags
  rw [StringsFit, sizeofItem, maxBuf]
  by_cases hbig : 283 ≤ bufsize
  · have h₁ := storeLen_le (tags.getD .empty) (255 - tagsStart loge)
    have h₂ := storeLen_le ((shortenPath file).getD .empty) (255 - fileStart loge tags)
    exact iff_of_true (Or.inl hbig) ⟨by omega, by omega⟩
  · rw [or_iff_right hbig]
    have he : min bufsize 1024 - 28 < 255 := by omega
    rw [add_storeLen_le_iff _ (by omega) he, add_storeLen_le_iff _ hfs he]
    constructor
    · rintro ⟨htags, hfile⟩
      have hstart : fileStart loge tags
          = tagsStart loge + advance (tags.getD .empty) (2 ^ 32) := by
        rw [fileStart, advance_eq_unlimited he htags]
      rw [hstart]
      exact ⟨⟨by omega, htags⟩, by omega, hfile⟩
    · rintro ⟨⟨-, htags⟩, -, hfile⟩
      rw [fileStart, advance_eq_unlimited he htags] at hfile
      exact ⟨htags, hfile⟩

/-! ## The message -/

/-- `finishItem` stores `msg_len` and returns the pointer. -/
theorem inBounds_finishItem {limit : ℕ} {o : Out} {p : ℕ} (hlimit : 28 ≤ limit)
    (hstored : ∀ j ∈ o.stored, j < limit) (hasserted : o.asserted = [true, true, true])
    (hp : p ≤ limit) : InBounds limit (finishItem o p) := by
  refine ⟨?_, hasserted, hp⟩
  intro j hj
  rw [finishItem, Out.mem_stored_storeLE] at hj
  rcases hj with hj | hj
  · omega
  · exact hstored j hj

/-- `writeBin` respects an area whose pointers are in order. -/
theorem writeBin_inArea (o : Out) {p e : ℕ} (data : Option (ℕ → UInt8)) {datasize : ℕ} (hpe : p ≤ e)
    (hlt : e - p < 2 ^ 32) (hsize : datasize < 2 ^ 32 - 1) :
    (∀ j ∈ (writeBin o p e data datasize).1.stored, (p ≤ j ∧ j < e) ∨ j ∈ o.stored) ∧
      (writeBin o p e data datasize).1.asserted = true :: o.asserted ∧
      ∀ q, (writeBin o p e data datasize).2 = some q → q ≤ e := by
  rcases Nat.eq_or_lt_of_le hpe with rfl | hpe
  · rw [writeBin_full]
    exact ⟨fun j hj => Or.inr hj, rfl, fun q hq => by simp only [Option.some.injEq] at hq; omega⟩
  · rcases data with _ | data
    · have hw : writeBin o p e none datasize = ((o.check true).store p 0, some (p + 1)) := by
        simp only [writeBin]
        rw [if_neg (by omega), decide_eq_true (show p ≤ e by omega)]
      rw [hw]
      refine ⟨?_, rfl, fun q hq => by simp only [Option.some.injEq] at hq; omega⟩
      intro j hj
      rw [Out.stored_store, List.mem_cons] at hj
      exact hj.imp (fun h => by omega) id
    · obtain ⟨-, hstored, hasserted, hret⟩ := writeBin_spec o data hpe hlt hsize
      refine ⟨?_, hasserted, ?_⟩
      · intro j hj
        rw [hstored] at hj
        exact hj.imp (fun h => by omega) id
      · intro q hq
        rw [hret] at hq
        split_ifs at hq with hfit
        simp only [Option.some.injEq] at hq
        omega

/-- With name, tags and file inside the buffer the message stays inside too, in both modes. -/
theorem inBounds_of_stringsFit {loge : LogeT} (h : loge.WF) (hen : loge.enabled ≠ 0) (env : Env)
    (buf : ℕ → UInt8) {bufsize : ℕ} (hbuf : 28 < bufsize) (hname : 16 < min bufsize maxBuf - sizeofItem)
    (level line : Int32) (tags file : Option CString) (msg : Msg)
    (hfit : StringsFit loge bufsize tags file) :
    InBounds (min bufsize maxBuf) (logeItemBin env loge buf bufsize level tags msg file line) := by
  have hts := h.tagsStart_le
  obtain ⟨htags, hfile⟩ := (stringsFit_iff_storeLen h hbuf tags file).mp hfit
  have hms : msgStart loge tags file ≤ min bufsize maxBuf - sizeofItem :=
    (Nat.add_le_add_left (advance_le_storeLen _ _) _).trans hfile
  rw [sizeofItem] at hname htags hfile hms
  have hmax : min bufsize maxBuf ≤ 1024 := by rw [maxBuf]; omega
  obtain ⟨hpacked, hp⟩ := packNames_spec h (fillHeader env loge ⟨⟨buf, []⟩, []⟩ level line) tags file
  set o := (packNames loge (fillHeader env loge ⟨⟨buf, []⟩, []⟩ level line) tags file).1 with ho
  have hstored : ∀ j ∈ o.stored, j < min bufsize maxBuf := by
    intro j hj
    rcases (hpacked.stored j).mp hj with hj | hj | hj | hj | hj
    · omega
    · omega
    · omega
    · omega
    · rcases mem_stored_fillHeader hj with hj | hj
      · omega
      · exact absurd hj List.not_mem_nil
  have hasserted : o.asserted = [true, true] := hpacked.asserted
  rcases msg with msg | ⟨data, datasize, hsize⟩
  · obtain ⟨hw, hq⟩ := writeStr_spec o (p := 28 + msgStart loge tags file) (e := min bufsize maxBuf)
      msg (by omega) (by omega)
    have hadv := advance_le (msg.getD .empty) (min bufsize maxBuf - (28 + msgStart loge tags file))
    have hlen := storeLen_le (msg.getD .empty) (min bufsize maxBuf - (28 + msgStart loge tags file))
    simp only [logeItemBin, if_neg hen, ← ho, hp]
    refine inBounds_finishItem (by omega) (fun j hj => ?_) (by rw [hw.asserted, hasserted])
      (by rw [hq]; omega)
    rcases (hw.stored j).mp hj with hj | hj
    · omega
    · exact hstored j hj
  · obtain ⟨hw, hassert, hret⟩ := writeBin_inArea o (p := 28 + msgStart loge tags file)
      (e := min bufsize maxBuf) data (by omega) (by omega) hsize
    have hstored' : ∀ j ∈ (writeBin o (28 + msgStart loge tags file) (min bufsize maxBuf) data
        datasize).1.stored, j < min bufsize maxBuf := by
      intro j hj
      rcases hw j hj with hj | hj
      · exact hj.2
      · exact hstored j hj
    simp only [logeItemBin, if_neg hen, ← ho, hp]
    split
    · next o' heq =>
      rw [heq] at hstored' hassert
      exact ⟨hstored', by rw [hassert, hasserted], Nat.zero_le _⟩
    · next o' q heq =>
      rw [heq] at hstored' hassert hret
      exact inBounds_finishItem (by omega) hstored' (by rw [hassert, hasserted]) (hret q rfl)

/-! ## Stores past the end -/

/-- Whatever the message does, the stores of name, tags and file remain. -/
theorem stored_logeItemBin {loge : LogeT} (hen : loge.enabled ≠ 0) (env : Env) (buf : ℕ → UInt8)
    (bufsize : ℕ) (level line : Int32) (tags file : Option CString) (msg : Msg) {j : ℕ}
    (hj : j ∈ (packNames loge (fillHeader env loge ⟨⟨buf, []⟩, []⟩ level line) tags file).1.stored) :
    j ∈ (logeItemBin env loge buf bufsize level tags msg file line).1.stored := by
  simp only [logeItemBin, if_neg hen]
  rcases msg with msg | ⟨data, datasize, hsize⟩
  · simp only [finishItem]
    exact (Out.mem_stored_storeLE _ _ _ _ _).mpr (Or.inr (stored_writeStr _ _ _ _ hj))
  · have hw := stored_writeBin _
      (packNames loge (fillHeader env loge ⟨⟨buf, []⟩, []⟩ level line) tags file).2
      (min bufsize maxBuf) data datasize hj
    simp only
    split
    · next o' heq =>
      rwa [heq] at hw
    · next o' q heq =>
      rw [heq] at hw
      exact (Out.mem_stored_storeLE _ _ _ _ _).mpr (Or.inr hw)

/-- Stores inside the buffer force the strings to fit. -/
theorem stringsFit_of_stored {loge : LogeT} (h : loge.WF) (hen : loge.enabled ≠ 0) (env : Env)
    (buf : ℕ → UInt8) {bufsize : ℕ} (hbuf : 28 < bufsize) (hname : 16 < min bufsize maxBuf - sizeofItem)
    (level line : Int32) (tags file : Option CString) (msg : Msg)
    (hstored : ∀ j ∈ (logeItemBin env loge buf bufsize level tags msg file line).1.stored,
      j < min bufsize maxBuf) :
    StringsFit loge bufsize tags file := by
  have hts := h.tagsStart_le
  obtain ⟨hpacked, -⟩ := packNames_spec h (fillHeader env loge ⟨⟨buf, []⟩, []⟩ level line) tags file
  have hlt : ∀ j, _ → j < min bufsize maxBuf := fun j hj =>
    hstored j (stored_logeItemBin hen env buf bufsize level line tags file msg
      ((hpacked.stored j).mpr hj))
  rw [stringsFit_iff_storeLen h hbuf]
  rw [sizeofItem] at hname ⊢
  -- the last byte stored for the tags, and for the file unless it has no room
  have htags : tagsStart loge + storeLen (tags.getD .empty) (255 - tagsStart loge)
      ≤ min bufsize maxBuf - 28 := by
    have hpos : 0 < storeLen (tags.getD .empty) (255 - tagsStart loge) := by
      rw [storeLen, if_neg (by omega)]; omega
    have := hlt (28 + tagsStart loge + storeLen (tags.getD .empty) (255 - tagsStart loge) - 1)
      (Or.inr (Or.inr (Or.inl (by omega))))
    omega
  refine ⟨htags, ?_⟩
  rcases Nat.eq_zero_or_pos
    (storeLen ((shortenPath file).getD .empty) (255 - fileStart loge tags)) with hz | hpos
  · have hadv := advance_le_storeLen (tags.getD .empty) (255 - tagsStart loge)
    have hfs : fileStart loge tags
        = tagsStart loge + advance (tags.getD .empty) (255 - tagsStart loge) := rfl
    omega
  · have := hlt (28 + fileStart loge tags
      + storeLen ((shortenPath file).getD .empty) (255 - fileStart loge tags) - 1)
      (Or.inr (Or.inr (Or.inr (Or.inl (by omega)))))
    omega

/-- **`loge_item_bin` stays inside its buffer exactly when name, tags and file fit.** -/
theorem inBounds_iff {loge : LogeT} (h : loge.Reachable) (hen : loge.enabled ≠ 0) (env : Env)
    (buf : ℕ → UInt8) {bufsize : ℕ} (hbuf : sizeofItem < bufsize)
    (hname : 16 < min bufsize maxBuf - sizeofItem) (level line : Int32) (tags file : Option CString)
    (msg : Msg) :
    InBounds (min bufsize maxBuf) (logeItemBin env loge buf bufsize level tags msg file line) ↔
      StringsFit loge bufsize tags file := by
  constructor
  · intro hin
    exact stringsFit_of_stored h.wf hen env buf hbuf hname level line tags file msg hin.stored
  · exact inBounds_of_stringsFit h.wf hen env buf hbuf hname level line tags file msg

/-- A buffer of 48 bytes holds the tags `net`, the file `b/c/d.c` and the first bytes of the message. -/
theorem inBounds_iff_tagged :
    let tags : CString := ⟨[0x6e, 0x65, 0x74], by decide⟩
    let file : CString :=
      ⟨[0x2f, 0x61, 0x2f, 0x62, 0x2f, 0x63, 0x2f, 0x64, 0x2e, 0x63], by decide⟩
    let msg : CString := ⟨[0x68, 0x65, 0x6c, 0x6c, 0x6f], by decide⟩
    InBounds (min 48 maxBuf) (logeItemBin ⟨0, 0⟩ defaultLoge (fun _ => 0) 48 0 (some tags)
      (.text (some msg)) (some file) 7) := by
  intro tags file msg
  have hfit : StringsFit defaultLoge 48 (some tags) (some file) :=
    (stringsFit_iff reachable_defaultLoge.wf (by decide) (by decide)).mpr (.inr (by decide))
  exact (inBounds_iff reachable_defaultLoge (by decide) _ _ (by decide) (by decide) _ _ _ _ _).mpr hfit

/-- Twenty bytes of tags leave a buffer of 45 bytes. -/
theorem not_inBounds_tags :
    let tags : CString := ⟨.replicate 20 0x61, by decide⟩
    defaultLoge.Reachable ∧ defaultLoge.enabled ≠ 0 ∧
      ¬ InBounds (min 45 maxBuf)
        (logeItemBin ⟨0, 0⟩ defaultLoge (fun _ => 0) 45 0 (some tags) (.text none) none 0) := by
  refine ⟨reachable_defaultLoge, by decide, ?_⟩
  intro hin
  have := stringsFit_of_stored reachable_defaultLoge.wf (by decide) _ _ (by decide) (by decide) _ _ _ _
    _ hin.stored
  rw [stringsFit_iff reachable_defaultLoge.wf (by decide) (by decide)] at this
  revert this
  decide

end Uvx.Loge
