import Uvx.Loge.Item

/-!
# Reading a text item back

`readItem_logeItem` says what the receiver reads in an item made from texts, for strings of any
length. Round trip and separation of the fields are both read off it.
-/

namespace Uvx.Loge

open Bytes

/-! ## The header -/

/-- An `int32_t` is read back from its digits. -/
theorem readInt32_digits {byte : ℕ → UInt8} {i : ℕ} {x : Int32}
    (h : ∀ j, j < 4 → byte (i + j) = UInt8.ofNat (x.toUInt32.toNat / 256 ^ j)) :
    readInt32 byte i = x := by
  have hlt : x.toUInt32.toNat < 256 ^ 4 := x.toUInt32.toNat_lt
  rw [readInt32, readLE_digits h, Nat.mod_eq_of_lt hlt, UInt32.ofNat_toNat]
  rfl

/-- The fields of the header that do not depend on the strings. -/
structure HeaderIs (env : Env) (loge : LogeT) (level line : Int32) (byte : ℕ → UInt8) : Prop where
  version : byte 0 = 1
  magic1 : byte 1 = 0x4c
  magic2 : byte 2 = 0xaf
  level : (byte 3).toInt8 = level.toInt8
  time : readInt32 byte 4 = env.time
  pid : readInt32 byte 8 = loge.pid
  tid : readInt32 byte 12 = env.tid
  line : readInt32 byte 16 = line
  extraOffset : (byte 26).toNat = 28
  flags : byte 27 = 0

theorem readInt32_congr {byte byte' : ℕ → UInt8} {i : ℕ}
    (h : ∀ j, i ≤ j → j < i + 4 → byte' j = byte j) : readInt32 byte' i = readInt32 byte i := by
  rw [readInt32, readInt32, readLE_congr h]

/-- The header lies outside the bytes from 20 to 25. -/
theorem HeaderIs.congr {env : Env} {loge : LogeT} {level line : Int32} {byte byte' : ℕ → UInt8}
    (h : HeaderIs env loge level line byte)
    (heq : ∀ j, j < 28 → j < 20 ∨ 25 < j → byte' j = byte j) :
    HeaderIs env loge level line byte' where
  version := by rw [heq 0 (by omega) (by omega), h.version]
  magic1 := by rw [heq 1 (by omega) (by omega), h.magic1]
  magic2 := by rw [heq 2 (by omega) (by omega), h.magic2]
  level := by rw [heq 3 (by omega) (by omega), h.level]
  time := by rw [readInt32_congr fun j _ _ => heq j (by omega) (by omega), h.time]
  pid := by rw [readInt32_congr fun j _ _ => heq j (by omega) (by omega), h.pid]
  tid := by rw [readInt32_congr fun j _ _ => heq j (by omega) (by omega), h.tid]
  line := by rw [readInt32_congr fun j _ _ => heq j (by omega) (by omega), h.line]
  extraOffset := by rw [heq 26 (by omega) (by omega), h.extraOffset]
  flags := by rw [heq 27 (by omega) (by omega), h.flags]

theorem headerIs_fillHeader (env : Env) (loge : LogeT) (o : Out) (level line : Int32) :
    HeaderIs env loge level line (fillHeader env loge o level line).byte where
  version := by simp [fillHeader]
  magic1 := by simp [fillHeader]
  magic2 := by simp [fillHeader]
  level := by simp [fillHeader]
  time := readInt32_digits fun j hj => by
    simp only [fillHeader, Out.byte_store, Out.byte_storeLE]
    rw [if_neg (by omega), if_neg (by omega), if_neg (by omega), if_neg (by omega),
      if_neg (by omega), if_pos (by omega), Nat.add_sub_cancel_left]
  pid := readInt32_digits fun j hj => by
    simp only [fillHeader, Out.byte_store, Out.byte_storeLE]
    rw [if_neg (by omega), if_neg (by omega), if_neg (by omega), if_neg (by omega),
      if_pos (by omega), Nat.add_sub_cancel_left]
  tid := readInt32_digits fun j hj => by
    simp only [fillHeader, Out.byte_store, Out.byte_storeLE]
    rw [if_neg (by omega), if_neg (by omega), if_neg (by omega), if_pos (by omega),
      Nat.add_sub_cancel_left]
  line := readInt32_digits fun j hj => by
    simp only [fillHeader, Out.byte_store, Out.byte_storeLE]
    rw [if_neg (by omega), if_neg (by omega), if_pos (by omega), Nat.add_sub_cancel_left]
  extraOffset := by simp [fillHeader, sizeofItem]
  flags := by simp [fillHeader]

theorem mem_stored_fillHeader {env : Env} {loge : LogeT} {o : Out} {level line : Int32} {j : ℕ}
    (hj : j ∈ (fillHeader env loge o level line).stored) : j < 28 ∨ j ∈ o.stored := by
  simp only [fillHeader, Out.stored_store, List.mem_cons, Out.mem_stored_storeLE] at hj
  by_cases ho : j ∈ o.stored
  · exact Or.inr ho
  · left
    simp only [ho, or_false] at hj
    omega

@[simp] theorem asserted_fillHeader (env : Env) (loge : LogeT) (o : Out) (level line : Int32) :
    (fillHeader env loge o level line).asserted = o.asserted := rfl

/-- Reading looks at the item only. -/
theorem readItem_congr {byte byte' : ℕ → UInt8} {size : ℕ} (hsize : 28 ≤ size)
    (h : ∀ j < size, byte' j = byte j) : readItem byte' size = readItem byte size := by
  have hcstr : ∀ off, cstr? byte' off (size - off) = cstr? byte off (size - off) := fun off =>
    cstr?_congr fun j _ hj => h j (by omega)
  have hint : ∀ i, i + 4 ≤ 28 → readInt32 byte' i = readInt32 byte i := fun i hi =>
    readInt32_congr fun j _ hj => h j (by omega)
  have hlen : readLE byte' 24 2 = readLE byte 24 2 := readLE_congr fun j _ hj => h j (by omega)
  simp only [readItem, h 0 (by omega), h 1 (by omega), h 2 (by omega), h 3 (by omega),
    h 20 (by omega), h 21 (by omega), h 22 (by omega), h 23 (by omega), h 26 (by omega),
    h 27 (by omega), hcstr, hint 4 (by omega), hint 8 (by omega), hint 12 (by omega),
    hint 16 (by omega), hlen]

/-! ## The whole item -/

/-- The room for the message and its NUL. -/
def msgRoom (loge : LogeT) (bufsize : ℕ) (tags file : Option CString) : ℕ :=
  min bufsize maxBuf - (sizeofItem + msgStart loge tags file)

/-- There is room for the NUL of the message at least. -/
theorem LogeT.WF.msgRoom_pos {loge : LogeT} (h : loge.WF) {bufsize : ℕ} (hbuf : 284 ≤ bufsize)
    (tags file : Option CString) : 0 < msgRoom loge bufsize tags file := by
  have hms := h.msgStart_le tags file
  rw [msgRoom, maxBuf, sizeofItem]
  omega

/-- What the receiver reads in an item whose message reads as `msgText`. -/
def packedItem (env : Env) (loge : LogeT) (level : Int32) (tags file : Option CString) (line : Int32)
    (msgText : List UInt8) (msgLen : ℕ) : Item :=
  { version := 1, magic1 := 0x4c, magic2 := 0xaf, level := level.toInt8
    time := env.time, pid := loge.pid, tid := env.tid, line := line
    nameOffset := 0, tagsOffset := tagsStart loge, fileOffset := fileStart loge tags
    msgOffset := msgStart loge tags file, msgLen := msgLen, extraOffset := sizeofItem
    flags := 0, name := loge.nameText, tags := kept tags (255 - tagsStart loge)
    -- a file without room is not written, so its place holds the message
    file := if fileStart loge tags < 255 then kept (shortenPath file) (255 - fileStart loge tags)
      else msgText
    msg := msgText }

/-- What the receiver reads in an item made from texts. -/
def textItem (env : Env) (loge : LogeT) (bufsize : ℕ) (level : Int32) (tags msg file : Option CString)
    (line : Int32) : Item :=
  let msgText := kept msg (msgRoom loge bufsize tags file)
  packedItem env loge level tags file line msgText msgText.length

/-- The bytes of an item in front of its message: those of the packed strings, but for `msg_len`. -/
structure Framed (env : Env) (loge : LogeT) (level line : Int32) (tags file : Option CString)
    (byte : ℕ → UInt8) : Prop where
  header : HeaderIs env loge level line byte
  nameOffset : (byte 20).toNat = 0
  tagsOffset : (byte 21).toNat = tagsStart loge
  fileOffset : (byte 22).toNat = fileStart loge tags
  msgOffset : (byte 23).toNat = msgStart loge tags file
  nameStr : HasStr byte 28 loge.nameText
  tagsStr : HasStr byte (28 + tagsStart loge) (kept tags (255 - tagsStart loge))
  fileStr : fileStart loge tags < 255 → HasStr byte (28 + fileStart loge tags)
    (kept (shortenPath file) (255 - fileStart loge tags))

/-- The text kept of the file ends in front of the message. -/
theorem fileEnd_lt {loge : LogeT} {tags : Option CString} (file : Option CString)
    (h : fileStart loge tags < 255) :
    fileStart loge tags + (kept (shortenPath file) (255 - fileStart loge tags)).length
      < msgStart loge tags file := by
  rw [length_kept, msgStart, advance_eq (by omega)]
  omega

theorem Packed.framed {loge : LogeT} (h : loge.WF) {env : Env} {buf : ℕ → UInt8}
    {level line : Int32} {tags file : Option CString} {o : Out} {byte : ℕ → UInt8}
    (hpacked : Packed loge (fillHeader env loge ⟨⟨buf, []⟩, []⟩ level line) o tags file)
    (hframe : ∀ j, j < 28 + msgStart loge tags file → j ≠ 24 → j ≠ 25 → byte j = o.byte j) :
    Framed env loge level line tags file byte := by
  have htf := h.tagsStart_lt tags
  have hfm := fileStart_le_msgStart loge tags file
  have hnl := h.nameEnd_eq
  have hte := h.tagsEnd_lt tags
  refine ⟨?_, ?_, ?_, ?_, ?_, ?_, ?_, ?_⟩
  · refine (headerIs_fillHeader env loge ⟨⟨buf, []⟩, []⟩ level line).congr ?_
    intro j hj hout
    rw [hframe j (by omega) (by omega) (by omega),
      hpacked.header j hj (by omega) (by omega) (by omega) (by omega)]
  · rw [hframe 20 (by omega) (by omega) (by omega), hpacked.nameOffset]
    rfl
  · rw [hframe 21 (by omega) (by omega) (by omega), hpacked.tagsOffset]
  · rw [hframe 22 (by omega) (by omega) (by omega), hpacked.fileOffset]
  · rw [hframe 23 (by omega) (by omega) (by omega), hpacked.msgOffset]
  · refine hpacked.nameStr.congr ?_
    intro j hj hj'
    rw [hframe j (by omega) (by omega) (by omega)]
  · refine hpacked.tagsStr.congr ?_
    intro j hj hj'
    rw [hframe j (by omega) (by omega) (by omega)]
  · intro hlt
    have hfe := fileEnd_lt file hlt
    refine (hpacked.fileStr hlt).congr ?_
    intro j hj hj'
    rw [hframe j (by omega) (by omega) (by omega)]

/-- Reading an item whose message is terminated inside it. -/
theorem readItem_of_framed {loge : LogeT} (h : loge.WF) {env : Env} {level line : Int32}
    {tags file : Option CString} {byte : ℕ → UInt8} {size : ℕ} {msgText : List UInt8}
    (hframed : Framed env loge level line tags file byte)
    (hmsg : HasStr byte (28 + msgStart loge tags file) msgText) (hnonzero : 0 ∉ msgText)
    (hsize : 28 + msgStart loge tags file + msgText.length + 1 ≤ size) :
    readItem byte size =
      some (packedItem env loge level tags file line msgText (readLE byte 24 2)) := by
  have htf := h.tagsStart_lt tags
  have hfs := h.fileStart_le tags
  have hms := h.msgStart_le tags file
  have hfm := fileStart_le_msgStart loge tags file
  have hnl := h.nameEnd_eq
  have hte := h.tagsEnd_lt tags
  have hname : cstr? byte (28 + 0) (size - (28 + 0)) = some loge.nameText :=
    hframed.nameStr.cstr?_eq loge.nameText_nonzero (by omega)
  have htags : cstr? byte (28 + tagsStart loge) (size - (28 + tagsStart loge))
      = some (kept tags (255 - tagsStart loge)) :=
    hframed.tagsStr.cstr?_eq (kept_nonzero _ _) (by omega)
  have hmsg' : cstr? byte (28 + msgStart loge tags file) (size - (28 + msgStart loge tags file))
      = some msgText := hmsg.cstr?_eq hnonzero (by omega)
  have hfile : cstr? byte (28 + fileStart loge tags) (size - (28 + fileStart loge tags))
      = some (if fileStart loge tags < 255 then
        kept (shortenPath file) (255 - fileStart loge tags) else msgText) := by
    split_ifs with hlt
    · have hfe := fileEnd_lt file hlt
      exact (hframed.fileStr hlt).cstr?_eq (kept_nonzero _ _) (by omega)
    · -- a file without room is read where the message stands
      rwa [show fileStart loge tags = msgStart loge tags file from by omega]
  simp only [readItem, hframed.header.extraOffset, hframed.nameOffset, hframed.tagsOffset,
    hframed.fileOffset, hframed.msgOffset, hname, htags, hmsg', hfile, hframed.header.version,
    hframed.header.magic1, hframed.header.magic2, hframed.header.level, hframed.header.time,
    hframed.header.pid, hframed.header.tid, hframed.header.line, hframed.header.flags,
    Option.bind_eq_bind, Option.bind_some, Option.pure_def]
  rfl

/-- What the end of an item does: the message of `len` bytes starts at `start`. -/
structure Finished (o : Out) (start len : ℕ) (r : Out × ℕ) : Prop where
  size : r.2 = start + len + 1
  frame : ∀ j, j ≠ 24 → j ≠ 25 → r.1.byte j = o.byte j
  msgLen : readLE r.1.byte 24 2 = len

theorem finishItem_spec {o : Out} {off len : ℕ} (hoff : (o.byte 23).toNat = off)
    (hlen : len < 2 ^ 16) : Finished o (28 + off) len (finishItem o (28 + off + len + 1)) := by
  have hstore : finishItem o (28 + off + len + 1) = (o.storeLE 24 2 len, 28 + off + len + 1) := by
    rw [finishItem, hoff, sizeofItem]
    congr 2
    omega
  rw [hstore]
  refine ⟨rfl, ?_, ?_⟩
  · intro j h24 h25
    rw [Out.byte_storeLE, if_neg (by omega)]
  · rw [readLE_digits (x := len) fun j hj => ?_, Nat.mod_eq_of_lt (by omega)]
    rw [Out.byte_storeLE, if_pos (by omega), Nat.add_sub_cancel_left]

/-- The text item's bytes and size. -/
theorem logeItem_spec {loge : LogeT} (h : loge.WF) (hen : loge.enabled ≠ 0) (env : Env)
    (buf : ℕ → UInt8) {bufsize : ℕ} (hbuf : 284 ≤ bufsize) (level : Int32)
    (tags msg file : Option CString) (line : Int32) :
    let r := logeItem env loge buf bufsize level tags msg file line
    let m := msgRoom loge bufsize tags file
    ∃ o, Packed loge (fillHeader env loge ⟨⟨buf, []⟩, []⟩ level line) o tags file ∧
      (∀ j, j < 28 + msgStart loge tags file → j ≠ 24 → j ≠ 25 → r.1.byte j = o.byte j) ∧
      HasStr r.1.byte (28 + msgStart loge tags file) (kept msg m) ∧
      readLE r.1.byte 24 2 = (kept msg m).length ∧
      r.2 = 28 + msgStart loge tags file + (kept msg m).length + 1 := by
  intro r m
  have hms := h.msgStart_le tags file
  have hmax : 284 ≤ min bufsize maxBuf ∧ min bufsize maxBuf ≤ 1024 := by
    rw [maxBuf]; omega
  obtain ⟨hpacked, hp⟩ := packNames_spec h (fillHeader env loge ⟨⟨buf, []⟩, []⟩ level line) tags file
  set o := (packNames loge (fillHeader env loge ⟨⟨buf, []⟩, []⟩ level line) tags file).1 with ho
  obtain ⟨hw, hq⟩ := writeStr_spec o (p := 28 + msgStart loge tags file) (e := min bufsize maxBuf) msg
    (by omega) (by omega)
  have hm : min bufsize maxBuf - (28 + msgStart loge tags file) = m := rfl
  rw [hm] at hw hq
  have hmpos : 0 < m := by omega
  have hlen : (kept msg m).length < m := by
    have := advance_le (msg.getD .empty) m
    rw [advance_eq hmpos] at this
    rw [length_kept]; omega
  rw [advance_eq hmpos, ← length_kept, ← Nat.add_assoc] at hq
  set oM := (writeStr o (28 + msgStart loge tags file) (min bufsize maxBuf) msg).1 with hoM
  have hr : r = finishItem oM (28 + msgStart loge tags file + (kept msg m).length + 1) := by
    simp only [r, logeItem, logeItemBin, if_neg hen, hp, ← ho, ← hoM, hq]
  have hoff : (oM.byte 23).toNat = msgStart loge tags file := by
    rw [hw.frame 23 (by omega), hpacked.msgOffset]
  have hfin : Finished oM (28 + msgStart loge tags file) (kept msg m).length r :=
    hr ▸ finishItem_spec hoff (by omega)
  refine ⟨o, hpacked, ?_, ?_, hfin.msgLen, hfin.size⟩
  · intro j hj h24 h25
    rw [hfin.frame j h24 h25, hw.frame j hj]
  · refine (hw.hasStr (by omega)).congr ?_
    intro j hj _
    exact hfin.frame j (by omega) (by omega)

/-- **The receiver reads the kept texts**, for strings of any length. -/
theorem readItem_logeItem {loge : LogeT} (h : loge.WF) (hen : loge.enabled ≠ 0) (env : Env)
    (buf : ℕ → UInt8) {bufsize : ℕ} (hbuf : 284 ≤ bufsize) (level : Int32)
    (tags msg file : Option CString) (line : Int32) :
    let r := logeItem env loge buf bufsize level tags msg file line
    let it := textItem env loge bufsize level tags msg file line
    readItem r.1.byte r.2 = some it ∧
      r.2 = it.extraOffset + it.msgOffset + it.msgLen + 1 := by
  intro r it
  obtain ⟨o, hpacked, hframe, hmsg, hmsgLen, hsize⟩ :=
    logeItem_spec h hen env buf hbuf level tags msg file line
  have hread := readItem_of_framed h (hpacked.framed h hframe) hmsg (kept_nonzero _ _)
    (Nat.le_of_eq hsize.symm)
  rw [hmsgLen] at hread
  exact ⟨hread, hsize⟩

end Uvx.Loge
