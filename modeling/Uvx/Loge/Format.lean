import Uvx.Loge.Binary

/-!
# The bytes of an item

`wire` is the item that `loge_item_bin` makes, as a list: the header, then name, tags, file and message,
each with its NUL; but of a file for which name and tags leave no room not even the NUL is there. It is
a function of the arguments alone, so nothing of what the output buffer held before is handed on
(`logeItemBin_eq_wire`).
-/

namespace Uvx.Loge

open Bytes

variable {env : Env} {loge : LogeT} {level line : Int32} {tags file : Option CString}
  {byte : ℕ → UInt8}

/-! ## The format -/

/-- The 28 bytes of `loge_item_t`. -/
def itemHeader (env : Env) (loge : LogeT) (level line : Int32) (tags file : Option CString)
    (msgLen : ℕ) : List UInt8 :=
  [1, 0x4c, 0xaf, level.toInt8.toUInt8] ++ digits 4 env.time.toUInt32.toNat
    ++ digits 4 loge.pid.toUInt32.toNat ++ digits 4 env.tid.toUInt32.toNat
    ++ digits 4 line.toUInt32.toNat
    ++ [0, .ofNat (tagsStart loge), .ofNat (fileStart loge tags), .ofNat (msgStart loge tags file)]
    ++ digits 2 msgLen ++ [.ofNat sizeofItem, 0]

/-- The strings in front of the message. Where name and tags fill the 255 bytes, `write_str` writes
nothing for the file, not even its NUL. -/
def itemNames (loge : LogeT) (tags file : Option CString) : List UInt8 :=
  (loge.nameText ++ [0]) ++ (kept tags (255 - tagsStart loge) ++ [0])
    ++ if fileStart loge tags < 255 then
        kept (shortenPath file) (255 - fileStart loge tags) ++ [0] else []

/-- An item with the message `msg`. -/
def itemBytes (env : Env) (loge : LogeT) (level line : Int32) (tags file : Option CString)
    (msg : List UInt8) : List UInt8 :=
  itemHeader env loge level line tags file msg.length ++ itemNames loge tags file ++ (msg ++ [0])

/-- The message bytes for which there are `room` bytes, a NUL included. -/
def Msg.carried (room : ℕ) : Msg → Option (List UInt8)
  | .text msg => some (kept msg room)
  | .binary none _ _ => some []
  | .binary (some data) msglen _ =>
    if msglen + 1 ≤ room then some ((List.range msglen).map data) else none

/-- What a log becomes: nothing if logging is disabled or a binary message is too long. -/
def wire (env : Env) (loge : LogeT) (bufsize : ℕ) (level : Int32) (tags : Option CString)
    (msg : Msg) (file : Option CString) (line : Int32) : List UInt8 :=
  if loge.enabled = 0 then []
  else ((msg.carried (msgRoom loge bufsize tags file)).map
    (itemBytes env loge level line tags file)).getD []

/-! ## Lengths -/

@[simp] theorem length_itemHeader (env : Env) (loge : LogeT) (level line : Int32)
    (tags file : Option CString) (msgLen : ℕ) :
    (itemHeader env loge level line tags file msgLen).length = 28 := by
  simp [itemHeader]

theorem LogeT.WF.length_itemNames (h : loge.WF) (tags file : Option CString) :
    (itemNames loge tags file).length = msgStart loge tags file := by
  have hts := h.tagsStart_le
  have hfs := h.fileStart_le tags
  have htags : (kept tags (255 - tagsStart loge)).length + 1 = fileStart loge tags - tagsStart loge := by
    rw [length_kept, fileStart, advance_eq (by omega)]
    omega
  have htf := h.tagsStart_lt tags
  rw [itemNames, List.length_append, List.length_append, List.length_append, List.length_append,
    List.length_singleton, h.nameEnd_eq, htags, msgStart]
  split_ifs with hlt
  · rw [List.length_append, List.length_singleton, length_kept, advance_eq (by omega)]
    omega
  · rw [advance, if_pos (by omega), List.length_nil]
    omega

theorem LogeT.WF.length_itemBytes (h : loge.WF) (msg : List UInt8) :
    (itemBytes env loge level line tags file msg).length
      = 28 + msgStart loge tags file + msg.length + 1 := by
  rw [itemBytes, List.length_append, List.length_append, length_itemHeader, h.length_itemNames,
    List.length_append, List.length_singleton, Nat.add_assoc _ msg.length]

/-! ## The bytes in memory -/

/-- A number is stored as the digits it is read from. -/
theorem hasBytes_readInt32 {i : ℕ} {x : Int32} (h : readInt32 byte i = x) :
    HasBytes byte i (digits 4 x.toUInt32.toNat) := by
  have hlt : readLE byte i 4 < 2 ^ 32 := readLE_lt byte i 4
  have hx : x.toUInt32.toNat = readLE byte i 4 := by
    rw [← h, readInt32]
    exact (UInt32.toNat_ofNat' (n := readLE byte i 4)).trans (Nat.mod_eq_of_lt hlt)
  rw [hx]
  exact hasBytes_digits_readLE byte i 4

theorem eq_ofNat_of_toNat {b : UInt8} {n : ℕ} (h : b.toNat = n) : b = .ofNat n := by
  rw [← h, UInt8.ofNat_toNat]

theorem Framed.hasBytes_itemHeader (h : Framed env loge level line tags file byte) :
    HasBytes byte 0 (itemHeader env loge level line tags file (readLE byte 24 2)) := by
  have hlevel : byte 3 = level.toInt8.toUInt8 := by
    rw [← h.header.level]
    rfl
  have hstart : HasBytes byte 0 [1, 0x4c, 0xaf, level.toInt8.toUInt8] := by
    simp only [hasBytes_cons_iff, hasBytes_nil, and_true]
    exact ⟨h.header.version, h.header.magic1, h.header.magic2, hlevel⟩
  have hoffsets : HasBytes byte 20 [0, .ofNat (tagsStart loge), .ofNat (fileStart loge tags),
      .ofNat (msgStart loge tags file)] := by
    simp only [hasBytes_cons_iff, hasBytes_nil, and_true]
    exact ⟨eq_ofNat_of_toNat h.nameOffset, eq_ofNat_of_toNat h.tagsOffset,
      eq_ofNat_of_toNat h.fileOffset, eq_ofNat_of_toNat h.msgOffset⟩
  have hend : HasBytes byte 26 [.ofNat sizeofItem, 0] := by
    simp only [hasBytes_cons_iff, hasBytes_nil, and_true]
    exact ⟨eq_ofNat_of_toNat h.header.extraOffset, h.header.flags⟩
  refine ((((((hstart.append ?_).append ?_).append ?_).append ?_).append ?_).append ?_).append ?_
  · exact hasBytes_readInt32 h.header.time
  · exact hasBytes_readInt32 h.header.pid
  · exact hasBytes_readInt32 h.header.tid
  · exact hasBytes_readInt32 h.header.line
  · exact hoffsets
  · exact hasBytes_digits_readLE byte 24 2
  · exact hend

theorem Framed.hasBytes_itemNames (hwf : loge.WF) (h : Framed env loge level line tags file byte) :
    HasBytes byte 28 (itemNames loge tags file) := by
  have hts := hwf.tagsStart_le
  have hnl := hwf.nameEnd_eq
  have htf := hwf.tagsStart_lt tags
  have htags : tagsStart loge + ((kept tags (255 - tagsStart loge)).length + 1)
      = fileStart loge tags := by
    rw [length_kept, fileStart, advance_eq (by omega)]
  refine (h.nameStr.hasBytes.append ?_).append ?_
  · rw [List.length_append, List.length_singleton, hnl]
    exact h.tagsStr.hasBytes
  · rw [List.length_append, List.length_append, List.length_append, List.length_singleton, hnl, htags]
    split_ifs with hlt
    · exact (h.fileStr hlt).hasBytes
    · exact hasBytes_nil _ _

/-- The item `r` carries the message `m`. -/
structure Carries (env : Env) (loge : LogeT) (level line : Int32) (tags file : Option CString)
    (m : List UInt8) (r : Out × ℕ) : Prop where
  framed : Framed env loge level line tags file r.1.byte
  msg : HasBytes r.1.byte (28 + msgStart loge tags file) (m ++ [0])
  msgLen : readLE r.1.byte 24 2 = m.length
  size : r.2 = 28 + msgStart loge tags file + m.length + 1

/-- **The bytes of an item are determined by the message it carries.** -/
theorem Carries.map_range (hwf : loge.WF) {m : List UInt8} {r : Out × ℕ}
    (h : Carries env loge level line tags file m r) :
    (List.range r.2).map r.1.byte = itemBytes env loge level line tags file m := by
  have hitem : HasBytes r.1.byte 0 (itemBytes env loge level line tags file m) := by
    rw [itemBytes, ← h.msgLen]
    refine (h.framed.hasBytes_itemHeader.append ?_).append ?_
    · rw [length_itemHeader]
      exact h.framed.hasBytes_itemNames hwf
    · rw [List.length_append, length_itemHeader, hwf.length_itemNames, Nat.zero_add]
      exact h.msg
  rw [h.size, ← hwf.length_itemBytes m]
  exact hitem.map_range

/-- The receiver reads the message up to its first NUL. -/
theorem Carries.readItem (hwf : loge.WF) {m : List UInt8} {r : Out × ℕ}
    (h : Carries env loge level line tags file m r) :
    readItem r.1.byte r.2
      = some (packedItem env loge level tags file line (m.takeWhile (· ≠ 0)) m.length) := by
  have hle : (m.takeWhile (· ≠ 0)).length ≤ m.length := (List.takeWhile_prefix _).length_le
  have hread := readItem_of_framed hwf h.framed h.msg.hasStr_takeWhile
    (fun h0 => by simpa using List.mem_takeWhile_imp h0)
    (show 28 + msgStart loge tags file + (m.takeWhile (· ≠ 0)).length + 1 ≤ r.2 by
      rw [h.size]; omega)
  rwa [h.msgLen] at hread

/-! ## The serializer -/

/-- **What the serializer answers**: an item that carries the message, or 0 when there is no room for
a binary one. -/
theorem logeItemBin_carries (h : loge.WF) (hen : loge.enabled ≠ 0) (env : Env) (buf : ℕ → UInt8)
    {bufsize : ℕ} (hbuf : 284 ≤ bufsize) (level line : Int32) (tags file : Option CString)
    (msg : Msg) :
    let r := logeItemBin env loge buf bufsize level tags msg file line
    match msg.carried (msgRoom loge bufsize tags file) with
    | some m => Carries env loge level line tags file m r
    | none => r.2 = 0 := by
  intro r
  have htext : ∀ msg, Carries env loge level line tags file
      (kept msg (msgRoom loge bufsize tags file))
      (logeItem env loge buf bufsize level tags msg file line) := by
    intro msg
    obtain ⟨o, hpacked, hframe, hmsg, hmsgLen, hsize⟩ :=
      logeItem_spec h hen env buf hbuf level tags msg file line
    exact ⟨hpacked.framed h hframe, hmsg.hasBytes, hmsgLen, hsize⟩
  rcases msg with msg | ⟨_ | data, msglen, hlen⟩
  · exact htext msg
  · -- a null message is written like an empty text
    have hempty : kept none (msgRoom loge bufsize tags file) = [] := List.take_nil
    have hnull := htext none
    rw [hempty, ← logeItemBin_null env loge buf bufsize level line tags file msglen hlen] at hnull
    exact hnull
  · have hr : Binary _ _ _ data msglen r :=
      logeItemBin_spec h hen env buf hbuf level line tags file data hlen
    obtain ⟨hpacked, -⟩ :=
      packNames_spec h (fillHeader env loge ⟨⟨buf, []⟩, []⟩ level line) tags file
    rw [Msg.carried]
    split_ifs with hfits
    · have hlength : ((List.range msglen).map data).length = msglen := by simp
      refine ⟨hpacked.framed h hr.frame, ?_, (hr.msgLen hfits).trans hlength.symm, ?_⟩
      · refine HasBytes.append ?_ ?_
        · intro k hk
          rw [hlength] at hk
          rw [hr.msg hfits k hk, List.getElem_map, List.getElem_range]
        · rw [hlength]
          exact hasBytes_cons_iff.mpr ⟨hr.nul hfits, hasBytes_nil _ _⟩
      · rw [hr.size, if_pos hfits, hlength]
    · rw [hr.size, if_neg hfits]

/-- **What is serialized is a function of the arguments alone**, whatever the buffer held before. -/
theorem logeItemBin_eq_wire (h : loge.Reachable) (env : Env) (buf : ℕ → UInt8) {bufsize : ℕ}
    (hbuf : 284 ≤ bufsize) (level line : Int32) (tags file : Option CString) (msg : Msg) :
    let r := logeItemBin env loge buf bufsize level tags msg file line
    (List.range r.2).map r.1.byte = wire env loge bufsize level tags msg file line := by
  intro r
  by_cases hen : loge.enabled = 0
  · have hsize : r.2 = 0 := logeItemBin_disabled hen env buf bufsize level line tags file msg
    rw [hsize, wire, if_pos hen]
    rfl
  · have hcarries := logeItemBin_carries h.wf hen env buf hbuf level line tags file msg
    rw [wire, if_neg hen]
    cases hc : msg.carried (msgRoom loge bufsize tags file) with
    | none =>
      rw [hc] at hcarries
      rw [show r.2 = 0 from hcarries]
      rfl
    | some m =>
      rw [hc] at hcarries
      exact Carries.map_range h.wf hcarries

/-- The three bytes `abc` in a buffer full of `0xff`. -/
theorem logeItemBin_eq_wire_abc :
    let msg : Msg := .binary (some fun i => .ofNat (0x61 + i)) 3 (by decide)
    let r := logeItemBin ⟨0, 0⟩ defaultLoge (fun _ => 0xff) 284 0 none msg none 7
    (List.range r.2).map r.1.byte = wire ⟨0, 0⟩ defaultLoge 284 0 none msg none 7 :=
  logeItemBin_eq_wire reachable_defaultLoge _ _ (by decide) _ _ _ _ _

/-! ## The receiver -/

/-- What a log says: the item that the bytes of `loge_item_bin` are read as where they arrive, if
anything is sent. Its strings are cut as there, a binary message ends for the reader at its first NUL,
and where name and tags leave no room for the file the message is read in its place as well. -/
def entry (env : Env) (loge : LogeT) (bufsize : ℕ) (level : Int32) (tags : Option CString)
    (msg : Msg) (file : Option CString) (line : Int32) : Option Item :=
  if loge.enabled = 0 then none
  else (msg.carried (msgRoom loge bufsize tags file)).map fun m =>
    packedItem env loge level tags file line (m.takeWhile (· ≠ 0)) m.length

/-- What the receiver finds in the bytes of a log: nothing in no bytes, else what the log says. -/
theorem entry_wire (h : loge.Reachable) (env : Env) {bufsize : ℕ} (hbuf : 284 ≤ bufsize)
    (level line : Int32) (tags file : Option CString) (msg : Msg) :
    let bytes := wire env loge bufsize level tags msg file line
    (if bytes = [] then none else readItem (fun i => bytes.getD i 0) bytes.length)
      = entry env loge bufsize level tags msg file line := by
  intro bytes
  by_cases hen : loge.enabled = 0
  · have hnil : bytes = [] := if_pos hen
    rw [if_pos hnil, entry, if_pos hen]
  have hcarries := logeItemBin_carries h.wf hen env (fun _ => 0) hbuf level line tags file msg
  have hwire := logeItemBin_eq_wire h env (fun _ => 0) hbuf level line tags file msg
  set r := logeItemBin env loge (fun _ => 0) bufsize level tags msg file line with hr
  have hbytes : bytes = (List.range r.2).map r.1.byte := hwire.symm
  rw [entry, if_neg hen, hbytes]
  cases hc : msg.carried (msgRoom loge bufsize tags file) with
  | none =>
    rw [hc] at hcarries
    rw [show r.2 = 0 from hcarries]
    rfl
  | some m =>
    rw [hc] at hcarries
    have hread := Carries.readItem h.wf hcarries
    have hsize : 28 ≤ r.2 := by
      rw [Carries.size hcarries]
      omega
    have hlength : ((List.range r.2).map r.1.byte).length = r.2 := by simp
    have hcongr : readItem (fun i => ((List.range r.2).map r.1.byte).getD i 0) r.2
        = readItem r.1.byte r.2 := readItem_congr hsize fun j hj => by simp [hj]
    rw [if_neg (List.ne_nil_of_length_pos (by omega)), hlength, hcongr, hread]
    rfl

end Uvx.Loge
