import Uvx.Loge.TextItem

/-!
# Binary messages

A binary message is carried whole or not at all (`logeItemBin_whole_or_none`): there is an item
exactly when the message and a NUL fit behind the other strings, and no byte of the item comes from
the memory behind the message.
-/

namespace Uvx.Loge

open Bytes

/-- The effect of `loge_item_bin` on a binary message: behind the packed strings stands the message
with its NUL, or there is no item. -/
structure Binary (o : Out) (start room : ℕ) (data : ℕ → UInt8) (msglen : ℕ) (r : Out × ℕ) : Prop where
  frame : ∀ j, j < start → j ≠ 24 → j ≠ 25 → r.1.byte j = o.byte j
  size : r.2 = if msglen + 1 ≤ room then start + msglen + 1 else 0
  msg : msglen + 1 ≤ room → ∀ k < msglen, r.1.byte (start + k) = data k
  nul : msglen + 1 ≤ room → r.1.byte (start + msglen) = 0
  msgLen : msglen + 1 ≤ room → readLE r.1.byte 24 2 = msglen

theorem logeItemBin_spec {loge : LogeT} (h : loge.WF) (hen : loge.enabled ≠ 0) (env : Env)
    (buf : ℕ → UInt8) {bufsize : ℕ} (hbuf : 284 ≤ bufsize) (level line : Int32)
    (tags file : Option CString) (data : ℕ → UInt8) {msglen : ℕ} (hlen : msglen < 2 ^ 32 - 1) :
    Binary (packNames loge (fillHeader env loge ⟨⟨buf, []⟩, []⟩ level line) tags file).1
      (28 + msgStart loge tags file) (msgRoom loge bufsize tags file) data msglen
      (logeItemBin env loge buf bufsize level tags (.binary (some data) msglen hlen) file line) := by
  have hms := h.msgStart_le tags file
  have hmax : 284 ≤ min bufsize maxBuf ∧ min bufsize maxBuf ≤ 1024 := by
    rw [maxBuf]; omega
  obtain ⟨hpacked, hp⟩ := packNames_spec h (fillHeader env loge ⟨⟨buf, []⟩, []⟩ level line) tags file
  set o := (packNames loge (fillHeader env loge ⟨⟨buf, []⟩, []⟩ level line) tags file).1 with ho
  set start := 28 + msgStart loge tags file
  have hroom : min bufsize maxBuf - start = msgRoom loge bufsize tags file := rfl
  obtain ⟨hframe, -, -, hret⟩ := writeBin_spec o (p := start) (e := min bufsize maxBuf) data
    (by omega) (by omega) hlen
  have hbytes : msglen + 1 ≤ min bufsize maxBuf - start → _ :=
    byte_writeBin_of_fits o (p := start) (e := min bufsize maxBuf) data (by omega)
  rw [hroom] at hret hbytes
  set oM := (writeBin o start (min bufsize maxBuf) (some data) msglen).1 with hoM
  have hw : writeBin o start (min bufsize maxBuf) (some data) msglen = (oM,
      if msgRoom loge bufsize tags file < msglen + 1 then none else some (start + (msglen + 1))) :=
    Prod.ext rfl hret
  by_cases hfits : msglen + 1 ≤ msgRoom loge bufsize tags file
  · obtain ⟨hmsg, hnul⟩ := hbytes hfits
    have hoff : (oM.byte 23).toNat = msgStart loge tags file := by
      rw [hframe 23 (by omega), hpacked.msgOffset]
    have hr : logeItemBin env loge buf bufsize level tags (.binary (some data) msglen hlen) file line
        = finishItem oM (start + msglen + 1) := by
      simp only [logeItemBin, if_neg hen, hp, ← ho, hw, if_neg (Nat.not_lt.mpr hfits),
        Nat.add_assoc]
    -- the message is shorter than the buffer, so `msg_len` holds its length
    have hfin : Finished oM start msglen (finishItem oM (start + msglen + 1)) :=
      finishItem_spec hoff (by omega)
    rw [hr]
    refine ⟨?_, ?_, ?_, ?_, fun _ => hfin.msgLen⟩
    · intro j hj h24 h25
      rw [hfin.frame j h24 h25, hframe j hj]
    · rw [hfin.size, if_pos hfits]
    · intro _ k hk
      rw [hfin.frame _ (by omega) (by omega), hmsg k hk]
    · intro _
      rw [hfin.frame _ (by omega) (by omega), hnul]
  · have hr : logeItemBin env loge buf bufsize level tags (.binary (some data) msglen hlen) file line
        = (oM, 0) := by
      simp only [logeItemBin, if_neg hen, hp, ← ho, hw, if_pos (Nat.not_le.mp hfits)]
    rw [hr]
    exact ⟨fun j hj _ _ => hframe j hj, (if_neg hfits).symm, fun hc => absurd hc hfits,
      fun hc => absurd hc hfits, fun hc => absurd hc hfits⟩

namespace Binary

variable {o : Out} {start room msglen : ℕ} {data data' : ℕ → UInt8} {r r' : Out × ℕ}

theorem size_ne_zero_iff (h : Binary o start room data msglen r) : r.2 ≠ 0 ↔ msglen + 1 ≤ room := by
  rw [h.size]
  split_ifs with hfits
  · exact iff_of_true (Nat.succ_ne_zero _) hfits
  · exact iff_of_false (fun hc => hc rfl) hfits

/-- `readLE` of two bytes determines both. -/
theorem byte_eq_of_readLE {byte byte' : ℕ → UInt8} {i : ℕ} (h : readLE byte' i 2 = readLE byte i 2) :
    byte' i = byte i ∧ byte' (i + 1) = byte (i + 1) := by
  have h₀ := (byte i).toNat_lt
  have h₀' := (byte' i).toNat_lt
  simp only [readLE, Nat.zero_add, Nat.add_zero, pow_zero, pow_one, Nat.mul_one] at h
  exact ⟨UInt8.toNat_inj.mp (by omega), UInt8.toNat_inj.mp (by omega)⟩

/-- Two runs on messages that agree make the same item. -/
theorem congr (h : Binary o start room data msglen r) (h' : Binary o start room data' msglen r')
    (hdata : ∀ k < msglen, data' k = data k) :
    r'.2 = r.2 ∧ ∀ j < r.2, r'.1.byte j = r.1.byte j := by
  refine ⟨by rw [h'.size, h.size], ?_⟩
  intro j hj
  have hfits : msglen + 1 ≤ room := h.size_ne_zero_iff.mp (by omega)
  obtain ⟨h24, h25⟩ := byte_eq_of_readLE ((h'.msgLen hfits).trans (h.msgLen hfits).symm)
  rw [h.size, if_pos hfits] at hj
  rcases Nat.lt_or_ge j start with hlt | hge
  · by_cases hj24 : j = 24
    · rw [hj24, h24]
    · by_cases hj25 : j = 25
      · rw [hj25, h25]
      · rw [h'.frame j hlt hj24 hj25, h.frame j hlt hj24 hj25]
  · obtain ⟨k, rfl⟩ := Nat.exists_eq_add_of_le hge
    rcases Nat.lt_or_ge k msglen with hk | hk
    · rw [h'.msg hfits k hk, h.msg hfits k hk, hdata k hk]
    · obtain rfl : k = msglen := by omega
      rw [h'.nul hfits, h.nul hfits]

end Binary

theorem logeItemBin_disabled {loge : LogeT} (h : loge.enabled = 0) (env : Env) (buf : ℕ → UInt8)
    (bufsize : ℕ) (level line : Int32) (tags file : Option CString) (msg : Msg) :
    (logeItemBin env loge buf bufsize level tags msg file line).2 = 0 := by
  rw [logeItemBin, if_pos h]

/-- A null message is written like an empty text. -/
theorem logeItemBin_null (env : Env) (loge : LogeT) (buf : ℕ → UInt8) (bufsize : ℕ)
    (level line : Int32) (tags file : Option CString) (msglen : ℕ) (h : msglen < 2 ^ 32 - 1) :
    logeItemBin env loge buf bufsize level tags (.binary none msglen h) file line
      = logeItem env loge buf bufsize level tags none file line := by
  simp only [logeItem, logeItemBin]
  split_ifs
  · rfl
  · simp only [writeBin, writeStr]
    split_ifs
    · rfl
    · rfl

/-- **A binary message is carried whole or not at all.** -/
theorem logeItemBin_whole_or_none {loge : LogeT} (h : loge.Reachable) (hen : loge.enabled ≠ 0)
    (env : Env) (buf : ℕ → UInt8) {bufsize : ℕ} (hbuf : 284 ≤ bufsize) (level line : Int32)
    (tags file : Option CString) (data : ℕ → UInt8) {msglen : ℕ} (hlen : msglen < 2 ^ 32 - 1) :
    let item (data : ℕ → UInt8) :=
      logeItemBin env loge buf bufsize level tags (.binary (some data) msglen hlen) file line
    let r := item data
    let extra := (r.1.byte 26).toNat
    let msgOffset := (r.1.byte 23).toNat
    (r.2 ≠ 0 ↔ msgOffset + msglen + 1 ≤ min bufsize maxBuf - extra) ∧
      (r.2 ≠ 0 → (∀ k < msglen, r.1.byte (extra + msgOffset + k) = data k) ∧
        r.1.byte (extra + msgOffset + msglen) = 0 ∧ readLE r.1.byte 24 2 = msglen ∧
        r.2 = extra + msgOffset + msglen + 1) ∧
      ∀ data', (∀ k < msglen, data' k = data k) →
        (item data').2 = r.2 ∧ ∀ j < r.2, (item data').1.byte j = r.1.byte j := by
  intro item r extra msgOffset
  have hbin : ∀ data, Binary _ (28 + msgStart loge tags file) (msgRoom loge bufsize tags file) data
      msglen (item data) := fun data =>
    logeItemBin_spec h.wf hen env buf hbuf level line tags file data hlen
  have hr : Binary _ _ _ data msglen r := hbin data
  have hms := h.wf.msgStart_le tags file
  obtain ⟨hpacked, -⟩ :=
    packNames_spec h.wf (fillHeader env loge ⟨⟨buf, []⟩, []⟩ level line) tags file
  have hframed := hpacked.framed h.wf hr.frame
  have hextra : extra = 28 := hframed.header.extraOffset
  have hoff : msgOffset = msgStart loge tags file := hframed.msgOffset
  have hroom : msgRoom loge bufsize tags file
      = min bufsize maxBuf - 28 - msgStart loge tags file := by
    rw [msgRoom, sizeofItem, Nat.sub_sub]
  have hmax : 284 ≤ min bufsize maxBuf := by
    rw [maxBuf]; omega
  rw [hextra, hoff]
  refine ⟨?_, ?_, fun data' hdata => hr.congr (hbin data') hdata⟩
  · rw [hr.size_ne_zero_iff, hroom]
    omega
  · intro hne
    have hfits := hr.size_ne_zero_iff.mp hne
    refine ⟨hr.msg hfits, hr.nul hfits, hr.msgLen hfits, ?_⟩
    rw [hr.size, if_pos hfits]

/-- Three bytes with a NUL among them are carried whole. -/
theorem logeItemBin_whole_or_none_three :
    let data : ℕ → UInt8 := fun k => if k = 1 then 0 else 0xff
    let r := logeItemBin ⟨0, 0⟩ defaultLoge (fun _ => 0) 284 0 none
      (.binary (some data) 3 (by norm_num)) none 7
    r.2 ≠ 0 ↔ (r.1.byte 23).toNat + 3 + 1 ≤ min 284 maxBuf - (r.1.byte 26).toNat :=
  (logeItemBin_whole_or_none reachable_defaultLoge (by decide) _ _ (by decide) _ _ none none _
    (by norm_num)).1

end Uvx.Loge
