import Uvx.Log.Defs
import Uvx.Loge.Format

/-!
# What a logger sends

A logger sends the `wire` form of its log. The macro `UVX_LOG` cuts the formatted text at 1023 bytes,
which may split a character; but an item has room for less, so the cut is never seen
(`uvxLog_eq_uvxLogSend`).
-/

namespace Uvx.Log

open Net Loge Send

variable {xlog : UvxLogT} {level line : Int32} {tags file : Option CString}

/-! ## Sending -/

theorem uvxLogSendBin_eq (h : xlog.loge.Reachable) (ctx : Context) (level line : Int32)
    (tags file : Option CString) (msg : Msg) (s : Send.State) :
    uvxLogSendBin ctx xlog level tags msg file line s
      = uvxUdpSendToAddr xlog.xudp xlog.targetAddr
        (wire ctx.env xlog.loge maxBuf level tags msg file line) ctx.status s := by
  have hwire := logeItemBin_eq_wire h ctx.env ctx.buf (show 284 ≤ maxBuf by decide) level line tags
    file msg
  rw [← hwire]
  rfl

theorem uvxLogSend_eq (h : xlog.loge.Reachable) (ctx : Context) (level line : Int32)
    (tags msg file : Option CString) (s : Send.State) :
    uvxLogSend ctx xlog level tags msg file line s
      = uvxUdpSendToAddr xlog.xudp xlog.targetAddr
        (wire ctx.env xlog.loge maxBuf level tags (.text msg) file line) ctx.status s :=
  uvxLogSendBin_eq h ctx level line tags file (.text msg) s

/-! ## The cut of `snprintf` -/

/-- What is kept of a string depends on its first `m` bytes, and on whether there are more. -/
theorem kept_snprintf {text : CString} {size m : ℕ} (hm : m < size) (hlen : text.length + 1 < 2 ^ 32) :
    kept (some (snprintf size text)) m = kept (some text) m := by
  by_cases hshort : text.bytes.length ≤ size - 1
  · -- nothing is cut
    have heq : snprintf size text = text := by
      cases text
      simp only [snprintf, CString.mk.injEq]
      exact List.take_of_length_le hshort
    rw [heq]
  have hcut : (snprintf size text).length = size - 1 := by
    rw [CString.length, snprintf, List.length_take]
    omega
  have hlength : text.length = text.bytes.length := rfl
  have hcopy : copyLen (snprintf size text) m = m ∧ copyLen text m = m := by
    rw [copyLen, copyLen, hcut, toUnsigned_succ (by omega), toUnsigned_succ hlen]
    omega
  have hkeep : keepLen (snprintf size text) m = keepLen text m := by
    rw [keepLen, keepLen, hcopy.1, hcopy.2]
    rcases Nat.eq_zero_or_pos m with rfl | hpos
    · rfl
    · refine rfindDown_congr ?_
      intro i hi
      rw [CString.get, CString.get, snprintf, List.getD_eq_getElem?_getD,
        List.getElem?_take_of_lt (by omega), List.getD_eq_getElem?_getD]
  have hle : keepLen text m ≤ size - 1 := by
    have h₁ := rfindDown_le text.get (copyLen text m - 1)
    rw [hcopy.2] at h₁
    rw [keepLen, hcopy.2]
    omega
  show (text.bytes.take (size - 1)).take (keepLen (snprintf size text) m)
    = text.bytes.take (keepLen text m)
  rw [hkeep, List.take_take, Nat.min_eq_left hle]

/-- An item never has room for what `snprintf` has cut off. -/
theorem wire_snprintf {text : CString} (hlen : text.length < 2 ^ 31) (env : Env) (loge : LogeT)
    (bufsize : ℕ) :
    wire env loge bufsize level tags (.text (some (snprintf maxBuf text))) file line
      = wire env loge bufsize level tags (.text (some text)) file line := by
  have hroom : msgRoom loge bufsize tags file < maxBuf := by
    rw [msgRoom, sizeofItem, maxBuf]
    omega
  have hkept : kept (some (snprintf maxBuf text)) (msgRoom loge bufsize tags file)
      = kept (some text) (msgRoom loge bufsize tags file) := kept_snprintf hroom (by omega)
  simp only [wire, Msg.carried, hkept]

/-- **`UVX_LOG` sends the log of the whole text**, as `uvx_log_send` does. -/
theorem uvxLog_eq_uvxLogSend (h : xlog.loge.Reachable) {text : CString} (hlen : text.length < 2 ^ 31)
    (ctx : Context) (level line : Int32) (tags file : Option CString) (s : Send.State) :
    Macro.uvxLog ctx xlog level tags text file line s
      = uvxLogSend ctx xlog level tags (some text) file line s := by
  rw [Macro.uvxLog, uvxLogSend_eq h, uvxLogSend_eq h, wire_snprintf hlen]

/-- A text of 2000 bytes. -/
def longText : CString :=
  ⟨.replicate 2000 0x61, fun h => by simpa using List.eq_of_mem_replicate h⟩

theorem length_longText : longText.length < 2 ^ 31 := by
  rw [longText, CString.length, List.length_replicate]
  norm_num

theorem uvxLog_eq_uvxLogSend_longText :
    let xlog : UvxLogT := ⟨9, ⟨false, [127, 0, 0, 1], 8004⟩, defaultLoge⟩
    let ctx : Context := ⟨⟨0, 0⟩, fun _ => 0xff, 0⟩
    Macro.uvxLog ctx xlog 0 none longText none 7 .init
      = uvxLogSend ctx xlog 0 none (some longText) none 7 .init :=
  uvxLog_eq_uvxLogSend reachable_defaultLoge length_longText _ _ _ _ _ _

end Uvx.Log
