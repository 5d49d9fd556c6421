import Uvx.Log.Defs
import Uvx.Loge.Binary

/-!
# The datagrams of a logger

A logger sends what it has serialized, and it sends as well when nothing was serialized: then the
datagram is empty. So the datagrams are the serialized items, one for each and in order, exactly when
every call serializes its log (`datagrams_are_items`).
-/

namespace Uvx.Log

open Net Loge Send Bytes

variable {xlog : UvxLogT} {s : State} {e : Event} {es : List Event}

/-- A complete item: the receiver finds its strings inside the datagram, which ends with the NUL of
the message. -/
def IsItem (d : List UInt8) : Prop :=
  sizeofItem ≤ d.length ∧ ∃ it, readItem (fun i => d.getD i 0) d.length = some it ∧
    it.version = 1 ∧ it.magic1 = 0x4c ∧ it.magic2 = 0xaf ∧
    (∀ off ∈ [it.nameOffset, it.tagsOffset, it.fileOffset, it.msgOffset],
      it.extraOffset + off < d.length) ∧
    d.length = it.extraOffset + it.msgOffset + it.msgLen + 1

/-- What a call to send has `loge_item` or `loge_item_bin` serialize. -/
def serialized (xlog : UvxLogT) : Event → Option (Out × ℕ)
  | .enable _ => none
  | .send ctx level tags msg file line =>
    some (logeItem ctx.env xlog.loge ctx.buf maxBuf level tags msg file line)
  | .sendBin ctx level tags msg file line =>
    some (logeItemBin ctx.env xlog.loge ctx.buf maxBuf level tags msg file line)

/-- The item of a call, if the size returned is not 0. -/
def itemOf (xlog : UvxLogT) (e : Event) : Option (List UInt8) :=
  (serialized xlog e).bind fun r => if r.2 = 0 then none else some (bytes r.1 r.2)

/-- The items of the calls made from `s` on. -/
def items (s : State) : List Event → List (List UInt8)
  | [] => []
  | e :: es => (itemOf s.xlog e).toList ++ items (handle e s) es

/-- Every datagram is an item, and the datagrams are the items of the calls, in order. -/
structure Logged (s : State) (es : List Event) : Prop where
  inOrder : (run es s).net.datagrams.map Prod.snd = items s es
  isItem : ∀ d ∈ (run es s).net.datagrams, IsItem d.2

/-- The call serializes its log: the log is enabled, and a binary message fits behind the other
strings. -/
def Serializes (xlog : UvxLogT) : Event → Prop
  | .enable _ => True
  | .sendBin _ _ tags (.binary (some _) msglen _) file _ =>
    xlog.loge.enabled ≠ 0 ∧ msgStart xlog.loge tags file + msglen + 1 ≤ maxBuf - sizeofItem
  | .send .. | .sendBin .. => xlog.loge.enabled ≠ 0

/-- Each of the calls made from `s` on serializes its log. -/
def AllSerialize (s : State) : List Event → Prop
  | [] => True
  | e :: es => Serializes s.xlog e ∧ AllSerialize (handle e s) es

/-! ## Items -/

@[simp] theorem length_bytes (o : Out) (size : ℕ) : (bytes o size).length = size := by
  simp [bytes]

theorem getD_bytes {o : Out} {size i : ℕ} (hi : i < size) :
    (bytes o size).getD i 0 = o.byte i := by
  simp [bytes, hi]

/-- An item made by the serializer is one, whatever its message is. -/
theorem isItem_of_framed {loge : LogeT} (h : loge.WF) {env : Env} {level line : Int32}
    {tags file : Option CString} {o : Out} {size msgLen : ℕ} {msgText : List UInt8}
    (hframed : Framed env loge level line tags file o.byte)
    (hmsg : HasStr o.byte (28 + msgStart loge tags file) msgText) (hnonzero : 0 ∉ msgText)
    (hmsgLen : readLE o.byte 24 2 = msgLen) (hle : msgText.length ≤ msgLen)
    (hsize : size = 28 + msgStart loge tags file + msgLen + 1) : IsItem (bytes o size) := by
  have hread := readItem_of_framed h hframed hmsg hnonzero
    (show 28 + msgStart loge tags file + msgText.length + 1 ≤ size from by omega)
  have htf := h.tagsStart_lt tags
  have hfm := fileStart_le_msgStart loge tags file
  rw [hmsgLen] at hread
  rw [IsItem, length_bytes, readItem_congr (by omega) fun j hj => getD_bytes hj]
  refine ⟨by rw [sizeofItem]; omega, _, hread, rfl, rfl, rfl, ?_, hsize⟩
  intro off hoff
  simp only [packedItem, List.mem_cons, List.not_mem_nil, or_false] at hoff
  show 28 + off < size
  omega

theorem isItem_text (h : xlog.loge.WF) (hen : xlog.loge.enabled ≠ 0) (ctx : Context)
    (level line : Int32) (tags msg file : Option CString) :
    let r := logeItem ctx.env xlog.loge ctx.buf maxBuf level tags msg file line
    r.2 ≠ 0 ∧ IsItem (bytes r.1 r.2) := by
  intro r
  obtain ⟨o, hpacked, hframe, hmsg, hmsgLen, hsize⟩ :=
    logeItem_spec h hen ctx.env ctx.buf (show 284 ≤ maxBuf from by decide) level tags msg
      file line
  refine ⟨?_, isItem_of_framed h (hpacked.framed h hframe) hmsg (kept_nonzero _ _) hmsgLen
    (Nat.le_refl _) hsize⟩
  rw [hsize]
  exact Nat.succ_ne_zero _

/-- The message of a binary item reads up to its first NUL. -/
theorem hasStr_takeWhile {byte data : ℕ → UInt8} {i n : ℕ} (h : ∀ k < n, byte (i + k) = data k)
    (hnul : byte (i + n) = 0) :
    HasStr byte i (((List.range n).map data).takeWhile (· ≠ 0)) := by
  set l := (List.range n).map data with hl
  have hlen : l.length = n := by simp [hl]
  rw [List.takeWhile_eq_take_findIdx_not]
  set k₀ := l.findIdx fun a => !decide (a ≠ 0) with hk₀
  have hle : k₀ ≤ n := hlen ▸ List.findIdx_le_length
  refine ⟨?_, ?_⟩
  · intro k hk
    rw [List.length_take] at hk
    rw [List.getElem_take, h k (by omega)]
    simp [hl]
  · rw [List.length_take, hlen, Nat.min_eq_left hle]
    rcases Nat.eq_or_lt_of_le hle with heq | hlt
    · rw [heq, hnul]
    · -- the scan has met a NUL of the message
      have hlt' : k₀ < l.length := hlen.symm ▸ hlt
      have hstop : (!decide (l[k₀] ≠ 0)) = true := List.findIdx_getElem (w := hlt')
      have hget : l[k₀] = data k₀ := by simp only [hl, List.getElem_map, List.getElem_range]
      rw [hget] at hstop
      rw [h k₀ hlt]
      simpa using hstop

theorem isItem_binary (h : xlog.loge.WF) (hen : xlog.loge.enabled ≠ 0) (ctx : Context)
    (level line : Int32) (tags file : Option CString) (data : ℕ → UInt8) {msglen : ℕ}
    (hlen : msglen < 2 ^ 32 - 1) :
    let r := logeItemBin ctx.env xlog.loge ctx.buf maxBuf level tags
      (.binary (some data) msglen hlen) file line
    (r.2 ≠ 0 ↔ msgStart xlog.loge tags file + msglen + 1 ≤ maxBuf - sizeofItem) ∧
      (r.2 ≠ 0 → IsItem (bytes r.1 r.2)) := by
  intro r
  have hr : Binary _ _ _ data msglen r := logeItemBin_spec h hen ctx.env ctx.buf
    (show 284 ≤ maxBuf from by decide) level line tags file data hlen
  have hms := h.msgStart_le tags file
  obtain ⟨hpacked, -⟩ :=
    packNames_spec h (fillHeader ctx.env xlog.loge ⟨⟨ctx.buf, []⟩, []⟩ level line) tags file
  refine ⟨?_, ?_⟩
  · rw [hr.size_ne_zero_iff, msgRoom, Nat.min_self, Nat.sub_add_eq, maxBuf, sizeofItem]
    omega
  · intro hne
    have hfits := hr.size_ne_zero_iff.mp hne
    refine isItem_of_framed h (hpacked.framed h hr.frame)
      (hasStr_takeWhile (hr.msg hfits) (hr.nul hfits)) (fun h0 => ?_) (hr.msgLen hfits) ?_
      (by rw [hr.size, if_pos hfits])
    · simpa using List.mem_takeWhile_imp h0
    · exact (List.takeWhile_prefix _).length_le.trans (by simp)

/-! ## Calls -/

theorem reachable_handle (h : s.xlog.loge.Reachable) (e : Event) :
    (handle e s).xlog.loge.Reachable := by
  cases e with
  | enable enabled => exact .enable h enabled
  | send | sendBin => exact h

/-- A call hands over what it has serialized, even if this is nothing. -/
theorem datagrams_handle (e : Event) (s : State) :
    (handle e s).net.datagrams.map Prod.snd =
      s.net.datagrams.map Prod.snd ++ ((serialized s.xlog e).map fun r => bytes r.1 r.2).toList := by
  have hsend : ∀ status addr data, (uvxUdpSendToAddr s.xlog.xudp addr data status s.net).1.datagrams
      = s.net.datagrams ++ [(addr, data)] := by
    intro status addr data
    simp only [uvxUdpSendToAddr, uvUdpSend]
    split
    · rfl
    · rfl
  cases e with
  | enable enabled => simp [handle, serialized]
  | send ctx level tags msg file line =>
    show (uvxUdpSendToAddr _ _ _ _ s.net).1.datagrams.map Prod.snd = _
    rw [hsend, List.map_append]
    rfl
  | sendBin ctx level tags msg file line =>
    show (uvxUdpSendToAddr _ _ _ _ s.net).1.datagrams.map Prod.snd = _
    rw [hsend, List.map_append]
    rfl

/-- What the serializer returns to a call: an item exactly if the call serializes its log. -/
theorem serialized_spec (h : xlog.loge.Reachable) {r : Out × ℕ} (hr : serialized xlog e = some r) :
    (r.2 ≠ 0 ↔ Serializes xlog e) ∧ (r.2 ≠ 0 → IsItem (bytes r.1 r.2)) := by
  by_cases hen : xlog.loge.enabled = 0
  · -- nothing is serialized, and the call does not count
    have hzero : r.2 = 0 := by
      cases e with
      | enable => exact absurd hr (by simp [serialized])
      | send | sendBin =>
        obtain rfl := Option.some_inj.mp hr
        exact logeItemBin_disabled hen ..
    refine ⟨iff_of_false (fun hne => hne hzero) ?_, fun hne => absurd hzero hne⟩
    intro hser
    cases e with
    | enable => exact absurd hr (by simp [serialized])
    | send => exact hser hen
    | sendBin ctx level tags msg file line =>
      rcases msg with msg | ⟨_ | data, msglen, hlen⟩
      · exact hser hen
      · exact hser hen
      · exact hser.1 hen
  · cases e with
    | enable => exact absurd hr (by simp [serialized])
    | send ctx level tags msg file line =>
      obtain rfl := Option.some_inj.mp hr
      obtain ⟨hne, hitem⟩ := isItem_text h.wf hen ctx level line tags msg file
      exact ⟨iff_of_true hne hen, fun _ => hitem⟩
    | sendBin ctx level tags msg file line =>
      obtain rfl := Option.some_inj.mp hr
      rcases msg with msg | ⟨_ | data, msglen, hlen⟩
      · obtain ⟨hne, hitem⟩ := isItem_text h.wf hen ctx level line tags msg file
        exact ⟨iff_of_true hne hen, fun _ => hitem⟩
      · obtain ⟨hne, hitem⟩ := isItem_text h.wf hen ctx level line tags none file
        rw [logeItemBin_null]
        exact ⟨iff_of_true hne hen, fun _ => hitem⟩
      · obtain ⟨hne, hitem⟩ := isItem_binary h.wf hen ctx level line tags file data hlen
        exact ⟨hne.trans ⟨fun hfits => ⟨hen, hfits⟩, fun hser => hser.2⟩, hitem⟩

/-! ## Runs -/

/-- What the calls made from `s` on hand over. -/
def sent (s : State) : List Event → List (List UInt8)
  | [] => []
  | e :: es => ((serialized s.xlog e).map fun r => bytes r.1 r.2).toList ++ sent (handle e s) es

theorem datagrams_run (es : List Event) (s : State) :
    (run es s).net.datagrams.map Prod.snd = s.net.datagrams.map Prod.snd ++ sent s es := by
  induction es generalizing s with
  | nil => simp [run, sent]
  | cons e es ih =>
    show (run es (handle e s)).net.datagrams.map Prod.snd = _
    rw [ih, datagrams_handle, List.append_assoc]
    rfl

/-- An empty datagram is no item. -/
theorem not_isItem_nil : ¬ IsItem [] := fun h => absurd h.1 (by decide)

/-- Each of the calls serializes its log if the datagrams handed over are items. -/
theorem allSerialize_of_isItem (h : s.xlog.loge.Reachable) (hitem : ∀ d ∈ sent s es, IsItem d) :
    AllSerialize s es := by
  induction es generalizing s with
  | nil => trivial
  | cons e es ih =>
    rw [sent, List.forall_mem_append] at hitem
    refine ⟨?_, ih (reachable_handle h e) hitem.2⟩
    cases hser : serialized s.xlog e with
    | none =>
      cases e with
      | enable => trivial
      | send | sendBin => exact absurd hser (by simp [serialized])
    | some r =>
      refine (serialized_spec h hser).1.mp ?_
      intro hzero
      have hd := hitem.1 (bytes r.1 r.2) (by simp [hser])
      rw [hzero] at hd
      exact not_isItem_nil hd

/-- If each call serializes its log, the items are handed over and nothing else. -/
theorem sent_eq_items (h : s.xlog.loge.Reachable) (hall : AllSerialize s es) :
    sent s es = items s es ∧ ∀ d ∈ sent s es, IsItem d := by
  induction es generalizing s with
  | nil => exact ⟨rfl, fun d hd => absurd hd List.not_mem_nil⟩
  | cons e es ih =>
    obtain ⟨heq, hitem⟩ := ih (reachable_handle h e) hall.2
    rw [sent, items, heq, List.forall_mem_append, itemOf]
    cases hser : serialized s.xlog e with
    | none => exact ⟨rfl, fun d hd => absurd hd List.not_mem_nil, heq ▸ hitem⟩
    | some r =>
      obtain ⟨hne, hspec⟩ := serialized_spec h hser
      have hsize := hne.mpr hall.1
      refine ⟨?_, ?_, heq ▸ hitem⟩
      · rw [Option.bind_some, if_neg hsize]
        rfl
      · intro d hd
        obtain rfl : d = bytes r.1 r.2 := by simpa using hd
        exact hspec hsize

/-- A logger after `uvx_log_init`. -/
def start (uv : AddrParser) (xudp : Ptr) (loge : LogeT) (ip : List UInt8) (port : ℤ)
    (name : Option CString) (pid : Int32) : State :=
  ⟨uvxLogInit uv xudp loge ip port name pid, .init⟩

/-- **The datagrams are the items of the calls exactly when every call serializes its log.** -/
theorem datagrams_are_items (uv : AddrParser) (xudp : Ptr) (loge : LogeT) (ip : List UInt8)
    (port : ℤ) (name : Option CString) (pid : Int32) (es : List Event) :
    Logged (start uv xudp loge ip port name pid) es ↔
      AllSerialize (start uv xudp loge ip port name pid) es := by
  set s := start uv xudp loge ip port name pid with hs
  have h : s.xlog.loge.Reachable := .init loge name pid
  have hrun : (run es s).net.datagrams.map Prod.snd = sent s es := by
    rw [datagrams_run, hs]
    rfl
  have hitems : (∀ d ∈ (run es s).net.datagrams, IsItem d.2) ↔ ∀ d ∈ sent s es, IsItem d := by
    rw [← hrun, List.forall_mem_map]
  constructor
  · intro hlog
    exact allSerialize_of_isItem h (hitems.mp hlog.isItem)
  · intro hall
    obtain ⟨heq, hitem⟩ := sent_eq_items h hall
    exact ⟨hrun.trans heq, hitems.mpr hitem⟩

/-- A log sent while logging is disabled becomes an empty datagram. -/
theorem not_logged_disabled :
    let s := start plainParser 9 ⟨.replicate 16 0, 0, 0, 0⟩ [] 8004 none 1
    let es : List Event := [.enable 0, .send ⟨⟨0, 0⟩, fun _ => 0, 0⟩ 0 none none none 7]
    (run es s).net.datagrams = [(⟨false, [], 8004⟩, [])] ∧ items s es = [] ∧ ¬ Logged s es := by
  intro s es
  have hd : (run es s).net.datagrams = [(⟨false, [], 8004⟩, [])] := by rfl
  refine ⟨hd, by rfl, ?_⟩
  intro hlog
  exact not_isItem_nil (hlog.isItem _ (by rw [hd]; exact List.mem_singleton.mpr rfl))

end Uvx.Log
