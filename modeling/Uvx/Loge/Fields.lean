import Uvx.Loge.TextItem

/-!
# Round trip and separation of the fields

When name, tags and file fit in the 255 bytes in front of the message, the receiver reads back what
was packed (`readItem_logeItem_of_fits`). In general the four strings stay apart exactly when the tags
leave room for the file (`fieldsSeparate_iff`).
-/

namespace Uvx.Loge

open Bytes

theorem kept_isPrefix (s : Option CString) (m : ℕ) : kept s m <+: textOf s :=
  List.take_prefix _ _

theorem kept_of_fits {s : Option CString} {m : ℕ} (hm : (textOf s).length + 1 ≤ m)
    (hs : (textOf s).length + 1 < 2 ^ 32) : kept s m = textOf s := by
  rw [textOf_eq] at hm hs
  rw [kept, textOf_eq, keepLen_of_fits hm hs, CString.length, List.take_length]

theorem advance_of_fits {s : Option CString} {m : ℕ} (hm : (textOf s).length + 1 ≤ m)
    (hs : (textOf s).length + 1 < 2 ^ 32) : advance (s.getD .empty) m = (textOf s).length + 1 := by
  rw [advance_eq (by omega), ← length_kept, kept_of_fits hm hs]

/-! ## Round trip -/

/-- **Reading undoes packing** for texts whose first three fields fit in 255 bytes: all fields come
back, the message as its longest whole-character prefix that fits with its NUL. -/
theorem readItem_logeItem_of_fits {loge : LogeT} (h : loge.Reachable) (hen : loge.enabled ≠ 0)
    (env : Env) (buf : ℕ → UInt8) {bufsize : ℕ} (hbuf : 284 ≤ bufsize) {level : Int32}
    (hlevel : -128 ≤ level.toInt ∧ level.toInt ≤ 127) (line : Int32) (tags msg file : Option CString)
    (hmsg : Utf8.Valid (textOf msg)) (hlen : (textOf msg).length < 2 ^ 31)
    (hfit : (loge.nameText.length + 1) + ((textOf tags).length + 1)
      + ((textOf (shortenPath file)).length + 1) ≤ 255) :
    let r := logeItem env loge buf bufsize level tags msg file line
    ∃ it, readItem r.1.byte r.2 = some it ∧ it.name = loge.nameText ∧ it.tags = textOf tags ∧
      it.file = textOf (shortenPath file) ∧ it.level.toInt = level.toInt ∧ it.line = line ∧
      it.pid = loge.pid ∧
      Utf8.IsLongestPrefix (min bufsize maxBuf - (it.extraOffset + it.msgOffset) - 1) (textOf msg)
        it.msg ∧
      it.msgLen = it.msg.length ∧ r.2 = it.extraOffset + it.msgOffset + it.msgLen + 1 := by
  have hwf := h.wf
  obtain ⟨hread, hsize⟩ := readItem_logeItem hwf hen env buf hbuf level tags msg file line
  have hts := hwf.nameEnd_eq
  have hfs : fileStart loge tags = tagsStart loge + ((textOf tags).length + 1) := by
    rw [fileStart, advance_of_fits (by omega) (by omega)]
  have hroom := hwf.msgRoom_pos hbuf tags file
  refine ⟨_, hread, rfl, ?_, ?_, ?_, rfl, rfl, ?_, rfl, hsize⟩
  · exact kept_of_fits (by omega) (by omega)
  · simp only [textItem, packedItem]
    rw [if_pos (by omega)]
    exact kept_of_fits (by omega) (by omega)
  · exact Int32.toInt_toInt8 _ |>.trans (by
      rw [Int.bmod_eq_of_le] <;> omega)
  · exact isLongestPrefix_kept hmsg (by omega) hroom

/-- The round trip of an info message without tags from `a.c`, line 7. -/
theorem readItem_logeItem_of_fits_info :
    let msg : CString := ⟨[0xe4, 0xbd, 0xa0, 0x21], by decide⟩
    let file : CString := ⟨[0x61, 0x2e, 0x63], by decide⟩
    let r := logeItem ⟨0, 0⟩ defaultLoge (fun _ => 0) 284 0 none (some msg) (some file) 7
    ∃ it, readItem r.1.byte r.2 = some it ∧ it.name = defaultLoge.nameText ∧ it.tags = [] ∧
      it.file = textOf (shortenPath (some file)) ∧ it.level.toInt = 0 ∧ it.line = 7 ∧
      it.pid = defaultLoge.pid ∧
      Utf8.IsLongestPrefix (min 284 maxBuf - (it.extraOffset + it.msgOffset) - 1) msg.bytes it.msg ∧
      it.msgLen = it.msg.length ∧ r.2 = it.extraOffset + it.msgOffset + it.msgLen + 1 :=
  readItem_logeItem_of_fits reachable_defaultLoge (by decide) _ _ (by decide) (by decide) _ none
    (some _) (some _) ⟨['你', '!'], by decide⟩ (by decide) (by decide)

/-! ## Separation -/

/-- The bytes a string of the item occupies, its NUL included, behind the header. -/
def Item.spans (it : Item) : List (ℕ × ℕ) :=
  [(it.nameOffset, it.nameOffset + it.name.length + 1),
    (it.tagsOffset, it.tagsOffset + it.tags.length + 1),
    (it.fileOffset, it.fileOffset + it.file.length + 1),
    (it.msgOffset, it.msgOffset + it.msg.length + 1)]

/-- The four strings are terminated inside the item, occupy disjoint bytes, and each is a prefix of
what it was made from. -/
def FieldsSeparate (loge : LogeT) (tags msg file : Option CString) (r : Out × ℕ) : Prop :=
  ∃ it, readItem r.1.byte r.2 = some it ∧
    it.spans.Pairwise (fun a b => a.2 ≤ b.1 ∨ b.2 ≤ a.1) ∧
    it.name <+: loge.nameText ∧ it.tags <+: textOf tags ∧ it.file <+: textOf (shortenPath file) ∧
    it.msg <+: textOf msg

/-- Name and tags use up the whole 255-byte area: they are long enough, and the byte of the tags at
which the area ends, possibly their NUL, is a leading byte. -/
def TagsFill (loge : LogeT) (tags : Option CString) : Prop :=
  255 ≤ loge.nameText.length + (textOf tags).length + 2 ∧
    isLeadingByte ((tags.getD .empty).get (253 - loge.nameText.length)) = true

theorem fileStart_eq_iff {loge : LogeT} (h : loge.WF) {tags : Option CString}
    (htags : (textOf tags).length < 2 ^ 31) : fileStart loge tags = 255 ↔ TagsFill loge tags := by
  have hts := h.tagsStart_le
  have hnl := h.length_nameText
  have hstart : tagsStart loge = loge.nameLen + 1 := rfl
  rw [textOf_eq] at htags
  rw [TagsFill, hnl, textOf_eq]
  set s := tags.getD .empty with hs
  have hlen : s.length = s.bytes.length := rfl
  have hF := toUnsigned_succ (n := s.length) (by omega)
  rw [fileStart, ← hs, advance_eq (by omega)]
  constructor
  · intro hfull
    have hkeep : keepLen s (255 - tagsStart loge) = 253 - loge.nameLen := by omega
    have hle := keepLen_le_length s (255 - tagsStart loge)
    have hcopy : copyLen s (255 - tagsStart loge) = 254 - loge.nameLen := by
      have h₁ := rfindDown_le s.get (copyLen s (255 - tagsStart loge) - 1)
      have h₂ := copyLen_le s (255 - tagsStart loge)
      rw [← keepLen, hkeep] at h₁
      omega
    rw [keepLen, hcopy, rfindDown_eq_findGreatest] at hkeep
    refine ⟨by omega, ?_⟩
    have hspec := Nat.findGreatest_of_ne_zero hkeep (by omega)
    exact hspec
  · rintro ⟨hlong, hlead⟩
    have hcopy : copyLen s (255 - tagsStart loge) = 254 - loge.nameLen := by
      rw [copyLen, hF]; omega
    have hkeep : keepLen s (255 - tagsStart loge) = 253 - loge.nameLen := by
      rw [keepLen, hcopy, show 254 - loge.nameLen - 1 = 253 - loge.nameLen from by omega]
      exact rfindDown_of_isLeadingByte hlead
    omega

/-- Without room for the file, file and message are read at the same place. -/
theorem not_fieldsSeparate_of_full {loge : LogeT} (h : loge.WF) (hen : loge.enabled ≠ 0) (env : Env)
    (buf : ℕ → UInt8) {bufsize : ℕ} (hbuf : 284 ≤ bufsize) (level line : Int32)
    (tags msg file : Option CString) (hfull : fileStart loge tags = 255) :
    ¬ FieldsSeparate loge tags msg file
      (logeItem env loge buf bufsize level tags msg file line) := by
  obtain ⟨hread, -⟩ := readItem_logeItem h hen env buf hbuf level tags msg file line
  have hms := h.msgStart_le tags file
  have hfm := fileStart_le_msgStart loge tags file
  rintro ⟨it, hit, hspans, -⟩
  rw [hread, Option.some.injEq] at hit
  subst hit
  simp only [Item.spans, textItem, packedItem, List.pairwise_cons] at hspans
  -- both strings are at least a NUL long
  have := hspans.2.2.1 _ List.mem_cons_self
  omega

/-- With room for the file each string ends in front of the next one. -/
theorem fieldsSeparate_of_room {loge : LogeT} (h : loge.WF) (hen : loge.enabled ≠ 0) (env : Env)
    (buf : ℕ → UInt8) {bufsize : ℕ} (hbuf : 284 ≤ bufsize) (level line : Int32)
    (tags msg file : Option CString) (hlt : fileStart loge tags < 255) :
    FieldsSeparate loge tags msg file
      (logeItem env loge buf bufsize level tags msg file line) := by
  obtain ⟨hread, -⟩ := readItem_logeItem h hen env buf hbuf level tags msg file line
  have hnl := h.nameEnd_eq
  have hte := h.tagsEnd_lt tags
  have hfe := fileEnd_lt file hlt
  refine ⟨_, hread, ?_, List.prefix_rfl, kept_isPrefix _ _, ?_, kept_isPrefix _ _⟩
  · simp only [Item.spans, textItem, packedItem, if_pos hlt, List.pairwise_cons, List.mem_cons,
      List.not_mem_nil, or_false, forall_eq_or_imp, forall_eq, List.Pairwise.nil]
    refine ⟨⟨?_, ?_, ?_⟩, ⟨?_, ?_⟩, ?_, ?_⟩ <;> simp <;> omega
  · simp only [textItem, packedItem, if_pos hlt]
    exact kept_isPrefix _ _

/-- **The fields stay apart exactly when the tags do not fill the area.** -/
theorem fieldsSeparate_iff {loge : LogeT} (h : loge.Reachable) (hen : loge.enabled ≠ 0) (env : Env)
    (buf : ℕ → UInt8) {bufsize : ℕ} (hbuf : 284 ≤ bufsize) (level line : Int32)
    (tags msg file : Option CString) (htags : (textOf tags).length < 2 ^ 31) :
    FieldsSeparate loge tags msg file (logeItem env loge buf bufsize level tags msg file line) ↔
      ¬ TagsFill loge tags := by
  have hfs := h.wf.fileStart_le tags
  rw [← fileStart_eq_iff h.wf htags]
  constructor
  · intro hsep hfull
    exact not_fieldsSeparate_of_full h.wf hen env buf hbuf level line tags msg file hfull hsep
  · intro hne
    exact fieldsSeparate_of_room h.wf hen env buf hbuf level line tags msg file (by omega)

/-- Tags whose last character would end at the 255-byte limit and is left out. -/
def cutTags : CString := ⟨.replicate 248 0x61 ++ [0xe4, 0xbd, 0xa0], by decide +kernel⟩

/-- With such tags a byte is left for the file, of which the NUL remains. -/
theorem fieldsSeparate_iff_cut :
    FieldsSeparate defaultLoge (some cutTags) (some ⟨[0x6d], by decide⟩) (some ⟨[0x66], by decide⟩)
      (logeItem ⟨0, 0⟩ defaultLoge (fun _ => 0) 1024 0 (some cutTags) (some ⟨[0x6d], by decide⟩)
        (some ⟨[0x66], by decide⟩) 7) := by
  have hcut : ¬ TagsFill defaultLoge (some cutTags) := fun h => absurd h.2 (by decide +kernel)
  exact (fieldsSeparate_iff reachable_defaultLoge (by decide) _ _ (by decide) _ _ _ _ _
    (by decide +kernel)).mpr hcut

/-- 249 bytes of tags behind the name `loge` end exactly at the 255-byte limit. -/
def fullTags : CString := ⟨.replicate 249 0x61, fun h => by simpa using List.eq_of_mem_replicate h⟩

/-- With such tags the file `f` of the message `m` is read as `m`. -/
theorem not_fieldsSeparate_fullTags :
    defaultLoge.Reachable ∧ defaultLoge.enabled ≠ 0 ∧
      ¬ FieldsSeparate defaultLoge (some fullTags) (some ⟨[0x6d], by decide⟩)
        (some ⟨[0x66], by decide⟩)
        (logeItem ⟨0, 0⟩ defaultLoge (fun _ => 0) 1024 0 (some fullTags) (some ⟨[0x6d], by decide⟩)
          (some ⟨[0x66], by decide⟩) 7) := by
  have hwf := reachable_defaultLoge.wf
  have hlen : fullTags.length = 249 := List.length_replicate
  have hnl : defaultLoge.nameLen = 4 := by decide
  have hts : tagsStart defaultLoge = 5 := by rw [tagsStart, hnl]
  have hfull : fileStart defaultLoge (some fullTags) = 255 := by
    rw [fileStart, hts, Option.getD_some, advance_eq (by omega),
      keepLen_of_fits (by omega) (by omega), hlen]
  exact ⟨reachable_defaultLoge, by decide,
    not_fieldsSeparate_of_full hwf (by decide) _ _ (by decide) _ _ _ _ _ hfull⟩

end Uvx.Loge
