import Uvx.Loge.Fields

/-!
# Whole characters

`write_str` keeps the longest prefix of whole characters that fits (`writeStr_isLongestPrefix`), so
tags, file and message of an item are valid UTF-8 if they were given so. The name is cut by
`loge_name`, which does not look at characters: the item is valid UTF-8 exactly when that cut falls
between two of them (`validItem_iff`).
-/

namespace Uvx.Loge

open Bytes

/-! ## `write_str` -/

/-- A call of `write_str` leaves `text` and a NUL at `p`, stores nothing outside the area from `p` to
`e`, and returns the place behind the NUL. -/
structure Leaves (o : Out) (p e : ℕ) (text : List UInt8) (r : Out × ℕ) : Prop where
  hasStr : HasStr r.1.byte p text
  nonzero : 0 ∉ text
  stored : ∀ j ∈ r.1.stored, (p ≤ j ∧ j < e) ∨ j ∈ o.stored
  ptr : r.2 = p + text.length + 1
  ptr_le : r.2 ≤ e

/-- **`write_str` leaves a prefix of its string**, and of valid UTF-8 the longest one that is made of
whole characters and has room for its NUL. -/
theorem writeStr_isLongestPrefix (o : Out) {p e : ℕ} (str : CString) (hpe : p < e)
    (hlt : e - p < 2 ^ 31) :
    ∃ text, Leaves o p e text (writeStr o p e (some str)) ∧ text <+: str.bytes ∧
      (Utf8.Valid str.bytes → str.length < 2 ^ 31 →
        Utf8.IsLongestPrefix (e - p - 1) str.bytes text) := by
  obtain ⟨hw, hq⟩ := writeStr_spec o (some str) hpe.le hlt
  have hlen : (kept (some str) (e - p)).length = keepLen str (e - p) := length_kept _ _
  have hadv := advance_le str (e - p)
  rw [Option.getD_some, advance_eq (by omega), ← hlen, ← Nat.add_assoc] at hq
  rw [advance_eq (by omega), ← hlen] at hadv
  refine ⟨kept (some str) (e - p), ⟨hw.hasStr hpe, kept_nonzero _ _, fun j hj => ?_, hq, by omega⟩,
    kept_isPrefix (some str) _, fun hvalid hshort => ?_⟩
  · have hstore := storeLen_le str (e - p)
    rw [hw.stored, Option.getD_some] at hj
    exact hj.imp_left fun h => by omega
  · rw [CString.length] at hshort
    exact isLongestPrefix_kept (s := some str) hvalid (Nat.lt_trans (Nat.succ_lt_succ hshort)
      (by norm_num)) (by omega)

/-- Into an area of four bytes `write_str` writes `a` of `a你`. -/
theorem writeStr_isLongestPrefix_cut :
    let str : CString := ⟨[0x61, 0xe4, 0xbd, 0xa0], by decide⟩
    ∃ text, Leaves ⟨⟨fun _ => 0, []⟩, []⟩ 0 4 text
        (writeStr ⟨⟨fun _ => 0, []⟩, []⟩ 0 4 (some str)) ∧ text <+: str.bytes ∧
      Utf8.IsLongestPrefix 3 str.bytes text := by
  intro str
  obtain ⟨text, h, hpre, hlong⟩ :=
    writeStr_isLongestPrefix ⟨⟨fun _ => 0, []⟩, []⟩ str (p := 0) (e := 4) (by decide) (by decide)
  exact ⟨text, h, hpre, hlong ⟨['a', '你'], by decide⟩ (by decide)⟩

/-! ## The name -/

/-- The number of bytes of a name that `loge_name` keeps. -/
def nameCut (name : CString) : ℕ :=
  min (toUnsigned name.length) 15

/-- The loggers on which `name` is the last name set by `loge_init` or `loge_name`. -/
inductive LogeT.Named : LogeT → CString → Prop
  | init (loge : LogeT) (name : Option CString) (pid : Int32) :
      Named (logeInit loge name pid) (name.getD defaultName)
  | rename {loge : LogeT} {old : CString} (h : Named loge old) (name : CString) :
      Named (logeName loge (some name)) name
  | read {loge : LogeT} {name : CString} (h : Named loge name) : Named (logeName loge none) name
  | enable {loge : LogeT} {name : CString} (h : Named loge name) (enabled : Int32) :
      Named (logeEnable loge enabled) name

theorem LogeT.Named.reachable {loge : LogeT} {name : CString} (h : loge.Named name) :
    loge.Reachable := by
  induction h with
  | init loge name pid => exact .init loge name pid
  | rename _ name ih => exact .reinit ih (some name)
  | read _ ih => exact .reinit ih none
  | enable _ enabled ih => exact .enable ih enabled

theorem nameCut_le_length (name : CString) : nameCut name ≤ name.length := by
  simp only [nameCut, toUnsigned]
  omega

/-- What `loge_name` keeps of a name, whatever the logger held before. -/
theorem nameText_logeName (loge : LogeT) (name : CString) :
    (logeName loge (some name)).nameText = name.bytes.take (nameCut name) := by
  have hcut := nameCut_le_length name
  have hle : nameCut name ≤ 15 := Nat.min_le_right _ _
  rw [CString.length] at hcut
  rw [(LogeT.wf_logeName loge name).nameText_eq]
  simp only [logeName]
  rw [← nameCut]
  refine List.ext_getElem (by simp; omega) ?_
  intro i h₁ h₂
  have hi : i < nameCut name := by
    rw [List.length_take] at h₂
    omega
  rw [List.getElem_take, List.getElem_take, Vector.getElem_toList, Vector.getElem_ofFn,
    if_pos hi, CString.get_of_lt]

theorem LogeT.Named.nameText {loge : LogeT} {name : CString} (h : loge.Named name) :
    loge.nameText = name.bytes.take (nameCut name) := by
  induction h with
  | init loge name pid => exact nameText_logeName loge _
  | rename _ name _ => exact nameText_logeName _ name
  | read _ ih => exact ih
  | enable _ _ ih => exact ih

/-- The byte of the name at which `loge_name` cuts it, possibly its NUL, starts a character. -/
def NameWhole (name : CString) : Prop :=
  isLeadingByte (name.get (nameCut name)) = true

instance (name : CString) : Decidable (NameWhole name) :=
  inferInstanceAs (Decidable (_ = true))

/-- A name of at most 15 bytes is not cut. -/
theorem nameWhole_of_short {name : CString} (h : name.length ≤ 15) : NameWhole name := by
  have hcut : nameCut name = name.length := by
    rw [nameCut, toUnsigned_of_lt (by omega) (by omega)]
    omega
  rw [NameWhole, hcut, CString.get_of_le (Nat.le_refl _)]
  decide

theorem LogeT.Named.valid_nameText_iff {loge : LogeT} {name : CString} (h : loge.Named name)
    (hname : Utf8.Valid name.bytes) : Utf8.Valid loge.nameText ↔ NameWhole name := by
  have hcut := nameCut_le_length name
  rw [h.nameText, NameWhole]
  rcases Nat.lt_or_ge (nameCut name) name.length with hlt | hge
  · rw [isLeadingByte_iff, CString.get_of_lt hlt]
    exact hname.take_iff hlt
  · rw [CString.get_of_le hge, List.take_of_length_le hge]
    exact iff_of_true hname (by decide)

/-! ## The file -/

theorem getElem?_of_lastIndex? {c : UInt8} {l : List UInt8} {i : ℕ} (h : lastIndex? c l = some i) :
    l[i]? = some c := by
  induction l generalizing i with
  | nil => exact absurd h (by simp [lastIndex?])
  | cons a l ih =>
    rw [lastIndex?] at h
    split at h
    · next j hj =>
      obtain rfl := Option.some_inj.mp h
      exact ih hj
    · split_ifs at h with ha
      obtain rfl := Option.some_inj.mp h
      rw [List.getElem?_cons_zero, ha]

theorem get_of_strrchr {s : CString} {c : UInt8} {i : ℕ} (h : strrchr s c = some i) :
    s.get i = c := by
  rw [CString.get, List.getD_eq_getElem?_getD, getElem?_of_lastIndex? h, Option.getD_some]

theorem get_of_strrchrDown {s : CString} {c : UInt8} {n i : ℕ} (h : strrchrDown s c n = some i) :
    s.get i = c := by
  induction n with
  | zero =>
    rw [strrchrDown] at h
    split_ifs at h with h0
    obtain rfl := Option.some_inj.mp h
    exact h0
  | succ n ih =>
    rw [strrchrDown] at h
    split_ifs at h with h0
    · obtain rfl := Option.some_inj.mp h
      exact h0
    · exact ih h

/-- The loop of `shorten_path`, where `prev` finds the separator in front. -/
def walkBack (prev : ℕ → Option ℕ) : ℕ → Option ℕ → Option ℕ
  | count + 1, some (i + 1) => walkBack prev count (prev i)
  | _, last => last

theorem walkBack_zero (prev : ℕ → Option ℕ) (last : Option ℕ) : walkBack prev 0 last = last := by
  rw [walkBack]
  rintro _ _ ⟨⟩

theorem walkBack_none (prev : ℕ → Option ℕ) (count : ℕ) : walkBack prev count none = none := by
  rw [walkBack]
  rintro _ _ _ ⟨⟩

theorem walkBack_front (prev : ℕ → Option ℕ) (count : ℕ) :
    walkBack prev count (some 0) = some 0 := by
  rw [walkBack]
  rintro _ _ _ ⟨⟩

-- the equations of `shortenLoop` would have the kernel evaluate `toInt`
theorem shortenLoop_eq_walkBack (file : CString) (slash : UInt8) :
    shortenLoop file slash = walkBack fun i => strrchrFrom file (toInt i) slash := by
  delta shortenLoop walkBack
  rfl

/-- The loop stays on what `prev` finds. -/
theorem walkBack_mem {prev : ℕ → Option ℕ} {P : ℕ → Prop} (hprev : ∀ i j, prev i = some j → P j)
    {count : ℕ} {last : Option ℕ} (hlast : ∀ i, last = some i → P i) {i : ℕ}
    (h : walkBack prev count last = some i) : P i := by
  fun_induction walkBack with
  | case1 count k ih => exact ih (fun j hj => hprev k j hj) h
  | case2 count last hno => exact hlast i h

theorem get_of_shortenLoop {file : CString} {slash : UInt8} {count i : ℕ}
    (h : shortenLoop file slash count (strrchr file slash) = some i) : file.get i = slash := by
  rw [shortenLoop_eq_walkBack] at h
  exact walkBack_mem (P := fun i => file.get i = slash) (fun _ _ hj => get_of_strrchrDown hj)
    (fun _ hj => get_of_strrchr hj) h

/-- `shorten_path` cuts a file name behind one of its separators, or not at all. -/
theorem shortenIndex_spec (file : CString) :
    shortenIndex file = 0 ∨
      ∃ i, shortenIndex file = i + 1 ∧ (file.get i = 47 ∨ file.get i = 92) := by
  rw [shortenIndex]
  by_cases hnone : (strrchr file 47).isNone = true
  · simp only [if_pos hnone]
    split
    · next i hi => exact Or.inr ⟨i + 1, rfl, Or.inr (get_of_shortenLoop hi)⟩
    · exact Or.inl rfl
  · simp only [if_neg hnone]
    split
    · next i hi => exact Or.inr ⟨i + 1, rfl, Or.inl (get_of_shortenLoop hi)⟩
    · exact Or.inl rfl

theorem valid_shortenPath {file : Option CString} (h : Utf8.Valid (textOf file)) :
    Utf8.Valid (textOf (shortenPath file)) := by
  rcases file with _ | file
  · exact h
  · show Utf8.Valid (file.bytes.drop (shortenIndex file))
    rcases shortenIndex_spec file with hz | ⟨i, hi, hsep⟩
    · rwa [hz]
    · rw [hi]
      have hlt : i < file.length := by
        by_contra hge
        rw [CString.get_of_le (Nat.le_of_not_lt hge)] at hsep
        exact absurd hsep (by decide)
      refine h.drop_of_ascii hlt ?_
      rw [CString.get_of_lt hlt] at hsep
      -- both separators are ASCII
      rcases hsep with hsep | hsep
      · exact lt_of_eq_of_lt hsep (by decide)
      · exact lt_of_eq_of_lt hsep (by decide)

theorem length_shortenPath_le (file : Option CString) :
    (textOf (shortenPath file)).length ≤ (textOf file).length := by
  rcases file with _ | file
  · exact Nat.le_refl _
  · show (file.bytes.drop (shortenIndex file)).length ≤ file.bytes.length
    rw [List.length_drop]
    exact Nat.sub_le _ _

/-! ## The item -/

/-- The receiver reads valid UTF-8 in all four places. -/
def ValidItem (r : Out × ℕ) : Prop :=
  ∃ it, readItem r.1.byte r.2 = some it ∧ Utf8.Valid it.name ∧ Utf8.Valid it.tags ∧
    Utf8.Valid it.file ∧ Utf8.Valid it.msg

theorem valid_kept {s : Option CString} {m : ℕ} (hs : Utf8.Valid (textOf s))
    (hlen : (textOf s).length < 2 ^ 31) (hm : 0 < m) : Utf8.Valid (kept s m) :=
  (isLongestPrefix_kept hs (by omega) hm).valid

theorem ValidItem.name {loge : LogeT} (h : loge.WF) (hen : loge.enabled ≠ 0) {env : Env}
    {buf : ℕ → UInt8} {bufsize : ℕ} (hbuf : 284 ≤ bufsize) {level line : Int32}
    {tags msg file : Option CString}
    (hvalid : ValidItem (logeItem env loge buf bufsize level tags msg file line)) :
    Utf8.Valid loge.nameText := by
  obtain ⟨hread, -⟩ := readItem_logeItem h hen env buf hbuf level tags msg file line
  obtain ⟨it, hit, hname, -⟩ := hvalid
  rw [hread, Option.some_inj] at hit
  subst hit
  exact hname

/-- **An item made from valid UTF-8 is valid UTF-8 exactly when its name is cut between two
characters.** -/
theorem validItem_iff {loge : LogeT} {name : CString} (h : loge.Named name)
    (hen : loge.enabled ≠ 0) (hname : Utf8.Valid name.bytes) (env : Env) (buf : ℕ → UInt8)
    {bufsize : ℕ} (hbuf : 284 ≤ bufsize) (level line : Int32) {tags msg file : Option CString}
    (htags : Utf8.Valid (textOf tags)) (htagsLen : (textOf tags).length < 2 ^ 31)
    (hfile : Utf8.Valid (textOf file)) (hfileLen : (textOf file).length < 2 ^ 31)
    (hmsg : Utf8.Valid (textOf msg)) (hmsgLen : (textOf msg).length < 2 ^ 31) :
    ValidItem (logeItem env loge buf bufsize level tags msg file line) ↔ NameWhole name := by
  have hwf := h.reachable.wf
  obtain ⟨hread, -⟩ := readItem_logeItem hwf hen env buf hbuf level tags msg file line
  rw [← h.valid_nameText_iff hname]
  constructor
  · intro hvalid
    exact hvalid.name hwf hen hbuf
  · intro hvalid
    have hts := hwf.tagsStart_le
    have hmsg' := valid_kept hmsg hmsgLen (hwf.msgRoom_pos hbuf tags file)
    refine ⟨_, hread, hvalid, valid_kept htags htagsLen (by omega), ?_, hmsg'⟩
    simp only [textItem, packedItem]
    split_ifs with hlt
    · exact valid_kept (valid_shortenPath hfile)
        (Nat.lt_of_le_of_lt (length_shortenPath_le file) hfileLen) (by omega)
    · exact hmsg'

/-- The logger `loge` and a message whose file lies in a directory. -/
theorem validItem_iff_default :
    let msg : CString := ⟨[0xe4, 0xbd, 0xa0], by decide⟩
    let file : CString := ⟨[0xc3, 0xa9, 0x2f, 0x61], by decide⟩
    ValidItem (logeItem ⟨0, 0⟩ defaultLoge (fun _ => 0) 284 0 none (some msg) (some file) 7) ↔
      NameWhole defaultName :=
  validItem_iff (.init _ none 1) (by decide) ⟨['l', 'o', 'g', 'e'], by decide⟩ _ _ (by decide) _ _
    .nil (by decide) ⟨['é', '/', 'a'], by decide⟩ (by decide) ⟨['你'], by decide⟩ (by decide)

/-- The name `aaaaaaaaaaaaaaé` has 16 bytes and is cut inside its last character. -/
theorem not_validItem_longName :
    let name : CString := ⟨.replicate 14 0x61 ++ [0xc3, 0xa9], by decide⟩
    let loge := logeInit ⟨.replicate 16 0, 0, 0, 0⟩ (some name) 1
    loge.Named name ∧ loge.enabled ≠ 0 ∧ Utf8.Valid name.bytes ∧
      ¬ ValidItem (logeItem ⟨0, 0⟩ loge (fun _ => 0) 1024 0 none none none 7) := by
  intro name loge
  have hnamed : loge.Named name := .init _ (some name) 1
  have hvalid : Utf8.Valid name.bytes := ⟨.replicate 14 'a' ++ ['é'], by decide⟩
  refine ⟨hnamed, by decide, hvalid, ?_⟩
  intro hitem
  have htext := hitem.name hnamed.reachable.wf (by decide) (by decide)
  exact absurd ((hnamed.valid_nameText_iff hvalid).mp htext) (by decide)

end Uvx.Loge
