import Uvx.Automem.Number
import Uvx.Common.Attributes

/-!
# A record of fields

The four functions for fields append to one text. A reader of that text who knows which function
appended a field gets back every name, number and value.
-/

namespace Uvx.Automem

open Uvx.Loge (CString)

variable {field : ℕ → UInt8} {fresh : ℕ → ℕ → UInt8} {fresh₀ : ℕ → UInt8} {s s' : AutomemT}
  {q t : List UInt8} {fLen vLen n : UInt32} {val : CString}

/-! ## One field -/

/-- The size stays within 2^31 with a field. -/
def TextFits (s : AutomemT) (fLen : UInt32) (text : List UInt8) : Prop :=
  s.size.toNat + fLen.toNat + (text.length + 5) ≤ 2 ^ 31

theorem toNat_room (h : TextFits s fLen t) :
    (UInt32.ofNat t.length + 4).toNat = t.length + 4 := by
  rw [TextFits] at h
  have ht : (UInt32.ofNat t.length).toNat = t.length :=
    UInt32.toNat_ofNat_of_lt' (show t.length < 2 ^ 32 by omega)
  rw [UInt32.toNat_add, ht]
  exact Nat.mod_eq_of_lt (show t.length + 4 < 2 ^ 32 by omega)

theorem Holds.appendFieldInt (h : Holds s q) {v : Int32}
    (hfits : TextFits s fLen (Decimal.ofInt v.toInt)) (fresh : ℕ → ℕ → UInt8) (field : ℕ → UInt8) :
    ∃ s', automemAppendFieldInt fresh s field fLen v = .ok (s', s'.size.toInt32) ∧
      Holds s' (q ++ bytesAt field fLen ++ plain (Decimal.ofInt v.toInt)) := by
  have hroom := toNat_room hfits
  have hlt := v.toInt_lt
  have hge := v.le_toInt
  have hlength := Decimal.length_ofInt_le (z := v.toInt) (k := 10) (by decide) (by omega)
  rw [TextFits] at hfits
  rw [automemAppendFieldInt, numberText_eq (zero_notMem_ofInt _) (by omega)]
  exact h.appendQuoted hroom.ge (by omega) fresh field

theorem Holds.appendFieldUlong (h : Holds s q) {v : UInt64}
    (hfits : TextFits s fLen (Decimal.ofNat v.toNat)) (fresh : ℕ → ℕ → UInt8) (field : ℕ → UInt8) :
    ∃ s', automemAppendFieldUlong fresh s field fLen v = .ok (s', s'.size.toInt32) ∧
      Holds s' (q ++ bytesAt field fLen ++ plain (Decimal.ofNat v.toNat)) := by
  have hroom := toNat_room hfits
  have hlt := v.toNat_lt
  have hlength := Decimal.length_ofNat_le (n := v.toNat) (k := 20) (by decide) (by omega)
  rw [TextFits] at hfits
  rw [automemAppendFieldUlong, numberText_eq (zero_notMem_ofNat _) (by omega)]
  exact h.appendQuoted hroom.ge (by omega) fresh field

/-- How many bytes of the value `automem_append_field_fast` takes. -/
def fastLength (val : CString) (vLen : UInt32) : ℕ := if vLen = 0 then val.length else vLen.toNat

/-- Nothing is appended for an empty value. -/
def fastText (val : Option CString) (vLen : UInt32) : Option (List UInt8) :=
  val.bind fun val =>
    if fastLength val vLen = 0 then none else some (val.bytes.take (fastLength val vLen))

theorem Holds.appendFieldFast (h : Holds s q) (hlen : fastLength val vLen ≤ val.length)
    (hpos : fastLength val vLen ≠ 0)
    (hfits : TextFits s fLen (val.bytes.take (fastLength val vLen))) (fresh : ℕ → ℕ → UInt8)
    (field : ℕ → UInt8) :
    ∃ s', automemAppendFieldFast fresh s field fLen (some val) vLen = .ok (s', s'.size.toInt32) ∧
      Holds s' (q ++ bytesAt field fLen ++ plain (val.bytes.take (fastLength val vLen))) := by
  have htake : (val.bytes.take (fastLength val vLen)).length = fastLength val vLen :=
    List.length_take_of_le hlen
  rw [TextFits, htake] at hfits
  have hvLen : (if vLen = 0 then .ofNat val.length else vLen : UInt32).toNat =
      fastLength val vLen := by
    rw [fastLength] at hfits ⊢
    split_ifs at hfits ⊢ with hzero
    · exact UInt32.toNat_ofNat_of_lt' (show val.length < 2 ^ 32 by omega)
    · rfl
  have hread : Block.read? (val.bytes ++ [0]) 0 (fastLength val vLen) =
      some (val.bytes.take (fastLength val vLen)) := by
    rw [CString.length] at hlen
    rw [Block.read?_of_le (by rw [List.length_append, List.length_singleton]; omega), List.drop_zero,
      List.take_append_of_le_length hlen]
  rw [automemAppendFieldFast]
  generalize (if vLen = 0 then .ofNat val.length else vLen : UInt32) = x at hvLen ⊢
  have hx : x ≠ 0 := by
    rintro rfl
    exact hpos hvLen.symm
  rw [if_neg hx, hvLen, hread]
  have hroom : (x + 5).toNat = fastLength val vLen + 5 := by
    rw [UInt32.toNat_add, hvLen]
    exact Nat.mod_eq_of_lt (show fastLength val vLen + 5 < 2 ^ 32 by omega)
  exact h.appendQuoted (by rw [htake, hroom]; omega) (by omega) fresh field

theorem appendFieldFast_of_length (hzero : fastLength val vLen = 0) (fresh : ℕ → ℕ → UInt8)
    (s : AutomemT) (field : ℕ → UInt8) (fLen : UInt32) :
    automemAppendFieldFast fresh s field fLen (some val) vLen = .ok (s, s.size.toInt32) := by
  have hvLen : (if vLen = 0 then .ofNat val.length else vLen : UInt32) = 0 := by
    rw [fastLength] at hzero
    split_ifs at hzero ⊢ with hv
    · rw [hzero]
      rfl
    · exact UInt32.toNat_inj.mp hzero
  rw [automemAppendFieldFast, hvLen, if_pos rfl]
  rfl

/-! ## Calls -/

/-- The value of a field, by the function that appends it. -/
inductive Value
  | int (v : Int32)
  | ulong (v : UInt64)
  | fast (val : Option CString) (vLen : UInt32)
  | escaped (val : Option CString)

/-- A call that appends a field. -/
structure Call where
  field : ℕ → UInt8
  fLen : UInt32
  value : Value

/-- The buffer after a call. -/
def Call.run (fresh : ℕ → ℕ → UInt8) (s : AutomemT) (c : Call) : Except Fault AutomemT :=
  match c.value with
  | .int v => (automemAppendFieldInt fresh s c.field c.fLen v).map Prod.fst
  | .ulong v => (automemAppendFieldUlong fresh s c.field c.fLen v).map Prod.fst
  | .fast val vLen => (automemAppendFieldFast fresh s c.field c.fLen val vLen).map Prod.fst
  | .escaped val => (automemAppendField (fresh 0) (fresh 1) s c.field c.fLen val).map Prod.fst

def CallStep (s : AutomemT) (c : Call) (s' : AutomemT) : Prop := ∃ fresh, c.run fresh s = .ok s'

/-- What a call writes between the quotes, unless it writes nothing. -/
def Value.text : Value → Option (List UInt8)
  | .int v => some (Decimal.ofInt v.toInt)
  | .ulong v => some (Decimal.ofNat v.toNat)
  | .fast val vLen => fastText val vLen
  | .escaped val => val.map fun val => xml.encode val.bytes

/-- The value is not longer than its string, and there is room for it. -/
def Call.Fits (s : AutomemT) (c : Call) : Prop :=
  (∀ val vLen, c.value = .fast (some val) vLen → fastLength val vLen ≤ val.length) ∧
    ∀ text, c.value.text = some text → TextFits s c.fLen text

/-- `name="value" ` -/
def attributes : AttributeFormat UInt8 := ⟨61, 34, 32⟩

def Call.attribute (c : Call) : Option (List UInt8 × List UInt8) :=
  c.value.text.map fun text => (bytesAt c.field c.fLen, text)

/-- The fields that the calls append. -/
def record (calls : List Call) : List (List UInt8 × List UInt8) := calls.filterMap Call.attribute

theorem encodeOne_attributes (name text : List UInt8) :
    attributes.encodeOne (name, text) = name ++ plain text := by
  simp [AttributeFormat.encodeOne, attributes, plain]

theorem quoted_eq_plain (val : CString) : quoted val = plain (xml.encode val.bytes) := rfl

/-- A call appends its field. -/
theorem Holds.call (h : Holds s q) {c : Call} (hfits : c.Fits s) (fresh : ℕ → ℕ → UInt8) :
    ∃ s', c.run fresh s = .ok s' ∧ Holds s' (q ++ attributes.encode (record [c])) := by
  -- a call with a return value that appends a field, or none
  have happends : ∀ {x : Except Fault (AutomemT × Int32)} {text : List UInt8},
      c.value.text = some text →
      (∃ s', x = .ok (s', s'.size.toInt32) ∧ Holds s' (q ++ bytesAt c.field c.fLen ++ plain text)) →
      ∃ s', x.map Prod.fst = .ok s' ∧ Holds s' (q ++ attributes.encode (record [c])) := by
    rintro x text htext ⟨s', rfl, hs'⟩
    refine ⟨s', rfl, ?_⟩
    rw [record, List.filterMap_cons, Call.attribute, htext, AttributeFormat.encode]
    simpa only [Option.map_some, List.filterMap_nil, List.flatMap_singleton, encodeOne_attributes,
      List.append_assoc] using hs'
  have hskips : c.value.text = none →
      Holds s (q ++ attributes.encode (record [c])) := by
    intro htext
    rw [record, List.filterMap_cons, Call.attribute, htext, AttributeFormat.encode]
    simpa only [Option.map_none, List.filterMap_nil, List.flatMap_nil, List.append_nil] using h
  obtain ⟨hlen, hroom⟩ := hfits
  rw [Call.run]
  obtain ⟨field, fLen, value⟩ := c
  cases value with
  | int v => exact happends rfl (h.appendFieldInt (hroom _ rfl) fresh field)
  | ulong v => exact happends rfl (h.appendFieldUlong (hroom _ rfl) fresh field)
  | fast val? vLen =>
    cases val? with
    | none => exact ⟨s, rfl, hskips rfl⟩
    | some val =>
      by_cases hzero : fastLength val vLen = 0
      · refine ⟨s, ?_, hskips (if_pos hzero)⟩
        show (automemAppendFieldFast fresh s field fLen (some val) vLen).map Prod.fst = .ok s
        rw [appendFieldFast_of_length hzero]
        rfl
      · have htext : (Value.fast (some val) vLen).text =
            some (val.bytes.take (fastLength val vLen)) := if_neg hzero
        exact happends htext
          (h.appendFieldFast (hlen val vLen rfl) hzero (hroom _ htext) fresh field)
  | escaped val? =>
    cases val? with
    | none => exact ⟨s, rfl, hskips rfl⟩
    | some val =>
      have hfits : TextFits s fLen (xml.encode val.bytes) := hroom _ rfl
      have hfield : FieldFits s fLen val := by
        rw [TextFits] at hfits
        rw [FieldFits]
        omega
      exact happends rfl (h.appendField hfield (fresh 0) (fresh 1) field)

/-! ## Reading a record -/

/-- What the text of a value stands for. -/
inductive Kind
  | number
  | plain
  | escaped

/-- A name's value. -/
inductive Shown
  | number (z : ℤ)
  | bytes (l : List UInt8)
deriving DecidableEq

def Value.kind : Value → Kind
  | .int _ | .ulong _ => .number
  | .fast .. => .plain
  | .escaped _ => .escaped

def Kind.read (k : Kind) (l : List UInt8) : Shown :=
  match k with
  | .number => .number (Decimal.toInt l)
  | .plain => .bytes l
  | .escaped => .bytes (xml.decode l)

/-- The value that is meant, unless the call writes nothing. -/
def Value.shown : Value → Option Shown
  | .int v => some (.number v.toInt)
  | .ulong v => some (.number v.toNat)
  | .fast val vLen => (fastText val vLen).map .bytes
  | .escaped val => val.map fun val => .bytes val.bytes

/-- The names and values that are meant by the calls. -/
def meant (calls : List Call) : List (List UInt8 × Shown) :=
  calls.filterMap fun c => c.value.shown.map fun v => (bytesAt c.field c.fLen, v)

/-- The kinds of the fields that the calls append. -/
def kinds (calls : List Call) : List Kind :=
  calls.filterMap fun c => c.value.text.map fun _ => c.value.kind

/-- Read a record whose fields are of the kinds `ks`. -/
def readRecord (ks : List Kind) (l : List UInt8) : Option (List (List UInt8 × Shown)) :=
  (attributes.decode l).map (List.zipWith (fun k a => (a.1, k.read a.2)) ks)

/-- No name contains a `=`, and no plain value a `"`. -/
def Call.Readable (c : Call) : Prop :=
  61 ∉ bytesAt c.field c.fLen ∧
    ∀ val vLen, c.value = .fast (some val) vLen → 34 ∉ val.bytes.take (fastLength val vLen)

theorem Value.shown_eq (v : Value) : v.shown = v.text.map v.kind.read := by
  cases v with
  | int v =>
    show _ = some (Shown.number (Decimal.toInt (Decimal.ofInt v.toInt)))
    rw [Decimal.toInt_ofInt]
    rfl
  | ulong v =>
    show _ = some (Shown.number (Decimal.toInt (Decimal.ofNat v.toNat)))
    rw [Decimal.toInt_ofNat]
    rfl
  | fast val vLen => rfl
  | escaped val =>
    cases val with
    | none => rfl
    | some val =>
      show _ = some (Shown.bytes (xml.decode (xml.encode val.bytes)))
      rw [Escaping.decode_encode]
      rfl

theorem quote_notMem_of_digits {l : List UInt8} (h : ∀ c ∈ l, c = 45 ∨ Decimal.IsDigit c) :
    34 ∉ l := fun hmem => absurd (h 34 hmem) (by decide)

/-- What a function writes between the quotes has no quote of its own. -/
theorem Call.Readable.quote_notMem {c : Call} (h : c.Readable) (ht : c.value.text = some t) :
    34 ∉ t := by
  obtain ⟨-, hplain⟩ := h
  obtain ⟨field, fLen, value⟩ := c
  cases value with
  | int v =>
    obtain rfl := Option.some_inj.mp ht
    exact quote_notMem_of_digits fun c hc => Decimal.mem_ofInt hc
  | ulong v =>
    obtain rfl := Option.some_inj.mp ht
    exact quote_notMem_of_digits fun c hc => .inr (Decimal.isDigit_of_mem_ofNat hc)
  | fast val? vLen =>
    cases val? with
    | none => cases ht
    | some val =>
      obtain ⟨-, rfl⟩ : fastLength val vLen ≠ 0 ∧ val.bytes.take (fastLength val vLen) = t := by
        simpa [Value.text, fastText] using ht
      exact hplain val vLen rfl
  | escaped val? =>
    cases val? with
    | none => cases ht
    | some val =>
      obtain rfl := Option.some_inj.mp ht
      exact notMem_encode_xml val.bytes 34 (by decide)

theorem readable_record {calls : List Call} (h : ∀ c ∈ calls, c.Readable) :
    ∀ a ∈ record calls, attributes.Readable a := by
  intro a ha
  obtain ⟨c, hc, hattr⟩ := List.mem_filterMap.mp ha
  obtain ⟨t, ht, rfl⟩ := Option.map_eq_some_iff.mp hattr
  exact ⟨(h c hc).1, (h c hc).quote_notMem ht⟩

/-- The kinds turn the texts into what is meant. -/
theorem zipWith_read (calls : List Call) :
    List.zipWith (fun k a => (a.1, k.read a.2)) (kinds calls) (record calls) = meant calls := by
  induction calls with
  | nil => rfl
  | cons c calls ih =>
    rw [kinds, record, meant, List.filterMap_cons, List.filterMap_cons, List.filterMap_cons,
      Call.attribute, Value.shown_eq]
    cases c.value.text with
    | none => exact ih
    | some t => exact congrArg (_ :: ·) ih

theorem record_append (calls calls' : List Call) :
    record (calls ++ calls') = record calls ++ record calls' := List.filterMap_append

/-- `automem_detach`: the block, which is null for an empty buffer, and its length. -/
def automemDetach (pmem : AutomemT) : Option (List UInt8) × UInt32 :=
  (if pmem.size = 0 then none else pmem.pdata, pmem.size)

/-- The bytes that `automem_detach` gives away. -/
def detached (pmem : AutomemT) : List UInt8 :=
  ((automemDetach pmem).1.getD []).take (automemDetach pmem).2.toNat

theorem Holds.detached_eq (h : Holds s q) : detached s = q := by
  obtain ⟨b, hs, rfl⟩ := h
  rw [detached, automemDetach]
  split_ifs with hsize
  · rw [hsize]
    rfl
  · rw [hs.pdata]
    rfl

/-- **A record is read back.** In every run of calls from an empty buffer, the block that is detached in
the end is the text of the fields, from which a reader gets every name, number and value, and the
next call that fits does not fail. -/
theorem record_run {calls : List Call}
    (h : Exec (Guarded CallStep fun s c => c.Fits s) (automemInit fresh₀ n) calls s) :
    detached s = attributes.encode (record calls) ∧
      ((∀ c ∈ calls, c.Readable) → readRecord (kinds calls) (detached s) = some (meant calls)) ∧
      ∀ c : Call, c.Fits s → ∀ fresh, ∃ s', c.run fresh s = .ok s' := by
  have hholds : Holds s (attributes.encode (record calls)) := by
    refine h.invariant_actions (I := fun calls s => Holds s (attributes.encode (record calls)))
      (holds_init fresh₀ n) ?_
    rintro calls s c s' hs ⟨⟨fresh, hrun⟩, hfits⟩
    obtain ⟨s'', hok, hs''⟩ := hs.call hfits fresh
    obtain rfl := Except.ok.inj (hrun.symm.trans hok)
    rw [record_append, AttributeFormat.encode_append]
    exact hs''
  refine ⟨hholds.detached_eq, ?_, ?_⟩
  · intro hreadable
    rw [hholds.detached_eq, readRecord, AttributeFormat.decode_encode (readable_record hreadable),
      Option.map_some, zipWith_read]
  · intro c hfits fresh
    obtain ⟨s', hok, -⟩ := hholds.call hfits fresh
    exact ⟨s', hok⟩

/-- The record `a="-12" b="<" c="&lt;" `, in a buffer of four bytes. -/
theorem record_run_three :
    let calls : List Call :=
      [⟨fun _ => 97, 1, .int (-12)⟩, ⟨fun _ => 98, 1, .fast (some ⟨[60], by decide⟩) 0⟩,
        ⟨fun _ => 99, 1, .escaped (some ⟨[60], by decide⟩)⟩]
    ∃ s, detached s = attributes.encode (record calls) ∧
      ((∀ c ∈ calls, c.Readable) → readRecord (kinds calls) (detached s) = some (meant calls)) ∧
      ∀ c : Call, c.Fits s → ∀ fresh, ∃ s', c.run fresh s = .ok s' := by
  intro calls
  have h₁ : CallStep (automemInit (fun _ => 0) 4) ⟨fun _ => 97, 1, .int (-12)⟩
      ⟨8, 8, some [97, 61, 34, 45, 49, 50, 34, 32]⟩ := ⟨fun _ _ => 0, by decide +kernel⟩
  have h₂ : CallStep ⟨8, 8, some [97, 61, 34, 45, 49, 50, 34, 32]⟩
      ⟨fun _ => 98, 1, .fast (some ⟨[60], by decide⟩) 0⟩
      ⟨14, 16, some [97, 61, 34, 45, 49, 50, 34, 32, 98, 61, 34, 60, 34, 32, 0, 0]⟩ :=
    ⟨fun _ _ => 0, by decide +kernel⟩
  have h₃ : CallStep ⟨14, 16, some [97, 61, 34, 45, 49, 50, 34, 32, 98, 61, 34, 60, 34, 32, 0, 0]⟩
      ⟨fun _ => 99, 1, .escaped (some ⟨[60], by decide⟩)⟩
      ⟨23, 32, some [97, 61, 34, 45, 49, 50, 34, 32, 98, 61, 34, 60, 34, 32, 99, 61, 34, 38, 108,
        116, 59, 34, 32, 0, 0, 0, 0, 0, 0, 0, 0, 0]⟩ := ⟨fun _ _ => 0, by decide +kernel⟩
  have hfits : ∀ {s : AutomemT} {field : ℕ → UInt8} {v : Value} {t : List UInt8},
      v.text = some t → TextFits s 1 t →
      (∀ val vLen, v = .fast (some val) vLen → fastLength val vLen ≤ val.length) →
      Call.Fits s ⟨field, 1, v⟩ := by
    intro s field v t ht hroom hlen
    refine ⟨hlen, fun t' ht' => ?_⟩
    rwa [Option.some_inj.mp (ht.symm.trans ht')] at hroom
  have hrun : Exec (Guarded CallStep fun s c => c.Fits s) (automemInit (fun _ => 0) 4) calls _ :=
    .cons ⟨h₁, hfits rfl (by unfold TextFits; decide +kernel) nofun⟩ <|
      .cons ⟨h₂, hfits (t := [60]) rfl (by unfold TextFits; decide +kernel) (by
        rintro val vLen ⟨⟩
        exact le_rfl)⟩ <|
        .cons ⟨h₃, hfits rfl (by unfold TextFits; decide +kernel) nofun⟩ .nil
  exact ⟨_, record_run hrun⟩

/-! ## The fast function and the escaping one -/

/-- **When escaping is needed.** The two functions append the same, for any buffer and field, exactly
when the value is not empty and has none of the characters that are escaped. -/
theorem appendFieldFast_eq_iff (h : Holds s q) (hfits : TextFits s fLen (xml.encode val.bytes))
    (fresh : ℕ → ℕ → UInt8) (field : ℕ → UInt8) :
    ∃ s₁ s₂ r₁ r₂, automemAppendFieldFast fresh s field fLen (some val) 0 = .ok (s₁, r₁) ∧
      automemAppendField (fresh 0) (fresh 1) s field fLen (some val) = .ok (s₂, r₂) ∧
      (content s₁ = content s₂ ↔
        val.bytes ≠ [] ∧ ∀ c ∈ val.bytes, c ∉ ([38, 60, 62, 34, 39] : List UInt8)) := by
  have hfield : FieldFits s fLen val := by
    rw [TextFits] at hfits
    rw [FieldFits]
    omega
  obtain ⟨s₂, hok₂, h₂⟩ := h.appendField hfield (fresh 0) (fresh 1) field
  have hlength := Escaping.length_le_length_encode (E := xml) val.bytes
  have hfast : fastLength val 0 = val.bytes.length := rfl
  have hplain : xml.encode val.bytes = val.bytes ↔
      ∀ c ∈ val.bytes, c ∉ ([38, 60, 62, 34, 39] : List UInt8) := by
    rw [Escaping.encode_eq_self_iff (by decide)]
    simp [xml, eq_comm]
  by_cases hempty : val.bytes = []
  · have hzero : fastLength val 0 = 0 := by rw [hfast, hempty, List.length_nil]
    refine ⟨s, s₂, _, _, appendFieldFast_of_length hzero .., hok₂, ?_⟩
    rw [h.content_eq, h₂.content_eq]
    refine iff_of_false (fun heq => ?_) fun hne => hne.1 hempty
    -- the escaping function appends the name at least
    have hlengths := congrArg List.length heq
    rw [List.length_append, List.length_append, length_quoted hfield, toNat_fieldSize hfield] at hlengths
    omega
  · have htake : val.bytes.take (fastLength val 0) = val.bytes := List.take_length
    have hroom : TextFits s fLen (val.bytes.take (fastLength val 0)) := by
      rw [TextFits] at hfits ⊢
      rw [htake]
      omega
    have hpos : fastLength val 0 ≠ 0 := fun hzero => hempty (List.length_eq_zero_iff.mp hzero)
    obtain ⟨s₁, hok₁, h₁⟩ := h.appendFieldFast le_rfl hpos hroom fresh field
    refine ⟨s₁, s₂, _, _, hok₁, hok₂, ?_⟩
    rw [htake] at h₁
    rw [h₁.content_eq, h₂.content_eq, List.append_right_inj, quoted_eq_plain, plain, plain,
      List.append_left_inj, List.append_right_inj, eq_comm, hplain]
    exact ⟨fun hnone => ⟨hempty, hnone⟩, And.right⟩

/-- The value `<` is escaped by one of them. -/
theorem appendFieldFast_eq_iff_bracket :
    ∃ s₁ s₂ r₁ r₂,
      automemAppendFieldFast (fun _ _ => 0) (automemInit (fun _ => 0) 4) (fun _ => 97) 1
        (some ⟨[60], by decide⟩) 0 = .ok (s₁, r₁) ∧
      automemAppendField (fun _ => 0) (fun _ => 0) (automemInit (fun _ => 0) 4) (fun _ => 97) 1
        (some ⟨[60], by decide⟩) = .ok (s₂, r₂) ∧
      (content s₁ = content s₂ ↔
        ([60] : List UInt8) ≠ [] ∧ ∀ c ∈ ([60] : List UInt8), c ∉ ([38, 60, 62, 34, 39] : List UInt8)) :=
  have hfits : TextFits (automemInit (fun _ => 0) 4) 1
      (xml.encode (CString.mk [60] (by decide)).bytes) := by
    unfold TextFits
    decide +kernel
  appendFieldFast_eq_iff (holds_init (fun _ => 0) 4) hfits (fun _ _ => 0) (fun _ => 97)

end Uvx.Automem
