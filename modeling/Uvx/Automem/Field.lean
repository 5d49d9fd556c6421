import Uvx.Automem.Erase
import Uvx.Common.Escape
import Uvx.Loge.Defs

/-!
# Appending an XML attribute: `automem_append_field`

The value is escaped by two loops: one adds up the length of what the other writes, in stores of four,
two and one bytes that are not checked against the allocation. Both follow one table of entities
(`fieldSize_eq`, `writeField_eq`), so the room that was made is filled exactly.
-/

namespace Uvx.Automem

open Uvx.Loge (CString)

variable {fresh fresh' field : ℕ → UInt8} {s : AutomemT} {b q l l' : List UInt8} {fLen : UInt32}
  {val val' : CString}

/-! ## The function -/

/-- What a `case` of the first `switch` adds to `t`. -/
def fieldCharSize (c : UInt8) : UInt32 :=
  if c = 38 then 5 -- `&`
  else if c = 60 then 4 -- `<`
  else if c = 62 then 4 -- `>`
  else if c = 34 then 6 -- `"`
  else if c = 39 then 6 -- `'`
  else 1

/-- The first loop. -/
def fieldSize (val : CString) : UInt32 :=
  val.bytes.foldl (fun t c => t + fieldCharSize c) 4

/-- The buffer while it is written to, and `sz`. -/
abbrev Cursor := AutomemT × UInt32

/-- Store `l` at `pdata + sz` and advance `sz` by its length. -/
def store (l : List UInt8) : Cursor → Except Fault Cursor
  | (pmem, sz) => do
    let b ← deref pmem
    let b ← inside (Block.write? b sz.toNat l)
    pure ({ pmem with pdata := some b }, sz + .ofNat l.length)

/-- `pdata[sz++] = c` -/
def storeChar (c : UInt8) (w : Cursor) : Except Fault Cursor := store [c] w

/-- `*(int*)(pdata+sz) = *(int*)literal`, with the NUL behind the literal. -/
def storeInt (literal : List UInt8) (w : Cursor) : Except Fault Cursor := do
  let x ← inside (Block.read? literal 0 4)
  store x w

/-- `*(short*)(pdata+sz) = *(short*)literal`, with the NUL behind the literal. -/
def storeShort (literal : List UInt8) (w : Cursor) : Except Fault Cursor := do
  let x ← inside (Block.read? literal 0 2)
  store x w

/-- The second `switch`. -/
def fieldPutChar (w : Cursor) (c : UInt8) : Except Fault Cursor := do
  if c = 38 then
    let w ← storeInt [38, 97, 109, 112, 0] w -- `&amp`
    storeChar 59 w
  else if c = 60 then storeInt [38, 108, 116, 59, 0] w -- `&lt;`
  else if c = 62 then storeInt [38, 103, 116, 59, 0] w -- `&gt;`
  else if c = 34 then
    let w ← storeInt [38, 113, 117, 111, 0] w -- `&quo`
    storeShort [116, 59, 0] w -- `t;`
  else if c = 39 then
    let w ← storeInt [38, 97, 112, 111, 0] w -- `&apo`
    storeShort [115, 59, 0] w -- `s;`
  else storeChar c w

/-- The part behind the first loop that makes room. -/
def reserveField (fresh fresh' : ℕ → UInt8) (pmem : AutomemT) (field : ℕ → UInt8) (fLen t : UInt32) :
    Except Fault AutomemT := do
  let (pmem, _) ← automemAppendVoidp fresh pmem field fLen
  automemEnsureNewspace fresh' pmem t

/-- The part that stores `="`, the escaped value and `" `. -/
def writeField (pmem : AutomemT) (val : CString) : Except Fault Cursor := do
  let w ← storeChar 61 (pmem, pmem.size)
  let w ← storeChar 34 w
  let w ← val.bytes.foldlM fieldPutChar w
  storeShort [34, 32, 0] w

/-- `automem_append_field`, which is compiled with `_NEW_CENTER_SERVEER` only. -/
def automemAppendField (fresh fresh' : ℕ → UInt8) (pmem : AutomemT) (field : ℕ → UInt8)
    (fLen : UInt32) (val : Option CString) : Except Fault (AutomemT × Int32) := do
  match val with
  | none => pure (pmem, pmem.size.toInt32)
  | some val =>
    let t := fieldSize val
    let pmem ← reserveField fresh fresh' pmem field fLen t
    let (pmem, sz) ← writeField pmem val
    pure ({ pmem with size := sz }, sz.toInt32)

/-! ## The entities of XML -/

/-- `&amp;`, `&lt;`, `&gt;`, `&quot;` and `&apos;`. -/
def xml : Escaping UInt8 where
  mark := 38
  table :=
    [(38, [38, 97, 109, 112, 59]), (60, [38, 108, 116, 59]), (62, [38, 103, 116, 59]),
      (34, [38, 113, 117, 111, 116, 59]), (39, [38, 97, 112, 111, 115, 59])]
  mark_mem := by decide
  entity := by decide
  prefixFree := by decide

/-- `="`, the escaped value and `" `. -/
def quoted (val : CString) : List UInt8 := [61, 34] ++ xml.encode val.bytes ++ [34, 32]

/-- The size stays within 2^31 with what is appended. -/
def FieldFits (s : AutomemT) (fLen : UInt32) (val : CString) : Prop :=
  s.size.toNat + fLen.toNat + (4 + (xml.encode val.bytes).length) ≤ 2 ^ 31

/-- The rows of the table, in the order of the `case`s. -/
theorem encodeChar_xml (c : UInt8) :
    xml.encodeChar c =
      if c = 38 then [38, 97, 109, 112, 59] else if c = 60 then [38, 108, 116, 59]
      else if c = 62 then [38, 103, 116, 59] else if c = 34 then [38, 113, 117, 111, 116, 59]
      else if c = 39 then [38, 97, 112, 111, 115, 59] else [c] := by
  simp only [Escaping.encodeChar, xml, List.find?_cons, List.find?_nil]
  grind

/-! ## The first loop -/

theorem fieldCharSize_eq (c : UInt8) : fieldCharSize c = .ofNat (xml.encodeChar c).length := by
  rw [encodeChar_xml, fieldCharSize]
  split_ifs <;> rfl

theorem foldl_fieldCharSize (v : List UInt8) (t : UInt32) :
    v.foldl (fun t c => t + fieldCharSize c) t = t + .ofNat (xml.encode v).length := by
  induction v generalizing t with
  | nil => exact (UInt32.add_zero t).symm
  | cons c v ih =>
    rw [List.foldl_cons, ih, fieldCharSize_eq, Escaping.encode_cons, List.length_append,
      UInt32.ofNat_add, UInt32.add_assoc]

theorem fieldSize_eq (val : CString) :
    fieldSize val = .ofNat (4 + (xml.encode val.bytes).length) := by
  rw [fieldSize, foldl_fieldCharSize, UInt32.ofNat_add]
  rfl

/-! ## The second loop -/

/-- The buffer with `l` written behind its content. -/
def written (s : AutomemT) (b l : List UInt8) : Cursor :=
  ({ s with pdata := some (Block.put b s.size.toNat l) }, s.size + .ofNat l.length)

theorem toNat_written_sz (hs : Allocated s b) (h : s.size.toNat + l.length ≤ b.length) :
    (written s b l).2.toNat = s.size.toNat + l.length := by
  have hlength := hs.length
  have hlt := s.buffersize.toNat_lt
  have hl : (UInt32.ofNat l.length).toNat = l.length :=
    UInt32.toNat_ofNat_of_lt' (show l.length < 2 ^ 32 by omega)
  rw [written, UInt32.toNat_add, hl, Nat.mod_eq_of_lt (by omega)]

/-- One store goes on where the last one has ended. -/
theorem store_written (hs : Allocated s b) (h : s.size.toNat + (l ++ l').length ≤ b.length) :
    store l' (written s b l) = .ok (written s b (l ++ l')) := by
  have hl : s.size.toNat + l.length ≤ b.length := by
    rw [List.length_append] at h
    omega
  have hw : Block.write? (Block.put b s.size.toNat l) (written s b l).2.toNat l' =
      some (Block.put b s.size.toNat (l ++ l')) := by
    rw [toNat_written_sz hs hl]
    exact Block.write?_put h
  have hsz : (written s b l).2 + .ofNat l'.length = (written s b (l ++ l')).2 := by
    rw [written, written, UInt32.add_assoc, ← UInt32.ofNat_add, List.length_append]
  calc store l' (written s b l)
      = .ok ({ s with pdata := some (Block.put b s.size.toNat (l ++ l')) },
          (written s b l).2 + .ofNat l'.length) := by
        rw [store, written]
        rw [written] at hw
        simp only [deref, inside, hw, bind, Except.bind, pure, Except.pure]
    _ = .ok (written s b (l ++ l')) := by
        rw [hsz]
        rfl

theorem store_store (hs : Allocated s b) (x y : List UInt8)
    (h : s.size.toNat + (l ++ (x ++ y)).length ≤ b.length) :
    (store x (written s b l) >>= store y) = .ok (written s b (l ++ (x ++ y))) := by
  rw [← List.append_assoc] at h ⊢
  have hx : s.size.toNat + (l ++ x).length ≤ b.length := by
    rw [List.length_append] at h
    omega
  calc (store x (written s b l) >>= store y)
      = store y (written s b (l ++ x)) := by rw [store_written hs hx]; rfl
    _ = .ok (written s b (l ++ x ++ y)) := store_written hs h

/-- One turn of the second loop stores what stands for the character. -/
theorem fieldPutChar_written (hs : Allocated s b) (c : UInt8)
    (h : s.size.toNat + (l ++ xml.encodeChar c).length ≤ b.length) :
    fieldPutChar (written s b l) c = .ok (written s b (l ++ xml.encodeChar c)) := by
  rw [encodeChar_xml] at h ⊢
  rw [fieldPutChar]
  split_ifs at h ⊢
  · exact store_store hs [38, 97, 109, 112] [59] h
  · exact store_written hs h
  · exact store_written hs h
  · exact store_store hs [38, 113, 117, 111] [116, 59] h
  · exact store_store hs [38, 97, 112, 111] [115, 59] h
  · exact store_written hs h

theorem foldlM_fieldPutChar_written (hs : Allocated s b) (v : List UInt8)
    (h : s.size.toNat + (l ++ xml.encode v).length ≤ b.length) :
    v.foldlM fieldPutChar (written s b l) = .ok (written s b (l ++ xml.encode v)) := by
  induction v generalizing l with
  | nil =>
    rw [Escaping.encode_nil, List.append_nil]
    rfl
  | cons c v ih =>
    rw [Escaping.encode_cons, ← List.append_assoc] at h ⊢
    have hc : s.size.toNat + (l ++ xml.encodeChar c).length ≤ b.length := by
      rw [List.length_append] at h
      omega
    rw [List.foldlM_cons, fieldPutChar_written hs c hc]
    exact ih h

/-- All stores together. -/
theorem writeField_eq (hs : Allocated s b) (h : s.size.toNat + (quoted val).length ≤ b.length) :
    writeField s val = .ok (written s b (quoted val)) := by
  rw [quoted] at h
  have hv : s.size.toNat + ([61, 34] ++ xml.encode val.bytes).length ≤ b.length := by
    rw [List.length_append] at h
    omega
  have hstart : (s, s.size) = written s b [] := by
    rw [written, Block.put_nil, ← hs.pdata, List.length_nil]
    exact Prod.ext rfl (UInt32.add_zero _).symm
  have hopen : (storeChar 61 (written s b []) >>= storeChar 34) = .ok (written s b [61, 34]) := by
    refine store_store hs [61] [34] ?_
    rw [List.length_append] at hv
    exact le_trans (Nat.add_le_add_left (Nat.le_add_right _ _) _) hv
  calc writeField s val
      = (storeChar 61 (written s b []) >>= storeChar 34) >>= fun w =>
          val.bytes.foldlM fieldPutChar w >>= storeShort [34, 32, 0] := by
        rw [writeField, hstart, bind_assoc]
    _ = storeShort [34, 32, 0] (written s b ([61, 34] ++ xml.encode val.bytes)) := by
        rw [hopen]
        show (val.bytes.foldlM fieldPutChar (written s b [61, 34]) >>= storeShort [34, 32, 0]) = _
        rw [foldlM_fieldPutChar_written hs val.bytes hv]
        rfl
    _ = .ok (written s b (quoted val)) := store_written hs h

/-! ## The whole call -/

/-- As many bytes are stored behind the field as the first loop has counted. They lie in the room that
was made, and no other byte changes. -/
def PassesAgree (fresh fresh' : ℕ → UInt8) (s : AutomemT) (field : ℕ → UInt8) (fLen : UInt32)
    (val : CString) : Prop :=
  ∃ s₁ b₁ b₂ sz, reserveField fresh fresh' s field fLen (fieldSize val) = .ok s₁ ∧
    Allocated s₁ b₁ ∧ writeField s₁ val = .ok ({ s₁ with pdata := some b₂ }, sz) ∧
    sz.toNat = s₁.size.toNat + (fieldSize val).toNat ∧ sz ≤ s₁.buffersize ∧
    b₂.length = b₁.length ∧ b₂.take s₁.size.toNat = b₁.take s₁.size.toNat ∧
    b₂.drop sz.toNat = b₁.drop sz.toNat

/-- The value is appended so that it can be read back. -/
structure AppendsField (fresh fresh' : ℕ → UInt8) (s : AutomemT) (field : ℕ → UInt8) (fLen : UInt32)
    (val : CString) : Prop where
  passes : PassesAgree fresh fresh' s field fLen val
  appends : ∃ s', automemAppendField fresh fresh' s field fLen (some val) =
    .ok (s', s'.size.toInt32) ∧ Holds s' (content s ++ bytesAt field fLen ++ quoted val)
  /-- No `"`, `'`, `<` or `>` is left. -/
  clean : ∀ c ∈ ([34, 39, 60, 62] : List UInt8), c ∉ xml.encode val.bytes
  /-- Every `&` starts an entity. -/
  entities : ∀ u v, xml.encode val.bytes = u ++ 38 :: v → ∃ e ∈ xml.table, e.2 <+: 38 :: v
  decodes : xml.decode (xml.encode val.bytes) = val.bytes
  injective : ∀ (val' : CString) fresh₁ fresh₁' s₁ s₂ r₁ r₂, FieldFits s fLen val' →
    automemAppendField fresh fresh' s field fLen (some val) = .ok (s₁, r₁) →
    automemAppendField fresh₁ fresh₁' s field fLen (some val') = .ok (s₂, r₂) →
    content s₁ = content s₂ → val = val'

theorem toNat_fieldSize (h : FieldFits s fLen val) :
    (fieldSize val).toNat = 4 + (xml.encode val.bytes).length := by
  rw [FieldFits] at h
  rw [fieldSize_eq]
  exact UInt32.toNat_ofNat_of_lt' (show 4 + (xml.encode val.bytes).length < 2 ^ 32 by omega)

theorem length_quoted (h : FieldFits s fLen val) : (quoted val).length = (fieldSize val).toNat := by
  rw [toNat_fieldSize h, quoted, List.length_append, List.length_append, Nat.add_right_comm]
  rfl

/-- The field is appended and the room for the value is made. -/
theorem reserveField_spec (hs : Allocated s b) (h : FieldFits s fLen val)
    (fresh fresh' field : ℕ → UInt8) :
    ∃ s₁ b₁, reserveField fresh fresh' s field fLen (fieldSize val) = .ok s₁ ∧ Allocated s₁ b₁ ∧
      s₁.size.toNat + (fieldSize val).toNat ≤ s₁.buffersize.toNat ∧
      b₁.take s₁.size.toNat = content s ++ bytesAt field fLen := by
  have ht := toNat_fieldSize h
  rw [FieldFits] at h
  have hreaches : Reaches s fLen := reaches_of_le hs (by omega)
  obtain ⟨s₀, b₀, hok₀, hs₀, hsize₀, hbytes₀⟩ :=
    appendVoidp_of_reaches fresh hs (by omega) hreaches field
  have hsize : s₀.size.toNat = s.size.toNat + fLen.toNat := by
    rw [hsize₀, UInt32.toNat_add, Nat.mod_eq_of_lt (by omega)]
  have hreaches : Reaches s₀ (fieldSize val) := reaches_of_le hs₀ (by omega)
  obtain ⟨s₁, b₁, hok₁, hgrown⟩ := ensureNewspace_of_reaches fresh' hs₀ (by omega) hreaches
  refine ⟨s₁, b₁, ?_, hgrown.allocated, ?_, ?_⟩
  · rw [reserveField, hok₀]
    exact hok₁
  · rw [hgrown.size]
    exact hgrown.room
  · rw [hgrown.size, hgrown.kept, hbytes₀, content, hs.pdata, Option.getD_some]

/-- The stores fill the room that was made for them. -/
theorem writeField_spec (hs : Allocated s b) (h : FieldFits s' fLen val)
    (hroom : s.size.toNat + (fieldSize val).toNat ≤ s.buffersize.toNat) :
    ∃ b₂ sz, writeField s val = .ok ({ s with pdata := some b₂ }, sz) ∧
      sz.toNat = s.size.toNat + (fieldSize val).toNat ∧ b₂.length = b.length ∧
      b₂.take sz.toNat = b.take s.size.toNat ++ quoted val ∧
      b₂.drop sz.toNat = b.drop sz.toNat := by
  rw [← hs.length, ← length_quoted h] at hroom
  have hsz := toNat_written_sz hs hroom
  have htake : (Block.put b s.size.toNat (quoted val)).take (written s b (quoted val)).2.toNat =
      b.take s.size.toNat ++ quoted val := by
    rw [hsz]
    exact Block.take_put hroom
  have hdrop : (Block.put b s.size.toNat (quoted val)).drop (written s b (quoted val)).2.toNat =
      b.drop (written s b (quoted val)).2.toNat := by
    rw [hsz]
    exact Block.drop_put hroom
  rw [length_quoted h] at hsz
  exact ⟨_, _, writeField_eq hs hroom, hsz, Block.length_put hroom, htake, hdrop⟩

theorem passesAgree (hs : Allocated s b) (h : FieldFits s fLen val)
    (fresh fresh' field : ℕ → UInt8) : PassesAgree fresh fresh' s field fLen val := by
  obtain ⟨s₁, b₁, hok, hs₁, hroom, -⟩ := reserveField_spec hs h fresh fresh' field
  obtain ⟨b₂, sz, hok₂, hsz, hlen, htake, hdrop⟩ := writeField_spec hs₁ h hroom
  have hle : sz ≤ s₁.buffersize := by
    rw [UInt32.le_iff_toNat_le, hsz]
    exact hroom
  have hfront : (b₁.take s₁.size.toNat).length = s₁.size.toNat :=
    List.length_take_of_le hs₁.size_le_length
  have hkept : b₂.take s₁.size.toNat = b₁.take s₁.size.toNat :=
    calc b₂.take s₁.size.toNat
        = (b₂.take sz.toNat).take s₁.size.toNat := by
          rw [List.take_take, Nat.min_eq_left (by omega)]
      _ = b₁.take s₁.size.toNat := by rw [htake, List.take_left' hfront]
  exact ⟨s₁, b₁, b₂, sz, hok, hs₁, hok₂, hsz, hle, hlen, hkept, hdrop⟩

/-- What the call does to the queue. -/
theorem Holds.appendField (hs : Holds s q) (h : FieldFits s fLen val)
    (fresh fresh' field : ℕ → UInt8) :
    ∃ s', automemAppendField fresh fresh' s field fLen (some val) = .ok (s', s'.size.toInt32) ∧
      Holds s' (q ++ bytesAt field fLen ++ quoted val) := by
  obtain ⟨b, hs, rfl⟩ := hs
  obtain ⟨s₁, b₁, hok, hs₁, hroom, hbytes⟩ := reserveField_spec hs h fresh fresh' field
  obtain ⟨b₂, sz, hok₂, hsz, hlen, htake, -⟩ := writeField_spec hs₁ h hroom
  refine ⟨{ s₁ with pdata := some b₂, size := sz }, ?_, b₂, ⟨rfl, ?_, hs₁.pos, ?_⟩, ?_⟩
  · simp only [automemAppendField, hok, hok₂, bind, Except.bind, pure, Except.pure]
  · rw [hlen]
    exact hs₁.length
  · rw [UInt32.le_iff_toNat_le, hsz]
    exact hroom
  · rw [htake, hbytes, content, hs.pdata, Option.getD_some]

theorem quoted_injective : Function.Injective quoted := by
  intro val val' h
  rw [quoted, quoted, List.append_left_inj, List.append_right_inj] at h
  have hbytes := Escaping.encode_injective h
  cases val
  cases hbytes
  rfl

theorem notMem_encode_xml (v : List UInt8) :
    ∀ c ∈ ([34, 39, 60, 62] : List UInt8), c ∉ xml.encode v := by
  have htable : ∀ c ∈ ([34, 39, 60, 62] : List UInt8), ∃ e ∈ xml.table, e.1 = c ∧ c ≠ xml.mark := by
    decide +kernel
  intro c hc
  obtain ⟨e, he, rfl, hmark⟩ := htable c hc
  exact Escaping.notMem_encode he hmark

/-- **The two loops agree, and the escaping is reversible.** -/
theorem appendsField (hs : Allocated s b) (h : FieldFits s fLen val)
    (fresh fresh' field : ℕ → UInt8) : AppendsField fresh fresh' s field fLen val := by
  have hholds : Holds s (content s) := ⟨b, hs, by rw [content, hs.pdata, Option.getD_some]⟩
  have happends := hholds.appendField h fresh fresh' field
  refine ⟨passesAgree hs h fresh fresh' field, happends, notMem_encode_xml _, ?_,
    Escaping.decode_encode _, ?_⟩
  · intro u v hmark
    exact Escaping.entity_of_mark hmark
  · intro val' fresh₁ fresh₁' s₁ s₂ r₁ r₂ h' hok₁ hok₂ hcontent
    obtain ⟨s₁', hok₁', h₁⟩ := happends
    obtain ⟨s₂', hok₂', h₂⟩ := hholds.appendField h' fresh₁ fresh₁' field
    cases hok₁.symm.trans hok₁'
    cases hok₂.symm.trans hok₂'
    rw [h₁.content_eq, h₂.content_eq, List.append_right_inj] at hcontent
    exact quoted_injective hcontent

/-- The value `<&lt;"` behind the field `a`, in a buffer of two bytes. -/
theorem appendsField_entityText :
    AppendsField (fun _ => 0) (fun _ => 0) ⟨1, 2, some [7, 0]⟩ (fun _ => 97) 1
      ⟨[60, 38, 108, 116, 59, 34], by decide⟩ :=
  appendsField (b := [7, 0]) ⟨rfl, rfl, by decide, by decide⟩ (by unfold FieldFits; decide) _ _ _

end Uvx.Automem
