import Mathlib.Data.List.Infix
import Mathlib.Logic.Function.Basic

/-!
# Escaping by entities

Some characters are replaced by entities, which all start with one mark. The mark is replaced too, so
every mark of an escaped text starts an entity and reading the entities back gives the text.
-/

/-- The characters that are replaced, each with its entity. -/
structure Escaping (α : Type*) where
  mark : α
  table : List (α × List α)
  mark_mem : ∃ e ∈ table, e.1 = mark
  entity : ∀ e ∈ table, e.2.head? = some mark ∧ ∀ e' ∈ table, e'.1 ∉ e.2.tail
  prefixFree : ∀ e ∈ table, ∀ e' ∈ table, e.2 <+: e'.2 → e = e'

namespace Escaping

variable {α : Type*} {E : Escaping α} {c : α} {l u v : List α} {e : α × List α}

theorem ne_mark (h : ∀ e ∈ E.table, e.1 ≠ c) : c ≠ E.mark := by
  rintro rfl
  obtain ⟨e, he, hmark⟩ := E.mark_mem
  exact h e he hmark

/-- An entity is the mark and characters that are not replaced. -/
theorem exists_entity_eq (he : e ∈ E.table) :
    ∃ l, e.2 = E.mark :: l ∧ ∀ e' ∈ E.table, e'.1 ∉ l := by
  obtain ⟨hhead, htail⟩ := E.entity e he
  exact ⟨e.2.tail, (List.cons_head?_tail hhead).symm, htail⟩

theorem mark_notMem_tail {l : List α} (h : ∀ e' ∈ E.table, e'.1 ∉ l) : E.mark ∉ l := by
  obtain ⟨e, he, hmark⟩ := E.mark_mem
  rw [← hmark]
  exact h e he

variable [DecidableEq α]

section Defs

variable (E)

/-- What stands for the character `c`. -/
def encodeChar (c : α) : List α :=
  match E.table.find? (·.1 = c) with
  | some e => e.2
  | none => [c]

def encode (l : List α) : List α := l.flatMap E.encodeChar

/-- Read the entities back, after `skip` more characters of the last one. -/
def decodeFrom : ℕ → List α → List α
  | _, [] => []
  | skip + 1, _ :: l => decodeFrom skip l
  | 0, c :: l =>
    match E.table.find? (·.2 <+: c :: l) with
    | some e => e.1 :: decodeFrom (e.2.length - 1) l
    | none => c :: decodeFrom 0 l

/-- Replace every entity by its character. -/
def decode (l : List α) : List α := E.decodeFrom 0 l

@[simp] theorem encode_nil : E.encode [] = [] := rfl

@[simp] theorem encode_cons (c : α) (l : List α) :
    E.encode (c :: l) = E.encodeChar c ++ E.encode l := rfl

end Defs

theorem encodeChar_cases (c : α) :
    (∃ e ∈ E.table, e.1 = c ∧ E.encodeChar c = e.2) ∨
      (∀ e ∈ E.table, e.1 ≠ c) ∧ E.encodeChar c = [c] := by
  rw [encodeChar]
  cases hfind : E.table.find? (·.1 = c) with
  | some e =>
    have hkey : e.1 = c := by simpa using List.find?_some hfind
    exact Or.inl ⟨e, List.mem_of_find?_eq_some hfind, hkey, rfl⟩
  | none =>
    refine Or.inr ⟨?_, rfl⟩
    simpa using hfind

/-! ## Reading back -/

theorem decodeFrom_append (u l : List α) : E.decodeFrom u.length (u ++ l) = E.decode l := by
  induction u with
  | nil => rfl
  | cons c u ih =>
    rw [List.length_cons, List.cons_append, decodeFrom]
    exact ih

/-- Only the entity itself is read where an entity stands. -/
theorem decode_entity (he : e ∈ E.table) (l : List α) :
    E.decode (e.2 ++ l) = e.1 :: E.decode l := by
  obtain ⟨rest, hrest, -⟩ := exists_entity_eq he
  have hfind : E.table.find? (·.2 <+: E.mark :: (rest ++ l)) = some e := by
    have hself : e.2 <+: E.mark :: (rest ++ l) := ⟨l, by rw [hrest, List.cons_append]⟩
    cases h : E.table.find? (·.2 <+: E.mark :: (rest ++ l)) with
    | none =>
      have hnone := List.find?_eq_none.mp h e he
      exact absurd hself (by simpa using hnone)
    | some e' =>
      have he' := List.mem_of_find?_eq_some h
      have hpre : e'.2 <+: E.mark :: (rest ++ l) := by simpa using List.find?_some h
      rcases List.prefix_or_prefix_of_prefix hpre hself with hle | hle
      · rw [E.prefixFree e' he' e he hle]
      · rw [E.prefixFree e he e' he' hle]
  have hlen : e.2.length - 1 = rest.length := by rw [hrest, List.length_cons, Nat.add_sub_cancel]
  rw [hrest, List.cons_append, decode, decodeFrom, hfind]
  simp only [hlen, decodeFrom_append]

/-- A character that is no mark stands for itself. -/
theorem decode_cons_of_ne (hc : c ≠ E.mark) (l : List α) : E.decode (c :: l) = c :: E.decode l := by
  have hfind : E.table.find? (·.2 <+: c :: l) = none := by
    rw [List.find?_eq_none]
    intro e he hpre
    obtain ⟨rest, hrest, -⟩ := exists_entity_eq he
    rw [hrest, decide_eq_true_eq, List.cons_prefix_cons] at hpre
    exact hc hpre.1.symm
  rw [decode, decodeFrom, hfind]
  rfl

theorem decode_encode (l : List α) : E.decode (E.encode l) = l := by
  induction l with
  | nil => rfl
  | cons c l ih =>
    rw [encode_cons]
    rcases encodeChar_cases c with ⟨e, he, rfl, hchar⟩ | ⟨hnone, hchar⟩
    · rw [hchar, decode_entity he, ih]
    · rw [hchar, List.singleton_append, decode_cons_of_ne (ne_mark hnone), ih]

theorem encode_injective : Function.Injective E.encode :=
  Function.LeftInverse.injective decode_encode

/-! ## What an escaped text is made of -/

/-- The only replaced character that is left is the mark. -/
theorem notMem_encode (he : e ∈ E.table) (hmark : e.1 ≠ E.mark) : e.1 ∉ E.encode l := by
  induction l with
  | nil => exact List.not_mem_nil
  | cons c l ih =>
    rw [encode_cons, List.mem_append, not_or]
    refine ⟨?_, ih⟩
    rcases encodeChar_cases c with ⟨e', he', -, hchar⟩ | ⟨hnone, hchar⟩
    · obtain ⟨rest, hrest, htail⟩ := exists_entity_eq he'
      rw [hchar, hrest, List.mem_cons, not_or]
      exact ⟨hmark, htail e he⟩
    · rw [hchar, List.mem_singleton]
      exact hnone e he

/-- The mark stands in what replaces a character at the front of an entity only. -/
theorem encodeChar_of_mark (h : E.encodeChar c = u ++ E.mark :: v) :
    ∃ e ∈ E.table, e.2 = E.mark :: v := by
  rcases encodeChar_cases c with ⟨e, he, -, hchar⟩ | ⟨hnone, hchar⟩
  · obtain ⟨rest, hrest, htail⟩ := exists_entity_eq he
    have hsplit : E.mark :: rest = u ++ E.mark :: v := by rw [← hrest, ← hchar, h]
    cases u with
    | nil => exact ⟨e, he, by rw [← hchar, h, List.nil_append]⟩
    | cons d u =>
      have hmem : E.mark ∈ rest := by
        rw [(List.cons_eq_cons.mp hsplit).2]
        exact List.mem_append_right u List.mem_cons_self
      exact absurd hmem (mark_notMem_tail htail)
  · have hmem : E.mark ∈ [c] := by
      rw [← hchar, h]
      exact List.mem_append_right u List.mem_cons_self
    exact absurd (List.mem_singleton.mp hmem).symm (ne_mark hnone)

/-- **Every mark of an escaped text starts an entity.** -/
theorem entity_of_mark (h : E.encode l = u ++ E.mark :: v) :
    ∃ e ∈ E.table, e.2 <+: E.mark :: v := by
  induction l generalizing u with
  | nil => exact absurd h.symm (List.append_ne_nil_of_right_ne_nil u (List.cons_ne_nil _ _))
  | cons c l ih =>
    rw [encode_cons] at h
    rcases List.append_eq_append_iff.mp h with ⟨w, rfl, hw⟩ | ⟨w, hchar, hw⟩
    · exact ih hw
    · cases w with
      | nil =>
        rw [List.nil_append] at hw
        exact ih (u := []) hw.symm
      | cons d w =>
        obtain ⟨rfl, hv⟩ := List.cons_eq_cons.mp hw
        obtain ⟨e, he, heq⟩ := encodeChar_of_mark hchar
        exact ⟨e, he, E.encode l, by rw [heq, hv]; rfl⟩

/-! ## Texts without anything to escape -/

theorem encodeChar_of_forall_ne (h : ∀ e ∈ E.table, e.1 ≠ c) : E.encodeChar c = [c] := by
  rcases encodeChar_cases c with ⟨e, he, hc, -⟩ | ⟨-, hchar⟩
  · exact absurd hc (h e he)
  · exact hchar

theorem one_le_length_encodeChar (c : α) : 1 ≤ (E.encodeChar c).length := by
  rcases encodeChar_cases c with ⟨e, he, -, hchar⟩ | ⟨-, hchar⟩
  · obtain ⟨rest, hrest, -⟩ := exists_entity_eq he
    rw [hchar, hrest]
    exact Nat.succ_le_succ (Nat.zero_le _)
  · rw [hchar]
    exact le_rfl

theorem length_le_length_encode (l : List α) : l.length ≤ (E.encode l).length := by
  induction l with
  | nil => exact le_rfl
  | cons c l ih =>
    have hc := one_le_length_encodeChar (E := E) c
    rw [encode_cons, List.length_append, List.length_cons]
    omega

/-- Escaping changes a text unless no character of it is replaced. -/
theorem encode_eq_self_iff (hlong : ∀ e ∈ E.table, 1 < e.2.length) :
    E.encode l = l ↔ ∀ c ∈ l, ∀ e ∈ E.table, e.1 ≠ c := by
  induction l with
  | nil => simp
  | cons c l ih =>
    rw [List.forall_mem_cons, ← ih, encode_cons]
    constructor
    · intro h
      rcases encodeChar_cases c with ⟨e, he, -, hchar⟩ | ⟨hnone, hchar⟩
      · -- the entity makes the text longer
        have hlength := congrArg List.length h
        have hle := length_le_length_encode (E := E) l
        have hgt := hlong e he
        rw [hchar, List.length_append, List.length_cons] at hlength
        omega
      · rw [hchar, List.singleton_append] at h
        exact ⟨hnone, (List.cons_eq_cons.mp h).2⟩
    · rintro ⟨hc, hl⟩
      rw [encodeChar_of_forall_ne hc, hl, List.singleton_append]

end Escaping
