import Mathlib.Data.List.Basic

/-!
# Rows of attributes

An attribute is a name and a quoted value. A row of them is read back from its text as long as no name
contains the character in front of a value, and no value the quote.
-/

/-- The characters around a value: `name equals quote value quote space`. -/
structure AttributeFormat (α : Type*) where
  equals : α
  quote : α
  space : α

namespace AttributeFormat

variable {α : Type*} {F : AttributeFormat α} {n v l acc : List α} {as : List (List α × List α)}

/-- Where the reader stands, with what it has read of the attribute. -/
inductive Reader (α : Type*)
  | name (acc : List α)
  | equals (name : List α)
  | value (name acc : List α)
  | quote (name value : List α)

section Defs

variable (F)

def encodeOne (a : List α × List α) : List α := a.1 ++ F.equals :: F.quote :: a.2 ++ [F.quote, F.space]

def encode (as : List (List α × List α)) : List α := as.flatMap F.encodeOne

variable [DecidableEq α]

/-- Read a row from its text. -/
def read : Reader α → List α → Option (List (List α × List α))
  | .name acc, [] => if acc = [] then some [] else none
  | .name acc, c :: l =>
    if c = F.equals then read (.equals acc.reverse) l else read (.name (c :: acc)) l
  | .equals name, c :: l => if c = F.quote then read (.value name []) l else none
  | .value name acc, c :: l =>
    if c = F.quote then read (.quote name acc.reverse) l else read (.value name (c :: acc)) l
  | .quote name value, c :: l =>
    if c = F.space then (read (.name []) l).map ((name, value) :: ·) else none
  | _, [] => none

def decode (l : List α) : Option (List (List α × List α)) := F.read (.name []) l

end Defs

/-- The text can be read back. -/
def Readable (F : AttributeFormat α) (a : List α × List α) : Prop :=
  F.equals ∉ a.1 ∧ F.quote ∉ a.2

theorem encode_append (as bs : List (List α × List α)) :
    F.encode (as ++ bs) = F.encode as ++ F.encode bs := List.flatMap_append

variable [DecidableEq α]

theorem read_name (hn : F.equals ∉ n) (l : List α) :
    F.read (.name acc) (n ++ F.equals :: l) = F.read (.equals (acc.reverse ++ n)) l := by
  induction n generalizing acc with
  | nil => rw [List.nil_append, read, if_pos rfl, List.append_nil]
  | cons c n ih =>
    obtain ⟨hc, hn⟩ := not_or.mp (mt List.mem_cons.mpr hn)
    rw [List.cons_append, read, if_neg (Ne.symm hc), ih hn, List.reverse_cons, List.append_assoc,
      List.singleton_append]

theorem read_value (hv : F.quote ∉ v) (l : List α) :
    F.read (.value n acc) (v ++ F.quote :: l) = F.read (.quote n (acc.reverse ++ v)) l := by
  induction v generalizing acc with
  | nil => rw [List.nil_append, read, if_pos rfl, List.append_nil]
  | cons c v ih =>
    obtain ⟨hc, hv⟩ := not_or.mp (mt List.mem_cons.mpr hv)
    rw [List.cons_append, read, if_neg (Ne.symm hc), ih hv, List.reverse_cons, List.append_assoc,
      List.singleton_append]

theorem decode_encodeOne_append {a : List α × List α} (ha : F.Readable a) (l : List α) :
    F.decode (F.encodeOne a ++ l) = (F.decode l).map (a :: ·) := by
  have hsplit : F.encodeOne a ++ l =
      a.1 ++ F.equals :: (F.quote :: (a.2 ++ F.quote :: (F.space :: l))) := by
    rw [encodeOne, List.append_assoc, List.append_assoc]
    rfl
  rw [hsplit, decode, read_name ha.1, read, if_pos rfl, read_value ha.2, read, if_pos rfl]
  rfl

/-- A row is read back from its text. -/
theorem decode_encode (h : ∀ a ∈ as, F.Readable a) : F.decode (F.encode as) = some as := by
  induction as with
  | nil => rfl
  | cons a as ih =>
    rw [encode, List.flatMap_cons, decode_encodeOne_append (h a List.mem_cons_self)]
    exact congrArg _ (ih fun b hb => h b (List.mem_cons_of_mem a hb))

end AttributeFormat
