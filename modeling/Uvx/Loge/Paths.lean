import Uvx.Loge.ValidText

/-!
# The paths kept by `shorten_path`

The loop of `shorten_path` walks the separators of the file name from the last one to the front and
may stop early at index 0, which is both a separator and the mark that nothing is cut. Where it stops
is read off the list of all separators (`cutAt_walkBack`).
-/

namespace Uvx.Loge

/-- The loop of `shorten_path`, which notes the arguments `from` that it hands to `strrchr_from`. -/
def tracedLoop (file : CString) (slash : UInt8) : ℕ → Option ℕ → Option ℕ × List ℤ
  | count + 1, some (i + 1) =>
    let r := tracedLoop file slash count (strrchrFrom file (toInt i) slash)
    (r.1, toInt i :: r.2)
  | _, lastSlash => (lastSlash, [])

theorem tracedLoop_succ (file : CString) (slash : UInt8) (count i : ℕ) :
    tracedLoop file slash (count + 1) (some (i + 1)) =
      let r := tracedLoop file slash count (strrchrFrom file (toInt i) slash)
      (r.1, toInt i :: r.2) := by
  rw [tracedLoop]

/-- Noting the arguments does not change the loop. -/
theorem tracedLoop_fst (file : CString) (slash : UInt8) (count : ℕ) (lastSlash : Option ℕ) :
    (tracedLoop file slash count lastSlash).1 = shortenLoop file slash count lastSlash := by
  rw [shortenLoop_eq_walkBack]
  induction count generalizing lastSlash with
  | zero => simp [tracedLoop, walkBack_zero]
  | succ count ih =>
    rcases lastSlash with _ | _ | i
    · simp [tracedLoop, walkBack_none]
    · simp [tracedLoop, walkBack_front]
    · rw [tracedLoop_succ, walkBack, ← ih]

/-- The arguments `from` of the calls of `strrchr_from` made by `shorten_path`. -/
def shortenStarts (file : CString) : List ℤ :=
  let slash : UInt8 := 47
  let lastSlash := strrchr file slash
  let slash := if lastSlash.isNone then 92 else slash
  let lastSlash := if lastSlash.isNone then strrchr file slash else lastSlash
  (tracedLoop file slash 2 lastSlash).2

/-- The separator of a file name: `'/'` if there is one, else `'\\'`. -/
def sepOf (file : CString) : UInt8 :=
  if 47 ∈ file.bytes then 47 else 92

/-! ## The separators in front of an index -/

/-- The indices below `n` at which `c` stands, last first. -/
def occurs (c : UInt8) (l : List UInt8) (n : ℕ) : List ℕ :=
  ((l.take n).idxsOf c).reverse

theorem occurs_zero (c : UInt8) (l : List UInt8) : occurs c l 0 = [] := by
  rw [occurs, List.take_zero, List.idxsOf_nil, List.reverse_nil]

theorem occurs_length (c : UInt8) (l : List UInt8) :
    occurs c l l.length = (l.idxsOf c).reverse := by
  rw [occurs, List.take_length]

theorem occurs_succ {c : UInt8} {l : List UInt8} {n : ℕ} (hn : n < l.length) :
    occurs c l (n + 1) = if l[n] = c then n :: occurs c l n else occurs c l n := by
  have hlen : (l.take n).length = n := List.length_take_of_le hn.le
  rw [occurs, List.take_succ_eq_append_getElem hn, List.idxsOf_append, List.reverse_append, hlen,
    Nat.zero_add, List.idxsOf_cons, List.idxsOf_nil, occurs]
  by_cases hc : l[n] = c
  · rw [if_pos hc, if_pos (beq_iff_eq.mpr hc), List.reverse_singleton, List.singleton_append]
  · rw [if_neg hc, if_neg (by rwa [beq_iff_eq]), List.reverse_nil, List.nil_append]

/-- Behind the last separator come the separators in front of it. -/
theorem occurs_tail {c : UInt8} {l : List UInt8} {n i : ℕ} (hn : n ≤ l.length)
    (h : (occurs c l n).head? = some i) : i < n ∧ occurs c l n = i :: occurs c l i := by
  induction n with
  | zero =>
    rw [occurs_zero] at h
    exact absurd h (by simp)
  | succ n ih =>
    rw [occurs_succ hn] at h ⊢
    by_cases hc : l[n] = c
    · rw [if_pos hc, List.head?_cons, Option.some_inj] at h
      rw [if_pos hc, h]
      exact ⟨by omega, rfl⟩
    · rw [if_neg hc] at h ⊢
      obtain ⟨hlt, htail⟩ := ih (Nat.le_of_succ_le hn) h
      exact ⟨by omega, htail⟩

theorem lastIndex?_eq (c : UInt8) (l : List UInt8) : lastIndex? c l = (l.idxsOf c).getLast? := by
  induction l with
  | nil => rfl
  | cons a l ih =>
    have hshift : (l.idxsOf c (0 + 1)).getLast? = (lastIndex? c l).map (· + 1) := by
      rw [List.idxsOf_start, List.getLast?_map, ih]
    rw [lastIndex?, List.idxsOf_cons]
    by_cases hc : a = c
    · rw [if_pos (beq_iff_eq.mpr hc), List.getLast?_cons, hshift, if_pos hc]
      cases lastIndex? c l <;> rfl
    · rw [if_neg hc, if_neg (mt beq_iff_eq.mp hc), hshift]
      cases lastIndex? c l <;> rfl

theorem strrchr_eq (s : CString) (c : UInt8) :
    strrchr s c = (occurs c s.bytes s.length).head? := by
  rw [strrchr, lastIndex?_eq, CString.length, occurs_length, List.head?_reverse]

theorem strrchrDown_eq {s : CString} {c : UInt8} {n : ℕ} (hn : n < s.length) :
    strrchrDown s c n = (occurs c s.bytes (n + 1)).head? := by
  induction n with
  | zero =>
    rw [strrchrDown, CString.get_of_lt hn, occurs_succ hn, occurs_zero]
    by_cases hc : s.bytes[0] = c
    · rw [if_pos hc, if_pos hc, List.head?_cons]
    · rw [if_neg hc, if_neg hc, List.head?_nil]
  | succ n ih =>
    rw [strrchrDown, CString.get_of_lt hn, occurs_succ hn]
    by_cases hc : s.bytes[n + 1] = c
    · rw [if_pos hc, if_pos hc, List.head?_cons]
    · rw [if_neg hc, if_neg hc, ih (Nat.lt_of_succ_lt hn)]

/-! ## Where the loop stops -/

/-- The number of bytes cut in front of a final separator. -/
def cutAt : Option ℕ → ℕ
  | some (i + 1) => i + 2
  | _ => 0

@[simp] theorem cutAt_none : cutAt none = 0 := rfl

@[simp] theorem cutAt_front : cutAt (some 0) = 0 := rfl

@[simp] theorem cutAt_succ (i : ℕ) : cutAt (some (i + 1)) = i + 2 := rfl

theorem isNone_strrchr (file : CString) (c : UInt8) :
    (strrchr file c).isNone = true ↔ c ∉ file.bytes := by
  rw [strrchr, lastIndex?_eq, Option.isNone_iff_eq_none, List.getLast?_eq_none_iff,
    List.idxsOf_eq_nil_iff]
  constructor
  · intro h hmem
    exact absurd (h c hmem) (by simp)
  · intro h y hy
    exact beq_false_of_ne fun hyc => h (hyc ▸ hy)

theorem sepOf_eq (file : CString) :
    (if (strrchr file 47).isNone then 92 else 47) = sepOf file := by
  rw [sepOf]
  by_cases hmem : 47 ∈ file.bytes
  · rw [if_neg (mt (isNone_strrchr file 47).mp (not_not_intro hmem)), if_pos hmem]
  · rw [if_pos ((isNone_strrchr file 47).mpr hmem), if_neg hmem]

theorem lastSlash_eq (file : CString) :
    (if (strrchr file 47).isNone then strrchr file (sepOf file) else strrchr file 47) =
      strrchr file (sepOf file) := by
  rw [← sepOf_eq]
  split_ifs <;> rfl

theorem shortenIndex_eq (file : CString) :
    shortenIndex file =
      cutAt (shortenLoop file (sepOf file) 2 (strrchr file (sepOf file))) := by
  simp only [shortenIndex, sepOf_eq, lastSlash_eq]
  rfl

theorem shortenStarts_eq (file : CString) :
    shortenStarts file = (tracedLoop file (sepOf file) 2 (strrchr file (sepOf file))).2 := by
  simp only [shortenStarts, sepOf_eq, lastSlash_eq]

/-- Every step of the loop goes one separator to the front, except from index 0. -/
theorem cutAt_walkBack (prev : ℕ → Option ℕ) {c : UInt8} {l : List UInt8}
    (hprev : ∀ i, i < l.length → prev i = (occurs c l (i + 1)).head?) (count : ℕ) {n : ℕ}
    (hn : n ≤ l.length) :
    cutAt (walkBack prev count (occurs c l n).head?) = cutAt (occurs c l n)[count]? := by
  induction count generalizing n with
  | zero => rw [walkBack_zero, List.head?_eq_getElem?]
  | succ count ih =>
    rcases hlast : (occurs c l n).head? with _ | i
    · rw [List.head?_eq_none_iff] at hlast
      rw [walkBack_none, hlast, List.getElem?_nil]
    · obtain ⟨hlt, htail⟩ := occurs_tail hn hlast
      rw [htail, List.getElem?_cons_succ]
      rcases i with _ | i
      · rw [walkBack_front, occurs_zero, List.getElem?_nil, cutAt_front, cutAt_none]
      · rw [walkBack, hprev i (by omega), ih (by omega)]

theorem strrchrFrom_eq {file : CString} (hlen : file.length < 2 ^ 31) (c : UInt8) {i : ℕ}
    (hi : i < file.length) : strrchrFrom file (toInt i) c = (occurs c file.bytes (i + 1)).head? := by
  have hcast : toInt (i : ℤ) = i := toInt_of_lt (by omega) (by omega)
  rw [strrchrFrom, hcast, Int.toNat_natCast, strrchrDown_eq hi]

theorem tracedLoop_mem {file : CString} (hlen : file.length < 2 ^ 31) (c : UInt8) (count : ℕ) {n : ℕ}
    (hn : n ≤ file.length) {start : ℤ}
    (h : start ∈ (tracedLoop file c count (occurs c file.bytes n).head?).2) :
    0 ≤ start ∧ start < file.length := by
  induction count generalizing n with
  | zero => exact absurd h (by simp [tracedLoop])
  | succ count ih =>
    rcases hlast : (occurs c file.bytes n).head? with _ | _ | i
    · exact absurd h (by simp [hlast, tracedLoop])
    · exact absurd h (by simp [hlast, tracedLoop])
    · obtain ⟨hlt, -⟩ := occurs_tail hn hlast
      have hcast : toInt (i : ℤ) = i := toInt_of_lt (by omega) (by omega)
      rw [hlast, tracedLoop_succ, List.mem_cons, strrchrFrom_eq hlen c (by omega), hcast] at h
      rcases h with rfl | h
      · omega
      · exact ih (by omega) h

/-- What `shorten_path` cuts is read off the third separator from the end. -/
theorem shortenIndex_eq_cutAt {file : CString} (hlen : file.length < 2 ^ 31) :
    shortenIndex file = cutAt (file.bytes.idxsOf (sepOf file)).reverse[2]? := by
  have hwalk := cutAt_walkBack (fun i => strrchrFrom file (toInt i) (sepOf file))
    (fun i hi => strrchrFrom_eq hlen _ hi) 2 (Nat.le_refl file.bytes.length)
  rw [shortenIndex_eq, shortenLoop_eq_walkBack, strrchr_eq, CString.length, hwalk, occurs_length]

/-! ## What is left is kept -/

theorem length_occurs (c : UInt8) (l : List UInt8) (n : ℕ) :
    (occurs c l n).length = (l.take n).count c := by
  rw [occurs, List.length_reverse, List.length_idxsOf]

/-- In front of an occurrence that `k` others follow stand all the rest. -/
theorem length_occurs_of_getElem? {c : UInt8} {l : List UInt8} {n k i : ℕ} (hn : n ≤ l.length)
    (h : (occurs c l n)[k]? = some i) :
    i < n ∧ (occurs c l n).length = (occurs c l i).length + (k + 1) := by
  induction k generalizing n with
  | zero =>
    rw [← List.head?_eq_getElem?] at h
    obtain ⟨hlt, htail⟩ := occurs_tail hn h
    rw [htail, List.length_cons]
    exact ⟨hlt, rfl⟩
  | succ k ih =>
    rcases hlast : (occurs c l n).head? with _ | j
    · rw [List.head?_eq_none_iff.mp hlast] at h
      exact absurd h (by simp)
    · obtain ⟨hlt, htail⟩ := occurs_tail hn hlast
      rw [htail, List.getElem?_cons_succ] at h
      obtain ⟨hij, hlen⟩ := ih (by omega) h
      rw [htail, List.length_cons, hlen]
      omega

/-- Behind the third occurrence from the end stand exactly two. -/
theorem count_drop_of_idxsOf {c : UInt8} {l : List UInt8} {i : ℕ}
    (h : (l.idxsOf c).reverse[2]? = some i) : (l.drop (i + 1)).count c = 2 := by
  have hmem := List.mem_reverse.mp (List.mem_of_getElem? h)
  obtain ⟨hi, hc⟩ := List.mem_idxsOf_iff_exists_getElem_pos.mp hmem
  rw [← occurs_length] at h
  obtain ⟨-, hall⟩ := length_occurs_of_getElem? (Nat.le_refl _) h
  have hfront : (occurs c l (i + 1)).length = (occurs c l i).length + 1 := by
    rw [occurs_succ hi, if_pos (beq_iff_eq.mp hc), List.length_cons]
  have hsplit : l.count c = (l.take (i + 1)).count c + (l.drop (i + 1)).count c := by
    rw [← List.count_append, List.take_append_drop]
  rw [← length_occurs, hfront] at hsplit
  rw [length_occurs c l l.length, List.take_length] at hall
  omega

theorem sepOf_of_mem {file : CString} (h : 47 ∈ file.bytes) : sepOf file = 47 := by
  rw [sepOf, if_pos h]

theorem sepOf_of_notMem {file : CString} (h : 47 ∉ file.bytes) : sepOf file = 92 := by
  rw [sepOf, if_neg h]

/-- The rest behind a cut has the separator of the whole name. -/
theorem sepOf_drop {file : CString} {k : ℕ} (h : (file.drop k).bytes.count (sepOf file) ≠ 0) :
    sepOf (file.drop k) = sepOf file := by
  by_cases hslash : 47 ∈ file.bytes
  · rw [sepOf_of_mem hslash] at h ⊢
    exact sepOf_of_mem (List.count_pos_iff.mp (Nat.pos_of_ne_zero h))
  · rw [sepOf_of_notMem hslash]
    exact sepOf_of_notMem fun hmem => hslash (List.mem_of_mem_drop hmem)

theorem CString.drop_zero (s : CString) : s.drop 0 = s := rfl

theorem length_drop_le (file : CString) (k : ℕ) : (file.drop k).length ≤ file.length := by
  rw [CString.length, CString.drop, List.length_drop]
  exact Nat.sub_le _ _

theorem shortenIndex_drop {file : CString} (hlen : file.length < 2 ^ 31) :
    shortenIndex (file.drop (shortenIndex file)) = 0 := by
  have hcut := shortenIndex_eq_cutAt hlen
  have hwhole (h : shortenIndex file = 0) : shortenIndex (file.drop (shortenIndex file)) = 0 := by
    rw [h, CString.drop_zero, h]
  rcases hthird : (file.bytes.idxsOf (sepOf file)).reverse[2]? with _ | _ | i
  · rw [hthird, cutAt_none] at hcut
    exact hwhole hcut
  · rw [hthird, cutAt_front] at hcut
    exact hwhole hcut
  · rw [hthird, cutAt_succ] at hcut
    -- two separators are left, so no third one from the end
    have hcount : (file.drop (i + 2)).bytes.count (sepOf file) = 2 := count_drop_of_idxsOf hthird
    have hnone : ((file.drop (i + 2)).bytes.idxsOf (sepOf file)).reverse[2]? = none := by
      rw [List.getElem?_eq_none_iff, List.length_reverse, List.length_idxsOf, hcount]
    rw [hcut, shortenIndex_eq_cutAt (Nat.lt_of_le_of_lt (length_drop_le file _) hlen),
      sepOf_drop (by omega), hnone, cutAt_none]

/-- **`shorten_path` keeps what stands behind the third separator from the end**, or the whole name
when there is none or it stands at index 0. All its searches start inside the name, and what it kept
it keeps whole. -/
theorem shortenPath_eq (file : CString) (hlen : file.length < 2 ^ 31) :
    shortenPath (some file) = some
        (match (file.bytes.idxsOf (sepOf file)).reverse[2]? with
          | some (i + 1) => file.drop (i + 2)
          | _ => file) ∧
      (∀ start ∈ shortenStarts file, 0 ≤ start ∧ start < file.length) ∧
      shortenPath (shortenPath (some file)) = shortenPath (some file) := by
  refine ⟨?_, ?_, ?_⟩
  · rw [shortenPath, Option.map_some, shortenIndex_eq_cutAt hlen]
    rcases (file.bytes.idxsOf (sepOf file)).reverse[2]? with _ | _ | i <;> rfl
  · intro start hstart
    rw [shortenStarts_eq, strrchr_eq] at hstart
    exact tracedLoop_mem hlen _ 2 (Nat.le_refl _) hstart
  · rw [shortenPath, shortenPath, Option.map_some, Option.map_some, shortenIndex_drop hlen,
      CString.drop_zero]

/-- The path `/a/b/c/d`. -/
theorem shortenPath_eq_four :
    let file : CString := ⟨[47, 97, 47, 98, 47, 99, 47, 100], by decide⟩
    shortenPath (some file) = some ⟨[98, 47, 99, 47, 100], by decide⟩ ∧
      (∀ start ∈ shortenStarts file, 0 ≤ start ∧ start < file.length) ∧
      shortenPath (shortenPath (some file)) = shortenPath (some file) :=
  shortenPath_eq ⟨[47, 97, 47, 98, 47, 99, 47, 100], by decide⟩ (by decide)

end Uvx.Loge
