import Mathlib.Data.List.TakeWhile
import Reql.Settings.Text

/-! How settings text is cut into pieces: parts between separators, names and values, numbers. -/
namespace Reql.Settings

section Trim

variable {cs ds name value : List Char}

def AllBlank (cs : List Char) : Prop :=
  ∀ c ∈ cs, isBlank c = true

theorem dropWhile_eq_nil_of_blank (h : AllBlank cs) : cs.dropWhile isBlank = [] :=
  List.dropWhile_eq_nil_iff.mpr h

theorem trim_eq_nil_iff : trim cs = [] ↔ AllBlank cs := by
  constructor
  · intro h
    have hinner : (cs.dropWhile isBlank).reverse.dropWhile isBlank = [] :=
      List.reverse_eq_nil_iff.mp h
    intro c hc
    rw [← cs.takeWhile_append_dropWhile (p := isBlank), List.mem_append] at hc
    rcases hc with hc | hc
    · exact List.mem_takeWhile_imp hc
    · exact List.dropWhile_eq_nil_iff.mp hinner c (List.mem_reverse.mpr hc)
  · intro h
    rw [trim, dropWhile_eq_nil_of_blank h]
    rfl

theorem trim_blank_append (h : AllBlank ds) (cs : List Char) : trim (ds ++ cs) = trim cs := by
  rw [trim, List.dropWhile_append, dropWhile_eq_nil_of_blank h]
  rfl

theorem trim_append_blank (h : AllBlank ds) (cs : List Char) : trim (cs ++ ds) = trim cs := by
  unfold trim
  rw [List.dropWhile_append]
  split
  next hempty =>
    rw [dropWhile_eq_nil_of_blank h, List.isEmpty_iff.mp hempty]
  next =>
    have hreverse : AllBlank ds.reverse := fun c hc => h c (List.mem_reverse.mp hc)
    rw [List.reverse_append, List.dropWhile_append, dropWhile_eq_nil_of_blank hreverse]
    rfl

/-- Blanks around a text are no part of it. -/
theorem trim_padded {before after : List Char} (hbefore : AllBlank before)
    (hafter : AllBlank after) (cs : List Char) : trim (before ++ cs ++ after) = trim cs := by
  rw [trim_append_blank hafter, trim_blank_append hbefore]

/-- A text is its trimmed form with blanks around it. -/
theorem exists_padded (cs : List Char) :
    ∃ before after, AllBlank before ∧ AllBlank after ∧ cs = before ++ trim cs ++ after := by
  let behind := ((cs.dropWhile isBlank).reverse.takeWhile isBlank).reverse
  have hbehind : trim cs ++ behind = cs.dropWhile isBlank := by
    rw [trim, ← List.reverse_append, List.takeWhile_append_dropWhile, List.reverse_reverse]
  refine ⟨cs.takeWhile isBlank, behind, fun c hc => List.mem_takeWhile_imp hc,
    fun c hc => List.mem_takeWhile_imp (List.mem_reverse.mp hc), ?_⟩
  rw [List.append_assoc, hbehind, List.takeWhile_append_dropWhile]

theorem trim_trim (cs : List Char) : trim (trim cs) = trim cs := by
  obtain ⟨before, after, hbefore, hafter, hcs⟩ := exists_padded cs
  calc trim (trim cs) = trim (before ++ trim cs ++ after) := (trim_padded hbefore hafter _).symm
    _ = trim cs := by rw [← hcs]

theorem dropWhile_append_cons {c : Char} (hc : isBlank c = false) (cs ds : List Char) :
    (cs ++ c :: ds).dropWhile isBlank = cs.dropWhile isBlank ++ c :: ds := by
  rw [List.dropWhile_append, List.dropWhile_cons_of_neg (by simp [hc])]
  split
  next hempty => rw [List.isEmpty_iff.mp hempty, List.nil_append]
  next => rfl

/-- Trimming the text of a name and a value leaves them, up to blanks around them. -/
theorem exists_trim_entry (value : List Char) (h : '=' ∉ name) : ∃ name' value',
    trim (name ++ '=' :: value) = name' ++ '=' :: value' ∧ '=' ∉ name' ∧
      trim name' = trim name ∧ trim value' = trim value := by
  have hblank (ds : List Char) : AllBlank (ds.takeWhile isBlank) :=
    fun c hc => List.mem_takeWhile_imp hc
  have hequals : isBlank '=' = false := by decide
  let behind := (value.reverse.takeWhile isBlank).reverse
  have hbehind : AllBlank behind := fun c hc => hblank _ c (List.mem_reverse.mp hc)
  have hvalue : (value.reverse.dropWhile isBlank).reverse ++ behind = value := by
    rw [← List.reverse_append, List.takeWhile_append_dropWhile, List.reverse_reverse]
  refine ⟨name.dropWhile isBlank, (value.reverse.dropWhile isBlank).reverse, ?_,
    fun hmem => h (List.dropWhile_subset _ hmem), ?_, ?_⟩
  · rw [trim, dropWhile_append_cons hequals, List.reverse_append, List.reverse_cons,
      List.append_assoc, List.singleton_append, dropWhile_append_cons hequals]
    simp
  · rw [← trim_blank_append (hblank name), List.takeWhile_append_dropWhile]
  · rw [← trim_append_blank hbehind, hvalue]

end Trim

section Parts

variable {separator : Char} {cs name value : List Char}

theorem splitAt_eq_splitOn (separator : Char) (cs : List Char) :
    splitAt separator cs = cs.splitOn separator := by
  rw [List.splitOn_eq_splitOnP]
  induction cs with
  | nil => rfl
  | cons c rest ih =>
    rw [splitAt, List.splitOnP_cons_eq_if_modifyHead, ih]
    by_cases hc : c = separator
    · simp [hc]
    · rw [if_neg hc, if_neg (by simpa using hc)]
      cases hparts : List.splitOnP (· == separator) rest with
      | nil => exact absurd hparts (List.splitOnP_ne_nil _ _)
      | cons part parts => rfl

theorem cut?_eq_none_iff : cut? separator cs = none ↔ separator ∉ cs := by
  induction cs with
  | nil => simp [cut?]
  | cons c rest ih =>
    rw [cut?]
    by_cases hc : c = separator
    · simp [hc]
    · simp [hc, ih, Ne.symm hc]

/-- The cut is at the first separator. -/
theorem cut?_append (h : separator ∉ name) (value : List Char) :
    cut? separator (name ++ separator :: value) = some (name, value) := by
  induction name with
  | nil => simp [cut?]
  | cons c rest ih =>
    obtain ⟨hc, hrest⟩ := not_or.mp (List.mem_cons.not.mp h)
    rw [List.cons_append, cut?, if_neg (Ne.symm hc), ih hrest]
    rfl

theorem cut?_eq_some_iff : cut? separator cs = some (name, value) ↔
    cs = name ++ separator :: value ∧ separator ∉ name := by
  constructor
  · intro h
    have hmem : separator ∈ cs := Decidable.not_not.mp fun hnot => by
      rw [cut?_eq_none_iff.mpr hnot] at h
      cases h
    obtain ⟨before, after, rfl, hbefore⟩ := List.eq_append_cons_of_mem hmem
    rw [cut?_append hbefore] at h
    cases h
    exact ⟨rfl, hbefore⟩
  · rintro ⟨rfl, h⟩
    exact cut?_append h value

end Parts

section Word

variable {digits value : List Char} {w : UInt64}

/-- The text is a decimal number that fits a word; a plus sign may stand in front. -/
def Writes (value : List Char) (w : UInt64) : Prop :=
  ∃ digits, (value = digits ∨ value = '+' :: digits) ∧ digits ≠ [] ∧
    (∀ c ∈ digits, c.isDigit = true) ∧ Nat.ofDigitChars 10 digits 0 = w.toNat

theorem le_ofDigitChars (digits : List Char) (n : Nat) : n ≤ Nat.ofDigitChars 10 digits n := by
  induction digits generalizing n with
  | nil => exact Nat.le_refl n
  | cons c rest ih =>
    rw [Nat.ofDigitChars_cons]
    exact Nat.le_trans (by omega) (ih _)

theorem isDigit_iff {c : Char} : c.isDigit = true ↔ '0' ≤ c ∧ c ≤ '9' := by
  rw [Char.isDigit, Bool.and_eq_true, decide_eq_true_iff, decide_eq_true_iff]
  rfl

theorem wordFrom?_eq_some_iff {n : Nat} (hn : n < UInt64.size) : wordFrom? n digits = some w ↔
    (∀ c ∈ digits, c.isDigit = true) ∧ Nat.ofDigitChars 10 digits n = w.toNat := by
  induction digits generalizing n with
  | nil =>
    have hofNat : UInt64.ofNat n = w ↔ n = w.toNat := by
      rw [← UInt64.toNat_inj, UInt64.toNat_ofNat_of_lt' hn]
    simpa [wordFrom?, Nat.ofDigitChars] using hofNat
  | cons c rest ih =>
    rw [wordFrom?, List.forall_mem_cons, isDigit_iff, Nat.ofDigitChars_cons]
    by_cases hc : '0' ≤ c ∧ c ≤ '9'
    · rw [if_pos hc, and_iff_right hc]
      by_cases hm : 10 * n + (c.toNat - '0'.toNat) < UInt64.size
      · rw [if_pos hm, ih hm]
      -- Further digits only make the number greater.
      · rw [if_neg hm]
        refine iff_of_false (by simp) ?_
        rintro ⟨-, h⟩
        have hle := le_ofDigitChars rest (10 * n + (c.toNat - '0'.toNat))
        have hlt := w.toNat_lt_size
        omega
    · rw [if_neg hc]
      simp [hc]

theorem word?_eq_some_iff : word? value = some w ↔ Writes value w := by
  have hzero : 0 < UInt64.size := by decide
  have hsign : '+'.isDigit = false := rfl
  have hplus {ds : List Char} (hds : ∀ c ∈ '+' :: ds, c.isDigit = true) : False := by
    rw [hds '+' List.mem_cons_self] at hsign
    cases hsign
  unfold word?
  split
  next =>
    refine iff_of_false (by simp) ?_
    rintro ⟨ds, rfl | h, hne, -⟩
    · exact hne rfl
    · cases h
  next =>
    refine iff_of_false (by simp) ?_
    rintro ⟨ds, rfl | h, hne, hdigits, -⟩
    · exact hplus hdigits
    · cases h
      exact hne rfl
  next digits hdigits =>
    rw [wordFrom?_eq_some_iff hzero]
    constructor
    · intro h
      exact ⟨digits, .inr rfl, hdigits, h⟩
    · rintro ⟨ds, rfl | h, -, hds⟩
      · exact (hplus hds.1).elim
      · cases h
        exact hds
  next hnil _ hother =>
    rw [wordFrom?_eq_some_iff hzero]
    constructor
    · intro h
      exact ⟨value, .inl rfl, hnil, h⟩
    · rintro ⟨ds, rfl | h, -, hds⟩
      · exact hds
      · exact (hother ds h).elim

theorem Writes.unique {w' : UInt64} (h : Writes value w) (h' : Writes value w') : w = w' :=
  Option.some.inj ((word?_eq_some_iff.mpr h).symm.trans (word?_eq_some_iff.mpr h'))

end Word

end Reql.Settings
