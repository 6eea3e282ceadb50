import Mathlib.Data.List.Forall2
import Mathlib.Data.PEquiv
import Mathlib.Order.Bounds.Basic
import Reql.Term.Renaming

/-! Tables of renamed variables as partial bijections, and what it means for a comparison that
extends a table step by step to decide whether a renaming exists. -/
namespace Reql

namespace Renaming

/-- All that binding two variables can do. -/
theorem bind_cases (m : Renaming) (a b : VarId) :
    (m.right? a = none ∧ m.left? b = none ∧
        m.bind a b = (true, ⟨(a, b) :: m.forward, (b, a) :: m.backward⟩)) ∨
      (m.right? a = some b ∧ m.left? b = some a ∧ m.bind a b = (true, m)) ∨
      (¬(m.right? a = none ∧ m.left? b = none) ∧ ¬(m.right? a = some b ∧ m.left? b = some a) ∧
        m.bind a b = (false, m)) := by
  by_cases hfree : m.right? a = none ∧ m.left? b = none
  · exact .inl ⟨hfree.1, hfree.2, by rw [bind, hfree.1, hfree.2]⟩
  by_cases hpair : m.right? a = some b ∧ m.left? b = some a
  · exact .inr (.inl ⟨hpair.1, hpair.2, by simp [bind, hpair]⟩)
  refine .inr (.inr ⟨hfree, hpair, ?_⟩)
  unfold bind
  split
  next ha hb => exact absurd ⟨ha, hb⟩ hfree
  next r l ha hb =>
    have hother : ¬(r = b ∧ l = a) := fun h => hpair (by rw [ha, hb, h.1, h.2]; exact ⟨rfl, rfl⟩)
    simpa using hother
  · rfl

/-- Both tables of a renaming are those of one partial bijection. -/
def Represents (m : Renaming) (μ : VarId ≃. VarId) : Prop :=
  (∀ a, m.right? a = μ a) ∧ ∀ b, m.left? b = μ.symm b

theorem represents_empty : empty.Represents ⊥ :=
  ⟨fun _ => rfl, fun _ => rfl⟩

/-- Where each key has one value, looking up a key finds that value. -/
theorem lookup_eq_some_iff_mem {pairs : List (VarId × VarId)} {a b : VarId}
    (h : ∀ p ∈ pairs, ∀ q ∈ pairs, p.1 = q.1 → p.2 = q.2) :
    pairs.lookup a = some b ↔ (a, b) ∈ pairs := by
  induction pairs with
  | nil => simp
  | cons f pairs ih =>
    obtain ⟨x, y⟩ := f
    rw [List.lookup_cons, List.mem_cons]
    by_cases hx : a = x
    · subst hx
      have hhead : (a, b) ∈ pairs → b = y := fun hmem =>
        h _ (List.mem_cons_of_mem _ hmem) _ List.mem_cons_self rfl
      rw [beq_self_eq_true]
      constructor
      · intro heq
        exact .inl (by rw [Option.some.inj heq])
      · rintro (heq | hmem)
        · rw [(Prod.mk.inj heq).2]
        · rw [hhead hmem]
    · have hne : (a, b) ≠ (x, y) := fun heq => hx (Prod.mk.inj heq).1
      rw [beq_false_of_ne hx, or_iff_right hne]
      exact ih fun p hp q hq => h p (List.mem_cons_of_mem _ hp) q (List.mem_cons_of_mem _ hq)

def extend (μ : VarId ≃. VarId) (a b : VarId) (ha : μ a = none) (hb : μ.symm b = none) :
    VarId ≃. VarId where
  toFun x := if x = a then some b else μ x
  invFun y := if y = b then some a else μ.symm y
  inv x y := by
    have hx : μ x = some y ↔ μ.symm y = some x := μ.eq_some_iff.symm
    by_cases hxa : x = a
    · subst hxa
      by_cases hyb : y = b
      · simp [hyb]
      · simp [hyb, ← hx, ha, Ne.symm hyb]
    · by_cases hyb : y = b
      · subst hyb
        simp [hxa, hx, hb, Ne.symm hxa]
      · simp [hxa, hyb, hx]

section Extend

variable {μ ρ : VarId ≃. VarId} {a b : VarId} {ha : μ a = none} {hb : μ.symm b = none}

theorem extend_apply (x : VarId) : extend μ a b ha hb x = if x = a then some b else μ x := rfl

theorem extend_symm_apply (y : VarId) :
    (extend μ a b ha hb).symm y = if y = b then some a else μ.symm y := rfl

theorem le_extend : μ ≤ extend μ a b ha hb := by
  intro x y hy
  have hx : x ≠ a := by
    rintro rfl
    rw [Option.mem_def, ha] at hy
    cases hy
  rw [Option.mem_def, extend_apply, if_neg hx]
  exact hy

/-- The extensions of a partial bijection with one pair more are its extensions with that pair. -/
theorem extend_le_iff (hρ : μ ≤ ρ) : extend μ a b ha hb ≤ ρ ↔ ρ a = some b := by
  constructor
  · intro h
    exact h a b (by rw [Option.mem_def, extend_apply, if_pos rfl])
  · intro h x y hy
    rw [Option.mem_def, extend_apply] at hy
    by_cases hx : x = a
    · rw [if_pos hx] at hy
      rw [hx, h]
      exact hy
    · rw [if_neg hx] at hy
      exact hρ x y hy

end Extend

theorem represents_extend {m : Renaming} {μ : VarId ≃. VarId} (h : m.Represents μ) {a b : VarId}
    (ha : μ a = none) (hb : μ.symm b = none) :
    (⟨(a, b) :: m.forward, (b, a) :: m.backward⟩ : Renaming).Represents (extend μ a b ha hb) := by
  constructor
  · intro x
    rw [extend_apply, ← h.1, right?, right?, List.lookup_cons]
    by_cases hx : x = a
    · simp [hx]
    · have hne : (x == a) = false := beq_false_of_ne hx
      simp [hx, hne]
  · intro y
    rw [extend_symm_apply, ← h.2, left?, left?, List.lookup_cons]
    by_cases hy : y = b
    · simp [hy]
    · have hne : (y == b) = false := beq_false_of_ne hy
      simp [hy, hne]

/-- One comparison after another, up to the first that fails. -/
def andThen (out : Bool × Renaming) (next : Renaming → Bool × Renaming) : Bool × Renaming :=
  match out with
  | (true, m') => next m'
  | (false, m') => (false, m')

/-- A comparison that starts with `μ` decides whether an extension of `μ` has the property `P`: it
succeeds if there is one, and then leaves the least of them behind. Its table only grows. -/
def Decides (μ : VarId ≃. VarId) (P : (VarId ≃. VarId) → Prop) (out : Bool × Renaming) : Prop :=
  ∃ ν, out.2.Represents ν ∧ μ ≤ ν ∧ ∀ ρ, μ ≤ ρ → (P ρ ↔ out.1 = true ∧ ν ≤ ρ)

variable {m : Renaming} {μ : VarId ≃. VarId} {P Q : (VarId ≃. VarId) → Prop}
  {out : Bool × Renaming}

namespace Decides

theorem congr (h : Decides μ P out) (hpq : ∀ ρ, P ρ ↔ Q ρ) : Decides μ Q out := by
  obtain ⟨ν, hν, hle, hiff⟩ := h
  exact ⟨ν, hν, hle, fun ρ hρ => (hpq ρ).symm.trans (hiff ρ hρ)⟩

/-- Nothing depends on the renaming. -/
theorem const (hm : m.Represents μ) {b : Bool} (hb : ∀ ρ, P ρ ↔ b = true) :
    Decides μ P (b, m) :=
  ⟨μ, hm, le_refl μ, fun ρ hρ => (hb ρ).trans (and_iff_left hρ).symm⟩

/-- What has failed for a part fails for the whole. -/
theorem failed (h : Decides μ P (false, m)) (hqp : ∀ ρ, Q ρ → P ρ) : Decides μ Q (false, m) := by
  obtain ⟨ν, hν, hle, hiff⟩ := h
  refine ⟨ν, hν, hle, fun ρ hρ => iff_of_false (fun hQ => ?_) (by simp)⟩
  cases ((hiff ρ hρ).mp (hqp ρ hQ)).1

theorem andThen {f : Renaming → Bool × Renaming} (h : Decides μ P out)
    (hnext : ∀ ν, out.2.Represents ν → Decides ν Q (f out.2)) :
    Decides μ (fun ρ => P ρ ∧ Q ρ) (Renaming.andThen out f) := by
  obtain ⟨b, m'⟩ := out
  cases b with
  | false => exact h.failed fun _ => And.left
  | true =>
    obtain ⟨ν, hν, hle, hiff⟩ := h
    obtain ⟨ν', hν', hle', hiff'⟩ := hnext ν hν
    refine ⟨ν', hν', le_trans hle hle', fun ρ hρ => ?_⟩
    constructor
    · rintro ⟨hP, hQ⟩
      exact (hiff' ρ ((hiff ρ hρ).mp hP).2).mp hQ
    · rintro ⟨hb, hνρ⟩
      have hνρ' : ν ≤ ρ := le_trans hle' hνρ
      exact ⟨(hiff ρ hρ).mpr ⟨rfl, hνρ'⟩, (hiff' ρ hνρ').mpr ⟨hb, hνρ⟩⟩

/-- The verdict says whether there is a renaming. -/
theorem verdict_iff (h : Decides μ P out) : out.1 = true ↔ ∃ ρ, μ ≤ ρ ∧ P ρ := by
  obtain ⟨ν, -, hle, hiff⟩ := h
  constructor
  · intro hb
    exact ⟨ν, hle, (hiff ν hle).mpr ⟨hb, le_refl ν⟩⟩
  · rintro ⟨ρ, hρ, hP⟩
    exact ((hiff ρ hρ).mp hP).1

/-- The table of a comparison that succeeds is that of the least renaming. -/
theorem isLeast (h : Decides μ P out) (hb : out.1 = true) :
    ∃ ν, out.2.Represents ν ∧ IsLeast {ρ | μ ≤ ρ ∧ P ρ} ν := by
  obtain ⟨ν, hν, hle, hiff⟩ := h
  refine ⟨ν, hν, ⟨hle, (hiff ν hle).mpr ⟨hb, le_refl ν⟩⟩, ?_⟩
  rintro ρ ⟨hρ, hP⟩
  exact ((hiff ρ hρ).mp hP).2

/-- Two ways to decide the same come to the same. -/
theorem agree {out' : Bool × Renaming} (h : Decides μ P out) (h' : Decides μ P out') :
    out.1 = out'.1 ∧ (out.1 = true → ∀ a, out.2.right? a = out'.2.right? a) := by
  have hverdict : out.1 = out'.1 := by
    rw [Bool.eq_iff_iff, h.verdict_iff, h'.verdict_iff]
  refine ⟨hverdict, fun hb a => ?_⟩
  obtain ⟨ν, hν, hleast⟩ := h.isLeast hb
  obtain ⟨ν', hν', hleast'⟩ := h'.isLeast (hverdict ▸ hb)
  rw [hν.1, hν'.1, hleast.unique hleast']

end Decides

/-- Binding two variables decides whether they can be partners. -/
theorem bind_decides (hm : m.Represents μ) (a b : VarId) :
    Decides μ (fun ρ => ρ a = some b) (m.bind a b) := by
  rcases bind_cases m a b with ⟨ha, hb, hbind⟩ | ⟨ha, -, hbind⟩ | ⟨hfree, hpair, hbind⟩ <;>
    rw [hbind]
  · rw [hm.1] at ha
    rw [hm.2] at hb
    refine ⟨extend μ a b ha hb, represents_extend hm ha hb, le_extend, fun ρ hρ => ?_⟩
    rw [extend_le_iff hρ]
    simp
  · rw [hm.1] at ha
    exact ⟨μ, hm, le_refl μ, fun ρ hρ => iff_of_true (hρ a b ha) ⟨rfl, hρ⟩⟩
  · rw [hm.1, hm.2] at hfree hpair
    refine ⟨μ, hm, le_refl μ, fun ρ hρ => iff_of_false (fun h => ?_) (by simp)⟩
    -- A renaming that makes them partners extends whatever either of them has been bound to.
    have hunpaired : μ a ≠ some b := fun ha => hpair ⟨ha, μ.eq_some_iff.mpr ha⟩
    cases ha : μ a with
    | none =>
      obtain ⟨x, hx⟩ := Option.ne_none_iff_exists'.mp fun hb => hfree ⟨ha, hb⟩
      have hxb : μ x = some b := μ.eq_some_iff.mp hx
      obtain rfl := ρ.inj h (hρ x b hxb)
      exact hunpaired hxb
    | some y =>
      obtain rfl : y = b := Option.some.inj ((hρ a y ha).symm.trans h)
      exact hunpaired ha

/-- Corresponding variables of two lists are partners. -/
def Pairs (ps qs : List VarId) (ρ : VarId ≃. VarId) : Prop :=
  List.Forall₂ (fun p q => ρ p = some q) ps qs

theorem bindAll_decides (hm : m.Represents μ) {ps qs : List VarId} (h : ps.length = qs.length) :
    Decides μ (Pairs ps qs) (m.bindAll ps qs) := by
  induction ps generalizing qs m μ with
  | nil =>
    obtain rfl : qs = [] := List.length_eq_zero_iff.mp h.symm
    exact .const hm fun ρ => by simp [Pairs]
  | cons p ps ih =>
    cases qs with
    | nil => cases h
    | cons q qs =>
      have hstep := (bind_decides hm p q).andThen (Q := Pairs ps qs)
        (f := fun m' => m'.bindAll ps qs) fun ν hν => ih hν (Nat.succ.inj h)
      have hcons (ρ : VarId ≃. VarId) :
          ρ p = some q ∧ Pairs ps qs ρ ↔ Pairs (p :: ps) (q :: qs) ρ := by
        simp only [Pairs, List.forall₂_cons]
      exact hstep.congr hcons

end Renaming
end Reql
