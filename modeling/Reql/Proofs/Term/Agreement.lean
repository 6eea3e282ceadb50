import Mathlib.Data.List.Perm.Subperm
import Reql.Proofs.Term.Renaming
import Reql.Query.Options

/-! When two terms agree under a renaming of variables, and why comparing them decides whether they
agree under one. -/
namespace Reql

namespace Fields

variable {α β : Type} {name : String} {value : α} {fs : Fields α} {gs : Fields β}

def names (fs : Fields α) : List String := fs.map (·.1)

theorem Sorted.names_nodup (h : Sorted fs) : fs.names.Nodup := by
  refine List.pairwise_map.mpr (h.imp fun hlt heq => ?_)
  rw [heq] at hlt
  exact String.lt_irrefl _ hlt

theorem mem_of_get? (h : get? name fs = some value) : (name, value) ∈ fs := by
  induction fs with
  | nil => cases h
  | cons f fs ih =>
    obtain ⟨n, v⟩ := f
    unfold get? at h
    split at h
    next hn =>
      rw [hn, Option.some.inj h]
      exact List.mem_cons_self
    · exact List.mem_cons_of_mem _ (ih h)

theorem get?_isSome_iff : (get? name fs).isSome = true ↔ name ∈ fs.names := by
  induction fs with
  | nil => simp [get?, names]
  | cons f fs ih =>
    obtain ⟨n, v⟩ := f
    unfold get?
    rw [names, List.map_cons, List.mem_cons]
    by_cases hn : n = name
    · simp [hn]
    · rw [if_neg hn, ih, names, or_iff_right (Ne.symm hn)]

theorem get?_of_mem (hs : Sorted fs) (h : (name, value) ∈ fs) : get? name fs = some value := by
  induction fs with
  | nil => cases h
  | cons f fs ih =>
    obtain ⟨n, v⟩ := f
    obtain ⟨hlt, hs⟩ := sorted_cons.mp hs
    unfold get?
    rcases List.mem_cons.mp h with heq | h
    · obtain ⟨rfl, rfl⟩ := Prod.mk.inj heq
      rw [if_pos rfl]
    · have hne : n ≠ name := by
        rintro rfl
        exact String.lt_irrefl _ (hlt _ h)
      rw [if_neg hne, ih hs h]

/-- As many names, all of which are found, are the same names. -/
theorem names_iff_of_subset (hf : Sorted fs) (hlen : fs.length = gs.length)
    (hsub : fs.names ⊆ gs.names) (n : String) : n ∈ fs.names ↔ n ∈ gs.names := by
  have hle : gs.names.length ≤ fs.names.length := by
    rw [names, names, List.length_map, List.length_map, hlen]
  have hperm : fs.names.Perm gs.names :=
    (List.subperm_of_subset hf.names_nodup hsub).perm_of_length_le hle
  exact hperm.mem_iff

/-- Sorted fields with the same names have them in the same places. -/
theorem names_eq_of_iff (hf : Sorted fs) (hg : Sorted gs)
    (h : ∀ n, n ∈ fs.names ↔ n ∈ gs.names) : fs.names = gs.names := by
  have hperm : fs.names.Perm gs.names :=
    (List.perm_ext_iff_of_nodup hf.names_nodup hg.names_nodup).mpr h
  have hf' : fs.names.Pairwise (· < ·) := List.pairwise_map.mpr hf
  have hg' : gs.names.Pairwise (· < ·) := List.pairwise_map.mpr hg
  exact hperm.eq_of_pairwise (fun _ _ _ _ hlt hgt => (String.lt_asymm hlt hgt).elim) hf' hg'

theorem length_eq_of_names_iff (hf : Sorted fs) (hg : Sorted gs)
    (h : ∀ n, n ∈ fs.names ↔ n ∈ gs.names) : fs.length = gs.length := by
  have hlen := congrArg List.length (names_eq_of_iff hf hg h)
  rwa [names, names, List.length_map, List.length_map] at hlen

end Fields

namespace Term

/-- A property that passes from the parts of a term to the term. -/
structure Inductive (P : Term → Prop) : Prop where
  datum : ∀ v, P (.datum v)
  op : ∀ k args optargs, (∀ a ∈ args, P a) → (∀ f ∈ optargs, P f.2) → P (.op k args optargs)
  func : ∀ params body, P body → P (.func params body)
  var : ∀ id, P (.var id)
  anything : P .anything

namespace Inductive

variable {P : Term → Prop}

mutual

theorem all (h : Inductive P) : ∀ t, P t
  | .datum v => h.datum v
  | .op k args optargs => h.op k args optargs (allArgs h args) (allOptargs h optargs)
  | .func params body => h.func params body (all h body)
  | .var id => h.var id
  | .anything => h.anything

theorem allArgs (h : Inductive P) : ∀ args : List Term, ∀ a ∈ args, P a
  | [] => fun _ ha => nomatch ha
  | t :: args => List.forall_mem_cons.mpr ⟨all h t, allArgs h args⟩

theorem allOptargs (h : Inductive P) : ∀ optargs : List (String × Term), ∀ f ∈ optargs, P f.2
  | [] => fun _ hf => nomatch hf
  | (_, t) :: optargs => List.forall_mem_cons.mpr ⟨all h t, allOptargs h optargs⟩

end

end Inductive

/-- Induction over terms: an operation has a property if all its arguments have it. -/
@[elab_as_elim]
theorem induction {P : Term → Prop} (datum : ∀ v, P (.datum v))
    (op : ∀ k args optargs, (∀ a ∈ args, P a) → (∀ f ∈ optargs, P f.2) → P (.op k args optargs))
    (func : ∀ params body, P body → P (.func params body)) (var : ∀ id, P (.var id))
    (anything : P .anything) (t : Term) : P t :=
  Inductive.all ⟨datum, op, func, var, anything⟩ t

mutual

/-- Two terms agree under a renaming of variables wherever neither hides behind a wildcard. -/
def Agrees (ρ : VarId ≃. VarId) : Term → Term → Prop
  | .anything, _ => True
  | _, .anything => True
  | .datum a, .datum b => a.same b = true
  | .op k as fs, .op l bs gs =>
    k = l ∧ ArgsAgree ρ as bs ∧ (∀ n, n ∈ Fields.names fs ↔ n ∈ Fields.names gs) ∧
      OptargsAgree ρ fs gs
  | .func ps s, .func qs t => Renaming.Pairs ps qs ρ ∧ Agrees ρ s t
  | .var a, .var b => ρ a = some b
  | _, _ => False

/-- There are as many arguments on both sides, and they agree in turn. -/
def ArgsAgree (ρ : VarId ≃. VarId) : List Term → List Term → Prop
  | [], [] => True
  | a :: as, b :: bs => Agrees ρ a b ∧ ArgsAgree ρ as bs
  | _, _ => False

/-- Each optional argument on the left agrees with that of its name on the right. -/
def OptargsAgree (ρ : VarId ≃. VarId) : List (String × Term) → Fields Term → Prop
  | [], _ => True
  | (n, a) :: fs, gs => (∃ b, Fields.get? n gs = some b ∧ Agrees ρ a b) ∧ OptargsAgree ρ fs gs

end

variable {ρ μ : VarId ≃. VarId} {m : Renaming} {l r : Term} {as bs : List Term}
  {fs gs : Fields Term}

@[simp] theorem agrees_anything_left (r : Term) : Agrees ρ .anything r := by
  cases r <;> trivial

@[simp] theorem agrees_anything_right (l : Term) : Agrees ρ l .anything := by
  cases l <;> trivial

theorem argsAgree_iff : ArgsAgree ρ as bs ↔ List.Forall₂ (Agrees ρ) as bs := by
  induction as generalizing bs with
  | nil => cases bs <;> simp [ArgsAgree]
  | cons a as ih => cases bs <;> simp [ArgsAgree, ih]

theorem optargsAgree_iff : OptargsAgree ρ fs gs ↔
    ∀ n a, (n, a) ∈ fs → ∃ b, Fields.get? n gs = some b ∧ Agrees ρ a b := by
  induction fs with
  | nil => simp [OptargsAgree]
  | cons f fs ih =>
    obtain ⟨n, a⟩ := f
    rw [OptargsAgree, ih]
    constructor
    · rintro ⟨hhead, htail⟩ n' a' hmem
      rcases List.mem_cons.mp hmem with heq | hmem
      · obtain ⟨rfl, rfl⟩ := Prod.mk.inj heq
        exact hhead
      · exact htail n' a' hmem
    · intro h
      exact ⟨h n a List.mem_cons_self, fun n' a' hmem => h n' a' (List.mem_cons_of_mem _ hmem)⟩

theorem canonicalArgs_iff : CanonicalArgs as ↔ ∀ a ∈ as, Canonical a := by
  induction as with
  | nil => simp [CanonicalArgs]
  | cons a as ih => simp [CanonicalArgs, ih]

theorem canonicalOptargs_iff : CanonicalOptargs fs ↔ ∀ f ∈ fs, Canonical f.2 := by
  induction fs with
  | nil => simp [CanonicalOptargs]
  | cons f fs ih => simp [CanonicalOptargs, ih]

theorem CanonicalOptargs.get? {n : String} {b : Term} (h : CanonicalOptargs gs)
    (hb : Fields.get? n gs = some b) : Canonical b :=
  canonicalOptargs_iff.mp h _ (Fields.mem_of_get? hb)

/-- Comparing a term with a canonical one decides whether they agree. -/
def Decided (l : Term) : Prop :=
  ∀ (r : Term) (m : Renaming) (μ : VarId ≃. VarId), r.Canonical → m.Represents μ →
    Renaming.Decides μ (fun ρ => Agrees ρ l r) (l.matchesWith r m)

theorem argsMatchWith_decides (has : ∀ a ∈ as, Decided a) (hbs : CanonicalArgs bs)
    (hlen : as.length = bs.length) (hm : m.Represents μ) :
    Renaming.Decides μ (fun ρ => ArgsAgree ρ as bs) (argsMatchWith as bs m) := by
  induction as generalizing bs m μ with
  | nil =>
    obtain rfl : bs = [] := List.length_eq_zero_iff.mp hlen.symm
    exact .const hm fun ρ => by simp [ArgsAgree]
  | cons a as ih =>
    cases bs with
    | nil => cases hlen
    | cons b bs =>
      obtain ⟨ha, has⟩ := List.forall_mem_cons.mp has
      have hstep := (ha b m μ hbs.1 hm).andThen (Q := fun ρ => ArgsAgree ρ as bs)
        (f := argsMatchWith as bs) fun ν hν => ih has hbs.2 (Nat.succ.inj hlen) hν
      exact hstep.congr fun ρ => by rw [ArgsAgree]

theorem optargsMatchWith_decides (hfs : ∀ f ∈ fs, Decided f.2) (hgs : CanonicalOptargs gs)
    (hm : m.Represents μ) :
    Renaming.Decides μ (fun ρ => OptargsAgree ρ fs gs) (optargsMatchWith fs gs m) := by
  induction fs generalizing m μ with
  | nil => exact .const hm fun ρ => by simp [OptargsAgree]
  | cons f fs ih =>
    obtain ⟨n, a⟩ := f
    obtain ⟨ha, hfs⟩ := List.forall_mem_cons.mp hfs
    unfold optargsMatchWith
    cases hb : Fields.get? n gs with
    | none => exact .const hm fun ρ => by simp [OptargsAgree, hb]
    | some b =>
      have hstep := (ha b m μ (hgs.get? hb) hm).andThen (Q := fun ρ => OptargsAgree ρ fs gs)
        (f := optargsMatchWith fs gs) fun ν hν => ih hfs hν
      exact hstep.congr fun ρ => by simp [OptargsAgree, hb]

/-- Optional arguments that are as many and that agree have the same names. -/
theorem names_iff_of_agree (hf : Fields.Sorted fs) (hlen : fs.length = gs.length)
    (h : OptargsAgree ρ fs gs) (n : String) :
    n ∈ Fields.names fs ↔ n ∈ Fields.names gs := by
  refine Fields.names_iff_of_subset hf hlen (fun n hn => ?_) n
  obtain ⟨⟨_, a⟩, hmem, rfl⟩ := List.mem_map.mp hn
  obtain ⟨b, hb, -⟩ := optargsAgree_iff.mp h _ a hmem
  exact Fields.get?_isSome_iff.mp (by rw [hb]; rfl)

/-- What is compared of two maps of optional arguments or of options. -/
theorem fieldsMatch_decides (hfs : ∀ f ∈ fs, Decided f.2) (hf : Fields.Sorted fs)
    (hg : Fields.Sorted gs) (hgs : CanonicalOptargs gs) (hm : m.Represents μ) :
    Renaming.Decides μ
      (fun ρ => (∀ n, n ∈ Fields.names fs ↔ n ∈ Fields.names gs) ∧ OptargsAgree ρ fs gs)
      (if fs.length = gs.length then optargsMatchWith fs gs m else (false, m)) := by
  by_cases hlen : fs.length = gs.length
  · rw [if_pos hlen]
    refine (optargsMatchWith_decides hfs hgs hm).congr fun ρ => ?_
    exact (and_iff_right_of_imp (names_iff_of_agree hf hlen)).symm
  · rw [if_neg hlen]
    refine .const hm fun ρ => iff_of_false ?_ Bool.false_ne_true
    rintro ⟨hnames, -⟩
    exact hlen (Fields.length_eq_of_names_iff hf hg hnames)

theorem decided_op (k : Kind) (has : ∀ a ∈ as, Decided a) (hfs : ∀ f ∈ fs, Decided f.2)
    (hf : Fields.Sorted fs) : Decided (.op k as fs) := by
  intro r m μ hr hm
  cases r with
  | op l bs gs =>
    obtain ⟨hbs, hg, hgs⟩ := hr
    unfold matchesWith
    by_cases hhead : k = l ∧ as.length = bs.length
    · rw [if_pos hhead]
      have hstep := (argsMatchWith_decides has hbs hhead.2 hm).andThen
        (f := fun m' =>
          if fs.length = gs.length then optargsMatchWith fs gs m' else (false, m'))
        fun ν hν => fieldsMatch_decides hfs hf hg hgs hν
      exact hstep.congr fun ρ => by simp only [Agrees, hhead.1, true_and]
    · rw [if_neg hhead]
      refine .const hm fun ρ => iff_of_false ?_ Bool.false_ne_true
      rintro ⟨hk, has', -⟩
      exact hhead ⟨hk, (argsAgree_iff.mp has').length_eq⟩
  | anything => exact .const hm fun ρ => by simp
  | _ => exact .const hm fun ρ => by simp [Agrees]

theorem decided_func (ps : List VarId) {s : Term} (hs : Decided s) : Decided (.func ps s) := by
  intro r m μ hr hm
  cases r with
  | func qs t =>
    unfold matchesWith
    by_cases hlen : ps.length = qs.length
    · rw [if_pos hlen]
      have hstep := (Renaming.bindAll_decides hm hlen).andThen (f := s.matchesWith t)
        fun ν hν => hs t _ ν hr hν
      exact hstep.congr fun ρ => by simp only [Agrees]
    · rw [if_neg hlen]
      refine .const hm fun ρ => iff_of_false ?_ Bool.false_ne_true
      rintro ⟨hpairs, -⟩
      exact hlen hpairs.length_eq
  | anything => exact .const hm fun ρ => by simp
  | _ => exact .const hm fun ρ => by simp [Agrees]

/-- Comparing two terms decides whether a renaming exists under which they agree. -/
theorem matchesWith_decides (hl : l.Canonical) : Decided l := by
  induction l using Term.induction with
  | datum v =>
    intro r m μ _ hm
    cases r with
    | anything => exact .const hm fun ρ => by simp
    | _ => exact .const hm fun ρ => by simp [Agrees]
  | op k as fs has hfs =>
    obtain ⟨hcas, hf, hcfs⟩ := hl
    rw [canonicalArgs_iff] at hcas
    rw [canonicalOptargs_iff] at hcfs
    have hfs' : ∀ f ∈ fs, Decided f.2 := fun f hmem => hfs f hmem (hcfs f hmem)
    exact decided_op k (fun a ha => has a ha (hcas a ha)) hfs' hf
  | func ps s hs => exact decided_func ps (hs hl)
  | var a =>
    intro r m μ _ hm
    cases r with
    | var b => exact (Renaming.bind_decides hm a b).congr fun ρ => by rw [Agrees]
    | anything => exact .const hm fun ρ => by simp
    | _ => exact .const hm fun ρ => by simp [Agrees]
  | anything =>
    intro r m μ _ hm
    cases r <;> exact .const hm fun ρ => by simp

end Term
end Reql
