import Mathlib.Data.List.Nodup
import Mathlib.Data.List.ProdSigma
import Mathlib.Data.List.Zip
import Reql.Proofs.Term.Equivalence

/-! Equality of terms up to the names of their parameters, and how far comparison is from it: one
renaming serves all functions of a term. -/
namespace Reql

namespace Renaming

variable {ps qs ps' qs' ls rs : List VarId} {ρ : VarId ≃. VarId}

theorem Pairs.append (h : Pairs ps qs ρ) (h' : Pairs ps' qs' ρ) :
    Pairs (ps ++ ps') (qs ++ qs') ρ :=
  List.rel_append h h'

theorem pairs_append_iff (hlen : ps.length = qs.length) :
    Pairs (ps ++ ps') (qs ++ qs') ρ ↔ Pairs ps qs ρ ∧ Pairs ps' qs' ρ := by
  refine ⟨fun h => ?_, fun h => h.1.append h.2⟩
  have htake := List.forall₂_take ps.length h
  have hdrop := List.forall₂_drop ps.length h
  rw [List.take_left, hlen, List.take_left] at htake
  rw [List.drop_left, hlen, List.drop_left] at hdrop
  exact ⟨htake, hdrop⟩

/-- Corresponding variables of two lists can be partners. -/
def OneToOne (ps qs : List VarId) : Prop :=
  ∀ p ∈ ps.zip qs, ∀ q ∈ ps.zip qs, p.1 = q.1 ↔ p.2 = q.2

theorem mem_zip_comm {a b : VarId} : (b, a) ∈ qs.zip ps ↔ (a, b) ∈ ps.zip qs := by
  rw [← List.zip_swap, List.mem_map_swap]

/-- The renaming that makes corresponding variables partners. -/
def ofOneToOne (ps qs : List VarId) (h : OneToOne ps qs) : VarId ≃. VarId where
  toFun a := (ps.zip qs).lookup a
  invFun b := (qs.zip ps).lookup b
  inv a b := by
    have hforward : (ps.zip qs).lookup a = some b ↔ (a, b) ∈ ps.zip qs :=
      lookup_eq_some_iff_mem fun p hp q hq => (h p hp q hq).mp
    have hbackward : (qs.zip ps).lookup b = some a ↔ (b, a) ∈ qs.zip ps :=
      lookup_eq_some_iff_mem fun p hp q hq =>
        (h p.swap (mem_zip_comm.mp hp) q.swap (mem_zip_comm.mp hq)).mpr
    change (qs.zip ps).lookup b = some a ↔ (ps.zip qs).lookup a = some b
    rw [hforward, hbackward, mem_zip_comm]

theorem exists_pairs_iff (hlen : ps.length = qs.length) :
    (∃ ρ, Pairs ps qs ρ) ↔ OneToOne ps qs := by
  constructor
  · rintro ⟨ρ, h⟩ ⟨a, b⟩ hp ⟨c, d⟩ hq
    obtain ⟨-, hpairs⟩ := List.forall₂_iff_zip.mp h
    have hab : ρ a = some b := hpairs hp
    have hcd : ρ c = some d := hpairs hq
    constructor
    · rintro rfl
      exact Option.some.inj (hab.symm.trans hcd)
    · rintro rfl
      exact ρ.inj hab hcd
  · intro h
    refine ⟨ofOneToOne ps qs h, List.forall₂_iff_zip.mpr ⟨hlen, fun hmem => ?_⟩⟩
    exact (lookup_eq_some_iff_mem fun p hp q hq => (h p hp q hq).mp).mpr hmem

/-- Lists without repetitions are one-to-one. -/
theorem OneToOne.of_nodup (hps : ps.Nodup) (hqs : qs.Nodup) : OneToOne ps qs := by
  rintro ⟨a, b⟩ hp ⟨c, d⟩ hq
  obtain ⟨i, hi, hab⟩ := List.mem_iff_getElem.mp hp
  obtain ⟨j, hj, hcd⟩ := List.mem_iff_getElem.mp hq
  rw [List.getElem_zip, Prod.mk.injEq] at hab hcd
  obtain ⟨rfl, rfl⟩ := hab
  obtain ⟨rfl, rfl⟩ := hcd
  simp only [List.Nodup.getElem_inj_iff hps, List.Nodup.getElem_inj_iff hqs]

/-- Of partners in scope, one is the `i`th from the inside if and only if the other is. -/
theorem partner_iff_idxOf? (h : Pairs ls rs ρ) {a b : VarId} (ha : a ∈ ls) :
    ρ a = some b ↔ ∃ i, ls.idxOf? a = some i ∧ rs.idxOf? b = some i := by
  induction h with
  | nil => cases ha
  | @cons p q ls rs hpq _ ih =>
    rw [List.idxOf?_cons, List.idxOf?_cons]
    by_cases hp : p = a
    · subst hp
      rw [hpq]
      by_cases hq : q = b
      · simp [hq]
      · simp [hq]
    -- An outer pair counts for `a` only if no inner one takes `b`, which a renaming rules out.
    · have hrest : a ∈ ls := (List.mem_cons.mp ha).resolve_left (Ne.symm hp)
      by_cases hq : q = b
      · subst hq
        have hne : ρ a ≠ some q := fun h => hp (ρ.inj hpq h)
        simp [hp, hne]
      · simp [hp, hq, ih hrest]

end Renaming

namespace Term

mutual

/-- No wildcard occurs, the parameters of each function are distinct, and each variable is a
parameter of a function around it or stands in the given scope. -/
def Scoped (scope : List VarId) : Term → Prop
  | .datum _ => True
  | .op _ args optargs => ScopedArgs scope args ∧ ScopedOptargs scope optargs
  | .func params body => params.Nodup ∧ Scoped (params ++ scope) body
  | .var id => id ∈ scope
  | .anything => False

def ScopedArgs (scope : List VarId) : List Term → Prop
  | [] => True
  | t :: rest => Scoped scope t ∧ ScopedArgs scope rest

def ScopedOptargs (scope : List VarId) : List (String × Term) → Prop
  | [] => True
  | (_, t) :: rest => Scoped scope t ∧ ScopedOptargs scope rest

end

mutual

/-- Two terms differ at most in how their functions number their parameters. Variables in scope are
listed from the innermost; two variables are the same if their binders stand at the same place. -/
def AlphaEq (ls rs : List VarId) : Term → Term → Prop
  | .datum a, .datum b => a.same b = true
  | .op k as fs, .op l bs gs => k = l ∧ ArgsAlphaEq ls rs as bs ∧ OptargsAlphaEq ls rs fs gs
  | .func ps s, .func qs t => ps.length = qs.length ∧ AlphaEq (ps ++ ls) (qs ++ rs) s t
  | .var a, .var b => ∃ i, ls.idxOf? a = some i ∧ rs.idxOf? b = some i
  | _, _ => False

def ArgsAlphaEq (ls rs : List VarId) : List Term → List Term → Prop
  | [], [] => True
  | a :: as, b :: bs => AlphaEq ls rs a b ∧ ArgsAlphaEq ls rs as bs
  | _, _ => False

/-- The optional arguments have the same names, and are the same name by name. -/
def OptargsAlphaEq (ls rs : List VarId) : List (String × Term) → List (String × Term) → Prop
  | [], [] => True
  | (n, a) :: fs, (k, b) :: gs => n = k ∧ AlphaEq ls rs a b ∧ OptargsAlphaEq ls rs fs gs
  | _, _ => False

end

mutual

/-- The parameters of all functions of a term, from left to right, each function as often as it
occurs. -/
def binders : Term → List VarId
  | .datum _ | .var _ | .anything => []
  | .op _ args optargs => argsBinders args ++ optargsBinders optargs
  | .func params body => params ++ binders body

def argsBinders : List Term → List VarId
  | [] => []
  | t :: rest => binders t ++ argsBinders rest

def optargsBinders : List (String × Term) → List VarId
  | [] => []
  | (_, t) :: rest => binders t ++ optargsBinders rest

end

variable {ρ : VarId ≃. VarId} {l r : Term} {as bs : List Term} {fs gs : Fields Term}
  {ls rs : List VarId}

theorem ArgsAlphaEq.length_binders
    (has : ∀ a ∈ as, ∀ b, AlphaEq ls rs a b → a.binders.length = b.binders.length)
    (h : ArgsAlphaEq ls rs as bs) : (argsBinders as).length = (argsBinders bs).length := by
  induction as generalizing bs with
  | nil =>
    cases bs with
    | nil => rfl
    | cons b bs => cases h
  | cons a as ih =>
    cases bs with
    | nil => cases h
    | cons b bs =>
      obtain ⟨ha, has⟩ := List.forall_mem_cons.mp has
      rw [argsBinders, argsBinders, List.length_append, List.length_append, ha b h.1, ih has h.2]

theorem OptargsAlphaEq.length_binders
    (hfs : ∀ f ∈ fs, ∀ b, AlphaEq ls rs f.2 b → f.2.binders.length = b.binders.length)
    (h : OptargsAlphaEq ls rs fs gs) :
    (optargsBinders fs).length = (optargsBinders gs).length := by
  induction fs generalizing gs with
  | nil =>
    cases gs with
    | nil => rfl
    | cons g gs => cases h
  | cons f fs ih =>
    cases gs with
    | nil => cases h
    | cons g gs =>
      obtain ⟨hf, hfs⟩ := List.forall_mem_cons.mp hfs
      rw [optargsBinders, optargsBinders, List.length_append, List.length_append, hf g.2 h.2.1,
        ih hfs h.2.2]

/-- Terms that differ only in their numbering bind equally many variables. -/
theorem AlphaEq.length_binders (h : AlphaEq ls rs l r) : l.binders.length = r.binders.length := by
  induction l using Term.induction generalizing r ls rs with
  | op k as fs has hfs =>
    cases r with
    | op k' bs gs =>
      have hargs := h.2.1.length_binders fun a ha b => has a ha
      have hopts := h.2.2.length_binders fun f hf b => hfs f hf
      rw [binders, binders, List.length_append, List.length_append, hargs, hopts]
    | _ => cases h
  | func ps s hs =>
    cases r with
    | func qs t =>
      rw [binders, binders, List.length_append, List.length_append, h.1, hs h.2]
    | _ => cases h
  | datum v =>
    cases r with
    | datum w => rfl
    | _ => cases h
  | var a =>
    cases r with
    | var b => rfl
    | _ => cases h
  | anything => cases r <;> cases h

/-- What agreement under a renaming comes to for a scoped term: the other is the same up to its
numbering, and the renaming pairs all parameters. -/
def Splits (ρ : VarId ≃. VarId) (l : Term) : Prop :=
  ∀ (ls rs : List VarId) (r : Term), l.Scoped ls → r.Scoped rs → r.Canonical →
    Renaming.Pairs ls rs ρ →
      (Agrees ρ l r ↔ AlphaEq ls rs l r ∧ Renaming.Pairs l.binders r.binders ρ)

theorem argsAgree_iff_alphaEq (has : ∀ a ∈ as, Splits ρ a) (hsl : ScopedArgs ls as)
    (hsr : ScopedArgs rs bs) (hr : CanonicalArgs bs) (h : Renaming.Pairs ls rs ρ) :
    ArgsAgree ρ as bs ↔
      ArgsAlphaEq ls rs as bs ∧ Renaming.Pairs (argsBinders as) (argsBinders bs) ρ := by
  induction as generalizing bs with
  | nil =>
    cases bs with
    | nil => simp [ArgsAgree, ArgsAlphaEq, argsBinders, Renaming.Pairs]
    | cons b bs => simp [ArgsAgree, ArgsAlphaEq]
  | cons a as ih =>
    cases bs with
    | nil => simp [ArgsAgree, ArgsAlphaEq]
    | cons b bs =>
      obtain ⟨ha, has⟩ := List.forall_mem_cons.mp has
      rw [ArgsAgree, ArgsAlphaEq, argsBinders, argsBinders, ha ls rs b hsl.1 hsr.1 hr.1 h,
        ih has hsl.2 hsr.2 hr.2]
      constructor
      · rintro ⟨⟨hab, hpab⟩, hrest, hprest⟩
        exact ⟨⟨hab, hrest⟩, hpab.append hprest⟩
      · rintro ⟨⟨hab, hrest⟩, hpairs⟩
        obtain ⟨hpab, hprest⟩ := (Renaming.pairs_append_iff hab.length_binders).mp hpairs
        exact ⟨⟨hab, hpab⟩, hrest, hprest⟩

/-- An entry whose name is not asked for makes no difference. -/
theorem optargsAgree_cons_right {k : String} {b : Term} (hk : k ∉ Fields.names fs) :
    OptargsAgree ρ fs ((k, b) :: gs) ↔ OptargsAgree ρ fs gs := by
  rw [optargsAgree_iff, optargsAgree_iff]
  refine forall_congr' fun n => forall_congr' fun a => imp_congr_right fun hmem => ?_
  have hne : k ≠ n := by
    rintro rfl
    exact hk (List.mem_map.mpr ⟨_, hmem, rfl⟩)
  rw [Fields.get?, if_neg hne]

theorem optargsAgree_iff_alphaEq (hfs : ∀ f ∈ fs, Splits ρ f.2) (hg : Fields.Sorted gs)
    (hsl : ScopedOptargs ls fs) (hsr : ScopedOptargs rs gs) (hr : CanonicalOptargs gs)
    (h : Renaming.Pairs ls rs ρ) :
    Fields.names fs = Fields.names gs ∧ OptargsAgree ρ fs gs ↔
      OptargsAlphaEq ls rs fs gs ∧ Renaming.Pairs (optargsBinders fs) (optargsBinders gs) ρ := by
  induction fs generalizing gs with
  | nil =>
    cases gs with
    | nil => simp [OptargsAgree, OptargsAlphaEq, optargsBinders, Renaming.Pairs]
    | cons g gs => simp [Fields.names, OptargsAlphaEq]
  | cons f fs ih =>
    cases gs with
    | nil => simp [Fields.names, OptargsAlphaEq]
    | cons g gs =>
      obtain ⟨n, a⟩ := f
      obtain ⟨k, b⟩ := g
      obtain ⟨ha, hfs⟩ := List.forall_mem_cons.mp hfs
      obtain ⟨hk, hg⟩ := Fields.sorted_cons.mp hg
      have hhead := ha ls rs b hsl.1 hsr.1 hr.1 h
      have htail := ih hfs hg hsl.2 hsr.2 hr.2
      have hfresh (hnames : Fields.names fs = Fields.names gs) : k ∉ Fields.names fs := by
        rw [hnames]
        intro hmem
        obtain ⟨p, hp, hpk⟩ := List.mem_map.mp hmem
        exact String.lt_irrefl k (hpk ▸ hk p hp)
      rw [OptargsAgree, OptargsAlphaEq, optargsBinders, optargsBinders]
      constructor
      · rintro ⟨hcons, ⟨b', hb', hab⟩, hrest⟩
        obtain ⟨hname, hnames⟩ := List.cons.inj hcons
        obtain rfl : n = k := hname
        rw [Fields.get?, if_pos rfl] at hb'
        obtain rfl := Option.some.inj hb'
        rw [optargsAgree_cons_right (hfresh hnames)] at hrest
        obtain ⟨hab, hpab⟩ := hhead.mp hab
        obtain ⟨hrest, hprest⟩ := htail.mp ⟨hnames, hrest⟩
        exact ⟨⟨rfl, hab, hrest⟩, hpab.append hprest⟩
      · rintro ⟨⟨rfl, hab, hrest⟩, hpairs⟩
        obtain ⟨hpab, hprest⟩ := (Renaming.pairs_append_iff hab.length_binders).mp hpairs
        obtain ⟨hnames, hrest⟩ := htail.mpr ⟨hrest, hprest⟩
        refine ⟨congrArg (n :: ·) hnames, ⟨b, ?_, hhead.mpr ⟨hab, hpab⟩⟩, ?_⟩
        · rw [Fields.get?, if_pos rfl]
        · exact (optargsAgree_cons_right (hfresh hnames)).mpr hrest

theorem splits_op (k : Kind) (has : ∀ a ∈ as, Splits ρ a) (hfs : ∀ f ∈ fs, Splits ρ f.2)
    (hf : Fields.Sorted fs) : Splits ρ (.op k as fs) := by
  intro ls rs r hsl hsr hr h
  cases r with
  | op k' bs gs =>
    obtain ⟨hcbs, hg, hcgs⟩ := hr
    have hargs := argsAgree_iff_alphaEq has hsl.1 hsr.1 hcbs h
    have hopts := optargsAgree_iff_alphaEq hfs hg hsl.2 hsr.2 hcgs h
    rw [Agrees, AlphaEq, binders, binders, hargs]
    constructor
    -- Of sorted optional arguments it is the same whether names are looked up or compared in turn.
    · rintro ⟨hk, ⟨hargs, hpargs⟩, hnames, hopts'⟩
      obtain ⟨hopts', hpopts⟩ := hopts.mp ⟨Fields.names_eq_of_iff hf hg hnames, hopts'⟩
      exact ⟨⟨hk, hargs, hopts'⟩, hpargs.append hpopts⟩
    · rintro ⟨⟨hk, hargs, hopts'⟩, hpairs⟩
      have hlen := hargs.length_binders fun a _ b hab => hab.length_binders
      obtain ⟨hpargs, hpopts⟩ := (Renaming.pairs_append_iff hlen).mp hpairs
      obtain ⟨hnames, hopts'⟩ := hopts.mpr ⟨hopts', hpopts⟩
      exact ⟨hk, ⟨hargs, hpargs⟩, fun n => by rw [hnames], hopts'⟩
  | anything => exact hsr.elim
  | _ => simp [Agrees, AlphaEq]

theorem splits_func (ps : List VarId) {s : Term} (hs : Splits ρ s) : Splits ρ (.func ps s) := by
  intro ls rs r hsl hsr hr h
  cases r with
  | func qs t =>
    rw [Agrees, AlphaEq, binders, binders]
    constructor
    · rintro ⟨hpairs, hst⟩
      obtain ⟨hst, hprest⟩ := (hs _ _ t hsl.2 hsr.2 hr (hpairs.append h)).mp hst
      exact ⟨⟨hpairs.length_eq, hst⟩, hpairs.append hprest⟩
    · rintro ⟨⟨hlen, hst⟩, hpairs⟩
      obtain ⟨hpairs, hprest⟩ := (Renaming.pairs_append_iff hlen).mp hpairs
      exact ⟨hpairs, (hs _ _ t hsl.2 hsr.2 hr (hpairs.append h)).mpr ⟨hst, hprest⟩⟩
  | anything => exact hsr.elim
  | _ => simp [Agrees, AlphaEq]

theorem agrees_splits (hl : l.Canonical) : Splits ρ l := by
  induction l using Term.induction with
  | op k as fs has hfs =>
    obtain ⟨hcas, hf, hcfs⟩ := hl
    rw [canonicalArgs_iff] at hcas
    rw [canonicalOptargs_iff] at hcfs
    exact splits_op k (fun a ha => has a ha (hcas a ha)) (fun f hmem => hfs f hmem (hcfs f hmem)) hf
  | func ps s hs => exact splits_func ps (hs hl)
  | datum v =>
    intro ls rs r _ hsr _ _
    cases r with
    | datum w => simp [Agrees, AlphaEq, binders, Renaming.Pairs]
    | anything => exact hsr.elim
    | _ => simp [Agrees, AlphaEq]
  | var a =>
    intro ls rs r hsl hsr _ h
    cases r with
    | var b =>
      rw [Agrees, AlphaEq, Renaming.partner_iff_idxOf? h hsl]
      simp [binders, Renaming.Pairs]
    | anything => exact hsr.elim
    | _ => simp [Agrees, AlphaEq]
  | anything =>
    intro _ _ _ hsl
    exact hsl.elim

/-- Scoped terms match if and only if they differ at most in their numbering and one renaming serves
all their functions. Where no variable has two functions as its binders, in either term, the second
is no condition. -/
theorem matching_alpha_equivalence (hl : l.Canonical) (hr : r.Canonical) (hsl : l.Scoped [])
    (hsr : r.Scoped []) :
    (matchesTerm l r = true ↔
      AlphaEq [] [] l r ∧ Renaming.OneToOne l.binders r.binders) ∧
    (l.binders.Nodup → r.binders.Nodup → (matchesTerm l r = true ↔ AlphaEq [] [] l r)) := by
  have hsplits (ρ : VarId ≃. VarId) := agrees_splits (ρ := ρ) hl [] [] r hsl hsr hr .nil
  have hexact : matchesTerm l r = true ↔
      AlphaEq [] [] l r ∧ Renaming.OneToOne l.binders r.binders := by
    rw [matchesTerm_iff hl hr]
    simp only [hsplits, exists_and_left]
    exact and_congr_right fun h => Renaming.exists_pairs_iff h.length_binders
  exact ⟨hexact, fun hnl hnr => hexact.trans (and_iff_left (.of_nodup hnl hnr))⟩

/-- A predicate numbered differently on either side. -/
theorem matching_alpha_equivalence_renumbered :
    let l : Term := .func [1] (.op .gt [.var 1, .ofInt64 18] [])
    let r : Term := .func [2] (.op .gt [.var 2, .ofInt64 18] [])
    matchesTerm l r = true ∧ AlphaEq [] [] l r := by
  intro l r
  have hl : l.Canonical := ⟨⟨trivial, trivial, trivial⟩, Fields.sorted_nil, trivial⟩
  have hr : r.Canonical := ⟨⟨trivial, trivial, trivial⟩, Fields.sorted_nil, trivial⟩
  have hsl : l.Scoped [] :=
    ⟨List.nodup_singleton 1, ⟨List.mem_cons_self, trivial, trivial⟩, trivial⟩
  have hsr : r.Scoped [] :=
    ⟨List.nodup_singleton 2, ⟨List.mem_cons_self, trivial, trivial⟩, trivial⟩
  have hmatch : matchesTerm l r = true := by decide
  have hiff := (matching_alpha_equivalence hl hr hsl hsr).2 (by decide) (by decide)
  exact ⟨hmatch, hiff.mp hmatch⟩

/-- The same terms up to numbering need not match: a function that occurs twice on one side and with
two numberings on the other, and an inner function that takes up its outer one's parameter. -/
theorem alphaEq_without_match :
    let f : Term := .func [1] (.var 1)
    let g : Term := .func [2] (.var 2)
    let l : Term := .op .makeArray [f, f] []
    let r : Term := .op .makeArray [f, g] []
    ((l.Canonical ∧ r.Canonical) ∧ (l.Scoped [] ∧ r.Scoped []) ∧ AlphaEq [] [] l r ∧
        matchesTerm l r = false) ∧
      AlphaEq [] [] (.func [1] f) (.func [1] g) ∧
        matchesTerm (.func [1] f) (.func [1] g) = false := by
  intro f g l r
  have hscoped (a : VarId) (scope : List VarId) : Scoped scope (.func [a] (.var a)) :=
    ⟨List.nodup_singleton a, List.mem_cons_self⟩
  have hsame : AlphaEq [] [] f f := ⟨rfl, 0, rfl, rfl⟩
  have hdiffer : AlphaEq [] [] f g := ⟨rfl, 0, rfl, rfl⟩
  have hargs : ∀ t : Term, t.Canonical → CanonicalArgs [f, t] := fun t ht => ⟨trivial, ht, trivial⟩
  refine ⟨⟨⟨?_, ?_⟩, ⟨?_, ?_⟩, ?_, by decide⟩, ⟨rfl, rfl, 0, rfl, rfl⟩, by decide⟩
  · exact ⟨hargs f trivial, Fields.sorted_nil, trivial⟩
  · exact ⟨hargs g trivial, Fields.sorted_nil, trivial⟩
  · exact ⟨⟨hscoped 1 [], hscoped 1 [], trivial⟩, trivial⟩
  · exact ⟨⟨hscoped 1 [], hscoped 2 [], trivial⟩, trivial⟩
  · exact ⟨rfl, ⟨hsame, hdiffer, trivial⟩, trivial⟩

end Term
end Reql
