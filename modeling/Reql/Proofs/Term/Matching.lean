import Reql.Proofs.Term.Visiting

/-! What the comparison of terms and of options decides, from every table that can have been built
before, and in every order. -/
namespace Reql

/-- The tables that can arise: by binding variables and by comparing terms and options, whether that
succeeds or fails. -/
inductive Renaming.Built : Renaming → Prop where
  | empty : Built .empty
  | bind {m : Renaming} (h : Built m) (a b : VarId) : Built (m.bind a b).2
  | terms {m : Renaming} {l r : Term} (h : Built m) (hl : l.Canonical) (hr : r.Canonical) :
    Built (l.matchesWith r m).2
  | options {m : Renaming} {o p : QueryOptions} (h : Built m)
    (ho : Term.CanonicalOptargs o.entries) (hp : Term.CanonicalOptargs p.entries) :
    Built (o.matchesWith p m).2

/-- A comparison finds the least renaming that extends `μ` and has the property `P`, if there is
one. -/
structure Renaming.Finds (μ : VarId ≃. VarId) (P : (VarId ≃. VarId) → Prop)
    (out : Bool × Renaming) : Prop where
  verdict : out.1 = true ↔ ∃ ρ, μ ≤ ρ ∧ P ρ
  least : out.1 = true → ∃ ν, out.2.Represents ν ∧ IsLeast {ρ | μ ≤ ρ ∧ P ρ} ν

theorem Renaming.Decides.finds {μ : VarId ≃. VarId} {P : (VarId ≃. VarId) → Prop}
    {out : Bool × Renaming} (h : Decides μ P out) : Finds μ P out :=
  ⟨h.verdict_iff, h.isLeast⟩

namespace QueryOptions

/-- Options agree under a renaming: they have the same names, and agree name by name. -/
def Agree (ρ : VarId ≃. VarId) (o p : QueryOptions) : Prop :=
  (∀ n, n ∈ Fields.names o.entries ↔ n ∈ Fields.names p.entries) ∧
    Term.OptargsAgree ρ o.entries p.entries

theorem matchesWith_decides {m : Renaming} {μ : VarId ≃. VarId} {o p : QueryOptions}
    (ho : Term.CanonicalOptargs o.entries) (hp : Term.CanonicalOptargs p.entries)
    (hm : m.Represents μ) : Renaming.Decides μ (fun ρ => Agree ρ o p) (o.matchesWith p m) :=
  Term.fieldsMatch_decides
    (fun f hf => Term.matchesWith_decides (Term.canonicalOptargs_iff.mp ho f hf))
    o.sorted p.sorted hp hm

end QueryOptions

theorem Renaming.Built.represents {m : Renaming} (h : m.Built) : ∃ μ, m.Represents μ := by
  induction h with
  | empty => exact ⟨⊥, represents_empty⟩
  | bind _ a b ih =>
    obtain ⟨μ, hμ⟩ := ih
    obtain ⟨ν, hν, -⟩ := bind_decides hμ a b
    exact ⟨ν, hν⟩
  | terms _ hl hr ih =>
    obtain ⟨μ, hμ⟩ := ih
    obtain ⟨ν, hν, -⟩ := Term.matchesWith_decides hl _ _ μ hr hμ
    exact ⟨ν, hν⟩
  | options _ ho hp ih =>
    obtain ⟨μ, hμ⟩ := ih
    obtain ⟨ν, hν, -⟩ := QueryOptions.matchesWith_decides ho hp hμ
    exact ⟨ν, hν⟩

namespace Term

/-- From any table that can have been built, comparing two terms, and options after them, finds the
least renaming under which they agree; in which order that is done makes no difference; and terms
match themselves, in both directions, and along wildcard-free ones. -/
theorem matching_least_renaming {m : Renaming} (hm : m.Built) {l r : Term} (hl : l.Canonical)
    (hr : r.Canonical) {o p : QueryOptions} (ho : CanonicalOptargs o.entries)
    (hp : CanonicalOptargs p.entries) :
    ∃ μ, m.Represents μ ∧
      Renaming.Finds μ (fun ρ => Agrees ρ l r) (l.matchesWith r m) ∧
      Renaming.Finds μ (fun ρ => Agrees ρ l r ∧ QueryOptions.Agree ρ o p)
        (Renaming.andThen (l.matchesWith r m) (o.matchesWith p)) ∧
      (∃ out, Visits [.terms l r] m out) ∧
      (∀ out, Visits [.terms l r] m out → out.1 = (l.matchesWith r m).1 ∧
        (out.1 = true → ∀ a, out.2.right? a = (l.matchesWith r m).2.right? a)) ∧
      matchesTerm l l = true ∧ matchesTerm l r = matchesTerm r l ∧
      ∀ t, t.Canonical → l.Concrete → t.Concrete → r.Concrete → matchesTerm l t = true →
        matchesTerm t r = true → matchesTerm l r = true := by
  obtain ⟨μ, hμ⟩ := hm.represents
  have hterms := matchesWith_decides hl r m μ hr hμ
  have hboth := hterms.andThen (f := o.matchesWith p) fun ν hν =>
    QueryOptions.matchesWith_decides ho hp hν
  refine ⟨μ, hμ, hterms.finds, hboth.finds, exists_visit hl hr hμ, fun out hout => ?_,
    matchesTerm_self hl, matchesTerm_comm hl hr, fun t ht _ hc _ => matchesTerm_trans hl ht hr hc⟩
  have hcanonical : ∀ g ∈ [Goal.terms l r], g.Canonical :=
    List.forall_mem_singleton.mpr ⟨hl, hr⟩
  have hvisit := (hout.decides hcanonical hμ).congr (Q := fun ρ => Agrees ρ l r) fun ρ =>
    List.forall_mem_singleton
  exact hvisit.agree hterms

/-- A function compared with one in which a wildcard hides an argument, after the table has been
given a pair. -/
theorem matching_least_renaming_hidden :
    let m := (Renaming.empty.bind 7 8).2
    let l : Term := .func [1] (.op .add [.var 1, .var 7] [])
    let r : Term := .func [2] (.op .add [.var 2, .anything] [])
    (∃ μ, m.Represents μ ∧ Renaming.Finds μ (fun ρ => Agrees ρ l r) (l.matchesWith r m)) ∧
      l.matchesWith r m = (true, ⟨[(1, 2), (7, 8)], [(2, 1), (8, 7)]⟩) := by
  intro m l r
  have hm : m.Built := .bind .empty 7 8
  have hl : l.Canonical := ⟨⟨trivial, trivial, trivial⟩, Fields.sorted_nil, trivial⟩
  have hr : r.Canonical := ⟨⟨trivial, trivial, trivial⟩, Fields.sorted_nil, trivial⟩
  obtain ⟨μ, hμ, hfinds, -⟩ :=
    matching_least_renaming hm hl hr (o := .empty) (p := .empty) trivial trivial
  exact ⟨⟨μ, hμ, hfinds⟩, by decide⟩

end Term
end Reql
