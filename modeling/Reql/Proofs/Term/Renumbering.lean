import Reql.Proofs.Fields
import Reql.Proofs.Term.Equivalence
import Reql.Term.Wire

/-! Terms with other numbers for their variables: how they build, and that they still match. -/
namespace Reql

theorem Fields.names_map {α β : Type} (f : α → β) (fs : Fields α) :
    names (fs.map fun p => (p.1, f p.2)) = names fs := by
  rw [names, names, List.map_map]
  rfl

namespace Term

mutual

/-- The term with other numbers for its variables, at functions and at their uses. -/
def renumber (f : VarId → VarId) : Term → Term
  | .datum j => .datum j
  | .op k args optargs => .op k (renumberArgs f args) (renumberOptargs f optargs)
  | .func params body => .func (params.map f) (renumber f body)
  | .var id => .var (f id)
  | .anything => .anything

def renumberArgs (f : VarId → VarId) : List Term → List Term
  | [] => []
  | t :: rest => renumber f t :: renumberArgs f rest

def renumberOptargs (f : VarId → VarId) : List (String × Term) → List (String × Term)
  | [] => []
  | (n, t) :: rest => (n, renumber f t) :: renumberOptargs f rest

end

mutual

/-- The wire form, given how the numbers of variables are written. -/
def buildBy (number : VarId → Json) : Term → Json
  | .datum j => j.literal
  | .op k args [] => .arr [.ofKind k, .arr (buildArgsBy number args)]
  | .op k args optargs =>
    .arr [.ofKind k, .arr (buildArgsBy number args), .obj (buildOptargsBy number optargs)]
  | .func params body =>
    .arr [.ofKind .func,
      .arr [.arr [.ofKind .makeArray, .arr (params.map number)], buildBy number body]]
  | .var id => .arr [.ofKind .var, .arr [number id]]
  | .anything => .null

def buildArgsBy (number : VarId → Json) : List Term → List Json
  | [] => []
  | t :: rest => buildBy number t :: buildArgsBy number rest

def buildOptargsBy (number : VarId → Json) : List (String × Term) → List (String × Json)
  | [] => []
  | (n, t) :: rest => (n, buildBy number t) :: buildOptargsBy number rest

end

variable {f : VarId → VarId} {t : Term} {as : List Term} {fs : List (String × Term)}

theorem renumberArgs_eq_map (as : List Term) : renumberArgs f as = as.map (renumber f) := by
  induction as with
  | nil => rfl
  | cons a as ih => rw [renumberArgs, ih, List.map_cons]

theorem renumberOptargs_eq_map (fs : List (String × Term)) :
    renumberOptargs f fs = fs.map fun p => (p.1, renumber f p.2) := by
  induction fs with
  | nil => rfl
  | cons p fs ih =>
    obtain ⟨n, a⟩ := p
    rw [renumberOptargs, ih, List.map_cons]

mutual

/-- Renumbering a term changes nothing on the wire but the numbers. -/
theorem build_renumber : ∀ t : Term, (t.renumber f).build = t.buildBy fun id => .ofInt64 (f id)
  | .datum _ | .var _ | .anything => rfl
  | .op k args [] => by rw [renumber, renumberOptargs, build, buildBy, build_renumberArgs args]
  | .op k args (p :: optargs) => by
    rw [renumber, renumberOptargs, build, buildBy, build_renumberArgs args,
      ← build_renumberOptargs (p :: optargs), renumberOptargs]
    · exact List.cons_ne_nil _ _
    · exact List.cons_ne_nil _ _
  | .func params body => by
    rw [renumber, build, buildBy, build_renumber body, List.map_map]
    rfl

theorem build_renumberArgs : ∀ as : List Term,
    buildArgs (renumberArgs f as) = buildArgsBy (fun id => .ofInt64 (f id)) as
  | [] => rfl
  | t :: rest => by
    rw [renumberArgs, buildArgs, buildArgsBy, build_renumber t, build_renumberArgs rest]

theorem build_renumberOptargs : ∀ fs : List (String × Term),
    buildOptargs (renumberOptargs f fs) = buildOptargsBy (fun id => .ofInt64 (f id)) fs
  | [] => rfl
  | (n, t) :: rest => by
    rw [renumberOptargs, buildOptargs, buildOptargsBy, build_renumber t,
      build_renumberOptargs rest]

end

/-- No number is changed. -/
theorem renumber_id (t : Term) : t.renumber id = t := by
  induction t using Term.induction with
  | op k as fs has hfs =>
    have hargs : as.map (renumber id) = as :=
      (List.map_congr_left has).trans (List.map_id' as)
    have hopts : (fs.map fun p => (p.1, renumber id p.2)) = fs :=
      (List.map_congr_left fun p hp => by rw [hfs p hp]).trans (List.map_id' fs)
    rw [renumber, renumberArgs_eq_map, renumberOptargs_eq_map, hargs, hopts]
  | func ps s hs => rw [renumber, List.map_id, hs]
  | _ => rfl

theorem buildBy_ofInt64 (t : Term) : t.buildBy .ofInt64 = t.build := by
  have h := build_renumber (f := id) t
  rw [renumber_id] at h
  exact h.symm

theorem canonical_renumber (h : t.Canonical) : (t.renumber f).Canonical := by
  induction t using Term.induction with
  | op k as fs has hfs =>
    obtain ⟨hcas, hf, hcfs⟩ := h
    rw [canonicalArgs_iff] at hcas
    rw [canonicalOptargs_iff] at hcfs
    rw [renumber, renumberArgs_eq_map, renumberOptargs_eq_map]
    refine ⟨canonicalArgs_iff.mpr ?_, Fields.sorted_map _ hf, canonicalOptargs_iff.mpr ?_⟩
    · exact List.forall_mem_map.mpr fun a ha => has a ha (hcas a ha)
    · exact List.forall_mem_map.mpr fun p hp => hfs p hp (hcfs p hp)
  | func ps s hs => exact hs h
  | datum v => exact h
  | _ => trivial

/-- A term agrees with what a one-to-one renumbering makes of it. -/
theorem agrees_renumber (σ : VarId ≃ VarId) (h : t.Canonical) :
    Agrees σ.toPEquiv t (t.renumber σ) := by
  induction t using Term.induction with
  | datum v => exact Json.same_self v
  | op k as fs has hfs =>
    obtain ⟨hcas, hf, hcfs⟩ := h
    rw [canonicalArgs_iff] at hcas
    rw [canonicalOptargs_iff] at hcfs
    rw [renumber, renumberArgs_eq_map, renumberOptargs_eq_map]
    refine ⟨rfl, argsAgree_iff.mpr ?_, fun n => by rw [Fields.names_map], ?_⟩
    · exact List.forall₂_map_right_iff.mpr
        (List.forall₂_same.mpr fun a ha => has a ha (hcas a ha))
    · refine optargsAgree_iff.mpr fun n a hmem => ⟨a.renumber σ, ?_, hfs _ hmem (hcfs _ hmem)⟩
      rw [Fields.get?_map, Fields.get?_of_mem hf hmem]
      rfl
  | func ps s hs =>
    exact ⟨List.forall₂_map_right_iff.mpr (List.forall₂_same.mpr fun _ _ => rfl), hs h⟩
  | var a => rfl
  | anything => trivial

/-- A term and what a one-to-one renumbering makes of it match in both directions. -/
theorem matchesTerm_renumber (σ : VarId ≃ VarId) (h : t.Canonical) :
    matchesTerm t (t.renumber σ) = true ∧ matchesTerm (t.renumber σ) t = true := by
  have hforward : matchesTerm t (t.renumber σ) = true :=
    (matchesTerm_iff h (canonical_renumber h)).mpr ⟨_, agrees_renumber σ h⟩
  exact ⟨hforward, (matchesTerm_comm h (canonical_renumber h)).symm.trans hforward⟩

end Term
end Reql
