import Reql.Proofs.Json.Parts
import Reql.Proofs.Term.Agreement
import Reql.Query.Basic

/-! The wire form of a term tells the term, up to the several spellings of one operation. -/
namespace Reql

namespace Json

variable {eq : Double → Double → Bool}

theorem equalBy_beq : equalBy (· == ·) = (· == ·) := by
  funext a b
  rw [Bool.eq_iff_iff, equalBy_iff, beq_iff_eq]

/-- Kinds have different numbers. -/
theorem equalBy_ofKind (k l : Term.Kind) : equalBy eq (ofKind k) (ofKind l) = (k == l) := by
  rw [Bool.eq_iff_iff]
  constructor
  · intro h
    have hcode : (k.code : Int) = l.code := by simpa [equalBy, ofKind, Subtype.ext_iff] using h
    rw [Term.Kind.code_injective (Int.ofNat.inj hcode)]
    exact beq_self_eq_true l
  · intro h
    rw [eq_of_beq h]
    exact beq_self_eq_true _

/-- The wire form of an operation, where optional arguments are left out if there are none. -/
def operation (k : Term.Kind) (args : List Json) (optargs : List (String × Json)) : Json :=
  .arr (.ofKind k :: .arr args :: if optargs.isEmpty then [] else [.obj optargs])

theorem equalBy_operation (k l : Term.Kind) (as bs : List Json) (fs gs : List (String × Json)) :
    equalBy eq (operation k as fs) (operation l bs gs) =
      (k == l && equalItemsBy eq as bs && equalFieldsBy eq fs gs) := by
  cases fs <;> cases gs <;>
    simp [operation, equalBy, equalItemsBy, equalFieldsBy, equalBy_ofKind, Bool.and_assoc]

theorem literalItems_eq_map (items : List Json) : literalItems items = items.map literal := by
  induction items with
  | nil => rfl
  | cons j items ih => rw [literalItems, ih, List.map_cons]

theorem literalFields_eq_map (fields : List (String × Json)) :
    literalFields fields = fields.map fun f => (f.1, f.2.literal) := by
  induction fields with
  | nil => rfl
  | cons f fields ih =>
    obtain ⟨n, j⟩ := f
    rw [literalFields, ih, List.map_cons]

theorem literal_arr (items : List Json) :
    (arr items).literal = operation .makeArray (items.map literal) [] := by
  rw [literal, literalItems_eq_map]
  rfl

mutual

/-- Literals with the same wire form are the same literal. -/
theorem equalBy_literal : ∀ a b : Json, equalBy eq a.literal b.literal = equalBy eq a b
  | .arr as, b => by
    cases b with
    | arr bs =>
      have hitems := equalItemsBy_literalItems as bs
      simp [literal, equalBy, equalItemsBy, equalBy_ofKind, hitems]
    | _ => simp [literal, equalBy]
  | .obj fs, b => by
    cases b with
    | obj gs => exact equalFieldsBy_literalFields fs gs
    | _ => simp [literal, equalBy]
  | .null, b | .bool _, b | .int _, b | .double _, b | .str _, b => by
    cases b <;> simp [literal, equalBy]

theorem equalItemsBy_literalItems : ∀ as bs : List Json,
    equalItemsBy eq (literalItems as) (literalItems bs) = equalItemsBy eq as bs
  | [], bs => by cases bs <;> rfl
  | a :: as, bs => by
    cases bs with
    | nil => rfl
    | cons b bs =>
      simp only [literalItems, equalItemsBy, equalBy_literal a b, equalItemsBy_literalItems as bs]

theorem equalFieldsBy_literalFields : ∀ fs gs : List (String × Json),
    equalFieldsBy eq (literalFields fs) (literalFields gs) = equalFieldsBy eq fs gs
  | [], gs => by cases gs <;> rfl
  | (n, a) :: fs, gs => by
    cases gs with
    | nil => rfl
    | cons g gs =>
      obtain ⟨m, b⟩ := g
      simp only [literalFields, equalFieldsBy, equalBy_literal a b,
        equalFieldsBy_literalFields fs gs]

end

end Json

namespace Term

variable {eq : Double → Double → Bool}

mutual

/-- A literal with its arrays spelled as array constructors. What is inside an object stays as it
is, as an object has no other spelling. -/
def ofLiteral : Json → Term
  | .arr items => .op .makeArray (ofLiterals items) []
  | j => .datum j

def ofLiterals : List Json → List Term
  | [] => []
  | j :: rest => ofLiteral j :: ofLiterals rest

end

mutual

/-- The term with arrays, functions and variables spelled as operations and the wildcard as
`null`. -/
def normal : Term → Term
  | .datum j => ofLiteral j
  | .op k args optargs => .op k (normalArgs args) (normalOptargs optargs)
  | .func params body =>
    .op .func [.op .makeArray (params.map ofInt64) [], normal body] []
  | .var id => .op .var [ofInt64 id] []
  | .anything => .datum .null

def normalArgs : List Term → List Term
  | [] => []
  | t :: rest => normal t :: normalArgs rest

def normalOptargs : List (String × Term) → List (String × Term)
  | [] => []
  | (n, t) :: rest => (n, normal t) :: normalOptargs rest

end

/-- A term is built from literals that are no arrays by operations alone. -/
inductive Normal : Term → Prop where
  | datum {j : Json} (h : ∀ items, j ≠ .arr items) : Normal (.datum j)
  | op {k : Kind} {args : List Term} {optargs : List (String × Term)}
    (hargs : ∀ t ∈ args, Normal t) (hoptargs : ∀ f ∈ optargs, Normal f.2) :
    Normal (.op k args optargs)

theorem ofLiterals_eq_map (items : List Json) : ofLiterals items = items.map ofLiteral := by
  induction items with
  | nil => rfl
  | cons j items ih => rw [ofLiterals, ih, List.map_cons]

theorem normalArgs_eq_map (args : List Term) : normalArgs args = args.map normal := by
  induction args with
  | nil => rfl
  | cons t args ih => rw [normalArgs, ih, List.map_cons]

theorem normalOptargs_eq_map (optargs : List (String × Term)) :
    normalOptargs optargs = optargs.map fun f => (f.1, f.2.normal) := by
  induction optargs with
  | nil => rfl
  | cons f optargs ih =>
    obtain ⟨n, t⟩ := f
    rw [normalOptargs, ih, List.map_cons]

theorem buildArgs_eq_map (args : List Term) : buildArgs args = args.map build := by
  induction args with
  | nil => rfl
  | cons t args ih => rw [buildArgs, ih, List.map_cons]

theorem buildOptargs_eq_map (optargs : List (String × Term)) :
    buildOptargs optargs = optargs.map fun f => (f.1, f.2.build) := by
  induction optargs with
  | nil => rfl
  | cons f optargs ih =>
    obtain ⟨n, t⟩ := f
    rw [buildOptargs, ih, List.map_cons]

theorem build_op (k : Kind) (args : List Term) (optargs : List (String × Term)) :
    (op k args optargs).build =
      .operation k (args.map build) (optargs.map fun f => (f.1, f.2.build)) := by
  rw [← buildArgs_eq_map, ← buildOptargs_eq_map]
  cases optargs <;> rfl

theorem build_func (params : List VarId) (body : Term) :
    (func params body).build =
      .operation .func [.operation .makeArray (params.map .ofInt64) [], body.build] [] := rfl

theorem normal_ofInt64 (n : Int64) : Normal (ofInt64 n) :=
  .datum fun items h => by cases h

theorem normal_ofLiteral (j : Json) : Normal (ofLiteral j) := by
  induction j using Json.induction with
  | leaf j hj =>
    cases j with
    | arr | obj => cases hj
    | _ => exact .datum fun items h => by cases h
  | arr items ih =>
    refine .op (fun t ht => ?_) (List.forall_mem_nil _)
    rw [ofLiterals_eq_map] at ht
    obtain ⟨j, hj, rfl⟩ := List.mem_map.mp ht
    exact ih j hj
  | obj fields => exact .datum fun items h => by cases h

theorem normal_normal (t : Term) : t.normal.Normal := by
  induction t using Term.induction with
  | datum j => exact normal_ofLiteral j
  | op k args optargs hargs hoptargs =>
    refine .op (fun t ht => ?_) fun f hf => ?_
    · rw [normalArgs_eq_map] at ht
      obtain ⟨s, hs, rfl⟩ := List.mem_map.mp ht
      exact hargs s hs
    · rw [normalOptargs_eq_map] at hf
      obtain ⟨g, hg, rfl⟩ := List.mem_map.mp hf
      exact hoptargs g hg
  | func params body ih =>
    have hparams : Normal (.op .makeArray (params.map ofInt64) []) := by
      refine .op (fun t ht => ?_) (List.forall_mem_nil _)
      obtain ⟨id, -, rfl⟩ := List.mem_map.mp ht
      exact normal_ofInt64 id
    exact .op (by simp [hparams, ih]) (List.forall_mem_nil _)
  | var id => exact .op (by simp [normal_ofInt64]) (List.forall_mem_nil _)
  | anything => exact .datum fun items h => by cases h

theorem build_ofLiteral (j : Json) : (ofLiteral j).build = j.literal := by
  induction j using Json.induction with
  | leaf j hj =>
    cases j with
    | arr | obj => cases hj
    | _ => rfl
  | arr items ih =>
    have hitems : (items.map ofLiteral).map build = items.map Json.literal := by
      rw [List.map_map]
      exact List.map_congr_left ih
    rw [ofLiteral, build_op, ofLiterals_eq_map, hitems, Json.literal_arr, List.map_nil]
  | obj fields => rfl

/-- Other spellings have the same wire form. -/
theorem build_normal (t : Term) : t.normal.build = t.build := by
  induction t using Term.induction with
  | datum j => exact build_ofLiteral j
  | op k args optargs hargs hoptargs =>
    have hargs' : (args.map normal).map build = args.map build := by
      rw [List.map_map]
      exact List.map_congr_left hargs
    have hoptargs' : (optargs.map fun f => (f.1, f.2.normal)).map (fun f => (f.1, f.2.build)) =
        optargs.map fun f => (f.1, f.2.build) := by
      rw [List.map_map]
      exact List.map_congr_left fun f hf => by simp [hoptargs f hf]
    rw [normal, build_op, build_op, normalArgs_eq_map, normalOptargs_eq_map, hargs', hoptargs']
  | func params body ih =>
    have hids : (params.map ofInt64).map build = params.map Json.ofInt64 := by
      rw [List.map_map]
      rfl
    rw [normal, build_op, build_func, List.map_cons, List.map_cons, List.map_nil, build_op, hids, ih]
    rfl
  | var id => rfl
  | anything => rfl

/-- Normal arguments with the same wire forms are the same. -/
theorem equalItemsBy_build {as bs : List Term}
    (has : ∀ a ∈ as, ∀ b : Term, b.Normal →
      Json.equalBy eq a.build b.build = equalBy (Json.equalBy eq) a b)
    (hbs : ∀ b ∈ bs, b.Normal) :
    Json.equalItemsBy eq (as.map build) (bs.map build) = equalArgsBy (Json.equalBy eq) as bs := by
  induction as generalizing bs with
  | nil => cases bs <;> rfl
  | cons a as ih =>
    cases bs with
    | nil => rfl
    | cons b bs =>
      obtain ⟨ha, has⟩ := List.forall_mem_cons.mp has
      obtain ⟨hb, hbs⟩ := List.forall_mem_cons.mp hbs
      rw [List.map_cons, List.map_cons, Json.equalItemsBy, equalArgsBy, ha b hb, ih has hbs]

theorem equalFieldsBy_build {fs gs : List (String × Term)}
    (hfs : ∀ f ∈ fs, ∀ b : Term, b.Normal →
      Json.equalBy eq f.2.build b.build = equalBy (Json.equalBy eq) f.2 b)
    (hgs : ∀ g ∈ gs, g.2.Normal) :
    Json.equalFieldsBy eq (fs.map fun f => (f.1, f.2.build)) (gs.map fun g => (g.1, g.2.build)) =
      equalOptargsBy (Json.equalBy eq) fs gs := by
  induction fs generalizing gs with
  | nil => cases gs <;> rfl
  | cons f fs ih =>
    cases gs with
    | nil => rfl
    | cons g gs =>
      obtain ⟨hf, hfs⟩ := List.forall_mem_cons.mp hfs
      obtain ⟨hg, hgs⟩ := List.forall_mem_cons.mp hgs
      rw [List.map_cons, List.map_cons, Json.equalFieldsBy, equalOptargsBy, hf g.2 hg, ih hfs hgs]

/-- A literal that is no array has no array for its wire form, an operation has one. -/
theorem Normal.equalBy_build {s t : Term} (hs : s.Normal) (ht : t.Normal) :
    Json.equalBy eq s.build t.build = equalBy (Json.equalBy eq) s t := by
  induction hs generalizing t with
  | @datum a ha =>
    cases ht with
    | @datum b hb => exact Json.equalBy_literal a b
    | @op k args optargs =>
      rw [build_op]
      cases a with
      | arr items => exact absurd rfl (ha items)
      | _ => rfl
  | @op k as fs _ _ has hfs =>
    cases ht with
    | @datum b hb =>
      rw [build_op]
      cases b with
      | arr items => exact absurd rfl (hb items)
      | _ => rfl
    | @op l bs gs hbs hgs =>
      rw [build_op, build_op, Json.equalBy_operation, equalItemsBy_build (fun a ha b => has a ha) hbs,
        equalFieldsBy_build (fun f hf b => hfs f hf) hgs, equalBy]

/-- Two terms have the same wire form as far as they are the same but for their spelling. -/
theorem equalBy_build (eq : Double → Double → Bool) (s t : Term) :
    Json.equalBy eq s.build t.build = equalBy (Json.equalBy eq) s.normal t.normal := by
  rw [← build_normal s, ← build_normal t]
  exact (normal_normal s).equalBy_build (normal_normal t)

theorem equalFieldsBy_buildOptargs (eq : Double → Double → Bool) (fs gs : List (String × Term)) :
    Json.equalFieldsBy eq (buildOptargs fs) (buildOptargs gs) =
      equalOptargsBy (Json.equalBy eq) (normalOptargs fs) (normalOptargs gs) := by
  have h := equalBy_build eq (.op .datum [] fs) (.op .datum [] gs)
  rw [build_op, build_op, Json.equalBy_operation, ← buildOptargs_eq_map, ← buildOptargs_eq_map] at h
  simpa [normal, normalArgs, equalBy, equalArgsBy, Json.equalItemsBy] using h

theorem build_eq_iff (s t : Term) : s.build = t.build ↔ s.normal = t.normal := by
  rw [← Json.equalBy_iff, equalBy_build, Json.equalBy_beq, equalBy_iff]

theorem buildOptargs_eq_iff (fs gs : List (String × Term)) :
    buildOptargs fs = buildOptargs gs ↔ normalOptargs fs = normalOptargs gs := by
  rw [← Json.equalFieldsBy_iff, equalFieldsBy_buildOptargs, Json.equalBy_beq, equalOptargsBy_iff]

end Term
end Reql
