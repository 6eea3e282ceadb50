import Reql.Proofs.Term.Normal

/-! The wire form of a query tells what it asks for: every array in it is an operation or a list of
arguments, and different terms and options have different forms, but for their spelling. -/
namespace Reql

namespace Json

variable {admitted : Term.Kind → List (String × Json) → Prop} {d : Json} {items : List Json}

/-- In the place of a document an array is always one of the admitted operations. -/
inductive Operational (admitted : Term.Kind → List (String × Json) → Prop) : Json → Prop where
  | leaf {j : Json} (h : j.depth = 0) : Operational admitted j
  | object {fields : List (String × Json)} (h : ∀ f ∈ fields, Operational admitted f.2) :
    Operational admitted (.obj fields)
  | operation {k : Term.Kind} {args : List Json} {optargs : List (String × Json)}
    (h : admitted k optargs) (hargs : ∀ j ∈ args, Operational admitted j)
    (hoptargs : ∀ f ∈ optargs, Operational admitted f.2) :
    Operational admitted (.operation k args optargs)

theorem within_operation_iff {k : Term.Kind} {args : List Json} {optargs : List (String × Json)} :
    Within (.arr items) (operation k args optargs) ↔
      .arr items = operation k args optargs ∨ items = args ∨
        (∃ j ∈ args, Within (.arr items) j) ∨ ∃ f ∈ optargs, Within (.arr items) f.2 := by
  have hkind : ¬Within (.arr items) (ofKind k) := fun h => by cases h
  cases optargs with
  | nil => simp [operation, within_arr_iff, hkind]
  | cons f optargs => simp [operation, within_arr_iff, within_obj_iff, hkind, or_assoc]

theorem Within.arg {j : Json} {args : List Json} (hj : j ∈ args) (h : Within d j) (k : Term.Kind)
    (optargs : List (String × Json)) : Within d (Json.operation k args optargs) :=
  .item (List.mem_cons_of_mem _ List.mem_cons_self) (.item hj h)

theorem Within.optarg {f : String × Json} {optargs : List (String × Json)} (hf : f ∈ optargs)
    (h : Within d f.2) (k : Term.Kind) (args : List Json) :
    Within d (Json.operation k args optargs) := by
  cases optargs with
  | nil => cases hf
  | cons g optargs =>
    refine .item (k := .obj (g :: optargs)) ?_ (.field hf h)
    simp

/-- Every other array is the list of arguments of an operation. -/
theorem Operational.array (h : Operational admitted d) (hw : Within (.arr items) d) :
    (∃ k args optargs, admitted k optargs ∧ .arr items = Json.operation k args optargs) ∨
      ∃ k optargs, admitted k optargs ∧ Within (Json.operation k items optargs) d := by
  induction h with
  | leaf hleaf =>
    have hd := hw.eq_of_leaf hleaf
    rw [← hd] at hleaf
    cases hleaf
  | object _ ih =>
    rcases within_obj_iff.mp hw with hobj | ⟨f, hf, hw⟩
    · cases hobj
    · refine (ih f hf hw).imp_right ?_
      rintro ⟨k, optargs, hk, hin⟩
      exact ⟨k, optargs, hk, .field hf hin⟩
  | @operation k args optargs hk _ _ hargs hoptargs =>
    rcases within_operation_iff.mp hw with heq | rfl | ⟨j, hj, hw⟩ | ⟨f, hf, hw⟩
    · exact .inl ⟨k, args, optargs, hk, heq⟩
    · exact .inr ⟨k, optargs, hk, .whole _⟩
    · refine (hargs j hj hw).imp_right ?_
      rintro ⟨l, os, hl, hin⟩
      exact ⟨l, os, hl, hin.arg hj k optargs⟩
    · refine (hoptargs f hf hw).imp_right ?_
      rintro ⟨l, os, hl, hin⟩
      exact ⟨l, os, hl, hin.optarg hf k args⟩

/-- A literal has no operations in it but array constructors. -/
theorem operational_literal (j : Json) :
    Operational (fun k optargs => k = .makeArray ∧ optargs = []) j.literal := by
  induction j using Json.induction with
  | leaf j hj =>
    cases j with
    | arr | obj => cases hj
    | _ => exact .leaf rfl
  | arr items ih =>
    rw [literal_arr]
    exact .operation ⟨rfl, rfl⟩ (List.forall_mem_map.mpr ih) (List.forall_mem_nil _)
  | obj fields ih =>
    rw [literal, literalFields_eq_map]
    exact .object (List.forall_mem_map.mpr ih)

theorem Operational.mono {admitted' : Term.Kind → List (String × Json) → Prop}
    (himp : ∀ k optargs, admitted k optargs → admitted' k optargs) (h : Operational admitted d) :
    Operational admitted' d := by
  induction h with
  | leaf h => exact .leaf h
  | object _ ih => exact .object ih
  | operation hk _ _ hargs hoptargs => exact .operation (himp _ _ hk) hargs hoptargs

end Json

namespace Term

/-- A literal stands in a term, as a whole argument, optional argument or body. -/
inductive Holds : Term → Json → Prop where
  | datum (j : Json) : Holds (.datum j) j
  | arg {k : Kind} {args : List Term} {optargs : List (String × Term)} {a : Term} {j : Json}
    (ha : a ∈ args) (h : Holds a j) : Holds (.op k args optargs) j
  | optarg {k : Kind} {args : List Term} {optargs : List (String × Term)} {f : String × Term}
    {j : Json} (hf : f ∈ optargs) (h : Holds f.2 j) : Holds (.op k args optargs) j
  | body {params : List VarId} {body : Term} {j : Json} (h : Holds body j) :
    Holds (.func params body) j

theorem Holds.within {t : Term} {j : Json} (h : t.Holds j) : j.literal.Within t.build := by
  induction h with
  | datum j => exact .whole _
  | @arg k args optargs a j ha _ ih =>
    rw [build_op]
    exact ih.arg (List.mem_map_of_mem ha) _ _
  | @optarg k args optargs f j hf _ ih =>
    rw [build_op]
    exact Json.Within.optarg (List.mem_map_of_mem (f := fun f => (f.1, f.2.build)) hf) ih _ _
  | @body params body j _ ih =>
    rw [build_func]
    exact ih.arg (by simp) _ _

theorem Normal.operational {t : Term} (h : t.Normal) : t.build.Operational fun _ _ => True := by
  induction h with
  | @datum j => exact (Json.operational_literal j).mono fun _ _ _ => trivial
  | op _ _ hargs hoptargs =>
    rw [build_op]
    exact .operation trivial (List.forall_mem_map.mpr hargs) (List.forall_mem_map.mpr hoptargs)

theorem operational_build (t : Term) : t.build.Operational fun _ _ => True := by
  rw [← build_normal]
  exact (normal_normal t).operational

end Term

def QueryOptions.normal (o : QueryOptions) : QueryOptions :=
  ⟨Term.normalOptargs o.entries, by
    rw [Term.normalOptargs_eq_map]
    exact List.pairwise_map.mpr o.sorted⟩

theorem QueryOptions.build_eq_iff (o p : QueryOptions) :
    o.build = p.build ↔ o.normal = p.normal := by
  simp [build, normal, Term.buildOptargs_eq_iff]

theorem QueryOptions.same_build (o p : QueryOptions) :
    o.build.same p.build = o.normal.same p.normal :=
  Term.equalFieldsBy_buildOptargs Double.sameValue o.entries p.entries

theorem Term.same_build (s t : Term) : s.build.same t.build = s.normal.same t.normal :=
  Term.equalBy_build Double.sameValue s t

namespace Query

/-- The document of a start. -/
theorem document_start (token : Token) (t : Term) (o : QueryOptions) :
    (start token t o).document =
      .ok (.arr [.ofUInt64 QueryType.start.code, t.build, o.build]) := rfl

/-- The wire form of a term tells the term but for its spelling, whether documents are compared as
they stand or as values. Arrays in it are operations or lists of arguments, those in literals at any
depth array constructors or their lists. So a start tells its term and its options. -/
theorem wire_unambiguous (s t : Term) (o p : QueryOptions) (a b : Token) :
    (s.build = t.build ↔ s.normal = t.normal) ∧
    s.build.same t.build = s.normal.same t.normal ∧
    (∀ items, (Json.arr items).Within s.build →
      (∃ k args optargs, .arr items = Json.operation k args optargs) ∨
        ∃ k optargs, (Json.operation k items optargs).Within s.build) ∧
    (∀ j, s.Holds j → j.literal.Within s.build ∧ ∀ items, (Json.arr items).Within j.literal →
      (∃ args, .arr items = Json.operation .makeArray args []) ∨
        (Json.operation .makeArray items []).Within j.literal) ∧
    ∃ c d, (start a s o).document = .ok c ∧ (start b t p).document = .ok d ∧
      (c = d ↔ s.normal = t.normal ∧ o.normal = p.normal) ∧
      c.same d = (s.normal.same t.normal && o.normal.same p.normal) := by
  refine ⟨Term.build_eq_iff s t, Term.same_build s t, fun items hw => ?_,
    fun j hj => ⟨hj.within, fun items hw => ?_⟩, _, _, document_start a s o, document_start b t p,
    ?_, ?_⟩
  · rcases (Term.operational_build s).array hw with ⟨k, args, optargs, -, heq⟩ | ⟨k, optargs, -, hin⟩
    · exact .inl ⟨k, args, optargs, heq⟩
    · exact .inr ⟨k, optargs, hin⟩
  · rcases (Json.operational_literal j).array hw with
      ⟨k, args, optargs, ⟨rfl, rfl⟩, heq⟩ | ⟨k, optargs, ⟨rfl, rfl⟩, hin⟩
    · exact .inl ⟨args, heq⟩
    · exact .inr hin
  · simp [Term.build_eq_iff, QueryOptions.build_eq_iff]
  · have hcode : (Json.ofUInt64 QueryType.start.code).same (.ofUInt64 QueryType.start.code) = true :=
      rfl
    change ((Json.ofUInt64 QueryType.start.code).same (.ofUInt64 QueryType.start.code) &&
      (s.build.same t.build && (o.build.same p.build && true))) = _
    rw [hcode, Term.same_build, QueryOptions.same_build, Bool.true_and, Bool.and_true]

/-- An array of numbers, and the same array spelled as an operation. -/
example : (Term.datum (.arr [.ofInt64 16, .arr []])).build =
    (Term.op .makeArray [.ofInt64 16, .op .makeArray [] []] []).build := by decide

end Query
end Reql
