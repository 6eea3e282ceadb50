import Mathlib.Data.List.Flatten
import Reql.Proofs.Expr.Numbering
import Reql.Proofs.Expr.Scoping
import Reql.Proofs.Term.Alpha
import Reql.Proofs.Term.Renumbering

/-! Elaboration is hygienic: no two parameters share a number, every variable refers to the
parameter that its name refers to, and another start of the counter only shifts the numbers. -/
namespace Reql

namespace Term

variable {scope : List VarId} {fs : List (String × Term)}

theorem foldl_withOptarg (k : Kind) (as : List Term) (fs : List (String × Term)) :
    fs.foldl (fun t f => t.withOptarg f.1 f.2) (Term.op k as []) = .op k as (Fields.ofList fs) := by
  suffices ∀ gs, fs.foldl (fun t f => t.withOptarg f.1 f.2) (Term.op k as gs) =
      .op k as (fs.foldl (fun gs f => Fields.insert f.1 f.2 gs) gs) from this []
  induction fs with
  | nil => exact fun _ => rfl
  | cons f fs ih => exact fun gs => ih _

theorem optargsNameless_eq_map (fs : List (String × Term)) :
    optargsNameless scope fs = fs.map fun p => (p.1, nameless scope p.2) := by
  induction fs with
  | nil => rfl
  | cons p fs ih => rw [optargsNameless, ih, List.map_cons]

theorem optargsBinders_eq_flatMap (fs : List (String × Term)) :
    optargsBinders fs = fs.flatMap fun p => p.2.binders := by
  induction fs with
  | nil => rfl
  | cons p fs ih => rw [optargsBinders, ih, List.flatMap_cons]

theorem optargsBinders_subperm {fs gs : List (String × Term)} (h : fs.Subperm gs) :
    (optargsBinders fs).Subperm (optargsBinders gs) := by
  obtain ⟨hs, hperm, hsub⟩ := h
  rw [optargsBinders_eq_flatMap, optargsBinders_eq_flatMap]
  exact ((hperm.flatMap_right _).symm.subperm).trans (hsub.flatMap _).subperm

variable {t v : Term} {name : String}

theorem canonical_withOptarg (ht : t.Canonical) (hv : v.Canonical) :
    (t.withOptarg name v).Canonical := by
  cases t with
  | op k as fs =>
    obtain ⟨has, hf, hfs⟩ := ht
    refine ⟨has, Fields.sorted_insert name v hf, canonicalOptargs_iff.mpr fun p hp => ?_⟩
    rcases Fields.mem_insert hp with rfl | hp
    · exact hv
    · exact canonicalOptargs_iff.mp hfs p hp
  | _ => exact ht

theorem binders_withOptarg :
    (t.withOptarg name v).binders.Subperm (t.binders ++ v.binders) := by
  cases t with
  | op k as fs =>
    have hstored := optargsBinders_subperm (Fields.insert_subperm name v fs)
    have hmoved : (v.binders ++ optargsBinders fs).Perm (optargsBinders fs ++ v.binders) :=
      List.perm_append_comm
    rw [withOptarg, binders, binders, List.append_assoc]
    exact (List.Subperm.refl _).append (hstored.trans hmoved.subperm)
  | _ => exact (List.sublist_append_left _ _).subperm

theorem nameless_withOptarg : (t.withOptarg name v).nameless scope =
    (t.nameless scope).withOptarg name (v.nameless scope) := by
  cases t with
  | op k as fs =>
    rw [withOptarg, nameless, nameless, Nameless.withOptarg, optargsNameless_eq_map,
      optargsNameless_eq_map, Fields.insert_map]
  | _ => rfl

theorem renumber_withOptarg (f : VarId → VarId) :
    (t.withOptarg name v).renumber f = (t.renumber f).withOptarg name (v.renumber f) := by
  cases t with
  | op k as fs =>
    rw [withOptarg, renumber, renumber, withOptarg, renumberOptargs_eq_map,
      renumberOptargs_eq_map, Fields.insert_map]
  | _ => rfl

end Term

namespace Expr

def shiftScope (d : VarId) (scope : List (String × VarId)) : List (String × VarId) :=
  scope.map fun p => (p.1, p.2 + d)

/-- What elaboration makes of an expression in a scope of names with distinct numbers. -/
structure Elaborates (scope : List (String × VarId)) (next : VarId) (e : Expr) (t : Term) :
    Prop where
  /-- The counter moves on by the parameters of the expression. Where the counter and the numbers in
  scope are ahead by `d`, so are all numbers of the term. -/
  result : ∀ d, e.elaborate (shiftScope d scope) (next + d) =
    some (t.renumber (· + d), next + .ofNat e.parameters + d)
  canonical : t.Canonical
  /-- The functions of the term have numbers from the counter, each at most once. -/
  binders : t.binders.Subperm (numbers next e.parameters)
  /-- A variable refers to what its name refers to. -/
  scoping : t.nameless (scope.map (·.2)) = e.nameless (scope.map (·.1))

/-- The numbers in scope and those that the counter hands out next are all distinct. -/
def Distinct (scope : List (String × VarId)) (next : VarId) (n : Nat) : Prop :=
  (scope.map (·.2) ++ numbers next n).Nodup

/-- The expression is elaborated in every scope for which it is written. -/
def Elaborated (e : Expr) : Prop :=
  ∀ scope next, e.Written (scope.map (·.1)) → Distinct scope next e.parameters →
    ∃ t, Elaborates scope next e t

variable {scope : List (String × VarId)} {next : VarId} {m n : Nat}

theorem Distinct.left (h : Distinct scope next (m + n)) : Distinct scope next m := by
  rw [Distinct, numbers_add, ← List.append_assoc] at h
  exact h.of_append_left

theorem Distinct.right (h : Distinct scope next (m + n)) :
    Distinct scope (next + .ofNat m) n := by
  rw [Distinct, numbers_add] at h
  exact h.sublist ((List.sublist_append_right _ _).append_left _)

/-- Numbers from two parts of an expression, one after the other. -/
theorem append_subperm_numbers {as bs : List VarId} (ha : as.Subperm (numbers next m))
    (hb : bs.Subperm (numbers (next + .ofNat m) n)) :
    (as ++ bs).Subperm (numbers next (m + n)) := by
  rw [numbers_add]
  exact ha.append hb

theorem add_parameters (next : VarId) (m n : Nat) :
    next + .ofNat m + .ofNat n = next + .ofNat (m + n) := by
  rw [Int64.ofNat_add, Int64.add_assoc]

/-- A name in scope refers to the number that stands at its place. -/
theorem lookup_scope {name : String} (hname : name ∈ scope.map (·.1))
    (hids : (scope.map (·.2)).Nodup) :
    ∃ id ∈ scope.map (·.2), scope.lookup name = some id ∧
      (scope.map (·.2)).idxOf? id = (scope.map (·.1)).idxOf? name := by
  induction scope with
  | nil => cases hname
  | cons p scope ih =>
    obtain ⟨n, i⟩ := p
    rw [List.map_cons] at hname hids
    rw [List.map_cons, List.map_cons, List.lookup_cons, List.idxOf?_cons]
    by_cases hn : n = name
    · subst hn
      exact ⟨i, List.mem_cons_self, by simp, by simp [List.idxOf?_cons]⟩
    · obtain ⟨hi, hids⟩ := List.nodup_cons.mp hids
      have hrest := (List.mem_cons.mp hname).resolve_left (Ne.symm hn)
      obtain ⟨id, hid, hlookup, hidx⟩ := ih hrest hids
      have hne : i ≠ id := fun heq => hi (heq ▸ hid)
      refine ⟨id, List.mem_cons_of_mem _ hid, ?_, ?_⟩
      · rw [beq_false_of_ne (Ne.symm hn)]
        exact hlookup
      · rw [List.idxOf?_cons, beq_false_of_ne hn, beq_false_of_ne hne, hidx]

/-- The names and the numbers around the body of a function. -/
theorem map_bindParams (params : List String) (scope : List (String × VarId)) (next : VarId) :
    (bindParams scope params (numbers next params.length)).map (·.1) =
        params.reverse ++ scope.map (·.1) ∧
      (bindParams scope params (numbers next params.length)).map (·.2) =
        (numbers next params.length).reverse ++ scope.map (·.2) := by
  have hlen : params.length = (numbers next params.length).length := length_numbers.symm
  constructor
  · rw [bindParams, List.map_append, List.map_reverse, List.map_fst_zip hlen.le]
  · rw [bindParams, List.map_append, List.map_reverse, List.map_snd_zip hlen.ge]

theorem bindParams_shift (d : VarId) (params : List String) (ids : List VarId) :
    bindParams (shiftScope d scope) params (ids.map (· + d)) =
      shiftScope d (bindParams scope params ids) := by
  rw [bindParams, bindParams, shiftScope, shiftScope, List.map_append, List.map_reverse,
    List.zip_map_right]
  rfl

theorem perm_lambda (ids ps ns : List VarId) :
    (ids ++ (ps ++ ns)).Perm (ps.reverse ++ ids ++ ns) := by
  rw [← List.append_assoc]
  exact (List.perm_append_comm.trans ((List.reverse_perm ps).symm.append_right ids)).append_right ns

theorem lookup_shiftScope (d : VarId) (name : String) :
    (shiftScope d scope).lookup name = (scope.lookup name).map (· + d) := by
  induction scope with
  | nil => rfl
  | cons p scope ih =>
    obtain ⟨n, i⟩ := p
    rw [shiftScope, List.map_cons, List.lookup_cons, List.lookup_cons]
    cases name == n with
    | true => rfl
    | false => exact ih

/-- The counter has not moved. -/
theorem add_zero_shift (d : VarId) : next + d = next + .ofNat 0 + d :=
  congrArg (· + d) (Int64.add_zero next).symm

theorem elaborated_term (t : Term) : Elaborated (.term t) := by
  intro scope next ht _
  have hresult (d : VarId) : elaborate (shiftScope d scope) (next + d) (.term t) =
      some (t, next + .ofNat 0 + d) := congrArg some (Prod.ext rfl (add_zero_shift d))
  refine ⟨t, ?_⟩
  cases ht with
  | datum hj => exact ⟨hresult, hj, List.nil_subperm, rfl⟩
  | anything => exact ⟨hresult, trivial, List.nil_subperm, rfl⟩
  | db name =>
    exact ⟨hresult, ⟨⟨trivial, trivial⟩, Fields.sorted_nil, trivial⟩, List.nil_subperm, rfl⟩

theorem elaborated_arg (name : String) : Elaborated (.arg name) := by
  intro scope next hname hdistinct
  obtain ⟨id, -, hlookup, hidx⟩ := lookup_scope hname hdistinct.of_append_left
  refine ⟨.var id, fun d => ?_, trivial, List.nil_subperm, ?_⟩
  · rw [elaborate, lookup_shiftScope, hlookup]
    exact congrArg some (Prod.ext rfl (add_zero_shift d))
  · rw [Term.nameless, nameless, hidx]

structure ArgsElaborate (scope : List (String × VarId)) (next : VarId) (es : List Expr)
    (ts : List Term) : Prop where
  result : ∀ d, elaborateArgs (shiftScope d scope) (next + d) es =
    some (Term.renumberArgs (· + d) ts, next + .ofNat (argsParameters es) + d)
  canonical : Term.CanonicalArgs ts
  binders : (Term.argsBinders ts).Subperm (numbers next (argsParameters es))
  scoping : Term.argsNameless (scope.map (·.2)) ts = argsNameless (scope.map (·.1)) es

/-- What elaboration makes of optional arguments, before they are stored by name. -/
structure OptargsElaborate (scope : List (String × VarId)) (next : VarId)
    (es : List (String × Expr)) (ts : List (String × Term)) : Prop where
  result : ∀ d, elaborateOptargs (shiftScope d scope) (next + d) es =
    some (Term.renumberOptargs (· + d) ts, next + .ofNat (optargsParameters es) + d)
  canonical : Term.CanonicalOptargs ts
  binders : (Term.optargsBinders ts).Subperm (numbers next (optargsParameters es))
  scoping : Term.optargsNameless (scope.map (·.2)) ts = optargsNameless (scope.map (·.1)) es

theorem argsElaborate {es : List Expr} (hes : ∀ e ∈ es, Elaborated e)
    (hw : ArgsWritten (scope.map (·.1)) es) (hd : Distinct scope next (argsParameters es)) :
    ∃ ts, ArgsElaborate scope next es ts := by
  induction es generalizing next with
  | nil =>
    refine ⟨[], fun d => ?_, trivial, List.nil_subperm, rfl⟩
    exact congrArg some (Prod.ext rfl (add_zero_shift d))
  | cons e es ih =>
    obtain ⟨he, hes⟩ := List.forall_mem_cons.mp hes
    obtain ⟨t, ht⟩ := he scope next hw.1 hd.left
    obtain ⟨ts, hts⟩ := ih hes hw.2 hd.right
    refine ⟨t :: ts, fun d => ?_, ⟨ht.canonical, hts.canonical⟩,
      append_subperm_numbers ht.binders hts.binders, ?_⟩
    · simp only [elaborateArgs, ht.result, hts.result, bind, Option.bind, add_parameters,
        argsParameters, pure, Term.renumberArgs]
    · rw [Term.argsNameless, argsNameless, ht.scoping, hts.scoping]

theorem optargsElaborate {es : List (String × Expr)} (hes : ∀ f ∈ es, Elaborated f.2)
    (hw : OptargsWritten (scope.map (·.1)) es)
    (hd : Distinct scope next (optargsParameters es)) :
    ∃ ts, OptargsElaborate scope next es ts := by
  induction es generalizing next with
  | nil =>
    refine ⟨[], fun d => ?_, trivial, List.nil_subperm, rfl⟩
    exact congrArg some (Prod.ext rfl (add_zero_shift d))
  | cons f es ih =>
    obtain ⟨name, e⟩ := f
    obtain ⟨he, hes⟩ := List.forall_mem_cons.mp hes
    obtain ⟨t, ht⟩ := he scope next hw.1 hd.left
    obtain ⟨ts, hts⟩ := ih hes hw.2 hd.right
    refine ⟨(name, t) :: ts, fun d => ?_, ⟨ht.canonical, hts.canonical⟩,
      append_subperm_numbers ht.binders hts.binders, ?_⟩
    · simp only [elaborateOptargs, ht.result, hts.result, bind, Option.bind, add_parameters,
        optargsParameters, pure, Term.renumberOptargs]
    · rw [Term.optargsNameless, optargsNameless, ht.scoping, hts.scoping]

theorem elaborated_op (k : Term.Kind) {args : List Expr} {optargs : List (String × Expr)}
    (hargs : ∀ e ∈ args, Elaborated e) (hoptargs : ∀ f ∈ optargs, Elaborated f.2) :
    Elaborated (.op k args optargs) := by
  intro scope next hw hd
  obtain ⟨as, has⟩ := argsElaborate hargs hw.1 hd.left
  obtain ⟨fs, hfs⟩ := optargsElaborate hoptargs hw.2 hd.right
  refine ⟨.op k as (Fields.ofList fs), fun d => ?_, ?_, ?_, ?_⟩
  · simp only [elaborate, has.result, hfs.result, bind, Option.bind, add_parameters, pure,
      Term.foldl_withOptarg, Term.renumber, Term.renumberOptargs_eq_map, Fields.ofList_map,
      parameters]
  · refine ⟨has.canonical, Fields.sorted_ofList fs, Term.canonicalOptargs_iff.mpr fun f hf => ?_⟩
    exact Term.canonicalOptargs_iff.mp hfs.canonical f ((Fields.ofList_subperm fs).subset hf)
  · -- Of two values under one name the first is lost, and its functions with it.
    have hstored := Term.optargsBinders_subperm (Fields.ofList_subperm fs)
    exact append_subperm_numbers has.binders (hstored.trans hfs.binders)
  · rw [Term.nameless, nameless, has.scoping, ← hfs.scoping, Term.optargsNameless_eq_map,
      Term.optargsNameless_eq_map, Fields.ofList_map]

theorem elaborated_lambda (params : List String) {body : Expr} (hbody : Elaborated body) :
    Elaborated (.lambda params body) := by
  intro scope next hw hd
  obtain ⟨hnames, hids⟩ := map_bindParams params scope next
  -- The parameters take their numbers from the counter into the scope, so none is in both.
  have hinner : Distinct (bindParams scope params (numbers next params.length))
      (next + .ofNat params.length) body.parameters := by
    rw [Distinct, parameters, numbers_add] at hd
    rw [Distinct, hids]
    exact (perm_lambda _ _ _).nodup_iff.mp hd
  obtain ⟨t, ht⟩ := hbody _ _ (by rw [hnames]; exact hw) hinner
  refine ⟨.func (numbers next params.length) t, fun d => ?_, ht.canonical,
    append_subperm_numbers (List.Subperm.refl _) ht.binders, ?_⟩
  · have hcounter : next + d + .ofNat params.length = next + .ofNat params.length + d := by
      rw [Int64.add_assoc, Int64.add_comm d, Int64.add_assoc]
    simp only [elaborate, freshIds_eq, bind, Option.bind, pure, bindParams_shift, hcounter,
      ht.result, add_parameters, parameters, Term.renumber, numbers_shift]
  · rw [Term.nameless, nameless, length_numbers, ← hids, ht.scoping, hnames]

theorem elaborated_withOptarg (name : String) {receiver value : Expr}
    (hreceiver : Elaborated receiver) (hvalue : Elaborated value) :
    Elaborated (.withOptarg receiver name value) := by
  intro scope next hw hd
  obtain ⟨t, ht⟩ := hreceiver scope next hw.1 hd.left
  obtain ⟨v, hv⟩ := hvalue scope _ hw.2 hd.right
  refine ⟨t.withOptarg name v, fun d => ?_, Term.canonical_withOptarg ht.canonical hv.canonical,
    Term.binders_withOptarg.trans (append_subperm_numbers ht.binders hv.binders), ?_⟩
  · simp only [elaborate, ht.result, hv.result, bind, Option.bind, add_parameters, pure,
      Term.renumber_withOptarg, parameters]
  · rw [Term.nameless_withOptarg, nameless, ht.scoping, hv.scoping]

/-- Elaboration succeeds for every written expression. -/
theorem elaborated (e : Expr) : Elaborated e := by
  induction e using Expr.induction with
  | term t => exact elaborated_term t
  | arg name => exact elaborated_arg name
  | op k args optargs hargs hoptargs => exact elaborated_op k hargs hoptargs
  | func params body _ => exact fun _ _ hw => hw.elim
  | lambda params body hbody => exact elaborated_lambda params hbody
  | withOptarg receiver name value hreceiver hvalue =>
    exact elaborated_withOptarg name hreceiver hvalue

/-- A build of an expression from a value of the counter. -/
structure Hygienic (e : Expr) (next : VarId) (t : Term) : Prop where
  /-- The build succeeds, and takes a number for each parameter of each function. -/
  built : e.toTerm? next = some (t, next + .ofNat e.parameters)
  /-- No two parameters get the same number, be they of one function or of two. -/
  distinct : (numbers next e.parameters).Nodup
  inOrder : ∀ id ∈ numbers next e.parameters,
    next.toInt ≤ id.toInt ∧ id.toInt < next.toInt + e.parameters
  /-- The functions of the term bind these numbers, each at most once. -/
  binders : t.binders.Subperm (numbers next e.parameters)
  nodup : t.binders.Nodup
  /-- Every variable is bound by the function that is built from the one its name belongs to. -/
  scoping : t.nameless [] = e.nameless []

/-- Two builds of one expression. -/
structure Rebuilt (n₁ n₂ : VarId) (t₁ t₂ : Term) : Prop where
  matching : Term.matchesTerm t₁ t₂ = true ∧ Term.matchesTerm t₂ t₁ = true
  renumbered : t₂ = t₁.renumber (· + (n₂ - n₁))
  /-- No number wraps around when it is shifted. -/
  shift : ∀ id ∈ t₁.binders, (id + (n₂ - n₁)).toInt = id.toInt + (n₂.toInt - n₁.toInt)
  /-- On the wire, the numbers are shifted and nothing else differs. -/
  wire : t₁.build = t₁.buildBy .ofInt64 ∧
    t₂.build = t₁.buildBy fun id => .ofInt64 (id + (n₂ - n₁))

/-- A number plus a fixed one, as a one-to-one renumbering. -/
def shiftEquiv (d : VarId) : VarId ≃ VarId where
  toFun id := id + d
  invFun id := id - d
  left_inv id := Int64.add_sub_cancel id d
  right_inv id := Int64.sub_add_cancel id d

theorem Elaborates.toTerm? {e : Expr} {t : Term} (h : Elaborates [] next e t) :
    e.toTerm? next = some (t, next + .ofNat e.parameters) := by
  have hresult := h.result 0
  have hzero : (fun id : VarId => id + 0) = id := funext Int64.add_zero
  rw [hzero, Term.renumber_id, Int64.add_zero, Int64.add_zero] at hresult
  exact hresult

theorem Elaborates.hygienic {e : Expr} {t : Term} (h : Elaborates [] next e t)
    (hnext : Suffices next e.parameters) : Hygienic e next t where
  built := h.toTerm?
  distinct := hnext.nodup
  inOrder _ hid := hnext.bounds hid
  binders := h.binders
  nodup := by
    obtain ⟨ids, hperm, hsub⟩ := h.binders
    exact hperm.nodup_iff.mp (hnext.nodup.sublist hsub)
  scoping := h.scoping

/-- Numbers handed out by one counter stay as far from it when they are moved to another. -/
theorem toInt_shift {n₁ n₂ id : VarId} (h₁ : Suffices n₁ n) (h₂ : Suffices n₂ n)
    (hid : id ∈ numbers n₁ n) :
    (id + (n₂ - n₁)).toInt = id.toInt + (n₂.toInt - n₁.toInt) := by
  rw [numbers_eq_map] at hid
  obtain ⟨i, hi, rfl⟩ := List.mem_map.mp hid
  rw [List.mem_range] at hi
  have hmoved : n₁ + .ofNat i + (n₂ - n₁) = n₂ + .ofNat i := by
    rw [Int64.add_comm n₁, Int64.add_assoc, Int64.add_comm n₁, Int64.sub_add_cancel,
      Int64.add_comm]
  rw [hmoved, h₁.toInt_add hi, h₂.toInt_add hi]
  omega

/-- A written expression can be built from every value of the counter that does not wrap around. No
number is given out twice, no variable is captured, and two builds match in both directions and
differ by a shift of the numbers. -/
theorem builds_hygienic {e : Expr} (he : e.Written []) {n₁ n₂ : VarId}
    (h₁ : Suffices n₁ e.parameters) (h₂ : Suffices n₂ e.parameters) :
    ∃ t₁ t₂, Hygienic e n₁ t₁ ∧ Hygienic e n₂ t₂ ∧ Rebuilt n₁ n₂ t₁ t₂ := by
  obtain ⟨t, ht⟩ := elaborated e [] n₁ he h₁.nodup
  obtain ⟨t₂, ht₂⟩ := elaborated e [] n₂ he h₂.nodup
  -- The second build is also the first one, shifted.
  have hshifted : t₂ = t.renumber (· + (n₂ - n₁)) := by
    have hahead : n₁ + (n₂ - n₁) = n₂ := by rw [Int64.add_comm, Int64.sub_add_cancel]
    have hresult : e.toTerm? (n₁ + (n₂ - n₁)) = _ := ht.result (n₂ - n₁)
    rw [hahead, ht₂.toTerm?] at hresult
    exact (Prod.mk.inj (Option.some.inj hresult)).1
  have hmatch := Term.matchesTerm_renumber (shiftEquiv (n₂ - n₁)) ht.canonical
  refine ⟨t, t₂, ht.hygienic h₁, ht₂.hygienic h₂, ?_, hshifted, fun id hid => ?_, ?_, ?_⟩
  · rw [hshifted]
    exact hmatch
  · exact toInt_shift h₁ h₂ (ht.binders.subset hid)
  · exact t.buildBy_ofInt64.symm
  · rw [hshifted]
    exact t.build_renumber

/-- A function of one parameter around a function of two, built for the first time and again
later. -/
theorem builds_hygienic_nested :
    let e : Expr := (table "users").filter (.lambda ["u"] (((Expr.arg "u").field "tags").map
      (.lambda ["x", "y"] ((Expr.arg "x").add (.arg "u")))))
    ∃ t₁ t₂, Hygienic e 1 t₁ ∧ Hygienic e 41 t₂ ∧ Rebuilt 1 41 t₁ t₂ := by
  intro e
  have htext (s : String) : (Term.ofString s).Ready := .datum trivial
  have hw : e.Written [] := by
    simp [e, table, filter, field, map, add, method, ofString, Written, ArgsWritten,
      OptargsWritten, htext]
  exact builds_hygienic hw (by decide) (by decide)

end Expr
end Reql
