import Mathlib.Data.Set.Card
import Mathlib.Logic.Relation
import Reql.Proofs.Term.Agreement

/-! Tables of renamed variables under any calls: the two directions stay inverse to each other and
what has been recorded stays, also where a comparison is given up half-way. -/
namespace Reql

namespace Renaming

variable {m m' : Renaming} {a b : VarId}

/-- One pair more, of two variables that were free. -/
inductive Adds : Renaming → Renaming → Prop where
  | pair {m : Renaming} {a b : VarId} (ha : m.right? a = none) (hb : m.left? b = none) :
    Adds m ⟨(a, b) :: m.forward, (b, a) :: m.backward⟩

/-- Any number of pairs more, each of two variables that were free when it came. -/
def Grows : Renaming → Renaming → Prop :=
  Relation.ReflTransGen Adds

namespace Grows

theorem refl (m : Renaming) : Grows m m :=
  Relation.ReflTransGen.refl

theorem bind (m : Renaming) (a b : VarId) : Grows m (m.bind a b).2 := by
  rcases bind_cases m a b with ⟨ha, hb, h⟩ | ⟨-, -, h⟩ | ⟨-, -, h⟩ <;> rw [h]
  · exact .single (.pair ha hb)
  · exact .refl m
  · exact .refl m

theorem andThen {out : Bool × Renaming} {f : Renaming → Bool × Renaming} (h : Grows m out.2)
    (hf : ∀ m', Grows m' (f m').2) : Grows m (Renaming.andThen out f).2 := by
  obtain ⟨verdict, m'⟩ := out
  cases verdict with
  | true => exact h.trans (hf m')
  | false => exact h

theorem bindAll (m : Renaming) (ls rs : List VarId) : Grows m (m.bindAll ls rs).2 := by
  induction ls generalizing m rs with
  | nil => exact .refl m
  | cons l ls ih =>
    cases rs with
    | nil => exact .refl m
    | cons r rs => exact (bind m l r).andThen (f := fun m' => m'.bindAll ls rs) fun m' => ih m' rs

/-- Nothing is changed or removed: what was recorded stands behind what came later. -/
theorem suffix (h : Grows m m') : m.forward <:+ m'.forward := by
  induction h with
  | refl => exact List.suffix_refl _
  | tail _ hadds ih =>
    cases hadds with
    | pair => exact ih.trans (List.suffix_cons _ _)

end Grows

/-- The tables are those of a map and of its inverse: no key has two entries, and the entries of one
table are those of the other turned round. -/
structure Paired (m : Renaming) : Prop where
  backward_eq : m.backward = m.forward.map Prod.swap
  lefts : (m.forward.map Prod.fst).Nodup
  rights : (m.backward.map Prod.fst).Nodup

/-- With one entry for a key, looking up a key finds its entry. -/
theorem lookup_eq_some_iff_of_nodup {table : List (VarId × VarId)}
    (h : (table.map Prod.fst).Nodup) : table.lookup a = some b ↔ (a, b) ∈ table :=
  lookup_eq_some_iff_mem fun _ hp _ hq heq =>
    congrArg Prod.snd (List.inj_on_of_nodup_map h hp hq heq)

theorem not_mem_keys_of_lookup_eq_none {table : List (VarId × VarId)}
    (h : table.lookup a = none) : a ∉ table.map Prod.fst := by
  intro hmem
  obtain ⟨p, hp, rfl⟩ := List.mem_map.mp hmem
  simpa using List.lookup_eq_none_iff.mp h p hp

namespace Paired

theorem empty : Paired .empty :=
  ⟨rfl, List.nodup_nil, List.nodup_nil⟩

theorem adds (h : m.Paired) (hadds : Adds m m') : m'.Paired := by
  cases hadds with
  | pair ha hb =>
    refine ⟨congrArg (List.cons _) h.backward_eq, ?_, ?_⟩
    · exact List.nodup_cons.mpr ⟨not_mem_keys_of_lookup_eq_none ha, h.lefts⟩
    · exact List.nodup_cons.mpr ⟨not_mem_keys_of_lookup_eq_none hb, h.rights⟩

theorem grows (h : m.Paired) (hgrows : Grows m m') : m'.Paired := by
  induction hgrows with
  | refl => exact h
  | tail _ hadds ih => exact ih.adds hadds

theorem right?_eq_some_iff (h : m.Paired) : m.right? a = some b ↔ (a, b) ∈ m.forward :=
  lookup_eq_some_iff_of_nodup h.lefts

theorem left?_eq_some_iff (h : m.Paired) : m.left? b = some a ↔ (a, b) ∈ m.forward := by
  rw [left?, lookup_eq_some_iff_of_nodup h.rights, h.backward_eq, List.mem_map_swap]

theorem right?_iff_left? (h : m.Paired) : m.right? a = some b ↔ m.left? b = some a :=
  h.right?_eq_some_iff.trans h.left?_eq_some_iff.symm

/-- The size counts the pairs of partners. -/
theorem encard_partners (h : m.Paired) :
    {p : VarId × VarId | m.right? p.1 = some p.2}.encard = m.size := by
  have hpairs : {p : VarId × VarId | m.right? p.1 = some p.2} = m.forward.toFinset := by
    ext p
    rw [List.coe_toFinset]
    exact h.right?_eq_some_iff
  rw [hpairs, Set.encard_coe_eq_coe_finsetCard, List.toFinset_card_of_nodup h.lefts.of_map, size]

theorem right?_of_grows (h : m.Paired) (hgrows : Grows m m') (hpair : m.right? a = some b) :
    m'.right? a = some b :=
  (h.grows hgrows).right?_eq_some_iff.mpr (hgrows.suffix.subset (h.right?_eq_some_iff.mp hpair))

/-- Binding two variables succeeds exactly if they are partners afterwards, which they can become
only if both are free. -/
theorem bind_iff (h : m.Paired) (a b : VarId) :
    ((m.bind a b).1 = true ↔ (m.bind a b).2.right? a = some b) ∧
      ((m.bind a b).2.right? a = some b ↔
        m.right? a = some b ∨ m.right? a = none ∧ m.left? b = none) := by
  rcases bind_cases m a b with ⟨ha, hb, hbind⟩ | ⟨ha, -, hbind⟩ | ⟨hfree, hpair, hbind⟩
  · have hself : (⟨(a, b) :: m.forward, (b, a) :: m.backward⟩ : Renaming).right? a = some b := by
      simp [right?]
    rw [hbind]
    exact ⟨iff_of_true rfl hself, iff_of_true hself (.inr ⟨ha, hb⟩)⟩
  · rw [hbind]
    exact ⟨iff_of_true rfl ha, iff_of_true ha (.inl ha)⟩
  · have hne : m.right? a ≠ some b := fun ha => hpair ⟨ha, h.right?_iff_left?.mp ha⟩
    rw [hbind]
    exact ⟨iff_of_false Bool.false_ne_true hne, iff_of_false hne fun hor => hor.elim hne hfree⟩

end Paired

theorem snd_bind_of_failed (h : (m.bind a b).1 = false) : (m.bind a b).2 = m := by
  rcases bind_cases m a b with ⟨-, -, hbind⟩ | ⟨-, -, hbind⟩ | ⟨-, -, hbind⟩
  · rw [hbind] at h
    cases h
  · rw [hbind]
  · rw [hbind]

end Renaming

namespace Term

open Renaming (Grows)

/-- Comparing a term with any other only adds pairs to a table. -/
def Extends (l : Term) : Prop :=
  ∀ (r : Term) (m : Renaming), Grows m (l.matchesWith r m).2

variable {as : List Term} {fs : Fields Term}

theorem argsMatchWith_grows (has : ∀ a ∈ as, Extends a) (bs : List Term) (m : Renaming) :
    Grows m (argsMatchWith as bs m).2 := by
  induction as generalizing bs m with
  | nil => exact .refl m
  | cons a as ih =>
    cases bs with
    | nil => exact .refl m
    | cons b bs =>
      obtain ⟨ha, has⟩ := List.forall_mem_cons.mp has
      exact (ha b m).andThen (f := argsMatchWith as bs) (ih has bs)

theorem optargsMatchWith_grows (hfs : ∀ f ∈ fs, Extends f.2) (gs : Fields Term) (m : Renaming) :
    Grows m (optargsMatchWith fs gs m).2 := by
  induction fs generalizing m with
  | nil => exact .refl m
  | cons f fs ih =>
    obtain ⟨n, a⟩ := f
    obtain ⟨ha, hfs⟩ := List.forall_mem_cons.mp hfs
    unfold optargsMatchWith
    cases Fields.get? n gs with
    | none => exact .refl m
    | some b => exact (ha b m).andThen (f := optargsMatchWith fs gs) (ih hfs)

theorem fieldsMatch_grows (hfs : ∀ f ∈ fs, Extends f.2) (gs : Fields Term) (m : Renaming) :
    Grows m (if fs.length = gs.length then optargsMatchWith fs gs m else (false, m)).2 := by
  by_cases hlen : fs.length = gs.length
  · rw [if_pos hlen]
    exact optargsMatchWith_grows hfs gs m
  · rw [if_neg hlen]
    exact .refl m

/-- Whether two terms agree or differ somewhere, comparing them only adds pairs. -/
theorem matchesWith_grows (l : Term) : Extends l := by
  induction l using Term.induction with
  | op k as fs has hfs =>
    intro r m
    cases r with
    | op k' bs gs =>
      unfold matchesWith
      by_cases hhead : k = k' ∧ as.length = bs.length
      · rw [if_pos hhead]
        exact (argsMatchWith_grows has bs m).andThen (fieldsMatch_grows hfs gs)
      · rw [if_neg hhead]
        exact .refl m
    | _ => exact .refl m
  | func ps s hs =>
    intro r m
    cases r with
    | func qs t =>
      unfold matchesWith
      by_cases hlen : ps.length = qs.length
      · rw [if_pos hlen]
        exact (Grows.bindAll m ps qs).andThen (f := s.matchesWith t) (hs t)
      · rw [if_neg hlen]
        exact .refl m
    | _ => exact .refl m
  | var a =>
    intro r m
    cases r with
    | var b => exact .bind m a b
    | _ => exact .refl m
  | datum v =>
    intro r m
    cases r <;> exact .refl m
  | anything =>
    intro r m
    cases r <;> exact .refl m

end Term

theorem QueryOptions.matchesWith_grows (o p : QueryOptions) (m : Renaming) :
    m.Grows (o.matchesWith p m).2 :=
  Term.fieldsMatch_grows (fun f _ => Term.matchesWith_grows f.2) p.entries m

namespace Renaming

/-- A call on a table. -/
inductive Call where
  | bind (left right : VarId)
  | terms (l r : Term)
  | options (o p : QueryOptions)

/-- The verdict of a call and the table that it leaves behind. -/
def call (m : Renaming) : Call → Bool × Renaming
  | .bind a b => m.bind a b
  | .terms l r => l.matchesWith r m
  | .options o p => o.matchesWith p m

/-- The table behind calls in turn, whatever their verdicts. -/
def after (m : Renaming) (calls : List Call) : Renaming :=
  calls.foldl (fun m c => (m.call c).2) m

theorem call_grows (m : Renaming) (c : Call) : Grows m (m.call c).2 := by
  cases c with
  | bind a b => exact .bind m a b
  | terms l r => exact l.matchesWith_grows r m
  | options o p => exact o.matchesWith_grows p m

theorem after_grows (m : Renaming) (calls : List Call) : Grows m (m.after calls) := by
  induction calls generalizing m with
  | nil => exact .refl m
  | cons c calls ih => exact (m.call_grows c).trans (ih _)

/-- Whatever calls have been made on a table that was empty, its two directions are inverse to each
other and its size is the number of pairs. No later call changes or removes a pair. Binding that
fails changes nothing, and it succeeds exactly if the two variables are partners afterwards, that is
if they were before or both were free. -/
theorem tables_stay_inverse (calls later : List Call) :
    let m := empty.after calls
    let m' := m.after later
    m.backward = m.forward.map Prod.swap ∧
      (∀ a b, m.right? a = some b ↔ m.left? b = some a) ∧
      (∀ a b, m.right? a = some b → m'.right? a = some b ∧ m'.left? b = some a) ∧
      m.size ≤ m'.size ∧
      {p : VarId × VarId | m.right? p.1 = some p.2}.encard = m.size ∧
      ∀ a b, ((m.bind a b).1 = false → (m.bind a b).2 = m) ∧
        ((m.bind a b).1 = true ↔ (m.bind a b).2.right? a = some b) ∧
        ((m.bind a b).2.right? a = some b ↔
          m.right? a = some b ∨ m.right? a = none ∧ m.left? b = none) := by
  intro m m'
  have hgrows : Grows m m' := after_grows m later
  have hm : m.Paired := Paired.empty.grows (after_grows empty calls)
  have hm' : m'.Paired := hm.grows hgrows
  refine ⟨hm.backward_eq, fun a b => hm.right?_iff_left?, fun a b hpair => ?_,
    hgrows.suffix.length_le, hm.encard_partners, fun a b => ?_⟩
  · have hright : m'.right? a = some b := hm.right?_of_grows hgrows hpair
    exact ⟨hright, hm'.right?_iff_left?.mp hright⟩
  · exact ⟨snd_bind_of_failed, hm.bind_iff a b⟩

/-- A comparison that is given up half-way leaves the pair of parameters that it has met, and the
pair from before stays. -/
theorem tables_stay_inverse_abandoned :
    let l : Term := .func [1] (.op .add [.var 1, .datum .null] [])
    let r : Term := .func [2] (.op .add [.var 2, .var 9] [])
    let m := empty.after [.bind 7 8]
    let m' := m.after [.terms l r]
    (m.call (.terms l r)).1 = false ∧ m'.right? 1 = some 2 ∧
      m'.right? 7 = some 8 ∧ m'.left? 8 = some 7 := by
  intro l r m m'
  obtain ⟨-, -, hkept, -⟩ := tables_stay_inverse [.bind 7 8] [.terms l r]
  obtain ⟨hright, hleft⟩ := hkept 7 8 (by decide)
  exact ⟨by decide, by decide, hright, hleft⟩

end Renaming

end Reql
