import Reql.Proofs.Term.Agreement

/-! Agreement is reflexive and symmetric, and transitive without wildcards; so is comparison. -/
namespace Reql

namespace Json

mutual

theorem same_self : ∀ j : Json, equalBy Double.sameValue j j = true
  | .null => rfl
  | .bool b | .int b | .str b => beq_self_eq_true b
  | .double d => Double.sameValue_self d
  | .arr items => sameItems_self items
  | .obj fields => sameFields_self fields

theorem sameItems_self : ∀ items : List Json, equalItemsBy Double.sameValue items items = true
  | [] => rfl
  | j :: items => Bool.and_eq_true_iff.mpr ⟨same_self j, sameItems_self items⟩

theorem sameFields_self : ∀ fields : List (String × Json),
    equalFieldsBy Double.sameValue fields fields = true
  | [] => rfl
  | (n, j) :: fields => by
    rw [equalFieldsBy, beq_self_eq_true, same_self j, sameFields_self fields]
    rfl

end

mutual

theorem same_comm : ∀ a b : Json, equalBy Double.sameValue a b = equalBy Double.sameValue b a
  | .arr as, b => by
    cases b with
    | arr bs => exact sameItems_comm as bs
    | _ => rfl
  | .obj fs, b => by
    cases b with
    | obj gs => exact sameFields_comm fs gs
    | _ => rfl
  | .double d, b => by
    cases b with
    | double e => exact Double.sameValue_comm d e
    | _ => rfl
  | .null, b | .bool _, b | .int _, b | .str _, b => by
    cases b <;> first | rfl | exact BEq.comm

theorem sameItems_comm : ∀ as bs : List Json,
    equalItemsBy Double.sameValue as bs = equalItemsBy Double.sameValue bs as
  | [], bs => by cases bs <;> rfl
  | a :: as, bs => by
    cases bs with
    | nil => rfl
    | cons b bs => rw [equalItemsBy, equalItemsBy, same_comm a b, sameItems_comm as bs]

theorem sameFields_comm : ∀ fs gs : List (String × Json),
    equalFieldsBy Double.sameValue fs gs = equalFieldsBy Double.sameValue gs fs
  | [], gs => by cases gs <;> rfl
  | (n, a) :: fs, gs => by
    cases gs with
    | nil => rfl
    | cons g gs =>
      obtain ⟨k, b⟩ := g
      rw [equalFieldsBy, equalFieldsBy, same_comm a b, sameFields_comm fs gs, BEq.comm (a := n)]

end

mutual

theorem same_trans : ∀ a b c : Json, equalBy Double.sameValue a b = true →
    equalBy Double.sameValue b c = true → equalBy Double.sameValue a c = true
  | .arr as, b, c => by
    cases b <;> cases c <;> simp only [equalBy, Bool.false_eq_true, false_imp_iff, imp_self,
      implies_true]
    exact sameItems_trans as _ _
  | .obj fs, b, c => by
    cases b <;> cases c <;> simp only [equalBy, Bool.false_eq_true, false_imp_iff, imp_self,
      implies_true]
    exact sameFields_trans fs _ _
  | .double d, b, c => by
    cases b <;> cases c <;> simp only [equalBy, Bool.false_eq_true, false_imp_iff, imp_self,
      implies_true]
    exact Double.sameValue_trans
  | .null, b, c | .bool _, b, c | .int _, b, c | .str _, b, c => by
    cases b <;> cases c <;> simp +contextual [equalBy]

theorem sameItems_trans : ∀ as bs cs : List Json, equalItemsBy Double.sameValue as bs = true →
    equalItemsBy Double.sameValue bs cs = true → equalItemsBy Double.sameValue as cs = true
  | [], bs, cs => by cases bs <;> cases cs <;> simp [equalItemsBy]
  | a :: as, bs, cs => by
    cases bs <;> cases cs <;> simp only [equalItemsBy, Bool.and_eq_true, Bool.false_eq_true,
      false_imp_iff, imp_false, not_false_eq_true, implies_true]
    rintro ⟨hab, has⟩ ⟨hbc, hbs⟩
    exact ⟨same_trans a _ _ hab hbc, sameItems_trans as _ _ has hbs⟩

theorem sameFields_trans : ∀ fs gs hs : List (String × Json),
    equalFieldsBy Double.sameValue fs gs = true → equalFieldsBy Double.sameValue gs hs = true →
      equalFieldsBy Double.sameValue fs hs = true
  | [], gs, hs => by cases gs <;> cases hs <;> simp [equalFieldsBy]
  | (n, a) :: fs, gs, hs => by
    cases gs with
    | nil => cases hs <;> simp [equalFieldsBy]
    | cons g gs =>
      cases hs with
      | nil => simp [equalFieldsBy]
      | cons h hs =>
        simp only [equalFieldsBy, Bool.and_eq_true, beq_iff_eq]
        rintro ⟨⟨hn, hab⟩, hfs⟩ ⟨⟨hk, hbc⟩, hgs⟩
        exact ⟨⟨hn.trans hk, same_trans a _ _ hab hbc⟩, sameFields_trans fs _ _ hfs hgs⟩

end

end Json

namespace Renaming

variable {ps qs rs : List VarId} {ρ σ : VarId ≃. VarId}

theorem Pairs.refl (ps : List VarId) : Pairs ps ps (PEquiv.refl VarId) :=
  List.forall₂_same.mpr fun _ _ => rfl

theorem Pairs.symm (h : Pairs ps qs ρ) : Pairs qs ps ρ.symm :=
  List.Forall₂.flip (h.imp fun _ _ hpq => ρ.eq_some_iff.mpr hpq)

theorem Pairs.trans (h : Pairs ps qs ρ) (h' : Pairs qs rs σ) : Pairs ps rs (ρ.trans σ) := by
  induction h generalizing rs with
  | nil =>
    cases h'
    exact .nil
  | cons hpq _ ih =>
    cases h' with
    | cons hqr h' => exact .cons ((ρ.trans_eq_some σ _ _).mpr ⟨_, hpq, hqr⟩) (ih h')

end Renaming

namespace Term

mutual

/-- No wildcard occurs in the term. -/
def Concrete : Term → Prop
  | .datum _ | .var _ => True
  | .op _ args optargs => ConcreteArgs args ∧ ConcreteOptargs optargs
  | .func _ body => Concrete body
  | .anything => False

def ConcreteArgs : List Term → Prop
  | [] => True
  | t :: rest => Concrete t ∧ ConcreteArgs rest

def ConcreteOptargs : List (String × Term) → Prop
  | [] => True
  | (_, t) :: rest => Concrete t ∧ ConcreteOptargs rest

end

variable {ρ σ : VarId ≃. VarId} {l r t : Term} {as bs cs : List Term} {fs gs hs : Fields Term}

theorem concreteArgs_iff : ConcreteArgs as ↔ ∀ a ∈ as, Concrete a := by
  induction as with
  | nil => simp [ConcreteArgs]
  | cons a as ih => simp [ConcreteArgs, ih]

theorem concreteOptargs_iff : ConcreteOptargs fs ↔ ∀ f ∈ fs, Concrete f.2 := by
  induction fs with
  | nil => simp [ConcreteOptargs]
  | cons f fs ih => simp [ConcreteOptargs, ih]

theorem agrees_refl (ht : t.Canonical) : Agrees (PEquiv.refl VarId) t t := by
  induction t using Term.induction with
  | datum v => exact Json.same_self v
  | op k as fs has hfs =>
    obtain ⟨hcas, hf, hcfs⟩ := ht
    rw [canonicalArgs_iff] at hcas
    rw [canonicalOptargs_iff] at hcfs
    refine ⟨rfl, ?_, fun _ => Iff.rfl, ?_⟩
    · exact argsAgree_iff.mpr (List.forall₂_same.mpr fun a ha => has a ha (hcas a ha))
    · refine optargsAgree_iff.mpr fun n a hmem => ?_
      exact ⟨a, Fields.get?_of_mem hf hmem, hfs _ hmem (hcfs _ hmem)⟩
  | func ps s hs => exact ⟨.refl ps, hs ht⟩
  | var a => rfl
  | anything => simp

theorem agrees_symm (hr : r.Canonical) (h : Agrees ρ l r) : Agrees ρ.symm r l := by
  induction l using Term.induction generalizing r with
  | datum v =>
    cases r with
    | datum w => exact (Json.same_comm w v).trans h
    | anything => simp
    | _ => cases h
  | op k as fs has hfs =>
    cases r with
    | op l bs gs =>
      obtain ⟨hcbs, hg, hcgs⟩ := hr
      obtain ⟨hk, hargs, hnames, hopts⟩ := h
      rw [canonicalArgs_iff] at hcbs
      refine ⟨hk.symm, ?_, fun n => (hnames n).symm, ?_⟩
      · rw [argsAgree_iff] at hargs ⊢
        refine List.Forall₂.flip ?_
        refine List.forall₂_iff_get.mpr ⟨hargs.length_eq, fun i ha hb => ?_⟩
        exact has _ (List.get_mem as ⟨i, ha⟩) (hcbs _ (List.get_mem bs ⟨i, hb⟩)) (hargs.get ha hb)
      · refine optargsAgree_iff.mpr fun n b hmem => ?_
        have hname : n ∈ Fields.names gs := List.mem_map.mpr ⟨_, hmem, rfl⟩
        obtain ⟨a, ha⟩ :=
          Option.isSome_iff_exists.mp (Fields.get?_isSome_iff.mpr ((hnames n).mpr hname))
        have hamem := Fields.mem_of_get? ha
        obtain ⟨b', hb', hab⟩ := optargsAgree_iff.mp hopts n a hamem
        obtain rfl := Option.some.inj ((Fields.get?_of_mem hg hmem).symm.trans hb')
        exact ⟨a, ha, hfs _ hamem (hcgs.get? hb') hab⟩
    | anything => simp
    | _ => cases h
  | func ps s hs =>
    cases r with
    | func qs t => exact ⟨h.1.symm, hs hr h.2⟩
    | anything => simp
    | _ => cases h
  | var a =>
    cases r with
    | var b => exact ρ.eq_some_iff.mpr h
    | anything => simp
    | _ => cases h
  | anything => simp

theorem agrees_trans (ht : t.Concrete) (h : Agrees ρ l t) (h' : Agrees σ t r) :
    Agrees (ρ.trans σ) l r := by
  induction l using Term.induction generalizing t r with
  | datum v =>
    cases t with
    | datum w =>
      cases r with
      | datum x => exact Json.same_trans v w x h h'
      | anything => simp
      | _ => cases h'
    | anything => cases ht
    | _ => cases h
  | op k as fs has hfs =>
    cases t with
    | op l bs gs =>
      cases r with
      | op k' cs hs =>
        obtain ⟨hcbs, hcgs⟩ := ht
        obtain ⟨hk, hargs, hnames, hopts⟩ := h
        obtain ⟨hk', hargs', hnames', hopts'⟩ := h'
        rw [concreteArgs_iff] at hcbs
        rw [concreteOptargs_iff] at hcgs
        rw [argsAgree_iff] at hargs hargs'
        refine ⟨hk.trans hk', ?_, fun n => (hnames n).trans (hnames' n), ?_⟩
        · refine argsAgree_iff.mpr (List.forall₂_iff_get.mpr ⟨?_, fun i ha hc => ?_⟩)
          · exact hargs.length_eq.trans hargs'.length_eq
          · have hb : i < bs.length := hargs.length_eq ▸ ha
            exact has _ (List.get_mem as ⟨i, ha⟩) (hcbs _ (List.get_mem bs ⟨i, hb⟩))
              (hargs.get ha hb) (hargs'.get hb hc)
        · refine optargsAgree_iff.mpr fun n a hmem => ?_
          obtain ⟨b, hb, hab⟩ := optargsAgree_iff.mp hopts n a hmem
          have hbmem := Fields.mem_of_get? hb
          obtain ⟨c, hc, hbc⟩ := optargsAgree_iff.mp hopts' n b hbmem
          exact ⟨c, hc, hfs _ hmem (hcgs _ hbmem) hab hbc⟩
      | anything => simp
      | _ => cases h'
    | anything => cases ht
    | _ => cases h
  | func ps s hs =>
    cases t with
    | func qs t =>
      cases r with
      | func rs u => exact ⟨h.1.trans h'.1, hs (t := t) ht h.2 h'.2⟩
      | anything => simp
      | _ => cases h'
    | anything => cases ht
    | _ => cases h
  | var a =>
    cases t with
    | var b =>
      cases r with
      | var c => exact (ρ.trans_eq_some σ a c).mpr ⟨b, h, h'⟩
      | anything => simp
      | _ => cases h'
    | anything => cases ht
    | _ => cases h
  | anything => simp

/-- Two terms match if and only if they agree under some renaming. -/
theorem matchesTerm_iff (hl : l.Canonical) (hr : r.Canonical) :
    matchesTerm l r = true ↔ ∃ ρ, Agrees ρ l r := by
  have h := matchesWith_decides hl r _ _ hr Renaming.represents_empty
  rw [matchesTerm, h.verdict_iff]
  exact exists_congr fun ρ => and_iff_right bot_le

theorem matchesTerm_self (ht : t.Canonical) : matchesTerm t t = true :=
  (matchesTerm_iff ht ht).mpr ⟨_, agrees_refl ht⟩

theorem matchesTerm_comm (hl : l.Canonical) (hr : r.Canonical) :
    matchesTerm l r = matchesTerm r l := by
  rw [Bool.eq_iff_iff, matchesTerm_iff hl hr, matchesTerm_iff hr hl]
  constructor
  · rintro ⟨ρ, h⟩
    exact ⟨ρ.symm, agrees_symm hr h⟩
  · rintro ⟨ρ, h⟩
    exact ⟨ρ.symm, agrees_symm hl h⟩

theorem matchesTerm_trans (hl : l.Canonical) (ht : t.Canonical) (hr : r.Canonical)
    (hc : t.Concrete) (h : matchesTerm l t = true) (h' : matchesTerm t r = true) :
    matchesTerm l r = true := by
  obtain ⟨ρ, hρ⟩ := (matchesTerm_iff hl ht).mp h
  obtain ⟨σ, hσ⟩ := (matchesTerm_iff ht hr).mp h'
  exact (matchesTerm_iff hl hr).mpr ⟨_, agrees_trans hc hρ hσ⟩

end Term
end Reql
