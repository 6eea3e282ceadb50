import Reql.Proofs.Term.Equivalence

/-! Comparing terms in any order, and what every order comes to: the least renaming under which
they agree. -/
namespace Reql
namespace Term

/-- Something left to compare: two terms, or two variables. -/
inductive Goal where
  | terms (l r : Term)
  | vars (a b : VarId)

namespace Goal

/-- The two agree under a renaming. -/
def Holds (ρ : VarId ≃. VarId) : Goal → Prop
  | .terms l r => Agrees ρ l r
  | .vars a b => ρ a = some b

def Canonical : Goal → Prop
  | .terms l r => l.Canonical ∧ r.Canonical
  | .vars _ _ => True

end Goal

/-- Optional arguments with those of the same names, if all have one. -/
def optargGoals : Fields Term → Fields Term → Option (List Goal)
  | [], _ => some []
  | (n, a) :: fs, gs =>
    match Fields.get? n gs, optargGoals fs gs with
    | some b, some goals => some (.terms a b :: goals)
    | _, _ => none

/-- What comparing two terms comes down to; nothing if they differ whatever the renaming. -/
def goals? : Term → Term → Option (List Goal)
  | .anything, _ => some []
  | _, .anything => some []
  | .datum a, .datum b => if a.same b then some [] else none
  | .op k as fs, .op l bs gs =>
    if k = l ∧ as.length = bs.length ∧ fs.length = gs.length then
      (optargGoals fs gs).map (as.zipWith .terms bs ++ ·)
    else none
  | .func ps s, .func qs t =>
    if ps.length = qs.length then some (ps.zipWith .vars qs ++ [.terms s t]) else none
  | .var a, .var b => some [.vars a b]
  | _, _ => none

/-- Comparing one thing after another in any order, each time with the table left by the one
before. Two terms come down to their parts, two variables are bound, and the first failure ends
it. -/
inductive Visits : List Goal → Renaming → Bool × Renaming → Prop where
  | done {m : Renaming} : Visits [] m (true, m)
  | differ {goals : List Goal} {l r : Term} {m : Renaming} (hg : .terms l r ∈ goals)
    (hp : goals? l r = none) : Visits goals m (false, m)
  | parts {goals rest parts : List Goal} {l r : Term} {m : Renaming} {out : Bool × Renaming}
    (hg : goals.Perm (.terms l r :: rest)) (hp : goals? l r = some parts)
    (h : Visits (parts ++ rest) m out) : Visits goals m out
  | clash {goals : List Goal} {a b : VarId} {m m' : Renaming} (hg : .vars a b ∈ goals)
    (hb : m.bind a b = (false, m')) : Visits goals m (false, m')
  | bound {goals rest : List Goal} {a b : VarId} {m m' : Renaming} {out : Bool × Renaming}
    (hg : goals.Perm (.vars a b :: rest)) (hb : m.bind a b = (true, m')) (h : Visits rest m' out) :
    Visits goals m out

variable {ρ μ : VarId ≃. VarId} {m : Renaming} {l r : Term} {as bs : List Term}
  {fs gs : Fields Term} {goals parts : List Goal} {out : Bool × Renaming}

theorem forall_zipWith_terms (hlen : as.length = bs.length) :
    (∀ g ∈ as.zipWith .terms bs, Goal.Holds ρ g) ↔ ArgsAgree ρ as bs := by
  induction as generalizing bs with
  | nil =>
    obtain rfl : bs = [] := List.length_eq_zero_iff.mp hlen.symm
    simp [ArgsAgree]
  | cons a as ih =>
    cases bs with
    | nil => cases hlen
    | cons b bs =>
      rw [List.zipWith_cons_cons, List.forall_mem_cons, ih (Nat.succ.inj hlen), ArgsAgree]
      rfl

theorem forall_zipWith_vars {ps qs : List VarId} (hlen : ps.length = qs.length) :
    (∀ g ∈ ps.zipWith .vars qs, Goal.Holds ρ g) ↔ Renaming.Pairs ps qs ρ := by
  induction ps generalizing qs with
  | nil =>
    obtain rfl : qs = [] := List.length_eq_zero_iff.mp hlen.symm
    simp [Renaming.Pairs]
  | cons p ps ih =>
    cases qs with
    | nil => cases hlen
    | cons q qs =>
      rw [List.zipWith_cons_cons, List.forall_mem_cons, ih (Nat.succ.inj hlen), Renaming.Pairs,
        Renaming.Pairs, List.forall₂_cons]
      rfl

theorem optargsAgree_iff_goals : OptargsAgree ρ fs gs ↔
    ∃ goals, optargGoals fs gs = some goals ∧ ∀ g ∈ goals, g.Holds ρ := by
  induction fs with
  | nil => simp [OptargsAgree, optargGoals]
  | cons f fs ih =>
    obtain ⟨n, a⟩ := f
    rw [OptargsAgree, ih, optargGoals]
    cases hb : Fields.get? n gs with
    | none => simp
    | some b =>
      cases hgoals : optargGoals fs gs with
      | none => simp
      | some goals => simp [Goal.Holds]

theorem canonical_of_mem_zipWith (has : CanonicalArgs as) (hbs : CanonicalArgs bs) :
    ∀ g ∈ as.zipWith .terms bs, Goal.Canonical g := by
  induction as generalizing bs with
  | nil => simp
  | cons a as ih =>
    cases bs with
    | nil => simp
    | cons b bs =>
      rw [List.zipWith_cons_cons]
      exact List.forall_mem_cons.mpr ⟨⟨has.1, hbs.1⟩, ih has.2 hbs.2⟩

theorem canonical_of_mem_zipWith_vars (ps qs : List VarId) :
    ∀ g ∈ ps.zipWith .vars qs, Goal.Canonical g := by
  induction ps generalizing qs with
  | nil => simp
  | cons p ps ih =>
    cases qs with
    | nil => simp
    | cons q qs =>
      rw [List.zipWith_cons_cons]
      exact List.forall_mem_cons.mpr ⟨trivial, ih qs⟩

theorem canonical_of_optargGoals (hfs : CanonicalOptargs fs) (hgs : CanonicalOptargs gs)
    (h : optargGoals fs gs = some goals) : ∀ g ∈ goals, Goal.Canonical g := by
  induction fs generalizing goals with
  | nil =>
    obtain rfl := Option.some.inj h
    simp
  | cons f fs ih =>
    obtain ⟨n, a⟩ := f
    rw [optargGoals] at h
    cases hb : Fields.get? n gs with
    | none => simp [hb] at h
    | some b =>
      cases hrest : optargGoals fs gs with
      | none => simp [hb, hrest] at h
      | some rest =>
        simp only [hb, hrest] at h
        obtain rfl := Option.some.inj h
        exact List.forall_mem_cons.mpr ⟨⟨hfs.1, hgs.get? hb⟩, ih hfs.2 hrest⟩

theorem agrees_op_iff_goals {k k' : Kind} (hf : Fields.Sorted fs) (hg : Fields.Sorted gs) :
    Agrees ρ (.op k as fs) (.op k' bs gs) ↔
      ∃ parts, goals? (.op k as fs) (.op k' bs gs) = some parts ∧ ∀ g ∈ parts, g.Holds ρ := by
  constructor
  · rintro ⟨rfl, hargs, hnames, hopts⟩
    have hlen := (argsAgree_iff.mp hargs).length_eq
    have hfields := Fields.length_eq_of_names_iff hf hg hnames
    obtain ⟨goals, hgoals, hhold⟩ := optargsAgree_iff_goals.mp hopts
    refine ⟨as.zipWith .terms bs ++ goals, ?_, ?_⟩
    · rw [goals?, if_pos ⟨rfl, hlen, hfields⟩, hgoals]
      rfl
    · exact List.forall_mem_append.mpr ⟨(forall_zipWith_terms hlen).mpr hargs, hhold⟩
  · rintro ⟨parts, hparts, hhold⟩
    by_cases hhead : k = k' ∧ as.length = bs.length ∧ fs.length = gs.length
    · rw [goals?, if_pos hhead] at hparts
      obtain ⟨hk, hlen, hfields⟩ := hhead
      obtain ⟨goals, hgoals, rfl⟩ := Option.map_eq_some_iff.mp hparts
      obtain ⟨hargs, hrest⟩ := List.forall_mem_append.mp hhold
      have hopts : OptargsAgree ρ fs gs := optargsAgree_iff_goals.mpr ⟨goals, hgoals, hrest⟩
      exact ⟨hk, (forall_zipWith_terms hlen).mp hargs, names_iff_of_agree hf hfields hopts, hopts⟩
    · rw [goals?, if_neg hhead] at hparts
      cases hparts

/-- Two terms agree if and only if they come down to something and all of that agrees. -/
theorem agrees_iff_goals (hl : l.Canonical) (hr : r.Canonical) :
    Agrees ρ l r ↔ ∃ parts, goals? l r = some parts ∧ ∀ g ∈ parts, g.Holds ρ := by
  cases l with
  | op k as fs =>
    cases r with
    | op k' bs gs => exact agrees_op_iff_goals hl.2.1 hr.2.1
    | _ => simp [Agrees, goals?]
  | func ps s =>
    cases r with
    | func qs t =>
      rw [goals?]
      by_cases hlen : ps.length = qs.length
      · rw [if_pos hlen]
        simp only [Agrees, ← forall_zipWith_vars hlen, Option.some.injEq, exists_eq_left',
          List.forall_mem_append, List.forall_mem_singleton, Goal.Holds]
      · rw [if_neg hlen]
        refine iff_of_false (fun h => hlen h.1.length_eq) ?_
        rintro ⟨_, h, -⟩
        cases h
    | _ => simp [Agrees, goals?]
  | _ => cases r <;> simp [Agrees, goals?, Goal.Holds]

theorem goals?_anything_right (l : Term) : goals? l .anything = some [] := by
  cases l <;> rfl

theorem canonical_of_goals? (hl : l.Canonical) (hr : r.Canonical) (h : goals? l r = some parts) :
    ∀ g ∈ parts, g.Canonical := by
  by_cases hany : r = .anything
  · rw [hany, goals?_anything_right] at h
    obtain rfl := Option.some.inj h
    exact List.forall_mem_nil _
  cases l with
  | op k as fs =>
    cases r with
    | op k' bs gs =>
      obtain ⟨hcas, -, hcfs⟩ := hl
      obtain ⟨hcbs, -, hcgs⟩ := hr
      by_cases hhead : k = k' ∧ as.length = bs.length ∧ fs.length = gs.length
      · rw [goals?, if_pos hhead] at h
        obtain ⟨goals, hgoals, rfl⟩ := Option.map_eq_some_iff.mp h
        exact List.forall_mem_append.mpr
          ⟨canonical_of_mem_zipWith hcas hcbs, canonical_of_optargGoals hcfs hcgs hgoals⟩
      · rw [goals?, if_neg hhead] at h
        cases h
    | anything => exact absurd rfl hany
    | _ => cases h
  | func ps s =>
    cases r with
    | func qs t =>
      by_cases hlen : ps.length = qs.length
      · rw [goals?, if_pos hlen] at h
        obtain rfl := Option.some.inj h
        exact List.forall_mem_append.mpr
          ⟨canonical_of_mem_zipWith_vars ps qs, List.forall_mem_singleton.mpr ⟨hl, hr⟩⟩
      · rw [goals?, if_neg hlen] at h
        cases h
    | anything => exact absurd rfl hany
    | _ => cases h
  | datum v =>
    cases r with
    | datum w =>
      by_cases hsame : v.same w = true
      · rw [goals?, if_pos hsame] at h
        obtain rfl := Option.some.inj h
        exact List.forall_mem_nil _
      · rw [goals?, if_neg hsame] at h
        cases h
    | anything => exact absurd rfl hany
    | _ => cases h
  | var a =>
    cases r with
    | var b =>
      obtain rfl := Option.some.inj h
      exact List.forall_mem_singleton.mpr trivial
    | anything => exact absurd rfl hany
    | _ => cases h
  | anything =>
    cases r <;> obtain rfl := Option.some.inj h <;> exact List.forall_mem_nil _

/-- Whatever the order, what comes out decides whether there is a renaming for all of it. -/
theorem Visits.decides (h : Visits goals m out) (hc : ∀ g ∈ goals, g.Canonical)
    (hm : m.Represents μ) : Renaming.Decides μ (fun ρ => ∀ g ∈ goals, g.Holds ρ) out := by
  induction h generalizing μ with
  | done => exact .const hm fun ρ => by simp
  | @differ goals l r m hg hp =>
    obtain ⟨hl, hr⟩ := hc _ hg
    refine .const hm fun ρ => iff_of_false (fun h => ?_) Bool.false_ne_true
    obtain ⟨parts, hparts, -⟩ := (agrees_iff_goals hl hr).mp (h _ hg)
    rw [hp] at hparts
    cases hparts
  | @parts goals rest parts l r m out hg hp _ ih =>
    have hall : ∀ g ∈ (.terms l r :: rest), Goal.Canonical g := fun g hmem =>
      hc g (hg.mem_iff.mpr hmem)
    obtain ⟨⟨hl, hr⟩, hrest⟩ := List.forall_mem_cons.mp hall
    have hnext := ih (List.forall_mem_append.mpr ⟨canonical_of_goals? hl hr hp, hrest⟩) hm
    refine hnext.congr fun ρ => ?_
    have hterms : Agrees ρ l r ↔ ∀ g ∈ parts, g.Holds ρ := by
      rw [agrees_iff_goals hl hr, hp]
      simp
    have hperm : (∀ g ∈ goals, g.Holds ρ) ↔ ∀ g ∈ (.terms l r :: rest), Goal.Holds ρ g :=
      forall_congr' fun g => by rw [hg.mem_iff]
    rw [hperm, List.forall_mem_append, List.forall_mem_cons, ← hterms]
    rfl
  | @clash goals a b m m' hg hb =>
    have hbind := Renaming.bind_decides hm a b
    rw [hb] at hbind
    exact hbind.failed fun ρ h => h _ hg
  | @bound goals rest a b m m' out hg hb _ ih =>
    have hall : ∀ g ∈ (.vars a b :: rest), Goal.Canonical g := fun g hmem =>
      hc g (hg.mem_iff.mpr hmem)
    have hbind := Renaming.bind_decides hm a b
    rw [hb] at hbind
    have hstep : Renaming.Decides μ (fun ρ => ρ a = some b ∧ ∀ g ∈ rest, g.Holds ρ) out :=
      hbind.andThen (f := fun _ => out) fun ν hν => ih (List.forall_mem_cons.mp hall).2 hν
    refine hstep.congr fun ρ => ?_
    have hperm : (∀ g ∈ goals, g.Holds ρ) ↔ ∀ g ∈ (.vars a b :: rest), Goal.Holds ρ g :=
      forall_congr' fun g => by rw [hg.mem_iff]
    rw [hperm, List.forall_mem_cons]
    rfl

/-- What a comparison of the first goals comes to can be gone on with, or ends the visit. -/
def Follows (goals : List Goal) (m : Renaming) (out : Bool × Renaming) : Prop :=
  ∀ rest,
    (out.1 = true → ∀ out', Visits rest out.2 out' → Visits (goals ++ rest) m out') ∧
      (out.1 = false → ∃ m', Visits (goals ++ rest) m (false, m'))

theorem Follows.nil (m : Renaming) : Follows [] m (true, m) :=
  fun _ => ⟨fun _ _ h => h, fun h => nomatch h⟩

theorem Follows.append {goals' : List Goal} {f : Renaming → Bool × Renaming}
    (h : Follows goals m out) (h' : Follows goals' out.2 (f out.2)) :
    Follows (goals ++ goals') m (Renaming.andThen out f) := by
  intro rest
  obtain ⟨b, m'⟩ := out
  rw [List.append_assoc]
  obtain ⟨hgo, hstop⟩ := h (goals' ++ rest)
  obtain ⟨hgo', hstop'⟩ := h' rest
  cases b with
  | false => exact ⟨fun hb => (nomatch hb), fun _ => hstop rfl⟩
  | true =>
    refine ⟨fun hb out' hv => hgo rfl out' (hgo' hb out' hv), fun hb => ?_⟩
    obtain ⟨m'', hv⟩ := hstop' hb
    exact ⟨m'', hgo rfl _ hv⟩

theorem follows_vars (a b : VarId) (m : Renaming) : Follows [.vars a b] m (m.bind a b) := by
  intro rest
  cases hb : m.bind a b with
  | mk v m' =>
    cases v with
    | true => exact ⟨fun _ out' hv => .bound (List.Perm.refl _) hb hv, fun h => nomatch h⟩
    | false => exact ⟨fun h => (nomatch h), fun _ => ⟨m', .clash List.mem_cons_self hb⟩⟩

theorem follows_bindAll (m : Renaming) {ps qs : List VarId} (hlen : ps.length = qs.length) :
    Follows (ps.zipWith .vars qs) m (m.bindAll ps qs) := by
  induction ps generalizing qs m with
  | nil =>
    obtain rfl : qs = [] := List.length_eq_zero_iff.mp hlen.symm
    exact .nil m
  | cons p ps ih =>
    cases qs with
    | nil => cases hlen
    | cons q qs =>
      exact (follows_vars p q m).append (f := fun m' => m'.bindAll ps qs)
        (ih _ (Nat.succ.inj hlen))

theorem Follows.terms (hp : goals? l r = some parts) (h : Follows parts m out) :
    Follows [.terms l r] m out := by
  intro rest
  obtain ⟨hgo, hstop⟩ := h rest
  refine ⟨fun hb out' hv => .parts (List.Perm.refl _) hp (hgo hb out' hv), fun hb => ?_⟩
  obtain ⟨m', hv⟩ := hstop hb
  exact ⟨m', .parts (List.Perm.refl _) hp hv⟩

/-- Comparing a term with a canonical one visits what the two come down to. -/
def Followed (l : Term) : Prop :=
  ∀ (r : Term) (m : Renaming) (μ : VarId ≃. VarId), r.Canonical → m.Represents μ →
    Follows [.terms l r] m (l.matchesWith r m)

/-- Where two terms differ whatever the renaming, their comparison fails. -/
theorem Follows.differ (hl : l.Canonical) (hr : r.Canonical) (hm : m.Represents μ)
    (hp : goals? l r = none) : Follows [.terms l r] m (l.matchesWith r m) := by
  have hfalse : (l.matchesWith r m).1 = false := by
    refine Bool.eq_false_iff.mpr fun hb => ?_
    obtain ⟨ρ, -, h⟩ := (matchesWith_decides hl r m μ hr hm).verdict_iff.mp hb
    obtain ⟨parts, hparts, -⟩ := (agrees_iff_goals hl hr).mp h
    rw [hp] at hparts
    cases hparts
  intro rest
  refine ⟨fun hb => ?_, fun _ => ⟨m, .differ List.mem_cons_self hp⟩⟩
  rw [hfalse] at hb
  cases hb

/-- It is enough to look at what two terms come down to; a wildcard hides everything. -/
theorem Followed.of_parts (hl : l.Canonical)
    (h : ∀ (r : Term) (m : Renaming) (μ : VarId ≃. VarId) (parts : List Goal), r.Canonical →
      m.Represents μ → r ≠ .anything → goals? l r = some parts →
        Follows parts m (l.matchesWith r m)) : Followed l := by
  intro r m μ hr hm
  cases hp : goals? l r with
  | none => exact .differ hl hr hm hp
  | some parts =>
    refine .terms hp ?_
    by_cases hany : r = .anything
    · subst hany
      rw [goals?_anything_right] at hp
      obtain rfl := Option.some.inj hp
      have hcode : l.matchesWith .anything m = (true, m) := by cases l <;> rfl
      rw [hcode]
      exact .nil m
    · exact h r m μ parts hr hm hany hp

theorem follows_args (has : ∀ a ∈ as, Followed a) (hcas : CanonicalArgs as)
    (hcbs : CanonicalArgs bs) (hlen : as.length = bs.length) (hm : m.Represents μ) :
    Follows (as.zipWith .terms bs) m (argsMatchWith as bs m) := by
  induction as generalizing bs m μ with
  | nil =>
    obtain rfl : bs = [] := List.length_eq_zero_iff.mp hlen.symm
    exact .nil m
  | cons a as ih =>
    cases bs with
    | nil => cases hlen
    | cons b bs =>
      obtain ⟨ha, has⟩ := List.forall_mem_cons.mp has
      obtain ⟨ν, hν, -⟩ := matchesWith_decides hcas.1 b m μ hcbs.1 hm
      exact (ha b m μ hcbs.1 hm).append (f := argsMatchWith as bs)
        (ih has hcas.2 hcbs.2 (Nat.succ.inj hlen) hν)

theorem follows_optargs (hfs : ∀ f ∈ fs, Followed f.2) (hcfs : CanonicalOptargs fs)
    (hcgs : CanonicalOptargs gs) (hgoals : optargGoals fs gs = some goals)
    (hm : m.Represents μ) : Follows goals m (optargsMatchWith fs gs m) := by
  induction fs generalizing goals m μ with
  | nil =>
    obtain rfl := Option.some.inj hgoals
    exact .nil m
  | cons f fs ih =>
    obtain ⟨n, a⟩ := f
    obtain ⟨ha, hfs⟩ := List.forall_mem_cons.mp hfs
    rw [optargGoals] at hgoals
    cases hb : Fields.get? n gs with
    | none => simp [hb] at hgoals
    | some b =>
      cases hrest : optargGoals fs gs with
      | none => simp [hb, hrest] at hgoals
      | some rest =>
        simp only [hb, hrest] at hgoals
        obtain rfl := Option.some.inj hgoals
        obtain ⟨ν, hν, -⟩ := matchesWith_decides hcfs.1 b m μ (hcgs.get? hb) hm
        unfold optargsMatchWith
        rw [hb]
        exact (ha b m μ (hcgs.get? hb) hm).append (f := optargsMatchWith fs gs)
          (ih hfs hcfs.2 hrest hν)

theorem followed_op (k : Kind) (has : ∀ a ∈ as, Followed a) (hfs : ∀ f ∈ fs, Followed f.2)
    (hl : (Term.op k as fs).Canonical) : Followed (.op k as fs) := by
  refine .of_parts hl fun r m μ parts hr hm hany hp => ?_
  obtain ⟨hcas, -, hcfs⟩ := hl
  cases r with
  | op k' bs gs =>
    obtain ⟨hcbs, -, hcgs⟩ := hr
    by_cases hhead : k = k' ∧ as.length = bs.length ∧ fs.length = gs.length
    · rw [goals?, if_pos hhead] at hp
      obtain ⟨hk, hlen, hfields⟩ := hhead
      obtain ⟨goals, hgoals, rfl⟩ := Option.map_eq_some_iff.mp hp
      have hdecided : ∀ a ∈ as, Decided a := fun a ha =>
        matchesWith_decides (canonicalArgs_iff.mp hcas a ha)
      obtain ⟨ν, hν, -⟩ := argsMatchWith_decides hdecided hcbs hlen hm
      have hcode : (Term.op k as fs).matchesWith (.op k' bs gs) m =
          Renaming.andThen (argsMatchWith as bs m) (optargsMatchWith fs gs) := by
        unfold matchesWith
        rw [if_pos ⟨hk, hlen⟩]
        simp only [if_pos hfields]
        rfl
      rw [hcode]
      exact (follows_args has hcas hcbs hlen hm).append (follows_optargs hfs hcfs hcgs hgoals hν)
    · rw [goals?, if_neg hhead] at hp
      cases hp
  | anything => exact absurd rfl hany
  | _ => cases hp

theorem followed_func (ps : List VarId) {s : Term} (hs : Followed s)
    (hl : (Term.func ps s).Canonical) : Followed (.func ps s) := by
  refine .of_parts hl fun r m μ parts hr hm hany hp => ?_
  cases r with
  | func qs t =>
    by_cases hlen : ps.length = qs.length
    · rw [goals?, if_pos hlen] at hp
      obtain rfl := Option.some.inj hp
      obtain ⟨ν, hν, -⟩ := Renaming.bindAll_decides hm hlen
      unfold matchesWith
      rw [if_pos hlen]
      exact (follows_bindAll m hlen).append (f := s.matchesWith t) (hs t _ ν hr hν)
    · rw [goals?, if_neg hlen] at hp
      cases hp
  | anything => exact absurd rfl hany
  | _ => cases hp

/-- The order of the comparison itself, from left to right, is one of the orders. -/
theorem matchesWith_follows (hl : l.Canonical) : Followed l := by
  induction l using Term.induction with
  | op k as fs has hfs =>
    have hcas := canonicalArgs_iff.mp hl.1
    have hcfs := canonicalOptargs_iff.mp hl.2.2
    exact followed_op k (fun a ha => has a ha (hcas a ha)) (fun f hf => hfs f hf (hcfs f hf)) hl
  | func ps s hs => exact followed_func ps (hs hl) hl
  | datum v =>
    refine .of_parts hl fun r m μ parts _ _ hany hp => ?_
    cases r with
    | datum w =>
      by_cases hsame : v.same w = true
      · rw [goals?, if_pos hsame] at hp
        obtain rfl := Option.some.inj hp
        unfold matchesWith
        rw [hsame]
        exact .nil m
      · rw [goals?, if_neg hsame] at hp
        cases hp
    | anything => exact absurd rfl hany
    | _ => cases hp
  | var a =>
    refine .of_parts hl fun r m μ parts _ _ hany hp => ?_
    cases r with
    | var b =>
      obtain rfl := Option.some.inj hp
      exact follows_vars a b m
    | anything => exact absurd rfl hany
    | _ => cases hp
  | anything =>
    refine .of_parts hl fun r m μ parts _ _ hany hp => ?_
    cases r with
    | anything => exact absurd rfl hany
    | _ =>
      obtain rfl := Option.some.inj hp
      exact .nil m

theorem exists_visit (hl : l.Canonical) (hr : r.Canonical) (hm : m.Represents μ) :
    ∃ out, Visits [.terms l r] m out := by
  obtain ⟨hgo, hstop⟩ := matchesWith_follows hl r m μ hr hm []
  cases hb : (l.matchesWith r m).1 with
  | true => exact ⟨_, hgo hb _ .done⟩
  | false =>
    obtain ⟨m', hv⟩ := hstop hb
    exact ⟨_, hv⟩

end Term
end Reql
