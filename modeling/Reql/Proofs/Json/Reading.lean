import Reql.Proofs.Json.Parts
import Reql.Proofs.Json.RoundTrip

/-! What documents that are read from a text can be. -/
namespace Reql

theorem bind_eq_ok_iff {ε α β : Type} {x : Except ε α} {f : α → Except ε β} {b : β} :
    (x >>= f) = .ok b ↔ ∃ a, x = .ok a ∧ f a = .ok b := by
  cases x with
  | error e => simp [bind, Except.bind]
  | ok a => simp [bind, Except.bind]

theorem Fields.mem_of_mem_ofList {α : Type} {pairs : List (String × α)} {p : String × α}
    (h : p ∈ Fields.ofList pairs) : p ∈ pairs := by
  suffices hfold : ∀ fs : Fields α,
      p ∈ pairs.foldl (fun fs q => Fields.insert q.1 q.2 fs) fs → p ∈ fs ∨ p ∈ pairs by
    exact (hfold [] h).resolve_left List.not_mem_nil
  clear h
  induction pairs with
  | nil => exact fun _ h => .inl h
  | cons q rest ih =>
    intro fs h
    rcases ih _ h with h | h
    · rcases Fields.mem_insert h with rfl | h
      · exact .inr List.mem_cons_self
      · exact .inl h
    · exact .inr (List.mem_cons_of_mem _ h)

namespace Json

theorem depthItems_le_iff {items : List Json} {n : Nat} :
    depthItems items ≤ n ↔ ∀ j ∈ items, j.depth ≤ n := by
  induction items with
  | nil => simp [depthItems]
  | cons j items ih => simp [depthItems, ih]

theorem depthFields_le_iff {fields : List (String × Json)} {n : Nat} :
    depthFields fields ≤ n ↔ ∀ f ∈ fields, f.2.depth ≤ n := by
  induction fields with
  | nil => simp [depthFields]
  | cons f fields ih =>
    obtain ⟨m, j⟩ := f
    simp [depthFields, ih]

theorem faithfulItems_iff {items : List Json} :
    FaithfulItems items ↔ ∀ j ∈ items, j.Faithful := by
  induction items with
  | nil => simp [FaithfulItems]
  | cons j items ih => simp [FaithfulItems, ih]

theorem faithfulFields_iff {fields : List (String × Json)} :
    FaithfulFields fields ↔ ∀ f ∈ fields, f.2.Faithful := by
  induction fields with
  | nil => simp [FaithfulFields]
  | cons f fields ih =>
    obtain ⟨m, j⟩ := f
    simp [FaithfulFields, ih]

def DoubleFree (j : Json) : Prop :=
  ∀ d, ¬Within (.double d) j

theorem DoubleFree.within {j k : Json} (h : DoubleFree k) (hw : Within j k) : DoubleFree j :=
  fun d hd => h d (hd.trans hw)

theorem doubleFree_arr_iff {items : List Json} :
    DoubleFree (.arr items) ↔ ∀ j ∈ items, j.DoubleFree := by
  constructor
  · exact fun h j hj => h.within (.item hj (.whole j))
  · intro h d hd
    rcases within_arr_iff.mp hd with hd | ⟨j, hj, hd⟩
    · cases hd
    · exact h j hj d hd

theorem doubleFree_obj_iff {fields : List (String × Json)} :
    DoubleFree (.obj fields) ↔ ∀ f ∈ fields, f.2.DoubleFree := by
  constructor
  · exact fun h f hf => h.within (.field hf (.whole f.2))
  · intro h d hd
    rcases within_obj_iff.mp hd with hd | ⟨f, hf, hd⟩
    · cases hd
    · exact h f hf d hd

theorem doubleFree_of_leaf {j : Json} (h : j.depth = 0) (hj : ∀ d, j ≠ .double d) :
    j.DoubleFree :=
  fun d hd => hj d (hd.eq_of_leaf h).symm

/-- A document without doubles is read back as it was written. -/
theorem Canonical.faithful {j : Json} (h : j.Canonical) (hfree : j.DoubleFree) : j.Faithful := by
  induction j using Json.induction with
  | leaf j hj =>
    cases j with
    | arr | obj => cases hj
    | double d => exact absurd (.whole _) (hfree d)
    | _ => trivial
  | arr items ih =>
    refine faithfulItems_iff.mpr fun j hj => ?_
    exact ih j hj (canonicalItems_iff.mp h j hj) (doubleFree_arr_iff.mp hfree j hj)
  | obj fields ih =>
    refine ⟨h.1, faithfulFields_iff.mpr fun f hf => ?_⟩
    exact ih f hf (canonicalFields_iff.mp h.2 f hf) (doubleFree_obj_iff.mp hfree f hf)

/-- Whether the lexeme is a number that is read as a double. -/
def Lexeme.isDouble : Lexeme → Bool
  | .number n =>
    match ofNumeral n with
    | .ok (.double _) => true
    | _ => false
  | _ => false

namespace Tree

def DoubleFree (t : Tree) : Prop :=
  ∀ l ∈ t.lexemes, l.isDouble = false

instance (t : Tree) : Decidable t.DoubleFree :=
  inferInstanceAs (Decidable (∀ l ∈ t.lexemes, _))

variable {l : Lexeme}

theorem mem_lexemesOfItems {t : Tree} {items : List Tree} (h : t ∈ items) (hl : l ∈ t.lexemes) :
    l ∈ lexemesOfItems items := by
  induction items with
  | nil => cases h
  | cons u items ih =>
    cases items with
    | nil =>
      obtain rfl := List.mem_singleton.mp h
      exact hl
    | cons v items =>
      rw [lexemesOfItems]
      · rcases List.mem_cons.mp h with rfl | h
        · exact List.mem_append_left _ (List.mem_append_left _ hl)
        · exact List.mem_append_right _ (ih h)
      · simp

theorem mem_lexemesOfFields {f : List Piece × Tree} {fields : List (List Piece × Tree)}
    (h : f ∈ fields) (hl : l ∈ f.2.lexemes) : l ∈ lexemesOfFields fields := by
  induction fields with
  | nil => cases h
  | cons g fields ih =>
    obtain ⟨n, t⟩ := g
    cases fields with
    | nil =>
      obtain rfl := List.mem_singleton.mp h
      exact List.mem_append_right _ hl
    | cons g fields =>
      rw [lexemesOfFields]
      · rcases List.mem_cons.mp h with rfl | h
        · exact List.mem_append_left _ (List.mem_append_left _ (List.mem_append_right _ hl))
        · exact List.mem_append_right _ (ih h)
      · simp

theorem DoubleFree.item {t : Tree} {items : List Tree} (h : DoubleFree (.list items))
    (ht : t ∈ items) : t.DoubleFree := fun l hl => h l <| by
  rw [lexemes]
  exact List.mem_append_left _ (List.mem_append_right _ (mem_lexemesOfItems ht hl))

theorem DoubleFree.field {f : List Piece × Tree} {fields : List (List Piece × Tree)}
    (h : DoubleFree (.record fields)) (hf : f ∈ fields) : f.2.DoubleFree := fun l hl => h l <| by
  rw [lexemes]
  exact List.mem_append_left _ (List.mem_append_right _ (mem_lexemesOfFields hf hl))

end Tree

def DoubleFreeText (text : Bytes) : Prop :=
  ∀ t, readTree text = .ok t → t.DoubleFree

instance (text : Bytes) : Decidable (DoubleFreeText text) :=
  match h : readTree text with
  | .ok t => decidable_of_iff t.DoubleFree (by simp [DoubleFreeText, h])
  | .error _ => .isTrue (by simp [DoubleFreeText, h])

/-- The document is in order, has at most so many levels and only doubles that stand in the
text. -/
structure ReadFrom (t : Tree) (levels : Nat) (j : Json) : Prop where
  canonical : j.Canonical
  depth_le : j.depth ≤ levels
  doubleFree : t.DoubleFree → j.DoubleFree

theorem ReadFrom.of_part {t u : Tree} {levels : Nat} {j : Json} (h : ReadFrom u levels j)
    (hpart : t.DoubleFree → u.DoubleFree) : ReadFrom t levels j :=
  ⟨h.canonical, h.depth_le, fun hfree => h.doubleFree (hpart hfree)⟩

theorem ReadFrom.faithful {t : Tree} {levels : Nat} {j : Json} (h : ReadFrom t levels j)
    (hfree : t.DoubleFree) : j.Faithful :=
  h.canonical.faithful (h.doubleFree hfree)

/-- A number is read as an integer or as a double. -/
theorem ofNumeral_eq_ok {n : Numeral} {j : Json} (h : ofNumeral n = .ok j) :
    (∃ i, j = .int i) ∨ ∃ d, j = .double d := by
  rcases dite_eq_iff.mp h with ⟨_, h⟩ | ⟨_, h⟩
  · exact .inl ⟨_, (Except.ok.inj h).symm⟩
  · split at h
    · exact .inr ⟨_, (Except.ok.inj h).symm⟩
    · cases h

mutual

theorem readFrom_ofTree : ∀ (t : Tree) {levels : Nat} {j : Json}, ofTree levels t = .ok j →
    ReadFrom t levels j
  | .null, _, _, h | .bool _, _, _, h => by
    cases h
    exact ⟨trivial, Nat.zero_le _, fun _ => doubleFree_of_leaf rfl (by simp)⟩
  | .number n, _, _, h => by
    have hn : ofNumeral n = .ok _ := h
    rcases ofNumeral_eq_ok hn with ⟨i, rfl⟩ | ⟨d, rfl⟩
    · exact ⟨trivial, Nat.zero_le _, fun _ => doubleFree_of_leaf rfl (by simp)⟩
    · have hdouble : (Lexeme.number n).isDouble = true := by simp only [Lexeme.isDouble, hn]
      refine ⟨trivial, Nat.zero_le _, fun hfree => ?_⟩
      rw [hfree _ List.mem_cons_self] at hdouble
      cases hdouble
  | .text pieces, _, _, h => by
    obtain ⟨s, -, h⟩ := bind_eq_ok_iff.mp h
    cases h
    exact ⟨trivial, Nat.zero_le _, fun _ => doubleFree_of_leaf rfl (by simp)⟩
  | .list items, 0, _, h | .record fields, 0, _, h => by cases h
  | .list items, levels + 1, _, h => by
    obtain ⟨js, hjs, h⟩ := bind_eq_ok_iff.mp h
    cases h
    have hread := readFrom_ofTrees items hjs
    refine ⟨canonicalItems_iff.mpr fun j hj => ?_,
      Nat.succ_le_succ (depthItems_le_iff.mpr fun j hj => ?_),
      fun hfree => doubleFree_arr_iff.mpr fun j hj => ?_⟩
    · obtain ⟨t, -, hj⟩ := hread j hj
      exact hj.canonical
    · obtain ⟨t, -, hj⟩ := hread j hj
      exact hj.depth_le
    · obtain ⟨t, ht, hj⟩ := hread j hj
      exact hj.doubleFree (hfree.item ht)
  | .record fields, levels + 1, _, h => by
    obtain ⟨fs, hfs, h⟩ := bind_eq_ok_iff.mp h
    cases h
    -- A field of the object is one of the fields as written, of which some may be repeated.
    have hread (f : String × Json) (hf : f ∈ Fields.ofList fs) :=
      readFrom_ofFieldTrees fields hfs f (Fields.mem_of_mem_ofList hf)
    refine ⟨⟨Fields.sorted_ofList fs, canonicalFields_iff.mpr fun f hf => ?_⟩,
      Nat.succ_le_succ (depthFields_le_iff.mpr fun f hf => ?_),
      fun hfree => doubleFree_obj_iff.mpr fun f hf => ?_⟩
    · obtain ⟨g, -, hj⟩ := hread f hf
      exact hj.canonical
    · obtain ⟨g, -, hj⟩ := hread f hf
      exact hj.depth_le
    · obtain ⟨g, hg, hj⟩ := hread f hf
      exact hj.doubleFree (hfree.field hg)

theorem readFrom_ofTrees : ∀ (items : List Tree) {levels : Nat} {js : List Json},
    ofTrees levels items = .ok js → ∀ j ∈ js, ∃ t ∈ items, ReadFrom t levels j
  | [], _, _, h => by
    cases h
    simp
  | t :: rest, _, _, h => by
    obtain ⟨j, hj, h⟩ := bind_eq_ok_iff.mp h
    obtain ⟨js, hjs, h⟩ := bind_eq_ok_iff.mp h
    cases h
    refine List.forall_mem_cons.mpr ⟨⟨t, List.mem_cons_self, readFrom_ofTree t hj⟩, fun k hk => ?_⟩
    obtain ⟨u, hu, hread⟩ := readFrom_ofTrees rest hjs k hk
    exact ⟨u, List.mem_cons_of_mem _ hu, hread⟩

theorem readFrom_ofFieldTrees : ∀ (fields : List (List Piece × Tree)) {levels : Nat}
    {fs : List (String × Json)}, ofFieldTrees levels fields = .ok fs →
    ∀ f ∈ fs, ∃ g ∈ fields, ReadFrom g.2 levels f.2
  | [], _, _, h => by
    cases h
    simp
  | (n, t) :: rest, _, _, h => by
    obtain ⟨name, -, h⟩ := bind_eq_ok_iff.mp h
    obtain ⟨j, hj, h⟩ := bind_eq_ok_iff.mp h
    obtain ⟨fs, hfs, h⟩ := bind_eq_ok_iff.mp h
    cases h
    refine List.forall_mem_cons.mpr
      ⟨⟨(n, t), List.mem_cons_self, readFrom_ofTree t hj⟩, fun f hf => ?_⟩
    obtain ⟨g, hg, hread⟩ := readFrom_ofFieldTrees rest hfs f hf
    exact ⟨g, List.mem_cons_of_mem _ hg, hread⟩

end

end Json
end Reql
