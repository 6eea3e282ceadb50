import Reql.Proofs.Json.Nesting

/-! Documents that are read back from their text as they were written. -/
namespace Reql

namespace Fields

variable {α : Type}

theorem insert_concat {name : String} {value : α} {fs : Fields α} (h : ∀ p ∈ fs, p.1 < name) :
    insert name value fs = fs ++ [(name, value)] := by
  induction fs with
  | nil => rfl
  | cons f rest ih =>
    obtain ⟨n, v⟩ := f
    have hlt : n < name := h (n, v) List.mem_cons_self
    have hge : ¬name < n := fun hgt => String.lt_irrefl n (String.lt_trans hlt hgt)
    have hne : ¬name = n := fun heq => String.lt_irrefl n (heq ▸ hlt)
    rw [insert, if_neg hge, if_neg hne, ih fun p hp => h p (List.mem_cons_of_mem _ hp)]
    rfl

/-- Fields that are in order stay as they are. -/
theorem ofList_of_sorted {fs : Fields α} (h : Sorted fs) : ofList fs = fs := by
  suffices hfold : ∀ before after : Fields α, Sorted (before ++ after) →
      after.foldl (fun fs p => insert p.1 p.2 fs) before = before ++ after from hfold [] fs h
  intro before after
  induction after generalizing before with
  | nil => simp
  | cons p rest ih =>
    intro hsorted
    have hbefore : ∀ q ∈ before, q.1 < p.1 := fun q hq =>
      (List.pairwise_append.mp hsorted).2.2 q hq p List.mem_cons_self
    have hnext : Sorted ((before ++ [p]) ++ rest) := by
      rw [List.append_assoc]
      exact hsorted
    rw [List.foldl_cons, insert_concat hbefore, ih _ hnext, List.append_assoc]
    rfl

end Fields

namespace Json

mutual

/-- The text of the document stands for no other one: the fields of its objects are in order, and
its doubles are read back as themselves. -/
def Faithful : Json → Prop
  | .double d => ofNumeral d.numeral = .ok (.double d)
  | .arr items => FaithfulItems items
  | .obj fields => Fields.Sorted fields ∧ FaithfulFields fields
  | _ => True

def FaithfulItems : List Json → Prop
  | [] => True
  | j :: rest => Faithful j ∧ FaithfulItems rest

def FaithfulFields : List (String × Json) → Prop
  | [] => True
  | (_, j) :: rest => Faithful j ∧ FaithfulFields rest

end

mutual

theorem ofTree_tree : ∀ (j : Json) (levels : Nat), j.Faithful → j.depth ≤ levels →
    ofTree levels j.tree = .ok j
  | .null, _, _, _ | .bool _, _, _, _ => rfl
  | .int n, _, _, _ => ofNumeral_ofInt n
  | .double d, _, h, _ => h
  | .str s, _, _, _ => by
    rw [tree, ofTree, stringOfPieces_pieces]
    rfl
  | .arr items, 0, _, hdepth | .obj fields, 0, _, hdepth => absurd hdepth (Nat.not_succ_le_zero _)
  | .arr items, levels + 1, h, hdepth => by
    rw [tree, ofTree, ofTrees_treeItems items levels h (Nat.le_of_succ_le_succ hdepth)]
    rfl
  | .obj fields, levels + 1, h, hdepth => by
    rw [tree, ofTree, ofFieldTrees_treeFields fields levels h.2 (Nat.le_of_succ_le_succ hdepth)]
    change Except.ok (ofFields fields) = _
    rw [ofFields, Fields.ofList_of_sorted h.1]

theorem ofTrees_treeItems : ∀ (items : List Json) (levels : Nat), FaithfulItems items →
    depthItems items ≤ levels → ofTrees levels (treeItems items) = .ok items
  | [], _, _, _ => rfl
  | j :: rest, levels, h, hdepth => by
    have hj := ofTree_tree j levels h.1 (Nat.le_trans (Nat.le_max_left _ _) hdepth)
    have hrest := ofTrees_treeItems rest levels h.2 (Nat.le_trans (Nat.le_max_right _ _) hdepth)
    rw [treeItems, ofTrees, hj, hrest]
    rfl

theorem ofFieldTrees_treeFields : ∀ (fields : List (String × Json)) (levels : Nat),
    FaithfulFields fields → depthFields fields ≤ levels →
    ofFieldTrees levels (treeFields fields) = .ok fields
  | [], _, _, _ => rfl
  | (n, j) :: rest, levels, h, hdepth => by
    have hj := ofTree_tree j levels h.1 (Nat.le_trans (Nat.le_max_left _ _) hdepth)
    have hrest :=
      ofFieldTrees_treeFields rest levels h.2 (Nat.le_trans (Nat.le_max_right _ _) hdepth)
    rw [treeFields, ofFieldTrees, stringOfPieces_pieces, hj, hrest]
    rfl

end

/-- A faithful document within the greatest depth is read back from its text. -/
theorem read_encode_of_faithful {j : Json} (h : j.Faithful) (hdepth : j.depth ≤ maxLevels) :
    read j.encode = .ok j := by
  simp only [read, readTree_encode, ofTree_tree j maxLevels h hdepth]

end Json
end Reql
