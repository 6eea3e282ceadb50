import Mathlib.Data.List.Perm.Subperm
import Reql.Fields

/-! Fields whose values are changed, and what is left of a list of pairs once they are fields. -/
namespace Reql.Fields

variable {α β : Type}

/-- Values can be changed before or after they are stored. -/
theorem insert_map (f : α → β) (name : String) (value : α) (fs : Fields α) :
    insert name (f value) (fs.map fun p => (p.1, f p.2)) =
      (insert name value fs).map fun p => (p.1, f p.2) := by
  induction fs with
  | nil => rfl
  | cons p fs ih =>
    obtain ⟨n, v⟩ := p
    rw [List.map_cons, insert, insert]
    by_cases hlt : name < n
    · rw [if_pos hlt, if_pos hlt, List.map_cons, List.map_cons]
    · rw [if_neg hlt, if_neg hlt]
      by_cases heq : name = n
      · rw [if_pos heq, if_pos heq, List.map_cons]
      · rw [if_neg heq, if_neg heq, List.map_cons, ih]

theorem sorted_map (f : α → β) {fs : Fields α} (h : Sorted fs) :
    Sorted (fs.map fun p => (p.1, f p.2)) :=
  List.pairwise_map.mpr h

theorem get?_map (f : α → β) (name : String) (fs : Fields α) :
    get? name (fs.map fun p => (p.1, f p.2)) = (get? name fs).map f := by
  induction fs with
  | nil => rfl
  | cons p fs ih =>
    obtain ⟨n, v⟩ := p
    rw [List.map_cons, get?, get?]
    by_cases heq : n = name
    · rw [if_pos heq, if_pos heq]
      rfl
    · rw [if_neg heq, if_neg heq, ih]

theorem ofList_map (f : α → β) (pairs : List (String × α)) :
    ofList (pairs.map fun p => (p.1, f p.2)) = (ofList pairs).map fun p => (p.1, f p.2) := by
  suffices ∀ fs : Fields α,
      (pairs.map fun p => (p.1, f p.2)).foldl (fun fs p => insert p.1 p.2 fs)
        (fs.map fun p => (p.1, f p.2)) =
      (pairs.foldl (fun fs p => insert p.1 p.2 fs) fs).map fun p => (p.1, f p.2) from this []
  induction pairs with
  | nil => exact fun _ => rfl
  | cons p pairs ih =>
    intro fs
    rw [List.map_cons, List.foldl_cons, List.foldl_cons, ← ih, ← insert_map]

theorem insert_subperm (name : String) (value : α) (fs : Fields α) :
    (insert name value fs).Subperm ((name, value) :: fs) := by
  induction fs with
  | nil => exact List.Subperm.refl _
  | cons p fs ih =>
    obtain ⟨n, v⟩ := p
    unfold insert
    split
    · exact List.Subperm.refl _
    · split
      · exact ((List.sublist_cons_self _ _).cons_cons _).subperm
      · exact ((List.subperm_cons (n, v)).mpr ih).trans (List.Perm.swap _ _ _).subperm

theorem ofList_subperm (pairs : List (String × α)) : (ofList pairs).Subperm pairs := by
  suffices ∀ fs : Fields α,
      (pairs.foldl (fun fs p => insert p.1 p.2 fs) fs).Subperm (fs ++ pairs) from this []
  induction pairs with
  | nil => exact fun fs => by rw [List.append_nil]; exact List.Subperm.refl _
  | cons p pairs ih =>
    intro fs
    have hhead : (insert p.1 p.2 fs ++ pairs).Subperm (p :: fs ++ pairs) :=
      (insert_subperm p.1 p.2 fs).append (List.Subperm.refl pairs)
    exact (ih _).trans (hhead.trans List.perm_middle.symm.subperm)

end Reql.Fields
