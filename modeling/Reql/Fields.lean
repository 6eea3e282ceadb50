/-! Named values, kept in strictly ascending order of their names. -/
namespace Reql

/-- Values under distinct names, listed in ascending order of the names. -/
abbrev Fields (α : Type) := List (String × α)

namespace Fields

variable {α β : Type}

/-- The names are strictly ascending, so no name occurs twice. -/
def Sorted (fs : Fields α) : Prop :=
  fs.Pairwise fun a b => a.1 < b.1

/-- Stores a value in its place; a value already under that name is replaced. -/
def insert (name : String) (value : α) : Fields α → Fields α
  | [] => [(name, value)]
  | (n, v) :: rest =>
    if name < n then (name, value) :: (n, v) :: rest
    else if name = n then (name, value) :: rest
    else (n, v) :: insert name value rest

/-- The fields of a list of pairs; of several values under one name the last counts. -/
def ofList (pairs : List (String × α)) : Fields α :=
  pairs.foldl (fun fs p => insert p.1 p.2 fs) []

def get? (name : String) : Fields α → Option α
  | [] => none
  | (n, v) :: rest => if n = name then some v else get? name rest

def contains (name : String) (fs : Fields α) : Bool :=
  (get? name fs).isSome

@[simp] theorem sorted_nil : Sorted ([] : Fields α) := List.Pairwise.nil

theorem sorted_cons {n : String} {v : α} {rest : Fields α} :
    Sorted ((n, v) :: rest) ↔ (∀ p ∈ rest, n < p.1) ∧ Sorted rest := by
  simp [Sorted, List.pairwise_cons]

/-- Only the stored name and the earlier ones are in use afterwards. -/
theorem mem_insert {name : String} {value : α} {fs : Fields α} {p : String × α}
    (h : p ∈ insert name value fs) : p = (name, value) ∨ p ∈ fs := by
  induction fs with
  | nil => simpa [insert] using h
  | cons f rest ih =>
    obtain ⟨n, v⟩ := f
    unfold insert at h
    split at h
    · simpa using h
    · split at h
      · rcases List.mem_cons.mp h with h | h
        · exact Or.inl h
        · exact Or.inr (List.mem_cons_of_mem _ h)
      · rcases List.mem_cons.mp h with h | h
        · exact Or.inr (h ▸ List.mem_cons_self)
        · rcases ih h with h | h
          · exact Or.inl h
          · exact Or.inr (List.mem_cons_of_mem _ h)

theorem sorted_insert (name : String) (value : α) {fs : Fields α} (h : Sorted fs) :
    Sorted (insert name value fs) := by
  induction fs with
  | nil => simp [insert, Sorted]
  | cons f rest ih =>
    obtain ⟨n, v⟩ := f
    have ⟨hn, hr⟩ := sorted_cons.mp h
    unfold insert
    split
    next hlt =>
      refine sorted_cons.mpr ⟨fun p hp => ?_, h⟩
      rcases List.mem_cons.mp hp with rfl | hp
      · exact hlt
      · exact String.lt_trans hlt (hn p hp)
    next hnlt =>
      split
      next heq => exact sorted_cons.mpr ⟨fun p hp => heq ▸ hn p hp, hr⟩
      next hne =>
        refine sorted_cons.mpr ⟨fun p hp => ?_, ih hr⟩
        rcases mem_insert hp with rfl | hp
        · exact Classical.byContradiction fun hge =>
            hne (String.le_antisymm hge hnlt)
        · exact hn p hp

theorem sorted_ofList (pairs : List (String × α)) : Sorted (ofList pairs) := by
  suffices ∀ fs : Fields α, Sorted fs →
      Sorted (pairs.foldl (fun fs p => insert p.1 p.2 fs) fs) from this [] sorted_nil
  induction pairs with
  | nil => exact fun _ h => h
  | cons p rest ih => exact fun fs h => ih _ (sorted_insert p.1 p.2 h)

@[simp] theorem get?_insert_self (name : String) (value : α) (fs : Fields α) :
    get? name (insert name value fs) = some value := by
  induction fs with
  | nil => simp [insert, get?]
  | cons f rest ih =>
    unfold insert
    split
    · simp [get?]
    · split
      · simp [get?]
      next hne => simp [get?, Ne.symm hne, ih]

theorem get?_insert_of_ne {name other : String} (value : α) (fs : Fields α) (h : other ≠ name) :
    get? other (insert name value fs) = get? other fs := by
  induction fs with
  | nil => simp [insert, get?, Ne.symm h]
  | cons f rest ih =>
    unfold insert
    split
    · simp [get?, Ne.symm h]
    · split
      next heq => simp [get?, Ne.symm h, ← heq]
      · simp [get?, ih]

end Fields
end Reql
