import Reql.Json.Basic

/-! The documents inside a document. -/
namespace Reql.Json

/-- A property that passes from the parts of a document to the document. -/
structure Inductive (P : Json → Prop) : Prop where
  leaf : ∀ j : Json, j.depth = 0 → P j
  arr : ∀ items, (∀ j ∈ items, P j) → P (.arr items)
  obj : ∀ fields, (∀ f ∈ fields, P f.2) → P (.obj fields)

namespace Inductive

variable {P : Json → Prop}

mutual

theorem all (h : Inductive P) : ∀ j, P j
  | .null | .bool _ | .int _ | .double _ | .str _ => h.leaf _ rfl
  | .arr items => h.arr items (allItems h items)
  | .obj fields => h.obj fields (allFields h fields)

theorem allItems (h : Inductive P) : ∀ items : List Json, ∀ j ∈ items, P j
  | [] => fun _ hj => nomatch hj
  | j :: items => List.forall_mem_cons.mpr ⟨all h j, allItems h items⟩

theorem allFields (h : Inductive P) : ∀ fields : List (String × Json), ∀ f ∈ fields, P f.2
  | [] => fun _ hf => nomatch hf
  | (_, j) :: fields => List.forall_mem_cons.mpr ⟨all h j, allFields h fields⟩

end

end Inductive

/-- Induction over documents: an array or an object has a property if all its parts have it. -/
@[elab_as_elim]
theorem induction {P : Json → Prop} (leaf : ∀ j : Json, j.depth = 0 → P j)
    (arr : ∀ items, (∀ j ∈ items, P j) → P (.arr items))
    (obj : ∀ fields, (∀ f ∈ fields, P f.2) → P (.obj fields)) (j : Json) : P j :=
  Inductive.all ⟨leaf, arr, obj⟩ j

/-- The first document is a part of the second one, at any depth, or the whole of it. -/
inductive Within : Json → Json → Prop where
  | whole (j : Json) : Within j j
  | item {j k : Json} {items : List Json} (hk : k ∈ items) (h : Within j k) :
    Within j (.arr items)
  | field {j : Json} {f : String × Json} {fields : List (String × Json)} (hf : f ∈ fields)
    (h : Within j f.2) : Within j (.obj fields)

variable {j k l : Json} {items : List Json} {fields : List (String × Json)}

theorem within_arr_iff : Within j (.arr items) ↔ j = .arr items ∨ ∃ k ∈ items, Within j k := by
  constructor
  · rintro (_ | ⟨hk, h⟩)
    · exact .inl rfl
    · exact .inr ⟨_, hk, h⟩
  · rintro (rfl | ⟨k, hk, h⟩)
    · exact .whole _
    · exact .item hk h

theorem within_obj_iff : Within j (.obj fields) ↔ j = .obj fields ∨ ∃ f ∈ fields, Within j f.2 := by
  constructor
  · rintro (_ | _ | ⟨hf, h⟩)
    · exact .inl rfl
    · exact .inr ⟨_, hf, h⟩
  · rintro (rfl | ⟨f, hf, h⟩)
    · exact .whole _
    · exact .field hf h

/-- A document without parts has only itself inside. -/
theorem Within.eq_of_leaf (h : Within j k) (hk : k.depth = 0) : j = k := by
  cases h with
  | whole => rfl
  | item | field => cases hk

theorem Within.trans (h : Within j k) (h' : Within k l) : Within j l := by
  induction h' with
  | whole => exact h
  | item hk _ ih => exact .item hk ih
  | field hf _ ih => exact .field hf ih

end Reql.Json
