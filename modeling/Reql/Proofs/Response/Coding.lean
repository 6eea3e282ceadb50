import Reql.Proofs.Json.Reading
import Reql.Response.Payload

/-! Answers that are read back from their payload as they were written. -/
namespace Reql

open Json (Fault Tree)

namespace ResponsePayload

/-- The text of the payload stands for no other one. A part that is `null` would be read as a
missing one. -/
structure Faithful (p : ResponsePayload) : Prop where
  results : Json.FaithfulItems p.results
  backtrace : ∀ j, p.backtrace = some j → j ≠ .null ∧ j.Faithful
  profile : ∀ j, p.profile = some j → j ≠ .null ∧ j.Faithful
  depth : p.document.depth ≤ Json.maxLevels

/-- The text of the payload stands for no other one, but that a part that is `null` is read as a
missing one. -/
structure Legible (p : ResponsePayload) : Prop where
  results : Json.FaithfulItems p.results
  backtrace : ∀ j, p.backtrace = some j → j.Faithful
  profile : ∀ j, p.profile = some j → j.Faithful
  depth : p.document.depth ≤ Json.maxLevels

def dropNulls (p : ResponsePayload) : ResponsePayload :=
  { p with
    backtrace := p.backtrace.filter (· ≠ .null)
    profile := p.profile.filter (· ≠ .null) }

theorem Faithful.legible {p : ResponsePayload} (h : p.Faithful) : p.Legible :=
  ⟨h.results, fun j hj => (h.backtrace j hj).2, fun j hj => (h.profile j hj).2, h.depth⟩

theorem Faithful.dropNulls_eq {p : ResponsePayload} (h : p.Faithful) : p.dropNulls = p := by
  have hkeep (part : Option Json) (hpart : ∀ j, part = some j → j ≠ .null ∧ j.Faithful) :
      part.filter (· ≠ .null) = part := by
    cases part with
    | none => rfl
    | some j => rw [Option.filter_some, if_pos (by simpa using (hpart j rfl).1)]
  simp only [dropNulls, hkeep p.backtrace h.backtrace, hkeep p.profile h.profile]

theorem word_tree (w : UInt64) : word (Json.ofUInt64 w).tree = .ok w := by
  have hword : (Json.ofUInt64 w).toUInt64? = some w := by
    simp [Json.ofUInt64, Json.toUInt64?]
  generalize hj : Json.ofUInt64 w = j at hword
  cases j with
  | int n =>
    simp only [Json.tree, word, Json.ofNumeral_ofInt, bind, Except.bind, hword]
  | _ => cases hj

theorem words_trees (ws : List UInt64) :
    words (Json.treeItems (ws.map Json.ofUInt64)) = .ok ws := by
  induction ws with
  | nil => rfl
  | cons w ws ih =>
    rw [List.map_cons, Json.treeItems, words, word_tree, ih]
    rfl

theorem optionalOf_of_ne_null {t : Tree} (h : t ≠ .null) :
    optionalOf (some t) = do return some (← Json.ofTree (Json.maxLevels - 1) t) := by
  cases t with
  | null => exact absurd rfl h
  | _ => rfl

theorem optionalOf_tree {j : Json} (h : j.Faithful) (hdepth : j.depth ≤ Json.maxLevels - 1) :
    optionalOf (some j.tree) = .ok ((some j).filter (· ≠ .null)) := by
  by_cases hnull : j = .null
  · rw [hnull]
    rfl
  · have hne : j.tree ≠ .null := by
      cases j with
      | null => exact absurd rfl hnull
      | _ => simp [Json.tree]
    rw [optionalOf_of_ne_null hne, Json.ofTree_tree j (Json.maxLevels - 1) h hdepth,
      Option.filter_some, if_pos (by simpa using hnull)]
    rfl

theorem nameFields_treeFields (fields : List (String × Json)) :
    nameFields (Json.treeFields fields) = .ok (fields.map fun f => (f.1, f.2.tree)) := by
  induction fields with
  | nil => rfl
  | cons f rest ih =>
    obtain ⟨n, j⟩ := f
    rw [Json.treeFields, nameFields, Json.stringOfPieces_pieces, ih]
    rfl

def fields (p : ResponsePayload) : List (String × Json) :=
  [("t", .ofUInt64 p.code), ("r", .arr p.results)]
    ++ (p.backtrace.map fun b => ("b", b)).toList
    ++ (p.profile.map fun q => ("p", q)).toList
    ++ (if p.notes.isEmpty then [] else [("n", .arr (p.notes.map .ofUInt64))])

/-- The tree of the list of notes, which is left out if it is empty. -/
def notesTree? (p : ResponsePayload) : Option Tree :=
  if p.notes.isEmpty then none else some (.list (Json.treeItems (p.notes.map .ofUInt64)))

/-- Every part is found under its name. -/
theorem only?_fields (p : ResponsePayload) :
    let named := p.fields.map fun f => (f.1, f.2.tree)
    only? "t" named = .ok (some (Json.ofUInt64 p.code).tree) ∧
      only? "r" named = .ok (some (.list (Json.treeItems p.results))) ∧
      only? "b" named = .ok (p.backtrace.map Json.tree) ∧
      only? "p" named = .ok (p.profile.map Json.tree) ∧
      only? "n" named = .ok p.notesTree? := by
  obtain ⟨code, results, backtrace, profile, notes⟩ := p
  cases backtrace <;> cases profile <;> cases notes <;> exact ⟨rfl, rfl, rfl, rfl, rfl⟩

theorem depth_le_of_mem {p : ResponsePayload} (h : p.Legible) {f : String × Json}
    (hf : f ∈ p.fields) : f.2.depth ≤ Json.maxLevels - 1 := by
  have hdepth : Json.depthFields p.fields + 1 ≤ Json.maxLevels := h.depth
  exact Json.depthFields_le_iff.mp (Nat.le_sub_one_of_lt hdepth) f hf

theorem optionalOf_part {p : ResponsePayload} (h : p.Legible) (name : String) {part : Option Json}
    (hmem : ∀ j, part = some j → (name, j) ∈ p.fields)
    (hpart : ∀ j, part = some j → j.Faithful) :
    optionalOf (part.map Json.tree) = .ok (part.filter (· ≠ .null)) := by
  cases part with
  | none => rfl
  | some j => exact optionalOf_tree (hpart j rfl) (depth_le_of_mem h (hmem j rfl))

/-- A legible payload is read back from its text, but for parts that are `null`. -/
theorem read_encode_of_legible {p : ResponsePayload} (h : p.Legible) :
    read p.encode = .ok p.dropNulls := by
  obtain ⟨ht, hr, hb, hp, hn⟩ := p.only?_fields
  have hresults : resultsOf (some (.list (Json.treeItems p.results))) = .ok p.results := by
    have hdepth := depth_le_of_mem h (f := ("r", .arr p.results)) (by simp [fields])
    exact Json.ofTrees_treeItems p.results (Json.maxLevels - 2) h.results
      (Nat.le_sub_one_of_lt hdepth)
  have hbacktrace : optionalOf (p.backtrace.map Json.tree) = .ok p.dropNulls.backtrace :=
    optionalOf_part h "b" (fun j hj => by simp [fields, hj]) h.backtrace
  have hprofile : optionalOf (p.profile.map Json.tree) = .ok p.dropNulls.profile :=
    optionalOf_part h "p" (fun j hj => by simp [fields, hj]) h.profile
  have hnotes : notesOf p.notesTree? = .ok p.notes := by
    unfold notesTree?
    cases hempty : p.notes.isEmpty with
    | true => rw [List.isEmpty_iff.mp hempty]; rfl
    | false => exact words_trees p.notes
  have htree : ofTree p.document.tree = .ok p.dropNulls := by
    change (do
      let named ← nameFields (Json.treeFields p.fields)
      ofParts (← only? "t" named) (← only? "r" named) (← only? "b" named) (← only? "p" named)
        (← only? "n" named)) = _
    rw [nameFields_treeFields]
    simp only [bind, Except.bind, ht, hr, hb, hp, hn, ofParts, word_tree, hresults, hbacktrace,
      hprofile, hnotes, pure, Except.pure]
    rfl
  simp only [read, encode, Json.readTree_encode, htree]

/-- A faithful payload is read back from its text. -/
theorem read_encode {p : ResponsePayload} (h : p.Faithful) : read p.encode = .ok p := by
  rw [read_encode_of_legible h.legible, h.dropNulls_eq]

end ResponsePayload

namespace Response

/-- The text of the answer stands for no other one. -/
def Faithful (r : Response) : Prop :=
  r.toPayload.Faithful

theorem ofPayload_toPayload (r : Response) : ofPayload r.token r.toPayload = .ok r := by
  obtain ⟨token, body, profile, notes⟩ := r
  have htype : ResponseType.ofCode (toPayload ⟨token, body, profile, notes⟩).code = .ok body.type :=
    ResponseType.ofCode_code _
  unfold ofPayload
  rw [htype]
  cases body with
  | error kind text backtrace => cases kind <;> rfl
  | atom | sequence | batch | waitComplete | serverInfo => rfl

/-- A faithful answer is read back from its payload. -/
theorem decode_encode {r : Response} (h : r.Faithful) : decode r.token r.encode = .ok r := by
  simp only [decode, encode, ResponsePayload.read_encode h, ofPayload_toPayload]

end Response
end Reql
