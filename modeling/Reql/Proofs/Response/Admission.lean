import Reql.Proofs.Json.Legibility
import Reql.Response.Payload

/-! Which payloads are answers, said of the parts that they give. -/
namespace Reql

open Json (Fault Piece Tree)

namespace ResponsePayload

structure Parts where
  code : Option Tree
  results : Option Tree
  backtrace : Option Tree
  profile : Option Tree
  notes : Option Tree

/-- The names of the parts, in the order in which an array gives them. -/
def partNames : List String := ["t", "r", "b", "p", "n"]

def Parts.ofFields (named : List (String × Tree)) : Parts where
  code := named.lookup "t"
  results := named.lookup "r"
  backtrace := named.lookup "b"
  profile := named.lookup "p"
  notes := named.lookup "n"

/-- No part is given twice. -/
def Once (named : List (String × Tree)) : Prop :=
  ∀ name ∈ partNames, (named.filter fun f => f.1 == name).length ≤ 1

/-- The tree gives these parts and no part twice: an object under their names, an array in order. -/
inductive Holds : Tree → Parts → Prop where
  | object {fields : List (List Piece × Tree)} {named : List (String × Tree)}
    (hnamed : nameFields fields = .ok named) (honce : Once named) :
    Holds (.record fields) (.ofFields named)
  | array {items : List Tree} (h : items.length ≤ partNames.length) :
    Holds (.list items) (.ofFields (partNames.zip items))

def Parts.payload (p : Parts) : Except Fault ResponsePayload :=
  ofParts p.code p.results p.backtrace p.profile p.notes

theorem lookup_eq_head? (name : String) (named : List (String × Tree)) :
    named.lookup name = (named.filter fun f => f.1 == name).head?.map (·.2) := by
  induction named with
  | nil => rfl
  | cons f named ih =>
    obtain ⟨n, t⟩ := f
    rw [List.lookup_cons, List.filter_cons]
    by_cases hn : n = name
    · simp [hn]
    · rw [beq_false_of_ne (Ne.symm hn), beq_false_of_ne hn]
      exact ih

/-- The only field of a name is the first one. -/
theorem only?_eq_lookup {name : String} {named : List (String × Tree)}
    (h : (named.filter fun f => f.1 == name).length ≤ 1) :
    only? name named = .ok (named.lookup name) := by
  rw [lookup_eq_head?, only?]
  generalize (named.filter fun f => f.1 == name) = found at h
  match found, h with
  | [], _ | [_], _ => rfl

/-- A payload is read from the parts that it gives. -/
theorem Holds.ofTree {t : Tree} {p : Parts} (h : Holds t p) : ofTree t = p.payload := by
  cases h with
  | @object fields named hnamed honce =>
    have honly (name : String) (hname : name ∈ partNames) :
        only? name named = .ok (named.lookup name) := only?_eq_lookup (honce name hname)
    simp only [ResponsePayload.ofTree, hnamed, bind, Except.bind, honly "t" (by decide),
      honly "r" (by decide), honly "b" (by decide), honly "p" (by decide), honly "n" (by decide)]
    rfl
  | @array items h =>
    have hfive : items.length ≤ 5 := h
    rw [ResponsePayload.ofTree, if_pos hfive]
    match items, hfive with
    | [], _ | [_], _ | [_, _], _ | [_, _, _], _ | [_, _, _, _], _ | [_, _, _, _, _], _ => rfl

/-- A note is an unsigned word. -/
def IsNote (t : Tree) : Prop :=
  ∃ n w, t = .number n ∧ n.IsWord w

/-- The parts make an answer of this type. Results are two levels deep in the payload, a backtrace
and a profile one. -/
structure Admissible (p : Parts) (type : ResponseType) : Prop where
  code : ∃ n, p.code = some (.number n) ∧ n.IsWord type.code
  results : ∀ t, p.results = some t →
    ∃ items, t = .list items ∧ ∀ item ∈ items, item.Readable (Json.maxLevels - 2)
  backtrace : ∀ t, p.backtrace = some t → t.Readable (Json.maxLevels - 1)
  profile : ∀ t, p.profile = some t → t.Readable (Json.maxLevels - 1)
  notes : ∀ t, p.notes = some t → ∃ items, t = .list items ∧ ∀ item ∈ items, IsNote item
  /-- Some answers have exactly one result. -/
  single : type = .successAtom ∨ type = .serverInfo → ∃ item, p.results = some (.list [item])

variable {t : Tree} {w : UInt64} {o : Option Tree}

theorem word_eq_ok_iff : word t = .ok w ↔ ∃ n, t = .number n ∧ n.IsWord w := by
  cases t with
  | number n =>
    simp only [Tree.number.injEq, exists_eq_left', ← Json.ofNumeral_word_iff, word, bind_eq_ok_iff]
    refine exists_congr fun j => and_congr_right fun _ => ?_
    cases j.toUInt64? <;> simp
  | _ => simp [word]

theorem exists_words_iff {items : List Tree} :
    (∃ ws, words items = .ok ws) ↔ ∀ item ∈ items, IsNote item := by
  induction items with
  | nil => simp [words]
  | cons t items ih =>
    rw [words, exists_both_ok_iff, ih, List.forall_mem_cons, IsNote]
    simp only [word_eq_ok_iff]
    rw [exists_comm]

theorem exists_notesOf_iff : (∃ ws, notesOf o = .ok ws) ↔
    ∀ t, o = some t → ∃ items, t = .list items ∧ ∀ item ∈ items, IsNote item := by
  cases o with
  | none => simp [notesOf]
  | some t => cases t <;> simp [notesOf, exists_words_iff]

theorem exists_resultsOf_iff : (∃ js, resultsOf o = .ok js) ↔
    ∀ t, o = some t →
      ∃ items, t = .list items ∧ ∀ item ∈ items, item.Readable (Json.maxLevels - 2) := by
  cases o with
  | none => simp [resultsOf]
  | some t =>
    cases t <;> simp [resultsOf, Json.Tree.exists_ofTrees_iff, Json.Tree.readableItems_iff]

theorem exists_optionalOf_iff : (∃ part, optionalOf o = .ok part) ↔
    ∀ t, o = some t → t.Readable (Json.maxLevels - 1) := by
  cases o with
  | none => simp [optionalOf]
  | some t =>
    cases t with
    | null => simp [optionalOf, Tree.Readable, Tree.depth, Tree.Legible]
    | _ =>
      simp [optionalOf, exists_bind_ok_iff, pure, Except.pure, Json.Tree.exists_ofTree_iff]

theorem length_ofTrees {levels : Nat} {items : List Tree} {js : List Json}
    (h : Json.ofTrees levels items = .ok js) : js.length = items.length := by
  induction items generalizing js with
  | nil =>
    cases h
    rfl
  | cons t items ih =>
    obtain ⟨j, -, h⟩ := bind_eq_ok_iff.mp h
    obtain ⟨rest, hrest, h⟩ := bind_eq_ok_iff.mp h
    cases h
    rw [List.length_cons, List.length_cons, ih hrest]

/-- There is one result if the list of results has one item. -/
theorem length_resultsOf {js : List Json} (h : resultsOf o = .ok js) :
    js.length = 1 ↔ ∃ item, o = some (.list [item]) := by
  cases o with
  | none =>
    cases h
    simp
  | some t =>
    cases t with
    | list items =>
      rw [length_ofTrees h, List.length_eq_one_iff]
      simp
    | _ => cases h

theorem payload_eq_ok_iff {p : Parts} {q : ResponsePayload} : p.payload = .ok q ↔
    (∃ t, p.code = some t ∧ word t = .ok q.code) ∧ resultsOf p.results = .ok q.results ∧
      optionalOf p.backtrace = .ok q.backtrace ∧ optionalOf p.profile = .ok q.profile ∧
      notesOf p.notes = .ok q.notes := by
  obtain ⟨code, results, backtrace, profile, notes⟩ := p
  cases code with
  | none => simp [Parts.payload, ofParts, bind, Except.bind]
  | some t =>
    simp only [Parts.payload, ofParts, bind_eq_ok_iff, pure, Except.pure, Except.ok.injEq,
      Option.some.injEq, exists_eq_left']
    constructor
    · rintro ⟨code, hcode, results, hr, backtrace, hb, profile, hp, notes, hn, rfl⟩
      exact ⟨hcode, hr, hb, hp, hn⟩
    · rintro ⟨hcode, hr, hb, hp, hn⟩
      exact ⟨_, hcode, _, hr, _, hb, _, hp, _, hn, rfl⟩

end ResponsePayload

theorem ResponseType.ofCode_eq_ok_iff {code : UInt64} {type : ResponseType} :
    ofCode code = .ok type ↔ code = type.code := by
  constructor
  · intro h
    unfold ofCode at h
    split_ifs at h with h₁ h₂ h₃ h₄ h₅ h₆ h₇ h₈ <;> cases h <;> assumption
  · rintro rfl
    exact ofCode_code type

namespace Response

open ResponsePayload

variable {token : Token}

theorem exists_single_iff {type : ResponseType} {js : List Json} :
    (∃ j, single type js = .ok j) ↔ js.length = 1 := by
  rcases js with _ | ⟨j, _ | ⟨_, _⟩⟩ <;> simp [single]

/-- A payload is an answer if its type is known and it has one result where it must. -/
theorem exists_ofPayload_iff {q : ResponsePayload} : (∃ r, ofPayload token q = .ok r) ↔
    ∃ type : ResponseType, q.code = type.code ∧
      (type = .successAtom ∨ type = .serverInfo → q.results.length = 1) := by
  rw [ofPayload, exists_bind_ok_iff]
  refine exists_congr fun type => ?_
  rw [ResponseType.ofCode_eq_ok_iff]
  refine and_congr_right fun _ => ?_
  rw [exists_bind_ok_iff]
  cases type <;>
    simp [bodyOf, exists_bind_ok_iff, exists_single_iff, pure, Except.pure]

/-- The parts that make an answer are the admissible ones. -/
theorem exists_answer_iff {p : Parts} :
    (∃ q, p.payload = .ok q ∧ ∃ r, ofPayload token q = .ok r) ↔ ∃ type, Admissible p type := by
  simp only [exists_ofPayload_iff, payload_eq_ok_iff]
  constructor
  · rintro ⟨q, ⟨⟨t, ht, hcode⟩, hr, hb, hp, hn⟩, type, htype, hsingle⟩
    obtain ⟨n, rfl, hword⟩ := word_eq_ok_iff.mp hcode
    exact ⟨type, {
      code := ⟨n, ht, htype ▸ hword⟩
      results := exists_resultsOf_iff.mp ⟨_, hr⟩
      backtrace := exists_optionalOf_iff.mp ⟨_, hb⟩
      profile := exists_optionalOf_iff.mp ⟨_, hp⟩
      notes := exists_notesOf_iff.mp ⟨_, hn⟩
      single := fun h => (length_resultsOf hr).mp (hsingle h) }⟩
  · rintro ⟨type, h⟩
    obtain ⟨n, hcode, hword⟩ := h.code
    obtain ⟨results, hr⟩ := exists_resultsOf_iff.mpr h.results
    obtain ⟨backtrace, hb⟩ := exists_optionalOf_iff.mpr h.backtrace
    obtain ⟨profile, hp⟩ := exists_optionalOf_iff.mpr h.profile
    obtain ⟨notes, hn⟩ := exists_notesOf_iff.mpr h.notes
    refine ⟨⟨type.code, results, backtrace, profile, notes⟩,
      ⟨⟨.number n, hcode, ?_⟩, hr, hb, hp, hn⟩,
      type, rfl, fun htype => (length_resultsOf hr).mpr (h.single htype)⟩
    exact word_eq_ok_iff.mpr ⟨n, rfl, hword⟩

end Response
end Reql
