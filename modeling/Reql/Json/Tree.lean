import Reql.Json.Lexeme

/-! The nesting of JSON text, before numbers and strings are given a meaning. -/
namespace Reql.Json

/-- JSON text by its nesting. Fields stand as written, also repeated ones. -/
inductive Tree where
  | null
  | bool (value : Bool)
  | number (value : Numeral)
  | text (pieces : List Piece)
  | list (items : List Tree)
  | record (fields : List (List Piece × Tree))

/-- An array or object that waits for its next value, with the latest parts first. -/
inductive OpenTree where
  | list (items : List Tree)
  | record (fields : List (List Piece × Tree)) (label : List Piece)

/-- What may follow, inside which open arrays and objects. -/
inductive Assembly where
  | value (outer : List OpenTree)
  | firstItem (outer : List OpenTree)
  | firstName (outer : List OpenTree)
  | name (fields : List (List Piece × Tree)) (outer : List OpenTree)
  | colon (fields : List (List Piece × Tree)) (label : List Piece) (outer : List OpenTree)
  | afterItem (items : List Tree) (outer : List OpenTree)
  | afterField (fields : List (List Piece × Tree)) (outer : List OpenTree)
  | done (tree : Tree)

namespace Assembly

def place (t : Tree) : List OpenTree → Assembly
  | [] => .done t
  | .list items :: outer => .afterItem (t :: items) outer
  | .record fields label :: outer => .afterField ((label, t) :: fields) outer

def openValue? (outer : List OpenTree) : Lexeme → Option Assembly
  | .null => some (place .null outer)
  | .bool b => some (place (.bool b) outer)
  | .number n => some (place (.number n) outer)
  | .text pieces => some (place (.text pieces) outer)
  | .beginArray => some (.firstItem outer)
  | .beginObject => some (.firstName outer)
  | .endArray | .endObject | .comma | .colon => none

/-- One more lexeme; none if it is out of place. -/
def step? : Assembly → Lexeme → Option Assembly
  | .value outer, lexeme => openValue? outer lexeme
  | .firstItem outer, .endArray => some (place (.list []) outer)
  | .firstItem outer, lexeme => openValue? (.list [] :: outer) lexeme
  | .firstName outer, .endObject => some (place (.record []) outer)
  | .firstName outer, .text label => some (.colon [] label outer)
  | .name fields outer, .text label => some (.colon fields label outer)
  | .colon fields label outer, .colon => some (.value (.record fields label :: outer))
  | .afterItem items outer, .comma => some (.value (.list items :: outer))
  | .afterItem items outer, .endArray => some (place (.list items.reverse) outer)
  | .afterField fields outer, .comma => some (.name fields outer)
  | .afterField fields outer, .endObject => some (place (.record fields.reverse) outer)
  | _, _ => none

def feed? (a : Assembly) (ts : List Lexeme) : Option Assembly :=
  ts.foldlM step? a

theorem feed?_append (a : Assembly) (ts us : List Lexeme) :
    a.feed? (ts ++ us) = (a.feed? ts).bind fun b => b.feed? us := by
  simp [feed?, List.foldlM_append, Option.bind_eq_bind]

end Assembly

def Tree.ofLexemes (ts : List Lexeme) : Except Fault Tree :=
  match (Assembly.value []).feed? ts with
  | some (.done t) => .ok t
  | some _ => .error .unfinished
  | none => .error .misplaced

end Reql.Json
