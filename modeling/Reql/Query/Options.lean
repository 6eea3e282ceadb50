import Reql.Term.Matching
import Reql.Term.Wire

/-! The options of a whole query. -/
namespace Reql

/-- Options under distinct names, in ascending order. -/
structure QueryOptions where
  entries : Fields Term
  sorted : Fields.Sorted entries
deriving DecidableEq

namespace QueryOptions

def empty : QueryOptions := ⟨[], Fields.sorted_nil⟩

instance : Inhabited QueryOptions := ⟨empty⟩

/-- Sets an option, also one that is set already. -/
def set (o : QueryOptions) (name : String) (value : Term) : QueryOptions :=
  ⟨Fields.insert name value o.entries, Fields.sorted_insert name value o.sorted⟩

def setDb (o : QueryOptions) (name : String) : QueryOptions :=
  o.set "db" (.db name)

def setNoreply (o : QueryOptions) (noreply : Bool) : QueryOptions :=
  o.set "noreply" (.ofBool noreply)

def get? (o : QueryOptions) (name : String) : Option Term :=
  Fields.get? name o.entries

def contains (o : QueryOptions) (name : String) : Bool :=
  Fields.contains name o.entries

def size (o : QueryOptions) : Nat :=
  o.entries.length

def isEmpty (o : QueryOptions) : Bool :=
  o.entries.isEmpty

/-- Whether the server is asked not to reply: the option is the literal `true`. -/
def isNoreply (o : QueryOptions) : Bool :=
  o.get? "noreply" == some (.datum (.bool true))

/-- The options with a default database, if there is one and the query names none. -/
def withDefaultDb (o : QueryOptions) : Option String → QueryOptions
  | some db => if o.contains "db" then o else o.setDb db
  | none => o

def build (o : QueryOptions) : Json :=
  .obj (Term.buildOptargs o.entries)

/-- Compares options name by name under the renaming of a comparison of terms. -/
def matchesWith (o p : QueryOptions) (m : Renaming) : Bool × Renaming :=
  if o.size = p.size then Term.optargsMatchWith o.entries p.entries m else (false, m)

/-- Equality with the same variable numbers. -/
def same (o p : QueryOptions) : Bool :=
  Term.equalOptargsBy Json.same o.entries p.entries

end QueryOptions
end Reql
