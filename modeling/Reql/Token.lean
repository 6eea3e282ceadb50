/-! Tokens, which tie answers to queries. -/
namespace Reql

/-- The number that ties the answers of a server to a query. -/
abbrev Token := UInt64

def Token.text (t : Token) : String :=
  toString t.toNat

/-- The source of the tokens of one connection; it counts up and wraps at the end of the word. -/
structure TokenSource where
  next : Token
deriving DecidableEq, Repr

namespace TokenSource

/-- A fresh source starts at one. -/
def start : TokenSource := ⟨1⟩

def take (s : TokenSource) : Token × TokenSource :=
  (s.next, ⟨s.next + 1⟩)

end TokenSource
end Reql
