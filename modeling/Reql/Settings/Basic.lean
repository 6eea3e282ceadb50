import Reql.Error
import Reql.Frame.Codec
import Reql.Settings.Text

/-! The settings of a connection, and the texts that spell them. -/
namespace Reql

/-- The settings of a connection. The timeout counts seconds, the largest frame payload bytes, and
the capacity the frames that may wait to be routed. -/
structure Settings where
  address : String
  database : Option String
  connectTimeout : UInt64
  maxFrameSize : UInt64
  handoffCapacity : UInt64
deriving DecidableEq, Repr

namespace Settings

def default : Settings :=
  { address := "localhost:28015"
    database := none
    connectTimeout := 20
    maxFrameSize := UInt64.ofNat FrameLimit.defaultBytes
    handoffCapacity := 64 }

instance : Inhabited Settings := ⟨default⟩

/-- What makes settings unusable. -/
inductive Fault where
  | noValue (segment : String)
  | emptyAddress
  | badConnectTimeout (value : String)
  | badMaxFrameSize (value : String)
  | badHandoffCapacity (value : String)
  | zeroMaxFrameSize
  | zeroHandoffCapacity
deriving DecidableEq, Repr

def Fault.message : Fault → String
  | .noValue segment => "invalid key-value: " ++ segment
  | .emptyAddress => "address must not be empty"
  | .badConnectTimeout value => "invalid connect timeout: " ++ value
  | .badMaxFrameSize value => "invalid max frame size: " ++ value
  | .badHandoffCapacity value => "invalid handoff capacity: " ++ value
  | .zeroMaxFrameSize => "max frame size must be positive"
  | .zeroHandoffCapacity => "handoff capacity must be positive"

def Fault.toError (f : Fault) : ClientError :=
  .config f.message

/-- The settings that a text can name. -/
inductive Key where
  | address
  | database
  | connectTimeout
  | maxFrameSize
  | handoffCapacity
deriving DecidableEq, Repr

/-- The setting with a name, in either case. Only ASCII letters have the letters of these names as
their lower case. -/
def Key.ofName? (name : List Char) : Option Key :=
  let name := String.ofList (name.map Char.toLower)
  if name = "address" ∨ name = "server" ∨ name = "host" then some .address
  else if name = "database" ∨ name = "db" then some .database
  else if name = "connect timeout" ∨ name = "connection timeout" ∨ name = "timeout" then
    some .connectTimeout
  else if name = "max frame size" then some .maxFrameSize
  else if name = "handoff capacity" then some .handoffCapacity
  else none

/-- Gives a setting the value that a text spells. An address without a port gets the usual one, and
an empty database means none. -/
def assign (s : Settings) (key : Key) (value : List Char) : Except Fault Settings :=
  let text := String.ofList value
  match key with
  | .address =>
    if value.isEmpty then .error .emptyAddress
    else .ok { s with address := if ':' ∈ value then text else text ++ ":28015" }
  | .database => .ok { s with database := if value.isEmpty then none else some text }
  | .connectTimeout =>
    match word? value with
    | some secs => .ok { s with connectTimeout := secs }
    | none => .error (.badConnectTimeout text)
  | .maxFrameSize =>
    match word? value with
    | some size => .ok { s with maxFrameSize := size }
    | none => .error (.badMaxFrameSize text)
  | .handoffCapacity =>
    match word? value with
    | some capacity => .ok { s with handoffCapacity := capacity }
    | none => .error (.badHandoffCapacity text)

/-- Applies one segment. A blank one and one that names no setting change nothing. -/
def applySegment (s : Settings) (segment : List Char) : Except Fault Settings :=
  let segment := trim segment
  if segment.isEmpty then .ok s
  else
    match cut? '=' segment with
    | none => .error (.noValue (String.ofList segment))
    | some (name, value) =>
      match Key.ofName? (trim name) with
      | some key => s.assign key (trim value)
      | none => .ok s

/-- Whether a connection can be opened with these settings. -/
def validate (s : Settings) : Except Fault Unit :=
  if s.address.isEmpty then .error .emptyAddress
  else if s.maxFrameSize = 0 then .error .zeroMaxFrameSize
  else if s.handoffCapacity = 0 then .error .zeroHandoffCapacity
  else .ok ()

/-- Applies segments in turn, up to the first fault. -/
def applySegments : Settings → List (List Char) → Except Fault Settings
  | s, [] => .ok s
  | s, segment :: rest =>
    match s.applySegment segment with
    | .ok s => applySegments s rest
    | .error f => .error f

/-- The settings that a text of `name=value` segments spells, with semicolons between them. -/
def parse (text : String) : Except Fault Settings :=
  match default.applySegments (splitAt ';' text.toList) with
  | .error f => .error f
  | .ok s =>
    match s.validate with
    | .ok () => .ok s
    | .error f => .error f

def frameLimit (s : Settings) : FrameLimit :=
  .ofNat s.maxFrameSize.toNat

/-- The number of frames that may wait to be routed, at least one. -/
def handoff (s : Settings) : Nat :=
  max s.handoffCapacity.toNat 1

end Settings
end Reql
