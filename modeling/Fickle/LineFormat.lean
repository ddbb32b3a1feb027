import Fickle.Fault

/-! # The format of logged lines -/

namespace Fickle

inductive LineFormat where
  | compact
  | json
  deriving DecidableEq

namespace LineFormat

instance : Inhabited LineFormat := ⟨compact⟩

def name : LineFormat → String
  | compact => "compact"
  | json => "json"

/-- The format with that name, in small or capital letters, inside white space or not. -/
def ofName (s : String) : Except Fault LineFormat :=
  let word := Text.lowerAscii (Text.trim s)
  if word == "compact" || word == "text" then .ok compact
  else if word == "json" then .ok json
  else .error (.invalidSettings (.unknownLineFormat word))

end LineFormat

end Fickle
