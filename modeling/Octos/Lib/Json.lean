/-
# `Octos.Lib.Json` — JSON values

Values, and the lookups that do not insist on a type: a key of what is no object, or
the text of what is no string, is nothing.  A number is an integer, or has a fraction
or an exponent and then only its text is kept.  Reading and writing the text of a
value is left to the user of the library, as a pair of functions.
-/
import Mathlib

namespace Octos

inductive Json
  | null
  | bool (b : Bool)
  | int (n : Int)
  | float (token : String)
  | str (text : String)
  | arr (items : List Json)
  | obj (fields : List (String × Json))

namespace Json

def get (key : String) : Json → Option Json
  | .obj fields => (fields.find? (fun field => field.1 == key)).map Prod.snd
  | _ => none

def asStr : Json → Option String
  | .str text => some text
  | _ => none

def asArr : Json → Option (List Json)
  | .arr items => some items
  | _ => none

/-- The text under a key. -/
def getStr (key : String) (value : Json) : Option String :=
  (value.get key).bind asStr

end Json

/-- Reading and writing the text of a value. -/
structure JsonText where
  parse : String → Option Json
  print : Json → String

end Octos
