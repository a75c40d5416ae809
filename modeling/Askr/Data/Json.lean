import Askr.Data.Bytes

/-!
# JSON values

The values that a JSON library reads and prints, and how their parts are looked up. The library is a
parameter: `Serde` has its reader and its printer, and nothing is assumed of them.
-/

/-- A JSON value. A number is kept as its text, an object as its members. -/
inductive Json where
  | null
  | bool (b : Bool)
  | num (text : Bytes)
  | str (s : Bytes)
  | arr (vs : List Json)
  | obj (ms : List (Bytes × Json))

namespace Json

def get (v : Json) (key : Bytes) : Option Json :=
  match v with
  | obj ms => (ms.find? (·.1 = key)).map (·.2)
  | _ => none

def asStr : Json → Option Bytes
  | str s => some s
  | _ => none

def asArray : Json → Option (List Json)
  | arr vs => some vs
  | _ => none

end Json

/-- A library for JSON: the reader of a text, and the printer of a value. -/
structure Serde where
  fromSlice : Bytes → Option Json
  toString : Json → Bytes
