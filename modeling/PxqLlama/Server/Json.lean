import Mathlib.Data.Int.Notation

/-!
# `Server.Json`: JSON values

The values of `nlohmann::json` that the server reads: strings are of a type `S`, and a number that
is not an integer is the float of type `F` that it is read as. A request has texts as bytes and
floats of its own (`Server.LaunchSlot`), the file of a slot has names and integers only
(`Server.SlotFile`).
-/

namespace PxqLlama.Server

inductive Json (S F : Type)
  | null
  | bool (b : Bool)
  | int (n : Int)
  | float (x : F)
  | str (s : S)
  | arr (xs : List (Json S F))
  | obj (kvs : List (S × Json S F))

namespace Json

variable {S F : Type}

/-- `get<bool>`. -/
def asBool : Json S F → Option Bool
  | .bool b => some b
  | _ => none

/-- `get<std::string>`. -/
def asStr : Json S F → Option S
  | .str s => some s
  | _ => none

/-- The values that a loop over the JSON value sees. -/
def elements : Json S F → List (Json S F)
  | .null => []
  | .arr xs => xs
  | .obj kvs => kvs.map Prod.snd
  | v => [v]

/-- `json::empty`: no string is empty. -/
def isEmpty : Json S F → Bool
  | .null => true
  | .arr xs => xs.isEmpty
  | .obj kvs => kvs.isEmpty
  | _ => false

end Json

end PxqLlama.Server
