/-!
# JSON values

The values of the data format. An integer literal is an exact integer; any other number is a
double, and so is the literal `-0`, whose sign an integer cannot hold.
-/

namespace Campaign

inductive Json where
  | null
  | bool (value : Bool)
  /-- A number written as an integer. -/
  | integer (value : Int)
  /-- Any other number. -/
  | real (value : Float)
  | string (value : String)
  | array (items : List Json)
  | object (members : List (String × Json))
  deriving Inhabited

/-- An object of named values, of which only the last stays where a name occurs twice. -/
def Json.ofMembers (members : List (String × Json)) : Json :=
  .object (members.foldr
    (fun member kept => if kept.any (·.1 == member.1) then kept else member :: kept) [])

/-- The value of a name in an object. -/
def Json.get? (name : String) : Json → Option Json
  | object members => members.lookup name
  | _ => none

end Campaign
