import Reckoner.FloatText
import Reckoner.Text.Quoted

namespace Reckoner

/-- A value handed in where an expression or a setting is expected, of whatever kind it is. -/
inductive Value
  | null
  | bool (value : Bool)
  | int (value : Int)
  | float (value : Binary64)
  | text (value : String)
  | list (items : List Value)
  | record (fields : List (String × Value))

namespace Value

/-- Whether a value counts as true: nothing, zero and what is empty do not. -/
def isTruthy : Value → Bool
  | null => false
  | bool value => value
  | int value => value != 0
  | float value => !value.isZero
  | text value => !value.isEmpty
  | list items => !items.isEmpty
  | record fields => !fields.isEmpty

def kindName : Value → String
  | null => "NoneType"
  | bool _ => "bool"
  | int _ => "int"
  | float _ => "float"
  | text _ => "str"
  | list _ => "list"
  | record _ => "dict"

mutual

/-- A value as it stands inside another one. Text is quoted there. -/
def inner : Value → String
  | null => "None"
  | bool value => if value then "True" else "False"
  | int value => toString value
  | float value => value.text
  | text value => quoted value
  | list items => "[" ++ ", ".intercalate (innerItems items) ++ "]"
  | record fields => "\x7b" ++ ", ".intercalate (innerFields fields) ++ "\x7d"

def innerItems : List Value → List String
  | [] => []
  | item :: items => inner item :: innerItems items

def innerFields : List (String × Value) → List String
  | [] => []
  | (name, value) :: fields => (quoted name ++ ": " ++ inner value) :: innerFields fields

end

def shown : Value → String
  | text value => value
  | other => other.inner

end Value

end Reckoner
