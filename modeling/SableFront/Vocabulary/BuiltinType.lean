/-!
# Vocabulary: builtin type names

The type names that every program knows before its own text is read, each with the shape of the
values it names. How a type is encoded is the matter of `SableFront.SymbolType`.
-/

namespace SableFront

/-- A type name known from the start. -/
inductive BuiltinType
  | bool
  | int8 | int16 | int32 | int64
  | uint8 | uint16 | uint32 | uint64
  | float32 | float64
  | char | string | list | array | dict | set
  | type | none | auto
  deriving DecidableEq

namespace BuiltinType

/-- What a builtin type name denotes. `anyType` is a binding that itself denotes some type, and
`inferred` leaves the type to the initializer. -/
inductive Shape
  | bool
  | integer (bits : Nat) (isSigned : Bool)
  | float (bits : Nat)
  | char | string | list | array | dict | set
  | anyType | none | inferred
  deriving DecidableEq

/-- The text of a builtin type name. -/
def spelling : BuiltinType → String
  | bool => "Bool"
  | int8 => "Int8" | int16 => "Int16" | int32 => "Int32" | int64 => "Int64"
  | uint8 => "UInt8" | uint16 => "UInt16" | uint32 => "UInt32" | uint64 => "UInt64"
  | float32 => "Float32" | float64 => "Float64"
  | char => "Char" | string => "String" | list => "List" | array => "Array" | dict => "Dict"
  | set => "Set" | type => "type" | none => "none" | auto => "auto"

/-- What a builtin type name denotes. -/
def shape : BuiltinType → Shape
  | bool => .bool
  | int8 => .integer 8 true | int16 => .integer 16 true
  | int32 => .integer 32 true | int64 => .integer 64 true
  | uint8 => .integer 8 false | uint16 => .integer 16 false
  | uint32 => .integer 32 false | uint64 => .integer 64 false
  | float32 => .float 32 | float64 => .float 64
  | char => .char | string => .string | list => .list | array => .array | dict => .dict
  | set => .set | type => .anyType | none => .none | auto => .inferred

/-- A sentence on the values of a builtin type. -/
def description : BuiltinType → String
  | bool => "Boolean value."
  | int8 => "Signed 8-bit integer." | int16 => "Signed 16-bit integer."
  | int32 => "Signed 32-bit integer." | int64 => "Signed 64-bit integer."
  | uint8 => "Unsigned 8-bit integer." | uint16 => "Unsigned 16-bit integer."
  | uint32 => "Unsigned 32-bit integer." | uint64 => "Unsigned 64-bit integer."
  | float32 => "Single precision float." | float64 => "Double precision float."
  | char => "Single character." | string => "List of characters."
  | list => "Growable sequence." | array => "Fixed-size sequence."
  | dict => "Key/value mapping." | set => "Unordered unique collection."
  | type => "Any type name." | none => "Absence of a value."
  | auto => "Inferred from the initializer."

/-- All builtin type names, in the order in which the vocabulary lists them. -/
def all : List BuiltinType :=
  [bool, int8, int16, int32, int64, uint8, uint16, uint32, uint64, float32, float64,
   char, string, list, array, dict, set, type, none, auto]

/-- The builtin type with a given name; case matters. -/
def ofSpelling? (name : String) : Option BuiltinType := all.find? fun t => t.spelling == name

theorem mem_all (t : BuiltinType) : t ∈ all := by cases t <;> decide

end BuiltinType

end SableFront
