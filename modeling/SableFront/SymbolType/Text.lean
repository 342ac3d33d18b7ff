import SableFront.SymbolType.Basic

/-!
# Types: the text of a type

A type is shown by the builtin name of its values if it has one, else by its flags. `type ` stands
before what denotes a type, a star and an ampersand after pointers and references. `auto` and `none`
are shown without the word `type`, as a program writes them.
-/

namespace SableFront.SymbolType

/-- The marks of pointers and references. -/
def suffix (t : SymbolType) : String :=
  (if t.has .pointer then "*" else "") ++ (if t.has .reference then "&" else "")

/-- The type of the values alone: without the marks for types, pointers and references. -/
def core (t : SymbolType) : SymbolType :=
  ((t.without anyType).without pointer).without reference

/-- The first builtin name whose values have the type. -/
def named? (t : SymbolType) : Option BuiltinType :=
  BuiltinType.all.find? fun b => b.shape != .anyType && (builtin b).without anyType == t

/-- The names of the flags in a type, by bit. -/
def flagNames (t : SymbolType) : List String := (Flag.all.filter t.has).map Flag.name

/-- The text of a type. -/
def text (t : SymbolType) : String :=
  if t = unknown then "unknown"
  else if t = anyType then "type"
  else
    let mark := if t.isType then "type " else ""
    match named? t.core with
    | some b =>
      if b.shape = .inferred ∨ b.shape = .none then b.spelling ++ t.suffix
      else mark ++ b.spelling ++ t.suffix
    | Option.none =>
      if t.core = unknown then "type" ++ t.suffix
      else mark ++ "|".intercalate t.core.flagNames ++ t.suffix

end SableFront.SymbolType
