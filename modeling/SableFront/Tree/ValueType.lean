import SableFront.Tree.Basic

/-!
# Trees: the type of a value

The type of the value that an expression denotes, as far as literals, operators and the symbols of
its names tell. This gives `auto` bindings their type. It checks nothing: what it cannot work out is
unknown.
-/

namespace SableFront

namespace SymbolType

/-- The wider of two widths, an absent one being the least. -/
def wider (v w : Option Width) : Option Width :=
  let rank (x : Option Width) : Nat :=
    match x with
    | Option.none => 0
    | some .w8 => 1
    | some .w16 => 2
    | some .w32 => 3
    | some .w64 => 4
  if rank v ≤ rank w then w else v

/-- The type of arithmetic on two types. Equal types stay as they are. Otherwise both must be
numbers: a float makes a float, the wider width wins, and a signed operand makes a signed
integer. -/
def promote (s t : SymbolType) : SymbolType :=
  if s = t then s
  else if !s.isNumeric || !t.isNumeric then unknown
  else
    let width := (wider s.width? t.width?).getD .w32
    if s.isFloat || t.isFloat then float width else int width (s.isSigned || t.isSigned)

end SymbolType

namespace Node

mutual

/-- The symbol that a name, or the last part of a dotted name, is bound to. -/
def boundSymbol? : Node → Option SymbolId
  | mk data children =>
    match data.form with
    | .ident i => i.symbol
    | .dotted => lastSymbol? children
    | _ => none

/-- The symbol of the last of several nodes. -/
def lastSymbol? : List Node → Option SymbolId
  | [] => none
  | [n] => boundSymbol? n
  | _ :: n :: ns => lastSymbol? (n :: ns)

end

/-- The type that a call of a symbol gives: a value of the type it denotes, or what it returns. -/
def callType (s : Symbol) : SymbolType :=
  if s.type.isType then s.type.forValue else s.returns.getD .unknown

/-- The type of the value that a node denotes. -/
def valueType (table : SymbolTable) : Node → SymbolType
  | mk data children =>
    match data.form, children with
    | .int _, _ => .int .w32 true
    | .float _ single, _ => .float (if single then .w32 else .w64)
    | .str _, _ => .string
    | .char _, _ => .char
    | .bool _, _ => .bool
    | .null, _ => .pointer
    | .list, _ => .list
    | .dict, _ => .dict
    | .ident _, _ | .dotted, _ =>
      (((mk data children).boundSymbol?.bind table.symbol?).map (·.type)).getD .unknown
    | .binary, [left, right] =>
      match data.token.kind.opClass? with
      | some .relational | some .logical => .bool
      | _ => SymbolType.promote (valueType table left) (valueType table right)
    | .between, _ => .bool
    | .invert, [operand] =>
      match data.token.kind with
      | .operator .bang | .operator .notWord => .bool
      | _ => valueType table operand
    | .stepBefore, [operand] | .stepAfter, [operand] => valueType table operand
    | .deref, [operand] => (valueType table operand).without .pointer
    | .call _, callee :: _ =>
      ((callee.boundSymbol?.bind table.symbol?).map callType).getD .unknown
    | .index, target :: _ => if valueType table target = .string then .char else .unknown
    | .slice .., target :: _ => valueType table target
    | .new _, type :: _ =>
      match type.referredType? with
      | some t => t.forValue.append .pointer
      | none => .pointer
    | .lambda _, _ => .function
    | .assignment, [_, value] => valueType table value
    | _, _ => .unknown

end Node

end SableFront
