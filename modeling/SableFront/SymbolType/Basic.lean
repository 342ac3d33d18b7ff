import SableFront.SymbolType.Flag
import SableFront.Vocabulary.BuiltinType

/-!
# Types: sets of flags

The type of a symbol is a set of flags, kept in one word of 32 bits. The empty set is the unknown
type. A type name and the values it types differ in one flag only, `type`; `forValue` and `asType`
lead from one to the other.
-/

namespace SableFront

/-- A set of flags. -/
structure SymbolType where
  bits : BitVec 32
  deriving DecidableEq

namespace SymbolType

/-- The flag is in the set. -/
def has (t : SymbolType) (f : Flag) : Bool := t.bits.getLsbD f.bit

/-- The set of one flag. -/
def ofFlag (f : Flag) : SymbolType := ⟨BitVec.twoPow 32 f.bit⟩

/-- The empty set. -/
def unknown : SymbolType := ⟨0⟩

/-- The flags that are in both types. -/
def mask (s t : SymbolType) : SymbolType := ⟨s.bits &&& t.bits⟩

/-- The flags that are in either type. -/
def append (s t : SymbolType) : SymbolType := ⟨s.bits ||| t.bits⟩

/-- The flags of `s` that are not in `t`. -/
def without (s t : SymbolType) : SymbolType := ⟨s.bits &&& ~~~t.bits⟩

/-- The set of a list of flags. -/
def ofFlags (fs : List Flag) : SymbolType := fs.foldl (fun t f => t.append (ofFlag f)) unknown

theorem has_mask (s t : SymbolType) (f : Flag) : (s.mask t).has f = (s.has f && t.has f) := by
  simp [has, mask]

theorem has_append (s t : SymbolType) (f : Flag) :
    (s.append t).has f = (s.has f || t.has f) := by simp [has, append]

theorem has_without (s t : SymbolType) (f : Flag) :
    (s.without t).has f = (s.has f && !t.has f) := by
  have := f.bit_lt
  simp [has, without, this]

/-! ### Named types -/

def bool : SymbolType := ofFlag .bool
def char : SymbolType := ofFlag .char
def list : SymbolType := ofFlag .list
def array : SymbolType := ofFlag .array
def struct : SymbolType := ofFlag .struct
def function : SymbolType := ofFlag .function
def reference : SymbolType := ofFlag .reference
def pointer : SymbolType := ofFlag .pointer
def pack : SymbolType := ofFlag .pack
def auto : SymbolType := ofFlag .auto
def none : SymbolType := ofFlag .none
def template : SymbolType := ofFlag .template

/-- A string is a list of characters. -/
def string : SymbolType := char.append list

/-- A dictionary is a list of structures. -/
def dict : SymbolType := struct.append list

/-- A set is an array of structures. -/
def set : SymbolType := struct.append array

/-- Some type: the one flag that says that a binding denotes a type. -/
def anyType : SymbolType := ofFlag .type

/-- An integer type. -/
def int (w : Width) (signed : Bool) : SymbolType :=
  ((ofFlag .integer).append (ofFlag w.flag)).append (if signed then ofFlag .signed else unknown)

/-- A float type. -/
def float (w : Width) : SymbolType := (ofFlag .float).append (ofFlag w.flag)

/-! ### Tests -/

/-- Every flag of `t` is in `s`. -/
def contains (s t : SymbolType) : Bool := s.mask t == t

/-- Some flag is in both types. -/
def intersects (s t : SymbolType) : Bool := s.mask t != unknown

/-- Nothing is known about the type. -/
def isUnknown (t : SymbolType) : Bool := t == unknown

/-- The binding denotes a type. -/
def isType (t : SymbolType) : Bool := t.has .type

/-- Generic arguments may follow: the binding denotes a type or was declared under a template. -/
def isGenericCapable (t : SymbolType) : Bool := t.has .type || t.has .template

def isFunction (t : SymbolType) : Bool := t.has .function
def isInteger (t : SymbolType) : Bool := t.has .integer
def isFloat (t : SymbolType) : Bool := t.has .float
def isSigned (t : SymbolType) : Bool := t.has .signed

/-- An integer or a float. -/
def isNumeric (t : SymbolType) : Bool := t.isInteger || t.isFloat

/-- The greatest width in the set. -/
def width? (t : SymbolType) : Option Width :=
  [Width.w64, .w32, .w16, .w8].find? fun w => t.has w.flag

/-! ### From type names to values and back -/

/-- The type of a value that is declared with a type. Packs are opened, and a value of some type
is a type whose own type is to be inferred. -/
def forValue (t : SymbolType) : SymbolType :=
  let opened := t.without pack
  if opened = anyType then opened.append auto else opened.without anyType

/-- The type name of a type. -/
def asType (t : SymbolType) : SymbolType := t.append anyType

/-- The type of the values that a builtin type name stands for. -/
def ofShape : BuiltinType.Shape → SymbolType
  | .bool => bool
  | .integer bits signed =>
    match Width.ofBits? bits with
    | some w => int w signed
    | Option.none => unknown
  | .float bits =>
    match Width.ofBits? bits with
    | some w => float w
    | Option.none => unknown
  | .char => char
  | .string => string
  | .list => list
  | .array => array
  | .dict => dict
  | .set => set
  | .anyType => unknown
  | .none => none
  | .inferred => auto

/-- The type of a builtin type name. -/
def builtin (b : BuiltinType) : SymbolType := (ofShape b.shape).asType

end SymbolType

end SableFront
