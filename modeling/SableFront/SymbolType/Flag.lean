/-!
# Types: flags

The facts from which the type of a symbol is put together, each with the bit that stands for it.
Strings, dictionaries and sets have no bit of their own: a string is a list of characters, a
dictionary a list of structures and a set an array of structures.
-/

namespace SableFront

/-- One fact about a type. -/
inductive Flag
  | integer | signed | w8 | w16 | w32 | w64
  | char | list | struct | array | bool
  | function | reference | pointer
  /-- A template parameter that takes any number of arguments. -/
  | pack
  /-- The type is that of the initializer. -/
  | auto
  | none | float
  /-- Declared under a template header, so generic arguments may follow. -/
  | template
  /-- The binding denotes a type and not a value of it. -/
  | type
  deriving DecidableEq

namespace Flag

/-- The bit of a flag. -/
def bit : Flag → Nat
  | integer => 0 | signed => 1 | w8 => 2 | w16 => 3 | w32 => 4 | w64 => 5
  | char => 6 | list => 7 | struct => 8 | array => 9 | bool => 10
  | function => 11 | reference => 12 | pointer => 13 | pack => 14 | auto => 15
  | none => 16 | float => 17 | template => 18 | type => 31

/-- All flags, by bit. -/
def all : List Flag :=
  [integer, signed, w8, w16, w32, w64, char, list, struct, array, bool,
   function, reference, pointer, pack, auto, none, float, template, type]

/-- The name of a flag in the text of a type. -/
def name : Flag → String
  | integer => "integer" | signed => "signed" | w8 => "w8" | w16 => "w16" | w32 => "w32"
  | w64 => "w64" | char => "char" | list => "list" | struct => "struct" | array => "array"
  | bool => "bool" | function => "function" | reference => "reference" | pointer => "pointer"
  | pack => "pack" | auto => "auto" | none => "none" | float => "float"
  | template => "template" | type => "type"

theorem mem_all (f : Flag) : f ∈ all := by cases f <;> decide

theorem bit_lt (f : Flag) : f.bit < 32 := by cases f <;> decide

theorem bit_injective {f g : Flag} (h : f.bit = g.bit) : f = g := by
  cases f <;> cases g <;> first | rfl | exact absurd h (by decide)

end Flag

/-- The size of a number. -/
inductive Width
  | w8 | w16 | w32 | w64
  deriving DecidableEq

namespace Width

/-- The flag of a width. -/
def flag : Width → Flag
  | w8 => .w8 | w16 => .w16 | w32 => .w32 | w64 => .w64

/-- The width of so many bits. -/
def ofBits? (bits : Nat) : Option Width :=
  if bits = 8 then some w8
  else if bits = 16 then some w16
  else if bits = 32 then some w32
  else if bits = 64 then some w64
  else none

end Width

end SableFront
