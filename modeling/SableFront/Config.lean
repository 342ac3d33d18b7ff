/-!
# Options

The options for reading a program and for highlighting it. The defaults leave nothing out.
-/

namespace SableFront

/-- Options for reading a program. -/
structure ParseConfig where
  /-- Comments belong to the statements next to them; otherwise each is a node of its own. -/
  attachComments : Bool
  /-- In a value, `<` after a type name may open generic arguments. -/
  speculateGenerics : Bool
  /-- The most errors that are kept; reading goes on to the end in any case. -/
  maxErrors : Option Nat
  deriving DecidableEq

/-- The options in force unless others are given. -/
def ParseConfig.standard : ParseConfig := ⟨true, true, none⟩

/-- The categories that highlighting shows. -/
structure HighlightConfig where
  comments : Bool
  operators : Bool
  /-- Keywords, those of storage and visibility among them. -/
  keywords : Bool
  deriving DecidableEq

/-- The options in force unless others are given. -/
def HighlightConfig.standard : HighlightConfig := ⟨true, true, true⟩

end SableFront
