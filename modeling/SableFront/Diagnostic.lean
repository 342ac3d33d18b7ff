import SableFront.Token.Basic

/-!
# Diagnostics: syntax errors

A syntax error has a kind, the token where it was noticed, and sometimes a reason. All wording is
here: the kinds and reasons elsewhere are causes, not texts.
-/

namespace SableFront

/-- The kinds of syntax error. -/
inductive ErrorKind
  | unreachableState | parsingFailed | incorrectToken | operatorWithNoRhs | invalidTokenSequence
  | missingBlock | missingComma | missingValue | missingIndexOrSlice | missingRightBracket
  | missingRightParen | missingParams | missingType | missingReturnType | missingIdent
  | missingCond | invalidAssignment | symbolAlreadyDefined
  deriving DecidableEq

namespace ErrorKind

/-- All kinds, in the order in which the vocabulary lists them. -/
def all : List ErrorKind :=
  [unreachableState, parsingFailed, incorrectToken, operatorWithNoRhs, invalidTokenSequence,
   missingBlock, missingComma, missingValue, missingIndexOrSlice, missingRightBracket,
   missingRightParen, missingParams, missingType, missingReturnType, missingIdent,
   missingCond, invalidAssignment, symbolAlreadyDefined]

/-- The stable code of a kind. -/
def code : ErrorKind → String
  | unreachableState => "unreachable_state"
  | parsingFailed => "parsing_failed"
  | incorrectToken => "incorrect_token"
  | operatorWithNoRhs => "operator_with_no_rhs"
  | invalidTokenSequence => "invalid_token_sequence"
  | missingBlock => "missing_block"
  | missingComma => "missing_comma"
  | missingValue => "missing_value"
  | missingIndexOrSlice => "missing_index_or_slice"
  | missingRightBracket => "missing_right_bracket"
  | missingRightParen => "missing_right_paren"
  | missingParams => "missing_params"
  | missingType => "missing_type"
  | missingReturnType => "missing_return_type"
  | missingIdent => "missing_ident"
  | missingCond => "missing_cond"
  | invalidAssignment => "invalid_assignment"
  | symbolAlreadyDefined => "symbol_already_defined"

/-- The sentence for a kind. -/
def message : ErrorKind → String
  | unreachableState => "Unreachable parser state"
  | parsingFailed => "Parsing failed"
  | incorrectToken => "Incorrect token"
  | operatorWithNoRhs => "Operator has no right-hand side"
  | invalidTokenSequence => "Invalid token sequence"
  | missingBlock => "Missing block"
  | missingComma => "Missing comma"
  | missingValue => "Missing value"
  | missingIndexOrSlice => "Missing index or slice"
  | missingRightBracket => "Missing right bracket"
  | missingRightParen => "Missing right parenthesis"
  | missingParams => "Missing parameters"
  | missingType => "Missing type"
  | missingReturnType => "Missing return type"
  | missingIdent => "Missing identifier"
  | missingCond => "Missing condition"
  | invalidAssignment => "Invalid assignment"
  | symbolAlreadyDefined => "Symbol already defined"

end ErrorKind

/-- What is added to the sentence of a kind. -/
inductive Reason
  /-- The text that the error is about. -/
  | about (text : String)
  | notAType (text : String)
  | unclosedBrace
  | noInputConsumed
  | expectedOperator
  | expectedAngle
  | expectedImport
  /-- A template header stands before what cannot be a template. -/
  | notTemplatable
  deriving DecidableEq

/-- The text of a reason. -/
def Reason.text : Reason → String
  | about text => "(`" ++ text ++ "`)"
  | notAType text => "(`" ++ text ++ "` does not name a type)"
  | unclosedBrace => "(unclosed `\x7b`)"
  | noInputConsumed => "(no input consumed)"
  | expectedOperator => "(expected an operator)"
  | expectedAngle => "(expected `<`)"
  | expectedImport => "(expected `import`)"
  | notTemplatable => "(a template must introduce a class or function)"

/-- A syntax error at a token. -/
structure SyntaxError where
  kind : ErrorKind
  token : Token
  reason : Option Reason
  deriving DecidableEq

namespace SyntaxError

/-- The message of an error. -/
def message (e : SyntaxError) : String :=
  match e.reason with
  | some reason => e.kind.message ++ " " ++ reason.text
  | none => e.kind.message

/-- The line of an error, from one. -/
def line (e : SyntaxError) : Nat := e.token.span.start.line + 1

/-- The column of an error in UTF-16 units, from one. -/
def column (e : SyntaxError) : Nat := e.token.span.start.character + 1

/-- The full code of an error in reports. -/
def reportCode (e : SyntaxError) : String := "sable::syntax::" ++ e.kind.code

/-- The label that reports put at the token of an error. -/
def label (e : SyntaxError) : String := "found " ++ e.token.describe

end SyntaxError

end SableFront
