import SableFront.Config
import SableFront.Token.Number

/-!
# The command line: arguments

A command line is the name of a command, its options and its file, in any order after the name.
Words after `--` are never options. An option or file is judged once the next argument has been
recognised: so a word that is no argument is reported before a bad value in front of it, and a bad
value before what follows.
-/

namespace SableFront.CommandLine

/-- What the commands that read a program have in common. -/
structure Reading where
  file : String
  config : ParseConfig
  deriving DecidableEq

/-- A command with its options. -/
inductive Command
  | lex (file : String) (trivia : Bool)
  | parse (reading : Reading)
  | check (reading : Reading) (json : Bool)
  | highlight (reading : Reading) (json : Bool) (shown : HighlightConfig)
  deriving DecidableEq

/-- The file that a command reads. -/
def Command.file : Command → String
  | lex file _ => file
  | parse reading | check reading _ | highlight reading .. => reading.file

/-- The names of the commands. -/
inductive CommandName
  | lex | parse | check | highlight
  deriving DecidableEq

/-- The options without a value. -/
inductive Flag
  | trivia | noComments | noGenerics | json | noOperators | noKeywords
  deriving DecidableEq

/-- What is wrong with a command line. -/
inductive Misuse
  | noCommand
  | unknownCommand (word : String)
  | unknownArgument (word : String)
  /-- A flag has a value. -/
  | unexpectedValue (word : String)
  /-- An option is given twice. -/
  | repeated (option : String)
  | emptyFile
  | missingFile
  /-- The limit of errors has no value. -/
  | missingLimit
  /-- The limit of errors is not a number. -/
  | badLimit (text : String)
  deriving DecidableEq

/-- Why no command is to be run. -/
inductive Stop
  /-- The help is asked for, perhaps that of one command. -/
  | help (about : Option CommandName)
  /-- The help of the help is asked for. -/
  | helpOnHelp
  | version
  | misuse (m : Misuse)
  deriving DecidableEq

namespace Flag

/-- The word for a flag, without its dashes. -/
def word : Flag → String
  | trivia => "trivia" | noComments => "no-comments" | noGenerics => "no-generics"
  | json => "json" | noOperators => "no-operators" | noKeywords => "no-keywords"

end Flag

namespace CommandName

/-- All names, in the order of the help. -/
def all : List CommandName := [lex, parse, check, highlight]

/-- The word for a command. -/
def word : CommandName → String
  | lex => "lex" | parse => "parse" | check => "check" | highlight => "highlight"

/-- The command with a word for its name. -/
def ofWord? (w : String) : Option CommandName := all.find? fun name => name.word == w

/-- The flags of a command, in the order of its help. -/
def flags : CommandName → List Flag
  | lex => [.trivia]
  | parse => [.noComments, .noGenerics]
  | check => [.noComments, .noGenerics, .json]
  | highlight => [.noComments, .noGenerics, .json, .noOperators, .noKeywords]

/-- The command has a limit of errors. -/
def hasLimit : CommandName → Bool
  | lex => false
  | parse | check | highlight => true

/-- The flag of a command with a word. -/
def flag? (name : CommandName) (w : String) : Option Flag :=
  name.flags.find? fun flag => flag.word == w

end CommandName

/-- The option that limits the errors, without its dashes. -/
def limitWord : String := "max-errors"

/-! ### Words -/

/-- The readings of a word as an argument. -/
inductive Argument
  /-- The word that ends the options. -/
  | endOfOptions
  /-- An option by its name, perhaps with a value after `=`. -/
  | long (name : String) (value : Option String)
  /-- Options of one letter, of which the first counts. -/
  | short (letter : Char)
  /-- A name or a value. A dash alone is one, too. -/
  | plain

/-- The argument that a word is. -/
def Argument.ofWord (w : String) : Argument :=
  match w.toList with
  | ['-', '-'] => .endOfOptions
  | '-' :: '-' :: cs =>
    .long (String.ofList (cs.takeWhile (· ≠ '=')))
      (if '=' ∈ cs then some (String.ofList ((cs.dropWhile (· ≠ '=')).drop 1)) else none)
  | '-' :: c :: _ => .short c
  | _ => .plain

/-- The number that a word denotes: decimal digits, perhaps after a plus sign, for a number that
fits 64 bits. -/
def number? (w : String) : Option Nat :=
  let digits :=
    match w.toList with
    | '+' :: ds => ds
    | ds => ds
  if digits ≠ [] ∧ digits.all (Number.isDigit 10) ∧ Number.valueOf 10 digits < Number.limit then
    some (Number.valueOf 10 digits)
  else none

/-! ### The arguments of a command -/

/-- An argument that is recognised and not judged yet. -/
inductive Pending
  | file (word : String)
  | limit (value : Option String)

/-- The arguments of a command that have been read. -/
structure Draft where
  flags : List Flag
  limit : Option Nat
  file : Option String
  pending : Option Pending

namespace Draft

/-- No arguments. -/
def empty : Draft := ⟨[], none, none, none⟩

/-- A file has been named. -/
def hasFile (d : Draft) : Bool :=
  d.file.isSome ||
    match d.pending with
    | some (.file _) => true
    | _ => false

/-- Judge the pending argument. -/
def settle (d : Draft) : Except Misuse Draft :=
  match d.pending with
  | none => .ok d
  | some (.file word) =>
    if word.isEmpty then .error .emptyFile
    else .ok { d with file := some word, pending := none }
  | some (.limit none) => .error .missingLimit
  | some (.limit (some text)) =>
    if d.limit.isSome then .error (.repeated limitWord)
    else
      match number? text with
      | some n => .ok { d with limit := some n, pending := none }
      | none => .error (.badLimit text)

/-- Take a word for the file. -/
def takeFile (d : Draft) (word : String) : Except Misuse Draft :=
  if d.hasFile then .error (.unknownArgument word)
  else do return { ← d.settle with pending := some (.file word) }

/-- Take a plain word: as the limit of errors if the option for it came just before, else as the
file. -/
def takePlain (d : Draft) (word : String) : Except Misuse Draft :=
  match d.pending with
  | some (.limit none) => .ok { d with pending := some (.limit (some word)) }
  | _ => d.takeFile word

/-- Take a flag. -/
def takeFlag (d : Draft) (flag : Flag) : Except Misuse Draft := do
  let d ← d.settle
  if flag ∈ d.flags then .error (.repeated flag.word) else .ok { d with flags := flag :: d.flags }

/-- Take the limit of errors, whose value may follow in the next word. -/
def takeLimit (d : Draft) (value : Option String) : Except Misuse Draft := do
  let d := { ← d.settle with pending := some (.limit value) }
  if value.isSome then d.settle else .ok d

/-- The options for reading a program. -/
def config (d : Draft) : ParseConfig :=
  ⟨.noComments ∉ d.flags, .noGenerics ∉ d.flags, d.limit⟩

/-- The categories to show. -/
def shown (d : Draft) : HighlightConfig :=
  ⟨.noComments ∉ d.flags, .noOperators ∉ d.flags, .noKeywords ∉ d.flags⟩

/-- The command with all its arguments. -/
def command (d : Draft) (name : CommandName) : Except Misuse Command := do
  let d ← d.settle
  match d.file with
  | none => .error .missingFile
  | some file =>
    return match name with
    | .lex => .lex file (.trivia ∈ d.flags)
    | .parse => .parse ⟨file, d.config⟩
    | .check => .check ⟨file, d.config⟩ (.json ∈ d.flags)
    | .highlight => .highlight ⟨file, d.config⟩ (.json ∈ d.flags) d.shown

end Draft

/-- A command line that is misused. -/
def refuse {α : Type} (m : Misuse) : Except Stop α := .error (.misuse m)

/-- The result of reading arguments, unless they are misused. -/
def orStop {α : Type} : Except Misuse α → Except Stop α
  | .ok a => .ok a
  | .error m => refuse m

/-- Take an option by its name. -/
def takeLong (name : CommandName) (d : Draft) (word option : String) (value : Option String) :
    Except Stop Draft :=
  if option = limitWord ∧ name.hasLimit then orStop (d.takeLimit value)
  else if option = "help" then
    if value.isSome then refuse (.unexpectedValue word)
    else do let _ ← orStop d.settle; .error (.help (some name))
  else
    match name.flag? option with
    | some flag =>
      if value.isSome then refuse (.unexpectedValue word) else orStop (d.takeFlag flag)
    | none => refuse (.unknownArgument word)

/-- Take the words after the name of a command. -/
def takeWords (name : CommandName) : Draft → List String → Except Stop Draft
  | d, [] => .ok d
  | d, word :: rest =>
    match Argument.ofWord word with
    | .endOfOptions => orStop (rest.foldlM Draft.takeFile d)
    | .long option value => do takeWords name (← takeLong name d word option value) rest
    | .short letter =>
      if letter = 'h' then do let _ ← orStop d.settle; .error (.help (some name))
      else refuse (.unknownArgument word)
    | .plain => do takeWords name (← orStop (d.takePlain word)) rest

/-! ### The whole command line -/

/-- The word that asks for help in place of a command. -/
def helpWord : String := "help"

/-- What a call for help is about. -/
def helpAbout : List String → Stop
  | [] => .help none
  | [word] =>
    if word = helpWord then .helpOnHelp
    else
      match CommandName.ofWord? word with
      | some name => .help (some name)
      | none => .misuse (.unknownCommand word)
  | word :: next :: _ =>
    if word = helpWord ∨ (CommandName.ofWord? word).isSome then .misuse (.unknownCommand next)
    else .misuse (.unknownCommand word)

/-- What is wrong with words after a `--` that stands in place of a command. -/
def commandAfterDashes : List String → Misuse
  | [] => .noCommand
  | word :: _ =>
    if word = helpWord ∨ (CommandName.ofWord? word).isSome then .unknownArgument word
    else .unknownCommand word

/-- The command that a command line asks for. -/
def read : List String → Except Stop Command
  | [] => refuse .noCommand
  | word :: rest =>
    if word = helpWord then .error (helpAbout rest)
    else
      match CommandName.ofWord? word with
      | some name => do
        let d ← takeWords name .empty rest
        orStop (d.command name)
      | none =>
        match Argument.ofWord word with
        | .endOfOptions => refuse (commandAfterDashes rest)
        | .long option value =>
          if option = "help" ∨ option = "version" then
            if value.isSome then refuse (.unexpectedValue word)
            else .error (if option = "help" then .help none else .version)
          else refuse (.unknownArgument word)
        | .short letter =>
          if letter = 'h' then .error (.help none)
          else if letter = 'V' then .error .version
          else refuse (.unknownArgument word)
        | .plain => refuse (.unknownCommand word)

end SableFront.CommandLine
