import SableFront.CommandLine.Arguments

/-!
# The command line: help

The texts that say how to use the program: a summary, the usage, and tables of what can be given,
each entry with a sentence on it.
-/

namespace SableFront.CommandLine

/-- The name of the program. -/
def programName : String := "sable"

/-- The version of the program. -/
def version : String := "0.1.0-alpha.1"

/-- The text that tells the version. -/
def versionText : String := programName ++ " " ++ version ++ "\n"

/-- The sentence on a command. -/
def CommandName.about : CommandName → String
  | .lex => "Print the token stream"
  | .parse => "Print the parsed AST, one S-expression per top-level node"
  | .check => "Report syntax errors (exit code 1 when any are found)"
  | .highlight => "Print semantic highlight records"

/-- The sentence on a flag of a command. -/
def Flag.about (name : CommandName) : Flag → String
  | .trivia => "Include whitespace, newline and comment tokens"
  | .noComments => "Keep comments as standalone nodes (and omit them from highlighting)"
  | .noGenerics => "Never read `<` after a type name as a generic argument list"
  | .json => match name with
    | .check => "Print diagnostics as JSON"
    | _ => "Print records as JSON"
  | .noOperators => "Omit operator records"
  | .noKeywords => "Omit keyword and modifier records"

/-- A table under a heading: what can be given, and a sentence on each. -/
def table (heading : String) (entries : List (String × String)) : String :=
  let width := (entries.map fun e => e.1.length).foldl max 0
  let line (e : String × String) : String :=
    "  " ++ e.1 ++ String.ofList (List.replicate (width - e.1.length) ' ') ++ "  " ++ e.2 ++ "\n"
  "\n" ++ heading ++ ":\n" ++ String.join (entries.map line)

/-- A summary and the usage. -/
def opening (summary usage : String) : String :=
  summary ++ "\n\nUsage: " ++ programName ++ " " ++ usage ++ "\n"

/-- An option without a letter of its own, in a table. -/
def longOption (word : String) : String := "    --" ++ word

/-- The option that asks for help, in a table. -/
def helpOption : String × String := ("-h, --help", "Print help")

/-- The sentence on the help. -/
def helpAboutHelp : String := "Print this message or the help of the given subcommand(s)"

/-- The options of a command but the one for help. The limit of errors follows the flags
for reading. -/
def ownOptions (name : CommandName) : List (String × String) :=
  let flags := name.flags.map fun flag => (longOption flag.word, flag.about name)
  if name.hasLimit then
    flags.take 2 ++
      (longOption (limitWord ++ " <N>"), "Stop recording syntax errors after N") :: flags.drop 2
  else flags

/-- The help of a command. -/
def commandHelp (name : CommandName) : String :=
  opening name.about (name.word ++ " [OPTIONS] <FILE>") ++
    table "Arguments"
      [("<FILE>", if name = .lex then "Source file to tokenize" else "Source file")] ++
    table "Options" (ownOptions name ++ [helpOption])

/-- The help of the program. -/
def programHelp : String :=
  opening "Lex, parse, check and highlight Sable source files" "<COMMAND>" ++
    table "Commands"
      (CommandName.all.map (fun name => (name.word, name.about)) ++ [(helpWord, helpAboutHelp)]) ++
    table "Options" [helpOption, ("-V, --version", "Print version")]

/-- The help of the help. -/
def helpOnHelp : String :=
  opening helpAboutHelp (helpWord ++ " [COMMAND]...") ++
    table "Arguments" [("[COMMAND]...", "Print help for the subcommand(s)")]

/-- The sentence for a misuse. -/
def Misuse.message : Misuse → String
  | .noCommand => "a command is missing"
  | .unknownCommand word => "unrecognized subcommand '" ++ word ++ "'"
  | .unknownArgument word => "unexpected argument '" ++ word ++ "' found"
  | .unexpectedValue word => "unexpected value in '" ++ word ++ "' found; no more were expected"
  | .repeated option => "the argument '--" ++ option ++ "' cannot be used multiple times"
  | .emptyFile => "a value is required for '<FILE>' but none was supplied"
  | .missingFile => "the following required arguments were not provided: <FILE>"
  | .missingLimit => "a value is required for '--" ++ limitWord ++ " <N>' but none was supplied"
  | .badLimit text => "invalid value '" ++ text ++ "' for '--" ++ limitWord ++ " <N>'"

end SableFront.CommandLine
