import SableFront.CommandLine.Help
import SableFront.Report.Listing
import SableFront.Report.Document

/-!
# The command line: running a command

What the program prints and the code it exits with, given the arguments and the content of the file
that they name. Code 0 is for success, 1 for a file that cannot be read or has syntax errors, 2 for
a misuse of the command line.
-/

namespace SableFront.CommandLine

/-- A failure as the operating system reports it. -/
structure SystemError where
  text : String
  code : Nat
  deriving DecidableEq

/-- What is found under the name of a file. -/
inductive FileState
  /-- There is nothing to be had there. -/
  | inaccessible (e : SystemError)
  /-- There is something that cannot be read. -/
  | unreadable (e : SystemError)
  | content (bytes : ByteArray)

/-- Why a file has no source text. -/
inductive ReadFailure
  | inaccessible (e : SystemError)
  | unreadable (e : SystemError)
  | notText
  | tooLarge (size : Nat)
  deriving DecidableEq

/-- The most bytes that a source file may have. -/
def sizeLimit : Nat := 100 * 1024 * 1024

/-- The source text in a file. -/
def FileState.source : FileState → Except ReadFailure String
  | inaccessible e => .error (.inaccessible e)
  | unreadable e => .error (.unreadable e)
  | content bytes =>
    if sizeLimit < bytes.size then .error (.tooLarge bytes.size)
    else
      match String.fromUTF8? bytes with
      | some source => .ok source
      | none => .error .notText

/-- The text of a system error. -/
def SystemError.message (e : SystemError) : String :=
  e.text ++ " (os error " ++ toString e.code ++ ")"

/-- The message for a file that has no source text. -/
def ReadFailure.message (file : String) : ReadFailure → String
  | inaccessible e => "Cannot access file '" ++ file ++ "': " ++ e.message
  | unreadable e => "Error reading file '" ++ file ++ "': " ++ e.message
  | notText => "Error reading file '" ++ file ++ "': stream did not contain valid UTF-8"
  | tooLarge size =>
    "Source file '" ++ file ++ "' is too large (" ++ toString size ++ " bytes, max " ++
      toString sizeLimit ++ " bytes)"

/-- What goes to the error output. -/
inductive Complaint
  | file (name : String) (failure : ReadFailure)
  | program (name : String) (errors : List SyntaxError)
  | misuse (m : Misuse)

/-- The line that reports a syntax error of a file. -/
def errorLine (file : String) (e : SyntaxError) : String :=
  file ++ ":" ++ e.token.span.start.render ++ ": " ++ e.reportCode ++ ": " ++ e.message ++ ", " ++
    e.label

/-- The text of a complaint. -/
def Complaint.text : Complaint → String
  | file name failure => failure.message name ++ "\n"
  | program name errors => Report.ofLines (errors.map (errorLine name))
  | misuse .noCommand => programHelp
  | misuse m => "error: " ++ m.message ++ "\n\nFor more information, try '--help'.\n"

/-- What a run of the program comes to. -/
structure Outcome where
  exit : Nat
  output : String
  complaint : Option Complaint

namespace Outcome

/-- Success, with something to print. -/
def success (output : String) : Outcome := ⟨0, output, none⟩

/-- The outcome of reading a program: success if it has no errors. -/
def ofErrors (file output : String) (errors : List SyntaxError) : Outcome :=
  if errors.isEmpty then success output else ⟨1, output, some (.program file errors)⟩

end Outcome

namespace Command

/-- Run a command on the source text of its file. -/
def runOn (source : String) : Command → Outcome
  | lex _ trivia => .success (Report.tokens trivia (tokenize source))
  | parse reading =>
    let p := Program.parse source reading.config
    .ofErrors reading.file (Report.trees p.nodes) p.errors
  | check reading json =>
    let p := Program.parse source reading.config
    if json then
      ⟨if p.isOk then 0 else 1, (Report.diagnostics reading.file p.errors).text ++ "\n", none⟩
    else
      let output := if p.isOk then "✓ No syntax errors in " ++ reading.file ++ "\n" else ""
      .ofErrors reading.file output p.errors
  | highlight reading json shown =>
    let records := SableFront.highlight shown (Program.parse source reading.config).nodes
    .success <|
      if json then (Report.highlightRecords records).text ++ "\n" else Report.highlights records

/-- Run a command on the state of its file. -/
def run (command : Command) (state : FileState) : Outcome :=
  match state.source with
  | .ok source => command.runOn source
  | .error failure => ⟨1, "", some (.file command.file failure)⟩

end Command

/-- The outcome when no command is to be run. -/
def Stop.outcome : Stop → Outcome
  | help none => .success programHelp
  | help (some name) => .success (commandHelp name)
  | helpOnHelp => .success CommandLine.helpOnHelp
  | version => .success versionText
  | misuse m => ⟨2, "", some (.misuse m)⟩

end SableFront.CommandLine
