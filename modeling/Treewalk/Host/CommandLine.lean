import Treewalk.Host.Options
import Treewalk.Host.Prompt
import Treewalk.Program.Render

/-!
# The command line

Runs or prints a script, or prompts for lines if no script is given.
-/

namespace Treewalk.CommandLine

def versionText : String := "capuchin 0.1.0\n"

def usageLines : List String :=
  ["Usage: capuchin [OPTIONS] [CONTENTS]", "", "Arguments:",
   "  [CONTENTS]  Source code, or a path when `--file` is given", "", "Options:",
   "  -f, --file       Treat the contents as a path to a script",
   "  -p, --pipe-mode  Print the final value of the script",
   "      --print-ast  Print the program instead of running it",
   "  -h, --help       Print help", "  -V, --version    Print version"]

def usageText : String := String.join (usageLines.map (· ++ "\n"))

def unreadable (path : String) : String :=
  "Failed to read the input file '" ++ path ++ "'. Perhaps this file does not exist?\n"

/-- What to write where no script runs. -/
def stopped : OptionStop → Response
  | .version => ⟨0, versionText, ""⟩
  | .help => ⟨0, usageText, ""⟩
  | .usage => ⟨2, "", usageText⟩

/-- Prints a script in its canonical form. -/
def printProgram (source : String) : Response :=
  let parsed := parse source
  if parsed.errors = [] then ⟨0, parsed.program.render ++ "\n", ""⟩
  else ⟨1, "", SyntaxError.report parsed.errors ++ "\n"⟩

def execute (depth : Nat) (o : Options) (source : String) : Option Response :=
  if o.printProgram then some (printProgram source)
  else
    (runScript depth source o.pipeMode).map fun
      | (none, output) => ⟨0, output, ""⟩
      | (some f, output) => ⟨1, output, f.message ++ "\n"⟩

/-- The script that the contents name or are. -/
def script (o : Options) (files : String → Option ByteArray) (contents : String) :
    Except String String :=
  if o.file then
    match (files contents).bind String.fromUTF8? with
    | some source => .ok source
    | none => .error (unreadable contents)
  else .ok contents

/-- Answers arguments, with what the files and standard input hold. -/
def respond (depth : Nat) (arguments : List String) (files : String → Option ByteArray)
    (stdin : List UInt8) : Option Response :=
  match Options.read arguments with
  | .error stop => some (stopped stop)
  | .ok o =>
    match o.contents with
    | none => Prompt.run depth stdin
    | some contents =>
      match script o files contents with
      | .ok source => execute depth o source
      | .error message => some ⟨1, "", message⟩

end Treewalk.CommandLine
