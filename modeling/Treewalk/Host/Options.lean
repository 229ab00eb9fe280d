/-!
# Options of the command line

Arguments are read in order, and the first that settles the matter does.
-/

namespace Treewalk

structure Options where
  file : Bool
  pipeMode : Bool
  printProgram : Bool
  contents : Option String
deriving DecidableEq

/-- What ends the reading of arguments before the last of them. -/
inductive OptionStop
  | version | help | usage
deriving DecidableEq

namespace Options

def empty : Options := ⟨false, false, false, none⟩

/-- Each flag stands at most once. -/
def withFile (o : Options) : Except OptionStop Options :=
  if o.file then .error .usage else .ok { o with file := true }

def withPipeMode (o : Options) : Except OptionStop Options :=
  if o.pipeMode then .error .usage else .ok { o with pipeMode := true }

def withPrintProgram (o : Options) : Except OptionStop Options :=
  if o.printProgram then .error .usage else .ok { o with printProgram := true }

/-- So do the contents. -/
def withContents (o : Options) (text : String) : Except OptionStop Options :=
  if o.contents.isSome then .error .usage else .ok { o with contents := some text }

def short (o : Options) : Char → Except OptionStop Options
  | 'f' => o.withFile
  | 'p' => o.withPipeMode
  | 'V' => .error .version
  | 'h' => .error .help
  | _ => .error .usage

def long (o : Options) : String → Except OptionStop Options
  | "file" => o.withFile
  | "pipe-mode" => o.withPipeMode
  | "print-ast" => o.withPrintProgram
  | "version" => .error .version
  | "help" => .error .help
  | _ => .error .usage

/-- One argument. Short flags may share a dash, and a dash alone is no flag. -/
def argument (o : Options) (text : String) : Except OptionStop Options :=
  match text.toList with
  | ['-'] => o.withContents text
  | '-' :: '-' :: name => o.long (String.ofList name)
  | '-' :: flags => flags.foldlM short o
  | _ => o.withContents text

/-- The arguments after those read into `o`. Two dashes end the flags. -/
def readFrom (o : Options) : List String → Except OptionStop Options
  | [] => .ok o
  | a :: rest =>
    if a = "--" then rest.foldlM withContents o
    else
      match o.argument a with
      | .ok o' => readFrom o' rest
      | .error stop => .error stop

def read (arguments : List String) : Except OptionStop Options := empty.readFrom arguments

end Options

end Treewalk
