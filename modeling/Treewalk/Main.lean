import Treewalk.Host.CommandLine

/-! # The program -/

namespace Treewalk

/-- Deeper than any stack: a program that nests further does not come back from its calls. -/
def deepest : Nat := 1000000000

def writeOut (text : String) : IO Unit := do
  let out ← IO.getStdout
  out.putStr text
  out.flush

def finish (r : Response) : IO UInt32 := do
  writeOut r.stdout
  IO.eprint r.stderr
  return r.code.toUInt32

def tooDeep : IO UInt32 := do
  IO.eprintln "evaluation nests too deep"
  return 134

/-- The bytes up to a line end, or up to the end of input. -/
partial def readLine (input : IO.FS.Stream) (bytes : ByteArray) : IO ByteArray := do
  let more ← input.read 1
  let bytes := bytes ++ more
  if more.isEmpty || more.toList = [10] then return bytes
  else readLine input bytes

/-- Answers each line before it reads the next. -/
partial def promptLoop (input : IO.FS.Stream) (m : Machine) : IO UInt32 := do
  writeOut m.output
  let m := { m with output := "" }
  match byteLines (← readLine input .empty).toList with
  | [] => finish ⟨0, "\n", ""⟩
  | bytes :: _ =>
    match decodeText bytes with
    | none => finish ⟨1, "", Prompt.invalidText⟩
    | some source =>
      match Prompt.line deepest source m with
      | some m => promptLoop input m
      | none => tooDeep

def readFile (path : String) : IO (Option ByteArray) := do
  try return some (← IO.FS.readBinFile path)
  catch _ => return none

def start (arguments : List String) : IO UInt32 := do
  match Options.read arguments with
  | .ok ⟨_, _, _, none⟩ => promptLoop (← IO.getStdin) Prompt.start
  | .ok ⟨true, _, _, some path⟩ =>
    let contents ← readFile path
    (CommandLine.respond deepest arguments (fun _ => contents) []).elim tooDeep finish
  | _ => (CommandLine.respond deepest arguments (fun _ => none) []).elim tooDeep finish

end Treewalk

def main (arguments : List String) : IO UInt32 := Treewalk.start arguments
