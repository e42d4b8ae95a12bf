import Bello.Command

/- The program: reads its arguments, the file and the input, and prints the outcome. -/
namespace Bello.Main

/-- The content of a file, or why it cannot be read. -/
def readContent (file : String) : IO (Except String ByteArray) := do
  try
    let bytes ← IO.FS.readBinFile file
    pure (.ok bytes)
  catch
    | .noFileOrDirectory .. => pure (.error Command.missingFile)
    | e => pure (.error e.toString)

/-- Performs the command that the arguments spell. -/
def perform (args : List String) : IO UInt32 := do
  match Command.ofArgs args with
  | none =>
    IO.eprintln "Error: the arguments are not well formed"
    pure 2
  | some command =>
    let content ←
      match command.file? with
      | some file => readContent file
      | none => pure (.ok ByteArray.empty)
    let stdin ←
      match command.request with
      | .onFile .run _ => (← IO.getStdin).readBinToEnd
      | _ => pure ByteArray.empty
    let outcome := command.perform content stdin.toList
    (← IO.getStdout).write outcome.stdout
    IO.eprint outcome.stderr
    pure outcome.code.toUInt32

end Bello.Main

def main (args : List String) : IO UInt32 := Bello.Main.perform args
