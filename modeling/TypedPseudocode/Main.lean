import TypedPseudocode.Command.Run

/-!
The command itself: arguments and files in, a document out.
-/

namespace TypedPseudocode.Command

def reasonOf : IO.Error → String
  | .noFileOrDirectory .. => "No such file or directory (os error 2)"
  | .permissionDenied .. => "Permission denied (os error 13)"
  | error => toString error

def guarded (read : IO String) : IO (Except String String) := do
  match ← read.toBaseIO with
  | .ok text => return .ok text
  | .error error => return .error (reasonOf error)

def outside : World IO where
  contents path := guarded (IO.FS.readFile path)
  input := guarded do (← IO.getStdin).readToEnd

def seed : IO Nat := do
  let bytes ← IO.getRandomBytes 16
  return bytes.toList.foldl (fun n byte => 256 * n + byte.toNat) 0

def usage : String := "Usage: pseudocode [OPTIONS] <INPUT>"

def runWith (arguments : Arguments) : IO UInt32 := do
  let report ← run outside (IdStream.uuids (← seed)) arguments
  for (level, message) in report.log do
    IO.eprintln s!"[{level.name}] {message}"
  match report.result with
  | .ok text =>
      IO.println text
      return 0
  | .error failure =>
      IO.eprintln failure.message
      IO.eprintln usage
      return 1

def answer (arguments : List String) : IO UInt32 := do
  match Arguments.read (← IO.getEnv "PSEUDOCODE_CONFIG") arguments with
  | .ok arguments => runWith arguments
  | .error .version =>
      IO.println versionText
      return 0
  | .error .help =>
      IO.println usage
      return 0
  | .error .mistake =>
      IO.eprintln usage
      return 2

end TypedPseudocode.Command

def main (arguments : List String) : IO UInt32 := TypedPseudocode.Command.answer arguments
