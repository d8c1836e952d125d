import ByteGrammar.CommandLine.Run

/-!
# The program

Access to real files, and the entry point.
-/

namespace ByteGrammar

/-- The fault behind an error of the runtime. -/
def FileError.ofIO : IO.Error → FileError
  | .noFileOrDirectory .. => .notFound
  | .inappropriateType _ 20 _ => .notDirectory
  | .inappropriateType .. => .isDirectory
  | .resourceExhausted _ 28 _ => .noSpace
  | .invalidArgument _ 36 _ => .nameTooLong
  | error => .other error.toString

/-- Access to the files of the machine. -/
instance : MonadFiles IO where
  readFile path := do
    match ← (IO.FS.readBinFile path).toBaseIO with
    | .ok content => return .ok content
    | .error error => return .error (.ofIO error)
  saveFile path content := do
    match ← (IO.FS.Handle.mk path .write).toBaseIO with
    | .error error => return .error (.opening (.ofIO error))
    | .ok handle =>
        match ← (do handle.write content; handle.flush : IO Unit).toBaseIO with
        | .error error => return .error (.writing (.ofIO error))
        | .ok () => return .ok ()

end ByteGrammar

/-- Runs the command on its arguments. -/
def main (arguments : List String) : IO UInt32 := do
  let report ← (ByteGrammar.CommandLine.run arguments : IO ByteGrammar.CommandLine.Report)
  (← IO.getStdout).putStr report.output
  let stderr ← IO.getStderr
  for line in report.log do
    stderr.putStrLn line
  if let some complaint := report.complaint then
    stderr.putStrLn complaint
  return report.exitCode.toUInt32
