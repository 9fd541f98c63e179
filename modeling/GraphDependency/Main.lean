import GraphDependency.Command

set_option autoImplicit false

/-!
# The program and the system around it

Reads the files that a request names, the settings and the clock, and prints the
answer.
-/

open GraphDependency GraphDependency.Command

namespace GraphDependency.Program

/-- The number of a fault, which the system may report with a minus sign. -/
def faultNumber (code : UInt32) : Nat := min code.toNat (0 - code).toNat

/-- The fault that the system reports. -/
def readFault (e : IO.Error) : ReadFault :=
  match e with
  | .noFileOrDirectory _ _ _ => .missing
  | .inappropriateType _ code _ =>
    if faultNumber code = 20 then .notDirectory else .isDirectory
  | .invalidArgument _ code _ =>
    if faultNumber code = 36 then .nameTooLong
    else .system "Invalid argument" (faultNumber code)
  | .permissionDenied _ code _ => .system "Permission denied" (faultNumber code)
  | e => .system (toString e) 0

/-- The text of a file. -/
def readFile (path : String) : IO (Except ReadFault String) := do
  try
    let bytes ← IO.FS.readBinFile path
    match String.fromUTF8? bytes with
    | some text => return .ok text
    | none => return .error .encoding
  catch e => return .error (readFault e)

/-- The paths that a request names. -/
def pathsOf : Request → List String
  | .validate o => o.graph :: o.dependencies
  | _ => []

/-- The texts of several files. -/
def readFiles (paths : List String) : IO (List (String × Except ReadFault String)) :=
  paths.mapM fun path => return (path, ← readFile path)

/-- The time since the start, in milliseconds with two places, in eight columns. -/
def showTime (nanoseconds : Nat) : String :=
  let hundredths := (nanoseconds + 5000) / 10000
  let places := toString (hundredths % 100)
  let zero := if places.length < 2 then "0" else ""
  let text := toString (hundredths / 100) ++ "." ++ zero ++ places
  "  " ++ String.ofList (List.replicate (8 - text.length) ' ') ++ text ++ " ms"

/-- The clock of the system. -/
def clock : Clock IO where
  time f := do
    let start ← IO.monoNanosNow
    let value ← IO.lazyPure f
    let stop ← IO.monoNanosNow
    return (value, showTime (stop - start))

/-- Runs the program. -/
def run (arguments : List String) : IO UInt32 := do
  let paths := match Command.parse arguments with
    | .ok request => pathsOf request
    | .error _ => []
  let texts ← readFiles paths
  let world : World :=
    { strategy? := ← IO.getEnv strategyKey
      threads? := ← IO.getEnv threadsKey
      defaultThreads := 1
      read := fun path => (texts.lookup path).getD (.error .missing) }
  let answer ← Command.run clock world arguments
  IO.print answer.output
  IO.eprint answer.errors
  return answer.code.toUInt32

end GraphDependency.Program

/-- The program. -/
def main (arguments : List String) : IO UInt32 := GraphDependency.Program.run arguments
