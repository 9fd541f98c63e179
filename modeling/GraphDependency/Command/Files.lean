set_option autoImplicit false

/-!
# Files

Reading a file by its path gives a text or a fault of the system.  A directory
that holds nothing but given files can be read without a system: a path is a
list of steps, each of which leads from a directory to an entry of it.

Main statement: `stepTo_file`, no step leads out of a file.
-/

namespace GraphDependency.Command

/-- Why a file cannot be read. -/
inductive ReadFault where
  /-- a fault of the system, with its number -/
  | system (text : String) (number : Nat)
  /-- the bytes are no text -/
  | encoding
  deriving DecidableEq, Repr, Inhabited

namespace ReadFault

/-- There is nothing of that name. -/
def missing : ReadFault := .system "No such file or directory" 2

/-- A file stands where a directory is needed. -/
def notDirectory : ReadFault := .system "Not a directory" 20

/-- A directory stands where a file is needed. -/
def isDirectory : ReadFault := .system "Is a directory" 21

/-- A path or a step of it is longer than any can be. -/
def nameTooLong : ReadFault := .system "File name too long" 36

/-- The wording of a fault. -/
def message : ReadFault → String
  | .system text number => text ++ " (os error " ++ toString number ++ ")"
  | .encoding => "stream did not contain valid UTF-8"

end ReadFault

/-- A file and what is in it. -/
structure FileEntry where
  path : String
  bytes : ByteArray

/-- Where a path leads. -/
inductive Place where
  /-- a directory among the given files, by the steps that lead to it -/
  | inside (steps : List String)
  /-- a directory that holds none of the given files -/
  | outside
  | file (bytes : ByteArray)

/-- The steps of a path. -/
def pathSteps (path : String) : List String := path.splitOn "/"

/-- The file that several steps lead to, if there is one. -/
def fileAt? (entries : List FileEntry) (steps : List String) : Option ByteArray :=
  (entries.findRev? fun e => pathSteps e.path = steps).map FileEntry.bytes

/-- A given file lies below a directory. -/
def isDirectoryAt (entries : List FileEntry) (steps : List String) : Bool :=
  entries.any fun e => steps.isPrefixOf (pathSteps e.path)

/-- The most bytes of a step. -/
def maxStepBytes : Nat := 255

/-- The most bytes of a path. -/
def maxPathBytes : Nat := 4095

/-- Where one step leads. -/
def stepTo (entries : List FileEntry) (place : Place) (step : String) :
    Except ReadFault Place :=
  match place with
  | .file _ => .error .notDirectory
  | .outside =>
    if step.isEmpty ∨ step = "." ∨ step = ".." then .ok .outside
    else if maxStepBytes < step.utf8ByteSize then .error .nameTooLong
    else .error .missing
  | .inside steps =>
    if step.isEmpty ∨ step = "." then .ok place
    else if step = ".." then .ok (if steps.isEmpty then .outside else .inside steps.dropLast)
    else if maxStepBytes < step.utf8ByteSize then .error .nameTooLong
    else
      match fileAt? entries (steps ++ [step]) with
      | some bytes => .ok (.file bytes)
      | none =>
        if isDirectoryAt entries (steps ++ [step]) then .ok (.inside (steps ++ [step]))
        else .error .missing

/-- No step leads out of a file. -/
theorem stepTo_file (entries : List FileEntry) (bytes : ByteArray) (step : String) :
    stepTo entries (.file bytes) step = .error .notDirectory := rfl

/-- Where a path leads.  A path that starts with a slash leads out of the
directory, and the empty one leads nowhere. -/
def follow (entries : List FileEntry) (path : String) : Except ReadFault Place :=
  if path.isEmpty then .error .missing
  else if maxPathBytes < path.utf8ByteSize then .error .nameTooLong
  else
    (pathSteps path).foldlM (stepTo entries)
      (if path.startsWith "/" then .outside else .inside [])

/-- The text at a path of a directory that holds the given files. -/
def readAmong (entries : List FileEntry) (path : String) : Except ReadFault String := do
  match ← follow entries path with
  | .file bytes =>
    match String.fromUTF8? bytes with
    | some text => .ok text
    | none => .error .encoding
  | _ => .error .isDirectory

end GraphDependency.Command
