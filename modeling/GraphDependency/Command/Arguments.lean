import GraphDependency.Strategy
import GraphDependency.Text.Numeral

set_option autoImplicit false

/-!
# Arguments of the command line

A command is named by the first argument; the others are its options, in any
order.  A long option takes its value from the next argument or after an equals
sign, a short one also from the rest of its own argument.  Options that list
things take all arguments up to the next option, and may be repeated; all others
may be given once.  After two dashes there are no options, and nothing else is
expected there.  Arguments are looked at in order: a request for help is granted
if nothing before it is wrong.

Main statements: `parse_nil`, there has to be a command, and `scan_help`, help
can be asked for anywhere.
-/

namespace GraphDependency.Command

open GraphDependency.Text

/-- What help is asked about. -/
inductive Topic where
  | general
  | validate
  | bench
  | help
  deriving DecidableEq, Repr, Inhabited

/-- What a validation of files is asked to do. -/
structure ValidateOptions where
  graph : String
  dependencies : List String
  strategy? : Option Strategy
  threads? : Option Nat
  json : Bool
  deriving DecidableEq, Repr

/-- What a benchmark is asked to do. -/
structure BenchOptions where
  vertices : Nat
  dependencies : Nat
  seed : Nat
  threads? : Option Nat
  deriving DecidableEq, Repr

/-- What is asked for. -/
inductive Request where
  | help (topic : Topic)
  | validate (options : ValidateOptions)
  | bench (options : BenchOptions)
  deriving DecidableEq, Repr

/-- Why arguments make no request. -/
inductive UsageFault where
  /-- there is no command -/
  | noCommand
  /-- there is no such command -/
  | unknownCommand (name : String)
  /-- nothing of this kind is expected -/
  | unexpected (argument : String)
  /-- an option has no value -/
  | noValue (option : String)
  /-- an option is given twice -/
  | repeated (option : String)
  /-- the value of an option cannot be used -/
  | badValue (option value : String)
  /-- an option has to be given -/
  | required (option : String)
  deriving DecidableEq, Repr, Inhabited

/-- The wording of a fault. -/
def UsageFault.message : UsageFault → String
  | .noCommand => "a command is needed"
  | .unknownCommand name => "there is no command '" ++ name ++ "'"
  | .unexpected argument => "the argument '" ++ argument ++ "' is not expected"
  | .noValue option => "the option '--" ++ option ++ "' needs a value"
  | .repeated option => "the option '--" ++ option ++ "' is given twice"
  | .badValue option value => "'" ++ value ++ "' is no value of the option '--" ++ option ++ "'"
  | .required option => "the option '--" ++ option ++ "' is needed"

/-! ## Options -/

/-- How many values an option takes. -/
inductive Arity where
  | none
  | one
  | many
  deriving DecidableEq, Repr, Inhabited

/-- An option of a command. -/
structure Switch where
  long : String
  short? : Option Char
  arity : Arity
  deriving DecidableEq, Repr, Inhabited

/-- An option as it was given, or what comes instead. -/
inductive Item where
  | given (option : String) (values : List String)
  | help
  | wrong (fault : UsageFault)
  deriving DecidableEq, Repr, Inhabited

/-- An option that is waiting for values, with those it has, the last first. -/
structure Pending where
  switch : Switch
  values : List String
  deriving DecidableEq, Repr, Inhabited

/-- An option that gets no more values. -/
def Pending.close (p : Pending) : Item :=
  if p.values.isEmpty then .wrong (.noValue p.switch.long)
  else .given p.switch.long p.values.reverse

/-- What an argument is. -/
inductive Kind where
  /-- two dashes and nothing else -/
  | escape
  | long (name : List Char) (value? : Option (List Char))
  | short (name : Char) (rest : List Char)
  | plain
  deriving DecidableEq, Repr, Inhabited

/-- Parts a long option from the value after an equals sign. -/
def splitValue (cs : List Char) : List Char × Option (List Char) :=
  (cs.takeWhile fun c => c != '=',
    match cs.dropWhile fun c => c != '=' with
    | [] => none
    | _ :: value => some value)

/-- What an argument is. -/
def Kind.ofText (argument : String) : Kind :=
  match argument.toList with
  | ['-', '-'] => .escape
  | '-' :: '-' :: cs => .long (splitValue cs).1 (splitValue cs).2
  | '-' :: c :: cs => .short c cs
  | _ => .plain

/-- Drops one equals sign. -/
def dropEquals : List Char → List Char
  | '=' :: cs => cs
  | cs => cs

/-- What an option without a value of its own means. -/
def Switch.alone (s : Switch) : Sum Item Pending :=
  if s.arity = .none then .inl (.given s.long []) else .inr ⟨s, []⟩

/-- What an option with a value in the same argument means. -/
def Switch.attached (s : Switch) (argument value : String) : Item :=
  if s.arity = .none then .wrong (.unexpected argument) else .given s.long [value]

/-- What an argument that is an option means. -/
def readOption (switches : List Switch) (argument : String) : Kind → Sum Item Pending
  | .long name value? =>
    match String.ofList name, value? with
    | "help", none => .inl .help
    | name, value? =>
      match switches.find? fun s => s.long = name, value? with
      | none, _ => .inl (.wrong (.unexpected argument))
      | some s, none => s.alone
      | some s, some value => .inl (s.attached argument (String.ofList value))
  | .short 'h' _ => .inl .help
  | .short name rest =>
    match switches.find? fun s => s.short? = some name, rest with
    | none, _ => .inl (.wrong (.unexpected argument))
    | some s, [] => s.alone
    | some s, rest => .inl (s.attached argument (String.ofList (dropEquals rest)))
  | _ => .inl (.wrong (.unexpected argument))

/-- The options of a command line, in order; `pending?` is the option that is
waiting for values. -/
def scan (switches : List Switch) : Option Pending → List String → List Item
  | pending?, [] => (pending?.map Pending.close).toList
  | pending?, argument :: rest =>
    match Kind.ofText argument with
    | .escape =>
      (pending?.map Pending.close).toList
        ++ (rest.head?.map fun next => .wrong (.unexpected next)).toList
    | .plain =>
      match pending? with
      | none => .wrong (.unexpected argument) :: scan switches none rest
      | some p =>
        let p := { p with values := argument :: p.values }
        if p.switch.arity = .many then scan switches (some p) rest
        else p.close :: scan switches none rest
    | kind =>
      (pending?.map Pending.close).toList
        ++ match readOption switches argument kind with
          | .inl item => item :: scan switches none rest
          | .inr p => scan switches (some p) rest

/-- Takes the options in, one after the other.  Help is granted, and a fault
reported, where it comes first. -/
def takeItems {σ : Type} (topic : Topic)
    (take : σ → String → List String → Except UsageFault σ)
    (finish : σ → Except UsageFault Request) :
    σ → List Item → Except UsageFault Request
  | s, [] => finish s
  | _, .help :: _ => .ok (.help topic)
  | _, .wrong fault :: _ => .error fault
  | s, .given option values :: rest => do
    takeItems topic take finish (← take s option values) rest

/-! ## Values -/

/-- A value for an option that may be given once. -/
def once {α : Type} (option : String) (slot : Option α) (values : List String)
    (read : String → Option α) : Except UsageFault (Option α) :=
  if slot.isSome then .error (.repeated option)
  else
    match values with
    | [value] =>
      match read value with
      | some a => .ok (some a)
      | none => .error (.badValue option value)
    | _ => .error (.noValue option)

/-- A path is any text but the empty one. -/
def readPath (value : String) : Option String := if value.isEmpty then none else some value

/-- A strategy by its name. -/
def readStrategy (value : String) : Option Strategy := (Strategy.parse value).toOption

/-- A number of 64 binary digits. -/
def readCount (value : String) : Option Nat := (readNumber64 value).toOption

/-! ## The commands -/

/-- The options of a validation. -/
def validateSwitches : List Switch :=
  [⟨"graph", some 'g', .one⟩, ⟨"gfd", none, .many⟩, ⟨"strategy", some 's', .one⟩,
    ⟨"threads", some 't', .one⟩, ⟨"json", none, .none⟩]

/-- The options of a validation so far. -/
structure ValidateSlots where
  graph? : Option String
  dependencies : List String
  strategy? : Option Strategy
  threads? : Option Nat
  json? : Option Unit
  deriving DecidableEq, Repr, Inhabited

namespace ValidateSlots

/-- Takes in an option. -/
def take (s : ValidateSlots) (option : String) (values : List String) :
    Except UsageFault ValidateSlots :=
  match option with
  | "graph" => (once option s.graph? values readPath).map fun r => { s with graph? := r }
  | "gfd" =>
    if values.contains "" then .error (.badValue option "")
    else .ok { s with dependencies := s.dependencies ++ values }
  | "strategy" =>
    (once option s.strategy? values readStrategy).map fun r => { s with strategy? := r }
  | "threads" => (once option s.threads? values readCount).map fun r => { s with threads? := r }
  | "json" =>
    if s.json?.isSome then .error (.repeated option) else .ok { s with json? := some () }
  | option => .error (.unexpected option)

/-- The request that the options make. -/
def finish (s : ValidateSlots) : Except UsageFault Request :=
  match s.graph? with
  | none => .error (.required "graph")
  | some graph =>
    if s.dependencies.isEmpty then .error (.required "gfd")
    else .ok (.validate ⟨graph, s.dependencies, s.strategy?, s.threads?, s.json?.isSome⟩)

end ValidateSlots

/-- The options of a benchmark. -/
def benchSwitches : List Switch :=
  [⟨"vertices", none, .one⟩, ⟨"gfds", none, .one⟩, ⟨"seed", none, .one⟩,
    ⟨"threads", some 't', .one⟩]

/-- The options of a benchmark so far. -/
structure BenchSlots where
  vertices? : Option Nat
  dependencies? : Option Nat
  seed? : Option Nat
  threads? : Option Nat
  deriving DecidableEq, Repr, Inhabited

namespace BenchSlots

/-- Takes in an option. -/
def take (s : BenchSlots) (option : String) (values : List String) :
    Except UsageFault BenchSlots :=
  match option with
  | "vertices" => (once option s.vertices? values readCount).map fun r => { s with vertices? := r }
  | "gfds" =>
    (once option s.dependencies? values readCount).map fun r => { s with dependencies? := r }
  | "seed" => (once option s.seed? values readCount).map fun r => { s with seed? := r }
  | "threads" => (once option s.threads? values readCount).map fun r => { s with threads? := r }
  | option => .error (.unexpected option)

/-- The request that the options make. -/
def finish (s : BenchSlots) : Except UsageFault Request :=
  .ok (.bench ⟨s.vertices?.getD 200, s.dependencies?.getD 20, s.seed?.getD 42, s.threads?⟩)

end BenchSlots

/-- The topics that help can be asked about by name. -/
def topicNamed? (name : String) : Option Topic :=
  if name = "validate" then some .validate
  else if name = "bench" then some .bench
  else if name = "help" then some .help
  else none

/-- The request of the arguments after the name of the help command. -/
def parseHelp : List String → Except UsageFault Request
  | [] => .ok (.help .general)
  | [name] =>
    match topicNamed? name with
    | some topic => .ok (.help topic)
    | none => .error (.unknownCommand name)
  | name :: next :: _ => .error (.unknownCommand (if (topicNamed? name).isSome then next else name))

/-- The request of the first argument, if it is an option. -/
def parseLeading (argument : String) : Except UsageFault Request :=
  match readOption [] argument (Kind.ofText argument) with
  | .inl .help => .ok (.help .general)
  | _ => .error (.unexpected argument)

/-- The request that arguments make. -/
def parse : List String → Except UsageFault Request
  | [] => .error .noCommand
  | "validate" :: rest =>
    takeItems .validate ValidateSlots.take ValidateSlots.finish ⟨none, [], none, none, none⟩
      (scan validateSwitches none rest)
  | "bench" :: rest =>
    takeItems .bench BenchSlots.take BenchSlots.finish ⟨none, none, none, none⟩
      (scan benchSwitches none rest)
  | "help" :: rest => parseHelp rest
  | argument :: _ => parseLeading argument

/-- There has to be a command. -/
theorem parse_nil : parse [] = .error .noCommand := rfl

/-- Help can be asked for anywhere; an option that is waiting for a value comes
first. -/
theorem scan_help (switches : List Switch) (pending? : Option Pending) (rest : List String) :
    scan switches pending? ("--help" :: rest)
      = (pending?.map Pending.close).toList ++ .help :: scan switches none rest := by
  rw [scan.eq_def]
  rfl

end GraphDependency.Command
