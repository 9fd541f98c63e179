import GraphDependency.Command.Arguments

set_option autoImplicit false

/-!
# Help texts

What the program says about itself and its commands: a sentence, the shape of the
arguments, and a list of names with a sentence on each.
-/

namespace GraphDependency.Command

/-- Lines as one text. -/
def unlines (lines : List String) : String := String.join (lines.map fun line => line ++ "\n")

/-- A text filled up with blanks to a width. -/
def padRight (width : Nat) (text : String) : String :=
  text ++ String.ofList (List.replicate (width - text.length) ' ')

/-- Names with what is said about them, in two columns under a heading. -/
structure Section where
  heading : String
  /-- The width of the first column. -/
  width : Nat
  entries : List (String × String)
  deriving DecidableEq, Repr, Inhabited

/-- The lines of a section. -/
def Section.lines (s : Section) : List String :=
  s.heading :: s.entries.map fun e => "  " ++ padRight s.width e.1 ++ "  " ++ e.2

/-- A help text. -/
structure HelpText where
  about : String
  usage : String
  sections : List Section
  deriving DecidableEq, Repr, Inhabited

/-- The text of a help text: its parts have an empty line between them. -/
def HelpText.text (h : HelpText) : String :=
  unlines ([h.about, "", "Usage: " ++ h.usage] ++ h.sections.flatMap fun s => "" :: s.lines)

namespace Topic

/-- The help about a topic. -/
def helpText : Topic → HelpText
  | .general =>
    ⟨"Graph functional dependency validator", "gfd <COMMAND>",
      [⟨"Commands:", 8,
        [("validate", "Validate GFDs against a data graph"),
          ("bench", "Time every strategy on a synthetic workload"),
          ("help", "Print this message or the help of the given subcommand(s)")]⟩,
        ⟨"Options:", 10, [("-h, --help", "Print help")]⟩]⟩
  | .validate =>
    ⟨"Validate GFDs against a data graph",
      "gfd validate [OPTIONS] --graph <GRAPH> --gfd <GFDS>...",
      [⟨"Options:", 25,
        [("-g, --graph <GRAPH>", "Data graph in DOT format"),
          ("    --gfd <GFDS>...", "GFD files (premises line, conclusion line, DOT pattern)"),
          ("-s, --strategy <STRATEGY>",
            "naive, distributed or index (default: $GFD_STRATEGY or index)"),
          ("-t, --threads <THREADS>",
            "Worker threads (default: $GFD_THREADS or available parallelism)"),
          ("    --json", "Print the full report as JSON"),
          ("-h, --help", "Print help")]⟩]⟩
  | .bench =>
    ⟨"Time every strategy on a synthetic workload", "gfd bench [OPTIONS]",
      [⟨"Options:", 25,
        [("    --vertices <VERTICES>", "Data graph size [default: 200]"),
          ("    --gfds <GFDS>", "Number of generated GFDs [default: 20]"),
          ("    --seed <SEED>", "Workload seed [default: 42]"),
          ("-t, --threads <THREADS>", "Worker threads for the distributed strategy"),
          ("-h, --help", "Print help")]⟩]⟩
  | .help =>
    ⟨"Print this message or the help of the given subcommand(s)", "gfd help [COMMAND]...",
      [⟨"Arguments:", 12, [("[COMMAND]...", "Print help for the subcommand(s)")]⟩]⟩

/-- The text about a topic. -/
def text (t : Topic) : String := t.helpText.text

end Topic

end GraphDependency.Command
