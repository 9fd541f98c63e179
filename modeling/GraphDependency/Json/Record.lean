import GraphDependency.Dependency
import GraphDependency.Json.Document
import GraphDependency.Text.Numeral

set_option autoImplicit false

/-!
# Values of a given form

Readers turn a document into a value of a known form.  A record is an object with
known fields in any order, each of them at most once, among other members, which
are passed over; or an array of the fields in their order.  The members are read
as they stand, so the first thing that is wrong with a text decides what is said
about it.

Main statement: `readMembers_unknown`, a member with an unknown name changes
nothing.
-/

namespace GraphDependency.Json

open GraphDependency.Text

/-- Why a text is refused. -/
inductive Fault where
  /-- it does not have the form asked for -/
  | form
  /-- the parts make no graph -/
  | graph (fault : GraphFault)
  /-- the parts make no dependency -/
  | dependency (fault : DependencyFault)
  deriving DecidableEq, Repr, Inhabited

/-- The message about a refused value; there is none about its form. -/
def Fault.message? : Fault → Option String
  | .form => none
  | .graph fault => some fault.message
  | .dependency fault => some fault.message

/-- Reads a value of one form. -/
abbrev Reader (α : Type) : Type := Document → Except Fault α

/-- A value that has to be there. -/
def required {α : Type} : Option α → Except Fault α
  | some value => .ok value
  | none => .error .form

/-- Reads a natural number of 64 binary digits. -/
def readNatural : Reader Nat
  | .natural n => if n ≤ max64 then .ok n else .error .form
  | _ => .error .form

/-- Reads a string. -/
def readString : Reader String
  | .string text? => required text?
  | _ => .error .form

/-- Reads an array. -/
def readList {α : Type} (item : Reader α) : Reader (List α)
  | .array items => items.mapM item
  | _ => .error .form

/-- Reads a member of a map from names to strings. -/
def readEntry (m : Member) : Except Fault (String × String) := do
  let name ← required m.1
  .ok (name, ← readString m.2)

/-- Reads a map from names to strings. -/
def readEntries : Reader (List (String × String))
  | .object members => members.mapM readEntry
  | _ => .error .form

/-- Reads one of several named cases, each given by its name or by an object that
has `null` under that name. -/
def readName {α : Type} (named? : String → Option α) : Reader α
  | .string text? => do required (named? (← required text?))
  | .object [(name?, .null)] => do required (named? (← required name?))
  | _ => .error .form

/-! ## Records -/

/-- A field of a record: its name, and how its value goes with what was read
before. -/
structure Field (σ : Type) where
  name : String
  take : σ → Reader σ

/-- Fills a slot that is still free. -/
def fill {α : Type} (slot : Option α) (read : Reader α) (d : Document) :
    Except Fault (Option α) :=
  if slot.isSome then .error .form else (read d).map some

/-- The members of a record.  The elements of an array belong to the fields in
their order; an element too many is a member without a name. -/
def members? (names : List String) : Document → Option (List Member)
  | .object members => some members
  | .array items =>
    some ((names.zip items).map (fun e => (some e.1, e.2))
      ++ (items.drop names.length).map fun d => (none, d))
  | _ => none

/-- Reads members in order.  Every name has to be a text; a value under an
unknown name may be anything. -/
def readMembers {σ : Type} (fields : List (Field σ)) : σ → List Member → Except Fault σ
  | s, [] => .ok s
  | _, (none, _) :: _ => .error .form
  | s, (some name, d) :: rest =>
    match fields.find? fun f => f.name = name with
    | some f => do readMembers fields (← f.take s d) rest
    | none => if d.intact then readMembers fields s rest else .error .form

/-- Reads a record, starting with free slots. -/
def readRecord {σ : Type} (fields : List (Field σ)) (start : σ) : Reader σ := fun d =>
  match members? (fields.map Field.name) d with
  | some members => readMembers fields start members
  | none => .error .form

/-- Reads a record of one field. -/
def readSingle {α : Type} (name : String) (read : Reader α) : Reader α := fun d => do
  let slot ← readRecord [⟨name, fun s d => fill s read d⟩] none d
  required slot

/-- Reads a record of two fields. -/
def readPair {α β : Type} (first : String) (readFirst : Reader α) (second : String)
    (readSecond : Reader β) : Reader (α × β) := fun d => do
  let slots ← readRecord
    [⟨first, fun s d => (fill s.1 readFirst d).map fun a => (a, s.2)⟩,
      ⟨second, fun s d => (fill s.2 readSecond d).map fun b => (s.1, b)⟩] (none, none) d
  .ok (← required slots.1, ← required slots.2)

/-- Reads a text of one form.  Nothing may follow. -/
def readText {α : Type} (read : Reader α) (text : String) : Except Fault α := do
  let reading := Document.ofText text
  let value ← read reading.document
  if reading.whole then .ok value else .error .form

/-- A member with an unknown name changes nothing. -/
theorem readMembers_unknown {σ : Type} {fields : List (Field σ)} {s : σ} {name : String}
    {d : Document} {rest : List Member} (hn : fields.find? (fun f => f.name = name) = none)
    (hd : d.intact = true) :
    readMembers fields s ((some name, d) :: rest) = readMembers fields s rest := by
  rw [readMembers, hn]
  simp [hd]

/-- A member with the name of a field is read by that field. -/
theorem readMembers_field {σ : Type} {fields : List (Field σ)} {s : σ} {name : String}
    {d : Document} {rest : List Member} {f : Field σ}
    (hf : fields.find? (fun f => f.name = name) = some f) :
    readMembers fields s ((some name, d) :: rest)
      = (f.take s d).bind fun s' => readMembers fields s' rest := by
  rw [readMembers, hf]
  rfl

/-- The member has the name of a field. -/
def known {σ : Type} (fields : List (Field σ)) (m : Member) : Bool :=
  fields.any fun f => m.1 = some f.name

/-- All members with unknown names together change nothing. -/
theorem readMembers_filter {σ : Type} {fields : List (Field σ)} {s : σ} {members : List Member}
    (h : ∀ m ∈ members, known fields m = false → m.1.isSome = true ∧ m.2.intact = true) :
    readMembers fields s (members.filter (known fields)) = readMembers fields s members := by
  induction members generalizing s with
  | nil => rfl
  | cons m rest ih =>
    obtain ⟨name?, d⟩ := m
    obtain ⟨hm, hrest⟩ := List.forall_mem_cons.mp h
    cases name? with
    | none =>
      have hunknown : known fields (none, d) = false := by simp [known]
      exact absurd (hm hunknown).1 (by simp)
    | some name =>
      cases hfind : fields.find? fun f => f.name = name with
      | none =>
        have hunknown : known fields (some name, d) = false := by
          rw [known, List.any_eq_false]
          intro f hf heq
          have hname : f.name = name := (Option.some.inj (of_decide_eq_true heq)).symm
          exact List.find?_eq_none.mp hfind f hf (decide_eq_true hname)
        rw [List.filter_cons, hunknown, readMembers_unknown hfind (hm hunknown).2]
        exact ih hrest
      | some f =>
        have hname : f.name = name := by simpa using List.find?_some hfind
        have hknown : known fields (some name, d) = true :=
          List.any_eq_true.mpr ⟨f, List.mem_of_find?_eq_some hfind, by simp [hname]⟩
        rw [List.filter_cons, hknown, if_pos rfl, readMembers_field hfind,
          readMembers_field hfind]
        cases f.take s d with
        | error fault => rfl
        | ok s' => exact ih hrest

end GraphDependency.Json
