set_option autoImplicit false

/-!
# Attribute lists

The attributes of a vertex: names with string values, each name at most once, in
the order in which the names were first set.  That order is part of the value:
it is the order in which a graph is written.

Main statements: `find?_insert` (reading after writing) and `names_insert` (a
new name goes last, a known one stays where it is).
-/

namespace GraphDependency

/-- Attribute values by name, in the order of first insertion. -/
structure Attributes where
  /-- The pairs, oldest name first. -/
  entries : List (String × String)
  /-- No name occurs twice. -/
  nodup : (entries.map Prod.fst).Nodup
  deriving DecidableEq, Repr

namespace Attributes

/-- No attributes. -/
def empty : Attributes := ⟨[], by simp⟩

instance : Inhabited Attributes := ⟨empty⟩

/-- The names, in order. -/
def names (as : Attributes) : List String := as.entries.map Prod.fst

/-- Replaces the value of a name that occurs, else adds the pair at the end. -/
def put (name value : String) : List (String × String) → List (String × String)
  | [] => [(name, value)]
  | e :: rest => if e.1 = name then (name, value) :: rest else e :: put name value rest

theorem map_fst_put (name value : String) (es : List (String × String)) :
    (put name value es).map Prod.fst
      = if name ∈ es.map Prod.fst then es.map Prod.fst else es.map Prod.fst ++ [name] := by
  induction es with
  | nil => simp [put]
  | cons e rest ih =>
    by_cases h : e.1 = name
    · simp [put, h]
    · have h' : ¬ name = e.1 := fun hn => h hn.symm
      simp only [put, h, if_false, List.map_cons, ih, List.mem_cons, h', false_or]
      split <;> simp

/-- Sets an attribute: a known name keeps its place and takes the new value. -/
def insert (as : Attributes) (name value : String) : Attributes where
  entries := put name value as.entries
  nodup := by
    rw [map_fst_put]
    split
    · exact as.nodup
    · rename_i h
      refine List.nodup_append.mpr ⟨as.nodup, by simp, ?_⟩
      intro a ha b hb
      simp only [List.mem_singleton] at hb
      subst hb
      exact fun hab => h (hab ▸ ha)

/-- The value of a name, if it is set. -/
def find? (as : Attributes) (name : String) : Option String :=
  (as.entries.find? fun e => e.1 = name).map Prod.snd

/-- Drops an attribute; the others keep their order. -/
def erase (as : Attributes) (name : String) : Attributes where
  entries := as.entries.filter fun e => e.1 ≠ name
  nodup := as.nodup.sublist (List.filter_sublist.map Prod.fst)

/-- Sets the attributes of a list one after the other. -/
def insertAll (as : Attributes) (es : List (String × String)) : Attributes :=
  es.foldl (fun acc e => acc.insert e.1 e.2) as

/-- The attributes of a list of pairs, set one after the other. -/
def ofList (es : List (String × String)) : Attributes := empty.insertAll es

/-- A new name goes last; a known one stays where it is. -/
theorem names_insert (as : Attributes) (name value : String) :
    (as.insert name value).names
      = if name ∈ as.names then as.names else as.names ++ [name] :=
  map_fst_put name value as.entries

theorem find?_put (name value other : String) (es : List (String × String)) :
    ((put name value es).find? fun e => e.1 = other).map Prod.snd
      = if name = other then some value
        else (es.find? fun e => e.1 = other).map Prod.snd := by
  induction es with
  | nil => by_cases h : name = other <;> simp [put, h]
  | cons e rest ih =>
    by_cases h : e.1 = name
    · by_cases ho : name = other
      · simp [put, h, ho]
      · have : ¬ e.1 = other := fun he => ho (h ▸ he)
        simp [put, h, ho]
    · by_cases he : e.1 = other
      · have ho : ¬ name = other := fun hn => h (he.trans hn.symm)
        rw [put, if_neg h, if_neg ho]
        simp [he]
      · simp [put, h, he, ih]

/-- Reading after writing: the name just set has its new value, every other
name the value it had. -/
theorem find?_insert (as : Attributes) (name value other : String) :
    (as.insert name value).find? other
      = if name = other then some value else as.find? other :=
  find?_put name value other as.entries

end Attributes

end GraphDependency
