set_option autoImplicit false

/-!
# Label indexes

The positions at which every label of a list occurs, kept so that they need not be
searched for.  Labels stand in the order of their first occurrence, and positions in
the order in which they were added.

Main statements: `find_add` (looking up after adding), `find_ofLabels` (an index of a
list knows where its labels are) and `contains_iff`.
-/

namespace GraphDependency

/-- The positions of every label. -/
structure LabelIndex where
  /-- The pairs of a label and its positions, oldest label first. -/
  entries : List (String × Array Nat)
  deriving DecidableEq, Repr

namespace LabelIndex

/-- Nothing is labeled yet. -/
def empty : LabelIndex := ⟨[]⟩

/-- Adds a position to the entry of a label, which is made if there is none. -/
def addTo (label : String) (v : Nat) : List (String × Array Nat) → List (String × Array Nat)
  | [] => [(label, #[v])]
  | e :: rest => if e.1 = label then (e.1, e.2.push v) :: rest else e :: addTo label v rest

/-- Adds a position with its label. -/
def add (i : LabelIndex) (label : String) (v : Nat) : LabelIndex := ⟨addTo label v i.entries⟩

/-- The index of a list of labels, added one after the other. -/
def ofLabels (labels : List String) : LabelIndex :=
  labels.zipIdx.foldl (fun i e => i.add e.1 e.2) empty

/-- The positions of a label. -/
def find (i : LabelIndex) (label : String) : List Nat :=
  ((i.entries.find? fun e => e.1 = label).map fun e => e.2.toList).getD []

/-- The label has an entry. -/
def contains (i : LabelIndex) (label : String) : Bool := i.entries.any fun e => e.1 = label

/-- The labels that have an entry. -/
def labels (i : LabelIndex) : List String := i.entries.map Prod.fst

/-! ## Looking up -/

theorem find_add (i : LabelIndex) (label other : String) (v : Nat) :
    (i.add label v).find other = if label = other then i.find other ++ [v] else i.find other := by
  obtain ⟨entries⟩ := i
  simp only [add, find]
  induction entries with
  | nil => by_cases h : label = other <;> simp [addTo, h]
  | cons e rest ih =>
    by_cases he : e.1 = label
    · by_cases ho : label = other
      · simp [addTo, he, ho]
      · simp [addTo, he, ho]
    · by_cases ho : e.1 = other
      · have hne : ¬ label = other := fun h => he (ho.trans h.symm)
        rw [addTo, if_neg he, if_neg hne]
        simp [ho]
      · simpa [addTo, he, ho] using ih

theorem mem_labels_add {i : LabelIndex} {label other : String} {v : Nat} :
    other ∈ (i.add label v).labels ↔ other = label ∨ other ∈ i.labels := by
  obtain ⟨entries⟩ := i
  simp only [add, labels]
  induction entries with
  | nil => simp [addTo]
  | cons e rest ih =>
    by_cases he : e.1 = label
    · simp [addTo, he]
    · rw [addTo, if_neg he, List.map_cons, List.mem_cons, ih, List.map_cons, List.mem_cons]
      exact or_left_comm

theorem contains_iff {i : LabelIndex} {label : String} :
    i.contains label = true ↔ label ∈ i.labels := by
  simp [contains, labels]

/-! ## Indexes of lists -/

theorem ofLabels_append_singleton (labels : List String) (label : String) :
    ofLabels (labels ++ [label]) = (ofLabels labels).add label labels.length := by
  simp [ofLabels, List.zipIdx_append]

/-- The positions of a label are those at which it stands, ascending. -/
theorem find_ofLabels (labels : List String) (label : String) :
    (ofLabels labels).find label
      = (labels.zipIdx.filter fun e => e.1 = label).map Prod.snd := by
  have hfold : ∀ (es : List (String × Nat)) (i : LabelIndex),
      (es.foldl (fun i e => i.add e.1 e.2) i).find label
        = i.find label ++ (es.filter fun e => e.1 = label).map Prod.snd := by
    intro es
    induction es with
    | nil => simp
    | cons e rest ih =>
      intro i
      rw [List.foldl_cons, ih, find_add]
      by_cases h : e.1 = label <;> simp [h]
  exact hfold labels.zipIdx empty

/-- The positions of a label are ascending. -/
theorem pairwise_find_ofLabels (labels : List String) (label : String) :
    ((ofLabels labels).find label).Pairwise (· < ·) := by
  rw [find_ofLabels]
  refine List.Pairwise.sublist (List.filter_sublist.map Prod.snd) ?_
  rw [List.zipIdx_map_snd, ← List.range_eq_range']
  exact List.pairwise_lt_range

/-- The labels of an index are those of its list. -/
theorem mem_labels_ofLabels {labels : List String} {label : String} :
    label ∈ (ofLabels labels).labels ↔ label ∈ labels := by
  have hfold : ∀ (es : List (String × Nat)) (i : LabelIndex),
      label ∈ (es.foldl (fun i e => i.add e.1 e.2) i).labels
        ↔ label ∈ i.labels ∨ label ∈ es.map Prod.fst := by
    intro es
    induction es with
    | nil => simp
    | cons e rest ih =>
      intro i
      rw [List.foldl_cons, ih, mem_labels_add, List.map_cons, List.mem_cons, or_assoc]
      exact or_left_comm
  rw [ofLabels, hfold, List.zipIdx_map_fst]
  simp [LabelIndex.labels, empty]

end LabelIndex

end GraphDependency
