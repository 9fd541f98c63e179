import GraphDependency.Candidate.Order
import GraphDependency.Proofs.Pattern.Core
import GraphDependency.Proofs.Pattern.Tree

set_option autoImplicit false

/-!
# What a matching order lists

Whatever the scores are, paths are placed from the top, so a vertex never comes
before its parent in the tree.  A list of this kind that contains a vertex contains
all vertices above it; so it is enough that the ends of all paths are placed.

Main statement: `matchingOrder_complete`, the order of a connected pattern lists
every vertex once, parents first, and the core within its first part.
-/

namespace GraphDependency.Candidate

open GraphDependency.Graph GraphDependency.Pattern

/-! ## Parents first -/

/-- Every vertex of a list has its parent in front of it, in the list or before. -/
def ParentsFirst (t : Tree) : List Nat → List Nat → Prop
  | _, [] => True
  | before, u :: rest =>
    (∀ p, t.parent? u = some p → p ∈ before) ∧ ParentsFirst t (u :: before) rest

/-- A vertex is on the way up from another one. -/
inductive Above (t : Tree) (a : Nat) : Nat → Prop
  | self : Above t a a
  | step {u p : Nat} (hp : t.parent? u = some p) (h : Above t a p) : Above t a u

variable {t : Tree} {before before' xs ys : List Nat} {u v w : Nat}

theorem Above.trans (h : Above t u v) (h' : Above t v w) : Above t u w := by
  induction h' with
  | self => exact h
  | step hp _ ih => exact Above.step hp ih

theorem ParentsFirst.of_subset (h : ParentsFirst t before xs) (hsub : ∀ w ∈ before, w ∈ before') :
    ParentsFirst t before' xs := by
  induction xs generalizing before before' with
  | nil => trivial
  | cons u rest ih =>
    refine ⟨fun p hp => hsub p (h.1 p hp), ih h.2 ?_⟩
    intro w hw
    rcases List.mem_cons.mp hw with rfl | hw
    · exact List.mem_cons_self
    · exact List.mem_cons_of_mem _ (hsub w hw)

theorem parentsFirst_append :
    ParentsFirst t before (xs ++ ys)
      ↔ ParentsFirst t before xs ∧ ParentsFirst t (xs ++ before) ys := by
  induction xs generalizing before with
  | nil => simp [ParentsFirst]
  | cons u rest ih =>
    rw [List.cons_append, ParentsFirst, ParentsFirst, ih, and_assoc, List.cons_append]
    have hcomm : ParentsFirst t (rest ++ u :: before) ys
        ↔ ParentsFirst t (u :: (rest ++ before)) ys :=
      ⟨fun h => h.of_subset fun w hw => List.perm_middle.mem_iff.mp hw,
        fun h => h.of_subset fun w hw => List.perm_middle.mem_iff.mpr hw⟩
    rw [hcomm]

theorem ParentsFirst.parent_mem {front back : List Nat} {p : Nat}
    (h : ParentsFirst t [] (front ++ u :: back)) (hp : t.parent? u = some p) : p ∈ front := by
  have hmem := (parentsFirst_append.mp h).2.1 p hp
  rwa [List.append_nil] at hmem

/-- With a vertex, a list that has parents first contains all vertices above it. -/
theorem ParentsFirst.mem_of_above (h : ParentsFirst t [] xs) (ha : Above t w u) (hu : u ∈ xs) :
    w ∈ xs := by
  induction ha with
  | self => exact hu
  | @step u p hp _ ih =>
    obtain ⟨front, back, rfl⟩ := List.append_of_mem hu
    exact ih (List.mem_append_left _ (h.parent_mem hp))

/-! ## Paths -/

theorem mem_climb_self (t : Tree) (top height u : Nat) : u ∈ climb t top height u := by
  cases height with
  | zero => exact List.mem_singleton_self u
  | succ height =>
    rw [climb]
    split
    · exact List.mem_singleton_self u
    · split
      · exact List.mem_singleton_self u
      · exact List.mem_cons_self

/-- What holds of a vertex and of the parents of vertices of which it holds, holds all the
way up. -/
theorem of_mem_climb {P : Nat → Prop} (hP : ∀ u p, t.parent? u = some p → P u → P p)
    {top height : Nat} (hu : P u) (h : w ∈ climb t top height u) : P w := by
  induction height generalizing u with
  | zero => rwa [List.mem_singleton.mp h]
  | succ height ih =>
    rw [climb] at h
    split at h
    · rwa [List.mem_singleton.mp h]
    · split at h
      · rwa [List.mem_singleton.mp h]
      · rename_i p hp
        rcases List.mem_cons.mp h with rfl | h
        · exact hu
        · exact ih (hP u p hp hu) h

section Tree

variable {g : Graph} {root : Nat} (ht : Tree.build? g root = some t)

include ht

theorem lt_size_of_mem_climb {top height : Nat} (hu : u < g.size)
    (h : w ∈ climb t top height u) : w < g.size :=
  of_mem_climb (P := (· < g.size)) (fun _ _ hp _ => (Tree.parent?_lt_size ht hp).1) hu h

/-- A path hangs on what is placed if its top does. -/
theorem parentsFirst_climb {top height d : Nat} (hd : g.AtDistance (· < g.size) root d u)
    (hle : d ≤ height) (htop : ∀ p, t.parent? top = some p → p ∈ before) :
    ParentsFirst t before (climb t top height u).reverse := by
  induction height generalizing u d with
  | zero =>
    obtain rfl := Nat.le_zero.mp hle
    obtain rfl := atDistance_zero_iff.mp hd
    refine ⟨fun p hp => ?_, trivial⟩
    rw [Tree.parent?_root ht] at hp
    cases hp
  | succ height ih =>
    rw [climb]
    split
    · rename_i heq
      exact ⟨heq ▸ htop, trivial⟩
    · split
      · rename_i hnone
        refine ⟨fun p hp => ?_, trivial⟩
        rw [hnone] at hp
        cases hp
      · rename_i p hp
        obtain ⟨-, e, hpe, hue⟩ := Tree.parent?_eq_some ht hp
        have heq := hue.unique hd
        rw [List.reverse_cons, parentsFirst_append]
        refine ⟨ih hpe (by omega), fun q hq => ?_, trivial⟩
        obtain rfl : p = q := Option.some.inj (hp.symm.trans hq)
        exact List.mem_append_left _ (List.mem_reverse.mpr (mem_climb_self t top height p))

theorem lt_length_levels {d : Nat} (hd : g.AtDistance (· < g.size) root d u) :
    d < t.levels.length := by
  obtain ⟨level, hl, -⟩ := (Tree.mem_levels_iff ht).mpr hd
  exact (List.getElem?_eq_some_iff.mp hl).1

variable (hconn : g.isConnected = true)

include hconn

theorem exists_atDistance_root (hu : u < g.size) : ∃ d, g.AtDistance (· < g.size) root d u := by
  obtain ⟨n, hn⟩ := isConnected_iff.mp hconn root (Tree.root_lt ht) u hu
  obtain ⟨d, -, hd⟩ := Walk.exists_atDistance hn
  exact ⟨d, hd⟩

/-- The root is above every vertex. -/
theorem above_root (hu : u < g.size) : Above t root u := by
  obtain ⟨d, hd⟩ := exists_atDistance_root ht hconn hu
  induction d generalizing u with
  | zero =>
    obtain rfl := atDistance_zero_iff.mp hd
    exact Above.self
  | succ d ih =>
    obtain ⟨p, hp⟩ := Tree.exists_parent? ht hd
    obtain ⟨-, e, hpe, hue⟩ := Tree.parent?_eq_some ht hp
    obtain rfl := Nat.succ.inj (hue.unique hd)
    exact Above.step hp (ih (Tree.parent?_lt_size ht hp).1 hpe)

/-- A member that is not above the top is above the end of some path. -/
theorem exists_end_below {members : List Nat} (top : Nat) (hlt : ∀ w ∈ members, w < g.size)
    (hu : u ∈ members) :
    Above t u top ∨ ∃ path ∈ treePaths t members top, ∃ leaf ∈ path, Above t u leaf := by
  obtain ⟨d, hd⟩ := exists_atDistance_root ht hconn (hlt u hu)
  -- Down the tree the distance grows, and the number of levels bounds it.
  obtain ⟨k, hk⟩ : ∃ k, k + d = t.levels.length :=
    ⟨_, Nat.sub_add_cancel (Nat.le_of_lt (lt_length_levels ht hd))⟩
  induction k generalizing u d with
  | zero =>
    have := lt_length_levels ht hd
    omega
  | succ k ih =>
    by_cases htop : u = top
    · exact Or.inl (htop ▸ Above.self)
    · by_cases hany : (t.children u).any members.contains = true
      · obtain ⟨c, hc, hmem⟩ := List.any_eq_true.mp hany
        have hp := (Tree.mem_children_iff ht).mp hc
        obtain ⟨-, e, hue, hce⟩ := Tree.parent?_eq_some ht hp
        obtain rfl := hue.unique hd
        have hchild : Above t u c := Above.step hp Above.self
        rcases ih (by simpa using hmem) (e + 1) hce (by omega) with h | ⟨path, hpath, leaf, hl, h⟩
        · exact Or.inl (hchild.trans h)
        · exact Or.inr ⟨path, hpath, leaf, hl, hchild.trans h⟩
      · refine Or.inr ⟨_, List.mem_map_of_mem (List.mem_filter.mpr ⟨hu, ?_⟩), u, ?_, Above.self⟩
        · rw [Bool.and_eq_true, bne_iff_ne, Bool.not_eq_true']
          exact ⟨htop, Bool.eq_false_iff.mpr hany⟩
        · exact List.mem_reverse.mpr (mem_climb_self t top _ u)

/-- What holds of all paths to the ends of a set of members. -/
theorem of_mem_treePaths {members path : List Nat} {top : Nat} (hlt : ∀ w ∈ members, w < g.size)
    (htop : ∀ p, t.parent? top = some p → p ∈ before) (h : path ∈ treePaths t members top) :
    ParentsFirst t before path ∧ ∀ w ∈ path, w < g.size := by
  obtain ⟨leaf, hleaf, rfl⟩ := List.mem_map.mp h
  have hlt := hlt leaf (List.mem_of_mem_filter hleaf)
  obtain ⟨d, hd⟩ := exists_atDistance_root ht hconn hlt
  refine ⟨parentsFirst_climb ht hd (Nat.le_of_lt (lt_length_levels ht hd)) htop, ?_⟩
  intro w hw
  exact lt_size_of_mem_climb ht hlt (List.mem_reverse.mp hw)

end Tree

/-! ## Placing -/

/-- A list of placed vertices that can go on growing. -/
structure Grown (t : Tree) (placed : List Nat) : Prop where
  nodup : placed.Nodup
  parents_first : ParentsFirst t [] placed
  lt_size : ∀ u ∈ placed, u < t.pattern.size

variable {placed path : List Nat} {i : Index}

theorem Grown.snoc (h : Grown t placed) (hnew : u ∉ placed) (hu : u < t.pattern.size)
    (hp : ∀ p, t.parent? u = some p → p ∈ placed) : Grown t (placed ++ [u]) where
  nodup := List.nodup_append.mpr ⟨h.nodup, List.nodup_singleton u, by
    intro a ha b hb heq
    rw [List.mem_singleton.mp hb] at heq
    exact hnew (heq ▸ ha)⟩
  parents_first := parentsFirst_append.mpr
    ⟨h.parents_first, fun p hpu => by rw [List.append_nil]; exact hp p hpu, trivial⟩
  lt_size := by
    intro w hw
    rcases List.mem_append.mp hw with hw | hw
    · exact h.lt_size w hw
    · rwa [List.mem_singleton.mp hw]

theorem placePath_cons (placed : List Nat) (u : Nat) (path : List Nat) :
    placePath placed (u :: path)
      = placePath (if placed.contains u then placed else placed ++ [u]) path := rfl

theorem isPrefix_placePath (placed path : List Nat) : placed <+: placePath placed path := by
  induction path generalizing placed with
  | nil => exact List.prefix_rfl
  | cons u path ih =>
    rw [placePath_cons]
    split
    · exact ih placed
    · exact (List.prefix_append _ _).trans (ih _)

theorem Grown.placePath (h : Grown t placed) (hfirst : ParentsFirst t placed path)
    (hlt : ∀ u ∈ path, u < t.pattern.size) : Grown t (placePath placed path) := by
  induction path generalizing placed with
  | nil => exact h
  | cons u path ih =>
    obtain ⟨hu, hlt⟩ := List.forall_mem_cons.mp hlt
    rw [placePath_cons]
    split
    · rename_i hmem
      refine ih h (hfirst.2.of_subset fun w hw => ?_) hlt
      rcases List.mem_cons.mp hw with rfl | hw
      · simpa using hmem
      · exact hw
    · rename_i hnew
      refine ih (h.snoc (by simpa using hnew) hu hfirst.1) (hfirst.2.of_subset fun w hw => ?_) hlt
      exact List.mem_append.mpr ((List.mem_cons.mp hw).symm.imp id List.mem_singleton.mpr)

theorem lowest?_eq_none_iff {score : List Nat → Float} {paths : List (List Nat)} :
    lowest? score paths = none ↔ paths = [] := by
  rw [lowest?, Option.map_eq_none_iff, firstBest?_eq_none_iff, List.map_eq_nil_iff]

theorem isPrefix_placeRest (i : Index) (placed : List Nat) (paths : List (List Nat)) :
    placed <+: placeRest i placed paths := by
  fun_induction placeRest i placed paths with
  | case1 => exact List.prefix_rfl
  | case2 placed _ path _ _ ih => exact (isPrefix_placePath placed path).trans ih

/-- Nothing but the paths is placed. -/
theorem of_mem_placeRest {paths : List (List Nat)} (h : u ∈ placeRest i placed paths) :
    u ∈ placed ∨ ∃ path ∈ paths, u ∈ path := by
  fun_induction placeRest i placed paths with
  | case1 => exact Or.inl h
  | case2 placed paths first hlow _ ih =>
    rcases ih h with h | ⟨path, hpath, hu⟩
    · rcases mem_placePath_iff.mp h with h | h
      · exact Or.inl h
      · exact Or.inr ⟨first, mem_of_lowest? hlow, h⟩
    · exact Or.inr ⟨path, List.mem_of_mem_erase hpath, hu⟩

theorem mem_placeRest {paths : List (List Nat)} (hpath : path ∈ paths) (hu : u ∈ path) :
    u ∈ placeRest i placed paths := by
  fun_induction placeRest i placed paths with
  | case1 placed paths h =>
    rw [lowest?_eq_none_iff.mp h] at hpath
    cases hpath
  | case2 placed paths first h _ ih =>
    by_cases heq : path = first
    · exact (isPrefix_placeRest i _ _).subset (mem_placePath_iff.mpr (Or.inr (heq ▸ hu)))
    · exact ih ((List.mem_erase_of_ne heq).mpr hpath)

/-- All paths are placed, the first one before the others. -/
theorem mem_placeRest_erase {paths : List (List Nat)} (first : List Nat) (hpath : path ∈ paths)
    (hu : u ∈ path) : u ∈ placeRest i (placePath placed first) (paths.erase first) := by
  by_cases heq : path = first
  · exact (isPrefix_placeRest i _ _).subset (mem_placePath_iff.mpr (Or.inr (heq ▸ hu)))
  · exact mem_placeRest ((List.mem_erase_of_ne heq).mpr hpath) hu

theorem Grown.placeRest {paths : List (List Nat)} (h : Grown t placed)
    (hfirst : ∀ path ∈ paths, ParentsFirst t placed path ∧ ∀ u ∈ path, u < t.pattern.size) :
    Grown t (placeRest i placed paths) := by
  fun_induction Candidate.placeRest i placed paths with
  | case1 => exact h
  | case2 placed paths first hlow _ ih =>
    have hin := hfirst first (mem_of_lowest? hlow)
    refine ih (h.placePath hin.1 hin.2) ?_
    intro path hpath
    have hother := hfirst path (List.mem_of_mem_erase hpath)
    exact ⟨hother.1.of_subset (isPrefix_placePath placed first).subset, hother.2⟩

/-! ## The order -/

/-- The order lists every vertex of the pattern once, parents first, and the core in
its first part. -/
structure Order.Complete (t : Tree) (d : Decomposition) (order : Order) : Prop where
  grown : Grown t order.sequence
  mem : ∀ u < t.pattern.size, u ∈ order.sequence
  coreLength_le : order.coreLength ≤ order.sequence.length
  core : ∀ u ∈ d.core, u ∈ order.sequence.take order.coreLength

variable (ht : Tree.build? t.pattern t.root = some t) (hconn : t.pattern.isConnected = true)

include ht hconn

theorem grown_placeCore {core : List Nat} (i : Index) (hlt : ∀ u ∈ core, u < t.pattern.size) :
    Grown t (placeCore i t (treePaths t core t.root))
      ∧ (∀ u ∈ core, u ∈ placeCore i t (treePaths t core t.root)) := by
  have hnone : ∀ (before : List Nat) (p : Nat), t.parent? t.root = some p → p ∈ before := by
    intro before p hp
    rw [Tree.parent?_root ht] at hp
    cases hp
  have hpaths : ∀ before, ∀ path ∈ treePaths t core t.root,
      ParentsFirst t before path ∧ ∀ w ∈ path, w < t.pattern.size :=
    fun before _ hpath => of_mem_treePaths ht hconn hlt (hnone before) hpath
  have hempty : Grown t [] := ⟨List.nodup_nil, trivial, by simp⟩
  unfold placeCore
  split
  · rename_i hlow
    refine ⟨hempty.snoc List.not_mem_nil (Tree.root_lt ht) (hnone []), ?_⟩
    intro u hu
    rcases exists_end_below ht hconn t.root hlt hu with h | ⟨path, hpath, -⟩
    · cases h with
      | self => exact List.mem_singleton_self _
      | step hp => exact absurd hp (by rw [Tree.parent?_root ht]; simp)
    · rw [lowest?_eq_none_iff.mp hlow] at hpath
      cases hpath
  · rename_i first hlow
    have hfirst := hpaths [] first (mem_of_lowest? hlow)
    have hgrown : Grown t
        (placeRest i (placePath [] first) ((treePaths t core t.root).erase first)) :=
      (hempty.placePath hfirst.1 hfirst.2).placeRest fun path hpath =>
        hpaths _ path (List.mem_of_mem_erase hpath)
    refine ⟨hgrown, ?_⟩
    intro u hu
    rcases exists_end_below ht hconn t.root hlt hu with h | ⟨path, hpath, leaf, hl, h⟩
    · -- The root is above the ends of all paths.
      obtain ⟨leaf, -, heq⟩ := List.mem_map.mp (mem_of_lowest? hlow)
      have hleaf : leaf ∈ first := heq ▸ List.mem_reverse.mpr (mem_climb_self t _ _ leaf)
      have hroot := above_root ht hconn (hfirst.2 leaf hleaf)
      exact hgrown.parents_first.mem_of_above (h.trans hroot)
        (mem_placeRest_erase first (mem_of_lowest? hlow) hleaf)
    · exact hgrown.parents_first.mem_of_above h (mem_placeRest_erase first hpath hl)

theorem grown_placeEntry {d : Decomposition} {entry : List Nat} (i : Index)
    (hmarked : d.Marked) (h : Grown t placed) (hcore : ∀ u ∈ d.core, u ∈ placed)
    (hlt : ∀ u ∈ entry, u < t.pattern.size) :
    Grown t (placeEntry i t d placed entry)
      ∧ placed <+: placeEntry i t d placed entry
      ∧ ((∃ c ∈ entry, c ∈ d.core) → ∀ u ∈ entry, u ∈ placeEntry i t d placed entry) := by
  unfold placeEntry
  split
  · rename_i hnone
    refine ⟨h, List.prefix_rfl, fun ⟨c, hc, hin⟩ => ?_⟩
    exact absurd ((hmarked c).mpr hin) (List.find?_eq_none.mp hnone c hc)
  · rename_i top htop
    have hplaced : top ∈ placed := hcore top ((hmarked top).mp (List.find?_some htop))
    have hparent : ∀ p, t.parent? top = some p → p ∈ placed := fun p hp =>
      h.parents_first.mem_of_above (Above.step hp Above.self) hplaced
    have hgrown : Grown t (placeRest i placed (treePaths t entry top)) :=
      h.placeRest fun path hpath => of_mem_treePaths ht hconn hlt hparent hpath
    have hfront := isPrefix_placeRest i placed (treePaths t entry top)
    refine ⟨hgrown, hfront, ?_⟩
    intro _ u hu
    rcases exists_end_below ht hconn top hlt hu with h | ⟨path, hpath, leaf, hl, h⟩
    · exact hgrown.parents_first.mem_of_above h (hfront.subset hplaced)
    · exact hgrown.parents_first.mem_of_above h (mem_placeRest hpath hl)

theorem grown_foldl_placeEntry {d : Decomposition} {forest : List (List Nat)} (i : Index)
    (hmarked : d.Marked) (h : Grown t placed) (hcore : ∀ u ∈ d.core, u ∈ placed)
    (hlt : ∀ entry ∈ forest, ∀ u ∈ entry, u < t.pattern.size) :
    Grown t (forest.foldl (placeEntry i t d) placed)
      ∧ placed <+: forest.foldl (placeEntry i t d) placed
      ∧ ∀ entry ∈ forest, (∃ c ∈ entry, c ∈ d.core) →
          ∀ u ∈ entry, u ∈ forest.foldl (placeEntry i t d) placed := by
  induction forest generalizing placed with
  | nil => exact ⟨h, List.prefix_rfl, by simp⟩
  | cons entry forest ih =>
    obtain ⟨hentry, hlt⟩ := List.forall_mem_cons.mp hlt
    obtain ⟨hgrown, hfront, hmem⟩ := grown_placeEntry ht hconn i hmarked h hcore hentry
    obtain ⟨hgrown', hfront', hmem'⟩ :=
      ih hgrown (fun u hu => hfront.subset (hcore u hu)) hlt
    refine ⟨hgrown', hfront.trans hfront', List.forall_mem_cons.mpr ⟨?_, hmem'⟩⟩
    exact fun hc u hu => hfront'.subset (hmem hc u hu)

/-- The matching order of a connected pattern lists what it should. -/
theorem matchingOrder_complete (i : Index) :
    (matchingOrder t (decompose t.pattern) i).Complete t (decompose t.pattern) := by
  have hcorelt : ∀ u ∈ (decompose t.pattern).core, u < t.pattern.size := fun u hu =>
    mem_core_lt hu
  have hforestlt : ∀ entry ∈ (decompose t.pattern).forest, ∀ u ∈ entry, u < t.pattern.size :=
    fun entry he u hu => mem_forest_lt he hu
  obtain ⟨hgrown, hcore⟩ := grown_placeCore ht hconn i hcorelt
  obtain ⟨hgrown', hfront, hforest⟩ :=
    grown_foldl_placeEntry ht hconn i (marked_decompose t.pattern) hgrown hcore hforestlt
  refine ⟨hgrown', fun u hu => ?_, hfront.length_le, fun u hu => ?_⟩
  · by_cases hin : u ∈ (decompose t.pattern).core
    · exact hfront.subset (hcore u hin)
    · obtain ⟨entry, he, hue, hc⟩ := exists_mem_forest hconn hu hin
      exact hforest entry he hc u hue
  · rw [matchingOrder]
    simp only
    rw [← List.prefix_iff_eq_take.mp hfront]
    exact hcore u hu

end GraphDependency.Candidate
