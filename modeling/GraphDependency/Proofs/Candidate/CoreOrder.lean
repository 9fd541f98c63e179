import GraphDependency.Proofs.Candidate.Building
import GraphDependency.Proofs.Candidate.Order
import GraphDependency.Proofs.Pattern.Peeling

set_option autoImplicit false

/-!
# The first part of a matching order

Seen from a root in the core, the trees hang below the core: a vertex that is peeled off
has one neighbor left, which is its parent, so none of its children is left.  The way up
from a core vertex therefore stays in the core, the edges that are left out of the tree are
in the core, and the paths of the core place core vertices only.  Where there is a forest,
they leave something to be placed.

Main statements: `onTop_core`, `mem_core_of_mem_placeCore` and `coreLength_lt_iff`.
-/

namespace GraphDependency.Candidate

open GraphDependency.Graph GraphDependency.Pattern

variable {t : Tree} {rest : List Nat} {u x : Nat} {i : Index}

/-- Seen from the root, what is left is on top: it contains the parents of its vertices, and
an edge with an end that is not left is one of the tree. -/
structure OnTop (t : Tree) (rest : List Nat) : Prop where
  closed : Index.Closed t rest
  isTreeEdge : ∀ u w, w ∈ t.pattern.neighbors u → ¬ (u ∈ rest ∧ w ∈ rest) →
    t.isTreeEdge u w = true

section Core

variable (ht : Tree.build? t.pattern t.root = some t) (hconn : t.pattern.isConnected = true)

include ht hconn

/-- A vertex with one neighbor left that is not the root has its parent left and no child. -/
theorem OnTop.erase (h : OnTop t rest) (hnodup : rest.Nodup) (hx : x ∈ rest)
    (hdegree : remainingDegree t.pattern rest x = 1) (hroot : x ≠ t.root) :
    OnTop t (rest.erase x) := by
  obtain ⟨y, hy, -, honly⟩ := exists_only_neighbor hdegree
  obtain ⟨q, hq⟩ : ∃ q, t.parent? x = some q := by
    have hlt := lt_size_of_mem_neighbors _ ((mem_neighbors_comm _).mp hy)
    rw [← Option.isSome_iff_exists, Option.isSome_iff_ne_none]
    exact fun hnone => hroot ((Tree.parent?_eq_none_iff ht hconn hlt).mp hnone)
  have hqy : q = y := honly q (Tree.parent?_eq_some ht hq).1 (h.closed x hx q hq)
  have hparent : ∀ w ∈ t.pattern.neighbors x, w ∈ rest → t.parent? x = some w :=
    fun w hw hwr => hq.trans (congrArg some (hqy.trans (honly w hw hwr).symm))
  refine ⟨fun w hw p hp => ?_, fun u w hw hout => ?_⟩
  · have hwr := List.mem_of_mem_erase hw
    refine hnodup.mem_erase_iff.mpr ⟨fun hpx => ?_, h.closed w hwr p hp⟩
    obtain ⟨hpw, d, hd, hsucc⟩ := Tree.parent?_eq_some ht hp
    rw [hpx] at hpw hd
    refine Tree.parent?_ne_some ht (Nat.le_succ d) hd hsucc ?_
    exact hparent w ((mem_neighbors_comm _).mp hpw) hwr
  · rw [Tree.isTreeEdge_iff]
    obtain hout | ⟨rfl, hwr⟩ | ⟨rfl, hur⟩ := of_not_mem_erase hnodup hout
    · exact Tree.isTreeEdge_iff.mp (h.isTreeEdge u w hw hout)
    · exact Or.inl (hparent w hw hwr)
    · exact Or.inr (hparent u ((mem_neighbors_comm _).mp hw) hur)

/-- Seen from a root in the core, the core is on top. -/
theorem onTop_core (hroot : t.root ∈ (decompose t.pattern).core) :
    OnTop t (decompose t.pattern).core := by
  have hids : OnTop t t.pattern.ids := by
    refine ⟨fun _ _ _ hp => (mem_ids _).mpr (Tree.parent?_lt_size ht hp).1, ?_⟩
    exact fun u w hw hout => absurd (mem_ids_of_mem_neighbors hw) hout
  unfold decompose at hroot ⊢
  split
  · exact hids
  · rename_i htree
    rw [if_neg htree] at hroot
    simp only [cyclicCore_eq_peel] at hroot ⊢
    refine peel_induction (nodup_ids _) hids fun rest x hnodup hx hdegree hgone h => ?_
    exact h.erase ht hconn hnodup hx hdegree fun heq => hgone (heq ▸ hroot)

/-- The paths of the core place core vertices only. -/
theorem mem_core_of_mem_placeCore (hroot : t.root ∈ (decompose t.pattern).core)
    (h : u ∈ placeCore i t (treePaths t (decompose t.pattern).core t.root)) :
    u ∈ (decompose t.pattern).core := by
  have hpath : ∀ path ∈ treePaths t (decompose t.pattern).core t.root, ∀ w ∈ path,
      w ∈ (decompose t.pattern).core := by
    intro path hpath w hw
    obtain ⟨leaf, hleaf, rfl⟩ := List.mem_map.mp hpath
    exact of_mem_climb (fun u p hp hu => (onTop_core ht hconn hroot).closed u hu p hp)
      (List.mem_of_mem_filter hleaf) (List.mem_reverse.mp hw)
  unfold placeCore at h
  split at h
  · rwa [List.mem_singleton.mp h]
  · rename_i first hlow
    rcases of_mem_placeRest h with h | ⟨path, hmem, hu⟩
    · rcases mem_placePath_iff.mp h with h | h
      · cases h
      · exact hpath first (mem_of_lowest? hlow) u h
    · exact hpath path (List.mem_of_mem_erase hmem) u hu

/-- The order goes on behind the core exactly if there is a forest. -/
theorem coreLength_lt_iff (hroot : t.root ∈ (decompose t.pattern).core) (i : Index) :
    (matchingOrder t (decompose t.pattern) i).coreLength
        < (matchingOrder t (decompose t.pattern) i).sequence.length
      ↔ (decompose t.pattern).forest ≠ [] := by
  constructor
  · intro hlt hnil
    simp [matchingOrder, hnil] at hlt
  · intro hforest
    obtain ⟨u, hu, hout⟩ := exists_not_mem_core hforest
    obtain ⟨hgrown, -⟩ := grown_placeCore ht hconn i fun w hw => mem_core_lt (g := t.pattern) hw
    have hcomplete := matchingOrder_complete ht hconn i
    have hnew : u ∉ placeCore i t (treePaths t (decompose t.pattern).core t.root) := fun h =>
      hout (mem_core_of_mem_placeCore ht hconn hroot h)
    have hsub : u :: placeCore i t (treePaths t (decompose t.pattern).core t.root)
        ⊆ (matchingOrder t (decompose t.pattern) i).sequence := fun w hw => by
      rcases List.mem_cons.mp hw with rfl | hw
      · exact hcomplete.mem w hu
      · exact hcomplete.mem w (hgrown.lt_size w hw)
    exact ((List.nodup_cons.mpr ⟨hnew, hgrown.nodup⟩).subperm hsub).length_le

end Core

end GraphDependency.Candidate
