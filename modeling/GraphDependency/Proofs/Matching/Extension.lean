import GraphDependency.Matching.Search
import Mathlib.Data.List.Lex
import Mathlib.Data.List.Nodup

set_option autoImplicit false

/-!
# Extensions of a placement

Both searches place the vertices of a list of steps one after the other, each at
the data vertices that are offered for it behind the ones before.  What they visit
is a list of placements that depends on the steps and the offers alone; the
visitor only decides how much of it is seen.

Main statements: `visitAll_flatMap` and `visitAll_map` (searching is visiting the
extensions in order), `of_mem_extensions` (what every step preserves holds at the
end), `mem_extensions` (a map all of whose images are offered is found) and
`pairwise_extensions` (ascending offers give ascending extensions).
-/

namespace GraphDependency

/-! ## Visiting -/

section Visiting

variable {α β σ : Type}

theorem visitAll_flatMap (visit : σ → β → ForInStep σ) (f : α → List β) (state : σ)
    (xs : List α) :
    visitAll visit state (xs.flatMap f)
      = visitAll (fun s x => visitAll visit s (f x)) state xs := by
  induction xs generalizing state with
  | nil => rfl
  | cons x rest ih =>
    rw [List.flatMap_cons, visitAll_append, visitAll]
    cases visitAll visit state (f x) with
    | done s => rfl
    | yield s => exact ih s

theorem visitAll_map (visit : σ → β → ForInStep σ) (f : α → β) (state : σ) (xs : List α) :
    visitAll visit state (xs.map f) = visitAll (fun s x => visit s (f x)) state xs := by
  induction xs generalizing state with
  | nil => rfl
  | cons x rest ih =>
    rw [List.map_cons, visitAll, visitAll]
    cases visit state (f x) with
    | done s => rfl
    | yield s => exact ih s

theorem visitAll_singleton (visit : σ → α → ForInStep σ) (state : σ) (x : α) :
    visitAll visit state [x] = visit state x := by
  rw [visitAll]
  cases visit state x <;> rfl

/-- A visit that goes on to the end goes on at every member. -/
theorem visitAll_cons_eq_yield_iff {visit : σ → α → ForInStep σ} {state final : σ} {x : α}
    {rest : List α} :
    visitAll visit state (x :: rest) = .yield final
      ↔ ∃ mid, visit state x = .yield mid ∧ visitAll visit mid rest = .yield final := by
  rw [visitAll]
  cases visit state x with
  | done s => simp
  | yield s => simp

/-- The visit has come to an end before the list has. -/
def halts : ForInStep σ → Bool
  | .done _ => true
  | .yield _ => false

/-- A visitor that stops because of what it visits stops if there is such a thing. -/
theorem halts_visitAll {visit : σ → α → ForInStep σ} {stop : α → Bool} {xs : List α}
    (h : ∀ state, ∀ x ∈ xs, halts (visit state x) = stop x) (state : σ) :
    halts (visitAll visit state xs) = xs.any stop := by
  induction xs generalizing state with
  | nil => rfl
  | cons x rest ih =>
    obtain ⟨hx, hrest⟩ : (∀ state, halts (visit state x) = stop x)
        ∧ ∀ state, ∀ y ∈ rest, halts (visit state y) = stop y :=
      ⟨fun s => h s x List.mem_cons_self, fun s y hy => h s y (List.mem_cons_of_mem x hy)⟩
    rw [visitAll, List.any_cons, ← hx state]
    cases visit state x with
    | done s => rfl
    | yield s => exact ih hrest s

end Visiting

namespace Matching.Placement

/-! ## Looking up images -/

/-- The placed vertices, the last one first. -/
def keys (p : Placement) : List Nat := p.map Prod.fst

/-- The data vertices taken, the last one first. -/
def images (p : Placement) : List Nat := p.map Prod.snd

@[simp] theorem keys_cons (u v : Nat) (p : Placement) : keys ((u, v) :: p) = u :: keys p := rfl

@[simp] theorem image_cons (u v w : Nat) (p : Placement) :
    image ((u, v) :: p) w = if u = w then v else image p w := by
  by_cases h : u = w <;> simp [image, h]

theorem image_of_mem {p : Placement} (hnodup : p.keys.Nodup) {u v : Nat} (h : (u, v) ∈ p) :
    p.image u = v := by
  induction p with
  | nil => simp at h
  | cons e p ih =>
    obtain ⟨w, x⟩ := e
    rw [keys_cons, List.nodup_cons] at hnodup
    rw [image_cons]
    rcases List.mem_cons.mp h with heq | hmem
    · cases heq
      rw [if_pos rfl]
    · have hu : u ∈ keys p := List.mem_map.mpr ⟨_, hmem, rfl⟩
      rw [if_neg fun hw : w = u => hnodup.1 (hw ▸ hu)]
      exact ih hnodup.2 hmem

theorem mem_of_mem_keys {p : Placement} (hnodup : p.keys.Nodup) {u : Nat} (h : u ∈ p.keys) :
    (u, p.image u) ∈ p := by
  obtain ⟨⟨w, v⟩, he, rfl⟩ := List.mem_map.mp h
  rwa [image_of_mem hnodup he]

theorem uses_eq_false_iff {p : Placement} {v : Nat} : p.uses v = false ↔ v ∉ p.images := by
  rw [← Bool.not_eq_true, uses, List.any_eq_true, images, List.mem_map]
  simp

/-- A placement is known from its keys and a map that agrees with it. -/
theorem eq_map_keys {p : Placement} {f : Nat → Nat} (h : ∀ e ∈ p, f e.1 = e.2) :
    p = (keys p).map fun u => (u, f u) := by
  induction p with
  | nil => rfl
  | cons e p ih =>
    obtain ⟨u, v⟩ := e
    rw [keys_cons, List.map_cons, ← ih fun e he => h e (List.mem_cons_of_mem _ he)]
    have hv : f u = v := h (u, v) List.mem_cons_self
    rw [hv]

/-- The data vertices taken, in the order in which they were taken. -/
def trail (p : Placement) : List Nat := p.images.reverse

/-! ## Extensions -/

section Extensions

variable {α : Type} (key : α → Nat) (offers : Placement → α → List Nat)

/-- The ways to place the keys of some steps behind a placement, in the order in
which a search meets them. -/
def extensions : List α → Placement → List Placement
  | [], p => [p]
  | s :: rest, p => (offers p s).flatMap fun v => extensions rest ((key s, v) :: p)

variable {key offers} {steps : List α} {p p' : Placement}

/-- The extensions have the keys of the steps in front of those of the placement. -/
theorem keys_of_mem_extensions (h : p' ∈ extensions key offers steps p) :
    p'.keys = (steps.map key).reverse ++ p.keys := by
  induction steps generalizing p with
  | nil =>
    rw [List.mem_singleton.mp h]
    rfl
  | cons s rest ih =>
    obtain ⟨v, -, hv⟩ := List.mem_flatMap.mp h
    rw [ih hv]
    simp

/-- The images taken before are still there. -/
theorem suffix_of_mem_extensions (h : p' ∈ extensions key offers steps p) : p <:+ p' := by
  induction steps generalizing p with
  | nil =>
    obtain rfl := List.mem_singleton.mp h
    exact List.suffix_rfl
  | cons s rest ih =>
    obtain ⟨v, -, hv⟩ := List.mem_flatMap.mp h
    exact (List.suffix_cons _ _).trans (ih hv)

/-- What every step preserves holds of the extensions. -/
theorem of_mem_extensions (Inv : List α → Placement → Prop)
    (hstep : ∀ s rest p v, Inv (s :: rest) p → v ∈ offers p s → Inv rest ((key s, v) :: p))
    (h₀ : Inv steps p) (h : p' ∈ extensions key offers steps p) : Inv [] p' := by
  induction steps generalizing p with
  | nil => rwa [List.mem_singleton.mp h]
  | cons s rest ih =>
    obtain ⟨v, hv, hp⟩ := List.mem_flatMap.mp h
    exact ih (hstep s rest p v h₀ hv) hp

/-- A map is found if each of its images is offered behind the ones before. -/
theorem mem_extensions (Inv : List α → Placement → Prop) {f : Nat → Nat}
    (hstep : ∀ s rest p, Inv (s :: rest) p →
      f (key s) ∈ offers p s ∧ Inv rest ((key s, f (key s)) :: p))
    (h₀ : Inv steps p) :
    (steps.map fun s => (key s, f (key s))).reverse ++ p ∈ extensions key offers steps p := by
  induction steps generalizing p with
  | nil => simp [extensions]
  | cons s rest ih =>
    obtain ⟨hoffer, hinv⟩ := hstep s rest p h₀
    refine List.mem_flatMap.mpr ⟨f (key s), hoffer, ?_⟩
    simpa using ih hinv

/-- Extending by two lists of steps is extending twice. -/
theorem extensions_append (front back : List α) (p : Placement) :
    extensions key offers (front ++ back) p
      = (extensions key offers front p).flatMap (extensions key offers back) := by
  induction front generalizing p with
  | nil => simp [extensions]
  | cons s rest ih => simp only [List.cons_append, extensions, List.flatMap_assoc, ih]

/-- The extensions are in lexicographic order if the offers are in order. -/
theorem pairwise_extensions {r : Nat → Nat → Prop} (hoffers : ∀ p s, (offers p s).Pairwise r)
    (steps : List α) (p : Placement) :
    (extensions key offers steps p).Pairwise fun x y => List.Lex r x.trail y.trail := by
  induction steps generalizing p with
  | nil => exact List.pairwise_singleton _ _
  | cons s rest ih =>
    refine List.pairwise_flatMap.mpr ⟨fun v _ => ih _, (hoffers p s).imp ?_⟩
    intro v w hvw x hx y hy
    obtain ⟨xs, rfl⟩ := suffix_of_mem_extensions hx
    obtain ⟨ys, rfl⟩ := suffix_of_mem_extensions hy
    simp only [trail, images, List.map_append, List.map_cons, List.reverse_append,
      List.reverse_cons, List.append_assoc, List.singleton_append]
    exact List.Lex.append_left _ (List.Lex.rel hvw) _

theorem nodup_extensions (hoffers : ∀ p s, (offers p s).Nodup) (steps : List α)
    (p : Placement) : (extensions key offers steps p).Nodup := by
  have hirrefl : ∀ l : List Nat, ¬ List.Lex (· ≠ ·) l l := by
    intro l hl
    induction l with
    | nil => cases hl
    | cons a l ih =>
      cases hl with
      | cons hl => exact ih hl
      | rel hne => exact hne rfl
  refine (pairwise_extensions hoffers steps p).imp ?_
  intro x y h heq
  subst heq
  exact hirrefl _ h

end Extensions

end Matching.Placement

end GraphDependency
