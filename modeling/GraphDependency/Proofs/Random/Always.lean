import GraphDependency.Random.Source

set_option autoImplicit false

/-!
# Whatever the choices are

A property holds of a random run if its result has the property from every state of the source.
There is one rule for each way to make a run of smaller ones.

Main statements: `Always.bind`, `Always.mapM` and `Always.foldlM`, and what is known of the
choices of a source: `always_wide` and `always_choose`.
-/

namespace GraphDependency.Random

variable {σ α β : Type}

/-- Whatever the choices are, the result has the property. -/
def Always (m : StateM σ α) (P : α → Prop) : Prop := ∀ s, P (m s).1

/-! ## Runs -/

namespace Always

variable {m : StateM σ α} {P Q : α → Prop} {R : β → Prop}

theorem imp (h : Always m P) (himp : ∀ a, P a → Q a) : Always m Q := fun s => himp _ (h s)

theorem trivial (m : StateM σ α) : Always m fun _ => True := fun _ => True.intro

theorem of_pure {a : α} (h : P a) : Always (pure a : StateM σ α) P := fun _ => h

/-- A run that goes on with the result of another one. -/
theorem bind {f : α → StateM σ β} (h : Always m P) (hf : ∀ a, P a → Always (f a) R) :
    Always (m >>= f) R := fun s => hf _ (h s) (m s).2

/-- A run for every element of a list. -/
theorem mapM {f : α → StateM σ β} {xs : List α} (h : ∀ x ∈ xs, Always (f x) R) :
    Always (xs.mapM f) fun ys => ys.length = xs.length ∧ ∀ y ∈ ys, R y := by
  induction xs with
  | nil => exact of_pure ⟨rfl, by simp⟩
  | cons x xs ih =>
    obtain ⟨hx, hxs⟩ := List.forall_mem_cons.mp h
    rw [List.mapM_cons]
    refine hx.bind fun y hy => (ih hxs).bind fun ys hys => of_pure ⟨?_, ?_⟩
    · rw [List.length_cons, List.length_cons, hys.1]
    · exact List.forall_mem_cons.mpr ⟨hy, hys.2⟩

/-- A fold over a list: what is known after some elements is carried on by each step. -/
theorem foldlM {f : β → α → StateM σ β} (inv : List α → β → Prop) {start : β}
    (hstart : inv [] start)
    (hstep : ∀ done x b, inv done b → Always (f b x) (inv (done ++ [x]))) (xs : List α) :
    Always (xs.foldlM f start) (inv xs) := by
  have hrun : ∀ (xs done : List α) (b : β), inv done b →
      Always (xs.foldlM f b) (inv (done ++ xs)) := by
    intro xs
    induction xs with
    | nil =>
      intro done b hb
      rw [List.append_nil]
      exact of_pure hb
    | cons x xs ih =>
      intro done b hb
      rw [List.foldlM_cons]
      refine (hstep done x b hb).bind fun b' hb' => ?_
      rw [← List.singleton_append, ← List.append_assoc]
      exact ih _ b' hb'
  exact hrun xs [] start hstart

end Always

/-! ## Choices -/

variable (source : Source σ) {bound : Nat}

theorem always_wide (h : 0 < bound) : Always (source.wide bound) (· < bound) :=
  fun s => source.wide_lt bound s h

/-- An element is chosen, if there is one. -/
theorem always_choose (xs : List α) :
    Always (source.choose xs) fun chosen => ∀ x ∈ chosen, x ∈ xs := fun _ _ hx =>
  Source.choose_mem hx

end GraphDependency.Random
