import Gppcu.Lib.Run

/-!
# Pre- and postconditions of a run

From a state of `P` every step of the run is one that `ok` allows, and the run
ends in a state of `Q`. Runs are finite lists of steps, so a triple is total.
-/

namespace Lib

variable {σ ι κ : Type*}

def Triple (step : σ → ι → σ) (ok : σ → ι → Prop) (P : σ → Prop) (is : List ι) (Q : σ → Prop) : Prop :=
  ∀ s, P s → Along step ok s is ∧ Q (run step s is)

namespace Triple

variable {step : σ → ι → σ} {ok : σ → ι → Prop} {P Q R : σ → Prop} {is js : List ι}

theorem append (h : Triple step ok P is R) (h' : Triple step ok R js Q) : Triple step ok P (is ++ js) Q := by
  intro s hs
  obtain ⟨hok, hr⟩ := h s hs
  obtain ⟨hok', hq⟩ := h' _ hr
  rw [along_append, run_append]
  exact ⟨⟨hok, hok'⟩, hq⟩

theorem weaken {P' Q' : σ → Prop} (h : Triple step ok P is Q) (hP : ∀ s, P' s → P s)
    (hQ : ∀ s, Q s → Q' s) : Triple step ok P' is Q' := by
  intro s hs
  obtain ⟨hok, hq⟩ := h s (hP s hs)
  exact ⟨hok, hQ _ hq⟩

/-- A loop that is unrolled into the run, with its invariant. -/
theorem loop {I : Nat → σ → Prop} {body : Nat → List ι} {n : Nat}
    (h : ∀ i < n, Triple step ok (I i) (body i) (I (i + 1))) :
    Triple step ok (I 0) ((List.range n).flatMap body) (I n) := by
  induction n with
  | zero => exact fun s hs => ⟨trivial, hs⟩
  | succ n ih =>
    rw [List.range_succ, List.flatMap_append, List.flatMap_singleton]
    exact (ih fun i hi => h i (by omega)).append (h n (by omega))

end Triple

/-! ## Steps under another name -/

variable {step : σ → κ → σ} {ok : σ → κ → Prop} (f : ι → κ)

theorem run_map (s : σ) (is : List ι) : run step s (is.map f) = run (fun s i => step s (f i)) s is :=
  List.foldl_map ..

theorem along_map (s : σ) (is : List ι) :
    Along step ok s (is.map f) ↔ Along (fun s i => step s (f i)) (fun s i => ok s (f i)) s is := by
  induction is generalizing s with
  | nil => exact Iff.rfl
  | cons i is ih => simp [Along, ih]

end Lib
