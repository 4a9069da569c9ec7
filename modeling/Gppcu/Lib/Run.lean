import Mathlib.Logic.Function.Iterate

/-!
# Runs of a step function

A machine here is a step function on a state type, with an input on each step
(`run`) or without one (`step^[n]`).
-/

namespace Lib

variable {σ ι τ : Type*}

def run (step : σ → ι → σ) (s : σ) (is : List ι) : σ := is.foldl step s

@[simp] theorem run_nil (step : σ → ι → σ) (s : σ) : run step s [] = s := rfl

@[simp] theorem run_cons (step : σ → ι → σ) (s : σ) (i : ι) (is : List ι) :
    run step s (i :: is) = run step (step s i) is := rfl

theorem run_append (step : σ → ι → σ) (s : σ) (is js : List ι) :
    run step s (is ++ js) = run step (run step s is) js := List.foldl_append ..

theorem run_concat (step : σ → ι → σ) (s : σ) (is : List ι) (i : ι) :
    run step s (is ++ [i]) = step (run step s is) i := by simp [run]

/-- Every step of the run is one that `ok` allows. -/
def Along (step : σ → ι → σ) (ok : σ → ι → Prop) : σ → List ι → Prop
  | _, [] => True
  | s, i :: is => ok s i ∧ Along step ok (step s i) is

instance Along.decidable {step : σ → ι → σ} {ok : σ → ι → Prop} [∀ s i, Decidable (ok s i)] :
    (s : σ) → (is : List ι) → Decidable (Along step ok s is)
  | _, [] => .isTrue trivial
  | s, i :: is => @instDecidableAnd _ _ _ (Along.decidable (step s i) is)

theorem along_append (step : σ → ι → σ) (ok : σ → ι → Prop) (s : σ) (is js : List ι) :
    Along step ok s (is ++ js) ↔ Along step ok s is ∧ Along step ok (run step s is) js := by
  induction is generalizing s with
  | nil => simp [Along]
  | cons i is ih => simp [Along, ih, and_assoc]

theorem Along.keeps {step : σ → ι → σ} {ok : σ → ι → Prop} {I : σ → Prop}
    (hstep : ∀ s i, I s → ok s i → I (step s i)) {s : σ} {is : List ι} (hs : I s)
    (h : Along step ok s is) : I (run step s is) := by
  induction is generalizing s with
  | nil => exact hs
  | cons i is ih => exact ih (hstep s i hs h.1) h.2

theorem Along.mono {step : σ → ι → σ} {ok ok' : σ → ι → Prop} {s : σ} {is : List ι}
    (hok : ∀ s, ∀ i ∈ is, ok s i → ok' s i) (h : Along step ok s is) : Along step ok' s is := by
  induction is generalizing s with
  | nil => trivial
  | cons i is ih =>
    exact ⟨hok s i (List.mem_cons_self ..) h.1, ih (fun s j hj => hok s j (List.mem_cons_of_mem i hj)) h.2⟩

theorem Along.gains {step : σ → ι → σ} {ok ok' : σ → ι → Prop} {I : σ → Prop}
    (hstep : ∀ s i, I s → ok s i → ok' s i ∧ I (step s i)) {s : σ} {is : List ι} (hs : I s)
    (h : Along step ok s is) : Along step ok' s is := by
  induction is generalizing s with
  | nil => trivial
  | cons i is ih =>
    obtain ⟨hok, hnext⟩ := hstep s i hs h.1
    exact ⟨hok, ih hnext h.2⟩

/-- A run that keeps `I` on its own inputs takes only steps that `I` allows. -/
theorem along_of_inv {step : σ → ι → σ} {ok : σ → ι → Prop} {I : σ → Prop} {s : σ} {is : List ι}
    (hstep : ∀ s, ∀ i ∈ is, I s → ok s i ∧ I (step s i)) (hs : I s) : Along step ok s is := by
  induction is generalizing s with
  | nil => trivial
  | cons i is ih =>
    obtain ⟨hok, hnext⟩ := hstep s i (List.mem_cons_self ..) hs
    exact ⟨hok, ih (fun s j hj => hstep s j (List.mem_cons_of_mem i hj)) hnext⟩

theorem Along.mem {step : σ → ι → σ} {ok : σ → ι → Prop} {I : σ → Prop} {s : σ} {is : List ι} {i : ι}
    (hstep : ∀ s, ∀ i ∈ is, I s → I (step s i)) (hs : I s) (h : Along step ok s is) (hi : i ∈ is) :
    ∃ s', I s' ∧ ok s' i := by
  induction is generalizing s with
  | nil => cases hi
  | cons j is ih =>
    rcases List.mem_cons.mp hi with rfl | hi
    · exact ⟨s, hs, h.1⟩
    · exact ih (fun s i hi => hstep s i (List.mem_cons_of_mem j hi)) (hstep s j (List.mem_cons_self ..) hs)
        h.2 hi

/-- `P` holds in the first state of the run, in the last one and in every state between. -/
def Throughout (step : σ → ι → σ) (P : σ → Prop) (s : σ) (is : List ι) : Prop :=
  ∀ pre, pre <+: is → P (run step s pre)

theorem Along.throughout {step : σ → ι → σ} {ok : σ → ι → Prop} {I P : σ → Prop}
    (hstep : ∀ s i, I s → ok s i → I (step s i)) (hP : ∀ s, I s → P s) {s : σ} {is : List ι}
    (hs : I s) (h : Along step ok s is) : Throughout step P s is := by
  rintro pre ⟨rest, rfl⟩
  exact hP _ (Along.keeps hstep hs ((along_append step ok s pre rest).mp h).1)

theorem throughout_cons {step : σ → ι → σ} {P : σ → Prop} {s : σ} {i : ι} {is : List ι} :
    Throughout step P s (i :: is) ↔ P s ∧ Throughout step P (step s i) is := by
  constructor
  · intro h
    exact ⟨h [] (List.nil_prefix ..), fun pre hpre => h (i :: pre) (List.cons_prefix_cons.mpr ⟨rfl, hpre⟩)⟩
  · rintro ⟨hs, h⟩ pre hpre
    cases pre with
    | nil => exact hs
    | cons j pre =>
      obtain ⟨rfl, hrest⟩ := List.cons_prefix_cons.mp hpre
      exact h pre hrest

/-- Where a step of `ok` is what it takes to stay in `P`, so is a run of such steps. -/
theorem throughout_iff_along {step : σ → ι → σ} {ok : σ → ι → Prop} {P : σ → Prop}
    (hstep : ∀ s i, P s → (P (step s i) ↔ ok s i)) {s : σ} {is : List ι} (hs : P s) :
    Throughout step P s is ↔ Along step ok s is := by
  induction is generalizing s with
  | nil =>
    refine ⟨fun _ => trivial, ?_⟩
    rintro - pre hpre
    rw [List.prefix_nil.mp hpre]
    exact hs
  | cons i is ih =>
    rw [throughout_cons, Along]
    constructor
    · rintro ⟨-, h⟩
      have hnext : P (step s i) := h [] (List.nil_prefix ..)
      exact ⟨(hstep s i hs).mp hnext, (ih hnext).mp h⟩
    · rintro ⟨hok, h⟩
      exact ⟨hs, (ih ((hstep s i hs).mpr hok)).mpr h⟩

/-! ## What a run shows -/

section Trace

variable {ω ω' κ : Type*} {step : σ → ι → σ} {emit : σ → ι → List ω}

def trace (step : σ → ι → σ) (emit : σ → ι → List ω) : σ → List ι → List ω
  | _, [] => []
  | s, i :: is => emit s i ++ trace step emit (step s i) is

theorem trace_append (s : σ) (is js : List ι) :
    trace step emit s (is ++ js) = trace step emit s is ++ trace step emit (run step s is) js := by
  induction is generalizing s with
  | nil => rfl
  | cons i is ih => rw [List.cons_append, trace, ih, trace, List.append_assoc, run_cons]

theorem trace_range (s : σ) (f : Nat → ι) (n : Nat) :
    trace step emit s ((List.range n).map f) =
      (List.range n).flatMap fun t => emit (run step s ((List.range t).map f)) (f t) := by
  induction n with
  | zero => rfl
  | succ n ih =>
    rw [List.range_succ, List.map_append, trace_append, ih, List.flatMap_append, List.flatMap_singleton,
      List.map_singleton, trace, trace, List.append_nil]

/-- A view of the state that each step changes by what it shows is the fold of the trace. -/
theorem view_run (view : σ → τ) {apply : τ → ω → τ}
    (hstep : ∀ s i, view (step s i) = (emit s i).foldl apply (view s)) (s : σ) (is : List ι) :
    view (run step s is) = (trace step emit s is).foldl apply (view s) := by
  induction is generalizing s with
  | nil => rfl
  | cons i is ih => rw [run_cons, ih, hstep, trace, List.foldl_append]

variable {step' : τ → κ → τ} {emit' : τ → κ → List ω'} (proj : σ → τ) {f : ι → Option κ}

variable {ok : σ → ι → Prop} {s : σ} {is : List ι}

theorem along_of_forall (h : ∀ s i, ok s i) : Along step ok s is := by
  induction is generalizing s with
  | nil => trivial
  | cons i is ih => exact ⟨h s i, ih⟩

theorem run_proj (hstep : ∀ s i, ok s i → proj (step s i) = (f i).elim (proj s) (step' (proj s)))
    (h : Along step ok s is) : proj (run step s is) = run step' (proj s) (is.filterMap f) := by
  induction is generalizing s with
  | nil => rfl
  | cons i is ih =>
    rw [run_cons, ih h.2, hstep s i h.1, List.filterMap_cons]
    cases f i <;> rfl

theorem trace_proj {g : ω → Option ω'}
    (hstep : ∀ s i, ok s i → proj (step s i) = (f i).elim (proj s) (step' (proj s)))
    (hemit : ∀ s i, ok s i → (emit s i).filterMap g = (f i).elim [] (emit' (proj s)))
    (h : Along step ok s is) :
    (trace step emit s is).filterMap g = trace step' emit' (proj s) (is.filterMap f) := by
  induction is generalizing s with
  | nil => rfl
  | cons i is ih =>
    rw [trace, List.filterMap_append, ih h.2, hemit s i h.1, hstep s i h.1, List.filterMap_cons]
    cases f i <;> rfl

end Trace

/-! ## Machines without inputs -/

theorem iterate_keeps {step : σ → σ} {I : σ → Prop} (hstep : ∀ s, I s → I (step s)) {s : σ}
    (hs : I s) (n : Nat) : I (step^[n] s) := by
  induction n generalizing s with
  | zero => exact hs
  | succ n ih => exact ih (hstep s hs)

/-- A machine that keeps `I`, and whose rank falls until `Goal`, reaches `Goal`. -/
theorem exists_iterate {α : Type*} {r : α → α → Prop} (hwf : WellFounded r) {step : σ → σ}
    {I Goal : σ → Prop} (rank : σ → α) (hstep : ∀ s, I s → I (step s))
    (hrank : ∀ s, I s → Goal s ∨ r (rank (step s)) (rank s)) {s : σ} (hs : I s) :
    ∃ n, Goal (step^[n] s) := by
  induction h : rank s using hwf.induction generalizing s with
  | h a ih =>
    rcases hrank s hs with hg | hlt
    · exact ⟨0, hg⟩
    · obtain ⟨n, hn⟩ := ih (rank (step s)) (h ▸ hlt) (hstep s hs) rfl
      exact ⟨n + 1, hn⟩

end Lib
