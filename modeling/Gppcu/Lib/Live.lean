import Gppcu.Lib.Run

/-!
# Names that a run looks at

Before a step the names are live that it reads, and those that are live behind it
and that it is not sure to set. Two machines that agree on the live names stay in
agreement to the end of the run.
-/

namespace Lib

variable {ρ ι σ τ : Type*} (reads sets : ι → ρ → Bool)

/-- The names that are live before a step, given those that are live behind it. -/
def liveBefore (i : ι) (after : ρ → Bool) (r : ρ) : Bool := reads i r || after r && !sets i r

def live : List ι → (ρ → Bool) → ρ → Bool
  | [], after => after
  | i :: is, after => liveBefore reads sets i (live is after)

variable {reads sets} {step : σ → ι → σ} {step' : τ → ι → τ} {ok : σ → ι → Prop} {ok' : τ → ι → Prop}
  {Agree : (ρ → Bool) → σ → τ → Prop} {is : List ι}

/-- If one step brings agreement from before it to behind it, so does a run. -/
theorem live_run
    (hstep : ∀ i ∈ is, ∀ after s s', ok s i → Agree (liveBefore reads sets i after) s s' →
      ok' s' i ∧ Agree after (step s i) (step' s' i))
    {after : ρ → Bool} {s : σ} {s' : τ} (hok : Along step ok s is) (h : Agree (live reads sets is after) s s') :
    Along step' ok' s' is ∧ Agree after (run step s is) (run step' s' is) := by
  induction is generalizing s s' with
  | nil => exact ⟨trivial, h⟩
  | cons i is ih =>
    obtain ⟨hok', hnext⟩ := hstep i (List.mem_cons_self ..) _ s s' hok.1 h
    obtain ⟨hrest, hend⟩ := ih (fun j hj => hstep j (List.mem_cons_of_mem i hj)) hok.2 hnext
    exact ⟨⟨hok', hrest⟩, hend⟩

end Lib
