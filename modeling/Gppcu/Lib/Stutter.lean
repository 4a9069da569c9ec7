import Mathlib.Logic.Function.Iterate

/-!
# A machine that waits

Each step of the machine with time is a step of the one without it, or only a
clock less to wait. How long a state waits is known when it is entered.
-/

namespace Lib

variable {α σ : Type*}

/-- `R a n s`: the state `s` waits for `n` more steps, and then it does what `a` does next. -/
structure Stutters (astep : α → α) (step : σ → σ) (cost : α → Nat) (R : α → Nat → σ → Prop) : Prop where
  move : ∀ a s, R a 0 s → R (astep a) (cost (astep a)) (step s)
  hold : ∀ a n s, R a (n + 1) s → R a n (step s)

def clocks (astep : α → α) (cost : α → Nat) : Nat → α → Nat
  | 0, _ => 0
  | k + 1, a => cost a + 1 + clocks astep cost k (astep a)

namespace Stutters

variable {astep : α → α} {step : σ → σ} {cost : α → Nat} {R : α → Nat → σ → Prop}

theorem waited (h : Stutters astep step cost R) {a : α} {s : σ} (n : Nat) (hs : R a n s) :
    R a 0 (step^[n] s) := by
  induction n generalizing s with
  | zero => exact hs
  | succ n ih => exact ih (h.hold a n s hs)

theorem arrives (h : Stutters astep step cost R) {a : α} {s : σ} (hs : R a (cost a) s) (k : Nat) :
    R (astep^[k] a) (cost (astep^[k] a)) (step^[clocks astep cost k a] s) := by
  induction k generalizing a s with
  | zero => exact hs
  | succ k ih =>
    have hmoved := h.move a _ (h.waited (cost a) hs)
    rw [← Function.iterate_succ_apply' step] at hmoved
    rw [Function.iterate_succ_apply astep, clocks, Nat.add_comm (cost a + 1), Function.iterate_add_apply]
    exact ih hmoved

theorem always (h : Stutters astep step cost R) {a : α} {n : Nat} {s : σ} (hs : R a n s)
    (hn : n ≤ cost a) (t : Nat) : ∃ k n', R (astep^[k] a) n' (step^[t] s) ∧ n' ≤ cost (astep^[k] a) ∧
      clocks astep cost k a + cost (astep^[k] a) + n = t + n' + cost a := by
  induction t generalizing a n s with
  | zero => exact ⟨0, n, hs, hn, by rw [clocks, Function.iterate_zero_apply]; omega⟩
  | succ t ih =>
    cases n with
    | zero =>
      obtain ⟨k, n', hk, hle, hclocks⟩ := ih (h.move a s hs) (Nat.le_refl _)
      refine ⟨k + 1, n', hk, hle, ?_⟩
      rw [clocks, Function.iterate_succ_apply]
      omega
    | succ n =>
      obtain ⟨k, n', hk, hle, hclocks⟩ := ih (h.hold a n s hs) (by omega)
      exact ⟨k, n', hk, hle, by omega⟩

end Stutters

theorem clocks_succ (astep : α → α) (cost : α → Nat) (k : Nat) (a : α) :
    clocks astep cost (k + 1) a = clocks astep cost k a + cost (astep^[k] a) + 1 := by
  induction k generalizing a with
  | zero => simp [clocks]
  | succ k ih =>
    rw [clocks, ih (astep a), clocks, Function.iterate_succ_apply]
    omega

theorem clocks_add (astep : α → α) (cost : α → Nat) (i j : Nat) (a : α) :
    clocks astep cost (i + j) a = clocks astep cost i a + clocks astep cost j (astep^[i] a) := by
  induction j with
  | zero => rfl
  | succ j ih =>
    rw [← Nat.add_assoc, clocks_succ, clocks_succ, ih, Nat.add_comm i j, Function.iterate_add_apply]
    omega

theorem clocks_mono (astep : α → α) (cost : α → Nat) (a : α) {i j : Nat} (h : i ≤ j) :
    clocks astep cost i a ≤ clocks astep cost j a := by
  induction h with
  | refl => exact Nat.le_refl _
  | step _ ih =>
    rw [clocks_succ]
    omega

theorem Stutters.at_time {astep : α → α} {step : σ → σ} {cost : α → Nat} {R : α → Nat → σ → Prop}
    (h : Stutters astep step cost R) {a : α} {s : σ} (hs : R a (cost a) s) (t : Nat) :
    ∃ k n, R (astep^[k] a) n (step^[t] s) ∧ ∀ j, clocks astep cost j a ≤ t ↔ j ≤ k := by
  obtain ⟨k, n, hk, hle, hclocks⟩ := h.always hs (Nat.le_refl _) t
  refine ⟨k, n, hk, fun j => ⟨fun hj => ?_, fun hj => ?_⟩⟩
  · by_contra hlt
    have hmono := clocks_mono astep cost a (show k + 1 ≤ j by omega)
    rw [clocks_succ] at hmono
    omega
  · have hmono := clocks_mono astep cost a hj
    omega

end Lib
