import Gppcu.Lib.Run
import Mathlib.Data.List.Chain
import Mathlib.Tactic.SplitIfs

/-!
# Loops with an exit

A loop that leaves in the middle of its body has no counter: it visits states
until one of them is where it stops. The number of rounds is a bound that the
proof of termination finds.
-/

namespace Lib

variable {σ : Type*} {stop : σ → Prop} [DecidablePred stop] {next : σ → σ}

def visits (stop : σ → Prop) [DecidablePred stop] (next : σ → σ) : Nat → σ → Option (List σ)
  | 0, _ => none
  | rounds + 1, s => if stop s then some [s] else (visits stop next rounds (next s)).map (s :: ·)

/-- The first `n + 1` states of the iteration. -/
def orbit (next : σ → σ) (n : Nat) (s : σ) : List σ := (List.range (n + 1)).map fun k => next^[k] s

theorem orbit_succ (n : Nat) (s : σ) : orbit next (n + 1) s = s :: orbit next n (next s) := by
  unfold orbit
  rw [List.range_succ_eq_map, List.map_cons, List.map_map]
  rfl

@[simp] theorem length_orbit (n : Nat) (s : σ) : (orbit next n s).length = n + 1 := by simp [orbit]

theorem head?_orbit (n : Nat) (s : σ) : (orbit next n s).head? = some s := by
  cases n with
  | zero => rfl
  | succ n => rw [orbit_succ, List.head?_cons]

theorem getLast?_orbit (n : Nat) (s : σ) : (orbit next n s).getLast? = some (next^[n] s) := by
  rw [orbit, List.range_succ, List.map_append, List.map_singleton, List.getLast?_concat]

theorem mem_orbit {n : Nat} {s t : σ} : t ∈ orbit next n s ↔ ∃ k ≤ n, next^[k] s = t := by
  simp only [orbit, List.mem_map, List.mem_range, Nat.lt_succ_iff]

theorem isChain_orbit {R : σ → σ → Prop} {n : Nat} {s : σ}
    (h : ∀ k < n, R (next^[k] s) (next^[k + 1] s)) : (orbit next n s).IsChain R := by
  induction n generalizing s with
  | zero => exact List.isChain_singleton s
  | succ n ih =>
    rw [orbit_succ]
    refine List.IsChain.cons (ih fun k hk => h (k + 1) (Nat.succ_lt_succ hk)) ?_
    intro t ht
    rw [head?_orbit] at ht
    obtain rfl := Option.some.inj ht
    exact h 0 (Nat.succ_pos n)

theorem visits_eq_some {rounds : Nat} {s : σ} {l : List σ} : visits stop next rounds s = some l ↔
    ∃ n < rounds, stop (next^[n] s) ∧ (∀ k < n, ¬stop (next^[k] s)) ∧ l = orbit next n s := by
  induction rounds generalizing s l with
  | zero => simp [visits]
  | succ rounds ih =>
    unfold visits
    split_ifs with hs
    · constructor
      · rintro h
        obtain rfl := Option.some.inj h
        exact ⟨0, Nat.succ_pos _, hs, fun k hk => absurd hk (Nat.not_lt_zero k), rfl⟩
      · rintro ⟨n, -, -, hbefore, rfl⟩
        rcases Nat.eq_zero_or_pos n with rfl | hn
        · rfl
        · exact absurd hs (hbefore 0 hn)
    · rw [Option.map_eq_some_iff]
      constructor
      · rintro ⟨l', hl', rfl⟩
        obtain ⟨n, hn, hstop, hbefore, rfl⟩ := ih.mp hl'
        refine ⟨n + 1, Nat.succ_lt_succ hn, hstop, ?_, (orbit_succ n s).symm⟩
        rintro (_ | k) hk
        · exact hs
        · exact hbefore k (Nat.lt_of_succ_lt_succ hk)
      · rintro ⟨n, hn, hstop, hbefore, rfl⟩
        cases n with
        | zero => exact absurd hstop hs
        | succ n =>
          refine ⟨_, ih.mpr ⟨n, Nat.lt_of_succ_lt_succ hn, hstop, ?_, rfl⟩, (orbit_succ n s).symm⟩
          exact fun k hk => hbefore (k + 1) (Nat.succ_lt_succ hk)

end Lib
