import Mathlib.Data.List.Induction
import Mathlib.Logic.Function.Basic

/-!
# Stores made in order

A memory is a function from cells to words, and a list of stores changes it from
left to right. Where the stores agree on what a cell gets, their order does not
matter.
-/

namespace Lib

variable {κ α : Type*} [DecidableEq κ]

def store (f : κ → α) (ps : List (κ × α)) : κ → α := ps.foldl (fun f p => Function.update f p.1 p.2) f

@[simp] theorem store_nil (f : κ → α) : store f [] = f := rfl

@[simp] theorem store_cons (f : κ → α) (p : κ × α) (ps : List (κ × α)) :
    store f (p :: ps) = store (Function.update f p.1 p.2) ps := rfl

theorem store_append (f : κ → α) (ps qs : List (κ × α)) :
    store f (ps ++ qs) = store (store f ps) qs := List.foldl_append ..

theorem store_concat (f : κ → α) (ps : List (κ × α)) (p : κ × α) :
    store f (ps ++ [p]) = Function.update (store f ps) p.1 p.2 := by rw [store_append, store_cons, store_nil]

theorem store_other {f : κ → α} {ps : List (κ × α)} {k : κ} (h : ∀ p ∈ ps, p.1 ≠ k) : store f ps k = f k := by
  induction ps generalizing f with
  | nil => rfl
  | cons p ps ih =>
    rw [List.forall_mem_cons] at h
    rw [store_cons, ih h.2, Function.update_of_ne (Ne.symm h.1)]

theorem store_own {f : κ → α} {ps : List (κ × α)} {k : κ} {x : α} (hmem : (k, x) ∈ ps)
    (h : ∀ p ∈ ps, p.1 = k → p.2 = x) : store f ps k = x := by
  induction ps using List.reverseRecOn with
  | nil => simp at hmem
  | append_singleton ps p ih =>
    rw [store_concat]
    by_cases hp : p.1 = k
    · rw [hp, Function.update_self]
      exact h p (by simp) hp
    · rw [Function.update_of_ne (Ne.symm hp)]
      apply ih
      · rcases List.mem_append.mp hmem with hm | hm
        · exact hm
        · rw [List.mem_singleton] at hm
          exact absurd (congrArg Prod.fst hm).symm hp
      · intro q hq
        exact h q (by simp [hq])

theorem store_update {f : κ → α} {ps : List (κ × α)} {k : κ} (x : α) (h : ∀ p ∈ ps, k ≠ p.1) :
    store (Function.update f k x) ps = Function.update (store f ps) k x := by
  induction ps generalizing f with
  | nil => rfl
  | cons p ps ih =>
    rw [List.forall_mem_cons] at h
    rw [store_cons, store_cons, Function.update_comm h.1, ih h.2]

theorem store_comm {f : κ → α} {ps qs : List (κ × α)} (h : ∀ p ∈ ps, ∀ q ∈ qs, p.1 ≠ q.1) :
    store (store f ps) qs = store (store f qs) ps := by
  induction ps generalizing f with
  | nil => rfl
  | cons p ps ih =>
    rw [List.forall_mem_cons] at h
    rw [store_cons, store_cons, ih h.2, store_update p.2 h.1]

end Lib
