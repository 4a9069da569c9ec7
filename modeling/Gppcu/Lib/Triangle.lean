import Gppcu.Lib.Cells
import Mathlib.LinearAlgebra.AffineSpace.Midpoint
import Mathlib.LinearAlgebra.SesquilinearForm.Basic
import Mathlib.Algebra.CharP.Invertible
import Mathlib.Algebra.BigOperators.Group.List.Basic
import Mathlib.Tactic.Module

/-!
# Triangles and their midpoints

The midpoints of its sides split a triangle into three corners and a middle. The
area is a form that is linear in both sides and zero on equal ones: the length of
a cross product, or the cross product itself.
-/

namespace Lib

structure Triangle (V : Type*) where
  p1 : V
  p2 : V
  p3 : V

namespace Triangle

section Split

variable {V V' : Type*} (mid : V → V → V) (t : Triangle V)

def map (f : V → V') : Triangle V' := ⟨f t.p1, f t.p2, f t.p3⟩

def corners : List (Triangle V) :=
  [⟨t.p1, mid t.p1 t.p2, mid t.p3 t.p1⟩, ⟨mid t.p1 t.p2, t.p2, mid t.p2 t.p3⟩,
    ⟨mid t.p2 t.p3, t.p3, mid t.p3 t.p1⟩]

def medial : Triangle V := ⟨mid t.p3 t.p1, mid t.p1 t.p2, mid t.p2 t.p3⟩

def split : List (Triangle V) := t.medial mid :: t.corners mid

end Split

section Array

variable {α : Type*}

def ofArray (f : Nat → α) (s : Nat) : Triangle α := ⟨f (3 * s), f (3 * s + 1), f (3 * s + 2)⟩

def stores (p : Nat × Triangle α) : List (Nat × α) :=
  [(3 * p.1, p.2.p1), (3 * p.1 + 1, p.2.p2), (3 * p.1 + 2, p.2.p3)]

theorem ofArray_stores (f : Nat → α) (p : Nat × Triangle α) :
    ofArray (store f (stores p)) = Function.update (ofArray f) p.1 p.2 := by
  funext s
  rcases eq_or_ne s p.1 with rfl | hs
  · rw [Function.update_self]
    simp [ofArray, stores]
  · have hother : ∀ k, k / 3 = s → store f (stores p) k = f k := by
      rintro k rfl
      apply store_other
      unfold stores
      simp only [List.forall_mem_cons, List.not_mem_nil, false_implies, implies_true, and_true]
      omega
    rw [Function.update_of_ne hs]
    unfold ofArray
    rw [hother _ (by omega), hother _ (by omega), hother _ (by omega)]

theorem ofArray_store (f : Nat → α) (ps : List (Nat × Triangle α)) :
    ofArray (store f (ps.flatMap stores)) = store (ofArray f) ps := by
  induction ps generalizing f with
  | nil => rfl
  | cons p ps ih => rw [List.flatMap_cons, store_append, ih, ofArray_stores, store_cons]

end Array

section Area

variable {K V W : Type*} [Field K] [CharZero K] [AddCommGroup V] [Module K V] [AddCommGroup W] [Module K W]
  {B : V →ₗ[K] V →ₗ[K] W}

variable (B) in
/-- Half the form on the two sides from the first corner. -/
def area (t : Triangle V) : W := (2⁻¹ : K) • B (t.p2 - t.p1) (t.p3 - t.p1)

theorem area_of_halves {t : Triangle V} {u v : V} (hu : t.p2 - t.p1 = (2⁻¹ : K) • u)
    (hv : t.p3 - t.p1 = (2⁻¹ : K) • v) : t.area B = (4⁻¹ : K) • (2⁻¹ : K) • B u v := by
  rw [area, hu, hv, map_smul, map_smul, LinearMap.smul_apply]
  module

theorem area_split (hB : B.IsAlt) (t : Triangle V) :
    ∀ s ∈ t.split (midpoint K), s.area B = (4⁻¹ : K) • t.area B := by
  obtain ⟨p1, p2, p3⟩ := t
  have hsides : B (p2 - p1) (p3 - p1) = B (p2 - p1) (p3 - p2) := by
    rw [← sub_add_sub_cancel p3 p2 p1, map_add, hB, add_zero]
  have hback : B (p2 - p1) (p3 - p2) = B (p3 - p2) (p1 - p2) := by
    rw [← hB.neg, ← map_neg, neg_sub]
  have hmiddle : B (p2 - p1) (p3 - p2) = B (p2 - p3) (p2 - p1) := by
    rw [← hB.neg, ← LinearMap.neg_apply, ← map_neg, neg_sub]
  have harea : area B ⟨p1, p2, p3⟩ = (2⁻¹ : K) • B (p2 - p1) (p3 - p1) := rfl
  unfold split corners medial
  simp only [List.forall_mem_cons, List.not_mem_nil, false_implies, implies_true, and_true, harea]
  refine ⟨?_, ?_, ?_, ?_⟩
  · rw [hsides, hmiddle]
    apply area_of_halves <;> simp only [midpoint_eq_smul_add, invOf_eq_inv] <;> module
  · apply area_of_halves <;> simp only [midpoint_eq_smul_add, invOf_eq_inv] <;> module
  · apply area_of_halves <;> simp only [midpoint_eq_smul_add, invOf_eq_inv] <;> module
  · rw [hsides, hback]
    apply area_of_halves <;> simp only [midpoint_eq_smul_add, invOf_eq_inv] <;> module

theorem sum_area_split (hB : B.IsAlt) (ts : List (Triangle V)) :
    ((ts.flatMap (split (midpoint K))).map (area B)).sum = (ts.map (area B)).sum := by
  induction ts with
  | nil => rfl
  | cons t ts ih =>
    have hquarter : ((t.split (midpoint K)).map (area B)).sum = t.area B := by
      rw [List.map_congr_left (area_split hB t), List.map_const', List.sum_replicate]
      unfold split corners
      simp only [List.length_cons, List.length_nil]
      module
    rw [List.flatMap_cons, List.map_append, List.sum_append, ih, hquarter, List.map_cons, List.sum_cons]

end Area

end Triangle

end Lib
