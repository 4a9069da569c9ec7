import Gppcu.Mesh.Storage
import Mathlib.LinearAlgebra.AffineSpace.Combination
import Mathlib.LinearAlgebra.CrossProduct

/-!
# The area of a mesh

With coordinates that are exact, `vec3_lerp` at `0.5f` is the midpoint, and the
cross product of two sides is twice the area vector of a triangle. Its direction
is that of the winding.
-/

namespace Gppcu

open Lib (Triangle)
open scoped Matrix

abbrev Vec3 := Fin 3 → ℚ

def axisX : Fin 3 := 0

def axisY : Fin 3 := 1

def axisZ : Fin 3 := 2

/-! ## The function of `mathc.c` -/

def vec3Lerp (v0 v1 : Vec3) (f : ℚ) : Vec3 :=
  ![v0 0 + (v1 0 - v0 0) * f, v0 1 + (v1 1 - v0 1) * f, v0 2 + (v1 2 - v0 2) * f]

def lerpHalf (v0 v1 : Vec3) : Vec3 := vec3Lerp v0 v1 (1 / 2)

theorem lerpHalf_eq_midpoint : lerpHalf = midpoint ℚ := by
  funext v0 v1
  have hcoord : ∀ x y : ℚ, x + (y - x) * (1 / 2) = midpoint ℚ x y := by
    intro x y
    rw [midpoint_eq_smul_add, invOf_eq_inv, smul_eq_mul]
    ring
  have hpi : ∀ i, (midpoint ℚ v0 v1) i = midpoint ℚ (v0 i) (v1 i) := by
    intro i
    simp only [midpoint_eq_smul_add, Pi.smul_apply, Pi.add_apply]
  funext i
  rw [hpi]
  unfold lerpHalf vec3Lerp
  fin_cases i <;> exact hcoord _ _

abbrev areaVec : Triangle Vec3 → Vec3 := Triangle.area crossProduct

theorem crossProduct_isAlt : (crossProduct (R := ℚ)).IsAlt := fun v => cross_self v

namespace Mesh

/-- `m` is `mesh` refined: all of its indices are those of vertices, the vertices of before are kept, and
each of the `T` triangles is split into four, with a quarter of its area vector each. -/
structure Refines (mesh m : Mesh Vec3) (N T : Nat) : Prop where
  numVertices : m.numVertices.toNat = N + 3 * T
  numIndices : m.numIndices.toNat = 12 * T
  indices : ∀ a < 12 * T, (m.indices a).toNat < N + 3 * T
  vertices : ∀ a < N, m.vertices a = mesh.vertices a
  triangles : m.triangles.Perm (mesh.triangles.flatMap (Triangle.split (midpoint ℚ)))
  quarters : ∀ t ∈ mesh.triangles, ∀ s ∈ t.split (midpoint ℚ), areaVec s = (4⁻¹ : ℚ) • areaVec t
  area : (m.triangles.map areaVec).sum = (mesh.triangles.map areaVec).sum

theorem below_iff {V : Type} {mesh : Mesh V} {T N : Nat} :
    mesh.Below T N ↔ ∀ a < 3 * T, (mesh.indices a).toNat < N := by
  constructor
  · intro h a ha
    obtain ⟨h1, h2, h3⟩ := h (a / 3) (by omega)
    rcases (show a = 3 * (a / 3) ∨ a = 3 * (a / 3) + 1 ∨ a = 3 * (a / 3) + 2 by omega) with e | e | e <;> rw [e]
    · exact h1
    · exact h2
    · exact h3
  · intro h s hs
    exact ⟨h _ (by omega), h _ (by omega), h _ (by omega)⟩

/-- A mesh whose indices are those of vertices is refined, and no store is behind the end of an array. -/
theorem subdevide_refines (mesh : Mesh Vec3) (N T : Nat) (hn : mesh.numVertices.toNat = N)
    (hi : mesh.numIndices.toNat = 3 * T) (hbelow : ∀ a < 3 * T, (mesh.indices a).toNat < N)
    (hcapVtx : N + 3 * T ≤ mesh.capVtx.toNat) (hcapIdx : 12 * T ≤ mesh.capIdx.toNat)
    (hvtx : N + 3 * T < 65536) (hidx : 12 * T < 65536) :
    mesh.Refines (mesh.meshSubdevide lerpHalf) N T ∧
      (∀ p ∈ mesh.subdevideVtx lerpHalf, p.1 < mesh.capVtx.toNat) ∧
      (∀ p ∈ mesh.subdevideIdx lerpHalf, p.1 < mesh.capIdx.toNat) := by
  have hcounts : mesh.Counts N T := ⟨hn, hi⟩
  have hbelow : mesh.Below T N := below_iff.mpr hbelow
  have hnew := hcounts.subdevide lerpHalf hvtx hidx
  have hsub := hcounts.subdivided lerpHalf hbelow hvtx hidx
  have hperm := hsub.triangles hi hidx hbelow hvtx
  rw [lerpHalf_eq_midpoint] at hperm
  refine ⟨⟨hnew.vtx, ?_, ?_, hsub.old, ?_, ?_, ?_⟩, ?_, ?_⟩
  · rw [hnew.idx]
    omega
  · have hnewBelow := below_iff.mp (hsub.below hbelow hvtx)
    intro a ha
    exact hnewBelow a (by omega)
  · rw [lerpHalf_eq_midpoint]
    exact hperm
  · intro t _
    exact Triangle.area_split crossProduct_isAlt t
  · rw [lerpHalf_eq_midpoint, (hperm.map areaVec).sum_eq]
    exact Triangle.sum_area_split crossProduct_isAlt _
  · intro p hp
    have hplace := List.mem_map_of_mem (f := Prod.fst) hp
    rw [hcounts.vtx_fst lerpHalf (Nat.le_of_lt hvtx)] at hplace
    simp only [List.mem_map, List.mem_range] at hplace
    omega
  · intro p hp
    exact Nat.lt_of_lt_of_le (hcounts.idx_lt lerpHalf (Nat.le_of_lt hidx) hp) hcapIdx

def twoTriangles : Mesh Vec3 :=
  ⟨fun a => ![a, a * a, 1], fun a => BitVec.ofNat 16 (a / 3 + a % 3), 4, 6, 10, 24⟩

theorem subdevide_refines_two : twoTriangles.Refines (twoTriangles.meshSubdevide lerpHalf) 4 2 ∧
    (∀ p ∈ twoTriangles.subdevideVtx lerpHalf, p.1 < 10) ∧
    (∀ p ∈ twoTriangles.subdevideIdx lerpHalf, p.1 < 24) :=
  subdevide_refines twoTriangles 4 2 rfl rfl (by decide) (by decide) (by decide) (by decide) (by decide)

end Mesh

end Gppcu
