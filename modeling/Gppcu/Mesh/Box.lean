import Gppcu.Lib.Surface
import Gppcu.Mesh.Area

/-!
# The surface of the box

`mesh_createbox`, and any number of calls of `mesh_subdevide`, with coordinates
that are exact: the triangles cover the surface of the box, wind around its
sides in one direction, and leave no gap between them.
-/

namespace Gppcu

open Lib (Triangle)
open Lib.Triangle (Closed cover fan)
open scoped Matrix

/-! ## The sides of a box -/

def boxCorner (size : ℚ) (sign : Fin 3 → ℚ) : Vec3 := fun i => sign i * size

def boxSurface (size : ℚ) : Set Vec3 := {x | (∀ i, |x i| ≤ |size|) ∧ ∃ i, |x i| = |size|}

/-- A side of the box: the axis that goes through it, the two axes along it, and its first corner. -/
structure BoxSide where
  axis : Fin 3
  left : Fin 3
  up : Fin 3
  sign : Fin 3 → ℚ

namespace BoxSide

/-- The three axes are the three axes, and in this order they wind around the way out of the box. -/
structure Valid (f : BoxSide) : Prop where
  signs : ∀ i, f.sign i = 1 ∨ f.sign i = -1
  axes : ∀ i, i = f.axis ∨ i = f.left ∨ i = f.up
  left : f.left ≠ f.axis
  up : f.up ≠ f.axis
  apart : f.left ≠ f.up
  winds : crossProduct (Pi.single f.left (f.sign f.left)) (Pi.single f.up (f.sign f.up)) =
    (Pi.single f.axis (f.sign f.axis) : Vec3)

variable (size : ℚ) (f : BoxSide)

def corner : Vec3 := boxCorner size f.sign

def across (i : Fin 3) : Vec3 := Pi.single i (-2 * f.sign i * size)

def triangles : List (Triangle Vec3) :=
  fan (f.corner size) (f.corner size + f.across size f.left)
    (f.corner size + f.across size f.left + f.across size f.up) (f.corner size + f.across size f.up)

def points : Set Vec3 := {x | x f.axis = f.sign f.axis * size ∧ ∀ i, |x i| ≤ |size|}

variable {size f}

theorem Valid.sign_sq (h : f.Valid) (i : Fin 3) : f.sign i * f.sign i = 1 := by
  rcases h.signs i with e | e <;> simp [e]

theorem Valid.abs_sign (h : f.Valid) (i : Fin 3) : |f.sign i| = 1 := by
  rcases h.signs i with e | e <;> simp [e]

theorem Valid.point (h : f.Valid) (size a b : ℚ) :
    (f.corner size + a • f.across size f.left + b • f.across size f.up) f.axis = f.sign f.axis * size ∧
      (f.corner size + a • f.across size f.left + b • f.across size f.up) f.left =
        f.sign f.left * (size * (1 - 2 * a)) ∧
      (f.corner size + a • f.across size f.left + b • f.across size f.up) f.up =
        f.sign f.up * (size * (1 - 2 * b)) := by
  simp only [corner, boxCorner, across, Pi.add_apply, Pi.smul_apply, smul_eq_mul]
  refine ⟨?_, ?_, ?_⟩
  · simp [h.left.symm, h.up.symm]
  · simp only [Pi.single_eq_same, Pi.single_eq_of_ne h.apart]
    ring
  · simp only [Pi.single_eq_same, Pi.single_eq_of_ne h.apart.symm]
    ring

theorem abs_inside (size : ℚ) {a : ℚ} (h0 : 0 ≤ a) (h1 : a ≤ 1) : |size * (1 - 2 * a)| ≤ |size| := by
  rw [abs_mul]
  apply mul_le_of_le_one_right (abs_nonneg _)
  rw [abs_le]
  constructor <;> linarith

theorem exists_place {y size : ℚ} (hy : |y| ≤ |size|) {sign : ℚ} (hsign : sign * sign = 1) (habs : |sign| = 1) :
    ∃ a : ℚ, 0 ≤ a ∧ a ≤ 1 ∧ sign * (size * (1 - 2 * a)) = y := by
  have hratio : size * (y / size) = y := by
    rcases eq_or_ne size 0 with rfl | hne
    · rw [abs_zero, abs_nonpos_iff] at hy
      rw [hy, zero_mul]
    · exact mul_div_cancel₀ y hne
  have hbound : |sign * (y / size)| ≤ 1 := by
    rw [abs_mul, habs, one_mul, abs_div]
    exact div_le_one_of_le₀ hy (abs_nonneg _)
  obtain ⟨hlow, hhigh⟩ := abs_le.mp hbound
  refine ⟨(1 - sign * (y / size)) / 2, by linarith, by linarith, ?_⟩
  calc sign * (size * (1 - 2 * ((1 - sign * (y / size)) / 2)))
      = sign * sign * (size * (y / size)) := by ring
    _ = y := by rw [hsign, hratio, one_mul]

theorem Valid.cover (h : f.Valid) : cover ℚ (f.triangles size) = f.points size := by
  ext x
  unfold triangles points
  rw [Triangle.mem_cover_fan]
  constructor
  · rintro ⟨a, b, ha, ha1, hb, hb1, rfl⟩
    obtain ⟨haxis, hleft, hup⟩ := h.point size a b
    refine ⟨haxis, fun i => ?_⟩
    rcases h.axes i with rfl | rfl | rfl
    · rw [haxis, abs_mul, h.abs_sign, one_mul]
    · rw [hleft, abs_mul, h.abs_sign, one_mul]
      exact abs_inside size ha ha1
    · rw [hup, abs_mul, h.abs_sign, one_mul]
      exact abs_inside size hb hb1
  · rintro ⟨hx, hin⟩
    obtain ⟨a, ha, ha1, hxa⟩ := exists_place (hin f.left) (h.sign_sq f.left) (h.abs_sign f.left)
    obtain ⟨b, hb, hb1, hxb⟩ := exists_place (hin f.up) (h.sign_sq f.up) (h.abs_sign f.up)
    obtain ⟨haxis, hleft, hup⟩ := h.point size a b
    refine ⟨a, b, ha, ha1, hb, hb1, funext fun i => ?_⟩
    rcases h.axes i with rfl | rfl | rfl
    · rw [haxis, hx]
    · rw [hleft, hxa]
    · rw [hup, hxb]

theorem Valid.areaVec (h : f.Valid) :
    ∀ t ∈ f.triangles size, areaVec t = Pi.single f.axis (f.sign f.axis * (2 * size ^ 2)) := by
  have hacross : ∀ i, f.across size i = (-2 * size) • (Pi.single i (f.sign i) : Vec3) := by
    intro i
    rw [across, ← Pi.single_smul, smul_eq_mul]
    congr 1
    ring
  intro t ht
  have harea := Triangle.area_fan _ _ _ crossProduct_isAlt t ht
  rw [hacross, hacross, map_smul, map_smul, LinearMap.smul_apply, h.winds, ← Pi.single_smul, ← Pi.single_smul,
    ← Pi.single_smul] at harea
  refine harea.trans ?_
  simp only [smul_eq_mul]
  congr 1
  ring

end BoxSide

/-- The six sides, with the corners in the order of `indices`. -/
def boxSides : List BoxSide :=
  [⟨axisZ, axisY, axisX, ![-1, -1, -1]⟩, ⟨axisZ, axisX, axisY, ![-1, -1, 1]⟩,
    ⟨axisX, axisY, axisZ, ![-1, -1, 1]⟩, ⟨axisX, axisY, axisZ, ![1, -1, -1]⟩,
    ⟨axisY, axisZ, axisX, ![-1, 1, -1]⟩, ⟨axisY, axisZ, axisX, ![-1, -1, 1]⟩]

theorem boxSides_valid : ∀ f ∈ boxSides, f.Valid := by
  simp only [boxSides, List.forall_mem_cons, List.not_mem_nil, false_implies, implies_true, and_true]
  refine ⟨?_, ?_, ?_, ?_, ?_, ?_⟩ <;>
    · refine ⟨by simp [Fin.forall_fin_succ], by decide, by decide, by decide, by decide, ?_⟩
      funext i
      fin_cases i <;> simp [cross_apply, axisX, axisY, axisZ]

/-! ## The box of `mesh_createbox` -/

def BoxSide.signs (f : BoxSide) : List (Triangle (Fin 3 → ℚ)) :=
  let turn (sign : Fin 3 → ℚ) (i : Fin 3) := Function.update sign i (- f.sign i)
  fan f.sign (turn f.sign f.left) (turn (turn f.sign f.left) f.up) (turn f.sign f.up)

theorem BoxSide.Valid.triangles_eq {f : BoxSide} (h : f.Valid) (size : ℚ) :
    f.triangles size = f.signs.map fun t => t.map (boxCorner size) := by
  have hturn : ∀ (sign : Fin 3 → ℚ) (i : Fin 3), sign i = f.sign i →
      boxCorner size sign + f.across size i = boxCorner size (Function.update sign i (- f.sign i)) := by
    intro sign i hi
    funext l
    rcases eq_or_ne l i with rfl | hl
    · simp only [boxCorner, across, Pi.add_apply, Pi.single_eq_same, Function.update_self, hi]
      ring
    · simp [boxCorner, across, hl]
  unfold triangles corner
  rw [hturn _ _ rfl, hturn _ _ rfl, hturn _ f.up (Function.update_of_ne h.apart.symm ..)]
  rfl

def boxSign (i : BitVec 16) : Fin 3 → ℚ := (Mesh.boxVertices fun a b c => ![(a : ℚ), b, c]).getD i.toNat 0

def boxSlots : List (Triangle (BitVec 16)) :=
  (List.range 12).map (Triangle.ofArray fun a => Mesh.boxIndices.getD a 0)

def boxFans : List (Triangle (BitVec 16)) :=
  fan 0 1 2 3 ++ fan 4 7 6 5 ++ fan 4 5 1 0 ++ fan 3 2 6 7 ++ fan 1 5 6 2 ++ fan 4 0 3 7

theorem boxSlots_perm : boxSlots.Perm boxFans := ((List.Perm.swap ..).cons _).cons _

theorem boxSides_signs : boxSides.flatMap BoxSide.signs = boxFans.map fun t => t.map boxSign := by
  decide

theorem boxSides_triangles (size : ℚ) : (boxSides.flatMap fun f => f.triangles size) =
    boxFans.map fun t => t.map fun i => boxCorner size (boxSign i) := by
  have hsides : ∀ f ∈ boxSides, f.triangles size = f.signs.map fun t => t.map (boxCorner size) :=
    fun f hf => (boxSides_valid f hf).triangles_eq size
  rw [List.flatMap_congr hsides, ← List.map_flatMap, boxSides_signs, List.map_map]
  rfl

theorem boxSlots_closed : Closed boxSlots := by
  unfold Closed Triangle.Balanced
  decide

/-! ## Triangles that are a box -/

/-- Each triangle is in a side of the box, and its area vector goes through that side: outwards, where `size`
is positive. Together they are the surface of the box, and every side of a triangle is there in both
directions. -/
structure IsBox (size area : ℚ) (ts : List (Triangle Vec3)) : Prop where
  inSide : ∀ t ∈ ts, ∃ f ∈ boxSides, t.hull ℚ ⊆ f.points size ∧ areaVec t = Pi.single f.axis (f.sign f.axis * area)
  cover : cover ℚ ts = boxSurface size
  closed : Closed ts

theorem exists_side : ∀ i : Fin 3, (∃ f ∈ boxSides, f.axis = i ∧ f.sign f.axis = 1) ∧
    ∃ f ∈ boxSides, f.axis = i ∧ f.sign f.axis = -1 := by decide

theorem mem_boxSurface {size : ℚ} {x : Vec3} : x ∈ boxSurface size ↔ ∃ f ∈ boxSides, x ∈ f.points size := by
  constructor
  · rintro ⟨hin, i, hi⟩
    obtain ⟨⟨f, hf, rfl, hup⟩, g, hg, haxis, hdown⟩ := exists_side i
    rcases abs_eq_abs.mp hi with e | e
    · exact ⟨f, hf, by rw [e, hup, one_mul], hin⟩
    · exact ⟨g, hg, by rw [haxis, e, ← haxis, hdown, neg_one_mul], hin⟩
  · rintro ⟨f, hf, hx, hin⟩
    refine ⟨hin, f.axis, ?_⟩
    rw [hx, abs_mul, (boxSides_valid f hf).abs_sign, one_mul]

theorem IsBox.perm {size area : ℚ} {ts ts' : List (Triangle Vec3)} (h : IsBox size area ts) (hp : ts'.Perm ts) :
    IsBox size area ts' where
  inSide t ht := h.inSide t (hp.mem_iff.mp ht)
  cover := (Triangle.cover_perm hp).trans h.cover
  closed := h.closed.perm hp

theorem boxSides_isBox (size : ℚ) :
    IsBox size (2 * size ^ 2) (boxSides.flatMap fun f => f.triangles size) where
  inSide := by
    intro t ht
    obtain ⟨f, hf, ht⟩ := List.mem_flatMap.mp ht
    have hvalid := boxSides_valid f hf
    refine ⟨f, hf, fun x hx => ?_, hvalid.areaVec t ht⟩
    rw [← hvalid.cover]
    exact ⟨t, ht, hx⟩
  cover := by
    ext x
    rw [Triangle.mem_cover_flatMap, mem_boxSurface]
    refine exists_congr fun f => and_congr_right fun hf => ?_
    rw [(boxSides_valid f hf).cover]
  closed := by
    rw [boxSides_triangles]
    exact (boxSlots_closed.perm boxSlots_perm.symm).map _

theorem boxSlots_isBox (size : ℚ) :
    IsBox size (2 * size ^ 2) (boxSlots.map fun t => t.map fun i => boxCorner size (boxSign i)) := by
  have hsides := boxSides_isBox size
  rw [boxSides_triangles] at hsides
  exact hsides.perm (boxSlots_perm.map _)

theorem IsBox.split {size area : ℚ} {ts : List (Triangle Vec3)} (h : IsBox size area ts) :
    IsBox size (area / 4) (ts.flatMap (Triangle.split (midpoint ℚ))) where
  inSide := by
    intro s hs
    obtain ⟨t, ht, hs⟩ := List.mem_flatMap.mp hs
    obtain ⟨f, hf, hin, harea⟩ := h.inSide t ht
    refine ⟨f, hf, fun x hx => hin (Triangle.exists_hull_split.mp ⟨s, hs, hx⟩), ?_⟩
    have hquarter := Triangle.area_split crossProduct_isAlt t s hs
    refine hquarter.trans ?_
    rw [show t.area crossProduct = _ from harea, ← Pi.single_smul, smul_eq_mul]
    congr 1
    ring
  cover := (Triangle.cover_split ts).trans h.cover
  closed := h.closed.split (midpoint_comm (R := ℚ))

/-! ## The mesh -/

namespace BoxRun

def exact (size : ℚ) (vertices : Nat → Vec3) (indices : Nat → BitVec 16) (capVtx capIdx : BitVec 16) : BoxRun Vec3 :=
  ⟨lerpHalf, fun a b c => boxCorner size ![a, b, c], vertices, indices, capVtx, capIdx⟩

theorem triangles_zero {V : Type} (r : BoxRun V) :
    (r.mesh 0).triangles = boxSlots.map fun t => t.map fun i => (r.mesh 0).vertices i.toNat := by
  have hcell : ∀ a < 36, (r.mesh 0).indices a = Mesh.boxIndices.getD a 0 := by
    intro a ha
    have hlt : a < Mesh.boxIndices.length := ha
    rw [List.getD_eq_getElem?_getD, List.getElem?_eq_getElem hlt]
    exact Mesh.store_memcpy (List.getElem?_eq_getElem hlt)
  unfold Mesh.triangles boxSlots
  rw [r.mesh_zero.1.idx, List.map_map]
  refine List.map_congr_left fun s hs => ?_
  rw [List.mem_range] at hs
  simp only [Mesh.triangle, Mesh.slot, Triangle.ofArray, Function.comp_apply]
  rw [hcell _ (by omega), hcell _ (by omega), hcell _ (by omega)]

theorem Fits.triangles {V : Type} {r : BoxRun V} {j k : Nat} (h : r.Fits k) (hj : j < k) :
    (r.mesh (j + 1)).triangles.Perm ((r.mesh j).triangles.flatMap (Triangle.split r.lerp)) := by
  obtain ⟨hcounts, hbelow⟩ := h.mesh (Nat.le_of_lt hj)
  obtain ⟨hv, hi⟩ := h.bits hj
  rw [Mesh.vtxCount] at hv
  rw [Mesh.triCount] at hi
  rw [mesh_succ]
  have hsub := hcounts.subdivided r.lerp hbelow hv (by omega)
  exact hsub.triangles hcounts.idx (by omega) hbelow hv

section

variable {size : ℚ} {vertices : Nat → Vec3} {indices : Nat → BitVec 16} {capVtx capIdx : BitVec 16} {k : Nat}

theorem vertices_zero {i : BitVec 16} (hi : i.toNat < 8) :
    ((exact size vertices indices capVtx capIdx).mesh 0).vertices i.toNat = boxCorner size (boxSign i) := by
  have hlen : i.toNat < (Mesh.boxVertices fun a b c => ![(a : ℚ), b, c]).length := hi
  unfold boxSign
  rw [List.getD_eq_getElem?_getD, List.getElem?_eq_getElem hlen, Option.getD_some]
  apply Mesh.store_memcpy
  change ((Mesh.boxVertices fun a b c => ![(a : ℚ), b, c]).map (boxCorner size))[i.toNat]? = _
  rw [List.getElem?_map, List.getElem?_eq_getElem hlen, Option.map_some]

theorem exact_zero : ((exact size vertices indices capVtx capIdx).mesh 0).triangles =
    boxSlots.map fun t => t.map fun i => boxCorner size (boxSign i) := by
  have hbelow : ∀ t ∈ boxSlots, t.p1.toNat < 8 ∧ t.p2.toNat < 8 ∧ t.p3.toNat < 8 := by decide
  rw [triangles_zero]
  refine List.map_congr_left fun t ht => ?_
  obtain ⟨h1, h2, h3⟩ := hbelow t ht
  simp only [Triangle.map]
  rw [vertices_zero h1, vertices_zero h2, vertices_zero h3]

/-- The box of any size, refined any number of times for which there is room, is a box of that size still. -/
theorem box_surface (h : (exact size vertices indices capVtx capIdx).Fits k) :
    IsBox size (2 * size ^ 2 / 4 ^ k) ((exact size vertices indices capVtx capIdx).mesh k).triangles := by
  have hrefined : ∀ j ≤ k, IsBox size (2 * size ^ 2 / 4 ^ j)
      ((exact size vertices indices capVtx capIdx).mesh j).triangles := by
    intro j hj
    induction j with
    | zero =>
      rw [pow_zero, div_one, exact_zero]
      exact boxSlots_isBox size
    | succ j ih =>
      have hperm := h.triangles hj
      have hsplit := (ih (Nat.le_of_succ_le hj)).split
      rw [← lerpHalf_eq_midpoint] at hsplit
      rw [pow_succ 4 j, ← div_div]
      exact hsplit.perm hperm
  exact hrefined k (Nat.le_refl k)

theorem box_surface_two : IsBox 65 (2 * 65 ^ 2 / 4 ^ 2)
    ((exact 65 (fun _ => 0) (fun _ => 0) 2048 8096).mesh 2).triangles :=
  box_surface ⟨by decide, by decide⟩

end

end BoxRun

end Gppcu
