import Gppcu.Lib.Cells
import Gppcu.Lib.Grid
import Gppcu.Lib.Run
import Gppcu.Lib.Triangle

/-!
# The subdivision of a mesh

`mesh_subdevide`: its loop reads a triangle, puts three new vertices behind the
others, the middle triangle in the place of the old one, and the three corners
behind the other triangles. Whatever `vec3_lerp` does is a parameter here.
-/

namespace Gppcu

open Lib (Triangle)

/-! ## The functions of `app.c` -/

/-- `swk_mesh_t`. An array has no end here: what it has room for is in `capVtx` and `capIdx`. -/
structure Mesh (V : Type) where
  vertices : Nat → V
  indices : Nat → BitVec 16
  numVertices : BitVec 16
  numIndices : BitVec 16
  capVtx : BitVec 16
  capIdx : BitVec 16

namespace Mesh

variable {V : Type} (lerp : V → V → V)

/-- What the body of the loop stores in the vertices, in order. -/
def vtxStores (mesh : Mesh V) (idx : Nat) : List (Nat × V) :=
  let i1 := mesh.indices idx
  let i2 := mesh.indices (idx + 1)
  let i3 := mesh.indices (idx + 2)
  let v1 := mesh.vertices i1.toNat
  let v2 := mesh.vertices i2.toNat
  let v3 := mesh.vertices i3.toNat
  let v4 := lerp v1 v2
  let v6 := lerp v2 v3
  let v5 := lerp v3 v1
  let i4 := mesh.numVertices
  let i5 := mesh.numVertices + 1
  let i6 := mesh.numVertices + 2
  [(i4.toNat, v4), (i5.toNat, v5), (i6.toNat, v6)]

def idxStores (mesh : Mesh V) (idx : Nat) : List (Nat × BitVec 16) :=
  let pi := idx
  let pn := mesh.numIndices.toNat
  let i1 := mesh.indices pi
  let i2 := mesh.indices (pi + 1)
  let i3 := mesh.indices (pi + 2)
  let i4 := mesh.numVertices
  let i5 := mesh.numVertices + 1
  let i6 := mesh.numVertices + 2
  [(pi, i5), (pi + 1, i4), (pi + 2, i6),
    (pn, i1), (pn + 1, i4), (pn + 2, i5),
    (pn + 3, i4), (pn + 4, i2), (pn + 5, i6),
    (pn + 6, i6), (pn + 7, i3), (pn + 8, i5)]

def body (mesh : Mesh V) (idx : Nat) : Mesh V :=
  { mesh with
    vertices := Lib.store mesh.vertices (mesh.vtxStores lerp idx)
    indices := Lib.store mesh.indices (mesh.idxStores idx)
    numVertices := mesh.numVertices + 3
    numIndices := mesh.numIndices + 9 }

/-- The values of `idx`: every third number below `initial_max`. -/
def heads (initialMax : Nat) : List Nat := (List.range ((initialMax + 2) / 3)).map (3 * ·)

def meshSubdevide (mesh : Mesh V) : Mesh V := Lib.run (body lerp) mesh (heads mesh.numIndices.toNat)

/-! ## Triangles of indices -/

def slot (mesh : Mesh V) : Nat → Triangle (BitVec 16) := Triangle.ofArray mesh.indices

def triangle (mesh : Mesh V) (s : Nat) : Triangle V := (mesh.slot s).map fun i => mesh.vertices i.toNat

def triangles (mesh : Mesh V) : List (Triangle V) :=
  (List.range (mesh.numIndices.toNat / 3)).map mesh.triangle

theorem slot_body (mesh : Mesh V) {t h : Nat} (hn : mesh.numIndices.toNat = 3 * h) :
    (mesh.body lerp (3 * t)).slot = Lib.store mesh.slot
      [(t, ⟨mesh.numVertices + 1, mesh.numVertices, mesh.numVertices + 2⟩),
        (h, ⟨(mesh.slot t).p1, mesh.numVertices, mesh.numVertices + 1⟩),
        (h + 1, ⟨mesh.numVertices, (mesh.slot t).p2, mesh.numVertices + 2⟩),
        (h + 2, ⟨mesh.numVertices + 2, (mesh.slot t).p3, mesh.numVertices + 1⟩)] := by
  unfold slot
  rw [← Triangle.ofArray_store]
  unfold body idxStores
  rw [hn]
  rfl

theorem vertices_body (mesh : Mesh V) {t n : Nat} (hn : mesh.numVertices = BitVec.ofNat 16 n)
    (hlt : n + 2 < 2 ^ 16) : (mesh.body lerp (3 * t)).vertices = Lib.store mesh.vertices
      [(n, lerp (mesh.triangle t).p1 (mesh.triangle t).p2),
        (n + 1, lerp (mesh.triangle t).p3 (mesh.triangle t).p1),
        (n + 2, lerp (mesh.triangle t).p2 (mesh.triangle t).p3)] := by
  have hnum : ∀ k ≤ 2, (BitVec.ofNat 16 n + BitVec.ofNat 16 k).toNat = n + k := by
    intro k hk
    rw [← BitVec.ofNat_add, BitVec.toNat_ofNat, Nat.mod_eq_of_lt (by omega)]
  have h0 : (BitVec.ofNat 16 n).toNat = n := by
    rw [BitVec.toNat_ofNat, Nat.mod_eq_of_lt (by omega)]
  unfold body vtxStores
  rw [hn]
  simp only
  rw [h0, show (BitVec.ofNat 16 n + 1).toNat = n + 1 from hnum 1 (by omega),
    show (BitVec.ofNat 16 n + 2).toNat = n + 2 from hnum 2 (by omega)]
  rfl

/-! ## The loop -/

def Below (mesh : Mesh V) (T N : Nat) : Prop :=
  ∀ s < T, (mesh.slot s).p1.toNat < N ∧ (mesh.slot s).p2.toNat < N ∧ (mesh.slot s).p3.toNat < N

/-- The mesh `m` after `t` rounds on a mesh of `N` vertices and `T` triangles: the first `t` triangles are
middle ones, and their vertices and corners are behind what was there. -/
structure Subdivided (mesh : Mesh V) (N T t : Nat) (m : Mesh V) : Prop where
  numVertices : m.numVertices = BitVec.ofNat 16 (N + 3 * t)
  numIndices : m.numIndices = BitVec.ofNat 16 (3 * (T + 3 * t))
  old : ∀ a < N, m.vertices a = mesh.vertices a
  mids : ∀ s < t, m.vertices (N + 3 * s) = lerp (mesh.triangle s).p1 (mesh.triangle s).p2 ∧
    m.vertices (N + 3 * s + 1) = lerp (mesh.triangle s).p3 (mesh.triangle s).p1 ∧
    m.vertices (N + 3 * s + 2) = lerp (mesh.triangle s).p2 (mesh.triangle s).p3
  todo : ∀ s, t ≤ s → s < T → m.slot s = mesh.slot s
  middle : ∀ s < t, m.slot s =
    ⟨BitVec.ofNat 16 (N + 3 * s + 1), BitVec.ofNat 16 (N + 3 * s), BitVec.ofNat 16 (N + 3 * s + 2)⟩
  corners : ∀ s < t,
    m.slot (T + 3 * s) =
      ⟨(mesh.slot s).p1, BitVec.ofNat 16 (N + 3 * s), BitVec.ofNat 16 (N + 3 * s + 1)⟩ ∧
    m.slot (T + 3 * s + 1) =
      ⟨BitVec.ofNat 16 (N + 3 * s), (mesh.slot s).p2, BitVec.ofNat 16 (N + 3 * s + 2)⟩ ∧
    m.slot (T + 3 * s + 2) =
      ⟨BitVec.ofNat 16 (N + 3 * s + 2), (mesh.slot s).p3, BitVec.ofNat 16 (N + 3 * s + 1)⟩

variable {lerp} {mesh m : Mesh V} {N T t : Nat}

theorem triangle_congr (hslot : m.slot t = mesh.slot t) (hold : ∀ a < N, m.vertices a = mesh.vertices a)
    (hbelow : mesh.Below T N) (ht : t < T) : m.triangle t = mesh.triangle t := by
  obtain ⟨h1, h2, h3⟩ := hbelow t ht
  unfold triangle Triangle.map
  simp only [hslot, hold _ h1, hold _ h2, hold _ h3]

theorem Subdivided.step (h : Subdivided lerp mesh N T t m) (ht : t < T) (hbelow : mesh.Below T N)
    (hvtx : N + 3 * T < 2 ^ 16) (hidx : 12 * T < 2 ^ 16) :
    Subdivided lerp mesh N T (t + 1) (m.body lerp (3 * t)) := by
  have hhead : m.numIndices.toNat = 3 * (T + 3 * t) := by
    rw [h.numIndices, BitVec.toNat_ofNat, Nat.mod_eq_of_lt (by omega)]
  have hslots := m.slot_body lerp (t := t) hhead
  have hverts := m.vertices_body lerp (t := t) h.numVertices (by omega)
  rw [triangle_congr (h.todo t (Nat.le_refl _) ht) h.old hbelow ht] at hverts
  rw [h.todo t (Nat.le_refl _) ht, h.numVertices,
    show BitVec.ofNat 16 (N + 3 * t) + 1 = BitVec.ofNat 16 (N + 3 * t + 1) from (BitVec.ofNat_add ..).symm,
    show BitVec.ofNat 16 (N + 3 * t) + 2 = BitVec.ofNat 16 (N + 3 * t + 2) from (BitVec.ofNat_add ..).symm]
    at hslots
  have hverts' : ∀ a, a < N + 3 * t → (m.body lerp (3 * t)).vertices a = m.vertices a := by
    intro a ha
    rw [hverts]
    apply Lib.store_other
    simp only [List.forall_mem_cons, List.not_mem_nil, false_implies, implies_true, and_true]
    omega
  have hslots' : ∀ s, s ≠ t → s < T + 3 * t → (m.body lerp (3 * t)).slot s = m.slot s := by
    intro s hs hlt
    rw [hslots]
    apply Lib.store_other
    simp only [List.forall_mem_cons, List.not_mem_nil, false_implies, implies_true, and_true]
    omega
  constructor
  · change m.numVertices + 3 = _
    rw [h.numVertices]
    exact (BitVec.ofNat_add ..).symm
  · change m.numIndices + 9 = _
    rw [h.numIndices]
    exact (BitVec.ofNat_add ..).symm
  · intro a ha
    rw [hverts' a (by omega), h.old a ha]
  · intro s hs
    rcases Nat.lt_succ_iff_lt_or_eq.mp hs with hs | rfl
    · rw [hverts' _ (by omega), hverts' _ (by omega), hverts' _ (by omega)]
      exact h.mids s hs
    · rw [hverts]
      simp
  · intro s hs hlt
    rw [hslots' s (by omega) (by omega), h.todo s (by omega) hlt]
  · intro s hs
    rcases Nat.lt_succ_iff_lt_or_eq.mp hs with hs | rfl
    · rw [hslots' s (by omega) (by omega), h.middle s hs]
    · rw [hslots]
      simp only [Lib.store_cons, Lib.store_nil, Function.update_apply]
      rw [if_neg (by omega), if_neg (by omega), if_neg (by omega), if_pos trivial]
  · intro s hs
    rcases Nat.lt_succ_iff_lt_or_eq.mp hs with hs | rfl
    · rw [hslots' _ (by omega) (by omega), hslots' _ (by omega) (by omega), hslots' _ (by omega) (by omega)]
      exact h.corners s hs
    · rw [hslots]
      simp

theorem subdivided_zero (hv : mesh.numVertices = BitVec.ofNat 16 N) (hi : mesh.numIndices = BitVec.ofNat 16 (3 * T)) :
    Subdivided lerp mesh N T 0 mesh :=
  ⟨hv, hi, fun _ _ => rfl, by simp, fun _ _ _ => rfl, by simp, by simp⟩

theorem subdivided_run (h : Subdivided lerp mesh N T 0 mesh) (ht : t ≤ T) (hbelow : mesh.Below T N)
    (hvtx : N + 3 * T < 2 ^ 16) (hidx : 12 * T < 2 ^ 16) :
    Subdivided lerp mesh N T t (Lib.run (body lerp) mesh ((List.range t).map (3 * ·))) := by
  induction t with
  | zero => exact h
  | succ t ih =>
    rw [List.range_succ, List.map_append, List.map_singleton, Lib.run_concat]
    exact (ih (Nat.le_of_succ_le ht)).step ht hbelow hvtx hidx

/-! ## The mesh behind the loop -/

theorem toNat_new {s : Nat} (hs : s < T) (hvtx : N + 3 * T < 2 ^ 16) :
    (BitVec.ofNat 16 (N + 3 * s)).toNat = N + 3 * s ∧
      (BitVec.ofNat 16 (N + 3 * s + 1)).toNat = N + 3 * s + 1 ∧
      (BitVec.ofNat 16 (N + 3 * s + 2)).toNat = N + 3 * s + 2 := by
  simp only [BitVec.toNat_ofNat]
  rw [Nat.mod_eq_of_lt (by omega), Nat.mod_eq_of_lt (by omega), Nat.mod_eq_of_lt (by omega)]
  exact ⟨rfl, rfl, rfl⟩

theorem slot_cases {s : Nat} (hs : s < 4 * T) : s < T ∨
    ∃ q < T, s = T + 3 * q ∨ s = T + 3 * q + 1 ∨ s = T + 3 * q + 2 := by
  rcases Nat.lt_or_ge s T with hlt | hge
  · exact Or.inl hlt
  · exact Or.inr ⟨(s - T) / 3, by omega, by omega⟩

theorem Subdivided.below (h : Subdivided lerp mesh N T T m) (hbelow : mesh.Below T N)
    (hvtx : N + 3 * T < 2 ^ 16) : m.Below (4 * T) (N + 3 * T) := by
  intro s hs
  rcases slot_cases hs with hs | ⟨q, hq, hs⟩
  · obtain ⟨h4, h5, h6⟩ := toNat_new hs hvtx
    rw [h.middle s hs]
    simp only [h4, h5, h6]
    omega
  · obtain ⟨h4, h5, h6⟩ := toNat_new hq hvtx
    obtain ⟨hc1, hc2, hc3⟩ := h.corners q hq
    obtain ⟨h1, h2, h3⟩ := hbelow q hq
    rcases hs with rfl | rfl | rfl
    · rw [hc1]
      simp only [h4, h5]
      omega
    · rw [hc2]
      simp only [h4, h6]
      omega
    · rw [hc3]
      simp only [h5, h6]
      omega

theorem Subdivided.triangle_middle (h : Subdivided lerp mesh N T T m) (hvtx : N + 3 * T < 2 ^ 16) {s : Nat}
    (hs : s < T) : m.triangle s = (mesh.triangle s).medial lerp := by
  obtain ⟨h4, h5, h6⟩ := toNat_new hs hvtx
  obtain ⟨hv4, hv5, hv6⟩ := h.mids s hs
  rw [triangle, h.middle s hs]
  simp only [Triangle.map, h4, h5, h6, hv4, hv5, hv6]
  rfl

theorem Subdivided.triangle_corners (h : Subdivided lerp mesh N T T m) (hbelow : mesh.Below T N)
    (hvtx : N + 3 * T < 2 ^ 16) {s : Nat} (hs : s < T) :
    [m.triangle (T + 3 * s), m.triangle (T + 3 * s + 1), m.triangle (T + 3 * s + 2)] =
      (mesh.triangle s).corners lerp := by
  obtain ⟨h4, h5, h6⟩ := toNat_new hs hvtx
  obtain ⟨hv4, hv5, hv6⟩ := h.mids s hs
  obtain ⟨hc1, hc2, hc3⟩ := h.corners s hs
  obtain ⟨h1, h2, h3⟩ := hbelow s hs
  have hold : ∀ i : BitVec 16, i.toNat < N → m.vertices i.toNat = mesh.vertices i.toNat := fun i hi => h.old _ hi
  rw [triangle, triangle, triangle, hc1, hc2, hc3]
  simp only [Triangle.map, h4, h5, h6, hv4, hv5, hv6, hold _ h1, hold _ h2, hold _ h3]
  rfl

theorem Subdivided.triangles (h : Subdivided lerp mesh N T T m) (hn : mesh.numIndices.toNat = 3 * T)
    (hidx : 12 * T < 2 ^ 16) (hbelow : mesh.Below T N) (hvtx : N + 3 * T < 2 ^ 16) :
    m.triangles.Perm (mesh.triangles.flatMap (Triangle.split lerp)) := by
  have hnew : m.numIndices.toNat = 3 * (T + T * 3) := by
    rw [h.numIndices, BitVec.toNat_ofNat, Nat.mod_eq_of_lt (by omega)]
    omega
  have hmiddle : (List.range T).map m.triangle = (List.range T).map fun s => (mesh.triangle s).medial lerp :=
    List.map_congr_left fun s hs => h.triangle_middle hvtx (List.mem_range.mp hs)
  have hcorners : ((List.range (T * 3)).map (T + ·)).map m.triangle =
      (List.range T).flatMap fun s => (mesh.triangle s).corners lerp := by
    rw [Lib.range_rows, List.map_flatMap, List.map_flatMap]
    apply List.flatMap_congr
    intro s hs
    rw [← h.triangle_corners hbelow hvtx (List.mem_range.mp hs), Nat.mul_comm 3 s]
    rfl
  unfold Mesh.triangles
  rw [hnew, hn, Nat.mul_div_cancel_left _ (by decide), Nat.mul_div_cancel_left _ (by decide), List.range_add,
    List.map_append, hmiddle, hcorners, List.flatMap_map]
  exact List.map_append_flatMap_perm _ _ _

end Mesh

end Gppcu
