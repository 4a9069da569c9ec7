import Gppcu.Mesh.Subdevide

/-!
# The storage of a mesh

`mesh_init` allocates the arrays, `mesh_createbox` looks whether a box fits them,
and `mesh_subdevide` only stores. Its counters have 16 bits.
-/

namespace Gppcu

namespace Mesh

variable {V : Type}

/-! ## The functions of `app.c` -/

/-- The arrays hold what `malloc` leaves in them. -/
def meshInit (vertices : Nat → V) (indices : Nat → BitVec 16) (capVtx capIdx : BitVec 16) : Mesh V :=
  ⟨vertices, indices, 0, 0, capVtx, capIdx⟩

/-- `corner` is the vertex with these signs. -/
def boxVertices (corner : Int → Int → Int → V) : List V :=
  [corner (-1) (-1) (-1), corner (-1) 1 (-1), corner 1 1 (-1), corner 1 (-1) (-1),
    corner (-1) (-1) 1, corner (-1) 1 1, corner 1 1 1, corner 1 (-1) 1]

def boxIndices : List (BitVec 16) :=
  [0, 1, 2, 0, 2, 3,
    4, 6, 5, 4, 7, 6,
    4, 5, 1, 4, 1, 0,
    3, 2, 6, 3, 6, 7,
    1, 5, 6, 1, 6, 2,
    4, 0, 3, 4, 3, 7]

def memcpy {α : Type} (xs : List α) : List (Nat × α) := xs.zipIdx.map Prod.swap

/-- Its assertions only print. -/
def meshCreatebox (corner : Int → Int → Int → V) (mesh : Mesh V) : Mesh V :=
  { mesh with
    vertices := Lib.store mesh.vertices (memcpy (boxVertices corner))
    indices := Lib.store mesh.indices (memcpy boxIndices)
    numVertices := BitVec.ofNat 16 (boxVertices corner).length
    numIndices := BitVec.ofNat 16 boxIndices.length }

def BoxFits (mesh : Mesh V) : Prop := mesh.capVtx.toNat > 8 ∧ mesh.capIdx.toNat > 36

variable (lerp : V → V → V)

def subdevideVtx (mesh : Mesh V) : List (Nat × V) :=
  Lib.trace (body lerp) (vtxStores lerp) mesh (heads mesh.numIndices.toNat)

def subdevideIdx (mesh : Mesh V) : List (Nat × BitVec 16) :=
  Lib.trace (body lerp) idxStores mesh (heads mesh.numIndices.toNat)

/-! ## The counters -/

theorem run_counts (mesh : Mesh V) (heads : List Nat) :
    (Lib.run (body lerp) mesh heads).numVertices = mesh.numVertices + BitVec.ofNat 16 (3 * heads.length) ∧
      (Lib.run (body lerp) mesh heads).numIndices = mesh.numIndices + BitVec.ofNat 16 (9 * heads.length) ∧
      (Lib.run (body lerp) mesh heads).capVtx = mesh.capVtx ∧
      (Lib.run (body lerp) mesh heads).capIdx = mesh.capIdx := by
  induction heads generalizing mesh with
  | nil => simp
  | cons idx heads ih =>
    obtain ⟨hv, hi, hcv, hci⟩ := ih (mesh.body lerp idx)
    rw [Lib.run_cons, hv, hi, hcv, hci, List.length_cons, Nat.mul_succ, Nat.mul_succ, BitVec.ofNat_add,
      BitVec.ofNat_add]
    refine ⟨?_, ?_, rfl, rfl⟩
    · rw [BitVec.add_comm _ (BitVec.ofNat 16 3), ← BitVec.add_assoc]
      rfl
    · rw [BitVec.add_comm _ (BitVec.ofNat 16 9), ← BitVec.add_assoc]
      rfl

/-- The counters hold `n` vertices and `3 * t` indices. -/
structure Counts (mesh : Mesh V) (n t : Nat) : Prop where
  vtx : mesh.numVertices.toNat = n
  idx : mesh.numIndices.toNat = 3 * t

section Rounds

variable {mesh : Mesh V} {N T t : Nat} (h : mesh.Counts N T)

include h

theorem Counts.heads : heads mesh.numIndices.toNat = (List.range T).map (3 * ·) := by
  unfold Mesh.heads
  rw [h.idx]
  congr 2
  omega

theorem Counts.round : (Lib.run (body lerp) mesh ((List.range t).map (3 * ·))).numVertices =
      BitVec.ofNat 16 (N + 3 * t) ∧
    (Lib.run (body lerp) mesh ((List.range t).map (3 * ·))).numIndices = BitVec.ofNat 16 (3 * (T + 3 * t)) := by
  obtain ⟨hv, hi, -⟩ := run_counts lerp mesh ((List.range t).map (3 * ·))
  have hvtx : mesh.numVertices = BitVec.ofNat 16 N := by
    rw [← h.vtx, BitVec.ofNat_toNat, BitVec.setWidth_eq]
  have hidx : mesh.numIndices = BitVec.ofNat 16 (3 * T) := by
    rw [← h.idx, BitVec.ofNat_toNat, BitVec.setWidth_eq]
  rw [hv, hi, hvtx, hidx, List.length_map, List.length_range, ← BitVec.ofNat_add, ← BitVec.ofNat_add]
  refine ⟨rfl, ?_⟩
  congr 1
  omega

theorem Counts.subdevide (hvtx : N + 3 * T < 2 ^ 16) (hidx : 12 * T < 2 ^ 16) :
    (mesh.meshSubdevide lerp).Counts (N + 3 * T) (4 * T) := by
  obtain ⟨hv, hi⟩ := h.round lerp (t := T)
  rw [← h.heads] at hv hi
  constructor
  · exact (congrArg BitVec.toNat hv).trans (Nat.mod_eq_of_lt hvtx)
  · refine (congrArg BitVec.toNat hi).trans ((Nat.mod_eq_of_lt (by omega)).trans ?_)
    omega

end Rounds

/-! ## Where a call stores -/

theorem vtxStores_fst {m : Mesh V} {n : Nat} (hn : m.numVertices = BitVec.ofNat 16 n) (idx : Nat) :
    (m.vtxStores lerp idx).map Prod.fst = [n % 2 ^ 16, (n + 1) % 2 ^ 16, (n + 2) % 2 ^ 16] := by
  unfold vtxStores
  rw [hn]
  simp only [List.map_cons, List.map_nil, BitVec.toNat_ofNat]
  congr 2
  · exact (congrArg BitVec.toNat (BitVec.ofNat_add n 1)).symm.trans (BitVec.toNat_ofNat ..)
  · exact congrArg (fun a => [a]) ((congrArg BitVec.toNat (BitVec.ofNat_add n 2)).symm.trans (BitVec.toNat_ofNat ..))

theorem idxStores_fst {m : Mesh V} {p : Nat} (hp : m.numIndices.toNat = p) (idx : Nat) :
    (m.idxStores idx).map Prod.fst = [idx, idx + 1, idx + 2] ++ (List.range 9).map (p + ·) := by
  unfold idxStores
  rw [hp]
  rfl

section Stores

variable {mesh : Mesh V} {N T : Nat} (h : mesh.Counts N T)

include h

theorem Counts.vtx_rounds : (subdevideVtx lerp mesh) = (List.range T).flatMap fun t =>
    vtxStores lerp (Lib.run (body lerp) mesh ((List.range t).map (3 * ·))) (3 * t) := by
  unfold subdevideVtx
  rw [h.heads, Lib.trace_range]

theorem Counts.idx_rounds : (subdevideIdx lerp mesh) = (List.range T).flatMap fun t =>
    idxStores (Lib.run (body lerp) mesh ((List.range t).map (3 * ·))) (3 * t) := by
  unfold subdevideIdx
  rw [h.heads, Lib.trace_range]

theorem Counts.vtx_fst (hvtx : N + 3 * T ≤ 2 ^ 16) :
    (subdevideVtx lerp mesh).map Prod.fst = (List.range (T * 3)).map (N + ·) := by
  rw [h.vtx_rounds, List.map_flatMap, Lib.range_rows, List.map_flatMap]
  apply List.flatMap_congr
  intro t ht
  rw [List.mem_range] at ht
  rw [vtxStores_fst lerp (h.round lerp).1, Nat.mod_eq_of_lt (by omega), Nat.mod_eq_of_lt (by omega),
    Nat.mod_eq_of_lt (by omega), Nat.mul_comm 3 t]
  rfl

theorem Counts.idx_lt (hidx : 12 * T ≤ 2 ^ 16) {p : Nat × BitVec 16} (hp : p ∈ subdevideIdx lerp mesh) :
    p.1 < 12 * T := by
  rw [h.idx_rounds, List.mem_flatMap] at hp
  obtain ⟨t, ht, hp⟩ := hp
  rw [List.mem_range] at ht
  have hhead := (congrArg BitVec.toNat (h.round lerp (t := t)).2).trans (Nat.mod_eq_of_lt (by omega))
  have hfst := List.mem_map_of_mem (f := Prod.fst) hp
  rw [idxStores_fst hhead] at hfst
  simp only [List.mem_append, List.mem_cons, List.not_mem_nil, or_false, List.mem_map, List.mem_range] at hfst
  rcases hfst with hfst | ⟨r, hr, hfst⟩ <;> omega

theorem Counts.exists_vtx {c : Nat} (hge : N ≤ c) (hlt : c < N + 3 * T) (hbits : c < 2 ^ 16) :
    ∃ p ∈ subdevideVtx lerp mesh, p.1 = c := by
  rw [h.vtx_rounds]
  have hmem : c ∈ (vtxStores lerp (Lib.run (body lerp) mesh ((List.range ((c - N) / 3)).map (3 * ·)))
      (3 * ((c - N) / 3))).map Prod.fst := by
    rw [vtxStores_fst lerp (h.round lerp).1]
    simp only [List.mem_cons, List.not_mem_nil]
    omega
  obtain ⟨p, hp, rfl⟩ := List.mem_map.mp hmem
  exact ⟨p, List.mem_flatMap.mpr ⟨_, List.mem_range.mpr (by omega), hp⟩, rfl⟩

theorem Counts.exists_idx {c : Nat} (hge : 3 * T ≤ c) (hlt : c < 12 * T) (hbits : c < 2 ^ 16) :
    ∃ p ∈ subdevideIdx lerp mesh, p.1 = c := by
  rw [h.idx_rounds]
  have hhead := (congrArg BitVec.toNat (h.round lerp (t := (c - 3 * T) / 9)).2).trans
    (Nat.mod_eq_of_lt (by omega))
  have hmem : c ∈ (idxStores (Lib.run (body lerp) mesh ((List.range ((c - 3 * T) / 9)).map (3 * ·)))
      (3 * ((c - 3 * T) / 9))).map Prod.fst := by
    rw [idxStores_fst hhead]
    simp only [List.mem_append, List.mem_map, List.mem_range]
    exact Or.inr ⟨(c - 3 * T) % 9, by omega, by omega⟩
  obtain ⟨p, hp, rfl⟩ := List.mem_map.mp hmem
  exact ⟨p, List.mem_flatMap.mpr ⟨_, List.mem_range.mpr (by omega), hp⟩, rfl⟩

end Stores

/-! ## What a call stores in the indices -/

section Values

variable {mesh : Mesh V} {N T : Nat} (h : mesh.Counts N T)

include h

theorem Counts.start : Subdivided lerp mesh N T 0 mesh := by
  obtain ⟨hv, hi⟩ := h.round lerp (t := 0)
  exact subdivided_zero hv hi

theorem Counts.idx_values (hbelow : mesh.Below T N) (hvtx : N + 3 * T < 2 ^ 16) (hidx : 12 * T < 2 ^ 16)
    {p : Nat × BitVec 16} (hp : p ∈ subdevideIdx lerp mesh) : p.2.toNat < N + 3 * T := by
  rw [h.idx_rounds, List.mem_flatMap] at hp
  obtain ⟨t, ht, hp⟩ := hp
  rw [List.mem_range] at ht
  have hround := subdivided_run (h.start lerp) (Nat.le_of_lt ht) hbelow hvtx hidx
  generalize Lib.run (body lerp) mesh ((List.range t).map (3 * ·)) = m at hround hp
  have hold := hround.todo t (Nat.le_refl _) ht
  obtain ⟨h1, h2, h3⟩ := hbelow t ht
  obtain ⟨h4, h5, h6⟩ := toNat_new ht hvtx
  rw [← hold] at h1 h2 h3
  rw [BitVec.ofNat_add] at h5 h6
  rw [← hround.numVertices] at h4 h5 h6
  have hnew : (m.numVertices + 1).toNat = N + 3 * t + 1 ∧ (m.numVertices + 2).toNat = N + 3 * t + 2 := ⟨h5, h6⟩
  have hcorner : (m.indices (3 * t)).toNat < N ∧ (m.indices (3 * t + 1)).toNat < N ∧
      (m.indices (3 * t + 2)).toNat < N := ⟨h1, h2, h3⟩
  revert p
  unfold idxStores
  simp only [List.forall_mem_cons, List.not_mem_nil, false_implies, implies_true, and_true, h4, hnew]
  omega

theorem Counts.subdivided (hbelow : mesh.Below T N) (hvtx : N + 3 * T < 2 ^ 16) (hidx : 12 * T < 2 ^ 16) :
    Subdivided lerp mesh N T T (mesh.meshSubdevide lerp) := by
  unfold meshSubdevide
  rw [h.heads]
  exact subdivided_run (h.start lerp) (Nat.le_refl _) hbelow hvtx hidx

end Values

/-! ## A box and its subdivisions -/

def triCount : Nat → Nat
  | 0 => 12
  | k + 1 => 4 * triCount k

def vtxCount : Nat → Nat
  | 0 => 8
  | k + 1 => vtxCount k + 3 * triCount k

theorem triCount_eq (k : Nat) : triCount k = 12 * 4 ^ k := by
  induction k with
  | zero => rfl
  | succ k ih =>
    rw [triCount, ih, Nat.pow_succ]
    omega

theorem vtxCount_eq (k : Nat) : vtxCount k = 12 * 4 ^ k - 4 := by
  induction k with
  | zero => rfl
  | succ k ih =>
    have hpos := Nat.pow_pos (n := k) (show 0 < 4 by decide)
    rw [vtxCount, ih, triCount_eq, Nat.pow_succ]
    omega

theorem vtxCount_mono {j k : Nat} (h : j ≤ k) : vtxCount j ≤ vtxCount k := by
  induction k, h using Nat.le_induction with
  | base => exact Nat.le_refl _
  | succ k _ ih => exact Nat.le_trans ih (Nat.le_add_right ..)

theorem triCount_mono {j k : Nat} (h : j ≤ k) : triCount j ≤ triCount k := by
  rw [triCount_eq, triCount_eq]
  exact Nat.mul_le_mul_left _ (Nat.pow_le_pow_right (by decide) h)

theorem mem_memcpy {α : Type} {xs : List α} {p : Nat × α} : p ∈ memcpy xs ↔ xs[p.1]? = some p.2 := by
  unfold memcpy
  rw [List.mem_map]
  constructor
  · rintro ⟨q, hq, rfl⟩
    exact List.mem_zipIdx_iff_getElem?.mp hq
  · intro h
    exact ⟨p.swap, List.mem_zipIdx_iff_getElem?.mpr h, rfl⟩

theorem store_memcpy {α : Type} {f : Nat → α} {xs : List α} {a : Nat} {x : α} (h : xs[a]? = some x) :
    Lib.store f (memcpy xs) a = x := by
  apply Lib.store_own (mem_memcpy.mpr h)
  rintro p hp rfl
  rw [mem_memcpy, h] at hp
  exact (Option.some.inj hp).symm

theorem memcpy_fst {α : Type} (xs : List α) : (memcpy xs).map Prod.fst = List.range xs.length := by
  unfold memcpy
  rw [List.map_map, List.range_eq_range']
  exact List.zipIdx_map_snd 0 xs

end Mesh

/-- What the mesh of a box depends on: the arithmetic, the vertices of the box, what `malloc` leaves in the
arrays, and the capacities. -/
structure BoxRun (V : Type) where
  lerp : V → V → V
  corner : Int → Int → Int → V
  vertices : Nat → V
  indices : Nat → BitVec 16
  capVtx : BitVec 16
  capIdx : BitVec 16

namespace BoxRun

open Mesh

variable {V : Type} (r : BoxRun V)

def mesh (k : Nat) : Mesh V :=
  (meshSubdevide r.lerp)^[k] (meshCreatebox r.corner (meshInit r.vertices r.indices r.capVtx r.capIdx))

def vtxStores (k : Nat) : List (Nat × V) :=
  memcpy (boxVertices r.corner) ++ (List.range k).flatMap fun j => subdevideVtx r.lerp (r.mesh j)

def idxStores (k : Nat) : List (Nat × BitVec 16) :=
  memcpy boxIndices ++ (List.range k).flatMap fun j => subdevideIdx r.lerp (r.mesh j)

structure InBounds (k : Nat) : Prop where
  vtx : ∀ p ∈ r.vtxStores k, p.1 < r.capVtx.toNat
  idx : ∀ p ∈ r.idxStores k, p.1 < r.capIdx.toNat

/-- The counters are the true counts and within the capacity, each vertex goes behind those before it, and
every index that is stored is that of a vertex. -/
structure StorageHolds (k : Nat) : Prop where
  inBounds : r.InBounds k
  numVertices : (r.mesh k).numVertices.toNat ≤ r.capVtx.toNat
  numIndices : (r.mesh k).numIndices.toNat ≤ r.capIdx.toNat
  counts : ∀ j ≤ k, (r.mesh j).Counts (vtxCount j) (triCount j)
  places : (r.vtxStores k).map Prod.fst = List.range (vtxCount k)
  values : ∀ p ∈ r.idxStores k, p.2.toNat < vtxCount k

def Fits (k : Nat) : Prop := vtxCount k ≤ r.capVtx.toNat ∧ 3 * triCount k ≤ r.capIdx.toNat

theorem mesh_succ (k : Nat) : r.mesh (k + 1) = (r.mesh k).meshSubdevide r.lerp := Function.iterate_succ_apply' ..

theorem vtxStores_succ (k : Nat) :
    r.vtxStores (k + 1) = r.vtxStores k ++ subdevideVtx r.lerp (r.mesh k) := by
  unfold vtxStores
  rw [List.range_succ, List.flatMap_append, List.flatMap_singleton, List.append_assoc]

theorem idxStores_succ (k : Nat) :
    r.idxStores (k + 1) = r.idxStores k ++ subdevideIdx r.lerp (r.mesh k) := by
  unfold idxStores
  rw [List.range_succ, List.flatMap_append, List.flatMap_singleton, List.append_assoc]

theorem mesh_zero : (r.mesh 0).Counts 8 12 ∧ (r.mesh 0).Below 12 8 := by
  have hcell : ∀ a < 36, ((r.mesh 0).indices a).toNat < 8 := by
    intro a ha
    have hbox : ∀ x ∈ boxIndices, x.toNat < 8 := by simp [boxIndices]
    have hlt : a < boxIndices.length := ha
    have hstore : (r.mesh 0).indices a = boxIndices[a] := store_memcpy (List.getElem?_eq_getElem hlt)
    rw [hstore]
    exact hbox _ (List.getElem_mem hlt)
  refine ⟨⟨rfl, rfl⟩, ?_⟩
  intro s hs
  exact ⟨hcell _ (by omega), hcell _ (by omega), hcell _ (by omega)⟩

variable {r} {k : Nat}

/-! ## Where the counts fit -/

theorem Fits.bits (h : r.Fits k) {j : Nat} (hj : j ≤ k) : vtxCount j < 2 ^ 16 ∧ 3 * triCount j < 2 ^ 16 := by
  have hv := vtxCount_mono hj
  have ht := triCount_mono hj
  have hvcap := r.capVtx.isLt
  have hicap := r.capIdx.isLt
  unfold Fits at h
  omega

theorem Fits.mesh (h : r.Fits k) {j : Nat} (hj : j ≤ k) :
    (r.mesh j).Counts (vtxCount j) (triCount j) ∧ (r.mesh j).Below (triCount j) (vtxCount j) := by
  induction j with
  | zero => exact r.mesh_zero
  | succ j ih =>
    obtain ⟨hcounts, hbelow⟩ := ih (Nat.le_of_succ_le hj)
    obtain ⟨hv, hi⟩ := h.bits hj
    rw [vtxCount] at hv ⊢
    rw [triCount] at hi ⊢
    rw [mesh_succ]
    refine ⟨hcounts.subdevide r.lerp hv (by omega), ?_⟩
    exact (hcounts.subdivided r.lerp hbelow hv (by omega)).below hbelow hv

theorem Fits.places (h : r.Fits k) {j : Nat} (hj : j ≤ k) :
    (r.vtxStores j).map Prod.fst = List.range (vtxCount j) := by
  induction j with
  | zero =>
    unfold BoxRun.vtxStores
    rw [List.range_zero, List.flatMap_nil, List.append_nil, memcpy_fst]
    rfl
  | succ j ih =>
    obtain ⟨hv, -⟩ := h.bits hj
    rw [vtxCount] at hv ⊢
    rw [vtxStores_succ, List.map_append, ih (Nat.le_of_succ_le hj),
      (h.mesh (Nat.le_of_succ_le hj)).1.vtx_fst r.lerp (Nat.le_of_lt hv), List.range_add, Nat.mul_comm 3]

theorem Fits.indices (h : r.Fits k) {j : Nat} (hj : j ≤ k) {p : Nat × BitVec 16} (hp : p ∈ r.idxStores j) :
    p.1 < 3 * triCount j ∧ p.2.toNat < vtxCount j := by
  induction j with
  | zero =>
    unfold BoxRun.idxStores at hp
    rw [List.range_zero, List.flatMap_nil, List.append_nil, mem_memcpy] at hp
    have hbox : ∀ x ∈ boxIndices, x.toNat < 8 := by simp [boxIndices]
    exact ⟨(List.getElem?_eq_some_iff.mp hp).1, hbox _ (List.mem_of_getElem? hp)⟩
  | succ j ih =>
    obtain ⟨hv, hi⟩ := h.bits hj
    obtain ⟨hcounts, hbelow⟩ := h.mesh (Nat.le_of_succ_le hj)
    rw [vtxCount] at hv ⊢
    rw [triCount] at hi ⊢
    rw [idxStores_succ, List.mem_append] at hp
    rcases hp with hp | hp
    · obtain ⟨hplace, hvalue⟩ := ih (Nat.le_of_succ_le hj) hp
      omega
    · have hplace := hcounts.idx_lt r.lerp (by omega) hp
      have hvalue := hcounts.idx_values r.lerp hbelow hv (by omega) hp
      omega

theorem Fits.storageHolds (h : r.Fits k) : r.StorageHolds k := by
  obtain ⟨hcounts, -⟩ := h.mesh (Nat.le_refl k)
  refine ⟨⟨?_, ?_⟩, ?_, ?_, fun j hj => (h.mesh hj).1, h.places (Nat.le_refl k),
    fun p hp => (h.indices (Nat.le_refl k) hp).2⟩
  · intro p hp
    have hplace := List.mem_map_of_mem (f := Prod.fst) hp
    rw [h.places (Nat.le_refl k), List.mem_range] at hplace
    exact Nat.lt_of_lt_of_le hplace h.1
  · intro p hp
    exact Nat.lt_of_lt_of_le (h.indices (Nat.le_refl k) hp).1 h.2
  · rw [hcounts.vtx]
    exact h.1
  · rw [hcounts.idx]
    exact h.2

/-! ## Where they do not -/

theorem InBounds.fits (hvtx : 8 < r.capVtx.toNat) (hidx : 36 < r.capIdx.toNat) (h : r.InBounds k) : r.Fits k := by
  induction k with
  | zero => exact ⟨Nat.le_of_lt hvtx, Nat.le_of_lt hidx⟩
  | succ k ih =>
    obtain ⟨hv, hi⟩ := h
    simp only [vtxStores_succ, idxStores_succ, List.mem_append] at hv hi
    have hfits := ih ⟨fun p hp => hv p (Or.inl hp), fun p hp => hi p (Or.inl hp)⟩
    obtain ⟨hcounts, -⟩ := hfits.mesh (Nat.le_refl k)
    unfold Fits at hfits ⊢
    rw [vtxCount, triCount]
    constructor
    · by_contra hlt
      obtain ⟨p, hp, hplace⟩ := hcounts.exists_vtx r.lerp hfits.1 (Nat.lt_of_not_le hlt) r.capVtx.isLt
      exact Nat.ne_of_lt (hv p (Or.inr hp)) hplace
    · by_contra hlt
      obtain ⟨p, hp, hplace⟩ := hcounts.exists_idx r.lerp hfits.2 (by omega) r.capIdx.isLt
      exact Nat.ne_of_lt (hi p (Or.inr hp)) hplace

/-- After `k` calls the storage holds exactly where `12 * 4 ^ k - 4` vertices and `36 * 4 ^ k` indices fit
the capacities; elsewhere a store has gone behind the end of an array. -/
theorem storageHolds_iff (r : BoxRun V) (hbox : (meshInit r.vertices r.indices r.capVtx r.capIdx).BoxFits) (k : Nat) :
    (r.StorageHolds k ↔ 12 * 4 ^ k - 4 ≤ r.capVtx.toNat ∧ 36 * 4 ^ k ≤ r.capIdx.toNat) ∧
      (r.InBounds k ↔ 12 * 4 ^ k - 4 ≤ r.capVtx.toNat ∧ 36 * 4 ^ k ≤ r.capIdx.toNat) := by
  have hfits : r.Fits k ↔ 12 * 4 ^ k - 4 ≤ r.capVtx.toNat ∧ 36 * 4 ^ k ≤ r.capIdx.toNat := by
    unfold Fits
    rw [vtxCount_eq, triCount_eq, ← Nat.mul_assoc]
  rw [← hfits]
  constructor
  · exact ⟨fun h => h.inBounds.fits hbox.1 hbox.2, fun h => h.storageHolds⟩
  · exact ⟨fun h => h.fits hbox.1 hbox.2, fun h => h.storageHolds.inBounds⟩

def bigBox : BoxRun Nat := ⟨fun a _ => a, fun _ _ _ => 0, fun _ => 0, fun _ => 0, 2048, 8096⟩

theorem storageHolds_three : bigBox.StorageHolds 3 :=
  ((storageHolds_iff bigBox ⟨by decide, by decide⟩ 3).1).mpr (by decide)

/-- The box fits, and the fourth call counts 3068 vertices. -/
theorem not_storageHolds :
    (meshInit bigBox.vertices bigBox.indices bigBox.capVtx bigBox.capIdx).BoxFits ∧ ¬ bigBox.StorageHolds 4 := by
  refine ⟨⟨by decide, by decide⟩, ?_⟩
  intro h
  have h1 := bigBox.mesh_zero.1.subdevide bigBox.lerp (by decide) (by decide)
  have h2 := h1.subdevide bigBox.lerp (by decide) (by decide)
  have h3 := h2.subdevide bigBox.lerp (by decide) (by decide)
  have h4 := h3.subdevide bigBox.lerp (by decide) (by decide)
  have hcap : (bigBox.mesh 4).numVertices.toNat ≤ 2048 := h.numVertices
  have hcount : (bigBox.mesh 4).numVertices.toNat = 3068 := h4.vtx
  omega

end BoxRun

end Gppcu
