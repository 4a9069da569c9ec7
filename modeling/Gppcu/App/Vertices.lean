import Gppcu.App.Upload
import Gppcu.Queue.Supply

/-!
# The vertices on the screen

The whole way of the vertices: uploaded by the host, shaded by the program in
every thread, and read back.
-/

namespace Gppcu

open HostInstr Shader

/-! ## The device behind the uploads -/

section Uploaded

variable {pp₀ pp : SwkGppcu} {mesh : SwkMesh} {calls : List Call}

structure SwkGppcu.Holds (pp : SwkGppcu) (mesh : SwkMesh) : Prop where
  numthr : pp.mnumthr = 24
  taskmem : pp.mtaskmem = TASK_SPACE
  numtask : pp.roNumtask = mesh.numVertices.toNat
  taskcycle : pp.mtaskcycle = (mesh.numVertices.toNat + 24 - 1) / 24
  fits : pp.Fits 24

theorem appUploadVertices_holds (hthr : pp₀.mnumthr = 24)
    (hN : mesh.numVertices.toNat < 512 / TASK_SPACE * 24) (hup : appUploadVertices pp₀ mesh = (pp, calls)) :
    pp.Holds mesh ∧
      calls = pp.adjust ++ gppcuWrite pp mesh.vertices 3 (BitVec.ofNat 32 OFST_VEC3_VTEX_INPUT) := by
  obtain ⟨rfl, rfl⟩ := Prod.mk.inj hup
  refine ⟨⟨hthr, rfl, rfl, ?_, ⟨?_, ?_, ?_, ?_⟩⟩, rfl⟩
  · change (mesh.numVertices.toNat + pp₀.mnumthr - 1) / pp₀.mnumthr = _
    rw [hthr]
  · change 0 < pp₀.mnumthr
    omega
  · change pp₀.mnumthr ≤ 24
    omega
  · change pp₀.mnumthr ≤ 24
    omega
  · change mesh.numVertices.toNat < 512 / TASK_SPACE * pp₀.mnumthr
    rw [hthr]
    exact hN

def passes (n : Nat) : Nat := ((n + 24 - 1) / 24 + PARALLEL_CNT - 1) / PARALLEL_CNT

variable {GBW T : Nat}

theorem words_length : words.length < 2 ^ 11 := by decide +kernel

theorem appUploadProgram_view (h : pp.Holds mesh) (v : HostView 11 GBW T) :
    (v.serve (appUploadProgram pp)).words = words ∧ (v.serve (appUploadProgram pp)).szPerTask = 36 ∧
      (v.serve (appUploadProgram pp)).numCycles = BitVec.ofNat 12 (passes mesh.numVertices.toNat) := by
  obtain ⟨-, hsz, hn⟩ := v.upload_registers pp (program.map word)
  have hwords := v.upload_words pp (program.map word) (by
    rw [h.taskmem]
    exact words_length)
  unfold appUploadProgram
  rw [hwords, hsz, hn, h.taskmem, h.taskcycle]
  exact ⟨rfl, rfl, BitVec.setWidth_ofNat_of_le (by omega) _⟩

structure Uploaded (pp : SwkGppcu) (mesh : SwkMesh) (half : Word → Word) (c : SwkObjectConstant)
    (v : HostView 11 6 24) : Prop where
  words : v.words = words
  szPerTask : v.szPerTask = 36
  numCycles : v.numCycles = BitVec.ofNat 12 (passes mesh.numVertices.toNat)
  constants : ∀ p ∈ constants half c, v.cmem (BitVec.ofNat 6 p.1) = p.2
  vertices : ∀ i < mesh.numVertices.toNat, ∀ j < 3,
    v.cells (pp.cell i (OFST_VEC3_VTEX_INPUT + j)) = mesh.vertices.getD (i * 3 + j) 0

theorem mem_gppcuWriteConst {data : List Word} {ofst : Word} {k : Call} (h : k ∈ gppcuWriteConst data ofst) :
    ∃ a x, k = .constantWr a x := by
  induction data generalizing ofst with
  | nil => simp [gppcuWriteConst] at h
  | cons x data ih =>
    rw [gppcuWriteConst, List.mem_cons] at h
    rcases h with rfl | h
    · exact ⟨_, _, rfl⟩
    · exact ih h

theorem mem_appUploadObjectConstant {half : Word → Word} {c : SwkObjectConstant} {k : Call}
    (h : k ∈ appUploadObjectConstant half c) : ∃ a x, k = .constantWr a x := by
  simp only [appUploadObjectConstant, List.mem_append] at h
  rcases h with ((h | h) | h) | h <;> exact mem_gppcuWriteConst h

theorem mem_appUploadProgram {k : Call} (h : k ∈ appUploadProgram pp) :
    (∃ l x, k = .deviceCommand l x) ∨ ∃ w, k = .pushInstr w := by
  simp only [appUploadProgram, SwkGppcu.upload, SwkGppcu.adjust, List.cons_append, List.nil_append,
    List.mem_cons, List.mem_map] at h
  rcases h with rfl | rfl | rfl | ⟨w, -, rfl⟩
  · exact Or.inl ⟨_, _, rfl⟩
  · exact Or.inl ⟨_, _, rfl⟩
  · exact Or.inl ⟨_, _, rfl⟩
  · exact Or.inr ⟨w, rfl⟩

theorem uploads_silent (half : Word → Word) (c : SwkObjectConstant) :
    (appUploadProgram pp ++ appUploadObjectConstant half c).filterMap Call.stored? = [] ∧
      ∀ k ∈ appUploadProgram pp ++ appUploadObjectConstant half c, k.InRange := by
  rw [List.filterMap_eq_nil_iff, List.forall_mem_append, List.forall_mem_append]
  refine ⟨⟨fun k hk => ?_, fun k hk => ?_⟩, ⟨fun k hk => ?_, fun k hk => ?_⟩⟩
  · rcases mem_appUploadProgram hk with ⟨l, x, rfl⟩ | ⟨w, rfl⟩ <;> rfl
  · obtain ⟨a, x, rfl⟩ := mem_appUploadObjectConstant hk
    rfl
  · rcases mem_appUploadProgram hk with ⟨l, x, rfl⟩ | ⟨w, rfl⟩ <;> trivial
  · obtain ⟨a, x, rfl⟩ := mem_appUploadObjectConstant hk
    trivial

theorem uploaded (h : pp.Holds mesh) (half : Word → Word) (c : SwkObjectConstant) (v : HostView 11 6 24) :
    Uploaded pp mesh half c (v.serve (pp.adjust ++
      (gppcuWrite pp mesh.vertices 3 (BitVec.ofNat 32 OFST_VEC3_VTEX_INPUT) ++
        (appUploadProgram pp ++ appUploadObjectConstant half c)))) := by
  have hsilent : ∀ v : HostView 11 6 24,
      (v.serve (appUploadProgram pp ++ appUploadObjectConstant half c)).cells = v.cells := by
    intro v
    rw [v.cells_serve (by simp [(uploads_silent half c).1]), (uploads_silent half c).1, Lib.store_nil]
  have hfit : (BitVec.ofNat 32 OFST_VEC3_VTEX_INPUT).toNat + (3 : BitVec 8).toNat < pp.mtaskmem := by
    rw [h.taskmem]
    decide
  have hconst : ∀ k ∈ appUploadObjectConstant half c, ∀ l x, k ≠ .deviceCommand l x := by
    intro k hk l x
    obtain ⟨a, y, rfl⟩ := mem_appUploadObjectConstant hk
    exact Call.noConfusion
  rw [v.serve_append, HostView.serve_append]
  generalize v.serve pp.adjust = v₁
  have hown := fun i hi j hj => cells_write_own h.fits v₁ hfit mesh.vertices (i := i) (j := j) hi hj
  generalize v₁.serve (gppcuWrite pp mesh.vertices 3 (BitVec.ofNat 32 OFST_VEC3_VTEX_INPUT)) = v₂ at hown
  obtain ⟨hwords, hsz, hn⟩ := appUploadProgram_view h v₂
  obtain ⟨-, hsz', hn'⟩ := HostView.serve_registers hconst (v₂.serve (appUploadProgram pp))
  refine ⟨?_, ?_, ?_, fun p hp => ?_, fun i hi j hj => ?_⟩
  · rw [HostView.serve_append, HostView.serve_constants_words fun k hk => mem_appUploadObjectConstant hk, hwords]
  · rw [HostView.serve_append, hsz', hsz]
  · rw [HostView.serve_append, hn', hn]
  · rw [HostView.serve_append, constants_at _ hp]
  · rw [hsilent]
    rw [← h.numtask] at hi
    exact hown i hi j hj

end Uploaded

/-! ## The points -/

/-- A column of the product of `(v, 1)` and the matrix, in the order in which the program adds. -/
def vertexDot (F : Fpu) (M : Fin 16 → Word) (v : Nat → Word) (c : Fin 4) : Word :=
  F.fadd (F.fadd (F.fadd (F.fadd 0 (F.fmul (v 0) (M (Fin.ofNat 16 c.val))))
    (F.fmul (v 1) (M (Fin.ofNat 16 (4 + c.val))))) (F.fmul (v 2) (M (Fin.ofNat 16 (8 + c.val)))))
    (F.fmul FLOAT_ONE (M (Fin.ofNat 16 (12 + c.val))))

section Points

variable (F : Fpu) {half : Word → Word} {c : SwkObjectConstant} {cmem : BitVec 6 → Word}
  (hc : ∀ p ∈ constants half c, cmem (BitVec.ofNat 6 p.1) = p.2)

include hc

theorem consts_at {n : Nat} {x : Word} (h : (n, x) ∈ constants half c) :
    consts cmem (BitVec.ofNat 17 n) = x := by
  rw [consts, BitVec.setWidth_ofNat_of_le (by omega)]
  exact hc (n, x) h

theorem consts_matrix {n : Nat} (hn : n < 16) :
    consts cmem (BitVec.ofNat 17 (16 + n)) = c.worldViewProj (Fin.ofNat 16 n) := by
  apply consts_at hc
  unfold constants
  rw [List.mem_append, List.mem_ofFn]
  refine Or.inl ⟨Fin.ofNat 16 n, ?_⟩
  rw [Fin.val_ofNat, Nat.mod_eq_of_lt hn]

theorem column_constants (v : Nat → Word) (k : Fin 4) :
    column F (consts cmem) v k.val = vertexDot F c.worldViewProj v k := by
  have hk := k.isLt
  have hone : consts cmem 1 = FLOAT_ONE := consts_at hc (n := 1) (by simp [constants])
  have hrow : ∀ r < 4, consts cmem (BitVec.ofNat 17 (16 + k.val + r * 4)) =
      c.worldViewProj (Fin.ofNat 16 (r * 4 + k.val)) := by
    intro r hr
    rw [Nat.add_assoc, Nat.add_comm k.val]
    exact consts_matrix hc (by omega)
  unfold column vertexDot
  simp only [partialDot, hrow 0 (by omega), hrow 1 (by omega), hrow 2 (by omega), hrow 3 (by omega),
    coord, hone]
  simp

theorem point_constants (v : Nat → Word) :
    point F (consts cmem) v 0 = F.ftoi (F.fadd (half c.width) (vertexDot F c.worldViewProj v 0)) ∧
      point F (consts cmem) v 1 = F.ftoi (F.fadd (half c.height) (vertexDot F c.worldViewProj v 1)) := by
  have hwidth : consts cmem (BitVec.ofNat 17 (14 + 0)) = half c.width := consts_at hc (by simp [constants])
  have hheight : consts cmem (BitVec.ofNat 17 (14 + 1)) = half c.height := consts_at hc (by simp [constants])
  unfold point
  rw [hwidth, hheight]
  exact ⟨congrArg (fun s => F.ftoi (F.fadd (half c.width) s)) (column_constants F hc v 0),
    congrArg (fun s => F.ftoi (F.fadd (half c.height) s)) (column_constants F hc v 1)⟩

end Points

/-! ## The whole way -/

section Whole

variable {pp₀ pp : SwkGppcu} {mesh : SwkMesh} {calls : List Call}

theorem cell_slot (h : pp.Holds mesh) (i j : Nat) : pp.cell i j = (i % 24, slotWord (i / 24) j) := by
  unfold SwkGppcu.cell slotWord
  rw [h.numthr, h.taskmem]

def GppcuTestQueue.executed (F : Fpu) (d : GppcuTestQueue 11 6 24) (k : Fin 24) : Machine Reg :=
  cyclesFrom F d.queue.cmem.ram d.queue.szPerTask d.queue.words 0 d.queue.numCycles.toNat (d.core.arch k)

theorem executed_shades (F : Fpu) {half : Word → Word} {c : SwkObjectConstant} (h : pp.Holds mesh)
    {d : GppcuTestQueue 11 6 24} (hd : Uploaded pp mesh half c d.view) {i : Nat}
    (hi : i < mesh.numVertices.toNat) (hN : mesh.numVertices.toNat < 512 / TASK_SPACE * 24) :
    (∀ k < 2, (d.executed F ⟨i % 24, Nat.mod_lt i (by omega)⟩).lmem (slotWord (i / 24) (4 + k)) =
        point F (consts d.queue.cmem.ram) (fun j => mesh.vertices.getD (i * 3 + j) 0) k) ∧
      ∀ j < 3, (d.executed F ⟨i % 24, Nat.mod_lt i (by omega)⟩).lmem (slotWord (i / 24) (1 + j)) =
        mesh.vertices.getD (i * 3 + j) 0 := by
  have hslot : i / 24 < SLOTS := by
    change i / 24 < 42
    change mesh.numVertices.toNat < 512 / 12 * 24 at hN
    omega
  have hpasses : passes mesh.numVertices.toNat ≤ 14 ∧ i / 24 / PARALLEL_CNT < passes mesh.numVertices.toNat := by
    change mesh.numVertices.toNat < 512 / 12 * 24 at hN
    unfold passes PARALLEL_CNT
    omega
  have hcycles : d.queue.numCycles.toNat = passes mesh.numVertices.toNat := by
    have hn := congrArg BitVec.toNat hd.numCycles
    rw [BitVec.toNat_ofNat, Nat.mod_eq_of_lt (by omega)] at hn
    exact hn
  have hvertex : ∀ j < 3, vertex (d.core.arch ⟨i % 24, Nat.mod_lt i (by omega)⟩) (i / 24) j =
      mesh.vertices.getD (i * 3 + j) 0 := by
    intro j hj
    rw [← hd.vertices i hi j hj, cell_slot h, ← HostView.lmem_cells _ ⟨i % 24, Nat.mod_lt i (by omega)⟩]
    rfl
  obtain ⟨hshade, -, hkeep⟩ := passes_shade F d.queue.cmem.ram (passes mesh.numVertices.toNat)
    (c := 0) (s := i / 24) (by omega) hslot (d.core.arch ⟨i % 24, Nat.mod_lt i (by omega)⟩)
  have hrun : d.executed F ⟨i % 24, Nat.mod_lt i (by omega)⟩ =
      cyclesFrom F d.queue.cmem.ram 36 words (passOfst 0) (passes mesh.numVertices.toNat)
        (d.core.arch ⟨i % 24, Nat.mod_lt i (by omega)⟩) := by
    have hwords : d.queue.words = words := hd.words
    have hsz : d.queue.szPerTask = 36 := hd.szPerTask
    rw [GppcuTestQueue.executed, hwords, hsz, hcycles]
    rfl
  rw [hrun]
  refine ⟨fun k hk => ?_, fun j hj => ?_⟩
  · rw [hshade (Nat.zero_le _) (by omega) k hk]
    exact point_congr F _ hvertex k
  · rw [← hvertex j hj, ← hkeep j hj, vertex]

/-- The vertex shader computes the matrix product for every vertex: what comes back as the point
of a vertex is its product on the screen, and the vertices stay where they were uploaded. -/
theorem vertices_on_screen (F : Fpu) (half : Word → Word) (hthr : pp₀.mnumthr = 24)
    (hN : mesh.numVertices.toNat < 512 / TASK_SPACE * 24) (hup : appUploadVertices pp₀ mesh = (pp, calls))
    (c : SwkObjectConstant) {b : Board 11 6 24} {es : List Event}
    (hes : b.Serves (fun _ => F) (calls ++ appUploadProgram pp ++ appUploadObjectConstant half c) es)
    {b' : Board 11 6 24} (hran : ∀ k, b'.device.view.lmem k =
      ((Lib.run (Board.step fun _ => F) b es).device.executed F k).lmem)
    {capacity : Word} {es' : List Event} (hes' : b'.Serves (fun _ => F) (appDownloadPoints pp capacity) es') :
    ∀ i < mesh.numVertices.toNat,
      (i * 3 + 3 < capacity.toNat →
        (b'.dataReads (fun _ => F) es')[i * 3]? = some (F.ftoi (F.fadd (half c.width)
          (vertexDot F c.worldViewProj (fun j => mesh.vertices.getD (i * 3 + j) 0) 0))) ∧
        (b'.dataReads (fun _ => F) es')[i * 3 + 1]? = some (F.ftoi (F.fadd (half c.height)
          (vertexDot F c.worldViewProj (fun j => mesh.vertices.getD (i * 3 + j) 0) 1)))) ∧
      ∀ j < 3, b'.device.view.cells (pp.cell i (OFST_VEC3_VTEX_INPUT + j)) =
        mesh.vertices.getD (i * 3 + j) 0 := by
  obtain ⟨hh, rfl⟩ := appUploadVertices_holds hthr hN hup
  have hfit : (BitVec.ofNat 32 OFST_VEC3_VTEX_INPUT).toNat + (3 : BitVec 8).toNat < pp.mtaskmem := by
    rw [hh.taskmem]
    decide
  have hfit' : (BitVec.ofNat 32 OFST_VECI4_VTEX_OUTPUT).toNat + (3 : BitVec 8).toNat < pp.mtaskmem := by
    rw [hh.taskmem]
    decide
  simp only [List.append_assoc] at hes
  obtain ⟨hview, -⟩ := hes.served _ (List.forall_mem_append.mpr ⟨(adjust_silent pp).2.2,
    List.forall_mem_append.mpr ⟨gppcuWrite_inRange hh.fits mesh.vertices hfit, (uploads_silent half c).2⟩⟩)
  obtain ⟨-, hreads⟩ := hes'.served _ (gppcuRead_inRange hh.fits capacity hfit')
  have hd := uploaded hh half c b.device.view
  rw [← hview] at hd
  intro i hi
  obtain ⟨hshade, hkeep⟩ := executed_shades F hh hd hi hN
  have hcell : ∀ j, b'.device.view.cells (pp.cell i j) =
      ((Lib.run (Board.step fun _ => F) b es).device.executed F ⟨i % 24, Nat.mod_lt i (by omega)⟩).lmem
        (slotWord (i / 24) j) := by
    intro j
    rw [cell_slot hh, ← HostView.lmem_cells _ ⟨i % 24, Nat.mod_lt i (by omega)⟩, hran]
  refine ⟨fun hroom => ?_, fun j hj => ?_⟩
  · have hpoint := point_constants F hd.constants fun j => mesh.vertices.getD (i * 3 + j) 0
    have hi' : i < pp.roNumtask := by rwa [hh.numtask]
    have helem : ∀ k < 2, (b'.device.view.replies (appDownloadPoints pp capacity))[i * 3 + k]? =
        some (point F (consts (Lib.run (Board.step fun _ => F) b es).device.queue.cmem.ram)
          (fun j => mesh.vertices.getD (i * 3 + j) 0) k) := by
      intro k hk
      have hk' : k < (3 : BitVec 8).toNat := Nat.lt_trans hk (by decide)
      rw [← hshade k hk, ← hcell]
      exact replies_element hh.fits (o := BitVec.ofNat 32 OFST_VECI4_VTEX_OUTPUT) _ hi' hk' hroom
    rw [hreads, ← hpoint.1, ← hpoint.2]
    exact ⟨helem 0 (by omega), helem 1 (by omega)⟩
  · rw [hcell]
    exact hkeep j hj

end Whole

/-! ## A hundred vertices -/

def Board.shaded (F : Fpu) (b : Board 11 6 24) : Board 11 6 24 :=
  { b with device := { b.device with core := { b.device.core with threads := fun k =>
      { b.device.core.threads k with localMemory := ⟨(b.device.executed F k).lmem, 0, 0⟩ } } } }

theorem Board.shaded_lmem (F : Fpu) (b : Board 11 6 24) (k : Fin 24) :
    (b.shaded F).device.view.lmem k = (b.device.executed F k).lmem := rfl

def hundredVertices : SwkMesh := ⟨(List.range 300).map (BitVec.ofNat 32), 100⟩

theorem hundredVertices_lt : hundredVertices.numVertices.toNat < 512 / TASK_SPACE * 24 := by decide

def hundredTasks : SwkGppcu × List Call :=
  appUploadVertices (gppcuInit ⟨0, 0, 0, 0, 0, 0⟩ 24 512) hundredVertices

def screen : SwkObjectConstant := ⟨fun k => BitVec.ofNat 32 k.val, 400, 240⟩

def uploads : List Event :=
  ((hundredTasks.2 ++ appUploadProgram hundredTasks.1 ++ appUploadObjectConstant (· >>> 1) screen).flatMap
    Call.accesses).map .access

def downloads : List Event := ((appDownloadPoints hundredTasks.1 0xffff).flatMap Call.accesses).map .access

-- Vertex 60 is in the third lane, and vertex 99 in the second cycle.
theorem vertices_on_screen_hundred :
    (((Lib.run (Board.step fun _ => anyFpu) emptyBoard uploads).shaded anyFpu).dataReads (fun _ => anyFpu)
        downloads)[60 * 3]? =
      some (anyFpu.ftoi (anyFpu.fadd 200
        (vertexDot anyFpu screen.worldViewProj (fun j => hundredVertices.vertices.getD (60 * 3 + j) 0) 0))) ∧
    (((Lib.run (Board.step fun _ => anyFpu) emptyBoard uploads).shaded anyFpu).dataReads (fun _ => anyFpu)
        downloads)[99 * 3 + 1]? =
      some (anyFpu.ftoi (anyFpu.fadd 120
        (vertexDot anyFpu screen.worldViewProj (fun j => hundredVertices.vertices.getD (99 * 3 + j) 0) 1))) := by
  have hup : appUploadVertices (gppcuInit ⟨0, 0, 0, 0, 0, 0⟩ 24 512) hundredVertices =
      (hundredTasks.1, hundredTasks.2) := rfl
  have hes := Board.serves_direct (fun _ => anyFpu) emptyBoard
    (hundredTasks.2 ++ appUploadProgram hundredTasks.1 ++ appUploadObjectConstant (· >>> 1) screen)
  have hes' := Board.serves_direct (fun _ => anyFpu)
    ((Lib.run (Board.step fun _ => anyFpu) emptyBoard uploads).shaded anyFpu)
    (appDownloadPoints hundredTasks.1 0xffff)
  have h := vertices_on_screen anyFpu (· >>> 1) rfl hundredVertices_lt hup screen hes (Board.shaded_lmem anyFpu _) hes'
  exact ⟨((h 60 (by decide)).1 (by decide)).1, ((h 99 (by decide)).1 (by decide)).2⟩

end Gppcu
