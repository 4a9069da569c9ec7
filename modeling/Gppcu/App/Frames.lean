import Gppcu.App.Launch
import Gppcu.App.Shown

/-!
# Frame after frame

The loop of `main`: the vertices and the program are uploaded once, and every
frame uploads its constants, runs the shader and downloads the points.
-/

namespace Gppcu

open Instr HostInstr Shader

/-! ## An armed device -/

/-- The device holds the shader and the vertices of the mesh, and nothing behind the shader. -/
structure Armed (pp : SwkGppcu) (mesh : SwkMesh) (v : HostView 11 6 24) : Prop where
  words : v.words = Shader.words
  szPerTask : v.szPerTask = 36
  numCycles : v.numCycles = BitVec.ofNat 12 (passes mesh.numVertices.toNat)
  behind : v.pmem (BitVec.ofNat 11 Shader.words.length) = 0
  vertices : ∀ i < mesh.numVertices.toNat, ∀ j < 3,
    v.cells (pp.cell i (OFST_VEC3_VTEX_INPUT + j)) = mesh.vertices.getD (i * 3 + j) 0

def Call.Passing (c : Call) : Prop := (∃ a x, c = .constantWr a x) ∨ ∃ t w, c = .dataRd t w

theorem Call.Passing.calm {c : Call} (h : c.Passing) : c.Calm := by
  apply Call.calm_plain
  rintro l x rfl
  rcases h with ⟨a, y, h⟩ | ⟨t, w, h⟩ <;> cases h

section Armed

variable {pp : SwkGppcu} {mesh : SwkMesh} {v : HostView 11 6 24}

theorem Armed.serve (h : Armed pp mesh v) {cs : List Call} (hcs : ∀ c ∈ cs, c.Passing) :
    Armed pp mesh (v.serve cs) := by
  induction cs generalizing v with
  | nil => exact h
  | cons c cs ih =>
    rw [List.forall_mem_cons] at hcs
    rw [HostView.serve_cons]
    refine ih ?_ hcs.2
    rcases hcs.1 with ⟨a, x, rfl⟩ | ⟨t, w, rfl⟩
    · exact ⟨h.words, h.szPerTask, h.numCycles, h.behind, h.vertices⟩
    · exact ⟨h.words, h.szPerTask, h.numCycles, h.behind, h.vertices⟩

theorem Armed.run (h : Armed pp mesh v) : Armed pp mesh (v.serve Board.runCalls) :=
  ⟨h.words, h.szPerTask, h.numCycles, h.behind, h.vertices⟩

theorem Armed.keeps (h : Armed pp mesh v) {v' : HostView 11 6 24} (hqueue : v'.queue = v.queue)
    (hvertices : ∀ i < mesh.numVertices.toNat, ∀ j < 3,
      v'.cells (pp.cell i (OFST_VEC3_VTEX_INPUT + j)) = mesh.vertices.getD (i * 3 + j) 0) : Armed pp mesh v' where
  words := (congrArg HostView.words hqueue).trans h.words
  szPerTask := (congrArg HostView.szPerTask hqueue).trans h.szPerTask
  numCycles := (congrArg HostView.numCycles hqueue).trans h.numCycles
  behind := (congrFun (congrArg HostView.pmem hqueue) _).trans h.behind
  vertices := hvertices

end Armed

/-! ## Arming it -/

section Boot

variable {pp₀ pp : SwkGppcu} {mesh : SwkMesh} {calls : List Call}

theorem appUploadProgram_pmem (h : pp.Holds mesh) (v : HostView 11 6 24) :
    (v.serve (appUploadProgram pp)).pmem (BitVec.ofNat 11 Shader.words.length) =
      v.pmem (BitVec.ofNat 11 Shader.words.length) := by
  have hwords : gppcuProgramAutofeedDeviceParallel (BitVec.ofNat 32 pp.mtaskmem) (program.map word) = words := by
    rw [h.taskmem]
    rfl
  unfold appUploadProgram SwkGppcu.upload
  rw [HostView.serve_append, hwords]
  have hlen := words_length
  generalize hv : v.serve (.deviceCommand LPM_RESETPRG 0 :: pp.adjust) = v₀
  have hrun : v₀.pmemRunning = false := by rw [← hv]; rfl
  have hend : v₀.pmemEnd.toNat = 0 := by rw [← hv]; rfl
  rw [(HostView.pmem_pushes words hrun (by omega)).2, ← hv]
  · rfl
  · rw [BitVec.toNat_ofNat, Nat.mod_eq_of_lt hlen]
    omega

theorem armed (h : pp.Holds mesh) (v : HostView 11 6 24) (hbehind : v.pmem (BitVec.ofNat 11 Shader.words.length) = 0) :
    Armed pp mesh (v.serve (pp.adjust ++
      (gppcuWrite pp mesh.vertices 3 (BitVec.ofNat 32 OFST_VEC3_VTEX_INPUT) ++ appUploadProgram pp))) := by
  have hfit : (BitVec.ofNat 32 OFST_VEC3_VTEX_INPUT).toNat + (3 : BitVec 8).toNat < pp.mtaskmem := by
    rw [h.taskmem]
    decide
  have hkeep : ∀ c ∈ pp.adjust ++ gppcuWrite pp mesh.vertices 3 (BitVec.ofNat 32 OFST_VEC3_VTEX_INPUT),
      c.keeps = true := by
    intro c hc
    rcases List.mem_append.mp hc with hc | hc
    · simp only [SwkGppcu.adjust, List.mem_cons, List.not_mem_nil, or_false] at hc
      rcases hc with rfl | rfl <;> rfl
    · obtain ⟨-, -, -, -, -, rfl⟩ := mem_gppcuWrite h.fits hc
      rfl
  have hpmem := (HostView.serve_keeps hkeep v).1
  rw [← List.append_assoc, HostView.serve_append]
  have hown := fun i hi j hj => cells_write_own h.fits (v.serve pp.adjust) hfit mesh.vertices (i := i) (j := j) hi hj
  rw [HostView.serve_append] at hpmem ⊢
  generalize (v.serve pp.adjust).serve (gppcuWrite pp mesh.vertices 3 (BitVec.ofNat 32 OFST_VEC3_VTEX_INPUT)) =
    v₁ at hown hpmem
  obtain ⟨hwords, hsz, hn⟩ := appUploadProgram_view h v₁
  refine ⟨hwords, hsz, hn, ?_, fun i hi j hj => ?_⟩
  · rw [appUploadProgram_pmem h, hpmem, hbehind]
  · have hsilent : (appUploadProgram pp).filterMap Call.stored? = [] := by
      rw [List.filterMap_eq_nil_iff]
      intro c hc
      rcases mem_appUploadProgram hc with ⟨l, x, rfl⟩ | ⟨w, rfl⟩ <;> rfl
    rw [v₁.cells_serve (by simp [hsilent]), hsilent, Lib.store_nil]
    rw [← h.numtask] at hi
    exact hown i hi j hj

end Boot

/-! ## A run of an armed device -/

section Run

variable (F : Fpu) {pp : SwkGppcu} {mesh : SwkMesh} {d : GppcuTestQueue 11 6 24}

theorem Armed.device (h : Armed pp mesh d.view) : d.queue.words = Shader.words ∧
    d.queue.pmemEnd.toNat = Shader.words.length ∧ d.queue.word 0 = 0 ∧ d.queue.word d.queue.pmemEnd.toNat = 0 := by
  have hwords : d.queue.words = Shader.words := h.words
  have hend : d.queue.pmemEnd.toNat = Shader.words.length := by
    rw [← hwords, Queue.words_length]
  have hpos : 0 < d.queue.pmemEnd.toNat := by
    rw [hend]
    decide +kernel
  have hfirst := Queue.words_drop d.queue hpos
  rw [hwords, show Shader.words.drop 0 = 0 :: Shader.words.drop 1 by rfl] at hfirst
  refine ⟨hwords, hend, (List.cons.inj hfirst).1.symm, ?_⟩
  rw [hend]
  exact h.behind

theorem Armed.safe (h : Armed pp mesh d.view) :
    SafeFrom d.queue d.queue.numCycles.toNat Stages.empty (d.queue.word 0) := by
  obtain ⟨hwords, -, hfirst, hbehind⟩ := h.device
  rw [hfirst]
  exact between_safe hwords hbehind _ (Or.inl rfl)

theorem Armed.shades (h : Armed pp mesh d.view) (hh : pp.Holds mesh)
    (hN : mesh.numVertices.toNat < 512 / TASK_SPACE * 24) {d' : GppcuTestQueue 11 6 24}
    (hd : GppcuTestQueue.Ended F d d') {i : Nat} (hi : i < mesh.numVertices.toNat) :
    (∀ k < 2, d'.view.cells (pp.cell i (4 + k)) =
        shown F (consts d.queue.cmem.ram) (i / 24) (fun j => mesh.vertices.getD (i * 3 + j) 0) k) ∧
      ∀ j < 3, d'.view.cells (pp.cell i (OFST_VEC3_VTEX_INPUT + j)) = mesh.vertices.getD (i * 3 + j) 0 := by
  obtain ⟨hwords, -, hfirst, hbehind⟩ := h.device
  have hslot : i / 24 < SLOTS := by
    change i / 24 < 42
    change mesh.numVertices.toNat < 512 / 12 * 24 at hN
    omega
  have hpasses : passes mesh.numVertices.toNat ≤ 14 ∧ i / 24 / PARALLEL_CNT < passes mesh.numVertices.toNat := by
    change mesh.numVertices.toNat < 512 / 12 * 24 at hN
    unfold passes PARALLEL_CNT
    omega
  have hcycles : d.queue.numCycles.toNat = passes mesh.numVertices.toNat := by
    have hn := congrArg BitVec.toNat h.numCycles
    rw [BitVec.toNat_ofNat, Nat.mod_eq_of_lt (by omega)] at hn
    exact hn
  have hsz : d.queue.szPerTask = 36 := h.szPerTask
  have hcell : ∀ j, d'.view.cells (pp.cell i j) = (cyclesFrom F d.queue.cmem.ram 36 fedWords (passOfst 0)
      (passes mesh.numVertices.toNat) (d.core.arch ⟨i % 24, Nat.mod_lt i (by omega)⟩)).lmem (slotWord (i / 24) j) := by
    intro j
    have harch := congrFun hd.arch ⟨i % 24, Nat.mod_lt i (by omega)⟩
    rw [hfirst, between_fed hwords hbehind F _ 0 (Or.inl rfl), hcycles, hsz] at harch
    rw [cell_slot hh, ← HostView.lmem_cells _ ⟨i % 24, Nat.mod_lt i (by omega)⟩]
    exact congrFun (congrArg Machine.lmem harch) _
  have hvertex : ∀ j < 3, vertex (d.core.arch ⟨i % 24, Nat.mod_lt i (by omega)⟩) (i / 24) j =
      mesh.vertices.getD (i * 3 + j) 0 := by
    intro j hj
    rw [← h.vertices i hi j hj, cell_slot hh, ← HostView.lmem_cells _ ⟨i % 24, Nat.mod_lt i (by omega)⟩]
    rfl
  have hshades := fedWords_shades F d.queue.cmem.ram
  obtain ⟨hout, -, hkeep⟩ := hshades.cycles (passes mesh.numVertices.toNat) (c := 0) (s := i / 24) (by omega)
    hslot (d.core.arch ⟨i % 24, Nat.mod_lt i (by omega)⟩)
  refine ⟨fun k hk => ?_, fun j hj => ?_⟩
  · rw [hcell, hout (Nat.zero_le _) (by omega) k hk, hshades.congr _ _ _ hvertex]
  · rw [hcell, ← hvertex j hj, ← hkeep j hj]
    rfl

end Run

/-! ## Frames -/

/-- One round of the loop of `main`: what the host and the clock do up to the run, until the host
knows that it is done, and while the points are read. -/
structure Frame where
  constants : SwkObjectConstant
  launch : List Event
  watch : List Event
  download : List Event

namespace Frame

variable (F : Fpu) (half : Word → Word) (pp : SwkGppcu) (mesh : SwkMesh) (capacity : Word)

def events (f : Frame) : List Event := f.launch ++ f.watch ++ f.download

def step (b : Board 11 6 24) (f : Frame) : Board 11 6 24 := Lib.run (Board.step fun _ => F) b f.events

/-- The frame makes the calls of the loop, and the points are read from a core that has drained. -/
structure Follows (b : Board 11 6 24) (f : Frame) : Prop where
  launch : Board.Launches (appUploadObjectConstant half f.constants) f.launch
  watch : Watches f.watch
  done : (Lib.run (Board.step fun _ => F) b (f.launch ++ f.watch)).device.oDONE = true
  drained : (Lib.run (Board.step fun _ => F) b (f.launch ++ f.watch)).device.core.ctl.idling = true
  download : f.download.filterMap Event.access? = (appDownloadPoints pp capacity).flatMap Call.accesses

def points (b : Board 11 6 24) (f : Frame) : List Word :=
  (Lib.run (Board.step fun _ => F) b (f.launch ++ f.watch)).dataReads (fun _ => F) f.download

/-- Coordinate `k` of a vertex, as the device has it: in every third round of the threads it is the
half of the screen, and nothing of the vertex. -/
def coordinate (size : Word) (c : SwkObjectConstant) (i : Nat) (k : Fin 4) : Word :=
  if i / 24 % PARALLEL_CNT = 2 then half size
  else F.ftoi (F.fadd (half size) (vertexDot F c.worldViewProj (fun j => mesh.vertices.getD (i * 3 + j) 0) k))

def screenPoint (c : SwkObjectConstant) (i : Nat) : Word × Word :=
  (coordinate F half mesh c.width c i 0, coordinate F half mesh c.height c i 1)

def Shows (b : Board 11 6 24) (f : Frame) : Prop :=
  ∀ i < mesh.numVertices.toNat, i * 3 + 3 < capacity.toNat →
    (f.points F b)[i * 3]? = some (coordinate F half mesh f.constants.width f.constants i 0) ∧
    (f.points F b)[i * 3 + 1]? = some (coordinate F half mesh f.constants.height f.constants i 1)

end Frame

section Frames

variable (F : Fpu) {half : Word → Word} {pp : SwkGppcu} {mesh : SwkMesh} {capacity : Word}

theorem Board.settled_of_ended {d : GppcuTestQueue 11 6 24} {b : Board 11 6 24}
    (h : GppcuTestQueue.Ended F d b.device) : b.Settled := ⟨h.settled, fun _ => h.done⟩

theorem constants_passing (c : SwkObjectConstant) : ∀ k ∈ appUploadObjectConstant half c, k.Passing :=
  fun _ hk => Or.inl (mem_appUploadObjectConstant hk)

theorem points_passing (h : pp.Holds mesh) : ∀ k ∈ appDownloadPoints pp capacity, k.Passing := by
  intro k hk
  obtain ⟨-, -, -, -, rfl⟩ := mem_gppcuRead h.fits hk
  exact Or.inr ⟨_, _, rfl⟩

theorem launched {b : Board 11 6 24} (hb : b.Settled) (harm : Armed pp mesh b.device.view)
    {c : SwkObjectConstant} {es : List Event} (hes : Board.Launches (appUploadObjectConstant half c) es) :
    (Lib.run (Board.step fun _ => F) b es).device.queue.Started ∧
      (Lib.run (Board.step fun _ => F) b es).device.core.AfterReset ∧
      Armed pp mesh (Lib.run (Board.step fun _ => F) b es).device.view ∧
      ∀ p ∈ constants half c, (Lib.run (Board.step fun _ => F) b es).device.queue.cmem.ram (BitVec.ofNat 6 p.1) = p.2 := by
  have hpass : ∀ k ∈ appUploadObjectConstant half c, k.Passing := constants_passing c
  have hrange : ∀ k ∈ appUploadObjectConstant half c, k.InRange := by
    intro k hk
    obtain ⟨a, x, rfl⟩ := mem_appUploadObjectConstant hk
    trivial
  obtain ⟨hstarted, hreset, hview⟩ := hb.launches (fun _ => F) hes hrange
    fun k hk => (hpass k hk).calm
  rw [HostView.serve_append] at hview
  refine ⟨hstarted, hreset, ?_, fun p hp => ?_⟩
  · rw [hview]
    exact (harm.serve hpass).run
  · obtain ⟨-, -, -, -, hkeep, -⟩ := Board.serve_runCalls (b.device.view.serve (appUploadObjectConstant half c))
    have hcmem := congrArg HostView.cmem hview
    rw [hkeep] at hcmem
    have hone := congrFun hcmem (BitVec.ofNat 6 p.1)
    rw [constants_at b.device.view hp] at hone
    exact hone

theorem Frame.Follows.ended {b : Board 11 6 24} {f : Frame} (hb : b.Settled)
    (harm : Armed pp mesh b.device.view) (hf : Follows F half pp capacity b f) :
    GppcuTestQueue.Ended F (Lib.run (Board.step fun _ => F) b f.launch).device
      (Lib.run (Board.step fun _ => F) b (f.launch ++ f.watch)).device := by
  obtain ⟨hstarted, hreset, harm', -⟩ := launched F hb harm hf.launch
  have hpos : 0 < (Lib.run (Board.step fun _ => F) b f.launch).device.queue.pmemEnd.toNat := by
    rw [harm'.device.2.1]
    decide +kernel
  have hdone := hf.done
  have hidle := hf.drained
  rw [Lib.run_append, Board.device_ticks (fun _ => F) (Board.watches_quiet hf.watch)] at hdone hidle ⊢
  exact GppcuTestQueue.ends F _ (by decide) hstarted hreset hpos harm'.safe _ hdone hidle

theorem shown_coordinate (mesh : SwkMesh) {cmem : BitVec 6 → Word} {c : SwkObjectConstant}
    (hc : ∀ p ∈ constants half c, cmem (BitVec.ofNat 6 p.1) = p.2) (i : Nat) :
    shown F (consts cmem) (i / 24) (fun j => mesh.vertices.getD (i * 3 + j) 0) 0 =
        Frame.coordinate F half mesh c.width c i 0 ∧
      shown F (consts cmem) (i / 24) (fun j => mesh.vertices.getD (i * 3 + j) 0) 1 =
        Frame.coordinate F half mesh c.height c i 1 := by
  have hwidth : consts cmem (BitVec.ofNat 17 (14 + 0)) = half c.width := consts_at hc (by simp [constants])
  have hheight : consts cmem (BitVec.ofNat 17 (14 + 1)) = half c.height := consts_at hc (by simp [constants])
  obtain ⟨h0, h1⟩ := point_constants F hc fun j => mesh.vertices.getD (i * 3 + j) 0
  unfold shown Frame.coordinate
  rw [hwidth, hheight, h0, h1]
  exact ⟨rfl, rfl⟩

theorem Frame.Follows.shows (hh : pp.Holds mesh) (hN : mesh.numVertices.toNat < 512 / TASK_SPACE * 24)
    {b : Board 11 6 24} {f : Frame} (hf : Follows F half pp capacity b f)
    (hb : b.Settled ∧ Armed pp mesh b.device.view) :
    Shows F half mesh capacity b f ∧ (f.step F b).Settled ∧ Armed pp mesh (f.step F b).device.view := by
  obtain ⟨-, -, harm, hconst⟩ := launched F hb.1 hb.2 hf.launch
  have hended := hf.ended F hb.1 hb.2
  have hshades := fun i hi => harm.shades F hh hN hended (i := i) hi
  have harm' := harm.keeps hended.queue fun i hi => (hshades i hi).2
  have hpass : ∀ k ∈ appDownloadPoints pp capacity, k.Passing := points_passing hh
  have hfit : (BitVec.ofNat 32 OFST_VECI4_VTEX_OUTPUT).toNat + (3 : BitVec 8).toNat < pp.mtaskmem := by
    rw [hh.taskmem]
    decide
  have hrange : ∀ k ∈ appDownloadPoints pp capacity, k.InRange := gppcuRead_inRange hh.fits capacity hfit
  obtain ⟨hserves, hsettled⟩ := (Board.settled_of_ended F hended).serves (fun _ => F) hf.download hrange
    fun k hk => (hpass k hk).calm
  obtain ⟨hview, hreads⟩ := hserves.served _ hrange
  rw [Frame.step, Frame.events, Lib.run_append]
  refine ⟨fun i hi hroom => ?_, hsettled, ?_⟩
  · have hi' : i < pp.roNumtask := by rwa [hh.numtask]
    have helem : ∀ k < 2, (f.points F b)[i * 3 + k]? = some (shown F
        (consts (Lib.run (Board.step fun _ => F) b f.launch).device.queue.cmem.ram) (i / 24)
        (fun j => mesh.vertices.getD (i * 3 + j) 0) k) := by
      intro k hk
      have hk' : k < (3 : BitVec 8).toNat := Nat.lt_trans hk (by decide)
      rw [Frame.points, hreads, ← (hshades i hi).1 k hk]
      exact replies_element hh.fits (o := BitVec.ofNat 32 OFST_VECI4_VTEX_OUTPUT) _ hi' hk' hroom
    obtain ⟨h0, h1⟩ := shown_coordinate F mesh hconst i
    rw [← h0, ← h1]
    exact ⟨helem 0 (by omega), helem 1 (by omega)⟩
  · rw [hview]
    exact harm'.serve hpass

theorem Frame.finishes {b : Board 11 6 24} (hb : b.Settled)
    (harm : Armed pp mesh b.device.view) {c : SwkObjectConstant} {es : List Event}
    (hes : Board.Launches (appUploadObjectConstant half c) es) :
    ∃ n, (Lib.run (Board.step fun _ => F) b (es ++ watchEvents n)).device.oDONE = true ∧
      (Lib.run (Board.step fun _ => F) b (es ++ watchEvents n)).device.core.ctl.idling = true := by
  obtain ⟨hstarted, hreset, harm', -⟩ := launched F hb harm hes
  have hpos : 0 < (Lib.run (Board.step fun _ => F) b es).device.queue.pmemEnd.toNat := by
    rw [harm'.device.2.1]
    decide +kernel
  obtain ⟨⟨n, hn⟩, -⟩ := GppcuTestQueue.runs_fed (F := F) _ (by decide) hstarted hreset hpos harm'.safe
  refine ⟨n, ?_⟩
  rw [run_watchEvents]
  exact hn

def Frame.next (half : Word → Word) (pp : SwkGppcu) (capacity : Word) (c : SwkObjectConstant) (n : Nat) : Frame :=
  ⟨c, launchEvents (appUploadObjectConstant half c), watchEvents n,
    ((appDownloadPoints pp capacity).flatMap Call.accesses).map .access⟩

theorem Frame.follows_next (half : Word → Word) {b : Board 11 6 24} (hb : b.Settled)
    (harm : Armed pp mesh b.device.view) (capacity : Word) (c : SwkObjectConstant) :
    ∃ n, Follows F half pp capacity b (next half pp capacity c n) := by
  have hlaunch := launches_launchEvents (appUploadObjectConstant half c)
  obtain ⟨n, hdone, hdrained⟩ := finishes F hb harm hlaunch
  have hevents : launchEvents (appUploadObjectConstant half c) ++ watchEvents n =
      (next half pp capacity c n).launch ++ (next half pp capacity c n).watch := rfl
  rw [hevents] at hdone hdrained
  exact ⟨n, hlaunch, watches_watchEvents n, hdone, hdrained, Event.filterMap_access _⟩

theorem Frame.exists_follows (half : Word → Word) (hh : pp.Holds mesh)
    (hN : mesh.numVertices.toNat < 512 / TASK_SPACE * 24) (capacity : Word) (cs : List SwkObjectConstant)
    {b : Board 11 6 24} (hb : b.Settled ∧ Armed pp mesh b.device.view) : ∃ frames,
      frames.map Frame.constants = cs ∧ Lib.Along (step F) (Follows F half pp capacity) b frames := by
  induction cs generalizing b with
  | nil => exact ⟨[], rfl, trivial⟩
  | cons c cs ih =>
    obtain ⟨n, hfirst⟩ := follows_next F half hb.1 hb.2 capacity c
    obtain ⟨frames, hconstants, hfollows⟩ := ih (hfirst.shows F hh hN hb).2
    exact ⟨next half pp capacity c n :: frames, congrArg (c :: ·) hconstants, hfirst, hfollows⟩

end Frames

/-! ## The loop -/

section Loop

variable {pp₀ pp : SwkGppcu} {mesh : SwkMesh} {calls : List Call}

theorem boot_arms (F : Fpu) (hthr : pp₀.mnumthr = 24) (hN : mesh.numVertices.toNat < 512 / TASK_SPACE * 24)
    (hup : appUploadVertices pp₀ mesh = (pp, calls)) {b : Board 11 6 24} (hb : b.Settled)
    (hbehind : b.device.queue.word Shader.words.length = 0)
    {boot : List Event} (hboot : boot.filterMap Event.access? = (calls ++ appUploadProgram pp).flatMap Call.accesses) :
    (Lib.run (Board.step fun _ => F) b boot).Settled ∧
      Armed pp mesh (Lib.run (Board.step fun _ => F) b boot).device.view := by
  obtain ⟨hh, rfl⟩ := appUploadVertices_holds hthr hN hup
  have hfit : (BitVec.ofNat 32 OFST_VEC3_VTEX_INPUT).toNat + (3 : BitVec 8).toNat < pp.mtaskmem := by
    rw [hh.taskmem]
    decide
  rw [List.append_assoc] at hboot
  have hcalls : ∀ k ∈ pp.adjust ++ (gppcuWrite pp mesh.vertices 3 (BitVec.ofNat 32 OFST_VEC3_VTEX_INPUT) ++
      appUploadProgram pp), k.InRange ∧ k.Calm := by
    intro k hk
    rcases List.mem_append.mp hk with hk | hk
    · exact ⟨(adjust_silent pp).2.2 k hk, adjust_calm pp k hk⟩
    rcases List.mem_append.mp hk with hk | hk
    · refine ⟨gppcuWrite_inRange hh.fits mesh.vertices hfit k hk, Call.calm_plain ?_⟩
      obtain ⟨-, -, -, -, -, rfl⟩ := mem_gppcuWrite hh.fits hk
      exact fun _ _ => Call.noConfusion
    · exact ⟨pp.upload_inRange _ k hk, upload_calm pp _ k hk⟩
  obtain ⟨hserves, hsettled⟩ := hb.serves (fun _ => F) hboot (fun k hk => (hcalls k hk).1) fun k hk => (hcalls k hk).2
  refine ⟨hsettled, ?_⟩
  rw [(hserves.served _ fun k hk => (hcalls k hk).1).1]
  exact armed hh b.device.view hbehind

theorem loop_shows (F : Fpu) {half : Word → Word} (hthr : pp₀.mnumthr = 24)
    (hN : mesh.numVertices.toNat < 512 / TASK_SPACE * 24) (hup : appUploadVertices pp₀ mesh = (pp, calls))
    {b : Board 11 6 24} (hb : b.Settled) (hbehind : b.device.queue.word Shader.words.length = 0) {boot : List Event}
    (hboot : boot.filterMap Event.access? = (calls ++ appUploadProgram pp).flatMap Call.accesses)
    {capacity : Word} {frames : List Frame} (hframes : Lib.Along (Frame.step F)
      (Frame.Follows F half pp capacity) (Lib.run (Board.step fun _ => F) b boot) frames) :
    Lib.Along (Frame.step F) (Frame.Shows F half mesh capacity)
        (Lib.run (Board.step fun _ => F) b boot) frames ∧
      (Lib.run (Frame.step F) (Lib.run (Board.step fun _ => F) b boot) frames).Settled ∧
      Armed pp mesh (Lib.run (Frame.step F) (Lib.run (Board.step fun _ => F) b boot) frames).device.view := by
  have hh := (appUploadVertices_holds hthr hN hup).1
  have hstart := boot_arms F hthr hN hup hb hbehind hboot
  have hstep := fun b f hb (hf : Frame.Follows F half pp capacity b f) => hf.shows F hh hN hb
  exact ⟨Lib.Along.gains hstep hstart hframes, Lib.Along.keeps (fun b f hb hf => (hstep b f hb hf).2) hstart hframes⟩

/-- The loop of `main`: behind the uploads, every frame of any number of frames shows the points of
its own constants, and whatever frames have been shown the next one comes to its end. -/
theorem frames_shown (F : Fpu) (half : Word → Word) (hthr : pp₀.mnumthr = 24)
    (hN : mesh.numVertices.toNat < 512 / TASK_SPACE * 24) (hup : appUploadVertices pp₀ mesh = (pp, calls))
    {b : Board 11 6 24} (hb : b.Settled) (hbehind : b.device.queue.word Shader.words.length = 0) {boot : List Event}
    (hboot : boot.filterMap Event.access? = (calls ++ appUploadProgram pp).flatMap Call.accesses)
    (capacity : Word) (frames : List Frame) (hframes : Lib.Along (Frame.step F)
      (Frame.Follows F half pp capacity) (Lib.run (Board.step fun _ => F) b boot) frames) :
    Lib.Along (Frame.step F) (Frame.Shows F half mesh capacity)
        (Lib.run (Board.step fun _ => F) b boot) frames ∧
      ∀ c es, Board.Launches (appUploadObjectConstant half c) es → ∃ n,
        (Lib.run (Board.step fun _ => F) (Lib.run (Frame.step F)
          (Lib.run (Board.step fun _ => F) b boot) frames) (es ++ watchEvents n)).device.oDONE = true ∧
        (Lib.run (Board.step fun _ => F) (Lib.run (Frame.step F)
          (Lib.run (Board.step fun _ => F) b boot) frames) (es ++ watchEvents n)).device.core.ctl.idling = true := by
  obtain ⟨hshows, hsettled, harm⟩ := loop_shows F hthr hN hup hb hbehind hboot hframes
  exact ⟨hshows, fun c es hes => Frame.finishes F hsettled harm hes⟩

theorem emptyBoard_settled : emptyBoard.Settled := ⟨⟨rfl, rfl, rfl, rfl, rfl, fun _ => rfl⟩, by decide⟩

def bootEvents : List Event :=
  ((hundredTasks.2 ++ appUploadProgram hundredTasks.1).flatMap Call.accesses).map .access

theorem bootEvents_accesses : bootEvents.filterMap Event.access? =
    (hundredTasks.2 ++ appUploadProgram hundredTasks.1).flatMap Call.accesses := Event.filterMap_access _

theorem hundredTasks_upload : appUploadVertices (gppcuInit ⟨0, 0, 0, 0, 0, 0⟩ 24 512) hundredVertices =
    (hundredTasks.1, hundredTasks.2) := rfl

def narrow : SwkObjectConstant := ⟨fun k => BitVec.ofNat 32 (16 - k.val), 100, 60⟩

theorem hundred_follows : ∃ frames, frames.map Frame.constants = [screen, narrow] ∧
    Lib.Along (Frame.step anyFpu) (Frame.Follows anyFpu (· >>> 1) hundredTasks.1 0xffff)
      (Lib.run (Board.step fun _ => anyFpu) emptyBoard bootEvents) frames := by
  have hh := (appUploadVertices_holds rfl hundredVertices_lt hundredTasks_upload).1
  have hstart := boot_arms anyFpu rfl hundredVertices_lt hundredTasks_upload emptyBoard_settled rfl bootEvents_accesses
  exact Frame.exists_follows anyFpu _ hh hundredVertices_lt 0xffff _ hstart

theorem frames_shown_two : ∃ frames, frames.map Frame.constants = [screen, narrow] ∧
    Lib.Along (Frame.step anyFpu) (Frame.Shows anyFpu (· >>> 1) hundredVertices 0xffff)
      (Lib.run (Board.step fun _ => anyFpu) emptyBoard bootEvents) frames := by
  obtain ⟨frames, hconstants, hfollows⟩ := hundred_follows
  have h := frames_shown anyFpu (· >>> 1) rfl hundredVertices_lt hundredTasks_upload emptyBoard_settled rfl
    bootEvents_accesses 0xffff frames hfollows
  exact ⟨frames, hconstants, h.1⟩

end Loop

end Gppcu
