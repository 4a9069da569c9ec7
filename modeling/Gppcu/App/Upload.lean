import Gppcu.App.Pass
import Gppcu.Driver.Task

/-!
# What the application uploads

`app_upload_vertices`, `app_upload_program`, `app_upload_object_constant` and
`app_download_points` as calls of the driver, and the device behind them.
-/

namespace Gppcu

open HostInstr Shader

/-! ## The functions of `app.c` -/

def gppcuWriteConst : List Word → Word → List Call
  | [], _ => []
  | x :: data, ofst => .constantWr (ofst.setWidth 16) x :: gppcuWriteConst data (ofst + 1)

/-- The calls of `gppcu_program_autofeed_device_parallel`. -/
def SwkGppcu.upload (pp : SwkGppcu) (marr : List Word) : List Call :=
  .deviceCommand LPM_RESETPRG 0 :: pp.adjust ++
    (gppcuProgramAutofeedDeviceParallel (BitVec.ofNat 32 pp.mtaskmem) marr).map .pushInstr

theorem SwkGppcu.upload_inRange (pp : SwkGppcu) (marr : List Word) : ∀ c ∈ pp.upload marr, c.InRange := by
  intro c hc
  simp only [SwkGppcu.upload, SwkGppcu.adjust, List.cons_append, List.nil_append, List.mem_cons,
    List.mem_map] at hc
  rcases hc with rfl | rfl | rfl | ⟨w, -, rfl⟩ <;> trivial

structure SwkMesh where
  vertices : List Word
  numVertices : BitVec 16

structure SwkObjectConstant where
  worldViewProj : Fin 16 → Word
  width : Word
  height : Word

def FLOAT_ONE : Word := 0x3f800000

def appUploadProgram (pp : SwkGppcu) : List Call := pp.upload (program.map word)

def appUploadVertices (pp : SwkGppcu) (mesh : SwkMesh) : SwkGppcu × List Call :=
  let (pp', init) := gppcuInitTaskParallel pp (BitVec.ofNat 8 TASK_SPACE) mesh.numVertices
  (pp', init ++ gppcuWrite pp' mesh.vertices 3 (BitVec.ofNat 32 OFST_VEC3_VTEX_INPUT))

/-- `half` is what the host computes for `x * 0.5f`. -/
def appUploadObjectConstant (half : Word → Word) (c : SwkObjectConstant) : List Call :=
  gppcuWriteConst (List.ofFn c.worldViewProj) (cofst COFST_MAT4_WORLD_VIEW_PROJ) ++
    gppcuWriteConst [half c.width] (cofst COFST_WIDTH_HALF) ++
    gppcuWriteConst [half c.height] (cofst COFST_HEIGHT_HALF) ++
    gppcuWriteConst [FLOAT_ONE] (cofst COFST_FLOAT_ONE)

def appDownloadPoints (pp : SwkGppcu) (capacity : Word) : List Call :=
  gppcuRead pp capacity 3 (BitVec.ofNat 32 OFST_VECI4_VTEX_OUTPUT)

/-- A board as `TOP.v` has it, at rest and with nothing in its memories. -/
def emptyBoard : Board 11 6 24 where
  ports := ⟨0, 0⟩
  device := {
    queue := {
      pmem := ⟨fun _ => 0, 0, 0⟩, cmem := ⟨fun _ => 0, 0, 0⟩, pmemEnd := 0,
      pmemRunning := false, numCycles := 0, szPerTask := 0, pmemHead := 0, programDone := false,
      curTaskOfst := 0, curCycleIdx := 0 }
    core := Core.blankCore }

/-! ## Calls and the registers -/

namespace HostView

variable {QBW GBW T : Nat}

def words (v : HostView QBW GBW T) : List Word :=
  (List.range v.pmemEnd.toNat).map fun a => v.pmem (BitVec.ofNat QBW a)

theorem words_push {v : HostView QBW GBW T} (hrun : v.pmemRunning = false)
    (hroom : v.pmemEnd.toNat + 1 < 2 ^ QBW) (w : Word) :
    ((Call.pushInstr w).apply v).words = v.words ++ [w] ∧
      ((Call.pushInstr w).apply v).pmemEnd.toNat = v.pmemEnd.toNat + 1 := by
  have hend : (v.pmemEnd + 1).toNat = v.pmemEnd.toNat + 1 := by
    change (v.pmemEnd + BitVec.ofNat QBW 1).toNat = _
    rw [BitVec.toNat_add, BitVec.toNat_ofNat, Nat.add_mod_mod, Nat.mod_eq_of_lt hroom]
  unfold Call.apply answering push words
  simp only [hrun, Bool.false_eq_true, if_false, hend]
  refine ⟨?_, trivial⟩
  rw [List.range_succ, List.map_append, List.map_singleton, BitVec.ofNat_toNat, BitVec.setWidth_eq,
    Function.update_self]
  congr 1
  apply List.map_congr_left
  intro a ha
  rw [List.mem_range] at ha
  apply Function.update_of_ne
  intro he
  have hn := congrArg BitVec.toNat he
  rw [BitVec.toNat_ofNat, Nat.mod_eq_of_lt (by omega)] at hn
  omega

theorem words_pushes (ws : List Word) {v : HostView QBW GBW T} (hrun : v.pmemRunning = false)
    (hroom : v.pmemEnd.toNat + ws.length < 2 ^ QBW) :
    (v.serve (ws.map .pushInstr)).words = v.words ++ ws := by
  induction ws generalizing v with
  | nil => simp [serve]
  | cons w ws ih =>
    rw [List.length_cons] at hroom
    obtain ⟨hwords, hend⟩ := words_push hrun (by omega) w
    have hrest := ih (show ((Call.pushInstr w).apply v).pmemRunning = false from hrun) (by omega)
    rw [List.map_cons, serve_cons, hrest, hwords, List.append_assoc]
    rfl

theorem pmem_pushes (ws : List Word) {v : HostView QBW GBW T} (hrun : v.pmemRunning = false)
    (hroom : v.pmemEnd.toNat + ws.length < 2 ^ QBW) :
    (v.serve (ws.map .pushInstr)).pmemEnd.toNat = v.pmemEnd.toNat + ws.length ∧
      ∀ a : BitVec QBW, v.pmemEnd.toNat + ws.length ≤ a.toNat →
        (v.serve (ws.map .pushInstr)).pmem a = v.pmem a := by
  induction ws generalizing v with
  | nil => exact ⟨rfl, fun _ _ => rfl⟩
  | cons w ws ih =>
    rw [List.length_cons] at hroom ⊢
    obtain ⟨-, hend⟩ := words_push hrun (by omega) w
    obtain ⟨hend', hkeep⟩ := ih (show ((Call.pushInstr w).apply v).pmemRunning = false from hrun) (by omega)
    rw [List.map_cons, serve_cons]
    refine ⟨by omega, fun a ha => ?_⟩
    rw [hkeep a (by omega)]
    apply Function.update_of_ne
    rintro rfl
    omega

theorem serve_registers {cs : List Call} (hcs : ∀ c ∈ cs, ∀ l x, c ≠ .deviceCommand l x)
    (v : HostView QBW GBW T) :
    (v.serve cs).pmemRunning = v.pmemRunning ∧ (v.serve cs).szPerTask = v.szPerTask ∧
      (v.serve cs).numCycles = v.numCycles := by
  induction cs generalizing v with
  | nil => exact ⟨rfl, rfl, rfl⟩
  | cons c cs ih =>
    rw [List.forall_mem_cons] at hcs
    obtain ⟨hr, hs, hn⟩ := ih hcs.2 (c.apply v)
    rw [serve_cons, hr, hs, hn]
    cases c with
    | deviceCommand l x => exact absurd rfl (hcs.1 l x)
    | _ => exact ⟨rfl, rfl, rfl⟩

theorem upload_registers (pp : SwkGppcu) (marr : List Word) (v : HostView QBW GBW T) :
    (v.serve (pp.upload marr)).pmemRunning = false ∧
      (v.serve (pp.upload marr)).szPerTask = (BitVec.ofNat 16 (pp.mtaskmem * PARALLEL_CNT)).setWidth 32 ∧
      (v.serve (pp.upload marr)).numCycles =
        (BitVec.ofNat 16 ((pp.mtaskcycle + PARALLEL_CNT - 1) / PARALLEL_CNT)).setWidth 12 := by
  unfold SwkGppcu.upload
  rw [serve_append]
  exact serve_registers (by simp) (v.serve (.deviceCommand LPM_RESETPRG 0 :: pp.adjust))

theorem upload_words (pp : SwkGppcu) (marr : List Word) (v : HostView QBW GBW T)
    (hroom : (gppcuProgramAutofeedDeviceParallel (BitVec.ofNat 32 pp.mtaskmem) marr).length < 2 ^ QBW) :
    (v.serve (pp.upload marr)).words =
      gppcuProgramAutofeedDeviceParallel (BitVec.ofNat 32 pp.mtaskmem) marr := by
  have hstart : (v.serve (.deviceCommand LPM_RESETPRG 0 :: pp.adjust)).pmemRunning = false ∧
      (v.serve (.deviceCommand LPM_RESETPRG 0 :: pp.adjust)).pmemEnd = 0 := ⟨rfl, rfl⟩
  obtain ⟨hrun, hend⟩ := hstart
  unfold SwkGppcu.upload
  rw [serve_append, words_pushes _ hrun]
  · unfold words
    rw [hend]
    simp
  · rw [hend]
    simpa using hroom

theorem serve_constants_words {cs : List Call} (hcs : ∀ c ∈ cs, ∃ a x, c = .constantWr a x)
    (v : HostView QBW GBW T) : (v.serve cs).words = v.words := by
  induction cs generalizing v with
  | nil => rfl
  | cons c cs ih =>
    rw [List.forall_mem_cons] at hcs
    obtain ⟨a, x, rfl⟩ := hcs.1
    rw [serve_cons, ih hcs.2]
    rfl

end HostView

/-! ## Constants -/

section Constants

variable {QBW T : Nat} (v : HostView QBW 6 T)

def Call.constant? : Call → Option (BitVec 6 × Word)
  | constantWr Addr Data => some (Addr.setWidth 6, Data)
  | _ => none

theorem HostView.cmem_serve (cs : List Call) :
    (v.serve cs).cmem = Lib.store v.cmem (cs.filterMap Call.constant?) := by
  induction cs generalizing v with
  | nil => rfl
  | cons c cs ih =>
    rw [serve_cons, ih, List.filterMap_cons]
    cases c with
    | deviceCommand l x => exact congrArg (Lib.store · _) (setRegister_queue l x _).2
    | _ => rfl

theorem gppcuWriteConst_constants (data : List Word) (ofst : Nat) :
    (gppcuWriteConst data (cofst ofst)).filterMap Call.constant? =
      (List.range data.length).map fun i => (BitVec.ofNat 6 (ofst + i), data.getD i 0) := by
  induction data generalizing ofst with
  | nil => rfl
  | cons x data ih =>
    have haddr : ((cofst ofst).setWidth 16).setWidth 6 = BitVec.ofNat 6 ofst := by
      rw [BitVec.setWidth_setWidth_of_le _ (by omega)]
      exact BitVec.setWidth_ofNat_of_le (by omega) ofst
    have hnext : cofst ofst + 1 = cofst (ofst + 1) := BitVec.ofNat_add_ofNat ofst 1
    rw [gppcuWriteConst, hnext, List.filterMap_cons, ih, List.length_cons, List.range_succ_eq_map,
      List.map_cons, List.map_map]
    simp [Call.constant?, haddr, Nat.add_assoc, Nat.add_comm 1]

def constants (half : Word → Word) (c : SwkObjectConstant) : List (Nat × Word) :=
  (List.ofFn fun k : Fin 16 => (16 + k.val, c.worldViewProj k)) ++
    [(14, half c.width), (15, half c.height), (1, FLOAT_ONE)]

theorem appUploadObjectConstant_constants (half : Word → Word) (c : SwkObjectConstant) :
    (appUploadObjectConstant half c).filterMap Call.constant? =
      (constants half c).map fun p => (BitVec.ofNat 6 p.1, p.2) := by
  have hmat : (List.range (List.ofFn c.worldViewProj).length).map (fun i =>
        (BitVec.ofNat 6 (COFST_MAT4_WORLD_VIEW_PROJ + i), (List.ofFn c.worldViewProj).getD i 0)) =
      (List.ofFn fun k : Fin 16 => (16 + k.val, c.worldViewProj k)).map fun p =>
        (BitVec.ofNat 6 p.1, p.2) := by
    simp [COFST_MAT4_WORLD_VIEW_PROJ, List.range_succ]
  unfold appUploadObjectConstant constants
  simp only [List.filterMap_append, gppcuWriteConst_constants, List.map_append, List.append_assoc, hmat]
  rfl

theorem constants_lookup {half : Word → Word} {c : SwkObjectConstant} {p q : Nat × Word}
    (hp : p ∈ constants half c) (hq : q ∈ constants half c)
    (h : BitVec.ofNat 6 p.1 = BitVec.ofNat 6 q.1) : p = q := by
  have hn := congrArg BitVec.toNat h
  rw [BitVec.toNat_ofNat, BitVec.toNat_ofNat] at hn
  unfold constants at hp hq
  simp only [List.mem_append, List.mem_ofFn, List.mem_cons, List.not_mem_nil, or_false] at hp hq
  rcases hp with ⟨i, rfl⟩ | rfl | rfl | rfl <;> rcases hq with ⟨j, rfl⟩ | rfl | rfl | rfl
  case inl.inl =>
    have hi := i.isLt
    have hj := j.isLt
    have hij : i = j := Fin.ext (by simp only at hn; omega)
    rw [hij]
  all_goals
    simp only at hn
    first | rfl | omega

theorem constants_at {half : Word → Word} {c : SwkObjectConstant} {p : Nat × Word}
    (hp : p ∈ constants half c) :
    (v.serve (appUploadObjectConstant half c)).cmem (BitVec.ofNat 6 p.1) = p.2 := by
  rw [v.cmem_serve, appUploadObjectConstant_constants]
  apply Lib.store_own
  · exact List.mem_map.mpr ⟨p, hp, rfl⟩
  · intro q hq hkey
    obtain ⟨q', hq', rfl⟩ := List.mem_map.mp hq
    rw [constants_lookup hq' hp hkey]

end Constants

end Gppcu
