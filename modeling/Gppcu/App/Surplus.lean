import Gppcu.App.Rounds
import Gppcu.Lanes.Leak
import Gppcu.Lanes.Spill

/-!
# Lanes without a task

The driver rounds the rounds up to whole cycles, so in the last one a lane or
two may have no task. What such a lane does is harmless while its region is in
the local memory; where the rounding leaves the memory, its addresses come back
to the tasks of the first rounds.
-/

namespace Gppcu

open Instr

/-! ## The regions of the lanes -/

def SwkGppcu.TaskWord (pp : SwkGppcu) (k : Nat) (a : BitVec 9) : Prop :=
  ∃ i < pp.roNumtask, ∃ j < pp.mtaskmem, pp.cell i j = (k, a)

def SwkGppcu.RegionsInside (pp : SwkGppcu) : Prop :=
  ∀ c < pp.cycles, ∀ l < PARALLEL_CNT, (c * PARALLEL_CNT + l + 1) * pp.mtaskmem ≤ 512

/-- If the lane has no task, it loads from and stores to no word of one. -/
def SparesTasks (g : BitVec 17 → Word) (pp : SwkGppcu) (c k : Nat) (m : Machine Reg) (lc : LaneCopy) : Prop :=
  pp.mtaskcycle ≤ c * PARALLEL_CNT + lc.1 →
    Accesses id g (fun a => ¬pp.TaskWord k a) m (laneWord lc.2 lc.1)

/-- In every cycle and every thread, a program that addresses words of its own task spares the tasks
of the others in the lanes that have none. -/
def SwkGppcu.SurplusSpares (pp : SwkGppcu) : Prop :=
  ∀ (F : Fpu) (g : BitVec 17 → Word) (m : Machine Reg) (ws : List Word) (c k : Nat), c < pp.cycles →
    k < pp.mnumthr → g 0 = cycleOfst pp.szPerTask c →
      Lib.Along (laneExec F g) (Stays g (InTask (g 0) (BitVec.ofNat 32 pp.mtaskmem)))
          (Machine.run F id g (prologue (BitVec.ofNat 32 pp.mtaskmem)) m) (laneCopies ws) →
        Lib.Along (laneExec F g) (SparesTasks g pp c k)
          (Machine.run F id g (prologue (BitVec.ofNat 32 pp.mtaskmem)) m) (laneCopies ws)

def SwkGppcu.CyclesFit (pp : SwkGppcu) : Prop := pp.cycles * PARALLEL_CNT ≤ 512 / pp.mtaskmem

theorem laneCopies_lt {ws : List Word} {lc : LaneCopy} (h : lc ∈ laneCopies ws) : lc.1 < PARALLEL_CNT := by
  obtain ⟨w, -, hlc⟩ := List.mem_flatMap.mp h
  split_ifs at hlc with hnop
  · cases hlc
  · obtain ⟨l, hl, rfl⟩ := List.mem_map.mp hlc
    exact List.mem_range.mp hl

section Regions

variable {pp : SwkGppcu} (h : pp.Dealt)

include h

theorem regionsInside_iff : pp.RegionsInside ↔ pp.CyclesFit := by
  have hpos := h.words
  unfold SwkGppcu.RegionsInside SwkGppcu.CyclesFit
  rw [Nat.le_div_iff_mul_le hpos]
  constructor
  · intro hin
    rcases Nat.eq_zero_or_pos pp.cycles with hzero | hcycles
    · rw [hzero, Nat.zero_mul, Nat.zero_mul]
      exact Nat.zero_le _
    · have hlast := hin (pp.cycles - 1) (by omega) 2 (by decide)
      have hround : (pp.cycles - 1) * PARALLEL_CNT + 2 + 1 = pp.cycles * PARALLEL_CNT := by
        unfold PARALLEL_CNT
        omega
      rwa [hround] at hlast
  · intro hfit c hc l hl
    apply Nat.le_trans (Nat.mul_le_mul_right _ _) hfit
    unfold PARALLEL_CNT at *
    omega

theorem taskAddr_round (c l j : Nat) :
    taskAddr (cycleOfst pp.szPerTask c) (BitVec.ofNat 32 pp.mtaskmem) l j =
      BitVec.ofNat 9 ((c * PARALLEL_CNT + l) * pp.mtaskmem + j) := by
  have hbyte := h.byte
  have hmem : (BitVec.ofNat 32 pp.mtaskmem).toNat = pp.mtaskmem := by
    rw [BitVec.toNat_ofNat, Nat.mod_eq_of_lt (by omega)]
  rw [taskAddr, h.szPerTask_eq, cycleOfst_eq, hmem, ← BitVec.ofNat_add,
    BitVec.setWidth_ofNat_of_le (by omega)]
  congr 1
  rw [Nat.add_mul, Nat.mul_assoc, Nat.mul_comm PARALLEL_CNT, Nat.add_assoc]

theorem round_spares {s j k : Nat} (hs : pp.mtaskcycle ≤ s) (hin : (s + 1) * pp.mtaskmem ≤ 512)
    (hj : j < pp.mtaskmem) : ¬pp.TaskWord k (BitVec.ofNat 9 (s * pp.mtaskmem + j)) := by
  rintro ⟨i, hi, j', hj', he⟩
  have hround := h.round_lt hi
  have hle : (i / pp.mnumthr + 1) * pp.mtaskmem ≤ s * pp.mtaskmem := Nat.mul_le_mul_right _ (by omega)
  have hword := congrArg BitVec.toNat (Prod.mk.inj he).2
  rw [Nat.succ_mul] at hin hle
  rw [BitVec.toNat_ofNat, BitVec.toNat_ofNat, Nat.mod_eq_of_lt (by omega), Nat.mod_eq_of_lt (by omega)]
    at hword
  omega

theorem surplusSpares_of_fit (hfit : pp.CyclesFit) : pp.SurplusSpares := by
  intro F g m ws c k hc _ hg hstays
  have hin := (regionsInside_iff h).mpr hfit
  refine hstays.mono fun m lc hlc hstay hsurplus ha => ?_
  obtain ⟨j, hj, haddr⟩ := hstay ha
  have hl := laneCopies_lt hlc
  have hbyte := h.byte
  rw [BitVec.toNat_ofNat, Nat.mod_eq_of_lt (by omega)] at hj
  rw [haddr, hg, taskAddr_round h]
  exact round_spares h hsurplus (hin c hc lc.1 hl) hj

end Regions

/-! ## A store into a task -/

def storeWord : Word := HostInstr.word (.stl 0 0 1 0)

theorem storeCopies : laneCopies [storeWord] = [(0, storeWord), (1, storeWord), (2, storeWord)] := by decide

theorem storeCopy_fields : ∀ l < PARALLEL_CNT, cw (laneWord storeWord l) = Opr.stl.controlWord ∧
    cond (laneWord storeWord l) = 0 ∧ regb (laneWord storeWord l) = laneReg l 1 ∧
    imm0 (laneWord storeWord l) = 0 := by decide

section Store

variable {l : Nat} (hl : l < PARALLEL_CNT) (m : Machine Reg)

include hl

theorem storeCopy_address (gdata : Word) :
    Machine.oprB id gdata (laneWord storeWord l) m = m.regs (laneReg l 1) := by
  obtain ⟨hcw, -, hb, himm⟩ := storeCopy_fields l hl
  unfold Machine.oprB decOprBMux
  rw [hcw, hb, himm]
  simp [Opr.controlWord]

theorem storeCopy_addresses : Addresses (laneWord storeWord l) m = true := by
  obtain ⟨hcw, hcond, -, -⟩ := storeCopy_fields l hl
  unfold Addresses
  rw [condOk_always hcond, hcw]
  rfl

theorem storeCopy_regs (F : Fpu) (g : BitVec 17 → Word) :
    (laneExec F g m (l, storeWord)).regs = m.regs := by
  obtain ⟨hcw, hcond, -, -⟩ := storeCopy_fields l hl
  unfold laneExec
  rw [Machine.exec_always F id g m hcond, hcw]
  rfl

end Store

section Wrap

variable {pp : SwkGppcu} (c o : Nat)

/-- Register 1 of each lane points to word `o` of its task. -/
def Pointing (pp : SwkGppcu) (c o : Nat) (m : Machine Reg) : Prop :=
  ∀ l < PARALLEL_CNT, m.regs (laneReg l 1) = cycleOfst pp.szPerTask c + BitVec.ofNat 32 (l * pp.mtaskmem + o)

def pointing (pp : SwkGppcu) (c o : Nat) : Machine Reg :=
  { regs := fun r => cycleOfst pp.szPerTask c + BitVec.ofNat 32 (r.toNat / REG_PER_THREAD * pp.mtaskmem + o)
    sreg := ⟨false, false, false, false⟩
    lmem := fun _ => 0 }

theorem pointing_prologue (F : Fpu) (g : BitVec 17 → Word) (mtaskmem : Word) :
    Pointing pp c o (Machine.run F id g (prologue mtaskmem) (pointing pp c o)) := by
  intro l hl
  have hoff : ∀ l < PARALLEL_CNT, (∀ l' < PARALLEL_CNT, laneReg l 1 ≠ laneReg l' 9) ∧
      laneReg l 1 ≠ 7 ∧ (laneReg l 1).toNat / REG_PER_THREAD = l := by decide
  obtain ⟨hpivot, hseven, hdiv⟩ := hoff l hl
  rw [prologue_frame mtaskmem F g _ hpivot hseven, pointing]
  simp only [hdiv]

theorem mem_storeCopies {lc : LaneCopy} (hlc : lc ∈ laneCopies [storeWord]) :
    ∃ l < PARALLEL_CNT, lc = (l, storeWord) := by
  rw [storeCopies] at hlc
  simp only [List.mem_cons, List.not_mem_nil, or_false] at hlc
  rcases hlc with rfl | rfl | rfl
  · exact ⟨0, by decide, rfl⟩
  · exact ⟨1, by decide, rfl⟩
  · exact ⟨2, by decide, rfl⟩

theorem storeCopies_pointing (F : Fpu) (g : BitVec 17 → Word) {m : Machine Reg} {lc : LaneCopy}
    (hlc : lc ∈ laneCopies [storeWord]) (h : Pointing pp c o m) : Pointing pp c o (laneExec F g m lc) := by
  obtain ⟨l, hl, rfl⟩ := mem_storeCopies hlc
  intro l' hl'
  rw [storeCopy_regs hl m F g]
  exact h l' hl'

variable (h : pp.Dealt)

include h

theorem storeCopy_target {l : Nat} (hl : l < PARALLEL_CNT) {m : Machine Reg} (hm : Pointing pp c o m)
    (gdata : Word) : (Machine.oprB id gdata (laneWord storeWord l) m).setWidth 9 =
      taskAddr (cycleOfst pp.szPerTask c) (BitVec.ofNat 32 pp.mtaskmem) l o := by
  have hbyte := h.byte
  rw [storeCopy_address hl m, hm l hl, taskAddr, BitVec.toNat_ofNat, Nat.mod_eq_of_lt (by omega)]

theorem storeCopies_stay (F : Fpu) (g : BitVec 17 → Word) (ho : o < pp.mtaskmem) {m : Machine Reg}
    (hm : Pointing pp c o m) : Lib.Along (laneExec F g)
      (Stays g (InTask (cycleOfst pp.szPerTask c) (BitVec.ofNat 32 pp.mtaskmem))) m
        (laneCopies [storeWord]) := by
  have hbyte := h.byte
  refine Lib.along_of_inv (fun m lc hlc hp => ⟨fun _ => ?_, storeCopies_pointing c o F g hlc hp⟩) hm
  obtain ⟨l, hl, rfl⟩ := mem_storeCopies hlc
  refine ⟨o, ?_, storeCopy_target c o h hl hp _⟩
  rw [BitVec.toNat_ofNat, Nat.mod_eq_of_lt (by omega)]
  exact ho

theorem tasks_pos (hcycles : 0 < pp.cycles) : 0 < pp.roNumtask := by
  have hpos := h.pos
  by_contra hzero
  have hrounds : pp.mtaskcycle = 0 := by
    rw [h.cycle, Nat.div_eq_of_lt (by omega)]
  unfold SwkGppcu.cycles PARALLEL_CNT at hcycles
  omega

theorem firstWord_task (hcycles : 0 < pp.cycles) : pp.TaskWord 0 0 := by
  refine ⟨0, tasks_pos h hcycles, 0, h.words, ?_⟩
  simp [SwkGppcu.cell]

/-- Where the cycles do not fit, the first round behind the memory has a word that comes back to the
first task, and a lane without a task reaches it. -/
theorem fit_of_surplusSpares (hspares : pp.SurplusSpares) : pp.CyclesFit := by
  by_contra hfit
  unfold SwkGppcu.CyclesFit at hfit
  have hdm := Nat.div_add_mod' 512 pp.mtaskmem
  have hround := Nat.div_add_mod' (512 / pp.mtaskmem) PARALLEL_CNT
  have hc : 512 / pp.mtaskmem / PARALLEL_CNT < pp.cycles := by
    unfold PARALLEL_CNT at *
    omega
  have hl : 512 / pp.mtaskmem % PARALLEL_CNT < PARALLEL_CNT := Nat.mod_lt _ (by decide)
  have ho : 512 % pp.mtaskmem < pp.mtaskmem := Nat.mod_lt _ h.words
  have hsurplus := h.cycle_le
  rw [← hround] at hdm hsurplus
  generalize 512 / pp.mtaskmem / PARALLEL_CNT = c at *
  generalize 512 / pp.mtaskmem % PARALLEL_CNT = l at *
  generalize 512 % pp.mtaskmem = o at *
  have hstart : Pointing pp c o _ :=
    pointing_prologue c o anyFpu (offsetOnly (cycleOfst pp.szPerTask c)) (BitVec.ofNat 32 pp.mtaskmem)
  have hspare := hspares anyFpu (offsetOnly (cycleOfst pp.szPerTask c)) (pointing pp c o) [storeWord] c 0 hc
    h.pos rfl (storeCopies_stay c o h anyFpu _ ho hstart)
  have hmem : (l, storeWord) ∈ laneCopies [storeWord] := by
    rw [storeCopies]
    have hl' : l < 3 := hl
    simp only [List.mem_cons, Prod.mk.injEq, and_true, List.not_mem_nil, or_false]
    omega
  obtain ⟨m, hm, hok⟩ := hspare.mem
    (fun m lc hlc hp => storeCopies_pointing c o anyFpu _ hlc hp) hstart hmem
  apply hok hsurplus (storeCopy_addresses hl m)
  rw [storeCopy_target c o h hl hm, taskAddr_round h, hdm]
  exact firstWord_task h (Nat.lt_of_le_of_lt (Nat.zero_le c) hc)

end Wrap

/-! ## Both sides -/

/-- The lanes without a task are harmless exactly where the rounds, rounded up to whole cycles, are no
more than the rounds that fit the memory. -/
theorem surplus_harmless_iff {pp₀ pp : SwkGppcu} {init : List Call} {t : Nat} {w : BitVec 8} {N : BitVec 16}
    (hinit : gppcuInitTaskParallel (gppcuInit pp₀ t 512) w N = (pp, init)) (hw : 1 ≤ w.toNat)
    (hN : N.toNat < 512 / w.toNat * t) :
    (pp.RegionsInside ∧ pp.SurplusSpares ↔ ((N.toNat + t - 1) / t + 2) / 3 * 3 ≤ 512 / w.toNat) ∧
      (pp.SurplusSpares ↔ ((N.toNat + t - 1) / t + 2) / 3 * 3 ≤ 512 / w.toNat) := by
  obtain ⟨h, hthr, htasks, hmem⟩ := gppcuInitTaskParallel_dealt hinit hw hN
  have hfit : pp.CyclesFit ↔ ((N.toNat + t - 1) / t + 2) / 3 * 3 ≤ 512 / w.toNat := by
    unfold SwkGppcu.CyclesFit SwkGppcu.cycles
    rw [h.cycle, hthr, htasks, hmem]
    exact Iff.rfl
  have hspares : pp.SurplusSpares ↔ pp.CyclesFit := ⟨fit_of_surplusSpares h, surplusSpares_of_fit h⟩
  rw [regionsInside_iff h, hspares, and_self, hfit]
  exact ⟨Iff.rfl, Iff.rfl⟩

theorem surplus_harmless_thousand :
    (gppcuInitTaskParallel (gppcuInit ⟨0, 0, 0, 0, 0, 0⟩ 24 512) 12 1000).1.RegionsInside := by
  have hinit : gppcuInitTaskParallel (gppcuInit ⟨0, 0, 0, 0, 0, 0⟩ 24 512) 12 1000 =
      ((gppcuInitTaskParallel (gppcuInit ⟨0, 0, 0, 0, 0, 0⟩ 24 512) 12 1000).1, _) := rfl
  have h := surplus_harmless_iff hinit (by decide) (by decide)
  exact (h.1.mpr (by decide)).1

def wrappingTasks : SwkGppcu × List Call :=
  gppcuInitTaskParallel (gppcuInit ⟨0, 0, 0, 0, 0, 0⟩ 24 512) 8 1513

/-- 1513 tasks of eight words fill 64 rounds, all that fit, and 66 are run: in cycle 21 the second lane of thread 0 is round
64, and its store into its own task clears a word of task 0. -/
theorem surplus_wraps : (1513 : BitVec 16).toNat < 512 / (8 : BitVec 8).toNat * 24 ∧
    ¬(wrappingTasks.1.RegionsInside ∧ wrappingTasks.1.SurplusSpares) ∧ wrappingTasks.1.TaskWord 0 0 ∧
      (Machine.run anyFpu id (offsetOnly (cycleOfst wrappingTasks.1.szPerTask 21))
        (gppcuProgramAutofeedDeviceParallel 8 [HostInstr.word (.stl 0 1 9 0)]) (oneWord 0 5)).lmem 0 = 0 := by
  refine ⟨by decide, fun h => ?_, ⟨0, by decide, 0, by decide, by decide⟩, by decide +kernel⟩
  have hlast := h.1 21 (by decide) 1 (by decide)
  revert hlast
  decide

end Gppcu
