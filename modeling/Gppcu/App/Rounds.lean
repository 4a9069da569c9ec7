import Gppcu.App.Upload

/-!
# The rounds of the tasks

The host deals the tasks to the threads in rounds, one task size apart in every
local memory. The device works on three rounds in each cycle, one in each lane.
-/

namespace Gppcu

/-! ## Where the host puts a task -/

def SwkGppcu.place (pp : SwkGppcu) (i : Nat) : Nat × Nat := (i % pp.mnumthr, i / pp.mnumthr * pp.mtaskmem)

theorem gppcuWrite_place {pp : SwkGppcu} (hpos : 0 < pp.mnumthr) (data : List Word) (e : BitVec 8)
    (ofst : Word) : gppcuWrite pp data e ofst =
      (List.range pp.roNumtask).flatMap fun i => (List.range e.toNat).map fun j =>
        .dataWr (BitVec.ofNat 32 (pp.place i).1)
          (BitVec.ofNat 32 (pp.place i).2 + ofst + BitVec.ofNat 32 j) (data.getD (i * e.toNat + j) 0) := by
  rw [gppcuWrite, forTasks_all _ _ _ _ hpos, List.takeWhile_eq_self_iff.mpr (by simp)]
  rfl

/-! ## Where the device works -/

def cycleOfst (szPerTask : Word) : Nat → Word
  | 0 => 0
  | c + 1 => cycleOfst szPerTask c + szPerTask

theorem cycleOfst_eq (sz c : Nat) : cycleOfst (BitVec.ofNat 32 sz) c = BitVec.ofNat 32 (c * sz) := by
  induction c with
  | zero => simp [cycleOfst]
  | succ c ih => rw [cycleOfst, ih, Nat.succ_mul, BitVec.ofNat_add]

def lanePivot (szPerTask mtaskmem : Word) (c l : Nat) : Word :=
  cycleOfst szPerTask c + BitVec.ofNat 32 (l * mtaskmem.toNat)

section Queue

variable {QBW GBW : Nat}

structure Queue.InCycle (q : Queue QBW GBW) : Prop where
  ofst : q.curTaskOfst = cycleOfst q.szPerTask q.curCycleIdx.toNat
  le : q.curCycleIdx.toNat ≤ q.numCycles.toNat

theorem Queue.InCycle.clock {q : Queue QBW GBW} (h : q.InCycle) (inRST instrReady : Bool) :
    (q.clock inRST instrReady).InCycle := by
  unfold Queue.clock
  simp only
  split_ifs with hrun hlast hhead hready
  · exact ⟨h.ofst, h.le⟩
  · exact ⟨h.ofst, h.le⟩
  · exact ⟨h.ofst, h.le⟩
  · have hne : q.curCycleIdx.toNat ≠ q.numCycles.toNat := fun he => hlast (BitVec.eq_of_toNat_eq he)
    have hle := h.le
    have hlt := q.numCycles.isLt
    have hnext : (q.curCycleIdx + 1).toNat = q.curCycleIdx.toNat + 1 := Queue.toNat_succ _ (by omega)
    constructor
    · change q.curTaskOfst + q.szPerTask = cycleOfst q.szPerTask (q.curCycleIdx + 1).toNat
      rw [hnext, cycleOfst, h.ofst]
    · change (q.curCycleIdx + 1).toNat ≤ q.numCycles.toNat
      omega
  · exact ⟨rfl, Nat.zero_le _⟩

theorem Queue.inCycle_stopped {q : Queue QBW GBW} (h : q.pmemRunning = false) (inRST instrReady : Bool) :
    (q.clock inRST instrReady).InCycle := by
  unfold Queue.clock
  simp only [h, Bool.false_and, Bool.false_eq_true, if_false]
  exact ⟨rfl, Nat.zero_le _⟩

/-- The command sets neither `num_cycles` nor `sz_per_task`. -/
def LeavesCycles (iCMD : Word) : Prop :=
  ICmd.wparam iCMD = OPR_COMMAND →
    ICmd.lparam iCMD ≠ LPM_NUMCYCLE ∧ ICmd.lparam iCMD ≠ LPM_SZPERCYCLE

theorem Queue.opClock_cycles (q : Queue QBW GBW) {iCMD : Word} (iDATA : Word) (h : LeavesCycles iCMD) :
    (q.opClock iCMD iDATA).curTaskOfst = q.curTaskOfst ∧
      (q.opClock iCMD iDATA).curCycleIdx = q.curCycleIdx ∧
      (q.opClock iCMD iDATA).szPerTask = q.szPerTask ∧ (q.opClock iCMD iDATA).numCycles = q.numCycles := by
  unfold Queue.opClock
  simp only
  split_ifs with hinstr hrun hcmd hstop hreset hnum hsz
  · exact ⟨rfl, rfl, rfl, rfl⟩
  · exact ⟨rfl, rfl, rfl, rfl⟩
  · exact ⟨rfl, rfl, rfl, rfl⟩
  · exact ⟨rfl, rfl, rfl, rfl⟩
  · exact absurd hnum (h hcmd).1
  · exact absurd hsz (h hcmd).2
  · exact ⟨rfl, rfl, rfl, rfl⟩
  · exact ⟨rfl, rfl, rfl, rfl⟩

end Queue

/-! ## The device behind an upload -/

namespace Board

variable {QBW GBW T : Nat} (F : Fin T → Fpu)

def KeepsCycles (b : Board QBW GBW T) (e : Event) : Prop :=
  ∀ a edge, e = .access a → b.ports.rise a = some edge → LeavesCycles edge.after

structure Cycles (numCycles : BitVec 12) (szPerTask : Word) (b : Board QBW GBW T) : Prop where
  num : b.device.queue.numCycles = numCycles
  sz : b.device.queue.szPerTask = szPerTask
  inCycle : b.device.queue.InCycle

theorem Cycles.step {numCycles : BitVec 12} {szPerTask : Word} {b : Board QBW GBW T} {e : Event}
    (h : b.Cycles numCycles szPerTask) (hk : b.KeepsCycles e) :
    (b.step F e).Cycles numCycles szPerTask := by
  cases e with
  | tick =>
    obtain ⟨-, -, -, hn, hsz, -⟩ := queue_clock_host b.device.queue true b.device.core.instrReady
    have hin := h.inCycle.clock true b.device.core.instrReady
    exact ⟨hn.trans h.num, hsz.trans h.sz, hin.ofst, hin.le⟩
  | access a =>
    unfold Board.step
    cases hrise : b.ports.rise a with
    | none =>
      simp only [hrise]
      exact ⟨h.num, h.sz, h.inCycle⟩
    | some edge =>
      obtain ⟨hofst, hidx, hsz, hn⟩ :=
        b.device.queue.opClock_cycles edge.iDATA (hk a edge rfl hrise)
      simp only [hrise]
      refine ⟨hn.trans h.num, hsz.trans h.sz, ?_, ?_⟩
      · change (b.device.queue.opClock edge.after edge.iDATA).curTaskOfst = cycleOfst
          (b.device.queue.opClock edge.after edge.iDATA).szPerTask
          (b.device.queue.opClock edge.after edge.iDATA).curCycleIdx.toNat
        rw [hofst, hidx, hsz, h.inCycle.ofst]
      · change (b.device.queue.opClock edge.after edge.iDATA).curCycleIdx.toNat ≤
          (b.device.queue.opClock edge.after edge.iDATA).numCycles.toNat
        rw [hidx, hn]
        exact h.inCycle.le

/-- From one clock behind an upload on, whatever runs and stops follow, the offset is that of the
cycle. -/
theorem cycles_run {b : Board QBW GBW T} {pp : SwkGppcu} {marr : List Word} {es₁ es₂ : List Event}
    (h₁ : es₁.filterMap Event.access? = (pp.upload marr).flatMap Call.accesses)
    (h₂ : Lib.Along (step F) KeepsCycles (Lib.run (step F) b (es₁ ++ [.tick])) es₂) :
    (Lib.run (step F) b (es₁ ++ .tick :: es₂)).Cycles
      ((BitVec.ofNat 16 ((pp.mtaskcycle + PARALLEL_CNT - 1) / PARALLEL_CNT)).setWidth 12)
      ((BitVec.ofNat 16 (pp.mtaskmem * PARALLEL_CNT)).setWidth 32) := by
  have hqueue := queue_served F (b := b) h₁ (pp.upload_inRange marr)
  obtain ⟨hrun, hsz, hn⟩ := b.device.view.upload_registers pp marr
  have hstop := (congrArg HostView.pmemRunning hqueue).trans hrun
  rw [List.append_cons, Lib.run_append]
  apply Lib.Along.keeps (fun b e h hk => h.step F hk) _ h₂
  rw [Lib.run_concat]
  obtain ⟨-, -, -, hn', hsz', -⟩ := queue_clock_host (Lib.run (step F) b es₁).device.queue true
    (Lib.run (step F) b es₁).device.core.instrReady
  have hin := Queue.inCycle_stopped hstop true (Lib.run (step F) b es₁).device.core.instrReady
  exact ⟨hn'.trans ((congrArg HostView.numCycles hqueue).trans hn),
    hsz'.trans ((congrArg HostView.szPerTask hqueue).trans hsz), hin.ofst, hin.le⟩

end Board

/-! ## Rounds and cycles -/

/-- What `gppcu_init_task_parallel` sets up when its assertion holds. -/
structure SwkGppcu.Dealt (pp : SwkGppcu) : Prop where
  pos : 0 < pp.mnumthr
  words : 0 < pp.mtaskmem
  byte : pp.mtaskmem < 2 ^ 8
  cycle : pp.mtaskcycle = (pp.roNumtask + pp.mnumthr - 1) / pp.mnumthr
  room : pp.roNumtask < 512 / pp.mtaskmem * pp.mnumthr

def SwkGppcu.cycles (pp : SwkGppcu) : Nat := (pp.mtaskcycle + PARALLEL_CNT - 1) / PARALLEL_CNT

def SwkGppcu.szPerTask (pp : SwkGppcu) : Word := (BitVec.ofNat 16 (pp.mtaskmem * PARALLEL_CNT)).setWidth 32

theorem gppcuInitTaskParallel_dealt {pp₀ pp : SwkGppcu} {init : List Call} {t : Nat} {w : BitVec 8}
    {N : BitVec 16} (hinit : gppcuInitTaskParallel (gppcuInit pp₀ t 512) w N = (pp, init))
    (hw : 1 ≤ w.toNat) (hN : N.toNat < 512 / w.toNat * t) :
    pp.Dealt ∧ pp.mnumthr = t ∧ pp.roNumtask = N.toNat ∧ pp.mtaskmem = w.toNat := by
  obtain ⟨rfl, -⟩ := Prod.mk.inj hinit
  have ht : 0 < t := by
    rcases Nat.eq_zero_or_pos t with rfl | ht
    · omega
    · exact ht
  exact ⟨⟨ht, hw, w.isLt, rfl, hN⟩, rfl, rfl, rfl⟩

namespace SwkGppcu

variable {pp : SwkGppcu} (h : pp.Dealt)

include h

theorem Dealt.cycle_le : pp.mtaskcycle ≤ 512 / pp.mtaskmem := by
  have hroom := h.room
  rw [h.cycle, ← Nat.lt_succ_iff, Nat.div_lt_iff_lt_mul h.pos, Nat.succ_mul]
  omega

theorem Dealt.cycle_le_memory : pp.mtaskcycle ≤ 512 := Nat.le_trans h.cycle_le (Nat.div_le_self ..)

theorem Dealt.round_lt {i : Nat} (hi : i < pp.roNumtask) : i / pp.mnumthr < pp.mtaskcycle := by
  have hpos := h.pos
  rw [h.cycle, Nat.lt_iff_add_one_le, Nat.le_div_iff_mul_le hpos, Nat.succ_mul]
  have hle := Nat.div_mul_le_self i pp.mnumthr
  omega

theorem Dealt.cycles_toNat : ((BitVec.ofNat 16 pp.cycles).setWidth 12).toNat = pp.cycles := by
  have hle := h.cycle_le_memory
  have hlt : pp.cycles < 2 ^ 12 := by
    unfold cycles PARALLEL_CNT
    omega
  rw [BitVec.toNat_setWidth, BitVec.toNat_ofNat]
  omega

theorem Dealt.szPerTask_eq : pp.szPerTask = BitVec.ofNat 32 (pp.mtaskmem * PARALLEL_CNT) := by
  have hbyte := h.byte
  unfold szPerTask PARALLEL_CNT
  exact BitVec.setWidth_ofNat_of_le_of_lt (by omega) (by omega)

theorem Dealt.lanePivot_eq (c l : Nat) : lanePivot pp.szPerTask (BitVec.ofNat 32 pp.mtaskmem) c l =
    BitVec.ofNat 32 ((c * PARALLEL_CNT + l) * pp.mtaskmem) := by
  have hbyte := h.byte
  have hmem : (BitVec.ofNat 32 pp.mtaskmem).toNat = pp.mtaskmem := by
    rw [BitVec.toNat_ofNat, Nat.mod_eq_of_lt (by omega)]
  rw [lanePivot, h.szPerTask_eq, cycleOfst_eq, hmem, ← BitVec.ofNat_add]
  congr 1
  rw [Nat.add_mul, Nat.mul_assoc, Nat.mul_comm PARALLEL_CNT]

end SwkGppcu

abbrev Slot (pp : SwkGppcu) : Type := BitVec 12 × Fin PARALLEL_CNT × Fin pp.mnumthr

/-- In its cycle the pivot of the lane is where the host has put task `i`, in its thread. -/
structure WorksOn (szPerTask : Word) (pp : SwkGppcu) (p : Slot pp) (i : Nat) : Prop where
  pivot : lanePivot szPerTask (BitVec.ofNat 32 pp.mtaskmem) p.1.toNat p.2.1 =
    BitVec.ofNat 32 (pp.place i).2
  thread : p.2.2.val = (pp.place i).1

section Slots

variable {pp : SwkGppcu} (h : pp.Dealt) {i j : Nat} (p : Slot pp)

include h

theorem worksOn_iff (hi : i < pp.roNumtask) : WorksOn pp.szPerTask pp p i ↔
    p.1.toNat * PARALLEL_CNT + p.2.1 = i / pp.mnumthr ∧ p.2.2.val = i % pp.mnumthr := by
  have hround := Nat.lt_of_lt_of_le (h.round_lt hi) h.cycle_le_memory
  have hbyte := h.byte
  have hc := p.1.isLt
  have hl : p.2.1.val < 3 := p.2.1.isLt
  have hslot : (p.1.toNat * PARALLEL_CNT + p.2.1) * pp.mtaskmem < 2 ^ 32 := by
    unfold PARALLEL_CNT at *
    exact Nat.lt_of_le_of_lt (Nat.mul_le_mul (show _ ≤ 4095 * 3 + 2 by omega) (show _ ≤ 255 by omega))
      (by decide)
  have hplace : i / pp.mnumthr * pp.mtaskmem < 2 ^ 32 :=
    Nat.lt_of_le_of_lt (Nat.mul_le_mul (show _ ≤ 512 by omega) (show _ ≤ 255 by omega)) (by decide)
  have hpivot : lanePivot pp.szPerTask (BitVec.ofNat 32 pp.mtaskmem) p.1.toNat p.2.1 =
      BitVec.ofNat 32 (pp.place i).2 ↔ p.1.toNat * PARALLEL_CNT + p.2.1 = i / pp.mnumthr := by
    rw [h.lanePivot_eq, SwkGppcu.place, ← BitVec.toNat_inj, BitVec.toNat_ofNat, BitVec.toNat_ofNat,
      Nat.mod_eq_of_lt hslot, Nat.mod_eq_of_lt hplace]
    exact Nat.mul_left_inj (Nat.ne_of_gt h.words)
  constructor
  · rintro ⟨hp, ht⟩
    exact ⟨hpivot.mp hp, ht⟩
  · rintro ⟨hp, ht⟩
    exact ⟨hpivot.mpr hp, ht⟩

theorem worksOn_existsUnique (hi : i < pp.roNumtask) : ∃! p : Slot pp, WorksOn pp.szPerTask pp p i := by
  have hround := Nat.lt_of_lt_of_le (h.round_lt hi) h.cycle_le_memory
  have hc : i / pp.mnumthr / PARALLEL_CNT < 2 ^ 12 := by
    unfold PARALLEL_CNT
    omega
  have hdm := Nat.div_add_mod' (i / pp.mnumthr) PARALLEL_CNT
  refine ⟨⟨BitVec.ofNat 12 (i / pp.mnumthr / PARALLEL_CNT),
    ⟨i / pp.mnumthr % PARALLEL_CNT, Nat.mod_lt _ (by decide)⟩, ⟨i % pp.mnumthr, Nat.mod_lt _ h.pos⟩⟩, ?_, ?_⟩
  · apply (worksOn_iff h _ hi).mpr
    refine ⟨?_, rfl⟩
    rw [BitVec.toNat_ofNat, Nat.mod_eq_of_lt hc]
    exact hdm
  · rintro ⟨c, l, k⟩ hp
    obtain ⟨hs, hk⟩ := (worksOn_iff h _ hi).mp hp
    have hl : l.val < PARALLEL_CNT := l.isLt
    simp only [PARALLEL_CNT] at hs hdm hc hl ⊢
    refine Prod.ext (BitVec.eq_of_toNat_eq ?_) (Prod.ext (Fin.ext ?_) (Fin.ext hk))
    · simp only [BitVec.toNat_ofNat]
      omega
    · simp only
      omega

theorem worksOn_cycle (hi : i < pp.roNumtask) (hp : WorksOn pp.szPerTask pp p i) :
    p.1.toNat < pp.cycles := by
  obtain ⟨hs, -⟩ := (worksOn_iff h p hi).mp hp
  have hround := h.round_lt hi
  unfold SwkGppcu.cycles PARALLEL_CNT at *
  omega

theorem worksOn_injective (hi : i < pp.roNumtask) (hj : j < pp.roNumtask)
    (hpi : WorksOn pp.szPerTask pp p i) (hpj : WorksOn pp.szPerTask pp p j) : i = j := by
  obtain ⟨hsi, hki⟩ := (worksOn_iff h p hi).mp hpi
  obtain ⟨hsj, hkj⟩ := (worksOn_iff h p hj).mp hpj
  rw [← Nat.div_add_mod i pp.mnumthr, ← Nat.div_add_mod j pp.mnumthr, ← hsi, ← hsj, ← hki, ← hkj]

end Slots

/-! ## Every task once -/

section Once

variable {QBW GBW T : Nat} (F : Fin T → Fpu)

/-- Whatever runs and stops follow an upload, the device is in a cycle that it was told to run, with
the offset of that cycle; there the prologue points each lane to its slot; and each task has exactly
one slot of those cycles, which no other task has. -/
theorem tasks_run_once {pp₀ pp : SwkGppcu} {init : List Call} {t : Nat} {w : BitVec 8} {N : BitVec 16}
    (hinit : gppcuInitTaskParallel (gppcuInit pp₀ t 512) w N = (pp, init)) (hw : 1 ≤ w.toNat)
    (hN : N.toNat < 512 / w.toNat * t) {marr : List Word} {b : Board QBW GBW T} {es₁ es₂ : List Event}
    (h₁ : es₁.filterMap Event.access? = (pp.upload marr).flatMap Call.accesses)
    (h₂ : Lib.Along (Board.step F) Board.KeepsCycles (Lib.run (Board.step F) b (es₁ ++ [.tick])) es₂)
    {q : Queue QBW GBW} (hq : q = (Lib.run (Board.step F) b (es₁ ++ .tick :: es₂)).device.queue) :
    q.InCycle ∧
      (∀ (G : Fpu) (m : Machine Reg), ∀ l < PARALLEL_CNT,
        (Machine.run G id (constMem q.cmem.ram q.curTaskOfst) (prologue (BitVec.ofNat 32 pp.mtaskmem)) m).regs
          (laneReg l 9) = lanePivot q.szPerTask (BitVec.ofNat 32 pp.mtaskmem) q.curCycleIdx.toNat l) ∧
      (∀ data e ofst, gppcuWrite pp data e ofst =
        (List.range N.toNat).flatMap fun i => (List.range e.toNat).map fun j =>
          .dataWr (BitVec.ofNat 32 (pp.place i).1)
            (BitVec.ofNat 32 (pp.place i).2 + ofst + BitVec.ofNat 32 j) (data.getD (i * e.toNat + j) 0)) ∧
      (∀ i < N.toNat, (∃! p : Slot pp, WorksOn q.szPerTask pp p i) ∧
        ∀ p : Slot pp, WorksOn q.szPerTask pp p i → p.1.toNat < q.numCycles.toNat) ∧
      ∀ i < N.toNat, ∀ j < N.toNat, ∀ p : Slot pp,
        WorksOn q.szPerTask pp p i → WorksOn q.szPerTask pp p j → i = j := by
  obtain ⟨h, -, htasks, -⟩ := gppcuInitTaskParallel_dealt hinit hw hN
  obtain ⟨hn, hsz, hin⟩ := Board.cycles_run F h₁ h₂
  rw [← hq] at hn hsz hin
  have hnum : q.numCycles.toNat = pp.cycles := by
    rw [hn]
    exact h.cycles_toNat
  have hbyte := h.byte
  have hmem : (BitVec.ofNat 32 pp.mtaskmem).toNat < 2 ^ 8 := by
    rw [BitVec.toNat_ofNat]
    omega
  rw [← htasks, hnum, hsz]
  refine ⟨hin, fun G m l hl => ?_, fun data e ofst => gppcuWrite_place h.pos data e ofst,
    fun i hi => ⟨worksOn_existsUnique h hi, fun p hp => worksOn_cycle h p hi hp⟩,
    fun i hi j hj p hpi hpj => worksOn_injective h p hi hj hpi hpj⟩
  rw [prologue_pivots _ G _ hmem m hl, constMem, if_pos rfl, hin.ofst, hsz, lanePivot]

def uploadThree : List Event := ((threeTasks.1.upload []).flatMap Call.accesses).map .access

theorem tasks_run_once_three :
    ∃! p : Slot threeTasks.1, WorksOn
      (Lib.run (Board.step fun _ => anyFpu) idleBoard (uploadThree ++ [.tick])).device.queue.szPerTask
      threeTasks.1 p 2 := by
  have hinit : gppcuInitTaskParallel (gppcuInit ⟨0, 0, 0, 0, 0, 0⟩ 2 512) 4 3 =
      (threeTasks.1, threeTasks.2) := rfl
  have hkeeps : Lib.Along (Board.step fun _ => anyFpu) Board.KeepsCycles
      (Lib.run (Board.step fun _ => anyFpu) idleBoard (uploadThree ++ [.tick])) [] := trivial
  have h := tasks_run_once (fun _ => anyFpu) hinit (by decide) (by decide)
    (Board.serves_direct (fun _ => anyFpu) idleBoard (threeTasks.1.upload [])).accesses hkeeps rfl
  exact (h.2.2.2.1 2 (by decide)).1

end Once

end Gppcu
