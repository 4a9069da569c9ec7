import Gppcu.Core.Refines

/-!
# The drive logic of the FPU

An instruction of the FPU stays in exec while `fp_stage` goes through its four
stages. What the FPU gets are the operands latched on the clock before, and what
it answers reaches write-back once.
-/

namespace Gppcu

open Instr

/-! ## One thread -/

def stageAt (latency : Nat) : Nat → FpStage
  | 0 => .idle
  | 1 => .run
  | j + 2 => if j ≤ latency then .busy else if j = latency + 1 then .done else .idle

theorem stageAt_busy {L j : Nat} (h : j ≤ L) : stageAt L (j + 2) = .busy := if_pos h

theorem stageAt_done (L : Nat) : stageAt L (L + 3) = .done := by
  change (if L + 1 ≤ L then FpStage.busy else if L + 1 = L + 1 then .done else .idle) = .done
  rw [if_neg (Nat.not_succ_le_self L), if_pos rfl]

theorem stageAt_working {L j : Nat} (h : j ≤ L + 2) : stageAt L j ≠ .done := by
  unfold stageAt
  split
  · exact FpStage.noConfusion
  · exact FpStage.noConfusion
  · rw [if_pos (by omega)]
    exact FpStage.noConfusion

namespace Thread

variable (F : Fpu) {n : BitVec 3} {a b : Word} {c : Ctl} {t : Thread} {j : Nat}

structure OnClock (F : Fpu) (n : BitVec 3) (a b : Word) (j : Nat) (t : Thread) : Prop where
  stage : t.fpStage = stageAt (F.latency n) j
  entered : j = 0 → t.execOprandA = a ∧ t.execOprandB = b
  latched : 1 ≤ j → t.fpuDa = a ∧ t.fpuDb = b
  elapsed : 2 ≤ j → t.fpuElapsed = j - 2
  result : j = F.latency n + 3 → t.wrbkFpuQ = F.result n a b

theorem OnClock.fpBusy (h : t.OnClock F n a b j) (hj : j ≤ F.latency n + 2) (hv : c.validExec = true)
    (hfp : c.cwExec.fpOp = true) : t.fpBusy c = true := by
  have hstage : t.fpStage ≠ .done := h.stage ▸ stageAt_working hj
  simp [Thread.fpBusy, hv, hfp, hstage]

theorem OnClock.fpDone (h : t.OnClock F n a b (j + 2)) (hn : c.cwExec.fpuN = n) :
    t.fpDone F c = decide (j = F.latency n) := by
  rw [Thread.fpDone, h.elapsed (by omega), hn]
  rfl

theorem OnClock.clock (h : t.OnClock F n a b j) (hj : j ≤ F.latency n + 2) (hv : c.validExec = true)
    (hfp : c.cwExec.fpOp = true) (hn : c.cwExec.fpuN = n) (g : Word) :
    (t.clock F true c g).OnClock F n a b (j + 1) := by
  have hstage := h.stage
  match j with
  | 0 =>
    obtain ⟨ha, hb⟩ := h.entered rfl
    have hidle : t.fpStage = .idle := hstage
    refine ⟨?_, by simp, fun _ => ?_, by simp, by simp⟩
    · simp [hidle, hv, hfp, stageAt]
    · simp [hidle, ha, hb]
  | 1 =>
    obtain ⟨ha, hb⟩ := h.latched (Nat.le_refl 1)
    have hrun : t.fpStage = .run := hstage
    refine ⟨?_, by simp, fun _ => ?_, fun _ => ?_, by simp⟩
    · simp [hrun, stageAt]
    · simp [hrun, ha, hb]
    · simp [hrun, fpuElapsed]
  | j + 2 =>
    have hle : j ≤ F.latency n := by omega
    obtain ⟨ha, hb⟩ := h.latched (by omega)
    have hbusy : t.fpStage = .busy := hstage.trans (stageAt_busy hle)
    have hdone := h.fpDone F hn
    have helapsed : t.fpuElapsed = j := h.elapsed (by omega)
    refine ⟨?_, by simp, fun _ => ?_, fun _ => ?_, fun hlast => ?_⟩
    · simp only [clock_fpStage, hbusy, hdone, decide_eq_true_eq]
      rcases Nat.eq_or_lt_of_le hle with rfl | hlt
      · rw [if_pos rfl, stageAt_done]
      · rw [if_neg (by omega), stageAt_busy hlt]
    · simp [hbusy, ha, hb]
    · have hlow : (t.clock F true c g).fpStart = false := by simp [hbusy]
      unfold fpuElapsed at helapsed ⊢
      rw [hlow]
      simp only [Thread.clock, fpuElapsed, helapsed, Bool.false_eq_true, if_false]
      omega
    · simp only [clock_wrbkFpuQ, hbusy, hdone, decide_eq_true_eq, fpuQ, hn, ha, hb]
      rw [if_pos (by omega)]

theorem OnClock.fpStart_clock (h : t.OnClock F n a b j) (hj : j ≤ F.latency n + 3)
    (hlow : j = 0 → t.fpStart = false) (g : Word) :
    (t.clock F true c g).fpStart = true ↔ j + 1 = 2 := by
  have hstage := h.stage
  match j with
  | 0 =>
    have hidle : t.fpStage = .idle := hstage
    simp [hidle, hlow rfl]
  | 1 =>
    have hrun : t.fpStage = .run := hstage
    simp [hrun]
  | j + 2 =>
    rcases Nat.eq_or_lt_of_le hj with he | hlt
    · obtain rfl : j = F.latency n + 1 := by omega
      have hdone : t.fpStage = .done := hstage.trans (stageAt_done _)
      simp [hdone]
    · have hbusy : t.fpStage = .busy := hstage.trans (stageAt_busy (by omega))
      simp [hbusy]

end Thread

/-! ## The instruction in exec -/

def fpuOprs : List Opr := [.itof, .ftoi, .fmul, .fdiv, .fadd, .fsub, .fsqrt]

def FpuWord (w : Word) : Prop := ∃ o ∈ fpuOprs, opr w = o.code

theorem FpuWord.controlWord {w : Word} (h : FpuWord w) :
    (cw w).fpOp = true ∧ (cw w).regWr = true ∧ (cw w).lmemRd = false := by
  obtain ⟨o, ho, hcode⟩ := h
  rw [cw_of_code hcode]
  revert ho
  cases o <;> decide

namespace Core

variable {T : Nat} (F : Fpu)

def latchedA (c : Core T) (k : Fin T) : Word :=
  (c.threads k).readReg c.ctl (rega c.ctl.instrDecode)

def latchedB (c : Core T) (iGMEMDATA : Word) (k : Fin T) : Word :=
  decOprBMux c.ctl.cwDecode c.ctl.instrDecode
    ((c.threads k).readReg c.ctl (regb c.ctl.instrDecode)) iGMEMDATA

structure Working (w : Word) (a b : Fin T → Word) (sr : Fin T → Sreg) (j : Nat) (s : Core T) :
    Prop where
  valid : s.ctl.validExec = true
  instr : s.ctl.instrExec = w
  controlWord : s.ctl.cwExec = cw w
  sreg : ∀ k, (s.threads k).execSreg = sr k
  thread : ∀ k, (s.threads k).OnClock F (cw w).fpuN (a k) (b k) j

namespace Working

variable {F} {w : Word} {a b : Fin T → Word} {sr : Fin T → Sreg} {j : Nat} {s : Core T}

theorem delay (h : Working F w a b sr j s) (hw : FpuWord w) (hj : j ≤ F.latency (cw w).fpuN + 2)
    (k : Fin T) : s.onCalculationDelay = true := by
  have hfp : s.ctl.cwExec.fpOp = true := h.controlWord ▸ hw.controlWord.1
  exact decide_eq_true ⟨k, (h.thread k).fpBusy F hj h.valid hfp⟩

theorem clock (h : Working F w a b sr j s) (hw : FpuWord w) (hs : sBit w = false)
    (hj : j ≤ F.latency (cw w).fpuN + 2) (k : Fin T) (i : Inputs) (hr : i.inRST = true) :
    Working F w a b sr (j + 1) (s.clock (fun _ => F) i) ∧
      (s.clock (fun _ => F) i).ctl.validWriteback = false := by
  have hd := h.delay hw hj k
  have hst : s.ctl.dataStallDecode true = true := by simp [Ctl.dataStallDecode]
  have hfp : s.ctl.cwExec.fpOp = true := h.controlWord ▸ hw.controlWord.1
  have hn : s.ctl.cwExec.fpuN = (cw w).fpuN := by rw [h.controlWord]
  refine ⟨⟨?_, ?_, ?_, fun k' => ?_, fun k' => ?_⟩, ?_⟩
  · simp [Ctl.clock, hr, hd, h.valid]
  · simp [Ctl.clock, hd, hst, h.instr]
  · simp [Ctl.clock, hd, hst, h.controlWord]
  · simp [Core.clock, Thread.clock, hr, h.instr, hs, h.sreg k']
  · simp only [Core.clock, hr]
    exact (h.thread k').clock F hj h.valid hfp hn _
  · simp [Ctl.clock, hr, hd]

theorem done (h : Working F w a b sr (F.latency (cw w).fpuN + 3) s) : s.onCalculationDelay = false := by
  apply decide_eq_false
  rintro ⟨k, hk⟩
  have hdone : (s.threads k).fpStage = .done := (h.thread k).stage.trans (stageAt_done _)
  simp [Thread.fpBusy, hdone] at hk

theorem release (h : Working F w a b sr (F.latency (cw w).fpuN + 3) s) (hw : FpuWord w) (k : Fin T)
    (i : Inputs) (hr : i.inRST = true) :
    let s' := s.clock (fun _ => F) i
    s'.ctl.validWriteback = true ∧ s'.ctl.instrWriteback = w ∧
      (s'.threads k).wrbkRegD s'.ctl = F.result (cw w).fpuN (a k) (b k) ∧
      (s'.threads k).wrbkWr s'.ctl = condOk w (sr k) ∧ (s'.threads k).fpStage = .idle ∧
      s'.ctl.validExec = s.dispatches ∧ (s.dispatches = true → s'.ctl.instrExec = s.ctl.instrDecode) := by
  obtain ⟨hfp, hwr, hrd⟩ := hw.controlWord
  have hd := h.done
  have hdone : (s.threads k).fpStage = .done := (h.thread k).stage.trans (stageAt_done _)
  have hres := (h.thread k).result rfl
  refine ⟨?_, ?_, ?_, ?_, ?_, ?_, fun hdis => ?_⟩
  · simp [Ctl.clock, hr, hd, h.valid]
  · simp [Core.clock, Ctl.clock, h.instr]
  · simp [Ctl.clock, Thread.wrbkRegD, h.controlWord, hr, hrd, hfp, hdone, hres]
  · simp [Ctl.clock, Thread.clock, Thread.wrbkWr, Thread.execCondVerified, condOk,
      h.controlWord, h.valid, h.instr, h.sreg k, hr, hd, hwr]
  · simp [hr, hdone]
  · cases hst : s.ctl.dataStallDecode false <;>
      simp [Ctl.clock, dispatches, Ctl.dispatches, hr, hd, hst]
  · have hst : s.ctl.dataStallDecode false = false := by
      simp only [dispatches, Ctl.dispatches, hd, Bool.and_eq_true, Bool.not_eq_true'] at hdis
      exact hdis.1
    simp [Ctl.clock, hd, hst]

end Working

/-! ## The clock on which it leaves decode -/

/-- The FPU's drive logic is busy with nothing but an instruction of the FPU in exec. -/
structure Driven (s : Core T) : Prop where
  decode : s.ctl.DecodeOk
  busy : ∀ k, (s.threads k).fpStage ≠ .idle → s.ctl.validExec = true ∧ s.ctl.cwExec.fpOp = true
  done : ∀ k, (s.threads k).fpStage = .done → (s.threads k).fpStart = false

theorem AfterReset.driven {s : Core T} (h : s.AfterReset) : s.Driven where
  decode hv := by
    rw [h.decode] at hv
    cases hv
  busy k hk := absurd (h.fpStage k) hk
  done k hk := by
    rw [h.fpStage k] at hk
    cases hk

variable {F} {s : Core T}

theorem Driven.clock (h : s.Driven) (i : Inputs) : (s.clock (fun _ => F) i).Driven := by
  refine ⟨decodeOk_clock h.decode _ i, fun k hk => ?_, fun k hk => ?_⟩
  · cases hr : i.inRST with
    | false => simp [hr] at hk
    | true =>
      -- A stage that is not idle afterwards has held the instruction in exec.
      have hwork : (s.threads k).fpStage ≠ .done ∧ s.ctl.validExec = true ∧
          s.ctl.cwExec.fpOp = true := by
        have hb := h.busy k
        cases hst : (s.threads k).fpStage with
        | idle => simpa [hr, hst] using hk
        | done => simp [hr, hst] at hk
        | run | busy => simpa [hst] using hb
      obtain ⟨hnd, hv, hfp⟩ := hwork
      have hd : s.onCalculationDelay = true := decide_eq_true ⟨k, by simp [Thread.fpBusy, hnd, hv, hfp]⟩
      simp [Ctl.clock, Ctl.dataStallDecode, hr, hd, hv, hfp]
  · cases hr : i.inRST with
    | false => simp [hr] at hk
    | true =>
      cases hst : (s.threads k).fpStage with
      | busy => simp [hr, hst]
      | done => simp [hr, hst]
      | idle =>
        simp only [clock_threads, hr, Thread.clock_fpStage, hst] at hk
        split_ifs at hk
      | run => simp [hr, hst] at hk

theorem Driven.settled (h : s.Driven) (hd : s.onCalculationDelay = false) (k : Fin T) (i : Inputs)
    (hr : i.inRST = true) :
    ((s.clock (fun _ => F) i).threads k).fpStage = .idle ∧
      ((s.clock (fun _ => F) i).threads k).fpStart = (s.threads k).fpStart := by
  have hnb : (s.threads k).fpBusy s.ctl = false := by
    by_contra hn
    exact of_decide_eq_false hd ⟨k, by simpa using hn⟩
  have hb := h.busy k
  cases hst : (s.threads k).fpStage with
  | idle =>
    have hidle : (s.ctl.validExec && s.ctl.cwExec.fpOp) = false := by
      simpa [Thread.fpBusy, hst] using hnb
    simp [hr, hst, hidle]
  | done => simp [hr, hst, h.done k hst]
  | run | busy =>
    obtain ⟨hv, hfp⟩ := hb (by simp [hst])
    simp [Thread.fpBusy, hst, hv, hfp] at hnb

theorem Driven.dispatch (h : s.Driven) (hdis : s.dispatches = true) (i : Inputs) (hr : i.inRST = true) :
    Working F s.ctl.instrDecode s.latchedA (s.latchedB i.iGMEM_WDATA)
        (fun k => ((s.clock (fun _ => F) i).threads k).execSreg) 0 (s.clock (fun _ => F) i) ∧
      ∀ k, ((s.clock (fun _ => F) i).threads k).fpStart = (s.threads k).fpStart := by
  obtain ⟨hst, hv⟩ : s.ctl.dataStallDecode s.onCalculationDelay = false ∧ s.ctl.validDecode = true := by
    simpa [dispatches, Ctl.dispatches] using hdis
  have hd : s.onCalculationDelay = false := by
    simp only [Ctl.dataStallDecode, Bool.or_eq_false_iff] at hst
    exact hst.2
  rw [hd] at hst
  refine ⟨⟨?_, ?_, ?_, fun _ => rfl, fun k => ?_⟩, fun k => (h.settled hd k i hr).2⟩
  · simp [Ctl.clock, hr, hd, hst, hv]
  · simp [Ctl.clock, hd, hst]
  · simp [Ctl.clock, hd, hst, h.decode hv]
  · exact ⟨(h.settled hd k i hr).1, fun _ => ⟨rfl, rfl⟩, by simp, by simp, by simp⟩

def ResetClear (s : Core T) (i : Inputs) : Prop :=
  i.inRST = false → ∀ k, (s.threads k).fpStart = false

def StartInBusy (s : Core T) : Prop := ∀ k, (s.threads k).fpStart = true → (s.threads k).fpStage = .busy

theorem StartInBusy.clock (h : s.StartInBusy) {i : Inputs} (hi : s.ResetClear i) :
    (s.clock (fun _ => F) i).StartInBusy := by
  intro k hk
  cases hr : i.inRST with
  | false => simp [hr, hi hr k] at hk
  | true =>
    cases hst : (s.threads k).fpStage with
    | idle =>
      have hlow : (s.threads k).fpStart = false := by
        by_contra hn
        have hbusy := h k (by simpa using hn)
        rw [hst] at hbusy
        cases hbusy
      simp [hr, hst, hlow] at hk
    | run => simp [hr, hst]
    | busy | done => simp [hr, hst] at hk

/-! ## From decode to write-back -/

def states (F : Fpu) (c : Core T) (is : Nat → Inputs) : Nat → Core T
  | 0 => c.clock (fun _ => F) (is 0)
  | j + 1 => (states F c is j).clock (fun _ => F) (is (j + 1))

def latency (F : Fpu) (c : Core T) : Nat := F.latency (cw c.ctl.instrDecode).fpuN

/-- Thread `k` runs the word that leaves decode in `c` once. -/
structure Sequenced (F : Fpu) (c : Core T) (is : Nat → Inputs) (k : Fin T) : Prop where
  start : ∀ j ≤ c.latency F + 4, (((states F c is j).threads k).fpStart = true ↔ j = 2)
  operands : ∀ j, 2 ≤ j → j ≤ c.latency F + 2 →
    ((states F c is j).threads k).fpuDa = c.latchedA k ∧
      ((states F c is j).threads k).fpuDb = c.latchedB (is 0).iGMEM_WDATA k
  stays : ∀ j ≤ c.latency F + 3, (states F c is j).ctl.validExec = true ∧
    (states F c is j).ctl.instrExec = c.ctl.instrDecode ∧
      (states F c is j).ctl.cwExec.fpuN = (cw c.ctl.instrDecode).fpuN
  waits : ∀ j, 1 ≤ j → j ≤ c.latency F + 3 → (states F c is j).ctl.validWriteback = false
  writeback : (states F c is (c.latency F + 4)).ctl.validWriteback = true ∧
    (states F c is (c.latency F + 4)).ctl.instrWriteback = c.ctl.instrDecode
  result : ((states F c is (c.latency F + 4)).threads k).wrbkRegD
      (states F c is (c.latency F + 4)).ctl =
    F.result (cw c.ctl.instrDecode).fpuN (c.latchedA k) (c.latchedB (is 0).iGMEM_WDATA k)
  written : ((states F c is (c.latency F + 4)).threads k).wrbkWr
      (states F c is (c.latency F + 4)).ctl =
    condOk c.ctl.instrDecode ((states F c is 0).threads k).execSreg
  idle : ((states F c is (c.latency F + 4)).threads k).fpStage = .idle
  leaves : (states F c is (c.latency F + 4)).ctl.validExec = (states F c is (c.latency F + 3)).dispatches
  next : (states F c is (c.latency F + 3)).dispatches = true →
    (states F c is (c.latency F + 4)).ctl.instrExec =
      (states F c is (c.latency F + 3)).ctl.instrDecode

theorem Driven.working (h : s.Driven) (hdis : s.dispatches = true) (hw : FpuWord s.ctl.instrDecode)
    (hs : sBit s.ctl.instrDecode = false) {is : Nat → Inputs} (his : ∀ j, (is j).inRST = true)
    (k : Fin T) {j : Nat} (hj : j ≤ s.latency F + 3) :
    Working F s.ctl.instrDecode s.latchedA (s.latchedB (is 0).iGMEM_WDATA)
        (fun k => ((states F s is 0).threads k).execSreg) j (states F s is j) ∧
      (1 ≤ j → (states F s is j).ctl.validWriteback = false) := by
  induction j with
  | zero => exact ⟨(h.dispatch hdis (is 0) (his 0)).1, by simp⟩
  | succ j ih =>
    obtain ⟨hwork, -⟩ := ih (by omega)
    have hle : j ≤ F.latency (cw s.ctl.instrDecode).fpuN + 2 := Nat.le_of_succ_le_succ hj
    obtain ⟨hnext, hwb⟩ := hwork.clock hw hs hle k (is (j + 1)) (his (j + 1))
    exact ⟨hnext, fun _ => hwb⟩

theorem Driven.start_iff (h : s.Driven) (hdis : s.dispatches = true) (hw : FpuWord s.ctl.instrDecode)
    (hs : sBit s.ctl.instrDecode = false) {is : Nat → Inputs} (his : ∀ j, (is j).inRST = true)
    {k : Fin T} (hlow : (s.threads k).fpStart = false) {j : Nat} (hj : j ≤ s.latency F + 4) :
    ((states F s is j).threads k).fpStart = true ↔ j = 2 := by
  have hzero : ((states F s is 0).threads k).fpStart = false :=
    ((h.dispatch hdis (is 0) (his 0)).2 k).trans hlow
  cases j with
  | zero => simp [hzero]
  | succ j =>
    have hle : j ≤ F.latency (cw s.ctl.instrDecode).fpuN + 3 := Nat.le_of_succ_le_succ hj
    have hwork := (h.working hdis hw hs his k hle).1
    have hclock := (hwork.thread k).fpStart_clock F (c := (states F s is j).ctl) hle
      (by rintro rfl; exact hzero) (is (j + 1)).iGMEM_WDATA
    simp only [states, Core.clock, his (j + 1)]
    exact hclock

theorem Driven.sequenced (h : s.Driven) (hdis : s.dispatches = true) (hw : FpuWord s.ctl.instrDecode)
    (hs : sBit s.ctl.instrDecode = false) {is : Nat → Inputs} (his : ∀ j, (is j).inRST = true)
    {k : Fin T} (hlow : (s.threads k).fpStart = false) : Sequenced F s is k := by
  have hwork : ∀ j ≤ s.latency F + 3, _ := fun j hj => h.working hdis hw hs his k hj
  obtain ⟨hvalid, hinstr, hresult, hwr, hidle, hleaves, hnext⟩ :=
    (hwork _ (Nat.le_refl _)).1.release hw k (is (s.latency F + 4)) (his _)
  refine ⟨fun j hj => h.start_iff hdis hw hs his hlow hj, fun j h2 hj => ?_, fun j hj => ?_,
    fun j h1 hj => (hwork j hj).2 h1, ⟨hvalid, hinstr⟩, hresult, hwr, hidle, hleaves, hnext⟩
  · exact ((hwork j (by omega)).1.thread k).latched (by omega)
  · obtain ⟨hv, hi, hcw, -, -⟩ := (hwork j hj).1
    exact ⟨hv, hi, by rw [hcw]⟩

theorem run_driven (hs : s.AfterReset) (pre : List Inputs) :
    (Lib.run (clock fun _ => F) s pre).Driven := by
  have hall : Lib.Along (clock fun _ => F) (fun _ _ => True) s pre :=
    Lib.along_of_forall fun _ _ => trivial
  exact Lib.Along.keeps (fun _ i h _ => h.clock i) hs.driven hall

theorem run_startInBusy (hlow : ∀ k, (s.threads k).fpStart = false) {pre : List Inputs}
    (hpre : Lib.Along (clock fun _ => F) ResetClear s pre) :
    (Lib.run (clock fun _ => F) s pre).StartInBusy := by
  have hs : s.StartInBusy := by
    intro k hk
    rw [hlow k] at hk
    cases hk
  exact Lib.Along.keeps (fun _ _ h hi => h.clock hi) hs hpre

theorem Driven.start_low (h : s.Driven) (hdis : s.dispatches = true) (hb : s.StartInBusy) (k : Fin T) :
    (s.threads k).fpStart = false := by
  by_contra hn
  have hbusy := hb k (by simpa using hn)
  obtain ⟨hv, hfp⟩ := h.busy k (by simp [hbusy])
  have hd : s.onCalculationDelay = true :=
    decide_eq_true ⟨k, by simp [Thread.fpBusy, hbusy, hv, hfp]⟩
  simp [dispatches, Ctl.dispatches, Ctl.dataStallDecode, hd] at hdis

/-- An instruction of the FPU that leaves decode runs once exactly when `fp_start` is low on that
clock, and it is low in every run without a reset while `fp_start` is high. -/
theorem sequenced_iff (F : Fpu) (s : Core T) (hs : s.AfterReset) (pre : List Inputs) (c : Core T)
    (hc : Lib.run (clock fun _ => F) s pre = c) (hdis : c.dispatches = true)
    (hw : FpuWord c.ctl.instrDecode) (hsb : sBit c.ctl.instrDecode = false) (is : Nat → Inputs)
    (his : ∀ j, (is j).inRST = true) (k : Fin T) :
    (Sequenced F c is k ↔ (c.threads k).fpStart = false) ∧
      ((∀ k, (s.threads k).fpStart = false) → Lib.Along (clock fun _ => F) ResetClear s pre →
        Sequenced F c is k) := by
  have hdriven : c.Driven := hc ▸ run_driven hs pre
  refine ⟨⟨fun hseq => ?_, fun hlow => hdriven.sequenced hdis hw hsb his hlow⟩, fun hlow hpre => ?_⟩
  · by_contra hn
    have hzero := (hdriven.dispatch (F := F) hdis (is 0) (his 0)).2 k
    have habs := (hseq.start 0 (Nat.zero_le _)).mp (hzero.trans (by simpa using hn))
    cases habs
  · have hbusy : c.StartInBusy := hc ▸ run_startInBusy hlow hpre
    exact hdriven.sequenced hdis hw hsb his (hdriven.start_low hdis hbusy k)

def fmulRun : List Inputs := [⟨true, 0x08061002, true, 0⟩, ⟨true, 0, false, 0⟩]

def noWords : Nat → Inputs := fun _ => ⟨true, 0, false, 0⟩

theorem sequenced_fmul :
    Sequenced anyFpu (Lib.run (clock fun _ => anyFpu) (blankCore : Core 1) fmulRun) noWords 0 :=
  (sequenced_iff anyFpu blankCore blankCore_afterReset fmulRun _ rfl (by decide)
    ⟨.fmul, by decide, by decide⟩ (by decide) noWords (fun _ => rfl) 0).2 (fun _ => rfl)
    ⟨fun h => absurd h (by decide), fun h => absurd h (by decide), trivial⟩

def cutRun : List Inputs :=
  fmulRun ++ List.replicate 3 ⟨true, 0, false, 0⟩ ++ [⟨false, 0, false, 0⟩] ++ fmulRun

theorem not_sequenced :
    (blankCore : Core 1).AfterReset ∧
      (Lib.run (clock fun _ => anyFpu) (blankCore : Core 1) cutRun).dispatches = true ∧
      (Lib.run (clock fun _ => anyFpu) (blankCore : Core 1) cutRun).ctl.instrDecode = 0x08061002 ∧
      ¬ Sequenced anyFpu (Lib.run (clock fun _ => anyFpu) (blankCore : Core 1) cutRun) noWords 0 := by
  refine ⟨blankCore_afterReset, by decide +kernel, by decide +kernel, fun h => ?_⟩
  have hstart := h.start 0 (Nat.zero_le _)
  revert hstart
  decide +kernel

end Core

end Gppcu
