import Gppcu.Core.Stall

/-!
# The pipeline computes the sequential machine

`Sim` relates a thread to the machine `M` that has executed every word that left
decode. The word in exec is the only one that `M` has and the thread has not:
the thread holds its operands, and the FPU may still be working on them.
-/

namespace Gppcu

open Instr

/-! ## FPU words and memory words -/

theorem fpOp_plain {w : Word} (hs : sAllowed w) (hf : (cw w).fpOp = true) :
    sBit w = false ∧ (cw w).lmemWr = false ∧ (cw w).lmemRd = false := by
  obtain ⟨o, ho, hcode⟩ := cw_cases w
  rw [ho] at hf ⊢
  refine ⟨?_, ?_, ?_⟩
  · by_contra hsb
    obtain ⟨o', ho', hd⟩ := hs.opr (by simpa using hsb)
    have : o' = o := by rcases hcode with hc | ⟨hc, -⟩ <;> simp_all
    subst this
    cases o' <;> simp [Opr.controlWord, Opr.flagsDeclared] at hf hd
  · cases o <;> simp [Opr.controlWord] at hf ⊢
  · cases o <;> simp [Opr.controlWord] at hf ⊢

theorem lmemRd_plain (w : Word) (h : (cw w).lmemRd = true) : (cw w).lmemWr = false := by
  obtain ⟨o, ho, -⟩ := cw_cases w
  rw [ho] at h ⊢
  cases o <;> simp [Opr.controlWord] at h ⊢

/-! ## A thread and the machine ahead of it -/

namespace Thread

def banked (c : Ctl) (t : Thread) : Reg → Word :=
  if t.wrbkWr c then Function.update t.rg (regd c.instrWriteback) (t.wrbkRegD c) else t.rg

theorem readReg_eq (c : Ctl) (t : Thread) (r : Reg) : t.readReg c r = t.banked c r := by
  unfold readReg banked
  cases hw : t.wrbkWr c with
  | false => simp
  | true =>
    by_cases hr : r = regd c.instrWriteback
    · simp [hr]
    · simp [hr]

/-- What the thread stores: the machine as far as the local memory, the flags and the registers
of every word but the one in exec go. -/
structure Holds (c : Ctl) (t : Thread) (m : Machine Reg) : Prop where
  regs : t.banked c = m.regs
  sreg : t.execSreg = m.sreg
  lmem : t.localMemory.ram = m.lmem

/-- The operands of the word in exec, or what the FPU has made of them so far. -/
def ExecData (F : Fpu) (c : Ctl) (t : Thread) (g : Word) (m : Machine Reg) : Prop :=
  let a := Machine.oprA id c.instrExec m
  let b := Machine.oprB id g c.instrExec m
  match t.fpStage with
  | .idle => SameOps (cw c.instrExec) t.execOprandA t.execOprandB a b
  | .run | .busy => c.cwExec.fpOp = true ∧ SameOps (cw c.instrExec) t.fpuDa t.fpuDb a b
  | .done => c.cwExec.fpOp = true ∧
      (c.cwExec.regWr = true → t.wrbkFpuQ = F.result c.cwExec.fpuN a b)

/-- `M` is ahead of the thread by the word in exec. -/
def Sim (F : Fpu) (c : Ctl) (t : Thread) (M : Machine Reg) : Prop :=
  ∃ m, t.Holds c m ∧
    if c.validExec then
      c.cwExec = cw c.instrExec ∧ sAllowed c.instrExec ∧
        ∃ g, t.ExecData F c g m ∧ M = Machine.execWith F id g c.instrExec m
    else t.fpStage = .idle ∧ M = m

end Thread

/-! ## One clock -/

def Ctl.dispatches (c : Ctl) (delay : Bool) : Bool := !c.dataStallDecode delay && c.validDecode

/-- The word in decode reads what the word in exec has still to write, and nothing stops it. -/
def Ctl.staleRead (c : Ctl) (delay : Bool) : Bool :=
  c.dispatches delay && c.validExec && c.cwExec.regWr && c.requests (regd c.instrExec)

def Ctl.DecodeOk (c : Ctl) : Prop := c.validDecode = true → c.cwDecode = cw c.instrDecode

theorem Ctl.requests_eq (c : Ctl) (hd : c.DecodeOk) (hv : c.validDecode = true) (r : Reg) :
    c.requests r = reads c.instrDecode r := by
  simp only [requests, reads, hv, hd hv, Bool.true_and]
  congr 2 <;> exact Bool.beq_comm

namespace Thread

variable (F : Fpu) {c : Ctl} {t : Thread} {M : Machine Reg}

theorem sim_held (h : t.Sim F c M) (hb : t.fpBusy c = true) (iINSTR : Word) (v : Bool) (g : Word) :
    (t.clock F true c g).Sim F (c.clock true iINSTR v true) M := by
  obtain ⟨m, hm, hx⟩ := h
  obtain ⟨hve, hst, hfp⟩ : c.validExec = true ∧ t.fpStage ≠ .done ∧ c.cwExec.fpOp = true := by
    simpa [fpBusy, and_assoc] using hb
  rw [if_pos hve] at hx
  obtain ⟨hcw, hs, g', hdata, hM⟩ := hx
  obtain ⟨hsb, hlw, -⟩ := fpOp_plain hs (hcw ▸ hfp)
  have hlw' : c.cwExec.lmemWr = false := hcw ▸ hlw
  refine ⟨m, ⟨?_, ?_, ?_⟩, ?_⟩
  · rw [← hm.regs]
    simp [banked, clock, Ctl.clock, wrbkWr]
  · simp [clock, hsb, hm.sreg]
  · simp [clock, DpramParam.clkB, hlw', hm.lmem]
  · have hve' : (c.clock true iINSTR v true).validExec = true := by simp [Ctl.clock, hve]
    have hce : (c.clock true iINSTR v true).cwExec = c.cwExec := by
      simp [Ctl.clock, Ctl.dataStallDecode]
    have hie : (c.clock true iINSTR v true).instrExec = c.instrExec := by
      simp [Ctl.clock, Ctl.dataStallDecode]
    rw [if_pos hve', hce, hie]
    refine ⟨hcw, hs, g', ?_, hM⟩
    unfold ExecData at hdata ⊢
    rw [hce, hie]
    -- The four stages of the FPU drive logic, `done` being excluded by `fpBusy`.
    cases hstage : t.fpStage with
    | idle => simpa [hstage, hve, hfp] using hdata
    | run => simpa [hstage, hfp] using hdata
    | busy =>
      simp only [hstage] at hdata
      by_cases hdone : t.fpDone F c = true
      · simp only [clock_fpStage, clock_wrbkFpuQ, hstage, hdone, if_true]
        refine ⟨hfp, fun hw => ?_⟩
        rw [fpuQ]
        obtain ⟨o, ho, -⟩ := cw_cases c.instrExec
        have hcwo : c.cwExec = o.controlWord := hcw.trans ho
        rw [ho] at hdata
        rw [hcwo] at hw hfp ⊢
        exact fpu_result_congr F hfp hw hdata.2
      · simpa [hstage, hdone] using hdata
    | done => exact absurd hstage hst

theorem holds_moved (h : t.Sim F c M) (hb : t.fpBusy c = false) (iINSTR : Word) (v : Bool) (g : Word) :
    (t.clock F true c g).Holds (c.clock true iINSTR v false) M ∧
      (t.clock F true c g).fpStage = .idle := by
  obtain ⟨m, hm, hx⟩ := h
  by_cases hve : c.validExec = true
  · rw [if_pos hve] at hx
    obtain ⟨hcw, hs, g', hdata, rfl⟩ := hx
    have hcond : t.execCondVerified c = condOk c.instrExec m.sreg := by
      rw [execCondVerified, condOk, hm.sreg]
    have hb' : t.fpStage = .done ∨ c.cwExec.fpOp = false := by
      by_contra hne
      push Not at hne
      simp [fpBusy, hve, hne.1] at hb
      exact hne.2 hb
    rcases hb' with hdone | hnfp
    · unfold ExecData at hdata
      simp only [hdone] at hdata
      obtain ⟨hfp, hq⟩ := hdata
      obtain ⟨hsb, hlw, hlr⟩ := fpOp_plain hs (hcw ▸ hfp)
      refine ⟨⟨?_, ?_, ?_⟩, by simp [hdone]⟩
      · rw [← hcw] at hlr
        simp only [banked, wrbkWr, wrbkRegD, clock, fpClock, hdone, Ctl.clock, hve, hcond,
          Machine.execWith, Machine.execOps, resultOf, ← hcw, hlr, hfp, ← hm.regs, id]
        by_cases hw : c.cwExec.regWr = true
        · simp [hw, hq hw]
        · simp [hw]
      · simp [clock, Machine.execWith, Machine.execOps, hsb, hm.sreg]
      · simp [clock, DpramParam.clkB, Machine.execWith, Machine.execOps, hcw, hlw, hm.lmem]
    · have hidle : t.fpStage = .idle := by
        unfold ExecData at hdata
        cases hst : t.fpStage <;> simp_all
      unfold ExecData at hdata
      simp only [hidle] at hdata
      rw [Machine.execWith, ← Machine.execOps_congr F id m hs hdata]
      refine ⟨⟨?_, ?_, ?_⟩, by simp [hidle, hnfp]⟩
      · have hread : (c.cwExec.lmemRd = true) → c.cwExec.lmemWr = false := by
          rw [hcw]; exact lmemRd_plain _
        simp only [banked, wrbkWr, wrbkRegD, clock, Ctl.clock, hve, hcond, Machine.execOps, resultOf,
          ← hcw, hnfp, ← hm.regs, ← hm.sreg, ← hm.lmem, DpramParam.clkB, id]
        by_cases hw : (c.cwExec.regWr && condOk c.instrExec t.execSreg) = true
        · by_cases hr : c.cwExec.lmemRd = true
          · simp [hw, hr, hread hr]
          · simp [hw, hr]
        · simp [hw]
      · simp [clock, Machine.execOps, hve, hcond, hm.sreg, hcw]
      · by_cases hw : (c.cwExec.lmemWr && condOk c.instrExec m.sreg) = true
        · simp [clock, DpramParam.clkB, Machine.execOps, hve, hcond, hm.lmem, ← hcw, hw]
        · simp [clock, DpramParam.clkB, Machine.execOps, hve, hcond, hm.lmem, ← hcw, hw]
  · rw [if_neg hve] at hx
    obtain ⟨hidle, rfl⟩ := hx
    refine ⟨⟨?_, ?_, ?_⟩, by simp [hidle, hve]⟩
    · rw [← hm.regs]
      simp [banked, clock, Ctl.clock, wrbkWr, hve]
    · simp [clock, hve, hm.sreg]
    · simp [clock, DpramParam.clkB, hve, hm.lmem]

theorem banked_eq (h : t.Sim F c M) (r : Reg) (hr : c.execWrites r = false) :
    t.banked c r = M.regs r := by
  obtain ⟨m, hm, hx⟩ := h
  rw [hm.regs]
  by_cases hve : c.validExec = true
  · rw [if_pos hve] at hx
    obtain ⟨hcw, -, g, -, rfl⟩ := hx
    rw [Machine.execWith, Machine.execOps_regs]
    simp only [Ctl.execWrites, hve, hcw, Bool.true_and] at hr
    rw [writes, Bool.beq_comm, hr]
  · rw [if_neg hve] at hx
    rw [hx.2]

theorem latched_sameOps (h : t.Sim F c M) (hd : c.DecodeOk) (hv : c.validDecode = true)
    (hns : ∀ r, c.requests r = true → c.execWrites r = false) (g : Word) :
    SameOps (cw c.instrDecode) (t.readReg c (rega c.instrDecode))
      (decOprBMux c.cwDecode c.instrDecode (t.readReg c (regb c.instrDecode)) g)
      (Machine.oprA id c.instrDecode M) (Machine.oprB id g c.instrDecode M) := by
  have hregs : ∀ r, reads c.instrDecode r = true → t.banked c r = M.regs r := by
    intro r hr
    apply banked_eq F h
    exact hns r (by rw [c.requests_eq hd hv]; exact hr)
  rw [hd hv, readReg_eq, readReg_eq]
  exact Machine.sameOps_of_reads (m := ⟨t.banked c, M.sreg, M.lmem⟩) g hregs

theorem sim_moved (h : t.Sim F c M) (hb : t.fpBusy c = false) (hd : c.DecodeOk)
    (hs : c.dispatches false = true → sAllowed c.instrDecode) (hns : c.staleRead false = false)
    (iINSTR : Word) (v : Bool) (g : Word) :
    (t.clock F true c g).Sim F (c.clock true iINSTR v false)
      (if c.dispatches false then Machine.execWith F id g c.instrDecode M else M) := by
  obtain ⟨hm, hidle⟩ := holds_moved F h hb iINSTR v g
  refine ⟨M, hm, ?_⟩
  have hve : (c.clock true iINSTR v false).validExec = c.dispatches false := by
    cases hst : c.dataStallDecode false <;> simp [Ctl.clock, Ctl.dispatches, hst]
  rw [hve]
  by_cases hdis : c.dispatches false = true
  · rw [if_pos hdis, if_pos hdis]
    obtain ⟨hst, hv⟩ : c.dataStallDecode false = false ∧ c.validDecode = true := by
      simpa [Ctl.dispatches] using hdis
    have hie : (c.clock true iINSTR v false).instrExec = c.instrDecode := by simp [Ctl.clock, hst]
    have hce : (c.clock true iINSTR v false).cwExec = c.cwDecode := by simp [Ctl.clock, hst]
    rw [hie, hce]
    refine ⟨hd hv, hs hdis, g, ?_, rfl⟩
    have hns' : ∀ r, c.requests r = true → c.execWrites r = false := by
      intro r hr
      by_contra hw
      simp only [Ctl.execWrites, Bool.not_eq_false, Bool.and_eq_true, beq_iff_eq] at hw
      obtain ⟨⟨hve', hrw⟩, rfl⟩ := hw
      simp [Ctl.staleRead, hdis, hve', hrw, hr] at hns
    unfold ExecData
    rw [hidle, hie]
    exact latched_sameOps F h hd hv hns' g
  · rw [if_neg hdis, if_neg hdis]
    exact ⟨hidle, rfl⟩

end Thread

/-! ## All threads in step -/

namespace Core

variable {T : Nat} (F : Fpu)

def Lockstep (s : Core T) : Prop :=
  ∀ i j, (s.threads i).fpStage = (s.threads j).fpStage ∧
    ((s.threads i).fpStage = .busy → (s.threads i).fpuElapsed = (s.threads j).fpuElapsed)

theorem lockstep_clock {s : Core T} (h : s.Lockstep) (i : Inputs) :
    (s.clock (fun _ => F) i).Lockstep := by
  intro a b
  obtain ⟨hst, hel⟩ := h a b
  cases hr : i.inRST with
  | false => simp [hr]
  | true =>
    cases ha : (s.threads a).fpStage with
    | idle =>
      have hb := hst ▸ ha
      constructor
      · simp [hr, ha, hb]
      · cases hfp : (s.ctl.validExec && s.ctl.cwExec.fpOp) <;>
          simp [hr, ha, hfp]
    | run =>
      have hb := hst ▸ ha
      simp [Thread.fpuElapsed, hr, ha, hb]
    | busy =>
      have hb := hst ▸ ha
      have he := hel ha
      have hd : (s.threads a).fpDone F s.ctl = (s.threads b).fpDone F s.ctl := by
        simp [Thread.fpDone, he]
      have he' : ((s.threads a).clock F true s.ctl i.iGMEM_WDATA).fpuElapsed =
          ((s.threads b).clock F true s.ctl i.iGMEM_WDATA).fpuElapsed := by
        simp only [Thread.fpuElapsed, Thread.clock_fpStart, ha, hb, Thread.clock_fpuCount]
        simpa [Thread.fpuElapsed] using he
      constructor
      · simp [hr, ha, hb, hd]
      · intro _
        simpa [clock, hr] using he'
    | done =>
      have hb := hst ▸ ha
      simp [hr, ha, hb]

theorem Lockstep.delay_eq {s : Core T} (h : s.Lockstep) (k : Fin T) :
    s.onCalculationDelay = (s.threads k).fpBusy s.ctl := by
  have hsame : ∀ i, (s.threads i).fpBusy s.ctl = (s.threads k).fpBusy s.ctl := by
    intro i
    simp [Thread.fpBusy, (h i k).1]
  unfold onCalculationDelay
  cases hk : (s.threads k).fpBusy s.ctl with
  | true => exact decide_eq_true ⟨k, hk⟩
  | false =>
    apply decide_eq_false
    rintro ⟨i, hi⟩
    rw [hsame i, hk] at hi
    cases hi

/-- Every thread has executed what left decode, `M` being thread `k`'s machine. -/
structure CoreSim (s : Core T) (k : Fin T) (M : Machine Reg) : Prop where
  decode : s.ctl.DecodeOk
  lockstep : s.Lockstep
  sim : (s.threads k).Sim F s.ctl M

def dispatches (s : Core T) : Bool := s.ctl.dispatches s.onCalculationDelay

def staleRead (s : Core T) : Bool := s.ctl.staleRead s.onCalculationDelay

theorem decodeOk_clock {s : Core T} (h : s.ctl.DecodeOk) (G : Fin T → Fpu) (i : Inputs) :
    (s.clock G i).ctl.DecodeOk := by
  unfold clock Ctl.DecodeOk Ctl.clock
  intro hv
  by_cases hst : s.ctl.dataStallDecode s.onCalculationDelay = true
  · simp only [hst, if_true] at hv ⊢
    apply h
    by_contra hn
    simp [hn] at hv
  · simp only [hst]
    rfl

theorem coreSim_clock {s : Core T} {k : Fin T} {M : Machine Reg} (h : CoreSim F s k M) (i : Inputs)
    (hr : i.inRST = true) (hs : s.dispatches = true → sAllowed s.ctl.instrDecode)
    (hns : s.staleRead = false) :
    CoreSim F (s.clock (fun _ => F) i) k
      (if s.dispatches then Machine.execWith F id i.iGMEM_WDATA s.ctl.instrDecode M else M) := by
  refine ⟨decodeOk_clock h.decode _ i, lockstep_clock F h.lockstep i, ?_⟩
  have hdel := h.lockstep.delay_eq k
  unfold dispatches at hs ⊢
  unfold staleRead at hns
  unfold clock
  rw [hr]
  cases hb : (s.threads k).fpBusy s.ctl with
  | true =>
    rw [hb] at hdel
    rw [hdel, if_neg (by simp [Ctl.dispatches, Ctl.dataStallDecode])]
    exact Thread.sim_held F h.sim hb _ _ _
  | false =>
    rw [hb] at hdel
    rw [hdel] at hs hns ⊢
    exact Thread.sim_moved F h.sim hb h.decode hs hns _ _ _

def arch (s : Core T) (k : Fin T) : Machine Reg :=
  ⟨(s.threads k).rg, (s.threads k).execSreg, (s.threads k).localMemory.ram⟩

theorem AfterReset.coreSim {s : Core T} (h : s.AfterReset) (k : Fin T) :
    CoreSim F s k (s.arch k) := by
  refine ⟨?_, ?_, s.arch k, ⟨?_, rfl, rfl⟩, ?_⟩
  · intro hv
    rw [h.decode] at hv
    cases hv
  · intro i j
    simp [h.fpStage]
  · simp [Thread.banked, Thread.wrbkWr, h.writeback, arch]
  · simp [h.exec, h.fpStage]

theorem CoreSim.arch_eq {s : Core T} {k : Fin T} {M : Machine Reg} (h : CoreSim F s k M)
    (he : s.ctl.validExec = false) (hw : s.ctl.validWriteback = false) : s.arch k = M := by
  obtain ⟨m, hm, hx⟩ := h.sim
  rw [if_neg (by simp [he])] at hx
  rw [hx.2]
  have hregs := hm.regs
  simp only [Thread.banked, Thread.wrbkWr, hw, Bool.false_and, Bool.false_eq_true, if_false] at hregs
  simp only [arch, hregs, hm.sreg, hm.lmem]

/-! ## The stream that the core accepts -/

variable (gmem : BitVec 17 → Word)

/-- One clock with the word `w.1` offered (`w.2` is `iINSTR_VALID`) and a constant memory. -/
def feed (s : Core T) (w : Word × Bool) : Core T :=
  s.clock (fun _ => F) ⟨true, w.1, w.2, gmem s.ctl.gmemAddr⟩

/-- The words taken on the clocks where `iINSTR_VALID` and `oINSTR_READY` are both 1. -/
def accepted : Core T → List (Word × Bool) → List Word
  | _, [] => []
  | s, w :: ws => (if w.2 && s.instrReady then [w.1] else []) ++ accepted (s.feed F gmem w) ws

def pending (s : Core T) : List Word :=
  (if s.ctl.validDecode then [s.ctl.instrDecode] else []) ++
    (if s.ctl.validFetch then [s.ctl.instrFetch] else [])

theorem pending_feed (s : Core T) (w : Word × Bool) :
    (if s.dispatches then [s.ctl.instrDecode] else []) ++ (s.feed F gmem w).pending =
      s.pending ++ (if w.2 && s.instrReady then [w.1] else []) := by
  unfold pending feed clock Ctl.clock dispatches instrReady Ctl.dispatches Ctl.canFetch
  cases hst : s.ctl.dataStallDecode s.onCalculationDelay with
  | true => simp
  | false => simp

theorem run_pending {s : Core T} {k : Fin T} {M : Machine Reg} (w : Word × Bool)
    (h : CoreSim F s k M) (hs : ∀ x ∈ s.pending, sAllowed x) (hns : s.staleRead = false) :
    ∃ M', CoreSim F (s.feed F gmem w) k M' ∧
      Machine.run F id gmem (s.feed F gmem w).pending M' =
        Machine.run F id gmem (s.pending ++ if w.2 && s.instrReady then [w.1] else []) M := by
  have hd : s.dispatches = true → sAllowed s.ctl.instrDecode := by
    intro hd
    apply hs
    simp [dispatches, Ctl.dispatches] at hd
    simp [pending, hd.2]
  refine ⟨_, coreSim_clock F h _ rfl hd hns, ?_⟩
  rw [← pending_feed, Machine.run_append]
  by_cases hdis : s.dispatches = true
  · simp only [hdis, if_true]
    rfl
  · simp only [hdis, if_false, Bool.false_eq_true]
    rfl

/-- A core that never reads a register too early leaves every thread where the sequential
machine is after the accepted words. -/
theorem core_refines (s : Core T) (hreset : s.AfterReset) (ws : List (Word × Bool))
    (hs : ∀ w ∈ s.accepted F gmem ws, sAllowed w)
    (hns : Lib.Along (feed F gmem) (fun s _ => s.staleRead = false) s ws)
    (hidle : (Lib.run (feed F gmem) s ws).ctl.idling = true) (k : Fin T) :
    (Lib.run (feed F gmem) s ws).arch k =
      Machine.run F id gmem (s.accepted F gmem ws) (s.arch k) := by
  -- The machine that has left decode, then the words in decode and fetch, then those to come.
  suffices key : ∀ (ws : List (Word × Bool)) (s : Core T) (M : Machine Reg), CoreSim F s k M →
      (∀ w ∈ s.pending ++ s.accepted F gmem ws, sAllowed w) →
      Lib.Along (feed F gmem) (fun s _ => s.staleRead = false) s ws →
      (Lib.run (feed F gmem) s ws).ctl.idling = true →
      (Lib.run (feed F gmem) s ws).arch k =
        Machine.run F id gmem (s.pending ++ s.accepted F gmem ws) M by
    have h := key ws s _ (hreset.coreSim F k)
    simp only [pending, hreset.decode, hreset.fetch] at h
    exact h hs hns hidle
  intro ws
  induction ws with
  | nil =>
    intro s M h _ _ hidle
    simp only [Lib.run_nil, Ctl.idling, Bool.not_eq_true', Bool.or_eq_false_iff] at hidle ⊢
    obtain ⟨⟨⟨hd, hf⟩, he⟩, hw⟩ := hidle
    rw [h.arch_eq F he hw]
    simp [pending, hd, hf, accepted]
  | cons w ws ih =>
    intro s M h hs hns hidle
    obtain ⟨M', h', hrun⟩ := run_pending F gmem w h
      (fun x hx => hs x (List.mem_append_left _ hx)) hns.1
    rw [Lib.run_cons, ih _ M' h' _ hns.2 hidle]
    · rw [Machine.run_append, hrun, accepted, ← Machine.run_append, List.append_assoc]
    · intro x hx
      apply hs
      rw [accepted, ← List.append_assoc, ← pending_feed, List.append_assoc]
      exact List.mem_append_right _ hx


def movAfterMvi : List (Word × Bool) :=
  [(0x05020005, true), (0, false), (0x00840001, true)] ++ List.replicate 6 (0, false)

theorem movAfterMvi_accepted :
    (blankCore : Core 1).accepted anyFpu (fun _ => 0) movAfterMvi = [0x05020005, 0x00840001] := by
  decide +kernel

theorem core_refines_mov :
    (Lib.run (feed anyFpu fun _ => 0) (blankCore : Core 1) movAfterMvi).arch 0 =
      Machine.run anyFpu id (fun _ => 0) ((blankCore : Core 1).accepted anyFpu (fun _ => 0) movAfterMvi)
        ((blankCore : Core 1).arch 0) := by
  refine core_refines anyFpu (fun _ => 0) blankCore blankCore_afterReset movAfterMvi ?_ ?_ ?_ 0
  · rw [movAfterMvi_accepted]
    simp only [List.forall_mem_cons]
    exact ⟨by decide, by decide, by simp⟩
  · simp only [movAfterMvi, List.replicate, List.cons_append, List.nil_append, Lib.Along]
    decide +kernel
  · decide +kernel

def twoWriters : List (Word × Bool) :=
  [(0x05020001, true), (0, true), (0x05020002, true), (0x00840001, true)] ++
    List.replicate 4 (0, false)

theorem twoWriters_accepted :
    (blankCore : Core 1).accepted anyFpu (fun _ => 0) twoWriters =
      [0x05020001, 0, 0x05020002, 0x00840001] := by
  decide +kernel

theorem twoWriters_pipeline :
    ((Lib.run (feed anyFpu fun _ => 0) (blankCore : Core 1) twoWriters).arch 0).regs 2 = 1 := by
  decide +kernel

theorem twoWriters_sequential :
    (Machine.run anyFpu id (fun _ => 0) [0x05020001, 0, 0x05020002, 0x00840001]
      ((blankCore : Core 1).arch 0)).regs 2 = 2 := by
  decide +kernel

/-- The write-back of the first `MVI` releases register 1 on the clock on which the second one
claims it, and `MOV` reads the register before the second one has written it. -/
theorem core_stale :
    (blankCore : Core 1).AfterReset ∧
      (∀ w ∈ (blankCore : Core 1).accepted anyFpu (fun _ => 0) twoWriters, sAllowed w) ∧
      (Lib.run (feed anyFpu fun _ => 0) (blankCore : Core 1) twoWriters).ctl.idling = true ∧
      (Lib.run (feed anyFpu fun _ => 0) (blankCore : Core 1) twoWriters).arch 0 ≠
        Machine.run anyFpu id (fun _ => 0)
          ((blankCore : Core 1).accepted anyFpu (fun _ => 0) twoWriters)
          ((blankCore : Core 1).arch 0) := by
  rw [twoWriters_accepted]
  refine ⟨blankCore_afterReset, ?_, by decide +kernel, fun h => ?_⟩
  · simp only [List.forall_mem_cons]
    exact ⟨by decide, by decide, by decide, by decide, by simp⟩
  · have hpipe := twoWriters_pipeline
    rw [h, twoWriters_sequential] at hpipe
    exact absurd hpipe (by decide)

end Core

end Gppcu
