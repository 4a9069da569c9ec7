import Gppcu.Isa.Machine

/-!
# The core, clock by clock

`GPPCU_CORE`, `GPPCU_STALL_GEN`, `GPPCU_THREAD` and the memories. Each `clock`
is one rising edge: its right-hand sides read the registers as they were before
the edge. `GPPCU_MC_FPU` is the parameter `F`, one for each thread.
-/

namespace Gppcu

open Instr

/-! ## Memories -/

/-- `DPRAM_PARAM` with `2 ^ aw` words. -/
structure DpramParam (aw : Nat) where
  ram : BitVec aw → Word
  oPaRdata : Word
  oPbRdata : Word

namespace DpramParam

variable {aw : Nat}

def clkA (d : DpramParam aw) (iPaAddr : BitVec aw) (iPaWr : Bool) (iPaWdata : Word) : DpramParam aw :=
  if iPaWr then { d with ram := Function.update d.ram iPaAddr iPaWdata, oPaRdata := iPaWdata }
  else { d with oPaRdata := d.ram iPaAddr }

def clkB (d : DpramParam aw) (iPbAddr : BitVec aw) (iPbWr : Bool) (iPbWdata : Word) : DpramParam aw :=
  if iPbWr then { d with ram := Function.update d.ram iPbAddr iPbWdata, oPbRdata := iPbWdata }
  else { d with oPbRdata := d.ram iPbAddr }

end DpramParam

/-! ## The pipeline registers and the stall generator -/

/-- The registers of `GPPCU_CORE` and `GPPCU_STALL_GEN`, shared by all threads. -/
structure Ctl where
  validFetch : Bool
  validDecode : Bool
  validExec : Bool
  validWriteback : Bool
  cwDecode : ControlWord
  cwExec : ControlWord
  cwWriteback : ControlWord
  instrFetch : Word
  instrDecode : Word
  instrExec : Word
  instrWriteback : Word
  occupied : BitVec 32

def oneHot (en : Bool) (r : Reg) : BitVec 32 := if en then 1#32 <<< r.toNat else 0#32

@[simp] theorem getLsbD_oneHot (en : Bool) (r i : Reg) :
    (oneHot en r).getLsbD i.toNat = (en && i == r) := by
  have hi : i.toNat < 32 := i.isLt
  have heq : (i == r) = decide (i.toNat = r.toNat) := by
    rw [Bool.eq_iff_iff, beq_iff_eq, decide_eq_true_iff, BitVec.toNat_inj]
  cases en with
  | false => simp [oneHot]
  | true =>
    rw [heq, oneHot, if_pos rfl, BitVec.getLsbD_shiftLeft, BitVec.getLsbD_one, Bool.true_and]
    simp only [hi, decide_true, Bool.true_and, Nat.zero_lt_succ]
    by_cases h : i.toNat < r.toNat
    · simp [h]; omega
    · simp [h]; omega

namespace Ctl

def validRegd (c : Ctl) : Bool := c.validDecode && c.cwDecode.regWr

def rqMask (c : Ctl) : BitVec 32 :=
  oneHot (c.validDecode && c.cwDecode.useRegA) (rega c.instrDecode) |||
    oneHot (c.validDecode && c.cwDecode.useRegB) (regb c.instrDecode)

def canUseReg (c : Ctl) : Bool := c.occupied &&& c.rqMask == 0

def insig (c : Ctl) : BitVec 32 := oneHot (c.canUseReg && c.validRegd) (regd c.instrDecode)

def outsig (c : Ctl) : BitVec 32 :=
  oneHot (c.validWriteback && c.cwWriteback.regWr) (regd c.instrWriteback)

def pendingOccupy (c : Ctl) : BitVec 32 := (c.occupied ||| c.insig) &&& ~~~c.outsig

/-- `data_stall_decode`; `delay` is `on_calculation_delay`, which is also `data_stall_exec`. -/
def dataStallDecode (c : Ctl) (delay : Bool) : Bool := !c.canUseReg || delay

def canFetch (c : Ctl) (delay : Bool) : Bool := !c.dataStallDecode delay

def idling (c : Ctl) : Bool :=
  !(c.validDecode || c.validFetch || c.validExec || c.validWriteback)

def clock (inRST : Bool) (iINSTR : Word) (iINSTR_VALID : Bool) (delay : Bool) (c : Ctl) : Ctl :=
  let stall := c.dataStallDecode delay
  { validWriteback := if !inRST then false else if delay then false else c.validExec
    validExec := if !inRST then false else if delay then c.validExec
      else if stall then false else c.validDecode
    validDecode := if !inRST then false else if stall then c.validDecode else c.validFetch
    validFetch := if !inRST then false else if stall then c.validFetch
      else c.canFetch delay && iINSTR_VALID
    cwWriteback := c.cwExec
    cwExec := if stall then c.cwExec else c.cwDecode
    cwDecode := if stall then c.cwDecode else gppcuInstrDec (opr c.instrFetch)
    instrWriteback := c.instrExec
    instrExec := if stall then c.instrExec else c.instrDecode
    instrDecode := if stall then c.instrDecode else c.instrFetch
    instrFetch := if stall then c.instrFetch else iINSTR
    occupied := if !inRST then 0 else c.pendingOccupy }

def gmemAddr (c : Ctl) : BitVec 17 := imm2 c.instrDecode

end Ctl

/-! ## A thread -/

inductive FpStage
  | idle | run | busy | done
  deriving DecidableEq, Repr

structure Thread where
  rg : Reg → Word
  localMemory : DpramParam 9
  execOprandA : Word
  execOprandB : Word
  execSreg : Sreg
  wrbkAluQ : Word
  wrbkFpuQ : Word
  wrbkCondVerified : Bool
  fpStage : FpStage
  fpStart : Bool
  fpuDa : Word
  fpuDb : Word
  /-- Inside the FPU: the clocks since its last start pulse. -/
  fpuCount : Nat

namespace Thread

def wrbkWr (c : Ctl) (t : Thread) : Bool :=
  c.validWriteback && c.cwWriteback.regWr && t.wrbkCondVerified

def wrbkRegD (c : Ctl) (t : Thread) : Word :=
  if c.cwWriteback.lmemRd then t.localMemory.oPbRdata
  else if c.cwWriteback.fpOp then t.wrbkFpuQ
  else t.wrbkAluQ

def readReg (c : Ctl) (t : Thread) (r : Reg) : Word :=
  if t.wrbkWr c && r == regd c.instrWriteback then t.wrbkRegD c else t.rg r

def execCondVerified (c : Ctl) (t : Thread) : Bool :=
  gppcuCondVerifier (cond c.instrExec) t.execSreg

def fpBusy (c : Ctl) (t : Thread) : Bool :=
  c.validExec && t.fpStage != .done && c.cwExec.fpOp

/-- Clocks since the start pulse, counting this one when `start` is high. -/
def fpuElapsed (t : Thread) : Nat := if t.fpStart then 0 else t.fpuCount

def fpDone (F : Fpu) (c : Ctl) (t : Thread) : Bool := t.fpuElapsed == F.latency c.cwExec.fpuN

def fpuQ (F : Fpu) (c : Ctl) (t : Thread) : Word := F.result c.cwExec.fpuN t.fpuDa t.fpuDb

def fpClock (F : Fpu) (inRST : Bool) (c : Ctl) (t : Thread) : Thread :=
  if !inRST then { t with fpStage := .idle }
  else match t.fpStage with
  | .idle => { t with
      fpStage := if c.validExec && c.cwExec.fpOp then .run else .idle
      fpuDa := t.execOprandA
      fpuDb := t.execOprandB }
  | .run => { t with fpStage := .busy, fpStart := true }
  | .busy => { t with
      fpStage := if t.fpDone F c then .done else .busy
      wrbkFpuQ := if t.fpDone F c then t.fpuQ F c else t.wrbkFpuQ
      fpStart := false }
  | .done => { t with fpStage := .idle, fpStart := false }

def clock (F : Fpu) (inRST : Bool) (c : Ctl) (iGMEMDATA : Word) (t : Thread) : Thread :=
  let fp := t.fpClock F inRST c
  { rg := if t.wrbkWr c then Function.update t.rg (regd c.instrWriteback) (t.wrbkRegD c) else t.rg
    localMemory := t.localMemory.clkB (t.execOprandB.setWidth 9)
      (c.validExec && c.cwExec.lmemWr && t.execCondVerified c) t.execOprandA
    execOprandA := t.readReg c (rega c.instrDecode)
    execOprandB := decOprBMux c.cwDecode c.instrDecode (t.readReg c (regb c.instrDecode)) iGMEMDATA
    execSreg := if !inRST then ⟨false, false, false, false⟩
      else if c.validExec && t.execCondVerified c && sBit c.instrExec then
        flagsOf c.cwExec t.execOprandA t.execOprandB t.execSreg
      else t.execSreg
    wrbkAluQ := aluQ t.execOprandA t.execOprandB t.execSreg.c c.cwExec.alOpc
    wrbkFpuQ := fp.wrbkFpuQ
    wrbkCondVerified := t.execCondVerified c
    fpStage := fp.fpStage
    fpStart := fp.fpStart
    fpuDa := fp.fpuDa
    fpuDb := fp.fpuDb
    fpuCount := t.fpuElapsed + 1 }

section Clock

variable (F : Fpu) (c : Ctl) (g : Word) (t : Thread)

@[simp] theorem clock_fpStage : (t.clock F true c g).fpStage = match t.fpStage with
    | .idle => if c.validExec && c.cwExec.fpOp then .run else .idle
    | .run => .busy
    | .busy => if t.fpDone F c then .done else .busy
    | .done => .idle := by
  cases h : t.fpStage <;> simp [clock, fpClock, h]

@[simp] theorem clock_fpStart : (t.clock F true c g).fpStart = match t.fpStage with
    | .idle => t.fpStart
    | .run => true
    | .busy => false
    | .done => false := by
  cases h : t.fpStage <;> simp [clock, fpClock, h]

@[simp] theorem clock_fpuDa : (t.clock F true c g).fpuDa = match t.fpStage with
    | .idle => t.execOprandA
    | .run | .busy | .done => t.fpuDa := by
  cases h : t.fpStage <;> simp [clock, fpClock, h]

@[simp] theorem clock_fpuDb : (t.clock F true c g).fpuDb = match t.fpStage with
    | .idle => t.execOprandB
    | .run | .busy | .done => t.fpuDb := by
  cases h : t.fpStage <;> simp [clock, fpClock, h]

@[simp] theorem clock_wrbkFpuQ : (t.clock F true c g).wrbkFpuQ = match t.fpStage with
    | .busy => if t.fpDone F c then t.fpuQ F c else t.wrbkFpuQ
    | .idle | .run | .done => t.wrbkFpuQ := by
  cases h : t.fpStage <;> simp [clock, fpClock, h]

@[simp] theorem clock_fpuCount (inRST : Bool) : (t.clock F inRST c g).fpuCount = t.fpuElapsed + 1 := rfl

@[simp] theorem reset_fpStage : (t.clock F false c g).fpStage = .idle := rfl

/-- The reset branch does not name `fp_start`. -/
@[simp] theorem reset_fpStart : (t.clock F false c g).fpStart = t.fpStart := rfl

end Clock

end Thread

/-! ## The core -/

structure Core (T : Nat) where
  ctl : Ctl
  threads : Fin T → Thread

namespace Core

variable {T : Nat}

def onCalculationDelay (s : Core T) : Bool := decide (∃ k, (s.threads k).fpBusy s.ctl = true)

def instrReady (s : Core T) : Bool := s.ctl.canFetch s.onCalculationDelay

structure Inputs where
  inRST : Bool
  iINSTR : Word
  iINSTR_VALID : Bool
  iGMEM_WDATA : Word

def clock (F : Fin T → Fpu) (s : Core T) (i : Inputs) : Core T :=
  { ctl := s.ctl.clock i.inRST i.iINSTR i.iINSTR_VALID s.onCalculationDelay
    threads := fun k => (s.threads k).clock (F k) i.inRST s.ctl i.iGMEM_WDATA }

@[simp] theorem clock_ctl (F : Fin T → Fpu) (s : Core T) (i : Inputs) : (s.clock F i).ctl =
    s.ctl.clock i.inRST i.iINSTR i.iINSTR_VALID s.onCalculationDelay := rfl

@[simp] theorem clock_threads (F : Fin T → Fpu) (s : Core T) (i : Inputs) (k : Fin T) :
    (s.clock F i).threads k = (s.threads k).clock (F k) i.inRST s.ctl i.iGMEM_WDATA := rfl

/-- One edge of `iLMEM_CLK`: port A of every local memory. -/
def lmemClock (iLmemThreadSel : BitVec 10) (iLmemAddr : BitVec 22) (iLmemWdata : Word) (iLmemWr : Bool)
    (s : Core T) : Core T :=
  { s with threads := fun k => { s.threads k with
      localMemory := (s.threads k).localMemory.clkA (iLmemAddr.setWidth 9)
        (iLmemWr && iLmemThreadSel.toNat == k) iLmemWdata } }

def lmemRdata (iLmemThreadSel : BitVec 10) (s : Core T) : Word :=
  if h : iLmemThreadSel.toNat < T then (s.threads ⟨_, h⟩).localMemory.oPaRdata else 0

/-- The state that a clock with `inRST` low leaves, whatever was there before. -/
structure AfterReset (s : Core T) : Prop where
  fetch : s.ctl.validFetch = false
  decode : s.ctl.validDecode = false
  exec : s.ctl.validExec = false
  writeback : s.ctl.validWriteback = false
  occupied : s.ctl.occupied = 0
  fpStage : ∀ k, (s.threads k).fpStage = .idle

/-! ## A core with nothing in it -/

def blankThread : Thread :=
  ⟨fun _ => 0, ⟨fun _ => 0, 0, 0⟩, 0, 0, ⟨false, false, false, false⟩, 0, 0, false, .idle, false,
    0, 0, 0⟩

def blankCore : Core T :=
  { ctl := ⟨false, false, false, false, Opr.controlWord .nop, Opr.controlWord .nop,
      Opr.controlWord .nop, 0, 0, 0, 0, 0⟩
    threads := fun _ => blankThread }

theorem blankCore_afterReset : (blankCore : Core T).AfterReset := ⟨rfl, rfl, rfl, rfl, rfl, fun _ => rfl⟩

end Core

end Gppcu
