import Gppcu.Core.Spec
import Mathlib.Algebra.Group.Nat.Defs
import Mathlib.Tactic.SplitIfs

/-!
# The instruction queue and the device

`GPPCU_TEST_QUEUE`: the program and constant memories, the registers that
commands set on `opclk`, and the instruction supply logic on `iACLK`.
-/

namespace Gppcu

open Instr

/-! ## The command port -/

namespace ICmd

def opclk (iCMD : Word) : Bool := iCMD.getLsbD 31
def wparam (iCMD : Word) : BitVec 7 := iCMD.extractLsb' 24 7
def lparam (iCMD : Word) : BitVec 8 := iCMD.extractLsb' 16 8
def command (iCMD : Word) : BitVec 16 := iCMD.extractLsb' 0 16

end ICmd

def OPR_INSTR : BitVec 7 := 0
def OPR_RDL : BitVec 7 := 1
def OPR_WRL : BitVec 7 := 2
def OPR_WRG : BitVec 7 := 3
def OPR_COMMAND : BitVec 7 := 4

def LPM_RUNSTOP : BitVec 8 := 0
def LPM_NUMCYCLE : BitVec 8 := 1
def LPM_SZPERCYCLE : BitVec 8 := 2
def LPM_RESETPRG : BitVec 8 := 3

/-! ## The queue -/

/-- `GPPCU_TEST_QUEUE` without its core. `QBW` and `GBW` are the address widths of the program
memory and of the constant memory. -/
structure Queue (QBW GBW : Nat) where
  pmem : DpramParam QBW
  cmem : DpramParam GBW
  pmemEnd : BitVec QBW
  pmemRunning : Bool
  numCycles : BitVec 12
  szPerTask : Word
  pmemHead : BitVec QBW
  programDone : Bool
  curTaskOfst : Word
  curCycleIdx : BitVec 12

namespace Queue

variable {QBW GBW : Nat}

def program (q : Queue QBW GBW) : Word := q.pmem.oPbRdata

def instrValid (q : Queue QBW GBW) : Bool :=
  q.pmemRunning && !q.programDone && q.pmemHead != q.pmemEnd

def iGmemWdata (q : Queue QBW GBW) (oGMEM_ADDR : BitVec 17) : Word :=
  if oGMEM_ADDR = 0 then q.curTaskOfst else q.cmem.oPbRdata

def status (q : Queue QBW GBW) : Word :=
  BitVec.ofBool q.pmemRunning ++ BitVec.ofBool q.programDone ++ q.curTaskOfst.setWidth 6 ++
    q.pmemEnd.setWidth 8 ++ q.pmemHead.setWidth 8 ++ q.numCycles.setWidth 4 ++ q.curCycleIdx.setWidth 4

/-- `instruction supply logic` and port B of the program memory, on a rising edge of `iACLK`. -/
def clock (inRST instrReady : Bool) (q : Queue QBW GBW) : Queue QBW GBW :=
  let q' := { q with pmem := q.pmem.clkB q.pmemHead false 0 }
  if q.pmemRunning && inRST then
    if q.curCycleIdx = q.numCycles then { q' with programDone := q.pmemRunning }
    else if q.pmemHead < q.pmemEnd then
      { q' with pmemHead := if instrReady then q.pmemHead + 1 else q.pmemHead }
    else
      { q' with
        pmemHead := 0
        curTaskOfst := q.curTaskOfst + q.szPerTask
        curCycleIdx := q.curCycleIdx + 1 }
  else { q' with programDone := false, pmemHead := 0, curTaskOfst := 0, curCycleIdx := 0 }

theorem toNat_succ {w : Nat} (x : BitVec w) (h : x.toNat + 1 < 2 ^ w) : (x + 1).toNat = x.toNat + 1 := by
  change (x + BitVec.ofNat w 1).toNat = x.toNat + 1
  rw [BitVec.toNat_add, BitVec.toNat_ofNat, Nat.add_mod_mod, Nat.mod_eq_of_lt h]

variable {q : Queue QBW GBW}

theorem clock_last (instrReady : Bool) (hr : q.pmemRunning = true) (hc : q.curCycleIdx = q.numCycles) :
    q.clock true instrReady =
      { q with pmem := q.pmem.clkB q.pmemHead false 0, programDone := true } := by
  simp [clock, hr, hc]

theorem clock_next (instrReady : Bool) (hr : q.pmemRunning = true) (hc : q.curCycleIdx ≠ q.numCycles)
    (hp : q.pmemHead < q.pmemEnd) :
    q.clock true instrReady =
      { q with
        pmem := q.pmem.clkB q.pmemHead false 0
        pmemHead := if instrReady then q.pmemHead + 1 else q.pmemHead } := by
  simp [clock, hr, hc, hp]

theorem clock_wrap (instrReady : Bool) (hr : q.pmemRunning = true) (hc : q.curCycleIdx ≠ q.numCycles)
    (hp : ¬ q.pmemHead < q.pmemEnd) :
    q.clock true instrReady =
      { q with
        pmem := q.pmem.clkB q.pmemHead false 0
        pmemHead := 0
        curTaskOfst := q.curTaskOfst + q.szPerTask
        curCycleIdx := q.curCycleIdx + 1 } := by
  simp [clock, hr, hc, hp]

theorem clock_program (inRST instrReady : Bool) :
    (q.clock inRST instrReady).program = q.pmem.ram q.pmemHead := by
  simp only [clock, program]
  split_ifs <;> rfl

/-- Port B of the constant memory, on a rising edge of `oGMEM_CLK`. -/
def gmemClock (oGMEM_ADDR : BitVec 17) (q : Queue QBW GBW) : Queue QBW GBW :=
  { q with cmem := q.cmem.clkB (oGMEM_ADDR.setWidth GBW) false 0 }

/-- `program logic` and port A of both memories, on a rising edge of `opclk`. -/
def opClock (iCMD iDATA : Word) (q : Queue QBW GBW) : Queue QBW GBW :=
  let wparam := ICmd.wparam iCMD
  let lparam := ICmd.lparam iCMD
  let command := ICmd.command iCMD
  let q' := { q with
    pmem := q.pmem.clkA q.pmemEnd (wparam == OPR_INSTR) iDATA
    cmem := q.cmem.clkA (command.setWidth GBW) (wparam == OPR_WRG) iDATA }
  if wparam = OPR_INSTR then
    if q.pmemRunning then q' else { q' with pmemEnd := q.pmemEnd + 1 }
  else if wparam = OPR_COMMAND then
    if lparam = LPM_RUNSTOP then { q' with pmemRunning := command.getLsbD 0 }
    else if lparam = LPM_RESETPRG then { q' with pmemEnd := 0, pmemRunning := false }
    else if lparam = LPM_NUMCYCLE then { q' with numCycles := command.setWidth 12 }
    else if lparam = LPM_SZPERCYCLE then { q' with szPerTask := command.setWidth 32 }
    else q'
  else q'

/-- Running from the first word, which is already in the read register. -/
structure Started (q : Queue QBW GBW) : Prop where
  running : q.pmemRunning = true
  head : q.pmemHead = 0
  done : q.programDone = false
  ofst : q.curTaskOfst = 0
  cycle : q.curCycleIdx = 0
  program : q.program = q.pmem.ram 0

end Queue

/-! ## The device -/

structure GppcuTestQueue (QBW GBW T : Nat) where
  queue : Queue QBW GBW
  core : Core T

namespace GppcuTestQueue

variable {QBW GBW T : Nat}

def posedge (F : Fin T → Fpu) (d : GppcuTestQueue QBW GBW T) : GppcuTestQueue QBW GBW T :=
  { queue := d.queue.clock true d.core.instrReady
    core := d.core.clock F
      ⟨true, d.queue.program, d.queue.instrValid, d.queue.iGmemWdata d.core.ctl.gmemAddr⟩ }

/-- The falling edge of `iACLK` is the rising edge of `oGMEM_CLK`. -/
def negedge (d : GppcuTestQueue QBW GBW T) : GppcuTestQueue QBW GBW T :=
  { d with queue := d.queue.gmemClock d.core.ctl.gmemAddr }

def clock (F : Fin T → Fpu) (d : GppcuTestQueue QBW GBW T) : GppcuTestQueue QBW GBW T :=
  (d.posedge F).negedge

def opClock (iCMD iDATA : Word) (d : GppcuTestQueue QBW GBW T) : GppcuTestQueue QBW GBW T :=
  { queue := d.queue.opClock iCMD iDATA
    core := d.core.lmemClock ((ICmd.lparam iCMD).setWidth 10) ((ICmd.command iCMD).setWidth 22) iDATA
      (ICmd.wparam iCMD == OPR_WRL) }

def oDATA (iCMD : Word) (d : GppcuTestQueue QBW GBW T) : Word :=
  if ICmd.wparam iCMD = OPR_COMMAND then d.queue.status
  else d.core.lmemRdata ((ICmd.lparam iCMD).setWidth 10)

def oDONE (d : GppcuTestQueue QBW GBW T) : Bool := d.queue.programDone

end GppcuTestQueue

end Gppcu
