import Gppcu.Driver.Port

/-!
# The device that the host sees

What the host can reach of the device, and what each function of the driver does
to it.
-/

namespace Gppcu

/-! ## The abstract device -/

/-- The memories and registers behind the command port. `lmemRdata` is what each local memory
last answered. -/
structure HostView (QBW GBW T : Nat) where
  pmem : BitVec QBW → Word
  pmemEnd : BitVec QBW
  pmemRunning : Bool
  numCycles : BitVec 12
  szPerTask : Word
  cmem : BitVec GBW → Word
  lmem : Fin T → BitVec 9 → Word
  lmemRdata : Fin T → Word

variable {QBW GBW T : Nat}

namespace HostView

def answering (a : BitVec 9) (v : HostView QBW GBW T) : HostView QBW GBW T :=
  { v with lmemRdata := fun k => v.lmem k a }

def push (instr : Word) (v : HostView QBW GBW T) : HostView QBW GBW T :=
  { v with
    pmem := Function.update v.pmem v.pmemEnd instr
    pmemEnd := if v.pmemRunning then v.pmemEnd else v.pmemEnd + 1 }

def cell (v : HostView QBW GBW T) (t : Nat) (a : BitVec 9) : Word :=
  if h : t < T then v.lmem ⟨t, h⟩ a else 0

def answer (v : HostView QBW GBW T) (t : Nat) : Word := if h : t < T then v.lmemRdata ⟨t, h⟩ else 0

theorem push_running (v : HostView QBW GBW T) (instr : Word) (h : v.pmemRunning = true) :
    (v.push instr).pmemEnd = v.pmemEnd ∧ ∀ a < v.pmemEnd, (v.push instr).pmem a = v.pmem a := by
  unfold push
  rw [h]
  refine ⟨rfl, fun a ha => ?_⟩
  apply Function.update_of_ne
  rintro rfl
  exact BitVec.lt_irrefl _ ha

def write (t : Nat) (a : BitVec 9) (x : Word) (v : HostView QBW GBW T) : HostView QBW GBW T :=
  { v with lmem := fun k => if t = k then Function.update (v.lmem k) a x else v.lmem k }

def setConstant (a : BitVec GBW) (x : Word) (v : HostView QBW GBW T) : HostView QBW GBW T :=
  { v with cmem := Function.update v.cmem a x }

def setRegister (lparam : BitVec 8) (command : BitVec 16) (v : HostView QBW GBW T) : HostView QBW GBW T :=
  if lparam = LPM_RUNSTOP then { v with pmemRunning := command.getLsbD 0 }
  else if lparam = LPM_RESETPRG then { v with pmemEnd := 0, pmemRunning := false }
  else if lparam = LPM_NUMCYCLE then { v with numCycles := command.setWidth 12 }
  else if lparam = LPM_SZPERCYCLE then { v with szPerTask := command.setWidth 32 }
  else v

theorem setRegister_lmem (lparam : BitVec 8) (command : BitVec 16) (v : HostView QBW GBW T) :
    (v.setRegister lparam command).lmem = v.lmem := by
  unfold setRegister
  split_ifs <;> rfl

theorem setRegister_queue (lparam : BitVec 8) (command : BitVec 16) (v : HostView QBW GBW T) :
    (v.setRegister lparam command).pmem = v.pmem ∧ (v.setRegister lparam command).cmem = v.cmem := by
  unfold setRegister
  split_ifs <;> exact ⟨rfl, rfl⟩

def stored (σ : Fin T → Option (BitVec 9 × Word)) (v : HostView QBW GBW T) : HostView QBW GBW T :=
  { v with lmem := fun k => match σ k with
      | some (a, x) => Function.update (v.lmem k) a x
      | none => v.lmem k }

end HostView

def Call.apply : Call → HostView QBW GBW T → HostView QBW GBW T
  | pushInstr instr, v => (v.push instr).answering 0
  | dataRd _ WordIdx, v => v.answering (WordIdx.setWidth 9)
  | dataWr ThreadIdx WordIdx Data, v =>
    (v.write ThreadIdx.toNat (WordIdx.setWidth 9) Data).answering (WordIdx.setWidth 9)
  | constantWr Addr Data, v => (v.setConstant (Addr.setWidth GBW) Data).answering (Addr.setWidth 9)
  | deviceCommand lparam command, v => (v.answering (command.setWidth 9)).setRegister lparam command
  | stat, v => v

/-! ## Commands -/

structure Command where
  wparam : BitVec 7
  lparam : BitVec 8
  command : BitVec 16
  iDATA : Word
  deriving DecidableEq

def Edge.command (e : Edge) : Command :=
  ⟨ICmd.wparam e.after, ICmd.lparam e.after, ICmd.command e.after, e.iDATA⟩

def Edge.Stable (e : Edge) : Prop := e.before.setWidth 31 = e.after.setWidth 31

def Call.data? : Call → Option Word
  | pushInstr instr => some instr
  | dataWr _ _ Data | constantWr _ Data => some Data
  | dataRd .. | deviceCommand .. | stat => none

def Call.command? (iDATA : Word) : Call → Option Command
  | pushInstr _ => some ⟨OPR_INSTR, 0, 0, iDATA⟩
  | dataRd ThreadIdx WordIdx => some ⟨OPR_RDL, ThreadIdx.setWidth 8, WordIdx.setWidth 16, iDATA⟩
  | dataWr ThreadIdx WordIdx _ => some ⟨OPR_WRL, ThreadIdx.setWidth 8, WordIdx.setWidth 16, iDATA⟩
  | constantWr Addr _ => some ⟨OPR_WRG, 0, Addr, iDATA⟩
  | deviceCommand lparam command => some ⟨OPR_COMMAND, lparam, command, iDATA⟩
  | stat => none

/-- The commands of a sequence of calls: one for each call but `gppcu_stat`. A call without data
leaves on the port what was there. -/
def commands : Word → List Call → List Command
  | _, [] => []
  | iDATA, c :: cs => (c.command? (c.data?.getD iDATA)).toList ++ commands (c.data?.getD iDATA) cs

def HostView.clocked (k : Command) (v : HostView QBW GBW T) : HostView QBW GBW T :=
  let v' := { v with
    pmem := if k.wparam = OPR_INSTR then Function.update v.pmem v.pmemEnd k.iDATA else v.pmem
    cmem := if k.wparam = OPR_WRG then Function.update v.cmem (k.command.setWidth GBW) k.iDATA
      else v.cmem
    lmem := fun i => if k.wparam = OPR_WRL ∧ k.lparam.toNat = i then
        Function.update (v.lmem i) (k.command.setWidth 9) k.iDATA
      else v.lmem i }
  let v'' := { v' with lmemRdata := fun i => v'.lmem i (k.command.setWidth 9) }
  if k.wparam = OPR_INSTR then { v'' with pmemEnd := if v.pmemRunning then v.pmemEnd else v.pmemEnd + 1 }
  else if k.wparam = OPR_COMMAND then v''.setRegister k.lparam k.command
  else v''

def GppcuTestQueue.view (d : GppcuTestQueue QBW GBW T) : HostView QBW GBW T :=
  { pmem := d.queue.pmem.ram
    pmemEnd := d.queue.pmemEnd
    pmemRunning := d.queue.pmemRunning
    numCycles := d.queue.numCycles
    szPerTask := d.queue.szPerTask
    cmem := d.queue.cmem.ram
    lmem := fun k => (d.core.threads k).localMemory.ram
    lmemRdata := fun k => (d.core.threads k).localMemory.oPaRdata }

theorem clkA_ram {aw : Nat} (d : DpramParam aw) (a : BitVec aw) (wr : Bool) (x : Word) :
    (d.clkA a wr x).ram = if wr then Function.update d.ram a x else d.ram := by
  unfold DpramParam.clkA
  split_ifs <;> rfl

theorem clkA_rdata {aw : Nat} (d : DpramParam aw) (a : BitVec aw) (wr : Bool) (x : Word) :
    (d.clkA a wr x).oPaRdata = (d.clkA a wr x).ram a := by
  unfold DpramParam.clkA
  split_ifs <;> simp

theorem queue_opClock_pmem (q : Queue QBW GBW) (iCMD iDATA : Word) :
    (q.opClock iCMD iDATA).pmem = q.pmem.clkA q.pmemEnd (ICmd.wparam iCMD == OPR_INSTR) iDATA ∧
      (q.opClock iCMD iDATA).cmem =
        q.cmem.clkA ((ICmd.command iCMD).setWidth GBW) (ICmd.wparam iCMD == OPR_WRG) iDATA := by
  unfold Queue.opClock
  simp only
  split_ifs <;> exact ⟨rfl, rfl⟩

theorem lmemClock_ram (s : Core T) (sel : BitVec 8) (addr : BitVec 16) (x : Word) (wr : Bool) (k : Fin T) :
    ((s.lmemClock (sel.setWidth 10) (addr.setWidth 22) x wr).threads k).localMemory =
      (s.threads k).localMemory.clkA (addr.setWidth 9) (wr && sel.toNat == k) x := by
  unfold Core.lmemClock
  have hsel : (sel.setWidth 10).toNat = sel.toNat := by
    rw [BitVec.toNat_setWidth, Nat.mod_eq_of_lt (by omega)]
  simp only [hsel]
  rw [BitVec.setWidth_setWidth_of_le _ (by omega)]

theorem opClock_view (d : GppcuTestQueue QBW GBW T) (e : Edge) :
    (d.opClock e.after e.iDATA).view = d.view.clocked e.command := by
  obtain ⟨hp, hc⟩ := queue_opClock_pmem d.queue e.after e.iDATA
  unfold GppcuTestQueue.opClock GppcuTestQueue.view
  simp only [hp, hc, lmemClock_ram, clkA_rdata, clkA_ram]
  unfold Queue.opClock HostView.clocked HostView.setRegister Edge.command
  simp only [Bool.and_eq_true, beq_iff_eq]
  split_ifs <;> rfl

def GppcuTestQueue.stores (d : GppcuTestQueue QBW GBW T) (k : Fin T) : Option (BitVec 9 × Word) :=
  if d.core.ctl.validExec && d.core.ctl.cwExec.lmemWr && (d.core.threads k).execCondVerified d.core.ctl then
    some ((d.core.threads k).execOprandB.setWidth 9, (d.core.threads k).execOprandA)
  else none

theorem clkB_port {aw : Nat} (d : DpramParam aw) (a : BitVec aw) (wr : Bool) (x : Word) :
    (d.clkB a wr x).ram = (if wr then Function.update d.ram a x else d.ram) ∧
      (d.clkB a wr x).oPaRdata = d.oPaRdata := by
  unfold DpramParam.clkB
  split_ifs <;> exact ⟨rfl, rfl⟩

theorem queue_clock_host (q : Queue QBW GBW) (inRST instrReady : Bool) :
    (q.clock inRST instrReady).pmem.ram = q.pmem.ram ∧ (q.clock inRST instrReady).pmemEnd = q.pmemEnd ∧
      (q.clock inRST instrReady).pmemRunning = q.pmemRunning ∧
      (q.clock inRST instrReady).numCycles = q.numCycles ∧
      (q.clock inRST instrReady).szPerTask = q.szPerTask ∧ (q.clock inRST instrReady).cmem = q.cmem := by
  unfold Queue.clock
  simp only
  split_ifs <;> exact ⟨rfl, rfl, rfl, rfl, rfl, rfl⟩

theorem clock_view (F : Fin T → Fpu) (d : GppcuTestQueue QBW GBW T) :
    (d.clock F).view = d.view.stored d.stores := by
  obtain ⟨hp, hend, hrun, hn, hsz, hc⟩ := queue_clock_host d.queue true d.core.instrReady
  unfold GppcuTestQueue.clock GppcuTestQueue.negedge GppcuTestQueue.posedge GppcuTestQueue.view
    HostView.stored Queue.gmemClock Core.clock Thread.clock
  simp only [hp, hend, hrun, hn, hsz, hc, clkB_port, HostView.mk.injEq, true_and, and_true]
  refine ⟨by simp, ?_⟩
  funext k
  unfold GppcuTestQueue.stores
  split_ifs <;> rfl

theorem HostView.clocked_command {c : Call} (hc : c.InRange) {x : Word} {k : Command}
    (hk : c.command? (c.data?.getD x) = some k) (v : HostView QBW GBW T) : v.clocked k = c.apply v := by
  cases c with
  | stat => cases hk
  | pushInstr instr =>
    obtain rfl := Option.some.inj hk
    rfl
  | constantWr a y =>
    obtain rfl := Option.some.inj hk
    rfl
  | deviceCommand l k =>
    obtain rfl := Option.some.inj hk
    rfl
  | dataRd t w =>
    obtain rfl := Option.some.inj hk
    change v.answering ((w.setWidth 16).setWidth 9) = v.answering (w.setWidth 9)
    rw [BitVec.setWidth_setWidth_of_le _ (by omega)]
  | dataWr t w y =>
    obtain rfl := Option.some.inj hk
    have hthread : (t.setWidth 8).toNat = t.toNat := by
      rw [BitVec.toNat_setWidth, Nat.mod_eq_of_lt (by have := hc.1; omega)]
    have hword : (w.setWidth 16).setWidth 9 = w.setWidth 9 := BitVec.setWidth_setWidth_of_le _ (by omega)
    unfold clocked Call.apply answering write
    simp only [hthread, hword, true_and]
    rfl

end Gppcu
