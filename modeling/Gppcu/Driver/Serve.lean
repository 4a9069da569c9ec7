import Gppcu.Driver.Bus

/-!
# Calls while the core stores nothing

Between runs of a program the local memories belong to the host. Then the device
is a function of the calls, and so is what their reads return.
-/

namespace Gppcu

variable {QBW GBW T : Nat}

/-! ## What the calls return -/

def Call.reply (v : HostView QBW GBW T) : Call → List Word
  | dataRd ThreadIdx WordIdx => [v.cell ThreadIdx.toNat (WordIdx.setWidth 9)]
  | _ => []

namespace HostView

def serve (v : HostView QBW GBW T) (cs : List Call) : HostView QBW GBW T :=
  Lib.run (fun v c => Call.apply c v) v cs

def replies (v : HostView QBW GBW T) (cs : List Call) : List Word :=
  Lib.trace (fun v c => Call.apply c v) Call.reply v cs

@[simp] theorem serve_cons (v : HostView QBW GBW T) (c : Call) (cs : List Call) :
    v.serve (c :: cs) = (c.apply v).serve cs := rfl

@[simp] theorem replies_cons (v : HostView QBW GBW T) (c : Call) (cs : List Call) :
    v.replies (c :: cs) = c.reply v ++ (c.apply v).replies cs := rfl

theorem serve_append (v : HostView QBW GBW T) (cs ds : List Call) :
    v.serve (cs ++ ds) = (v.serve cs).serve ds := Lib.run_append ..

theorem replies_append (v : HostView QBW GBW T) (cs ds : List Call) :
    v.replies (cs ++ ds) = v.replies cs ++ (v.serve cs).replies ds := Lib.trace_append ..

end HostView

/-! ## The ports with the abstract device behind them -/

structure HostPort (QBW GBW T : Nat) where
  ports : Ports
  view : HostView QBW GBW T

namespace HostPort

def step (h : HostPort QBW GBW T) (a : Access) : HostPort QBW GBW T :=
  { ports := h.ports.step a
    view := (h.ports.rise a).elim h.view fun e => h.view.clocked e.command }

def reads (h : HostPort QBW GBW T) : Access → List Word
  | .datin =>
    if ICmd.wparam h.ports.iCMD = OPR_RDL then [h.view.answer (ICmd.lparam h.ports.iCMD).toNat] else []
  | _ => []

theorem run_ports (h : HostPort QBW GBW T) (as : List Access) :
    (Lib.run step h as).ports = Lib.run Ports.step h.ports as := by
  induction as generalizing h with
  | nil => rfl
  | cons a as ih => exact ih (h.step a)

theorem run_view (h : HostPort QBW GBW T) (as : List Access) :
    (Lib.run step h as).view = ((h.ports.edges as).map Edge.command).foldl (fun v k => v.clocked k) h.view := by
  induction as generalizing h with
  | nil => rfl
  | cons a as ih =>
    have hedges : h.ports.edges (a :: as) = (h.ports.rise a).toList ++ (h.ports.step a).edges as := rfl
    rw [Lib.run_cons, ih, hedges, List.map_append, List.foldl_append]
    unfold step
    cases h.ports.rise a <;> rfl

theorem run_call {c : Call} (hc : c.InRange) (h : HostPort QBW GBW T) :
    (Lib.run step h c.accesses).view = c.apply h.view := by
  have hserved := Call.served hc h.ports
  rw [run_view, hserved.command]
  cases hk : c.command? (c.data?.getD h.ports.iDATA) with
  | none =>
    cases c with
    | stat => rfl
    | pushInstr | dataRd | dataWr | constantWr | deviceCommand => cases hk
  | some k => exact HostView.clocked_command hc hk h.view

theorem reads_call {c : Call} (hc : c.InRange) (h : HostPort QBW GBW T) :
    Lib.trace step reads h c.accesses = c.reply h.view := by
  cases c with
  | dataRd t w =>
    have hpulse : Lib.run step h (pulse (GPPCU_CMD_RD <<< 24 ||| t <<< 16 ||| w)
        (~~~GPPCU_CMD_CLK &&& (GPPCU_CMD_RD <<< 24 ||| t <<< 16 ||| w))) =
          Lib.run step h (Call.dataRd t w).accesses := rfl
    have hport : (Lib.run step h (Call.dataRd t w).accesses).ports.iCMD =
        ~~~GPPCU_CMD_CLK &&& (GPPCU_CMD_RD <<< 24 ||| t <<< 16 ||| w) := by
      rw [run_ports]
      rfl
    obtain ⟨hwparam, hlparam⟩ := dataRd_port hc
    rw [← hport] at hwparam hlparam
    have hreads : Lib.trace step reads h (Call.dataRd t w).accesses =
        (Lib.run step h (Call.dataRd t w).accesses).reads .datin := by
      rw [← hpulse]
      exact List.append_nil _
    rw [hreads, reads, if_pos hwparam, hlparam, run_call hc]
    rfl
  | stat =>
    have hport : ICmd.wparam (GPPCU_CMD_STAT <<< 24) ≠ OPR_RDL := by decide
    have hreads : Lib.trace step reads h Call.stat.accesses =
        (h.step (.cmd (GPPCU_CMD_STAT <<< 24))).reads .datin ++ [] := rfl
    rw [hreads, reads, step, Ports.step, if_neg hport]
    rfl
  | pushInstr | dataWr | constantWr | deviceCommand => rfl

theorem run_calls {cs : List Call} (hcs : ∀ c ∈ cs, c.InRange) (h : HostPort QBW GBW T) :
    (Lib.run step h (cs.flatMap Call.accesses)).view = h.view.serve cs ∧
      Lib.trace step reads h (cs.flatMap Call.accesses) = h.view.replies cs := by
  induction cs generalizing h with
  | nil => exact ⟨rfl, rfl⟩
  | cons c cs ih =>
    rw [List.forall_mem_cons] at hcs
    obtain ⟨hview, hreads⟩ := ih hcs.2 (Lib.run step h c.accesses)
    rw [run_call hcs.1] at hview hreads
    rw [List.flatMap_cons, Lib.run_append, Lib.trace_append, reads_call hcs.1]
    exact ⟨hview, congrArg (c.reply h.view ++ ·) hreads⟩

end HostPort

/-! ## The board -/

namespace Board

variable (F : Fin T → Fpu)

def dataRead (b : Board QBW GBW T) : Event → List Word
  | .access .datin => if ICmd.wparam b.ports.iCMD = OPR_RDL then [b.datin] else []
  | _ => []

def dataReads (b : Board QBW GBW T) (es : List Event) : List Word := Lib.trace (step F) dataRead b es

def Idle (b : Board QBW GBW T) (e : Event) : Prop := e = .tick → ∀ k, b.device.stores k = none

def hostPort (b : Board QBW GBW T) : HostPort QBW GBW T := ⟨b.ports, b.device.view⟩

theorem hostPort_step (b : Board QBW GBW T) (e : Event) (h : b.Idle e) :
    (b.step F e).hostPort = e.access?.elim b.hostPort b.hostPort.step := by
  cases e with
  | tick =>
    have hview : (b.step F .tick).device.view = b.device.view := by
      rw [show (b.step F .tick).device.view = b.device.view.stored b.device.stores from clock_view F b.device]
      unfold HostView.stored
      simp only [h rfl]
    unfold hostPort
    rw [hview]
    rfl
  | access a =>
    have hview := step_view F b (.access a)
    unfold hostPort HostPort.step
    rw [hview]
    cases hrise : b.ports.rise a <;> simp [emit, Event.access?, HostView.observe, hrise, step]

theorem hostPort_read (b : Board QBW GBW T) (e : Event) :
    (b.dataRead e).filterMap some = e.access?.elim [] b.hostPort.reads := by
  rw [List.filterMap_some]
  cases e with
  | tick => rfl
  | access a =>
    cases a with
    | cmd | datout => rfl
    | datin =>
      unfold dataRead Event.access? HostPort.reads
      by_cases hw : ICmd.wparam b.ports.iCMD = OPR_RDL
      · have hdata := datin_eq b (by rw [hw]; decide)
        simp [hw, hdata, hostPort]
      · simp [hw, hostPort]

/-- The host makes the calls in their order, and the core stores nothing meanwhile. -/
structure Serves (b : Board QBW GBW T) (cs : List Call) (es : List Event) : Prop where
  accesses : es.filterMap Event.access? = cs.flatMap Call.accesses
  idle : Lib.Along (step F) Idle b es

theorem Serves.served {b : Board QBW GBW T} {cs : List Call} {es : List Event} (h : b.Serves F cs es)
    (hcs : ∀ c ∈ cs, c.InRange) :
    (Lib.run (step F) b es).device.view = b.device.view.serve cs ∧
      b.dataReads F es = b.device.view.replies cs := by
  obtain ⟨hview, hreads⟩ := HostPort.run_calls hcs b.hostPort
  rw [← h.accesses] at hview hreads
  have hrun := Lib.run_proj hostPort (hostPort_step F) h.idle
  have htrace := Lib.trace_proj hostPort (hostPort_step F) (fun b e _ => b.hostPort_read e) h.idle
  rw [List.filterMap_some] at htrace
  constructor
  · rw [← hrun] at hview
    exact hview
  · rw [← htrace] at hreads
    exact hreads

theorem serves_direct (b : Board QBW GBW T) (cs : List Call) :
    b.Serves F cs ((cs.flatMap Call.accesses).map .access) where
  accesses := Event.filterMap_access _
  idle := by
    generalize cs.flatMap Call.accesses = as
    induction as generalizing b with
    | nil => trivial
    | cons a as ih => exact ⟨by simp [Idle], ih (b.step F (.access a))⟩

end Board

/-! ## What the core never touches -/

namespace HostView

/-- The program, the constants and the registers of the queue: all but the local memories. -/
def queue (v : HostView QBW GBW T) : HostView QBW GBW 0 :=
  { v with lmem := Fin.elim0, lmemRdata := Fin.elim0 }

theorem queue_ext {v v' : HostView QBW GBW 0} (h : v.queue = v'.queue) : v = v' := by
  have hself : ∀ v : HostView QBW GBW 0, v.queue = v := by
    intro v
    unfold queue
    congr 1 <;> exact Subsingleton.elim _ _
  rw [← hself v, h, hself]

theorem clocked_queue (v : HostView QBW GBW T) (k : Command) :
    (v.clocked k).queue = v.queue.clocked k := by
  apply queue_ext
  unfold clocked setRegister queue
  split_ifs <;> rfl

theorem apply_queue (v : HostView QBW GBW T) (c : Call) : (c.apply v).queue = c.apply v.queue := by
  apply queue_ext
  cases c with
  | deviceCommand l x =>
    change ((v.answering (x.setWidth 9)).setRegister l x).queue.queue =
      ((v.queue.answering (x.setWidth 9)).setRegister l x).queue
    unfold setRegister
    split_ifs <;> rfl
  | pushInstr | dataRd | dataWr | constantWr | stat => rfl

theorem serve_queue (v : HostView QBW GBW T) (cs : List Call) :
    (v.serve cs).queue = v.queue.serve cs := by
  induction cs generalizing v with
  | nil => rfl
  | cons c cs ih => rw [serve_cons, ih, apply_queue, serve_cons]

end HostView

namespace Board

variable (F : Fin T → Fpu)

def queuePort (b : Board QBW GBW T) : HostPort QBW GBW 0 := ⟨b.ports, b.device.view.queue⟩

theorem queuePort_step (b : Board QBW GBW T) (e : Event) :
    (b.step F e).queuePort = e.access?.elim b.queuePort b.queuePort.step := by
  cases e with
  | tick =>
    have hview : (b.step F .tick).device.view = b.device.view.stored b.device.stores := clock_view F b.device
    unfold queuePort
    rw [hview]
    rfl
  | access a =>
    have hview := step_view F b (.access a)
    unfold queuePort HostPort.step
    rw [hview]
    cases hrise : b.ports.rise a with
    | none => simp [emit, Event.access?, hrise, step]
    | some e => simp [emit, Event.access?, HostView.observe, hrise, step, HostView.clocked_queue]

theorem queue_served {b : Board QBW GBW T} {cs : List Call} {es : List Event}
    (hes : es.filterMap Event.access? = cs.flatMap Call.accesses) (hcs : ∀ c ∈ cs, c.InRange) :
    (Lib.run (step F) b es).device.view.queue = (b.device.view.serve cs).queue := by
  have hall : Lib.Along (step F) (fun _ _ => True) b es := Lib.along_of_forall fun _ _ => trivial
  have hrun := Lib.run_proj queuePort (fun b e _ => queuePort_step F b e) hall
  rw [hes] at hrun
  have hview := (HostPort.run_calls hcs b.queuePort).1
  rw [← hrun] at hview
  rw [HostView.serve_queue]
  exact hview

end Board

end Gppcu
