import Gppcu.App.Progress
import Gppcu.Driver.Drain
import Gppcu.Queue.Untimed

/-!
# From one run to the next

A board is settled when its core is empty and no word can come: before a run,
and behind one. The host may then upload in any order and at any speed. What
`gppcu_run_autofeed_device` leaves is a device that starts at its first word.
-/

namespace Gppcu

variable {QBW GBW T : Nat}

/-! ## An empty core -/

namespace Core

theorem AfterReset.clock {s : Core T} (h : s.AfterReset) (F : Fin T → Fpu) (i : Inputs)
    (hi : i.iINSTR_VALID = false) : (s.clock F i).AfterReset := by
  have hdelay : s.onCalculationDelay = false := by
    unfold onCalculationDelay
    simp [Thread.fpBusy, h.exec]
  have hmask : s.ctl.rqMask = 0 := by simp [Ctl.rqMask, oneHot, h.decode]
  have huse : s.ctl.canUseReg = true := by simp [Ctl.canUseReg, hmask]
  have hin : s.ctl.insig = 0 := by simp [Ctl.insig, Ctl.validRegd, oneHot, h.decode]
  have hstall : s.ctl.dataStallDecode s.onCalculationDelay = false := by
    simp [Ctl.dataStallDecode, huse, hdelay]
  constructor
  · simp [Core.clock, Ctl.clock, hstall, hi]
  · simp [Core.clock, Ctl.clock, hstall, h.fetch]
  · simp [Core.clock, Ctl.clock, hdelay, h.decode]
  · simp [Core.clock, Ctl.clock, h.exec]
  · simp [Core.clock, Ctl.clock, Ctl.pendingOccupy, h.occupied, hin]
  · intro k
    cases hr : i.inRST with
    | false => simp [hr]
    | true => simp [hr, h.fpStage k, h.exec]

theorem AfterReset.stores {d : GppcuTestQueue QBW GBW T} (h : d.core.AfterReset) (k : Fin T) :
    d.stores k = none := by
  unfold GppcuTestQueue.stores
  rw [h.exec]
  rfl

theorem Pipe.settled {F : Fpu} {s : Core T} {st : Stages} {M : Fin T → Machine Reg} (h : Pipe F s st M)
    (hi : s.ctl.idling = true) : s.AfterReset := by
  obtain ⟨hf, hd, he, hw⟩ := s.ctl.idling_iff.mp hi
  refine ⟨hf, hd, he, hw, ?_, fun k => ?_⟩
  · rw [Ctl.eq_zero_iff]
    intro r
    by_contra hocc
    rw [Bool.not_eq_false] at hocc
    rcases h.owned r hocc with hx | hx | ⟨hx, -⟩
    · simp [Ctl.execWrites, he] at hx
    · simp [Ctl.writebackWrites, hw] at hx
    · simp [Ctl.decodeWrites, Ctl.validRegd, hd] at hx
  · by_contra hk
    have := (h.fp_of_stage k hk).1
    rw [he] at this
    cases this

end Core

/-! ## Commands that leave a settled board settled -/

def Command.Calm (k : Command) : Prop :=
  k.wparam = OPR_COMMAND → k.lparam = LPM_RUNSTOP → k.command.getLsbD 0 = false

def Call.Calm (c : Call) : Prop := ∀ x k, c.command? x = some k → k.Calm

theorem Call.calm_plain {c : Call} (hc : ∀ l x, c ≠ .deviceCommand l x) : c.Calm := by
  intro x k hk hw
  have hinstr : OPR_INSTR ≠ OPR_COMMAND := by decide
  have hrdl : OPR_RDL ≠ OPR_COMMAND := by decide
  have hwrl : OPR_WRL ≠ OPR_COMMAND := by decide
  have hwrg : OPR_WRG ≠ OPR_COMMAND := by decide
  cases c with
  | deviceCommand l y => exact absurd rfl (hc l y)
  | stat => cases hk
  | pushInstr | dataRd | dataWr | constantWr =>
    obtain rfl := Option.some.inj hk
    contradiction

theorem Call.calm_command {l : BitVec 8} (hl : l ≠ LPM_RUNSTOP) (x : BitVec 16) :
    (Call.deviceCommand l x).Calm := by
  intro y k hk _ h
  obtain rfl := Option.some.inj hk
  exact absurd h hl

theorem adjust_calm (pp : SwkGppcu) : ∀ c ∈ pp.adjust, c.Calm := by
  intro c hc
  simp only [SwkGppcu.adjust, List.mem_cons, List.not_mem_nil, or_false] at hc
  rcases hc with rfl | rfl
  · exact Call.calm_command (by decide) _
  · exact Call.calm_command (by decide) _

theorem upload_calm (pp : SwkGppcu) (marr : List Word) : ∀ c ∈ pp.upload marr, c.Calm := by
  intro c hc
  rw [SwkGppcu.upload, List.mem_append, List.mem_cons, List.mem_map] at hc
  rcases hc with (rfl | hc) | ⟨w, -, rfl⟩
  · exact Call.calm_command (by decide) _
  · exact adjust_calm pp c hc
  · exact Call.calm_plain fun _ _ => Call.noConfusion

namespace Board

variable (F : Fin T → Fpu)

/-- If there is an edge in this step, its command is of this kind. -/
def Meets (P : Command → Prop) (b : Board QBW GBW T) (e : Event) : Prop :=
  ∀ a edge, e = .access a → b.ports.rise a = some edge → P edge.command

theorem along_meets {P : Command → Prop} {b : Board QBW GBW T} {es : List Event}
    (h : ∀ edge ∈ b.ports.edges (es.filterMap Event.access?), P edge.command) :
    Lib.Along (step F) (Meets P) b es := by
  induction es generalizing b with
  | nil => trivial
  | cons e es ih =>
    cases e with
    | tick =>
      refine ⟨?_, ih h⟩
      rintro a edge hn
      cases hn
    | access a =>
      have hedges : b.ports.edges ((Event.access a :: es).filterMap Event.access?) =
          (b.ports.rise a).toList ++ (b.ports.step a).edges (es.filterMap Event.access?) := rfl
      rw [hedges] at h
      refine ⟨?_, ih fun edge he => h edge (List.mem_append_right _ he)⟩
      rintro a' edge ha hrise
      obtain rfl := Event.access.inj ha
      exact h edge (List.mem_append_left _ (by rw [hrise]; exact List.mem_singleton_self _))

theorem mem_commands {cs : List Call} {x : Word} {k : Command} (h : k ∈ commands x cs) :
    ∃ c ∈ cs, ∃ y, c.command? y = some k := by
  induction cs generalizing x with
  | nil => cases h
  | cons c cs ih =>
    rw [commands, List.mem_append] at h
    rcases h with h | h
    · exact ⟨c, List.mem_cons_self .., _, Option.mem_toList.mp h⟩
    · obtain ⟨c', hc', y, hy⟩ := ih h
      exact ⟨c', List.mem_cons_of_mem _ hc', y, hy⟩

theorem along_calls {P : Command → Prop} {b : Board QBW GBW T} {cs : List Call} {es : List Event}
    (hes : es.filterMap Event.access? = cs.flatMap Call.accesses) (hcs : ∀ c ∈ cs, c.InRange)
    (hP : ∀ c ∈ cs, ∀ x k, c.command? x = some k → P k) : Lib.Along (step F) (Meets P) b es := by
  apply along_meets
  rw [hes]
  intro edge he
  have hk := List.mem_map_of_mem (f := Edge.command) he
  rw [(Ports.calls_edges hcs b.ports).1] at hk
  obtain ⟨c, hc, y, hy⟩ := mem_commands hk
  exact hP c hc y _ hy

/-! ## Settled boards -/

/-- The core is empty, and the supply logic has stopped or is done. -/
structure Settled (b : Board QBW GBW T) : Prop where
  core : b.device.core.AfterReset
  supply : b.device.queue.pmemRunning = true → b.device.queue.programDone = true

variable {b : Board QBW GBW T}

theorem Settled.instrValid (h : b.Settled) : b.device.queue.instrValid = false := by
  unfold Queue.instrValid
  cases hrun : b.device.queue.pmemRunning with
  | false => rfl
  | true => simp [h.supply hrun]

theorem clock_done (q : Queue QBW GBW) (instrReady : Bool) (hdone : q.pmemRunning = true → q.programDone = true)
    (hrun : (q.clock true instrReady).pmemRunning = true) : (q.clock true instrReady).programDone = true := by
  obtain ⟨-, -, hr, -⟩ := queue_clock_host q true instrReady
  rw [hr] at hrun
  unfold Queue.clock
  simp only [hrun, Bool.and_true, if_true]
  split_ifs
  · rfl
  all_goals exact hdone hrun

theorem Settled.tick (h : b.Settled) : (b.step F .tick).Settled :=
  ⟨h.core.clock F _ h.instrValid, clock_done b.device.queue _ h.supply⟩

theorem step_edge {a : Access} {e : Edge} (h : b.ports.rise a = some e) :
    (b.step F (.access a)).device = b.device.opClock e.after e.iDATA := by
  unfold step
  simp only [h]

theorem opClock_supply (q : Queue QBW GBW) (e : Edge) (hcalm : e.command.Calm) :
    ((q.opClock e.after e.iDATA).pmemRunning = true → q.pmemRunning = true) ∧
      (q.opClock e.after e.iDATA).programDone = q.programDone := by
  unfold Command.Calm Edge.command at hcalm
  unfold Queue.opClock
  simp only
  split_ifs with h1 h2 h3 h4 h5 h6 h7
  · exact ⟨id, rfl⟩
  · exact ⟨id, rfl⟩
  · refine ⟨fun hr => ?_, rfl⟩
    have hoff := hcalm h3 h4
    rw [show (ICmd.command e.after).getLsbD 0 = true from hr] at hoff
    cases hoff
  · exact ⟨fun hr => absurd hr (by simp), rfl⟩
  all_goals exact ⟨id, rfl⟩

theorem Settled.step (h : b.Settled) {e : Event} (hcalm : b.Meets Command.Calm e) : (b.step F e).Settled := by
  cases e with
  | tick => exact h.tick F
  | access a =>
    cases hrise : b.ports.rise a with
    | none =>
      have hsame := step_quiet F hrise
      exact ⟨by rw [hsame]; exact h.core, by rw [hsame]; exact h.supply⟩
    | some edge =>
      have hdevice := step_edge F hrise
      obtain ⟨hrun, hdone⟩ := opClock_supply b.device.queue edge (hcalm a edge rfl hrise)
      constructor
      · rw [hdevice]
        exact ⟨h.core.fetch, h.core.decode, h.core.exec, h.core.writeback, h.core.occupied, h.core.fpStage⟩
      · rw [hdevice]
        intro hr
        exact hdone.trans (h.supply (hrun hr))

theorem Settled.serves (h : b.Settled) {cs : List Call} {es : List Event}
    (hes : es.filterMap Event.access? = cs.flatMap Call.accesses) (hcs : ∀ c ∈ cs, c.InRange)
    (hcalm : ∀ c ∈ cs, c.Calm) : b.Serves F cs es ∧ (Lib.run (Board.step F) b es).Settled := by
  have hmeets : Lib.Along (Board.step F) (Meets Command.Calm) b es := along_calls F hes hcs hcalm
  refine ⟨⟨hes, ?_⟩, Lib.Along.keeps (I := Settled) (fun b e hb hm => hb.step F hm) h hmeets⟩
  clear hes hcs hcalm
  induction es generalizing b with
  | nil => trivial
  | cons e es ih => exact ⟨fun _ k => h.core.stores k, ih (h.step F hmeets.1) hmeets.2⟩

/-! ## The start of a run -/

/-- The supply logic has stopped, and its registers are those of a start. -/
structure Rewound (b : Board QBW GBW T) : Prop where
  settled : b.Settled
  stopped : b.device.queue.pmemRunning = false
  head : b.device.queue.pmemHead = 0
  done : b.device.queue.programDone = false
  ofst : b.device.queue.curTaskOfst = 0
  cycle : b.device.queue.curCycleIdx = 0

structure Ready (b : Board QBW GBW T) : Prop extends Rewound b where
  program : b.device.queue.program = b.device.queue.pmem.ram 0

theorem clock_stopped (q : Queue QBW GBW) (instrReady : Bool) (h : q.pmemRunning = false) :
    q.clock true instrReady = { q with
      pmem := q.pmem.clkB q.pmemHead false 0
      programDone := false
      pmemHead := 0
      curTaskOfst := 0
      curCycleIdx := 0 } := by
  unfold Queue.clock
  simp [h]

theorem Settled.rewound (h : b.Settled) (hstop : b.device.queue.pmemRunning = false) :
    (b.step F .tick).Rewound := by
  have hq : (b.step F .tick).device.queue = (b.device.queue.clock true b.device.core.instrReady).gmemClock
      (b.device.posedge F).core.ctl.gmemAddr := rfl
  rw [clock_stopped _ _ hstop] at hq
  refine ⟨h.tick F, ?_, ?_, ?_, ?_, ?_⟩ <;> rw [hq]
  · exact hstop
  all_goals rfl

theorem Rewound.ready (h : b.Rewound) : (b.step F .tick).Ready := by
  have hq : (b.step F .tick).device.queue = (b.device.queue.clock true b.device.core.instrReady).gmemClock
      (b.device.posedge F).core.ctl.gmemAddr := rfl
  rw [clock_stopped _ _ h.stopped] at hq
  refine ⟨h.settled.rewound F h.stopped, ?_⟩
  rw [hq]
  change b.device.queue.pmem.ram b.device.queue.pmemHead = _
  rw [h.head]
  rfl

theorem Ready.step (h : b.Ready) {e : Event} (hquiet : ∀ a, e = .access a → b.ports.rise a = none) :
    (b.step F e).Ready := by
  cases e with
  | tick => exact h.toRewound.ready F
  | access a =>
    have hsame := step_quiet F (hquiet a rfl)
    have hset : (b.step F (.access a)).Settled :=
      ⟨by rw [hsame]; exact h.settled.core, by rw [hsame]; exact h.settled.supply⟩
    refine ⟨⟨hset, ?_, ?_, ?_, ?_, ?_⟩, ?_⟩ <;> rw [hsame]
    · exact h.stopped
    · exact h.head
    · exact h.done
    · exact h.ofst
    · exact h.cycle
    · exact h.program

theorem view_quiet (h : b.Settled) {e : Event} (hquiet : ∀ a, e = .access a → b.ports.rise a = none) :
    (b.step F e).device.view = b.device.view := by
  cases e with
  | tick =>
    rw [show (b.step F .tick).device.view = b.device.view.stored b.device.stores from clock_view F b.device]
    unfold HostView.stored
    simp only [h.core.stores]
  | access a => rw [step_quiet F (hquiet a rfl)]

theorem Ready.start (h : b.Ready) (hport : b.ports.iCMD = runCmd) :
    (b.step F (.access (.cmd (GPPCU_CMD_CLK ||| runCmd)))).device.queue.Started ∧
      (b.step F (.access (.cmd (GPPCU_CMD_CLK ||| runCmd)))).device.core.AfterReset ∧
      (b.step F (.access (.cmd (GPPCU_CMD_CLK ||| runCmd)))).device.view =
        (Call.deviceCommand LPM_RUNSTOP 1).apply b.device.view := by
  have hrise : b.ports.rise (.cmd (GPPCU_CMD_CLK ||| runCmd)) =
      some ⟨runCmd, GPPCU_CMD_CLK ||| runCmd, b.ports.iDATA⟩ := by
    unfold Ports.rise
    rw [hport]
    exact if_pos (by decide)
  have hdevice := step_edge F hrise
  have hcore := h.settled.core
  have hqueue : (b.step F (.access (.cmd (GPPCU_CMD_CLK ||| runCmd)))).device.queue =
      b.device.queue.opClock (GPPCU_CMD_CLK ||| runCmd) b.ports.iDATA := by
    unfold Board.step
    simp only [hrise]
    rfl
  refine ⟨?_, ?_, ?_⟩
  · refine ⟨?_, ?_, ?_, ?_, ?_, ?_⟩ <;> rw [hqueue]
    · rfl
    · exact h.head
    · exact h.done
    · exact h.ofst
    · exact h.cycle
    · exact h.program
  · rw [hdevice]
    exact ⟨hcore.fetch, hcore.decode, hcore.exec, hcore.writeback, hcore.occupied, hcore.fpStage⟩
  · rw [hdevice, opClock_view]
    have hcommand : Edge.command ⟨runCmd, GPPCU_CMD_CLK ||| runCmd, b.ports.iDATA⟩ =
        ⟨OPR_COMMAND, LPM_RUNSTOP, 1, b.ports.iDATA⟩ := by
      have hfields : ICmd.wparam (GPPCU_CMD_CLK ||| runCmd) = OPR_COMMAND ∧
          ICmd.lparam (GPPCU_CMD_CLK ||| runCmd) = LPM_RUNSTOP ∧
            ICmd.command (GPPCU_CMD_CLK ||| runCmd) = 1 := by decide
      unfold Edge.command
      rw [hfields.1, hfields.2.1, hfields.2.2]
    rw [hcommand]
    exact HostView.clocked_command (c := .deviceCommand LPM_RUNSTOP 1) trivial rfl _

/-- The calls `cs`, and then `gppcu_run_autofeed_device` up to the edge of its second command. Its wait
is at least two clocks. -/
def Launches (cs : List Call) (es : List Event) : Prop :=
  ∃ es₁ es₂, es = es₁ ++ .tick :: .tick :: es₂ ++ [.access (.cmd (GPPCU_CMD_CLK ||| runCmd))] ∧
    es₁.filterMap Event.access? = (cs ++ [Call.deviceCommand LPM_RUNSTOP 0]).flatMap Call.accesses ∧
    es₂.filterMap Event.access? = [.cmd runCmd]

def runCalls : List Call := [.deviceCommand LPM_RUNSTOP 0, .deviceCommand LPM_RUNSTOP 1]

theorem serve_runCalls (v : HostView QBW GBW T) : (v.serve runCalls).pmem = v.pmem ∧
    (v.serve runCalls).pmemEnd = v.pmemEnd ∧ (v.serve runCalls).numCycles = v.numCycles ∧
    (v.serve runCalls).szPerTask = v.szPerTask ∧ (v.serve runCalls).cmem = v.cmem ∧
    (v.serve runCalls).lmem = v.lmem := ⟨rfl, rfl, rfl, rfl, rfl, rfl⟩

/-- From a settled board every run starts at its first word, with what the calls have uploaded. -/
theorem Settled.launches (h : b.Settled) {cs : List Call} {es : List Event} (hes : Launches cs es)
    (hcs : ∀ c ∈ cs, c.InRange) (hcalm : ∀ c ∈ cs, c.Calm) :
    (Lib.run (Board.step F) b es).device.queue.Started ∧
      (Lib.run (Board.step F) b es).device.core.AfterReset ∧
      (Lib.run (Board.step F) b es).device.view = b.device.view.serve (cs ++ runCalls) := by
  obtain ⟨es₁, es₂, rfl, h₁, h₂⟩ := hes
  have hrange : ∀ c ∈ cs ++ [Call.deviceCommand LPM_RUNSTOP 0], c.InRange := by
    simpa [or_imp, forall_and, Call.InRange] using hcs
  have hcalm' : ∀ c ∈ cs ++ [Call.deviceCommand LPM_RUNSTOP 0], c.Calm := by
    intro c hc
    rcases List.mem_append.mp hc with hc | hc
    · exact hcalm c hc
    · obtain rfl := List.mem_singleton.mp hc
      rintro x k hk - -
      obtain rfl := Option.some.inj hk
      exact show (0 : BitVec 16).getLsbD 0 = false by decide
  obtain ⟨hserves, hset⟩ := h.serves F h₁ hrange hcalm'
  have hview := (hserves.served F hrange).1
  have hoff : (Lib.run (Board.step F) b es₁).device.queue.pmemRunning = false := by
    change (Lib.run (Board.step F) b es₁).device.view.pmemRunning = false
    rw [hview, HostView.serve_append]
    rfl
  generalize hb₁ : Lib.run (Board.step F) b es₁ = b₁ at hview hset hoff
  have hready := (hset.rewound F hoff).ready F
  have hview' : ((b₁.step F .tick).step F .tick).device.view = b₁.device.view := by
    rw [view_quiet F (hset.tick F) (by simp), view_quiet F hset (by simp)]
  generalize hb₂ : (b₁.step F .tick).step F .tick = b₂ at hready hview'
  have hquiet : ∀ {b : Board QBW GBW T}, ∀ e ∈ es₂, ∀ a, e = .access a → b.ports.rise a = none := by
    rintro b e he a rfl
    have ha : a ∈ es₂.filterMap Event.access? := List.mem_filterMap.mpr ⟨_, he, rfl⟩
    rw [h₂, List.mem_singleton] at ha
    subst ha
    exact if_neg (by simp [show ICmd.opclk runCmd = false by decide])
  have halong : Lib.Along (Board.step F) (fun b e => ∀ a, e = .access a → b.ports.rise a = none) b₂ es₂ :=
    Lib.along_of_inv (I := fun _ => True) (fun b e he _ => ⟨hquiet e he, trivial⟩) trivial
  have hkeeps := Lib.Along.keeps (I := fun b : Board QBW GBW T => b.Ready ∧
    b.device.view = b₁.device.view) (fun b e hb hq => ⟨hb.1.step F hq,
      (view_quiet F hb.1.settled hq).trans hb.2⟩) ⟨hready, hview'⟩ halong
  have hport := congrArg Ports.iCMD (run_ports F b₂ es₂)
  rw [h₂] at hport
  have hrun : Lib.run (Board.step F) b (es₁ ++ .tick :: .tick :: es₂ ++
      [.access (.cmd (GPPCU_CMD_CLK ||| runCmd))]) =
        (Lib.run (Board.step F) b₂ es₂).step F (.access (.cmd (GPPCU_CMD_CLK ||| runCmd))) := by
    rw [Lib.run_concat, Lib.run_append, hb₁, Lib.run_cons, Lib.run_cons, hb₂]
  rw [hrun]
  obtain ⟨hstarted, hcore, hlast⟩ := hkeeps.1.start F hport
  refine ⟨hstarted, hcore, ?_⟩
  rw [hlast, hkeeps.2, hview, HostView.serve_append, HostView.serve_append]
  rfl

end Board

/-! ## The run itself -/

/-- The rest of the second command, and calls of `gppcu_stat` until the host has seen enough. -/
def Watches (es : List Event) : Prop :=
  ∃ n, es.filterMap Event.access? =
    .cmd (~~~GPPCU_CMD_CLK ||| runCmd) :: (List.replicate n Call.stat).flatMap Call.accesses

def ticks (es : List Event) : Nat := es.length - (es.filterMap Event.access?).length

theorem length_access (es : List Event) : (es.filterMap Event.access?).length ≤ es.length :=
  List.length_filterMap_le ..

theorem ticks_tick (es : List Event) : ticks (.tick :: es) = ticks es + 1 := by
  have hle := length_access es
  have hcons : (Event.tick :: es).filterMap Event.access? = es.filterMap Event.access? := rfl
  unfold ticks
  rw [hcons, List.length_cons]
  omega

theorem ticks_access (a : Access) (es : List Event) : ticks (.access a :: es) = ticks es := by
  have hcons : (Event.access a :: es).filterMap Event.access? = a :: es.filterMap Event.access? := rfl
  unfold ticks
  rw [hcons, List.length_cons, List.length_cons]
  omega

namespace Board

variable (F : Fin T → Fpu)

theorem device_ticks {es : List Event} (hes : ∀ a ∈ es.filterMap Event.access?, ∀ p : Ports, p.rise a = none)
    (b : Board QBW GBW T) :
    (Lib.run (step F) b es).device = (GppcuTestQueue.clock F)^[ticks es] b.device := by
  induction es generalizing b with
  | nil => rfl
  | cons e es ih =>
    cases e with
    | tick =>
      rw [ticks_tick, Lib.run_cons, ih hes]
      rfl
    | access a =>
      have hcons : (Event.access a :: es).filterMap Event.access? = a :: es.filterMap Event.access? := rfl
      rw [hcons, List.forall_mem_cons] at hes
      rw [ticks_access, Lib.run_cons, ih hes.2, step_quiet F (hes.1 b.ports)]

theorem watches_quiet {es : List Event} (hes : Watches es) :
    ∀ a ∈ es.filterMap Event.access?, ∀ p : Ports, p.rise a = none := by
  obtain ⟨n, hes⟩ := hes
  rw [hes]
  intro a ha p
  rw [List.mem_cons, List.mem_flatMap] at ha
  rcases ha with rfl | ⟨c, hc, ha⟩
  · exact if_neg (by simp [show ICmd.opclk (~~~GPPCU_CMD_CLK ||| runCmd) = false by decide])
  · obtain rfl := List.eq_of_mem_replicate hc
    change a ∈ [Access.cmd (GPPCU_CMD_STAT <<< 24), Access.datin] at ha
    simp only [List.mem_cons, List.not_mem_nil, or_false] at ha
    rcases ha with rfl | rfl
    · exact if_neg (by simp [show ICmd.opclk (GPPCU_CMD_STAT <<< 24) = false by decide])
    · rfl

end Board

def launchEvents (cs : List Call) : List Event :=
  ((cs ++ [Call.deviceCommand LPM_RUNSTOP 0]).flatMap Call.accesses).map .access ++
    .tick :: .tick :: [.access (.cmd runCmd)] ++ [.access (.cmd (GPPCU_CMD_CLK ||| runCmd))]

def watchEvents (n : Nat) : List Event :=
  .access (.cmd (~~~GPPCU_CMD_CLK ||| runCmd)) :: List.replicate n .tick

theorem launches_launchEvents (cs : List Call) : Board.Launches cs (launchEvents cs) := by
  exact ⟨_, [.access (.cmd runCmd)], rfl, Event.filterMap_access _, rfl⟩

theorem watches_watchEvents (n : Nat) : Watches (watchEvents n) := by
  refine ⟨0, ?_⟩
  have hticks : (List.replicate n Event.tick).filterMap Event.access? = [] := by
    simp [List.filterMap_eq_nil_iff, List.mem_replicate, Event.access?]
  rw [watchEvents, List.filterMap_cons_some (show Event.access? (.access _) = some _ from rfl), hticks]
  rfl

theorem run_watchEvents (F : Fin T → Fpu) (b : Board QBW GBW T) (es : List Event) (n : Nat) :
    (Lib.run (Board.step F) b (es ++ watchEvents n)).device =
      (GppcuTestQueue.clock F)^[n] (Lib.run (Board.step F) b es).device := by
  have hticks : ticks (watchEvents n) = n := by
    rw [watchEvents, ticks_access]
    induction n with
    | zero => rfl
    | succ n ih => rw [List.replicate_succ, ticks_tick, ih]
  rw [Lib.run_append, Board.device_ticks F (Board.watches_quiet (watches_watchEvents n)), hticks]

theorem idleBoard_settled : idleBoard.Settled := ⟨⟨rfl, rfl, rfl, rfl, rfl, fun _ => rfl⟩, by decide⟩

namespace GppcuTestQueue

/-- What a run leaves: a device that is done, and threads that have executed the passes. -/
structure Ended (F : Fpu) (d d' : GppcuTestQueue QBW GBW T) : Prop where
  settled : d'.core.AfterReset
  done : d'.queue.programDone = true
  arch : d'.core.arch = fun k => fedFrom F d.queue d.queue.numCycles.toNat 0 Stages.empty
    (d.queue.word 0) (d.core.arch k)
  queue : d'.view.queue = d.view.queue

theorem view_queue (F : Fin T → Fpu) (d : GppcuTestQueue QBW GBW T) (n : Nat) :
    ((clock F)^[n] d).view.queue = d.view.queue := by
  induction n generalizing d with
  | zero => rfl
  | succ n ih =>
    rw [Function.iterate_succ_apply, ih, clock_view]
    rfl

theorem ends (F : Fpu) (d : GppcuTestQueue QBW GBW T) (hT : 0 < T) (hs : d.queue.Started)
    (hreset : d.core.AfterReset) (hpos : 0 < d.queue.pmemEnd.toNat)
    (hsafe : SafeFrom d.queue d.queue.numCycles.toNat Stages.empty (d.queue.word 0)) (n : Nat)
    (hdone : ((clock fun _ => F)^[n] d).oDONE = true)
    (hidle : ((clock fun _ => F)^[n] d).core.ctl.idling = true) : Ended F d ((clock fun _ => F)^[n] d) := by
  have hstart : Feeds F d.queue ⟨0, hT⟩ (feeder d) (cost F (feeder d)) d :=
    feeds_start hs hreset hpos hsafe
  obtain ⟨j, n', hj, -⟩ := (stutters (F := F) ⟨0, hT⟩ hpos).at_time hstart n
  have harch := (runs_fed (F := F) d hT hs hreset hpos hsafe).2 n hdone hidle
  exact ⟨hj.pipe.settled hidle, hdone, harch, view_queue _ d n⟩

end GppcuTestQueue

end Gppcu
