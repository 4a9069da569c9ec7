import Gppcu.App.Rounds

/-!
# The progress of a run

`gppcu_stat` unpacks the status word of the device, and `gppcu_is_done` says how
many cycles are left. The status word has four bits for each of the two counters.
-/

namespace Gppcu

/-! ## The functions of the driver -/

structure Stat where
  oIsRunning : Bool
  oIsDone : Bool
  oSzPerTask : BitVec 8
  oPmemEnd : BitVec 8
  oPmemHead : BitVec 8
  oNumCycles : BitVec 8
  oCurCycleIdx : BitVec 8

def Stat.ofWord (stat : Word) : Stat where
  oIsRunning := stat &&& 1 <<< 31 != 0
  oIsDone := stat &&& 1 <<< 30 != 0
  oSzPerTask := (stat >>> 24 &&& 0x3f).setWidth 8
  oPmemEnd := (stat >>> 16 &&& 0xff).setWidth 8
  oPmemHead := (stat >>> 8 &&& 0xff).setWidth 8
  oNumCycles := (stat >>> 4 &&& 0xf).setWidth 8
  oCurCycleIdx := (stat &&& 0xf).setWidth 8

/-- What `gppcu_is_done` returns and what it stores in `cycles_left`, from the status word. -/
def gppcuIsDone (stat : Word) : Bool × BitVec 16 :=
  let s := Stat.ofWord stat
  (s.oIsDone, s.oNumCycles.setWidth 16 - s.oCurCycleIdx.setWidth 16)

theorem toNat_nibble (x : Word) : ((x &&& 0xf).setWidth 8).toNat = x.toNat % 16 := by
  rw [BitVec.toNat_setWidth, BitVec.toNat_and]
  have hmask : x.toNat &&& (0xf : Word).toNat = x.toNat % 2 ^ 4 := Nat.and_two_pow_sub_one_eq_mod x.toNat 4
  rw [hmask]
  omega

theorem toNat_append_add {m n : Nat} (x : BitVec m) (y : BitVec n) :
    (x ++ y).toNat = x.toNat * 2 ^ n + y.toNat := by
  rw [BitVec.toNat_append, ← Nat.shiftLeft_add_eq_or_of_lt y.isLt, Nat.shiftLeft_eq]

section Counters

variable {QBW GBW : Nat} (q : Queue QBW GBW)

theorem status_counters : (Stat.ofWord q.status).oNumCycles.toNat = q.numCycles.toNat % 16 ∧
    (Stat.ofWord q.status).oCurCycleIdx.toNat = q.curCycleIdx.toNat % 16 := by
  unfold Stat.ofWord Queue.status
  constructor
  · change ((_ &&& 0xf : Word).setWidth 8).toNat = _
    rw [toNat_nibble, BitVec.toNat_ushiftRight, toNat_append_add, toNat_append_add, Nat.shiftRight_eq_div_pow,
      BitVec.toNat_setWidth, BitVec.toNat_setWidth]
    omega
  · change ((_ &&& 0xf : Word).setWidth 8).toNat = _
    rw [toNat_nibble, toNat_append_add, BitVec.toNat_setWidth]
    omega

theorem cyclesLeft_iff (hle : q.curCycleIdx.toNat ≤ q.numCycles.toNat) :
    (gppcuIsDone q.status).2.toNat + q.curCycleIdx.toNat = q.numCycles.toNat ↔
      q.numCycles.toNat / 16 = q.curCycleIdx.toNat / 16 := by
  obtain ⟨hnum, hcur⟩ := status_counters q
  have hleft : (gppcuIsDone q.status).2.toNat =
      (2 ^ 16 - q.curCycleIdx.toNat % 16 + q.numCycles.toNat % 16) % 2 ^ 16 := by
    unfold gppcuIsDone
    rw [BitVec.toNat_sub, BitVec.toNat_setWidth, BitVec.toNat_setWidth, hnum, hcur]
    omega
  have hlt := q.numCycles.isLt
  rw [hleft]
  constructor <;> intro h <;> omega

end Counters

/-! ## The start of a run -/

def runCmd : Word := GPPCU_CMD_STAT <<< 24 ||| LPM_RUNSTOP.setWidth 32 <<< 16 ||| (1 : BitVec 16).setWidth 32

/-- The calls `cs`, and then `gppcu_run_autofeed_device` up to the edge of its second command. Its wait
is at least one clock. -/
def StartsRun (cs : List Call) (es : List Event) : Prop :=
  ∃ es₁ es₂, es = es₁ ++ .tick :: es₂ ++ [.access (.cmd (GPPCU_CMD_CLK ||| runCmd))] ∧
    es₁.filterMap Event.access? = (cs ++ [Call.deviceCommand LPM_RUNSTOP 0]).flatMap Call.accesses ∧
    es₂.filterMap Event.access? = [.cmd runCmd]

def Call.KeepsCount (init : List Call) (c : Call) : Prop :=
  c.InRange ∧ ∀ x, c = .deviceCommand LPM_NUMCYCLE x → c ∈ init

theorem HostView.serve_numCycles {QBW GBW T : Nat} {n : BitVec 12} {cs : List Call}
    (hcs : ∀ c ∈ cs, ∀ x, c = .deviceCommand LPM_NUMCYCLE x → x.setWidth 12 = n)
    {v : HostView QBW GBW T} (hv : v.numCycles = n) : (v.serve cs).numCycles = n := by
  induction cs generalizing v with
  | nil => exact hv
  | cons c cs ih =>
    rw [List.forall_mem_cons] at hcs
    rw [serve_cons]
    apply ih hcs.2
    cases c with
    | deviceCommand lparam x =>
      change ((v.answering (x.setWidth 9)).setRegister lparam x).numCycles = n
      unfold setRegister
      split_ifs with hrun hreset hnum
      · exact hv
      · exact hv
      · exact hcs.1 x (by rw [hnum])
      · exact hv
      · exact hv
    | _ => exact hv

namespace Board

variable {QBW GBW T : Nat} (F : Fin T → Fpu)

/-- The device has stopped, is told to run `n` cycles, and is at the first of them. -/
structure Armed (n : BitVec 12) (b : Board QBW GBW T) : Prop where
  stopped : b.device.queue.pmemRunning = false
  num : b.device.queue.numCycles = n
  cur : b.device.queue.curCycleIdx = 0

/-- The device runs `n` cycles, and has gone through some of them. -/
structure Passing (n : BitVec 12) (b : Board QBW GBW T) : Prop where
  running : b.device.queue.pmemRunning = true
  num : b.device.queue.numCycles = n
  le : b.device.queue.curCycleIdx.toNat ≤ n.toNat

def LeavesRun (b : Board QBW GBW T) (e : Event) : Prop :=
  ∀ a edge, e = .access a → b.ports.rise a = some edge → ICmd.wparam edge.after ≠ OPR_COMMAND

theorem step_quiet {b : Board QBW GBW T} {a : Access} (h : b.ports.rise a = none) :
    (b.step F (.access a)).device = b.device := by
  unfold step
  simp only [h]

theorem opClock_run (q : Queue QBW GBW) {iCMD : Word} (iDATA : Word) (h : ICmd.wparam iCMD ≠ OPR_COMMAND) :
    (q.opClock iCMD iDATA).pmemRunning = q.pmemRunning ∧ (q.opClock iCMD iDATA).numCycles = q.numCycles ∧
      (q.opClock iCMD iDATA).curCycleIdx = q.curCycleIdx := by
  unfold Queue.opClock
  simp only [if_neg h]
  split_ifs <;> exact ⟨rfl, rfl, rfl⟩

theorem clock_cycle {q : Queue QBW GBW} (instrReady : Bool) (hrun : q.pmemRunning = true) :
    (q.clock true instrReady).curCycleIdx = q.curCycleIdx ∨ q.curCycleIdx ≠ q.numCycles ∧
      (q.clock true instrReady).curCycleIdx = q.curCycleIdx + 1 := by
  by_cases hlast : q.curCycleIdx = q.numCycles
  · left
    rw [Queue.clock_last instrReady hrun hlast]
  by_cases hhead : q.pmemHead < q.pmemEnd
  · left
    rw [Queue.clock_next instrReady hrun hlast hhead]
  · right
    rw [Queue.clock_wrap instrReady hrun hlast hhead]
    exact ⟨hlast, rfl⟩

theorem Passing.step {n : BitVec 12} {b : Board QBW GBW T} {e : Event} (h : b.Passing n)
    (hleaves : b.LeavesRun e) : (b.step F e).Passing n ∧
      b.device.queue.curCycleIdx.toNat ≤ (b.step F e).device.queue.curCycleIdx.toNat := by
  cases e with
  | access a =>
    cases hrise : b.ports.rise a with
    | none =>
      refine ⟨⟨?_, ?_, ?_⟩, ?_⟩ <;> rw [step_quiet F hrise]
      · exact h.running
      · exact h.num
      · exact h.le
    | some edge =>
      obtain ⟨hrun, hnum, hcur⟩ := opClock_run b.device.queue edge.iDATA (hleaves a edge rfl hrise)
      have hdevice : (b.step F (.access a)).device.queue = b.device.queue.opClock edge.after edge.iDATA := by
        unfold Board.step
        simp only [hrise]
        rfl
      refine ⟨⟨?_, ?_, ?_⟩, ?_⟩ <;> rw [hdevice]
      · exact hrun.trans h.running
      · exact hnum.trans h.num
      · rw [hcur]
        exact h.le
      · rw [hcur]
  | tick =>
    obtain ⟨-, -, hrun, hnum, -⟩ := queue_clock_host b.device.queue true b.device.core.instrReady
    have hle := h.le
    have hlt := n.isLt
    have hcycle := clock_cycle b.device.core.instrReady h.running
    rw [h.num] at hcycle
    rcases hcycle with hcur | ⟨hne, hcur⟩
    · refine ⟨⟨hrun.trans h.running, hnum.trans h.num, ?_⟩, ?_⟩
      · exact Nat.le_trans (Nat.le_of_eq (congrArg BitVec.toNat hcur)) hle
      · exact Nat.le_of_eq (congrArg BitVec.toNat hcur).symm
    · have hlast : b.device.queue.curCycleIdx.toNat ≠ n.toNat := fun he => hne (BitVec.eq_of_toNat_eq he)
      have hnext := (congrArg BitVec.toNat hcur).trans (Queue.toNat_succ _ (by omega))
      refine ⟨⟨hrun.trans h.running, hnum.trans h.num, ?_⟩, ?_⟩
      · change (b.device.queue.clock true b.device.core.instrReady).curCycleIdx.toNat ≤ n.toNat
        omega
      · change _ ≤ (b.device.queue.clock true b.device.core.instrReady).curCycleIdx.toNat
        omega

theorem Armed.tick {n : BitVec 12} {b : Board QBW GBW T} (hstop : b.device.queue.pmemRunning = false)
    (hnum : b.device.queue.numCycles = n) : (b.step F .tick).Armed n := by
  obtain ⟨-, -, hrun, hn, -⟩ := queue_clock_host b.device.queue true b.device.core.instrReady
  refine ⟨hrun.trans hstop, hn.trans hnum, ?_⟩
  change (b.device.queue.clock true b.device.core.instrReady).curCycleIdx = 0
  simp [Queue.clock, hstop]

theorem Armed.step {n : BitVec 12} {b : Board QBW GBW T} {e : Event} (h : b.Armed n)
    (hquiet : ∀ a, e = .access a → b.ports.rise a = none) : (b.step F e).Armed n := by
  cases e with
  | tick => exact .tick F h.stopped h.num
  | access a =>
    constructor <;> rw [step_quiet F (hquiet a rfl)]
    · exact h.stopped
    · exact h.num
    · exact h.cur

theorem Armed.start {n : BitVec 12} {b : Board QBW GBW T} (h : b.Armed n) (hport : b.ports.iCMD = runCmd) :
    (b.step F (.access (.cmd (GPPCU_CMD_CLK ||| runCmd)))).Passing n ∧
      (b.step F (.access (.cmd (GPPCU_CMD_CLK ||| runCmd)))).device.queue.curCycleIdx = 0 := by
  have hrise : b.ports.rise (.cmd (GPPCU_CMD_CLK ||| runCmd)) =
      some ⟨runCmd, GPPCU_CMD_CLK ||| runCmd, b.ports.iDATA⟩ := by
    unfold Ports.rise
    rw [hport]
    exact if_pos (by decide)
  have hqueue : (b.step F (.access (.cmd (GPPCU_CMD_CLK ||| runCmd)))).device.queue =
      b.device.queue.opClock (GPPCU_CMD_CLK ||| runCmd) b.ports.iDATA := by
    unfold Board.step
    simp only [hrise]
    rfl
  refine ⟨⟨?_, ?_, ?_⟩, ?_⟩ <;> rw [hqueue]
  · rfl
  · exact h.num
  · change b.device.queue.curCycleIdx.toNat ≤ n.toNat
    rw [h.cur]
    exact Nat.zero_le _
  · exact h.cur

theorem starts_passing {cs : List Call} {es : List Event} (hes : StartsRun cs es)
    (hcs : ∀ c ∈ cs, c.InRange) (b : Board QBW GBW T) :
    (Lib.run (step F) b es).Passing (b.device.view.serve cs).numCycles ∧
      (Lib.run (step F) b es).device.queue.curCycleIdx = 0 := by
  obtain ⟨es₁, es₂, rfl, h₁, h₂⟩ := hes
  have hrange : ∀ c ∈ cs ++ [Call.deviceCommand LPM_RUNSTOP 0], c.InRange := by
    simpa [or_imp, forall_and, Call.InRange] using hcs
  have hqueue := queue_served F (b := b) h₁ hrange
  rw [HostView.serve_append] at hqueue
  have harmed : (Lib.run (step F) b (es₁ ++ [.tick])).Armed (b.device.view.serve cs).numCycles := by
    rw [Lib.run_concat]
    exact .tick F (congrArg HostView.pmemRunning hqueue) (congrArg HostView.numCycles hqueue)
  have hquiet : Lib.Along (step F) (fun b e => ∀ a, e = .access a → b.ports.rise a = none)
      (Lib.run (step F) b (es₁ ++ [.tick])) es₂ := by
    refine Lib.along_of_inv (I := fun _ => True) (fun b e he _ => ⟨?_, trivial⟩) trivial
    rintro a rfl
    have ha : a ∈ es₂.filterMap Event.access? := List.mem_filterMap.mpr ⟨_, he, rfl⟩
    rw [h₂, List.mem_singleton] at ha
    subst ha
    exact if_neg (by simp [show ICmd.opclk runCmd = false by decide])
  have hkeeps := Lib.Along.keeps (fun b e h hq => h.step F hq) harmed hquiet
  rw [← Lib.run_append] at hkeeps
  have hport := congrArg Ports.iCMD (run_ports F (Lib.run (step F) b (es₁ ++ [.tick])) es₂)
  rw [← Lib.run_append, h₂] at hport
  have hstart := hkeeps.start F hport
  rw [← Lib.run_concat (step F)] at hstart
  simpa using hstart

/-! ## What the host reads in a run -/

def isDone (b : Board QBW GBW T) : Bool × BitVec 16 :=
  gppcuIsDone (b.step F (.access (.cmd (GPPCU_CMD_STAT <<< 24)))).datin

theorem datin_stat {b : Board QBW GBW T} (h : b.ports.iCMD = GPPCU_CMD_STAT <<< 24) :
    b.datin = b.device.queue.status := by
  unfold datin GppcuTestQueue.oDATA
  rw [h]
  exact if_pos (by decide)

theorem rise_stat (b : Board QBW GBW T) : b.ports.rise (.cmd (GPPCU_CMD_STAT <<< 24)) = none :=
  if_neg (by simp [show ICmd.opclk (GPPCU_CMD_STAT <<< 24) = false by decide])

theorem isDone_eq (b : Board QBW GBW T) : b.isDone F = gppcuIsDone b.device.queue.status := by
  unfold isDone
  rw [datin_stat rfl, step_quiet F b.rise_stat]

/-- In each state of the run, what `gppcu_is_done` says that is left is what the device has left; it
never grows; and it is 0 when every cycle is through, and only then. -/
structure Reports (b : Board QBW GBW T) (es : List Event) : Prop where
  left : Lib.Throughout (step F) (fun b => (b.isDone F).2.toNat + b.device.queue.curCycleIdx.toNat =
    b.device.queue.numCycles.toNat) b es
  falls : ∀ pre mid, pre ++ mid <+: es →
    ((Lib.run (step F) b (pre ++ mid)).isDone F).2 ≤ ((Lib.run (step F) b pre).isDone F).2
  zero : Lib.Throughout (step F) (fun b => (b.isDone F).2 = 0 ↔
    b.device.queue.curCycleIdx = b.device.queue.numCycles) b es

theorem Passing.left_iff {n : BitVec 12} {b : Board QBW GBW T} (h : b.Passing n) :
    (b.isDone F).2.toNat + b.device.queue.curCycleIdx.toNat = b.device.queue.numCycles.toNat ↔
      n.toNat / 16 = b.device.queue.curCycleIdx.toNat / 16 := by
  have hle := h.le
  rw [← h.num] at hle ⊢
  rw [isDone_eq]
  exact cyclesLeft_iff _ hle

theorem reports_iff_left {n : BitVec 12} {b : Board QBW GBW T} {es : List Event} (h : b.Passing n)
    (hcur : b.device.queue.curCycleIdx = 0) (hes : Lib.Along (step F) LeavesRun b es) :
    b.Reports F es ↔ n.toNat < 16 := by
  constructor
  · rintro hreports
    have hstart := (h.left_iff F).mp (hreports.left [] (List.nil_prefix ..))
    rw [hcur] at hstart
    change n.toNat / 16 = 0 / 16 at hstart
    omega
  · intro hlt
    have hpassing : Lib.Throughout (step F) (Passing n) b es :=
      hes.throughout (fun b e h hl => (h.step F hl).1) (fun b h => h) h
    have hleft : Lib.Throughout (step F) (fun b => (b.isDone F).2.toNat + b.device.queue.curCycleIdx.toNat =
        b.device.queue.numCycles.toNat) b es := by
      intro pre hpre
      have hle := (hpassing pre hpre).le
      exact ((hpassing pre hpre).left_iff F).mpr (by omega)
    refine ⟨hleft, ?_, ?_⟩
    · intro pre mid hmid
      have hpre := (List.prefix_append pre mid).trans hmid
      obtain ⟨rest, rfl⟩ := hmid
      have hrun := (Lib.along_append (step F) LeavesRun b pre _).mp
        ((Lib.along_append (step F) LeavesRun b (pre ++ mid) rest).mp hes).1
      have hgrows : (Lib.run (step F) b (pre ++ mid)).Passing n ∧
          (Lib.run (step F) b pre).device.queue.curCycleIdx.toNat ≤
            (Lib.run (step F) b (pre ++ mid)).device.queue.curCycleIdx.toNat := by
        rw [Lib.run_append]
        apply Lib.Along.keeps (I := fun b' : Board QBW GBW T => b'.Passing n ∧
          (Lib.run (step F) b pre).device.queue.curCycleIdx.toNat ≤ b'.device.queue.curCycleIdx.toNat) _ _ hrun.2
        · rintro b' e ⟨hp, hle⟩ hl
          obtain ⟨hp', hle'⟩ := hp.step F hl
          exact ⟨hp', Nat.le_trans hle hle'⟩
        · exact ⟨hpassing pre hpre, Nat.le_refl _⟩
      have hbefore := hleft pre hpre
      have hafter := hleft (pre ++ mid) (List.prefix_append ..)
      simp only [hgrows.1.num, (hpassing pre hpre).num] at hbefore hafter
      rw [BitVec.le_def]
      omega
    · intro pre hpre
      have hl := hleft pre hpre
      simp only at hl ⊢
      rw [← BitVec.toNat_inj, ← BitVec.toNat_inj, ← hl]
      simp

end Board

/-! ## The configurations -/

section Configurations

variable {QBW GBW T : Nat} (F : Fin T → Fpu)

theorem SwkGppcu.Dealt.cycles_iff {pp : SwkGppcu} (h : pp.Dealt) (hthr : pp.mnumthr = 24) :
    pp.cycles < 16 ↔ pp.roNumtask ≤ 1080 := by
  unfold SwkGppcu.cycles PARALLEL_CNT
  rw [h.cycle, hthr]
  omega

/-- A run of a configuration reports its progress where the configuration has no more than 1080 tasks,
which is 15 cycles, and only there. -/
theorem reports_iff {pp₀ pp : SwkGppcu} {init : List Call} {w : BitVec 8} {N : BitVec 16}
    (hinit : gppcuInitTaskParallel (gppcuInit pp₀ 24 512) w N = (pp, init)) (hw : 1 ≤ w.toNat)
    (hN : N.toNat < 512 / w.toNat * 24) {cs : List Call} (hcs : ∀ c ∈ cs, c.KeepsCount init)
    (b : Board QBW GBW T) {start es : List Event} (hstart : StartsRun (init ++ cs) start)
    (hes : Lib.Along (Board.step F) Board.LeavesRun (Lib.run (Board.step F) b start) es) :
    (Lib.run (Board.step F) b start).Reports F es ↔ N.toNat ≤ 1080 := by
  obtain ⟨h, hthr, htasks, -⟩ := gppcuInitTaskParallel_dealt hinit hw hN
  have hadjust : init = pp.adjust := by
    obtain ⟨rfl, rfl⟩ := Prod.mk.inj hinit
    rfl
  have hset : ∀ c ∈ init, c.InRange ∧
      ∀ x, c = .deviceCommand LPM_NUMCYCLE x → x = BitVec.ofNat 16 pp.cycles := by
    rw [hadjust]
    simp only [SwkGppcu.adjust, List.forall_mem_cons, Call.deviceCommand.injEq]
    refine ⟨⟨trivial, ?_⟩, ⟨trivial, ?_⟩, by simp⟩
    · rintro x ⟨hl, -⟩
      exact absurd hl (by decide)
    · rintro x ⟨-, rfl⟩
      rfl
  have hrange : ∀ c ∈ init ++ cs, c.InRange := by
    intro c hc
    rcases List.mem_append.mp hc with hc | hc
    · exact (hset c hc).1
    · exact (hcs c hc).1
  have hnum : (b.device.view.serve (init ++ cs)).numCycles = (BitVec.ofNat 16 pp.cycles).setWidth 12 := by
    rw [HostView.serve_append]
    apply HostView.serve_numCycles
    · rintro c hc x rfl
      rw [(hset _ ((hcs _ hc).2 x rfl)).2 x rfl]
    · rw [hadjust]
      rfl
  obtain ⟨hpassing, hcur⟩ := Board.starts_passing F hstart hrange b
  rw [hnum] at hpassing
  rw [Board.reports_iff_left F hpassing hcur hes, h.cycles_toNat, h.cycles_iff hthr, htasks]

def startEvents (init : List Call) : List Event :=
  ((init ++ [Call.deviceCommand LPM_RUNSTOP 0]).flatMap Call.accesses).map .access ++
    .tick :: [.access (.cmd runCmd)] ++ [.access (.cmd (GPPCU_CMD_CLK ||| runCmd))]

theorem startsRun_startEvents (init : List Call) : StartsRun init (startEvents init) := by
  exact ⟨_, [.access (.cmd runCmd)], rfl, Event.filterMap_access _, rfl⟩

theorem reports_thousand : (Lib.run (Board.step fun _ => anyFpu) idleBoard
    (startEvents (gppcuInitTaskParallel (gppcuInit ⟨0, 0, 0, 0, 0, 0⟩ 24 512) 1 1000).2)).Reports
      (fun _ => anyFpu) (List.replicate 1000 .tick) := by
  have hinit : gppcuInitTaskParallel (gppcuInit ⟨0, 0, 0, 0, 0, 0⟩ 24 512) 1 1000 =
      (_, (gppcuInitTaskParallel (gppcuInit ⟨0, 0, 0, 0, 0, 0⟩ 24 512) 1 1000).2) := rfl
  have hnone : ∀ c ∈ ([] : List Call), c.KeepsCount
      (gppcuInitTaskParallel (gppcuInit ⟨0, 0, 0, 0, 0, 0⟩ 24 512) 1 1000).2 := by simp
  refine (reports_iff (fun _ => anyFpu) hinit (by decide) (by decide) hnone idleBoard
    (startsRun_startEvents _) ?_).mpr (by decide)
  refine Lib.along_of_inv (I := fun _ => True) (fun b e he _ => ⟨?_, trivial⟩) trivial
  rintro a edge rfl
  cases List.eq_of_mem_replicate he

def sixteenCycles : SwkGppcu × List Call := gppcuInitTaskParallel (gppcuInit ⟨0, 0, 0, 0, 0, 0⟩ 24 512) 1 1081

/-- The host reads that nothing is left at the start of the run, and 65535 cycles behind the first. -/
theorem not_reports : (1081 : BitVec 16).toNat < 512 / (1 : BitVec 8).toNat * 24 ∧
    StartsRun sixteenCycles.2 (startEvents sixteenCycles.2) ∧
    (Lib.run (Board.step fun _ => anyFpu) idleBoard
      (startEvents sixteenCycles.2 ++ [.tick])).device.queue.curCycleIdx = 1 ∧
    ((Lib.run (Board.step fun _ => anyFpu) idleBoard
      (startEvents sixteenCycles.2 ++ [.tick])).isDone fun _ => anyFpu).2 = 65535 ∧
    ¬(Lib.run (Board.step fun _ => anyFpu) idleBoard (startEvents sixteenCycles.2)).Reports
      (fun _ => anyFpu) [] := by
  refine ⟨by decide, startsRun_startEvents _, by decide +kernel, by decide +kernel, fun h => ?_⟩
  have hleft := h.left [] (List.nil_prefix ..)
  revert hleft
  decide +kernel

end Configurations

end Gppcu
