import Gppcu.Queue.Device
import Gppcu.Queue.Feed

/-!
# The device refines the one without time

On every clock the device either waits for the FPU or does the next step of the
feeder. How long it waits is known as soon as a word comes to exec.
-/

namespace Gppcu

open Instr

/-! ## The clocks of delay -/

namespace Core

variable {T : Nat}

/-- The clocks that an FPU word holds the pipeline: from `IDLE` through `BUSY` to `DONE`. -/
def delayOf (F : Fpu) (w : Word) : Nat := if isFp w then F.latency (cw w).fpuN + 3 else 0

namespace Pipe

variable {F : Fpu} {s : Core T} {st : Stages} {M : Fin T → Machine Reg}

theorem delay_iff_wait (h : Pipe F s st M) (k : Fin T) : s.onCalculationDelay = true ↔ wait F s k ≠ 0 := by
  rw [(h.sim k).lockstep.delay_eq k, Thread.fpBusy]
  unfold wait
  cases hs : (s.threads k).fpStage with
  | idle => cases s.ctl.validExec <;> simp
  | done => simp
  | run =>
    obtain ⟨hve, hfp⟩ := h.fp_of_stage k (by simp [hs])
    simp [hve, h.shows.fpOp hve, hfp]
  | busy =>
    obtain ⟨hve, hfp⟩ := h.fp_of_stage k (by simp [hs])
    have hel := h.elapsed k hs
    simp only [hve, h.shows.fpOp hve, hfp, Bool.true_and, Bool.and_true, bne_iff_ne, ne_eq,
      reduceCtorEq, not_false_eq_true, true_iff]
    omega

theorem wait_idle (h : Pipe F s st M) (k : Fin T) (hs : (s.threads k).fpStage = .idle) :
    wait F s k = delayOf F st.e := by
  unfold wait delayOf
  rw [hs, h.shows.exec]
  by_cases hve : s.ctl.validExec = true
  · simp [hve, h.shows.cwExec hve, isFp]
  · simp only [hve, Bool.false_and, Bool.false_eq_true, if_false]
    rw [if_neg (by simp [show isFp 0#32 = false from zero_isFp])]

theorem wait_one (h : Pipe F s st M) (k : Fin T) (hd : s.onCalculationDelay = true) (i : Inputs)
    (hr : i.inRST = true) : wait F (s.clock (fun _ => F) i) k + 1 = wait F s k := by
  have hb : (s.threads k).fpBusy s.ctl = true := by
    rw [← (h.sim k).lockstep.delay_eq k, hd]
  obtain ⟨hve, hst, hfp⟩ : s.ctl.validExec = true ∧ (s.threads k).fpStage ≠ .done ∧
      s.ctl.cwExec.fpOp = true := by
    simpa [Thread.fpBusy, and_assoc] using hb
  have hcw : (s.clock (fun _ => F) i).ctl.cwExec = s.ctl.cwExec := by
    simp [clock, Ctl.clock, hd, Ctl.dataStallDecode]
  unfold wait
  rw [hcw]
  cases hs : (s.threads k).fpStage with
  | idle => simp [hr, hs, hve, hfp]
  | run => simp [hr, hs, Thread.fpuElapsed]
  | busy =>
    have hel := h.elapsed k hs
    by_cases hdone : (s.threads k).fpDone F s.ctl = true
    · have heq : (s.threads k).fpuElapsed = F.latency s.ctl.cwExec.fpuN := by
        simpa [Thread.fpDone] using hdone
      simp [hr, hs, hdone, heq]
    · have hne : (s.threads k).fpuElapsed ≠ F.latency s.ctl.cwExec.fpuN := by
        simpa [Thread.fpDone] using hdone
      simp [hr, hs, hdone, Thread.fpuElapsed] at hne hel ⊢
      omega
  | done => exact absurd hs hst

end Pipe

end Core

namespace GppcuTestQueue

variable {QBW GBW T : Nat} (F : Fpu) (q₀ : Queue QBW GBW) (k₀ : Fin T)

/-- Before a word the supply logic waits for the core; at the end of a pass it does not. -/
def cost (x : Feeder T) : Nat :=
  match x.place with
  | .pass _ (_ :: _) | .done _ => Core.delayOf F x.stages.e - x.waited
  | .pass _ [] | .last => 0

/-- No more words come, and those that were taken are `j` clocks on. -/
structure Flushed (c : Ctl) (j : Nat) : Prop where
  fetch : 1 ≤ j → c.validFetch = false
  decode : 2 ≤ j → c.validDecode = false
  exec : 3 ≤ j → c.validExec = false
  writeback : 4 ≤ j → c.validWriteback = false

/-- Where the supply logic is when the feeder is at `x`, and how many clocks it waits there. -/
inductive Placed (x : Feeder T) (d : GppcuTestQueue QBW GBW T) : Nat → Prop
  | pass {i p c : Nat} : x.place = .pass c (q₀.words.drop p) → x.lag = q₀.presented i p →
      Queue.At q₀ d.queue i p
        (decide (x.waited + Core.Pipe.wait F d.core k₀ < Core.delayOf F x.stages.e)) →
      i + c + 1 = q₀.numCycles.toNat → p < q₀.pmemEnd.toNat → x.waited ≤ 1 →
      Placed x d (Core.Pipe.wait F d.core k₀)
  | wrap {i c : Nat} : x.place = .pass c [] → Queue.At q₀ d.queue i q₀.pmemEnd.toNat false →
      i + c + 1 = q₀.numCycles.toNat → x.waited = 0 →
      Core.Pipe.wait F d.core k₀ = Core.delayOf F x.stages.e → Placed x d 0
  | last : x.place = .last → x.lag = q₀.presented q₀.numCycles.toNat 0 →
      Queue.At q₀ d.queue q₀.numCycles.toNat 0 false → x.waited ≤ 1 →
      x.waited + Core.Pipe.wait F d.core k₀ = Core.delayOf F x.stages.e → Placed x d 0
  | done {j : Nat} : x.place = .done j → d.queue.pmemRunning = true → d.queue.programDone = true →
      d.queue.curCycleIdx = d.queue.numCycles → Flushed d.core.ctl j →
      Placed x d (Core.Pipe.wait F d.core k₀)

structure Feeds (x : Feeder T) (n : Nat) (d : GppcuTestQueue QBW GBW T) : Prop where
  pipe : Core.Pipe F d.core x.stages x.machines
  constant : Constant q₀ d
  ofst : d.queue.curTaskOfst = x.ofst
  safe : x.Safe q₀
  waits : x.waited + Core.Pipe.wait F d.core k₀ ≤ Core.delayOf F x.stages.e
  placed : Placed F q₀ k₀ x d n

variable {F q₀ k₀} {x : Feeder T} {n : Nat} {d : GppcuTestQueue QBW GBW T}

theorem Flushed.held {c : Ctl} {j : Nat} (h : Flushed c j) (w : Word) (v : Bool) :
    Flushed (c.clock true w v true) j := by
  have hst : c.dataStallDecode true = true := by simp [Ctl.dataStallDecode]
  constructor
  · intro hj
    simpa [Ctl.clock, hst] using h.fetch hj
  · intro hj
    simpa [Ctl.clock, hst] using h.decode hj
  · intro hj
    simpa [Ctl.clock, hst] using h.exec hj
  · intro _
    simp [Ctl.clock]

theorem Flushed.moved {c : Ctl} {j : Nat} (h : Flushed c j) (hu : c.canUseReg = true) (w : Word) :
    Flushed (c.clock true w false false) (j + 1) := by
  have hst : c.dataStallDecode false = false := by simp [Ctl.dataStallDecode, hu]
  constructor
  · intro _
    simp [Ctl.clock, hst]
  · intro hj
    simpa [Ctl.clock, hst] using h.fetch (by omega)
  · intro hj
    simpa [Ctl.clock, hst] using h.decode (by omega)
  · intro hj
    simpa [Ctl.clock] using h.exec (by omega)

theorem supply_clock (G : Fin T → Fpu) (d : GppcuTestQueue QBW GBW T) : (d.clock G).queue =
    (d.queue.clock true d.core.instrReady).gmemClock (d.posedge G).core.ctl.gmemAddr := rfl

namespace Feeds

theorem no_delay (h : Feeds F q₀ k₀ x n d) (hw : Core.Pipe.wait F d.core k₀ = 0) :
    d.core.onCalculationDelay = false := by
  rw [← Bool.not_eq_true, h.pipe.delay_iff_wait k₀, hw]
  simp

theorem moved (h : Feeds F q₀ k₀ x n d) (hw : Core.Pipe.wait F d.core k₀ = 0) (u : Word)
    (hu : (if d.queue.instrValid then d.queue.program else 0) = u) :
    Core.Pipe F (d.clock fun _ => F).core (x.move F q₀ u).stages (x.move F q₀ u).machines ∧
      Core.Pipe.wait F (d.clock fun _ => F).core k₀ = Core.delayOf F (x.move F q₀ u).stages.e ∧
      d.core.instrReady = true := by
  have hc := h.safe.clear
  have hd := h.no_delay hw
  obtain ⟨hpipe, hidle⟩ := h.pipe.moved hc hd
    ⟨true, d.queue.program, d.queue.instrValid, d.queue.iGmemWdata d.core.ctl.gmemAddr⟩ rfl
  have hmach : (fun k => Machine.execWith F id (d.queue.iGmemWdata d.core.ctl.gmemAddr) x.stages.d
      (x.machines k)) = (x.move F q₀ u).machines := by
    funext k
    rw [h.constant.execWith F q₀ h.pipe, answer, h.ofst]
    rfl
  have hpipe' : Core.Pipe F (d.clock fun _ => F).core (x.move F q₀ u).stages (x.move F q₀ u).machines := by
    rw [← hmach, ← hu]
    exact hpipe
  refine ⟨hpipe', hpipe'.wait_idle k₀ (hidle k₀), ?_⟩
  rw [h.pipe.instrReady hc, hd, Bool.not_false]

theorem held (h : Feeds F q₀ k₀ x n d) (hw : Core.Pipe.wait F d.core k₀ ≠ 0) :
    Core.Pipe F (d.clock fun _ => F).core x.stages x.machines ∧
      Core.Pipe.wait F (d.clock fun _ => F).core k₀ + 1 = Core.Pipe.wait F d.core k₀ ∧
      d.core.instrReady = false := by
  have hc := h.safe.clear
  have hd : d.core.onCalculationDelay = true := (h.pipe.delay_iff_wait k₀).mpr hw
  refine ⟨h.pipe.held hc hd _ rfl, h.pipe.wait_one k₀ hd _ rfl, ?_⟩
  rw [h.pipe.instrReady hc, hd, Bool.not_true]

theorem passed (h : Feeds F q₀ k₀ x n d) (u : Word) (hw1 : x.waited ≤ 1)
    (hu : isFp x.stages.e = false → (if d.queue.instrValid then d.queue.program else 0) = u)
    (hfresh : x.waited + Core.Pipe.wait F d.core k₀ = Core.delayOf F x.stages.e) :
    Core.Pipe F (d.clock fun _ => F).core (x.pass F q₀ u).stages (x.pass F q₀ u).machines ∧
      (x.pass F q₀ u).waited + Core.Pipe.wait F (d.clock fun _ => F).core k₀ =
        Core.delayOf F (x.pass F q₀ u).stages.e := by
  by_cases hfp : isFp x.stages.e = true
  · have hw : Core.Pipe.wait F d.core k₀ ≠ 0 := by
      rw [Core.delayOf, if_pos hfp] at hfresh
      omega
    obtain ⟨hpipe, hone, -⟩ := h.held hw
    rw [Feeder.pass_of_fp u hfp]
    refine ⟨hpipe, ?_⟩
    change x.waited + 1 + _ = Core.delayOf F x.stages.e
    omega
  · rw [Bool.not_eq_true] at hfp
    have hw : Core.Pipe.wait F d.core k₀ = 0 := by
      rw [Core.delayOf, if_neg (by simp [hfp])] at hfresh
      omega
    obtain ⟨hpipe, hwait, -⟩ := h.moved hw u (hu hfp)
    rw [Feeder.pass_of_not_fp u hfp]
    refine ⟨hpipe, ?_⟩
    rw [hwait]
    exact Nat.zero_add _

theorem pass_waited (hz : x.waited = 0) (u : Word) : (x.pass F q₀ u).waited ≤ 1 := by
  unfold Feeder.pass
  split_ifs
  · exact Nat.le_of_eq (by simp [hz])
  · exact Nat.zero_le _

end Feeds

/-! ## One clock -/

theorem Placed.arrive {i p c : Nat} (hplace : x.place = .pass c (q₀.words.drop p))
    (hlag : x.lag = q₀.presented i p) (hat : Queue.At q₀ d.queue i p false)
    (hic : i + c + 1 = q₀.numCycles.toNat) (hend : p = q₀.pmemEnd.toNat → x.waited = 0)
    (hw : x.waited ≤ 1)
    (hfresh : x.waited + Core.Pipe.wait F d.core k₀ = Core.delayOf F x.stages.e) :
    Placed F q₀ k₀ x d (cost F x) := by
  have hbound := hat.bound
  by_cases hp : p < q₀.pmemEnd.toNat
  · have hcost : cost F x = Core.Pipe.wait F d.core k₀ := by
      unfold cost
      rw [hplace, Queue.words_drop q₀ hp]
      simp only
      omega
    rw [hcost]
    refine .pass hplace hlag ?_ hic hp hw
    rwa [decide_eq_false (by omega)]
  · have hpe : p = q₀.pmemEnd.toNat := by omega
    have hnil : q₀.words.drop p = [] := List.drop_of_length_le (by rw [Queue.words_length]; omega)
    rw [hnil] at hplace
    have hcost : cost F x = 0 := by
      unfold cost
      rw [hplace]
    rw [hcost]
    have hz := hend hpe
    refine .wrap hplace (hpe ▸ hat) hic hz (by omega)

theorem Placed.nextPass {i c : Nat} (hpos : 0 < q₀.pmemEnd.toNat)
    (hplace : x.place = Feeder.nextPass q₀ c) (hlag : x.lag = q₀.presented i 0)
    (hat : Queue.At q₀ d.queue i 0 false) (hic : i + c = q₀.numCycles.toNat) (hw : x.waited ≤ 1)
    (hfresh : x.waited + Core.Pipe.wait F d.core k₀ = Core.delayOf F x.stages.e) :
    Placed F q₀ k₀ x d (cost F x) := by
  cases c with
  | zero =>
    obtain rfl : i = q₀.numCycles.toNat := by omega
    have hcost : cost F x = 0 := by
      unfold cost
      rw [hplace]
      rfl
    rw [hcost]
    exact .last hplace hlag hat hw hfresh
  | succ c =>
    exact .arrive (c := c) (p := 0) hplace hlag hat (by omega) (fun he => by omega) hw hfresh

namespace Feeds

theorem hold (h : Feeds F q₀ k₀ x (n + 1) d) : Feeds F q₀ k₀ x n (d.clock fun _ => F) := by
  have hplaced := h.placed
  generalize hn : n + 1 = m at hplaced
  cases hplaced with
  | wrap => cases hn
  | last => cases hn
  | @pass i p c hplace hlag hat hic hp hw =>
    obtain ⟨hpipe, hone, hready⟩ := h.held (by omega)
    have hwaits := h.waits
    have hnot : i ≠ q₀.numCycles.toNat := by omega
    refine ⟨hpipe, h.constant.clock _ _, ?_, h.safe, by omega, ?_⟩
    · rw [← h.ofst, supply_clock]
      change (d.queue.clock true d.core.instrReady).curTaskOfst = _
      rw [Queue.clock_next _ hat.running (by rwa [ne_eq, hat.cycle_iff]) (hat.lt_iff.mpr hp)]
    · rw [show n = Core.Pipe.wait F (d.clock fun _ => F).core k₀ by omega]
      refine .pass hplace hlag ?_ hic hp hw
      rw [decide_eq_true (by omega), supply_clock, hready]
      exact Follows.at_negedge (hat.hold hnot hp) _
  | @done j hplace hrun hdone hcyc hfl =>
    obtain ⟨hpipe, hone, -⟩ := h.held (by omega)
    have hwaits := h.waits
    have hd : d.core.onCalculationDelay = true := (h.pipe.delay_iff_wait k₀).mpr (by omega)
    have hq := Queue.clock_last d.core.instrReady hrun hcyc
    refine ⟨hpipe, h.constant.clock _ _, ?_, h.safe, by omega, ?_⟩
    · rw [← h.ofst, supply_clock, hq]
      rfl
    · rw [show n = Core.Pipe.wait F (d.clock fun _ => F).core k₀ by omega]
      refine .done hplace ?_ ?_ ?_ ?_
      · rw [supply_clock, hq]
        exact hrun
      · rw [supply_clock, hq]
        rfl
      · rw [supply_clock, hq]
        exact hcyc
      · change Flushed (d.core.ctl.clock true _ _ d.core.onCalculationDelay) j
        rw [hd]
        exact hfl.held _ _

theorem take (h : Feeds F q₀ k₀ x 0 d) {i p c : Nat} (hplace : x.place = .pass c (q₀.words.drop p))
    (hlag : x.lag = q₀.presented i p) (hat : Queue.At q₀ d.queue i p
      (decide (x.waited + Core.Pipe.wait F d.core k₀ < Core.delayOf F x.stages.e)))
    (hic : i + c + 1 = q₀.numCycles.toNat) (hp : p < q₀.pmemEnd.toNat) (hw : x.waited ≤ 1)
    (hzero : Core.Pipe.wait F d.core k₀ = 0) :
    Feeds F q₀ k₀ (x.step F q₀) (cost F (x.step F q₀)) (d.clock fun _ => F) := by
  have hnot : i ≠ q₀.numCycles.toNat := by omega
  -- The word on the bus: the FPU has held the pipeline while the read register caught up.
  have hu : (if d.queue.instrValid then d.queue.program else 0) =
      if isFp x.stages.e then q₀.word p else x.lag := by
    rw [if_pos (hat.instrValid.mpr hp), hat.program, hzero, hlag, Core.delayOf]
    by_cases hfp : isFp x.stages.e = true
    · rw [if_pos hfp, if_pos hfp, if_pos (decide_eq_true (by omega))]
    · simp [hfp]
  have hstep : x.step F q₀ = { x.move F q₀ (if isFp x.stages.e then q₀.word p else x.lag) with
      place := .pass c (q₀.words.drop (p + 1)), lag := q₀.word p } := by
    unfold Feeder.step
    rw [hplace, Queue.words_drop q₀ hp]
  obtain ⟨hpipe, hwait, hready⟩ := h.moved hzero _ hu
  have hsafe := (Feeder.step_keeps (F := F) h.safe).1
  rw [hstep] at hsafe ⊢
  refine ⟨hpipe, h.constant.clock _ _, ?_, hsafe, ?_, ?_⟩
  · change _ = x.ofst
    rw [← h.ofst, supply_clock]
    change (d.queue.clock true d.core.instrReady).curTaskOfst = _
    rw [Queue.clock_next _ hat.running (by rwa [ne_eq, hat.cycle_iff]) (hat.lt_iff.mpr hp)]
  · exact Nat.le_of_eq ((Nat.zero_add _).trans hwait)
  · refine Placed.arrive (i := i) (p := p + 1) rfl ?_ ?_ hic (fun _ => rfl) (Nat.zero_le _)
      ((Nat.zero_add _).trans hwait)
    · simp [Queue.presented]
    · rw [supply_clock, hready]
      exact Follows.at_negedge (hat.take hnot hp) _

theorem wrap (h : Feeds F q₀ k₀ x 0 d) (hpos : 0 < q₀.pmemEnd.toNat) {i c : Nat}
    (hplace : x.place = .pass c []) (hat : Queue.At q₀ d.queue i q₀.pmemEnd.toNat false)
    (hic : i + c + 1 = q₀.numCycles.toNat) (hw : x.waited = 0)
    (hfresh : Core.Pipe.wait F d.core k₀ = Core.delayOf F x.stages.e) :
    Feeds F q₀ k₀ (x.step F q₀) (cost F (x.step F q₀)) (d.clock fun _ => F) := by
  have hnot : i ≠ q₀.numCycles.toNat := by omega
  have hinvalid : d.queue.instrValid = false := by
    rw [← Bool.not_eq_true, hat.instrValid]
    omega
  have hstep : x.step F q₀ = { x.pass F q₀ 0 with
      place := Feeder.nextPass q₀ c
      lag := q₀.word q₀.pmemEnd.toNat
      ofst := x.ofst + q₀.szPerTask } := by
    unfold Feeder.step
    rw [hplace]
  obtain ⟨hpipe, hfresh'⟩ := h.passed 0 (by omega) (fun _ => by rw [hinvalid]; rfl) (by omega)
  have hsafe := (Feeder.step_keeps (F := F) h.safe).1
  rw [hstep] at hsafe ⊢
  refine ⟨hpipe, h.constant.clock _ _, ?_, hsafe, Nat.le_of_eq hfresh', ?_⟩
  · change _ = x.ofst + _
    rw [← h.ofst, supply_clock, ← h.constant.sz]
    change (d.queue.clock true d.core.instrReady).curTaskOfst = _
    rw [Queue.clock_wrap _ hat.running (by rwa [ne_eq, hat.cycle_iff]) (by rw [hat.lt_iff]; omega)]
  · refine Placed.nextPass (i := i + 1) hpos rfl ?_ ?_ (by omega) (pass_waited hw 0) hfresh'
    · simp [Queue.presented]
    · exact Follows.at_negedge (hat.wrap hnot (by omega) _) _

theorem finish (h : Feeds F q₀ k₀ x 0 d) (hpos : 0 < q₀.pmemEnd.toNat) (hplace : x.place = .last)
    (hlag : x.lag = q₀.presented q₀.numCycles.toNat 0)
    (hat : Queue.At q₀ d.queue q₀.numCycles.toNat 0 false) (hw : x.waited ≤ 1)
    (hfresh : x.waited + Core.Pipe.wait F d.core k₀ = Core.delayOf F x.stages.e) :
    Feeds F q₀ k₀ (x.step F q₀) (cost F (x.step F q₀)) (d.clock fun _ => F) := by
  have hvalid : d.queue.instrValid = true := hat.instrValid.mpr hpos
  have hstep : x.step F q₀ = { x.pass F q₀ x.lag with place := .done 0 } := by
    unfold Feeder.step
    rw [hplace]
  have hcyc : d.queue.curCycleIdx = d.queue.numCycles := hat.cycle_iff.mpr rfl
  have hq := Queue.clock_last d.core.instrReady hat.running hcyc
  obtain ⟨hpipe, hfresh'⟩ := h.passed x.lag hw (fun _ => by rw [if_pos hvalid, hat.program, hlag]; rfl)
    hfresh
  have hsafe := (Feeder.step_keeps (F := F) h.safe).1
  rw [hstep] at hsafe ⊢
  refine ⟨hpipe, h.constant.clock _ _, ?_, hsafe, Nat.le_of_eq hfresh', ?_⟩
  · change _ = (x.pass F q₀ x.lag).ofst
    rw [Feeder.pass_ofst, ← h.ofst, supply_clock, hq]
    rfl
  · have hcost : cost F ({ x.pass F q₀ x.lag with place := .done 0 } : Feeder T) =
        Core.Pipe.wait F (d.clock fun _ => F).core k₀ := by
      simp only [cost]
      omega
    rw [hcost]
    refine .done rfl ?_ ?_ ?_ ⟨by omega, by omega, by omega, by omega⟩
    · rw [supply_clock, hq]
      exact hat.running
    · rw [supply_clock, hq]
      rfl
    · rw [supply_clock, hq]
      exact hcyc

theorem flush (h : Feeds F q₀ k₀ x 0 d) {j : Nat} (hplace : x.place = .done j)
    (hrun : d.queue.pmemRunning = true) (hdone : d.queue.programDone = true)
    (hcyc : d.queue.curCycleIdx = d.queue.numCycles) (hfl : Flushed d.core.ctl j)
    (hzero : Core.Pipe.wait F d.core k₀ = 0) :
    Feeds F q₀ k₀ (x.step F q₀) (cost F (x.step F q₀)) (d.clock fun _ => F) := by
  have hinvalid : d.queue.instrValid = false := by simp [Queue.instrValid, hdone]
  have hstep : x.step F q₀ = { x.move F q₀ 0 with place := .done (j + 1) } := by
    unfold Feeder.step
    rw [hplace]
  have hq := Queue.clock_last d.core.instrReady hrun hcyc
  obtain ⟨hpipe, hwait, -⟩ := h.moved hzero 0 (by rw [hinvalid]; rfl)
  have hsafe := (Feeder.step_keeps (F := F) h.safe).1
  rw [hstep] at hsafe ⊢
  refine ⟨hpipe, h.constant.clock _ _, ?_, hsafe, Nat.le_of_eq ((Nat.zero_add _).trans hwait), ?_⟩
  · change _ = x.ofst
    rw [← h.ofst, supply_clock, hq]
    rfl
  · have hcost : cost F ({ x.move F q₀ 0 with place := .done (j + 1) } : Feeder T) =
        Core.Pipe.wait F (d.clock fun _ => F).core k₀ := hwait.symm
    rw [hcost]
    refine .done rfl ?_ ?_ ?_ ?_
    · rw [supply_clock, hq]
      exact hrun
    · rw [supply_clock, hq]
      rfl
    · rw [supply_clock, hq]
      exact hcyc
    · change Flushed (d.core.ctl.clock true _ d.queue.instrValid d.core.onCalculationDelay) (j + 1)
      rw [hinvalid, h.no_delay hzero]
      exact hfl.moved (h.pipe.canUseReg h.safe.clear) _

end Feeds

theorem stutters (k₀ : Fin T) (hpos : 0 < q₀.pmemEnd.toNat) :
    Lib.Stutters (Feeder.step F q₀) (clock fun _ => F) (cost F) (Feeds F q₀ k₀) where
  hold _ _ _ h := h.hold
  move x d h := by
    have hplaced := h.placed
    generalize hn : 0 = m at hplaced
    cases hplaced with
    | pass hplace hlag hat hic hp hw => exact h.take hplace hlag hat hic hp hw hn.symm
    | wrap hplace hat hic hw hfresh => exact h.wrap hpos hplace hat hic hw hfresh
    | last hplace hlag hat hw hfresh => exact h.finish hpos hplace hlag hat hw hfresh
    | done hplace hrun hdone hcyc hfl => exact h.flush hplace hrun hdone hcyc hfl hn.symm

/-! ## The whole run -/

def feeder (d : GppcuTestQueue QBW GBW T) : Feeder T :=
  ⟨Feeder.nextPass d.queue d.queue.numCycles.toNat, d.queue.word 0, 0, 0, Stages.empty, d.core.arch⟩

theorem feeds_start (hs : d.queue.Started) (hreset : d.core.AfterReset) (hpos : 0 < d.queue.pmemEnd.toNat)
    (hsafe : SafeFrom d.queue d.queue.numCycles.toNat Stages.empty (d.queue.word 0)) :
    Feeds F d.queue k₀ (feeder d) (cost F (feeder d)) d := by
  have hpipe := hreset.pipe F
  have hwait : Core.Pipe.wait F d.core k₀ = 0 := by
    rw [hpipe.wait_idle k₀ (hreset.fpStage k₀)]
    rfl
  have hfresh : (feeder d).waited + Core.Pipe.wait F d.core k₀ =
      Core.delayOf F (feeder d).stages.e := by
    rw [hwait]
    exact (if_neg (by simp [feeder, Stages.empty, show isFp 0#32 = false from zero_isFp])).symm
  refine ⟨hpipe, ⟨rfl, rfl, fun hv => ?_⟩, hs.ofst, Feeder.safe_nextPass rfl rfl hsafe rfl,
    Nat.le_of_eq hfresh, ?_⟩
  · rw [hreset.decode] at hv
    cases hv
  · exact Placed.nextPass hpos rfl (by simp [feeder, Queue.presented]) hs.at (Nat.zero_add _) (Nat.zero_le _)
      hfresh

theorem feeder_left (d : GppcuTestQueue QBW GBW T) : Feeder.stepsLeft d.queue (feeder d).place =
    d.queue.numCycles.toNat * (d.queue.pmemEnd.toNat + 1) + 1 := by
  rw [← Queue.words_length]
  exact Feeder.stepsLeft_nextPass _

theorem feeder_total (d : GppcuTestQueue QBW GBW T) (k : Fin T) :
    (feeder d).total F d.queue k = fedFrom F d.queue d.queue.numCycles.toNat 0 Stages.empty
      (d.queue.word 0) (d.core.arch k) := by
  rw [Feeder.total_nextPass rfl]
  congr 1
  simp only [Feeder.pending, feeder, Stages.empty, Machine.run_cons, exec_zero, Machine.run_nil]

theorem Feeds.keeps_total (h : x.Safe q₀) (n : Nat) (k : Fin T) :
    ((Feeder.step F q₀)^[n] x).total F q₀ k = x.total F q₀ k := by
  have hkeeps : ∀ y : Feeder T, y.Safe q₀ ∧ y.total F q₀ k = x.total F q₀ k →
      (y.step F q₀).Safe q₀ ∧ (y.step F q₀).total F q₀ k = x.total F q₀ k := by
    intro y hy
    have hstep := Feeder.step_keeps (F := F) hy.1
    exact ⟨hstep.1, (hstep.2 k).trans hy.2⟩
  exact (Lib.iterate_keeps hkeeps ⟨h, rfl⟩ n).2

theorem Feeds.done_iff (h : Feeds F q₀ k₀ x n d) : d.oDONE = true ↔ ∃ j, x.place = .done j := by
  have hnot : ∀ {i p held}, Queue.At q₀ d.queue i p held → ¬ d.oDONE = true := by
    intro i p held hat hd
    rw [GppcuTestQueue.oDONE, hat.done] at hd
    cases hd
  cases h.placed with
  | pass hplace _ hat => simp [hplace, hnot hat]
  | wrap hplace hat => simp [hplace, hnot hat]
  | last hplace _ hat => simp [hplace, hnot hat]
  | done hplace _ hdone => exact ⟨fun _ => ⟨_, hplace⟩, fun _ => hdone⟩

theorem Feeds.idles (h : Feeds F q₀ k₀ x n d) {j : Nat} (hplace : x.place = .done j) (hj : 4 ≤ j) :
    d.core.ctl.idling = true := by
  cases h.placed with
  | pass hp | wrap hp | last hp => rw [hp] at hplace; cases hplace
  | done hp _ _ _ hfl =>
    rw [hp, Place.done.injEq] at hplace
    subst hplace
    simp [Ctl.idling, hfl.fetch (by omega), hfl.decode (by omega), hfl.exec (by omega), hfl.writeback hj]

theorem Feeds.arch_eq (h : Feeds F q₀ k₀ x n d) (hdone : d.oDONE = true) (hi : d.core.ctl.idling = true) :
    d.core.arch = fun k => x.total F q₀ k := by
  obtain ⟨j, hplace⟩ := h.done_iff.mp hdone
  simp only [Ctl.idling, Bool.not_eq_true', Bool.or_eq_false_iff] at hi
  obtain ⟨⟨⟨hd, hf⟩, he⟩, hw⟩ := hi
  have hzd : x.stages.d = 0 := by rw [h.pipe.shows.decode, if_neg (by simp [hd])]
  have hzf : x.stages.f = 0 := by rw [h.pipe.shows.fetch, if_neg (by simp [hf])]
  funext k
  rw [(h.pipe.sim k).arch_eq F he hw]
  unfold Feeder.total
  rw [hplace]
  simp only [Feeder.pending, hzd, hzf, Machine.run_cons, exec_zero, Machine.run_nil]

/-- A device whose program nothing but the FPU stops comes to its end, whatever its program memory
holds, and then every thread has executed what the feeder takes. -/
theorem runs_fed (d : GppcuTestQueue QBW GBW T) (hT : 0 < T) (hs : d.queue.Started)
    (hreset : d.core.AfterReset) (hpos : 0 < d.queue.pmemEnd.toNat)
    (hsafe : SafeFrom d.queue d.queue.numCycles.toNat Stages.empty (d.queue.word 0)) :
    (∃ n, ((clock fun _ => F)^[n] d).oDONE = true ∧ ((clock fun _ => F)^[n] d).core.ctl.idling = true) ∧
      ∀ n, ((clock fun _ => F)^[n] d).oDONE = true → ((clock fun _ => F)^[n] d).core.ctl.idling = true →
        ((clock fun _ => F)^[n] d).core.arch = fun k => fedFrom F d.queue d.queue.numCycles.toNat 0
          Stages.empty (d.queue.word 0) (d.core.arch k) := by
  have hstart : Feeds F d.queue ⟨0, hT⟩ (feeder d) (cost F (feeder d)) d :=
    feeds_start hs hreset hpos hsafe
  have hst := stutters (F := F) ⟨0, hT⟩ hpos
  constructor
  · have hplace := Feeder.finishes (F := F) (feeder d) (by rw [feeder_left]; omega) 4
    have hfeeds := hst.arrives hstart (Feeder.stepsLeft d.queue (feeder d).place + 4)
    exact ⟨_, hfeeds.done_iff.mpr ⟨4, hplace⟩, hfeeds.idles hplace (Nat.le_refl 4)⟩
  · intro n hdone hidle
    obtain ⟨j, n', hj, -⟩ := hst.at_time hstart n
    rw [hj.arch_eq hdone hidle]
    funext k
    rw [Feeds.keeps_total hstart.safe, feeder_total]

def multiplies : GppcuTestQueue 3 1 1 where
  queue :=
    { pmem := ⟨fun k => if k = 1 then 0x8022003 else 0, 0, 0⟩
      cmem := ⟨fun _ => 0, 0, 0⟩
      pmemEnd := 4
      pmemRunning := true
      numCycles := 2
      szPerTask := 0
      pmemHead := 0
      programDone := false
      curTaskOfst := 0
      curCycleIdx := 0 }
  core := Core.blankCore

theorem multiplies_started : multiplies.queue.Started := ⟨rfl, rfl, rfl, rfl, rfl, by decide⟩

theorem multiplies_safe : SafeFrom multiplies.queue multiplies.queue.numCycles.toNat Stages.empty
    (multiplies.queue.word 0) := by decide +kernel

theorem runs_fed_multiplies : ∃ n, ((clock fun _ => anyFpu)^[n] multiplies).core.arch =
    fun k => fedFrom anyFpu multiplies.queue 2 0 Stages.empty (multiplies.queue.word 0)
      (multiplies.core.arch k) := by
  obtain ⟨⟨n, hdone, hidle⟩, h⟩ := runs_fed (F := anyFpu) multiplies (by decide) multiplies_started
    ⟨rfl, rfl, rfl, rfl, rfl, fun _ => rfl⟩ (by decide) multiplies_safe
  exact ⟨n, h n hdone hidle⟩

end GppcuTestQueue

end Gppcu
