import Gppcu.Driver.Builders
import Gppcu.Driver.Bus
import Gppcu.Queue.Clocks

/-!
# What is still in the core when the program is done

`program_done` is set from the head and the cycle counter alone. Nothing there
waits for the stages, and on the clock that sets it the queue still offers a
word.
-/

namespace Gppcu

/-! ## An idle core -/

theorem Ctl.idling_iff (c : Ctl) : c.idling = true ↔ c.validFetch = false ∧ c.validDecode = false ∧
    c.validExec = false ∧ c.validWriteback = false := by
  unfold idling
  cases c.validFetch <;> cases c.validDecode <;> cases c.validExec <;> cases c.validWriteback <;> decide

theorem Ctl.idling_clock {c : Ctl} {delay : Bool} (hdelay : delay = true → c.validExec = true)
    (iINSTR : Word) (v : Bool) : (c.clock true iINSTR v delay).idling = true ↔
      c.validFetch = false ∧ c.validDecode = false ∧ c.validExec = false ∧ v = false := by
  have hempty : c.validDecode = false → c.canUseReg = true := by
    intro hd
    simp [canUseReg, rqMask, oneHot, hd]
  rw [idling_iff]
  unfold clock canFetch dataStallDecode
  simp only [Bool.not_true, Bool.false_eq_true, if_false]
  cases delay with
  | true => simp [hdelay rfl]
  | false =>
    cases hu : c.canUseReg with
    | true =>
      simp only [Bool.not_true, Bool.or_false, Bool.false_eq_true, if_false, Bool.not_false, Bool.true_and]
      constructor
      · rintro ⟨hv, hf, hd, he⟩
        exact ⟨hf, hd, he, hv⟩
      · rintro ⟨hf, hd, he, hv⟩
        exact ⟨hv, hf, hd, he⟩
    | false =>
      have hd : c.validDecode = true := by
        by_contra hn
        rw [hempty (by simpa using hn)] at hu
        cases hu
      simp [hd]

section Quiet

variable {QBW GBW T : Nat} {d : GppcuTestQueue QBW GBW T}

theorem idle_quiet (h : d.core.ctl.idling = true) (k : Fin T) :
    d.stores k = none ∧ (d.core.threads k).wrbkWr d.core.ctl = false := by
  obtain ⟨-, -, he, hw⟩ := d.core.ctl.idling_iff.mp h
  unfold GppcuTestQueue.stores Thread.wrbkWr
  rw [he, hw]
  exact ⟨rfl, rfl⟩

theorem delay_exec {s : Core T} (h : s.onCalculationDelay = true) : s.ctl.validExec = true := by
  obtain ⟨k, hk⟩ := of_decide_eq_true h
  unfold Thread.fpBusy at hk
  rw [Bool.and_eq_true, Bool.and_eq_true] at hk
  exact hk.1.1

theorem clock_idling_iff (F : Fin T → Fpu) : (d.clock F).core.ctl.idling = true ↔
    d.core.ctl.validFetch = false ∧ d.core.ctl.validDecode = false ∧ d.core.ctl.validExec = false ∧
      d.queue.instrValid = false := Ctl.idling_clock delay_exec _ _

end Quiet

/-! ## Done and drained -/

namespace Board

variable {QBW GBW T : Nat} (F : Fin T → Fpu)

/-- When the program is done the core is idle, and no local memory and no register is written. -/
def DoneDrained (b : Board QBW GBW T) : Prop := b.device.oDONE = true →
  b.device.core.ctl.idling = true ∧
    ∀ k, b.device.stores k = none ∧ (b.device.core.threads k).wrbkWr b.device.core.ctl = false

def Finishing (b : Board QBW GBW T) : Prop := b.device.queue.pmemRunning = true ∧
  b.device.queue.programDone = false ∧ b.device.queue.curCycleIdx = b.device.queue.numCycles

/-- The clock that sets `program_done` finds no word to take, and nothing ahead of write-back. -/
def FinishesEmpty (b : Board QBW GBW T) : Event → Prop
  | .access _ => True
  | .tick => b.Finishing →
    b.device.queue.pmemHead = b.device.queue.pmemEnd ∧ b.device.core.ctl.validFetch = false ∧
      b.device.core.ctl.validDecode = false ∧ b.device.core.ctl.validExec = false

instance (b : Board QBW GBW T) : Decidable b.Finishing :=
  inferInstanceAs (Decidable (_ ∧ _ ∧ _))

instance (b : Board QBW GBW T) : (e : Event) → Decidable (b.FinishesEmpty e)
  | .access _ => .isTrue trivial
  | .tick => inferInstanceAs (Decidable (b.Finishing → _ ∧ _ ∧ _ ∧ _))

theorem doneDrained_iff {b : Board QBW GBW T} :
    b.DoneDrained ↔ (b.device.oDONE = true → b.device.core.ctl.idling = true) :=
  ⟨fun h hd => (h hd).1, fun h hd => ⟨h hd, fun k => idle_quiet (h hd) k⟩⟩

theorem access_doneDrained {b : Board QBW GBW T} (a : Access) :
    (b.step F (.access a)).DoneDrained ↔ b.DoneDrained := by
  rw [doneDrained_iff, doneDrained_iff]
  have hkeeps : (b.step F (.access a)).device.oDONE = b.device.oDONE ∧
      (b.step F (.access a)).device.core.ctl = b.device.core.ctl := by
    unfold Board.step
    cases hrise : b.ports.rise a with
    | none =>
      simp only [hrise, and_self]
    | some e =>
      simp only [hrise]
      refine ⟨?_, rfl⟩
      unfold GppcuTestQueue.oDONE GppcuTestQueue.opClock Queue.opClock
      simp only
      split_ifs <;> rfl
  rw [hkeeps.1, hkeeps.2]

theorem tick_done (b : Board QBW GBW T) : (b.step F .tick).device.oDONE =
    (b.device.queue.pmemRunning && (decide (b.device.queue.curCycleIdx = b.device.queue.numCycles) ||
      b.device.queue.programDone)) := by
  change (b.device.queue.clock true b.device.core.instrReady).programDone = _
  unfold Queue.clock
  simp only [Bool.and_true]
  split_ifs with hrun hlast <;> simp_all

theorem tick_doneDrained {b : Board QBW GBW T} (h : b.DoneDrained) :
    (b.step F .tick).DoneDrained ↔ b.FinishesEmpty .tick := by
  have hdone := tick_done F b
  have hidle : (b.step F .tick).device.core.ctl.idling = true ↔ _ := clock_idling_iff F
  rw [doneDrained_iff, hdone, hidle]
  constructor
  · rintro hdrained ⟨hrun, hnot, hlast⟩
    obtain ⟨hf, hd, he, hv⟩ := hdrained (by simp [hrun, hlast])
    refine ⟨?_, hf, hd, he⟩
    simpa [Queue.instrValid, hrun, hnot] using hv
  · rintro hempty hset
    rw [Bool.and_eq_true, Bool.or_eq_true, decide_eq_true_iff] at hset
    obtain ⟨hrun, hset⟩ := hset
    cases hnot : b.device.queue.programDone with
    | true =>
      obtain ⟨hf, hd, he, -⟩ := (Ctl.idling_iff _).mp (h hnot).1
      exact ⟨hf, hd, he, by simp [Queue.instrValid, hnot]⟩
    | false =>
      rcases hset with hlast | hset
      · obtain ⟨hhead, hf, hd, he⟩ := hempty ⟨hrun, hnot, hlast⟩
        exact ⟨hf, hd, he, by simp [Queue.instrValid, hhead]⟩
      · rw [hnot] at hset
        cases hset

/-- From a state that is not done, everything stays drained exactly as long as no clock sets
`program_done` over a word that is on its way. -/
theorem drained_iff {b : Board QBW GBW T} (hstart : b.device.oDONE = false) (es : List Event) :
    Lib.Throughout (step F) DoneDrained b es ↔ Lib.Along (step F) FinishesEmpty b es := by
  apply Lib.throughout_iff_along
  · intro b e h
    cases e with
    | tick => exact tick_doneDrained F h
    | access a =>
      rw [access_doneDrained]
      exact ⟨fun _ => trivial, fun _ => h⟩
  · intro hdone
    rw [hstart] at hdone
    cases hdone

end Board

/-! ## A program with words -/

section Words

variable {QBW GBW T : Nat} (F : Fin T → Fpu)

structure Queue.Rewinds (q : Queue QBW GBW) : Prop where
  running : q.pmemRunning = true
  words : q.pmemEnd ≠ 0
  head : q.curCycleIdx = q.numCycles → q.pmemHead = 0

theorem Queue.Rewinds.clock {q : Queue QBW GBW} (h : q.Rewinds) (instrReady : Bool) :
    (q.clock true instrReady).Rewinds := by
  by_cases hlast : q.curCycleIdx = q.numCycles
  · rw [Queue.clock_last instrReady h.running hlast]
    exact ⟨h.running, h.words, h.head⟩
  by_cases hhead : q.pmemHead < q.pmemEnd
  · rw [Queue.clock_next instrReady h.running hlast hhead]
    exact ⟨h.running, h.words, fun he => absurd he hlast⟩
  · rw [Queue.clock_wrap instrReady h.running hlast hhead]
    exact ⟨h.running, h.words, fun _ => rfl⟩

/-- The clock that sets `program_done` for a program with words leaves one of them in the core. -/
theorem done_not_idle {d : GppcuTestQueue QBW GBW T} (hs : d.queue.Started) (hend : d.queue.pmemEnd ≠ 0)
    {n : Nat} (hbefore : ((GppcuTestQueue.clock F)^[n] d).oDONE = false)
    (hdone : ((GppcuTestQueue.clock F)^[n + 1] d).oDONE = true) :
    ((GppcuTestQueue.clock F)^[n + 1] d).core.ctl.idling = false := by
  have hrewinds : ((GppcuTestQueue.clock F)^[n] d).queue.Rewinds := by
    refine Lib.iterate_keeps (I := fun d : GppcuTestQueue QBW GBW T => d.queue.Rewinds) (fun d h => ?_)
      ⟨hs.running, hend, fun _ => hs.head⟩ n
    have hclock := h.clock d.core.instrReady
    exact ⟨hclock.running, hclock.words, hclock.head⟩
  rw [Function.iterate_succ_apply'] at hdone ⊢
  generalize (GppcuTestQueue.clock F)^[n] d = d' at *
  have hset := Board.tick_done F ⟨⟨0, 0⟩, d'⟩
  change (d'.clock F).oDONE = _ at hset
  rw [hdone, show d'.queue.programDone = false from hbefore] at hset
  have hlast : d'.queue.curCycleIdx = d'.queue.numCycles := by
    simpa [hrewinds.running] using hset.symm
  have hvalid : d'.queue.instrValid = true := by
    have hne : (0 : BitVec QBW) ≠ d'.queue.pmemEnd := Ne.symm hrewinds.words
    have hnot : d'.queue.programDone = false := hbefore
    simp only [Queue.instrValid, hrewinds.running, hnot, hrewinds.head hlast, Bool.not_false,
      Bool.true_and, bne_iff_ne]
    exact hne
  by_contra hidle
  rw [Bool.not_eq_false] at hidle
  obtain ⟨-, -, -, hv⟩ := (clock_idling_iff F).mp hidle
  rw [hvalid] at hv
  cases hv

end Words

/-! ## How long it is there -/

namespace GppcuTestQueue

section Left

variable {QBW GBW T : Nat} (F : Fpu) (q₀ : Queue QBW GBW) {x : Feeder T}

theorem step_flushed {j : Nat} (hx : x.place = .done j) :
    (x.step F q₀).place = .done (j + 1) ∧ (x.step F q₀).stages = x.stages.take 0 := by
  unfold Feeder.step
  rw [hx]
  exact ⟨rfl, rfl⟩

variable {F}

theorem cost_flushed {L : Nat} (hL : ∀ n, F.latency n ≤ L) {j : Nat} (hx : x.place = .done j) :
    cost F x ≤ if isFp x.stages.e then L + 3 else 0 := by
  unfold cost Core.delayOf
  rw [hx]
  split_ifs
  · exact Nat.le_trans (Nat.sub_le _ _) (Nat.add_le_add_right (hL _) 3)
  · exact Nat.sub_le _ _

theorem clocks_flushed {L : Nat} (hL : ∀ n, F.latency n ≤ L) (hx : x.place = .done 0) :
    Lib.clocks (Feeder.step F q₀) (cost F) 4 x ≤ 3 * (L + 3) + 4 := by
  have h1 := step_flushed F q₀ hx
  have h2 := step_flushed F q₀ h1.1
  have h3 := step_flushed F q₀ h2.1
  have hcost : ∀ {y : Feeder T} {j : Nat}, y.place = .done j → cost F y ≤ L + 3 := by
    intro y j hy
    refine Nat.le_trans (cost_flushed hL hy) ?_
    split_ifs
    · exact Nat.le_refl _
    · exact Nat.zero_le _
  have hlast := cost_flushed hL h3.1
  have hnop : ((((x.step F q₀).step F q₀).step F q₀).stages.e) = 0 := by rw [h3.2, h2.2, h1.2]; rfl
  rw [hnop, show isFp 0 = false from zero_isFp] at hlast
  have hzero := hcost hx
  have hone := hcost h1.1
  have htwo := hcost h2.1
  simp only [Lib.clocks, Bool.false_eq_true, if_false] at hlast ⊢
  omega

/-- A run that is done has a word in the core still, and after the delay of three words and four
clocks nothing is written any more. -/
theorem drains_within (F : Fpu) {L : Nat} (hL : ∀ n, F.latency n ≤ L) (d : GppcuTestQueue QBW GBW T) (hT : 0 < T)
    (hs : d.queue.Started) (hreset : d.core.AfterReset) (hpos : 0 < d.queue.pmemEnd.toNat)
    (hsafe : SafeFrom d.queue d.queue.numCycles.toNat Stages.empty (d.queue.word 0)) {n : Nat}
    (hbefore : ((clock fun _ => F)^[n] d).oDONE = false) (hdone : ((clock fun _ => F)^[n + 1] d).oDONE = true) :
    ((clock fun _ => F)^[n + 1] d).core.ctl.idling = false ∧
      ∀ t, n + 1 + (3 * (L + 3) + 4) ≤ t → ((clock fun _ => F)^[t] d).core.ctl.idling = true ∧
        ∀ k, ((clock fun _ => F)^[t] d).stores k = none ∧
          (((clock fun _ => F)^[t] d).core.threads k).wrbkWr ((clock fun _ => F)^[t] d).core.ctl = false := by
  have hwords : d.queue.pmemEnd ≠ 0 := by
    rintro hend
    rw [hend] at hpos
    exact absurd hpos (Nat.lt_irrefl 0)
  refine ⟨done_not_idle (fun _ => F) hs hwords hbefore hdone, fun t ht => ?_⟩
  have hstart : Feeds F d.queue ⟨0, hT⟩ (feeder d) (cost F (feeder d)) d := feeds_start hs hreset hpos hsafe
  have hleft : 0 < Feeder.stepsLeft d.queue (feeder d).place := by
    rw [feeder_left]
    exact Nat.succ_pos _
  have hclock : Lib.clocks (Feeder.step F d.queue) (cost F) (Feeder.stepsLeft d.queue (feeder d).place)
      (feeder d) ≤ n + 1 := by
    obtain ⟨k, m, hk, hclocks⟩ := (stutters (F := F) ⟨0, hT⟩ hpos).at_time hstart (n + 1)
    rw [hk.done_iff, step_done rfl hleft, ← hclocks] at hdone
    exact hdone
  have hrest := clocks_flushed d.queue hL (Feeder.finishes (F := F) (feeder d) hleft 0)
  obtain ⟨k, m, hk, hclocks⟩ := (stutters (F := F) ⟨0, hT⟩ hpos).at_time hstart t
  have hsteps : Feeder.stepsLeft d.queue (feeder d).place + 4 ≤ k := by
    rw [← hclocks, Lib.clocks_add]
    exact Nat.le_trans (Nat.add_le_add hclock hrest) ht
  obtain ⟨j, rfl⟩ := Nat.exists_eq_add_of_le hsteps
  have hplace := Feeder.finishes (F := F) (feeder d) hleft (4 + j)
  rw [← Nat.add_assoc] at hplace
  have hidle := hk.idles hplace (Nat.le_add_right 4 j)
  exact ⟨hidle, fun k => idle_quiet hidle k⟩

theorem drains_within_multiplies : ((clock fun _ => anyFpu)^[14] multiplies).core.ctl.idling = false ∧
    ∀ t, 14 + (3 * (0 + 3) + 4) ≤ t → ((clock fun _ => anyFpu)^[t] multiplies).core.ctl.idling = true := by
  have h := drains_within anyFpu (L := 0) (fun _ => Nat.le_refl 0) multiplies (by decide) multiplies_started
    ⟨rfl, rfl, rfl, rfl, rfl, fun _ => rfl⟩ (by decide) multiplies_safe (n := 13) (by decide +kernel) (by decide +kernel)
  exact ⟨h.1, fun t ht => (h.2 t ht).1⟩

end Left

end GppcuTestQueue

theorem drained_empty : Lib.Throughout (Board.step fun _ => anyFpu) Board.DoneDrained idleBoard
    ((Call.deviceCommand LPM_RUNSTOP 1).accesses.map .access ++ [.tick, .tick]) :=
  (Board.drained_iff (fun _ => anyFpu) rfl _).mpr (by decide +kernel)

def storeOnce : List Event :=
  ([Call.pushInstr (HostInstr.word (.stl 0 1 9 0)), .deviceCommand LPM_NUMCYCLE 1].flatMap fun c =>
      c.accesses.map .access) ++
    .tick :: (Call.deviceCommand LPM_RUNSTOP 1).accesses.map .access ++ [.tick, .tick, .tick]

/-- The host reads that the program is done, and the core stores on the next clock. -/
theorem not_drained : idleBoard.device.oDONE = false ∧
    (Lib.run (Board.step fun _ => anyFpu) idleBoard
      (storeOnce ++ Call.stat.accesses.map .access)).datin.getLsbD 30 = true ∧
    (Lib.run (Board.step fun _ => anyFpu) idleBoard
      (storeOnce ++ Call.stat.accesses.map .access)).device.stores 0 = some (0, 0) ∧
    ¬Lib.Throughout (Board.step fun _ => anyFpu) Board.DoneDrained idleBoard storeOnce := by
  refine ⟨rfl, by decide +kernel, by decide +kernel, fun h => ?_⟩
  have hend := (h storeOnce (List.prefix_refl _) (by decide +kernel)).1
  revert hend
  decide +kernel

end Gppcu
