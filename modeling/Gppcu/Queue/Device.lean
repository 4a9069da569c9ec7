import Gppcu.Queue.Schedule
import Gppcu.Queue.Supply

/-!
# The device runs its program

A device whose program is safe on every pass leaves each thread where the
sequential machine is after `num_cycles` passes. The invariant ties the position
in the program memory, the words in the stages and what is left of the pass.
-/

namespace Gppcu

open Instr

namespace Queue

variable {QBW GBW : Nat}

def lag (q : Queue QBW GBW) (p : Nat) : Word := if p = 0 then 0 else q.word (p - 1)

/-- The program starts with a nop, and there is one behind it. -/
structure Framed (q : Queue QBW GBW) : Prop where
  first : q.word 0 = 0
  behind : q.word q.pmemEnd.toNat = 0

theorem Framed.presented {q : Queue QBW GBW} (h : q.Framed) (i p : Nat) : q.presented i p = q.lag p := by
  unfold Queue.presented lag
  split_ifs
  · exact h.first
  · exact h.behind
  · rfl

theorem words_drop (q : Queue QBW GBW) {p : Nat} (hp : p < q.pmemEnd.toNat) :
    q.words.drop p = q.word p :: q.words.drop (p + 1) := by
  have hp' : p < q.words.length := by rwa [words_length]
  rw [List.drop_eq_getElem_cons hp']
  simp [words]

theorem clock_constants (q : Queue QBW GBW) (a b : Bool) :
    (q.clock a b).cmem = q.cmem ∧ (q.clock a b).szPerTask = q.szPerTask ∧
      (q.clock a b).numCycles = q.numCycles ∧ (q.clock a b).pmemEnd = q.pmemEnd ∧
      (q.clock a b).pmemRunning = q.pmemRunning := by
  simp only [clock]
  split_ifs <;> exact ⟨rfl, rfl, rfl, rfl, rfl⟩

end Queue

namespace GppcuTestQueue

variable {QBW GBW T : Nat} (F : Fpu) (q₀ : Queue QBW GBW) (final : Fin T → Machine Reg)
  (Next : Stages → Prop) (k₀ : Fin T)

def answer (d : GppcuTestQueue QBW GBW T) : BitVec 17 → Word :=
  constMem q₀.cmem.ram d.queue.curTaskOfst

/-- The registers that the supply logic does not step, and the answer for the word in decode. -/
structure Constant (d : GppcuTestQueue QBW GBW T) : Prop where
  cmem : d.queue.cmem.ram = q₀.cmem.ram
  sz : d.queue.szPerTask = q₀.szPerTask
  gmem : d.core.ctl.validDecode = true →
    d.queue.cmem.oPbRdata = q₀.cmem.ram (d.core.ctl.gmemAddr.setWidth GBW)

theorem Constant.clock {d : GppcuTestQueue QBW GBW T} (h : Constant q₀ d) (G : Fin T → Fpu) :
    Constant q₀ (d.clock G) := by
  obtain ⟨hc, hs, -⟩ := d.queue.clock_constants true d.core.instrReady
  constructor
  · change (d.queue.clock true d.core.instrReady).cmem.ram = _
    rw [hc, h.cmem]
  · change (d.queue.clock true d.core.instrReady).szPerTask = _
    rw [hs, h.sz]
  · intro _
    change (d.queue.clock true d.core.instrReady).cmem.ram _ = _
    rw [hc, h.cmem]
    rfl

theorem Constant.execWith {d : GppcuTestQueue QBW GBW T} (h : Constant q₀ d) {st : Stages}
    {M : Fin T → Machine Reg} (hp : Core.Pipe F d.core st M) (m : Machine Reg) :
    Machine.execWith F id (d.queue.iGmemWdata d.core.ctl.gmemAddr) st.d m =
      Machine.exec F id (answer q₀ d) m st.d := by
  have hdec := hp.shows.decode
  by_cases hv : d.core.ctl.validDecode = true
  · rw [if_pos hv] at hdec
    unfold Machine.exec Queue.iGmemWdata answer constMem
    rw [h.gmem hv, hdec]
    rfl
  · rw [if_neg hv] at hdec
    rw [hdec, Machine.execWith_zero, exec_zero]

/-- Position `p` of pass `i`: what `M` has executed, the words in decode and fetch, the rest of
the pass and the passes after it make `final`. -/
structure Follows (i p : Nat) (ahead : Bool) (st : Stages) (rest : List Word)
    (M : Fin T → Machine Reg) (d : GppcuTestQueue QBW GBW T) : Prop where
  supply : Queue.At q₀ d.queue i p (decide ((d.core.threads k₀).fpStage ≠ .idle))
  cycle : i < q₀.numCycles.toNat
  pipe : Core.Pipe F d.core st M
  constant : Constant q₀ d
  runs : Runs Next ahead st rest
  words : rest = q₀.words.drop (if ahead then p else p - 1)
  lag : if ahead then st.f = q₀.lag p else 1 ≤ p
  fresh : p = q₀.pmemEnd.toNat → (d.core.threads k₀).fpStage = .idle
  total : ∀ k, cyclesFrom F q₀.cmem.ram q₀.szPerTask q₀.words (d.queue.curTaskOfst + q₀.szPerTask)
    (q₀.numCycles.toNat - 1 - i)
    (Machine.run F id (answer q₀ d) (st.d :: st.f :: rest) (M k)) = final k

/-- After the last pass only nops are taken. -/
structure Drains (st : Stages) (M : Fin T → Machine Reg) (d : GppcuTestQueue QBW GBW T) : Prop where
  running : d.queue.pmemRunning = true
  cycle : d.queue.curCycleIdx = d.queue.numCycles
  head : d.queue.pmemHead = 0
  ram : d.queue.pmem.ram 0 = 0
  program : d.queue.program = 0
  pipe : Core.Pipe F d.core st M
  constant : Constant q₀ d
  fetch : st.f = 0
  clear : st.Clear
  total : ∀ k, Machine.exec F id (answer q₀ d) (M k) st.d = final k

variable {F q₀ final Next k₀} {i p : Nat} {ahead : Bool} {st : Stages} {rest : List Word}
  {M : Fin T → Machine Reg} {d : GppcuTestQueue QBW GBW T}

namespace Follows

theorem program (h : Follows F q₀ final Next k₀ i p ahead st rest M d) (hf : q₀.Framed) :
    d.queue.program = if (d.core.threads k₀).fpStage = .idle then q₀.lag p else q₀.word p := by
  have hp := h.supply.program
  rw [hf.presented] at hp
  rw [hp]
  by_cases hs : (d.core.threads k₀).fpStage = .idle <;> simp [hs]

theorem at_negedge {q : Queue QBW GBW} {held : Bool} (h : Queue.At q₀ q i p held) (a : BitVec 17) :
    Queue.At q₀ (q.gmemClock a) i p held :=
  ⟨h.ram, h.pmemEnd, h.numCycles, h.running, h.done, h.head, h.cycle, h.bound, h.last, h.program⟩

theorem not_last (h : Follows F q₀ final Next k₀ i p ahead st rest M d) : i ≠ q₀.numCycles.toNat :=
  Nat.ne_of_lt h.cycle

theorem ofst_next (h : Follows F q₀ final Next k₀ i p ahead st rest M d) (hp : p < q₀.pmemEnd.toNat) :
    (d.clock fun _ => F).queue.curTaskOfst = d.queue.curTaskOfst := by
  change (d.queue.clock true d.core.instrReady).curTaskOfst = _
  rw [Queue.clock_next _ h.supply.running (by rw [ne_eq, h.supply.cycle_iff]; exact h.not_last)
    (h.supply.lt_iff.mpr hp)]

theorem hold (h : Follows F q₀ final Next k₀ i p ahead st rest M d)
    (hd : d.core.onCalculationDelay = true) (hp : p < q₀.pmemEnd.toNat) :
    Follows F q₀ final Next k₀ i p ahead st rest M (d.clock fun _ => F) := by
  have hc := h.runs.clear
  have hready : d.core.instrReady = false := by rw [h.pipe.instrReady hc, hd, Bool.not_true]
  have hstage : ((d.clock fun _ => F).core.threads k₀).fpStage ≠ .idle := by
    apply Core.Pipe.stage_held k₀ _ rfl
    rw [← (h.pipe.sim k₀).lockstep.delay_eq k₀, hd]
  have hofst := h.ofst_next hp
  refine ⟨?_, h.cycle, h.pipe.held hc hd _ rfl, h.constant.clock _ _, h.runs, h.words, h.lag,
    fun hpe => absurd hpe (by omega), ?_⟩
  · rw [decide_eq_true hstage]
    change Queue.At q₀ ((d.queue.clock true d.core.instrReady).gmemClock _) i p true
    rw [hready]
    exact at_negedge (h.supply.hold h.not_last hp) _
  · intro k
    rw [answer, hofst]
    exact h.total k

theorem taken (h : Follows F q₀ final Next k₀ i p ahead st rest M d) (hf : q₀.Framed)
    (hd : d.core.onCalculationDelay = false) (hp : p < q₀.pmemEnd.toNat) :
    ∃ ahead' rest', Runs Next ahead' (st.take d.queue.program) rest' ∧
      rest' = q₀.words.drop (if ahead' then p + 1 else p) ∧
      (ahead' = true → d.queue.program = q₀.word p) ∧
      ∀ g m, Machine.run F id g (st.f :: d.queue.program :: rest') m =
        Machine.run F id g (st.f :: rest) m := by
  have hprog := h.program hf
  have hdelay := h.pipe.delay_eq k₀
  have hwords := h.words
  have hlag := h.lag
  -- The FPU has just finished with exec, or there is no FPU word there.
  have hdone : isFp st.e = true → (d.core.threads k₀).fpStage ≠ .idle := by
    intro hfp hidle
    rw [hd, hfp, hidle] at hdelay
    cases hdelay
  have hnone : isFp st.e = false → (d.core.threads k₀).fpStage = .idle := by
    intro hfp
    by_contra hne
    have := (h.pipe.fp_of_stage k₀ hne).2
    rw [hfp] at this
    cases this
  cases h.runs with
  | @take _ w w' rest' _ hfp hr =>
    rw [if_neg Bool.false_ne_true] at hwords
    have hp1 : 1 ≤ p := by simpa using hlag
    rw [Queue.words_drop q₀ (by omega), show p - 1 + 1 = p by omega, List.cons.injEq] at hwords
    have hw : d.queue.program = w := by
      rw [hprog, if_pos (hnone hfp), Queue.lag, if_neg (by omega), hwords.1]
    rw [hw]
    exact ⟨false, _, hr, hwords.2, by simp, fun _ _ => rfl⟩
  | @skip _ w rest' _ hfp hr =>
    rw [if_neg Bool.false_ne_true] at hwords
    have hp1 : 1 ≤ p := by simpa using hlag
    rw [Queue.words_drop q₀ (by omega), show p - 1 + 1 = p by omega, Queue.words_drop q₀ hp,
      List.cons.injEq, List.cons.injEq] at hwords
    have hw : d.queue.program = w := by rw [hprog, if_neg (hdone hfp), hwords.2.1]
    rw [hw]
    refine ⟨true, rest', hr, hwords.2.2, fun _ => hwords.2.1, fun g m => ?_⟩
    simp only [Machine.run_cons, exec_zero]
  | @keep _ w rest' _ hfp hr =>
    rw [if_pos rfl, Queue.words_drop q₀ hp, List.cons.injEq] at hwords
    have hw : d.queue.program = w := by rw [hprog, if_neg (hdone hfp), hwords.1]
    rw [hw]
    exact ⟨true, rest', hr, hwords.2, fun _ => hwords.1, fun _ _ => rfl⟩
  | @again _ w rest' _ hfp htw hr =>
    rw [if_pos rfl] at hwords hlag
    have hw : d.queue.program = st.f := by rw [hprog, if_pos (hnone hfp), hlag]
    rw [hw]
    refine ⟨false, _, hr, hwords, by simp, fun g m => ?_⟩
    simp only [Machine.run_cons, exec_twice F htw]
  | last =>
    have hlen := congrArg List.length hwords
    rw [List.length_drop, Queue.words_length] at hlen
    cases ahead with
    | true => simp at hlen; omega
    | false =>
      have hp1 : 1 ≤ p := by simpa using hlag
      simp at hlen
      omega

theorem next (h : Follows F q₀ final Next k₀ i p ahead st rest M d) (hf : q₀.Framed)
    (hd : d.core.onCalculationDelay = false) (hp : p < q₀.pmemEnd.toNat) :
    ∃ ahead' st' rest' M', Follows F q₀ final Next k₀ i (p + 1) ahead' st' rest' M'
      (d.clock fun _ => F) := by
  have hc := h.runs.clear
  have hready : d.core.instrReady = true := by rw [h.pipe.instrReady hc, hd, Bool.not_false]
  have hvalid := h.supply.instrValid.mpr hp
  obtain ⟨hpipe, hidle⟩ := h.pipe.moved hc hd
    ⟨true, d.queue.program, d.queue.instrValid, d.queue.iGmemWdata d.core.ctl.gmemAddr⟩ rfl
  obtain ⟨ahead', rest', hruns, hrest, hlag, hrun⟩ := h.taken hf hd hp
  have hofst := h.ofst_next hp
  rw [if_pos hvalid] at hpipe
  refine ⟨ahead', _, rest', _, ?_, h.cycle, hpipe, h.constant.clock _ _, hruns, ?_, ?_,
    fun _ => hidle k₀, ?_⟩
  · have hst : ((d.clock fun _ => F).core.threads k₀).fpStage = .idle := hidle k₀
    rw [hst]
    change Queue.At q₀ ((d.queue.clock true d.core.instrReady).gmemClock _) i (p + 1) false
    rw [hready]
    exact at_negedge (h.supply.take h.not_last hp) _
  · rw [hrest]
    congr 1
  · cases ahead' with
    | true => simpa [Stages.take, Queue.lag] using hlag rfl
    | false => simp
  · intro k
    rw [answer, hofst, ← h.total k]
    congr 1
    rw [h.constant.execWith F q₀ h.pipe]
    exact hrun _ _

end Follows

theorem total_wrap {w : Word} (hw : OffPivot w) {m m' : Machine Reg} {ofst : Word}
    (hm : cyclesFrom F q₀.cmem.ram q₀.szPerTask q₀.words (ofst + q₀.szPerTask)
      (q₀.numCycles.toNat - 1 - i) (Machine.exec F id (constMem q₀.cmem.ram ofst) m w) = m') :
    (i + 1 = q₀.numCycles.toNat →
      Machine.exec F id (constMem q₀.cmem.ram (ofst + q₀.szPerTask)) m w = m') ∧
    (i + 1 < q₀.numCycles.toNat → cyclesFrom F q₀.cmem.ram q₀.szPerTask q₀.words
      (ofst + q₀.szPerTask + q₀.szPerTask) (q₀.numCycles.toNat - 1 - (i + 1))
      (Machine.run F id (constMem q₀.cmem.ram (ofst + q₀.szPerTask)) (w :: 0 :: q₀.words) m) = m') := by
  rw [exec_offPivot F q₀.cmem.ram hw _ (ofst + q₀.szPerTask)] at hm
  constructor
  · intro hl
    rwa [show q₀.numCycles.toNat - 1 - i = 0 by omega] at hm
  · intro hl
    rw [show q₀.numCycles.toNat - 1 - i = q₀.numCycles.toNat - 1 - (i + 1) + 1 by omega] at hm
    simp only [Machine.run_cons, exec_zero]
    exact hm

/-- What holds after the last clock of pass `i`, whichever pass that was. -/
def Wrapped (F : Fpu) (q₀ : Queue QBW GBW) (final : Fin T → Machine Reg) (Next : Stages → Prop)
    (k₀ : Fin T) (d : GppcuTestQueue QBW GBW T) : Prop :=
  (∃ i p ahead st rest M, Follows F q₀ final Next k₀ i p ahead st rest M d) ∨
    ∃ st M, Drains F q₀ final st M d

namespace Follows

theorem at_end (h : Follows F q₀ final Next k₀ i p ahead st rest M d) (hp : p = q₀.pmemEnd.toNat)
    (hpos : 0 < q₀.pmemEnd.toNat) :
    (isFp st.e = false → Next (st.take 0)) ∧ (isFp st.e = true → Next st) ∧
      ∀ g m, Machine.run F id g rest m = m := by
  have hlen := congrArg List.length h.words
  rw [List.length_drop, Queue.words_length] at hlen
  have hlag := h.lag
  cases h.runs with
  | take => simp at hlen hlag; omega
  | skip => simp at hlen hlag; omega
  | keep => simp at hlen; omega
  | again => simp at hlen; omega
  | last _ hb ha =>
    refine ⟨hb, ha, fun g m => ?_⟩
    cases ahead with
    | true => rfl
    | false => exact exec_zero F g m

theorem supply_wrap (h : Follows F q₀ final Next k₀ i p ahead st rest M d) (hf : q₀.Framed)
    (hp : p = q₀.pmemEnd.toNat) (held : Bool) :
    Queue.At q₀ (d.clock fun _ => F).queue (i + 1) 0 held ∧ (d.clock fun _ => F).queue.program = 0 ∧
      (d.clock fun _ => F).queue.curTaskOfst = d.queue.curTaskOfst + q₀.szPerTask := by
  have hnot : ¬ p < q₀.pmemEnd.toNat := by omega
  have hat := h.supply.wrap h.not_last hnot d.core.instrReady
  have hprog : (d.clock fun _ => F).queue.program = 0 := by
    change (d.queue.clock true d.core.instrReady).program = 0
    rw [Queue.clock_program, h.supply.read, hp, hf.behind]
  refine ⟨?_, hprog, ?_⟩
  · obtain ⟨h1, h2, h3, h4, h5, h6, h7, h8, h9, -⟩ := at_negedge hat ((d.posedge fun _ => F).core.ctl.gmemAddr)
    refine ⟨h1, h2, h3, h4, h5, h6, h7, h8, h9, ?_⟩
    change (d.clock fun _ => F).queue.program = _
    rw [hprog, hf.presented, hf.first]
    cases held <;> rfl
  · change (d.queue.clock true d.core.instrReady).curTaskOfst = _
    rw [Queue.clock_wrap _ h.supply.running (by rw [ne_eq, h.supply.cycle_iff]; exact h.not_last)
      (by rw [h.supply.lt_iff]; exact hnot), ← h.constant.sz]

theorem wrap (h : Follows F q₀ final Next k₀ i p ahead st rest M d) (hf : q₀.Framed)
    (hr : Restarts q₀.words Next) (hp : p = q₀.pmemEnd.toNat) (hpos : 0 < q₀.pmemEnd.toNat) :
    Wrapped F q₀ final Next k₀ (d.clock fun _ => F) := by
  have hc := h.runs.clear
  obtain ⟨hbubble, habsorbed, hrest⟩ := h.at_end hp hpos
  have hdelay := h.pipe.delay_eq k₀
  rw [h.fresh hp] at hdelay
  -- The stages and the machines after the clock, and what the word in decode there leaves to do.
  have key : ∃ st' M', Next st' ∧ Core.Pipe F (d.clock fun _ => F).core st' M' ∧
      ∀ k, cyclesFrom F q₀.cmem.ram q₀.szPerTask q₀.words (d.queue.curTaskOfst + q₀.szPerTask)
        (q₀.numCycles.toNat - 1 - i)
        (Machine.exec F id (constMem q₀.cmem.ram d.queue.curTaskOfst) (M' k) st'.d) = final k := by
    cases hfp : isFp st.e with
    | false =>
      rw [hfp] at hdelay
      have hv : d.queue.instrValid = false := by
        rw [← Bool.not_eq_true, h.supply.instrValid]
        omega
      obtain ⟨hpipe, -⟩ := h.pipe.moved hc hdelay
        ⟨true, d.queue.program, d.queue.instrValid, d.queue.iGmemWdata d.core.ctl.gmemAddr⟩ rfl
      rw [if_neg (by simp [hv])] at hpipe
      refine ⟨_, _, hbubble hfp, hpipe, fun k => ?_⟩
      rw [← h.total k, h.constant.execWith F q₀ h.pipe, Machine.run_cons, Machine.run_cons, hrest]
      rfl
    | true =>
      rw [hfp] at hdelay
      refine ⟨st, M, habsorbed hfp, h.pipe.held hc hdelay _ rfl, fun k => ?_⟩
      rw [← h.total k, Machine.run_cons, Machine.run_cons, hrest, hr.fetch st (habsorbed hfp), exec_zero]
      rfl
  obtain ⟨st', M', hnext, hpipe, htotal⟩ := key
  have hf0 := hr.fetch st' hnext
  by_cases hl : i + 1 = q₀.numCycles.toNat
  · obtain ⟨hat, hprog, hofst⟩ := h.supply_wrap hf hp false
    refine Or.inr ⟨st', M', hat.running, ?_, ?_, ?_, hprog, hpipe, h.constant.clock _ _, hf0,
      (hr.run st' hnext).clear, fun k => ?_⟩
    · rw [hat.cycle_iff, hl]
    · apply BitVec.eq_of_toNat_eq
      rw [hat.head]
      rfl
    · rw [hat.ram]
      exact hf.first
    · rw [answer, hofst]
      exact (total_wrap (hr.decode st' hnext) (htotal k)).1 hl
  · have hlt : i + 1 < q₀.numCycles.toNat := by
      have := h.cycle
      omega
    obtain ⟨hat, -, hofst⟩ := h.supply_wrap hf hp
      (decide (((d.clock fun _ => F).core.threads k₀).fpStage ≠ .idle))
    refine Or.inl ⟨i + 1, 0, true, st', q₀.words, M', hat, hlt, hpipe, h.constant.clock _ _,
      hr.run st' hnext, rfl, hf0, fun he => absurd he (by omega), fun k => ?_⟩
    rw [answer, hofst, hf0]
    exact (total_wrap (hr.decode st' hnext) (htotal k)).2 hlt

end Follows

/-! ## After the last pass -/

namespace Drains

theorem supply (h : Drains F q₀ final st M d) :
    (d.clock fun _ => F).queue.programDone = true ∧ (d.clock fun _ => F).queue.pmemRunning = true ∧
      (d.clock fun _ => F).queue.curCycleIdx = (d.clock fun _ => F).queue.numCycles ∧
      (d.clock fun _ => F).queue.pmemHead = 0 ∧ (d.clock fun _ => F).queue.pmem.ram 0 = 0 ∧
      (d.clock fun _ => F).queue.program = 0 ∧
      (d.clock fun _ => F).queue.curTaskOfst = d.queue.curTaskOfst := by
  have hq : (d.clock fun _ => F).queue =
      ((d.queue.clock true d.core.instrReady).gmemClock (d.posedge fun _ => F).core.ctl.gmemAddr) := rfl
  rw [hq, Queue.clock_last _ h.running h.cycle]
  refine ⟨rfl, h.running, h.cycle, h.head, h.ram, ?_, rfl⟩
  change d.queue.pmem.ram d.queue.pmemHead = 0
  rw [h.head, h.ram]

theorem step (h : Drains F q₀ final st M d) :
    ∃ st' M', Drains F q₀ final st' M' (d.clock fun _ => F) := by
  obtain ⟨-, hrun, hcyc, hhead, hram, hprog, hofst⟩ := h.supply
  cases hd : d.core.onCalculationDelay with
  | true =>
    refine ⟨st, M, hrun, hcyc, hhead, hram, hprog, h.pipe.held h.clear hd _ rfl,
      h.constant.clock _ _, h.fetch, h.clear, fun k => ?_⟩
    rw [answer, hofst]
    exact h.total k
  | false =>
    obtain ⟨hpipe, -⟩ := h.pipe.moved h.clear hd
      ⟨true, d.queue.program, d.queue.instrValid, d.queue.iGmemWdata d.core.ctl.gmemAddr⟩ rfl
    have hzero : (if d.queue.instrValid then d.queue.program else 0) = 0 := by
      rw [h.program, ite_self]
    change Core.Pipe F _ (st.take (if d.queue.instrValid then d.queue.program else 0)) _ at hpipe
    rw [hzero] at hpipe
    refine ⟨_, _, hrun, hcyc, hhead, hram, hprog, hpipe, h.constant.clock _ _, rfl,
      Stages.clear_zero _ h.fetch, fun k => ?_⟩
    rw [show (st.take 0).d = 0 from h.fetch, exec_zero, h.constant.execWith F q₀ h.pipe]
    exact h.total k

theorem arch_eq (h : Drains F q₀ final st M d) (hi : d.core.ctl.idling = true) (k : Fin T) :
    d.core.arch k = final k := by
  simp only [Ctl.idling, Bool.not_eq_true', Bool.or_eq_false_iff] at hi
  obtain ⟨⟨⟨hd, -⟩, he⟩, hw⟩ := hi
  have hzero : st.d = 0 := by rw [h.pipe.shows.decode, if_neg (by simp [hd])]
  rw [(h.pipe.sim k).arch_eq F he hw, ← h.total k, hzero, exec_zero]

end Drains

/-! ## The whole run -/

theorem wrapped_clock (hf : q₀.Framed) (hr : Restarts q₀.words Next) (hpos : 0 < q₀.pmemEnd.toNat)
    (h : Wrapped F q₀ final Next k₀ d) : Wrapped F q₀ final Next k₀ (d.clock fun _ => F) := by
  rcases h with ⟨i, p, ahead, st, rest, M, h⟩ | ⟨st, M, h⟩
  · by_cases hp : p < q₀.pmemEnd.toNat
    · cases hd : d.core.onCalculationDelay with
      | true => exact Or.inl ⟨i, p, ahead, st, rest, M, h.hold hd hp⟩
      | false =>
        obtain ⟨ahead', st', rest', M', h'⟩ := h.next hf hd hp
        exact Or.inl ⟨i, p + 1, ahead', st', rest', M', h'⟩
    · have hb := h.supply.bound
      exact h.wrap hf hr (by omega) hpos
  · obtain ⟨st', M', h'⟩ := h.step
    exact Or.inr ⟨st', M', h'⟩

/-- How far from the end the device is, the clocks of delay apart. -/
def progress (d : GppcuTestQueue QBW GBW T) : Nat :=
  if d.queue.curCycleIdx ≠ d.queue.numCycles then
    (d.queue.numCycles.toNat - d.queue.curCycleIdx.toNat) * (d.queue.pmemEnd.toNat + 1) +
      (d.queue.pmemEnd.toNat - d.queue.pmemHead.toNat) + 6
  else if d.queue.programDone = false then 5
  else if d.core.ctl.validFetch then 4
  else if d.core.ctl.validDecode then 3
  else if d.core.ctl.validExec then 2
  else if d.core.ctl.validWriteback then 1
  else 0

/-- First the progress counts, then the delay that is still to come. -/
def rank (F : Fpu) (k₀ : Fin T) (d : GppcuTestQueue QBW GBW T) : Nat × Nat :=
  (progress d, Core.Pipe.wait F d.core k₀)

def Closer : Nat × Nat → Nat × Nat → Prop := Prod.Lex (· < ·) (· < ·)

theorem closer_wf : WellFounded Closer :=
  (Prod.lex ⟨(· < ·), Nat.lt_wfRel.wf⟩ ⟨(· < ·), Nat.lt_wfRel.wf⟩).wf

theorem progress_supply {i p : Nat} {held : Bool} (h : Queue.At q₀ d.queue i p held)
    (hi : i ≠ q₀.numCycles.toNat) :
    progress d = (q₀.numCycles.toNat - i) * (q₀.pmemEnd.toNat + 1) + (q₀.pmemEnd.toNat - p) + 6 := by
  rw [progress, if_pos (by rw [ne_eq, h.cycle_iff]; exact hi), h.cycle, h.head, h.pmemEnd, h.numCycles]

theorem Drains.progress_eq (h : Drains F q₀ final st M d) :
    progress d = if d.queue.programDone = false then 5
      else if d.core.ctl.validFetch then 4
      else if d.core.ctl.validDecode then 3
      else if d.core.ctl.validExec then 2
      else if d.core.ctl.validWriteback then 1
      else 0 := by
  rw [progress, if_neg (by simp [h.cycle])]

theorem Drains.closer (h : Drains F q₀ final st M d) (k₀ : Fin T) :
    (d.oDONE = true ∧ d.core.ctl.idling = true) ∨ Closer (rank F k₀ (d.clock fun _ => F)) (rank F k₀ d) := by
  obtain ⟨st', M', h'⟩ := h.step
  have hdone := h.supply.1
  by_cases hfin : d.queue.programDone = false
  · right
    apply Prod.Lex.left
    rw [h.progress_eq, h'.progress_eq, if_pos hfin, if_neg (by simp [hdone])]
    split_ifs <;> omega
  have hvalid : d.queue.instrValid = false := by simp [Queue.instrValid, hfin]
  cases hd : d.core.onCalculationDelay with
  | true =>
    right
    obtain ⟨k, hk⟩ := of_decide_eq_true hd
    have hve : d.core.ctl.validExec = true := by
      simp only [Thread.fpBusy, Bool.and_eq_true] at hk
      exact hk.1.1
    have hsame : progress (d.clock fun _ => F) = progress d := by
      rw [h.progress_eq, h'.progress_eq, if_neg hfin, if_neg (by simp [hdone])]
      simp [clock, posedge, negedge, Core.clock, Ctl.clock, Ctl.dataStallDecode, hd, hve]
    unfold rank
    rw [hsame]
    exact Prod.Lex.right _ (h.pipe.wait_held k₀ hd _ rfl)
  | false =>
    by_cases hidle : d.core.ctl.idling = true
    · exact Or.inl ⟨by simpa [oDONE] using hfin, hidle⟩
    right
    apply Prod.Lex.left
    have hu := h.pipe.canUseReg h.clear
    rw [h.progress_eq, h'.progress_eq, if_neg hfin, if_neg (by simp [hdone])]
    simp only [clock, posedge, negedge, Core.clock, Ctl.clock, Ctl.dataStallDecode, Ctl.canFetch, hd,
      hu, hvalid, Bool.not_true, Bool.or_false, Bool.and_false, Bool.false_eq_true, if_false]
    simp only [Ctl.idling, Bool.not_eq_true', Bool.or_eq_false_iff, not_and] at hidle
    cases hvf : d.core.ctl.validFetch <;> cases hvd : d.core.ctl.validDecode <;>
      cases hve : d.core.ctl.validExec <;> cases hvw : d.core.ctl.validWriteback <;>
      simp_all

theorem wrapped_closer (hf : q₀.Framed) (hpos : 0 < q₀.pmemEnd.toNat)
    (h : Wrapped F q₀ final Next k₀ d) :
    (d.oDONE = true ∧ d.core.ctl.idling = true) ∨ Closer (rank F k₀ (d.clock fun _ => F)) (rank F k₀ d) := by
  rcases h with ⟨i, p, ahead, st, rest, M, h⟩ | ⟨st, M, h⟩
  · right
    have hprog := progress_supply h.supply h.not_last
    by_cases hp : p < q₀.pmemEnd.toNat
    · cases hd : d.core.onCalculationDelay with
      | true =>
        have h' := h.hold hd hp
        unfold rank
        rw [hprog, progress_supply h'.supply h'.not_last]
        exact Prod.Lex.right _ (h.pipe.wait_held k₀ hd _ rfl)
      | false =>
        obtain ⟨ahead', st', rest', M', h'⟩ := h.next hf hd hp
        apply Prod.Lex.left
        rw [hprog, progress_supply h'.supply h'.not_last]
        omega
    · have hb := h.supply.bound
      have hpe : p = q₀.pmemEnd.toNat := by omega
      apply Prod.Lex.left
      have hpass : (q₀.numCycles.toNat - i) * (q₀.pmemEnd.toNat + 1) =
          (q₀.numCycles.toNat - (i + 1)) * (q₀.pmemEnd.toNat + 1) + (q₀.pmemEnd.toNat + 1) := by
        have hc := h.cycle
        rw [show q₀.numCycles.toNat - i = q₀.numCycles.toNat - (i + 1) + 1 by omega, Nat.succ_mul]
      obtain ⟨hat, -, -⟩ := h.supply_wrap hf hpe false
      rw [hprog]
      by_cases hl : i + 1 = q₀.numCycles.toNat
      · have hcyc := hat.cycle_iff.mpr hl
        rw [progress, if_neg (by simp [hcyc])]
        split_ifs <;> omega
      · rw [progress_supply hat hl]
        omega
  · exact h.closer k₀

theorem wrapped_start (hs : d.queue.Started) (hreset : d.core.AfterReset)
    (hN : 0 < d.queue.numCycles.toNat) (hpos : 0 < d.queue.pmemEnd.toNat)
    (hr : Restarts d.queue.words Next) :
    Wrapped F d.queue (fun k => cyclesFrom F d.queue.cmem.ram d.queue.szPerTask d.queue.words 0
      d.queue.numCycles.toNat (d.core.arch k)) Next k₀ d := by
  have hat : Queue.At d.queue d.queue 0 0 (decide ((d.core.threads k₀).fpStage ≠ .idle)) := by
    rw [hreset.fpStage]
    exact hs.at
  refine Or.inl ⟨0, 0, true, Stages.empty, d.queue.words, d.core.arch, hat, hN, hreset.pipe F,
    ⟨rfl, rfl, fun hv => ?_⟩, hr.run _ hr.first, rfl, rfl, fun he => absurd he (by omega), fun k => ?_⟩
  · rw [hreset.decode] at hv
    cases hv
  · rw [answer, hs.ofst, show d.queue.numCycles.toNat = d.queue.numCycles.toNat - 1 - 0 + 1 by omega,
      cyclesFrom]
    simp only [Stages.empty, Machine.run_cons, exec_zero]
    rfl

/-- A device with a safe program comes to its end, and whenever it is there every thread has
executed the program one word at a time, `num_cycles` times. -/
theorem runs_program (d : GppcuTestQueue QBW GBW T) (hT : 0 < T) (hs : d.queue.Started)
    (hreset : d.core.AfterReset) (hf : d.queue.Framed) (hN : 0 < d.queue.numCycles.toNat)
    (hpos : 0 < d.queue.pmemEnd.toNat) (hr : Restarts d.queue.words Next) :
    (∃ n, ((clock fun _ => F)^[n] d).oDONE = true ∧ ((clock fun _ => F)^[n] d).core.ctl.idling = true) ∧
      ∀ n, ((clock fun _ => F)^[n] d).oDONE = true → ((clock fun _ => F)^[n] d).core.ctl.idling = true →
        ((clock fun _ => F)^[n] d).core.arch = fun k =>
          cyclesFrom F d.queue.cmem.ram d.queue.szPerTask d.queue.words 0 d.queue.numCycles.toNat
            (d.core.arch k) := by
  have hstart : Wrapped F d.queue (fun k => cyclesFrom F d.queue.cmem.ram d.queue.szPerTask
      d.queue.words 0 d.queue.numCycles.toNat (d.core.arch k)) Next ⟨0, hT⟩ d :=
    wrapped_start hs hreset hN hpos hr
  generalize (fun k => cyclesFrom F d.queue.cmem.ram d.queue.szPerTask d.queue.words 0
    d.queue.numCycles.toNat (d.core.arch k)) = final at hstart ⊢
  have hstep : ∀ d', Wrapped F d.queue final Next ⟨0, hT⟩ d' →
      Wrapped F d.queue final Next ⟨0, hT⟩ (d'.clock fun _ => F) :=
    fun d' h => wrapped_clock hf hr hpos h
  constructor
  · exact Lib.exists_iterate closer_wf (rank F ⟨0, hT⟩) hstep
      (fun d' h => wrapped_closer hf hpos h) hstart
  · intro n hdone hidle
    rcases Lib.iterate_keeps hstep hstart n with ⟨i, p, ahead, st, rest, M, h⟩ | ⟨st, M, h⟩
    · have hnot := h.supply.done
      rw [GppcuTestQueue.oDONE, hnot] at hdone
      cases hdone
    · exact funext (h.arch_eq hidle)

end GppcuTestQueue

end Gppcu
