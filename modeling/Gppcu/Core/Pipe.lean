import Gppcu.Core.Refines

/-!
# The words in the four stages

`Stages` names the word in each stage, 0 standing for an empty one. As long as
the word in decode does not look at what exec and write-back have still to write
(`Clear`), the FPU is the only thing that holds the pipeline up.
-/

namespace Gppcu

open Instr

def isFp (w : Word) : Bool := (cw w).fpOp

def Indep (w x : Word) : Prop := ∀ r, reads w r = true → writes x r = false

theorem zero_reads (r : Reg) : reads 0 r = false := by
  revert r
  decide

theorem zero_writes (r : Reg) : writes 0 r = false := by
  revert r
  decide

theorem zero_isFp : isFp 0 = false := by decide

theorem zero_sAllowed : sAllowed 0 := by decide

theorem indep_zero_left (x : Word) : Indep 0 x := by
  intro r hr
  rw [zero_reads] at hr
  cases hr

theorem indep_zero_right (w : Word) : Indep w 0 := fun r _ => zero_writes r

structure Stages where
  f : Word
  d : Word
  e : Word
  b : Word

namespace Stages

def take (s : Stages) (w : Word) : Stages := ⟨w, s.f, s.d, s.e⟩

def empty : Stages := ⟨0, 0, 0, 0⟩

/-- Nothing stops the word in decode, and it may wait there for the FPU. -/
structure Clear (s : Stages) : Prop where
  exec : Indep s.d s.e
  writeback : Indep s.d s.b
  self : isFp s.e = true → Indep s.d s.d
  allowed : sAllowed s.d

theorem clear_zero (s : Stages) (h : s.d = 0) : s.Clear := by
  obtain ⟨f, d, e, b⟩ := s
  obtain rfl : d = 0 := h
  exact ⟨indep_zero_left _, indep_zero_left _, fun _ => indep_zero_left _, zero_sAllowed⟩

end Stages

/-! ## The pipeline registers show the stages -/

structure Ctl.Shows (c : Ctl) (s : Stages) : Prop where
  fetch : s.f = if c.validFetch then c.instrFetch else 0
  decode : s.d = if c.validDecode then c.instrDecode else 0
  exec : s.e = if c.validExec then c.instrExec else 0
  writeback : c.validWriteback = true → c.instrWriteback = s.b
  cwDecode : c.DecodeOk
  cwExec : c.validExec = true → c.cwExec = cw c.instrExec
  cwWriteback : c.validWriteback = true → c.cwWriteback = cw c.instrWriteback

namespace Ctl.Shows

variable {c : Ctl} {s : Stages}

theorem requests (h : c.Shows s) (r : Reg) : c.requests r = reads s.d r := by
  rw [h.decode]
  by_cases hv : c.validDecode = true
  · rw [if_pos hv, c.requests_eq h.cwDecode hv]
  · rw [if_neg hv, zero_reads]
    simp [Ctl.requests, hv]

theorem decodeWrites (h : c.Shows s) (r : Reg) : c.decodeWrites r = writes s.d r := by
  rw [h.decode]
  by_cases hv : c.validDecode = true
  · rw [if_pos hv]
    simp [Ctl.decodeWrites, validRegd, writes, hv, h.cwDecode hv, Bool.beq_comm]
  · rw [if_neg hv, zero_writes]
    simp [Ctl.decodeWrites, validRegd, hv]

theorem execWrites (h : c.Shows s) (r : Reg) : c.execWrites r = writes s.e r := by
  rw [h.exec]
  by_cases hv : c.validExec = true
  · rw [if_pos hv]
    simp [Ctl.execWrites, writes, hv, h.cwExec hv, Bool.beq_comm]
  · rw [if_neg hv, zero_writes]
    simp [Ctl.execWrites, hv]

theorem writebackWrites (h : c.Shows s) (r : Reg) (hw : c.writebackWrites r = true) :
    writes s.b r = true := by
  unfold Ctl.writebackWrites at hw
  rw [Bool.and_eq_true, Bool.and_eq_true] at hw
  obtain ⟨⟨hv, hreg⟩, hr⟩ := hw
  rw [h.cwWriteback hv, h.writeback hv] at hreg
  rw [h.writeback hv] at hr
  rw [writes, hreg, Bool.true_and, Bool.beq_comm, hr]

theorem fpOp (h : c.Shows s) (hv : c.validExec = true) : c.cwExec.fpOp = isFp s.e := by
  rw [h.exec, if_pos hv, h.cwExec hv, isFp]

theorem canUseReg (h : c.Shows s) (ho : c.Owned) (hc : s.Clear) : c.canUseReg = true := by
  rw [canUseReg_iff]
  intro r hocc
  by_contra hr
  rw [Bool.not_eq_false] at hr
  have hread : reads s.d r = true := by rw [← h.requests, hr]
  rcases ho r hocc with he | hw | ⟨-, hn⟩
  · rw [h.execWrites, hc.exec r hread] at he
    cases he
  · have hb := h.writebackWrites r hw
    rw [hc.writeback r hread] at hb
    cases hb
  · rw [hr] at hn
    cases hn

theorem claims_fp (h : c.Shows s) (hc : s.Clear) (hfp : isFp s.e = true) :
    ¬ c.claimsOwnSource = true := by
  rw [claimsOwnSource_iff]
  rintro ⟨r, -, hd, hr, -, -⟩
  rw [h.decodeWrites, hc.self hfp r (by rw [← h.requests, hr])] at hd
  cases hd

theorem moved (h : c.Shows s) (hu : c.canUseReg = true) (w : Word) (v : Bool) :
    (c.clock true w v false).Shows (s.take (if v then w else 0)) := by
  have hst : c.dataStallDecode false = false := by simp [dataStallDecode, hu]
  constructor
  · simp [clock, hst, Stages.take, canFetch]
  · simp [clock, hst, Stages.take, h.fetch]
  · simp [clock, hst, Stages.take, h.decode]
  · intro hv
    have hve : c.validExec = true := by simpa [clock] using hv
    simp [clock, Stages.take, h.exec, hve]
  · intro hv
    simp [clock, hst, cw]
  · intro hv
    have hvd : c.validDecode = true := by simpa [clock, hst] using hv
    simp [clock, hst, h.cwDecode hvd]
  · intro hv
    have hve : c.validExec = true := by simpa [clock] using hv
    simp [clock, h.cwExec hve]

theorem held (h : c.Shows s) (w : Word) (v : Bool) : (c.clock true w v true).Shows s := by
  have hst : c.dataStallDecode true = true := by simp [dataStallDecode]
  constructor
  · simp [clock, hst, h.fetch]
  · simp [clock, hst, h.decode]
  · simp [clock, h.exec, hst]
  · intro hv
    simp [clock] at hv
  · intro hv
    have hvd : c.validDecode = true := by simpa [clock, hst] using hv
    simp [clock, hst, h.cwDecode hvd]
  · intro hv
    have hve : c.validExec = true := by simpa [clock] using hv
    simp [clock, hst, h.cwExec hve]
  · intro hv
    simp [clock] at hv

end Ctl.Shows

/-! ## The core in its stages -/

namespace Core

variable {T : Nat} (F : Fpu)

/-- The core shows the stages, and every thread `k` has executed the words that left decode:
it is where `M k` is. -/
structure Pipe (s : Core T) (st : Stages) (M : Fin T → Machine Reg) : Prop where
  shows : s.ctl.Shows st
  owned : s.ctl.Owned
  sim : ∀ k, CoreSim F s k (M k)
  elapsed : ∀ k, (s.threads k).fpStage = .busy →
    (s.threads k).fpuElapsed ≤ F.latency s.ctl.cwExec.fpuN

theorem AfterReset.pipe {s : Core T} (h : s.AfterReset) : Pipe F s Stages.empty s.arch where
  shows := by
    constructor
    · simp [h.fetch, Stages.empty]
    · simp [h.decode, Stages.empty]
    · simp [h.exec, Stages.empty]
    all_goals
      intro hv
      simp [h.decode, h.exec, h.writeback] at hv
  owned := h.owned
  sim := h.coreSim F
  elapsed := by
    intro k hk
    rw [h.fpStage] at hk
    cases hk

namespace Pipe

variable {F} {s : Core T} {st : Stages} {M : Fin T → Machine Reg}

theorem fp_of_stage (h : Pipe F s st M) (k : Fin T) (hk : (s.threads k).fpStage ≠ .idle) :
    s.ctl.validExec = true ∧ isFp st.e = true := by
  obtain ⟨m, -, hx⟩ := (h.sim k).sim
  by_cases hve : s.ctl.validExec = true
  · refine ⟨hve, ?_⟩
    rw [if_pos hve] at hx
    obtain ⟨-, -, g, hdata, -⟩ := hx
    rw [← h.shows.fpOp hve]
    unfold Thread.ExecData at hdata
    cases hst : (s.threads k).fpStage with
    | idle => exact absurd hst hk
    | run | busy | done =>
      simp only [hst] at hdata
      exact hdata.1
  · rw [if_neg hve] at hx
    exact absurd hx.1 hk

theorem delay_eq (h : Pipe F s st M) (k : Fin T) :
    s.onCalculationDelay = (isFp st.e && (s.threads k).fpStage != .done) := by
  rw [(h.sim k).lockstep.delay_eq k, Thread.fpBusy]
  by_cases hve : s.ctl.validExec = true
  · rw [hve, h.shows.fpOp hve, Bool.true_and, Bool.and_comm]
  · have hz : st.e = 0 := by rw [h.shows.exec, if_neg hve]
    rw [hz, zero_isFp]
    simp [hve]

theorem fp_of_delay (h : Pipe F s st M) (hd : s.onCalculationDelay = true) : isFp st.e = true := by
  unfold onCalculationDelay at hd
  obtain ⟨k, hk⟩ := of_decide_eq_true hd
  by_contra hn
  have := h.delay_eq k
  rw [show s.onCalculationDelay = true from decide_eq_true ⟨k, hk⟩] at this
  simp [hn] at this

theorem canUseReg (h : Pipe F s st M) (hc : st.Clear) : s.ctl.canUseReg = true :=
  h.shows.canUseReg h.owned hc

theorem instrReady (h : Pipe F s st M) (hc : st.Clear) : s.instrReady = !s.onCalculationDelay := by
  simp [Core.instrReady, Ctl.canFetch, Ctl.dataStallDecode, h.canUseReg hc]

theorem staleRead (h : Pipe F s st M) (hc : st.Clear) : s.staleRead = false := by
  by_contra hn
  simp only [Core.staleRead, Ctl.staleRead, Bool.not_eq_false, Bool.and_eq_true] at hn
  obtain ⟨⟨⟨-, hve⟩, hw⟩, hr⟩ := hn
  have hwr := hc.exec (regd s.ctl.instrExec) (by rw [← h.shows.requests, hr])
  rw [← h.shows.execWrites] at hwr
  simp [Ctl.execWrites, hve, hw] at hwr

theorem noOwnClaim (h : Pipe F s st M) (hc : st.Clear) (i : Inputs) : s.NoOwnClaim i :=
  fun _ hd => h.shows.claims_fp hc (h.fp_of_delay hd)

theorem held (h : Pipe F s st M) (hc : st.Clear) (hd : s.onCalculationDelay = true) (i : Inputs)
    (hr : i.inRST = true) : Pipe F (s.clock (fun _ => F) i) st M := by
  have hdis : s.dispatches = false := by
    simp [dispatches, Ctl.dispatches, Ctl.dataStallDecode, hd]
  refine ⟨?_, owned_clock _ s i h.owned (h.noOwnClaim hc i), ?_, ?_⟩
  · unfold clock
    rw [hr, hd]
    exact h.shows.held _ _
  · intro k
    have hk := coreSim_clock F (h.sim k) i hr (fun hx => by simp [hdis] at hx) (h.staleRead hc)
    rwa [hdis] at hk
  · intro k hk
    have hcw : (s.clock (fun _ => F) i).ctl.cwExec = s.ctl.cwExec := by
      simp [clock, Ctl.clock, hd, Ctl.dataStallDecode]
    rw [hcw]
    have hel := h.elapsed k
    cases hst : (s.threads k).fpStage with
    | idle =>
      simp only [clock_threads, hr, Thread.clock_fpStage, hst] at hk
      split_ifs at hk
    | done => simp [hr, hst] at hk
    | run => simp [hr, hst, Thread.fpuElapsed]
    | busy =>
      -- The FPU counts on only while it has not reached its latency.
      have hne : (s.threads k).fpuElapsed ≠ F.latency s.ctl.cwExec.fpuN := by
        intro he
        simp [hr, hst, Thread.fpDone, he] at hk
      have hle := hel hst
      have hcount : ((s.clock (fun _ => F) i).threads k).fpuElapsed = (s.threads k).fpuElapsed + 1 := by
        simp [hr, hst, Thread.fpuElapsed]
      omega

theorem moved (h : Pipe F s st M) (hc : st.Clear) (hd : s.onCalculationDelay = false) (i : Inputs)
    (hr : i.inRST = true) :
    Pipe F (s.clock (fun _ => F) i) (st.take (if i.iINSTR_VALID then i.iINSTR else 0))
      (fun k => Machine.execWith F id i.iGMEM_WDATA st.d (M k)) ∧
      ∀ k, ((s.clock (fun _ => F) i).threads k).fpStage = .idle := by
  have hidle : ∀ k, ((s.clock (fun _ => F) i).threads k).fpStage = .idle := by
    intro k
    have hb : (s.threads k).fpBusy s.ctl = false := by
      rw [← (h.sim k).lockstep.delay_eq k, hd]
    unfold clock
    rw [hr]
    exact (Thread.holds_moved F (h.sim k).sim hb i.iINSTR true i.iGMEM_WDATA).2
  refine ⟨⟨?_, owned_clock _ s i h.owned (h.noOwnClaim hc i), ?_, ?_⟩, hidle⟩
  · unfold clock
    rw [hr, hd]
    exact h.shows.moved (h.canUseReg hc) _ _
  · intro k
    have hdis : s.dispatches = s.ctl.validDecode := by
      simp [dispatches, Ctl.dispatches, Ctl.dataStallDecode, hd, h.canUseReg hc]
    have hdec := h.shows.decode
    have hk := coreSim_clock F (h.sim k) i hr
      (fun hx => by
        rw [hdis] at hx
        rw [if_pos hx] at hdec
        exact hdec ▸ hc.allowed) (h.staleRead hc)
    rw [hdis] at hk
    by_cases hv : s.ctl.validDecode = true
    · rw [if_pos hv] at hk hdec
      rwa [hdec]
    · rw [if_neg hv] at hk hdec
      rwa [hdec, Machine.execWith_zero]
  · intro k hk
    rw [hidle] at hk
    cases hk

theorem stage_held (k : Fin T) (i : Inputs) (hr : i.inRST = true)
    (hb : (s.threads k).fpBusy s.ctl = true) : ((s.clock (fun _ => F) i).threads k).fpStage ≠ .idle := by
  obtain ⟨hve, hst, hfp⟩ : s.ctl.validExec = true ∧ (s.threads k).fpStage ≠ .done ∧
      s.ctl.cwExec.fpOp = true := by
    simpa [Thread.fpBusy, and_assoc] using hb
  cases hs : (s.threads k).fpStage with
  | idle => simp [hr, hs, hve, hfp]
  | run => simp [hr, hs]
  | busy =>
    cases hdone : (s.threads k).fpDone F s.ctl <;>
      simp [hr, hs, hdone]
  | done => exact absurd hs hst

/-! ## The delay ends -/

/-- How many clocks of delay are still to come, at most. -/
def wait (F : Fpu) (s : Core T) (k : Fin T) : Nat :=
  match (s.threads k).fpStage with
  | .idle => if s.ctl.validExec && s.ctl.cwExec.fpOp then F.latency s.ctl.cwExec.fpuN + 3 else 0
  | .run => F.latency s.ctl.cwExec.fpuN + 2
  | .busy => F.latency s.ctl.cwExec.fpuN + 1 - (s.threads k).fpuElapsed
  | .done => 0

theorem wait_held (h : Pipe F s st M) (k : Fin T) (hd : s.onCalculationDelay = true) (i : Inputs)
    (hr : i.inRST = true) : wait F (s.clock (fun _ => F) i) k < wait F s k := by
  have hb : (s.threads k).fpBusy s.ctl = true := by
    rw [← (h.sim k).lockstep.delay_eq k, hd]
  obtain ⟨hve, hst, hfp⟩ : s.ctl.validExec = true ∧ (s.threads k).fpStage ≠ .done ∧
      s.ctl.cwExec.fpOp = true := by
    simpa [Thread.fpBusy, and_assoc] using hb
  have hcw : (s.clock (fun _ => F) i).ctl.cwExec = s.ctl.cwExec := by
    simp [clock, Ctl.clock, hd, Ctl.dataStallDecode]
  unfold wait
  rw [hcw]
  cases hs : (s.threads k).fpStage with
  | idle => simp [hr, hs, hve, hfp]
  | run =>
    simp [hr, hs, Thread.fpuElapsed]
  | busy =>
    have hel := h.elapsed k hs
    by_cases hdone : (s.threads k).fpDone F s.ctl = true
    · simp [hr, hs, hdone]
      omega
    · have hne : (s.threads k).fpuElapsed ≠ F.latency s.ctl.cwExec.fpuN := by
        simpa [Thread.fpDone] using hdone
      simp [hr, hs, hdone, Thread.fpuElapsed] at hne hel ⊢
      omega
  | done => exact absurd hs hst

end Pipe

end Core

end Gppcu
