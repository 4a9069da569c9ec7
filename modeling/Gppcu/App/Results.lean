import Gppcu.App.Launch
import Gppcu.App.Surplus
import Gppcu.App.Vertices
import Gppcu.Driver.Program
import Gppcu.Lanes.Alone

/-!
# The results of a run

The rounds of a thread, pass after pass. With a program that sets what it reads
and keeps to its task, each round gets what the program makes of its words alone:
the lanes beside it and the rounds before it leave no trace.
-/

namespace Gppcu

open Instr

/-! ## The passes of a run -/

def SwkGppcu.roundWord (pp : SwkGppcu) (s j : Nat) : BitVec 9 := BitVec.ofNat 9 (s * pp.mtaskmem + j)

/-- Word `j` of the task of round `s` when the program has run on it alone. -/
def SwkGppcu.result {GBW : Nat} (pp : SwkGppcu) (F : Fpu) (cmem : BitVec GBW → Word) (ws : List Word) (s : Nat)
    (words : Nat → Word) (j : Nat) : Word :=
  taskResult F (constMem cmem (cycleOfst pp.szPerTask (s / PARALLEL_CNT))) ws (BitVec.ofNat 32 pp.mtaskmem)
    (s % PARALLEL_CNT) words j

theorem constMem_zero {GBW : Nat} (cmem : BitVec GBW → Word) (ofst : Word) : constMem cmem ofst 0 = ofst :=
  if_pos rfl

section Passes

variable {pp : SwkGppcu} (h : pp.Dealt) (hfit : pp.CyclesFit)

include h

theorem SwkGppcu.Dealt.taskmem_toNat : (BitVec.ofNat 32 pp.mtaskmem).toNat = pp.mtaskmem := by
  have hbyte := h.byte
  rw [BitVec.toNat_ofNat, Nat.mod_eq_of_lt (by omega)]

theorem SwkGppcu.Dealt.taskmem_lt : (BitVec.ofNat 32 pp.mtaskmem).toNat < 2 ^ 8 := by
  rw [h.taskmem_toNat]
  exact h.byte

theorem taskAddr_roundWord (c l j : Nat) :
    taskAddr (cycleOfst pp.szPerTask c) (BitVec.ofNat 32 pp.mtaskmem) l j =
      pp.roundWord (c * PARALLEL_CNT + l) j := taskAddr_round h c l j

theorem inTask_round {c l : Nat} {a : BitVec 9}
    (ha : InTask (cycleOfst pp.szPerTask c) (BitVec.ofNat 32 pp.mtaskmem) l a) :
    ∃ j < pp.mtaskmem, a = pp.roundWord (c * PARALLEL_CNT + l) j := by
  obtain ⟨j, hj, rfl⟩ := ha
  rw [h.taskmem_toNat] at hj
  exact ⟨j, hj, taskAddr_roundWord h c l j⟩

include hfit

theorem roundWord_inj {s s' j j' : Nat} (hs : s < pp.cycles * PARALLEL_CNT) (hs' : s' < pp.cycles * PARALLEL_CNT)
    (hj : j < pp.mtaskmem) (hj' : j' < pp.mtaskmem) (he : pp.roundWord s j = pp.roundWord s' j') :
    s = s' ∧ j = j' := by
  have hlt : ∀ {s j}, s < pp.cycles * PARALLEL_CNT → j < pp.mtaskmem → s * pp.mtaskmem + j < 2 ^ 9 := by
    intro s j hs hj
    calc s * pp.mtaskmem + j < (s + 1) * pp.mtaskmem := by
          rw [Nat.succ_mul]
          omega
      _ ≤ 512 / pp.mtaskmem * pp.mtaskmem := Nat.mul_le_mul_right _ (Nat.le_trans hs hfit)
      _ ≤ 512 := Nat.div_mul_le_self _ _
  have hn := congrArg BitVec.toNat he
  unfold SwkGppcu.roundWord at hn
  rw [BitVec.toNat_ofNat, BitVec.toNat_ofNat, Nat.mod_eq_of_lt (hlt hs hj), Nat.mod_eq_of_lt (hlt hs' hj'),
    Nat.mul_comm, Nat.mul_comm s'] at hn
  have hk : j = j' := by
    have hmod := congrArg (· % pp.mtaskmem) hn
    simpa [Nat.mul_add_mod, Nat.mod_eq_of_lt hj, Nat.mod_eq_of_lt hj'] using hmod
  refine ⟨Nat.eq_of_mul_eq_mul_left h.words ?_, hk⟩
  omega

omit h hfit in
theorem round_lt {c l : Nat} (hc : c < pp.cycles) (hl : l < PARALLEL_CNT) :
    c * PARALLEL_CNT + l < pp.cycles * PARALLEL_CNT := by
  unfold PARALLEL_CNT at *
  omega

theorem rounds_apart {c : Nat} (hc : c < pp.cycles) :
    Apart (InTask (cycleOfst pp.szPerTask c) (BitVec.ofNat 32 pp.mtaskmem)) := by
  intro l hl l' hl' hne a ha ha'
  obtain ⟨j, hj, rfl⟩ := inTask_round h ha
  obtain ⟨j', hj', he⟩ := inTask_round h ha'
  have hs := (roundWord_inj h hfit (round_lt hc hl) (round_lt hc hl') hj hj' he).1
  omega

end Passes

/-- What the results need of a program: it sets what it reads, and keeps to its task. -/
structure SelfContained (F : Fpu) (mtaskmem : Nat) (ws : List Word) : Prop where
  host : ∀ w ∈ ws, HostWord w ∧ sBit w = false
  setsFirst : SetsFirst ws
  owns : ∀ g l, OwnsTask F g ws (BitVec.ofNat 32 mtaskmem) l

section Runs

variable {GBW : Nat} (F : Fpu) (cmem : BitVec GBW → Word) {pp : SwkGppcu} (h : pp.Dealt) (hfit : pp.CyclesFit)
  {ws : List Word} (hws : SelfContained F pp.mtaskmem ws)

include h hws

theorem result_congr (s : Nat) {words words' : Nat → Word} (hw : ∀ j < pp.mtaskmem, words j = words' j) {j : Nat}
    (hj : j < pp.mtaskmem) : pp.result F cmem ws s words j = pp.result F cmem ws s words' j := by
  rw [← h.taskmem_toNat] at hw hj
  exact (hws.owns _ _).congr h.taskmem_lt hws.setsFirst (fun w hw => (hws.host w hw).2) hw hj

include hfit

theorem pass_rounds {c : Nat} (hc : c < pp.cycles) (m : Machine Reg) {s : Nat} (hs : s < pp.cycles * PARALLEL_CNT)
    {j : Nat} (hj : j < pp.mtaskmem) :
    (Machine.run F id (constMem cmem (cycleOfst pp.szPerTask c))
      (gppcuProgramAutofeedDeviceParallel (BitVec.ofNat 32 pp.mtaskmem) ws) m).lmem (pp.roundWord s j) =
        if s / PARALLEL_CNT = c then pp.result F cmem ws s (fun j => m.lmem (pp.roundWord s j)) j
        else m.lmem (pp.roundWord s j) := by
  have hzero := constMem_zero cmem (cycleOfst pp.szPerTask c)
  have hpass := pass_results F (g := constMem cmem (cycleOfst pp.szPerTask c)) h.taskmem_lt hws.setsFirst hws.host
    (fun l _ => hws.owns _ l) (by rw [hzero]; exact rounds_apart h hfit hc) m
  rw [hzero, h.taskmem_toNat] at hpass
  obtain ⟨hown, hother⟩ := hpass
  split_ifs with hsc
  · have hl : s % PARALLEL_CNT < PARALLEL_CNT := Nat.mod_lt _ (by decide)
    have hround := hown (s % PARALLEL_CNT) hl j hj
    simp only [taskAddr_roundWord h] at hround
    rw [← hsc, Nat.div_add_mod'] at hround
    rw [← hsc]
    exact hround
  · apply hother
    intro l hl hin
    obtain ⟨j', hj', he⟩ := inTask_round h hin
    obtain ⟨rfl, -⟩ := roundWord_inj h hfit hs (round_lt hc hl) hj hj' he
    unfold PARALLEL_CNT at *
    omega

theorem passes_rounds (n : Nat) {c : Nat} (hn : c + n ≤ pp.cycles) (m : Machine Reg) {s : Nat}
    (hs : s < pp.cycles * PARALLEL_CNT) {j : Nat} (hj : j < pp.mtaskmem) :
    (cyclesFrom F cmem pp.szPerTask (gppcuProgramAutofeedDeviceParallel (BitVec.ofNat 32 pp.mtaskmem) ws)
      (cycleOfst pp.szPerTask c) n m).lmem (pp.roundWord s j) =
        if c ≤ s / PARALLEL_CNT ∧ s / PARALLEL_CNT < c + n then
          pp.result F cmem ws s (fun j => m.lmem (pp.roundWord s j)) j
        else m.lmem (pp.roundWord s j) := by
  induction n generalizing c m j with
  | zero =>
    rw [if_neg (by omega)]
    rfl
  | succ n ih =>
    have hpass := fun j (hj : j < pp.mtaskmem) => pass_rounds F cmem h hfit hws (c := c) (by omega) m hs hj
    rw [cyclesFrom, ← cycleOfst, ih (by omega) _ hj]
    by_cases hsc : s / PARALLEL_CNT = c
    · rw [if_neg (by omega), if_pos (by omega), hpass j hj, if_pos hsc]
    · simp only [hsc, if_false] at hpass
      rw [hpass j hj, result_congr F cmem h hws s hpass hj]
      simp only [show c + 1 ≤ s / PARALLEL_CNT ∧ s / PARALLEL_CNT < c + 1 + n ↔
        c ≤ s / PARALLEL_CNT ∧ s / PARALLEL_CNT < c + (n + 1) by omega]

end Runs

/-! ## The end of a run -/

namespace GppcuTestQueue

variable {QBW GBW T : Nat} (F : Fpu) {d : GppcuTestQueue QBW GBW T} {mtaskmem : Word} {ws : List Word}
  (hw : ∀ w ∈ ws, Queued w) (hsp : Spaced ws)
  (hload : d.queue.Loaded (gppcuProgramAutofeedDeviceParallel mtaskmem ws))

include hw hsp hload

theorem expanded_starts :
    d.queue.Framed ∧ 0 < d.queue.pmemEnd.toNat ∧ Restarts d.queue.words PassEnd := by
  have hpos : 0 < d.queue.pmemEnd.toNat := by
    rw [← Queue.words_length, hload.words]
    simp [gppcuProgramAutofeedDeviceParallel, prologue]
  have hfirst := Queue.words_drop d.queue hpos
  rw [hload.words] at hfirst
  refine ⟨⟨(List.cons.inj hfirst).1.symm, hload.behind⟩, hpos, ?_⟩
  rw [hload.words]
  exact restarts mtaskmem hw hsp

theorem expanded_settles (hT : 0 < T) (hs : d.queue.Started) (hreset : d.core.AfterReset)
    (hN : 0 < d.queue.numCycles.toNat) {n : Nat} (hdone : ((clock fun _ => F)^[n] d).oDONE = true)
    (hidle : ((clock fun _ => F)^[n] d).core.ctl.idling = true) : ((clock fun _ => F)^[n] d).core.AfterReset := by
  obtain ⟨hf, hpos, hr⟩ := expanded_starts hw hsp hload
  have hstart : Wrapped F d.queue _ PassEnd ⟨0, hT⟩ d := wrapped_start hs hreset hN hpos hr
  have hend := Lib.iterate_keeps (fun d' h => wrapped_clock hf hr hpos h) hstart n
  rcases hend with ⟨i, p, ahead, st, rest, M, h⟩ | ⟨st, M, h⟩
  · rw [oDONE, h.supply.done] at hdone
    cases hdone
  · exact h.pipe.settled hidle

end GppcuTestQueue

/-! ## From the upload to the results -/

namespace HostView

variable {QBW GBW T : Nat}

theorem serve_pmem {cs : List Call} (hcs : ∀ c ∈ cs, ∀ w, c ≠ .pushInstr w) (v : HostView QBW GBW T) :
    (v.serve cs).pmem = v.pmem := by
  induction cs generalizing v with
  | nil => rfl
  | cons c cs ih =>
    rw [List.forall_mem_cons] at hcs
    rw [serve_cons, ih hcs.2]
    cases c with
    | deviceCommand l x => exact (setRegister_queue l x _).1
    | pushInstr w => exact absurd rfl (hcs.1 w)
    | dataRd | dataWr | constantWr | stat => rfl

theorem upload_behind (pp : SwkGppcu) (marr : List Word) {ws : List Word}
    (hws : gppcuProgramAutofeedDeviceParallel (BitVec.ofNat 32 pp.mtaskmem) marr = ws)
    (hroom : ws.length < 2 ^ QBW) (v : HostView QBW GBW T) :
    (v.serve (pp.upload marr)).words = ws ∧ (v.serve (pp.upload marr)).pmemEnd.toNat = ws.length ∧
      ∀ a : BitVec QBW, ws.length ≤ a.toNat → (v.serve (pp.upload marr)).pmem a = v.pmem a := by
  subst hws
  refine ⟨upload_words pp marr v hroom, ?_⟩
  have hpmem : (v.serve (.deviceCommand LPM_RESETPRG 0 :: pp.adjust)).pmem = v.pmem :=
    serve_pmem (by simp [SwkGppcu.adjust]) v
  have hend : (v.serve (.deviceCommand LPM_RESETPRG 0 :: pp.adjust)).pmemEnd.toNat = 0 := BitVec.toNat_zero ..
  have hpush := pmem_pushes (gppcuProgramAutofeedDeviceParallel (BitVec.ofNat 32 pp.mtaskmem) marr)
    (v := v.serve (.deviceCommand LPM_RESETPRG 0 :: pp.adjust)) rfl (by rwa [hend, Nat.zero_add])
  rw [hend, Nat.zero_add, hpmem] at hpush
  rw [SwkGppcu.upload, serve_append]
  exact hpush

theorem upload_cells (pp : SwkGppcu) (marr : List Word) (v : HostView QBW GBW T) :
    (v.serve (pp.upload marr)).cells = v.cells := by
  have hnone : (pp.upload marr).filterMap Call.stored? = [] := by
    rw [List.filterMap_eq_nil_iff]
    intro c hc
    simp only [SwkGppcu.upload, SwkGppcu.adjust, List.cons_append, List.nil_append, List.mem_cons,
      List.mem_map] at hc
    rcases hc with rfl | rfl | rfl | ⟨w, -, rfl⟩ <;> rfl
  rw [v.cells_serve (by simp [hnone]), hnone, Lib.store_nil]

end HostView

/-- A program for these tasks that the memories have room for, and that the device runs in order. -/
structure SwkGppcu.Runs (F : Fpu) (QBW : Nat) (pp : SwkGppcu) (ks : List HostInstr) : Prop where
  dealt : pp.Dealt
  some : 0 < pp.roNumtask
  cycles : pp.CyclesFit
  room : (gppcuProgramAutofeedDeviceParallel (BitVec.ofNat 32 pp.mtaskmem) (ks.map HostInstr.word)).length < 2 ^ QBW
  padded : ∀ k ∈ ks, k.Padded ∧ k.s = false
  spaced : HostInstr.Spaced ks
  setsFirst : SetsFirst (ks.map HostInstr.word)
  owns : ∀ g l, OwnsTask F g (ks.map HostInstr.word) (BitVec.ofNat 32 pp.mtaskmem) l

section Upload

variable {QBW : Nat} {F : Fpu} {pp : SwkGppcu} {ks : List HostInstr} (h : pp.Runs F QBW ks)

include h

theorem SwkGppcu.Runs.selfContained : SelfContained F pp.mtaskmem (ks.map HostInstr.word) := by
  refine ⟨fun w hw => ?_, h.setsFirst, h.owns⟩
  obtain ⟨k, hk, rfl⟩ := List.mem_map.mp hw
  obtain ⟨hpadded, hflag⟩ := h.padded k hk
  exact ⟨HostInstr.hostWord hpadded.wellFormed, by rw [HostInstr.word_sBit, hflag]⟩

theorem SwkGppcu.Runs.queued : ∀ w ∈ ks.map HostInstr.word, Queued w := by
  intro w hw
  obtain ⟨k, hk, rfl⟩ := List.mem_map.mp hw
  exact (h.padded k hk).1.queued

theorem SwkGppcu.Runs.cycles_pos : 0 < pp.cycles := by
  have hround := h.dealt.round_lt h.some
  rw [Nat.zero_div] at hround
  unfold SwkGppcu.cycles PARALLEL_CNT
  omega

theorem SwkGppcu.Runs.round_lt {i : Nat} (hi : i < pp.roNumtask) :
    i / pp.mnumthr / PARALLEL_CNT < pp.cycles ∧ i / pp.mnumthr < pp.cycles * PARALLEL_CNT := by
  have hround := h.dealt.round_lt hi
  unfold SwkGppcu.cycles PARALLEL_CNT
  omega

end Upload

/-- The device at the start of the run, `v` being what the host has uploaded. -/
structure Primed {QBW GBW T : Nat} (pp : SwkGppcu) (ks : List HostInstr) (v : HostView QBW GBW T)
    (d : GppcuTestQueue QBW GBW T) : Prop where
  started : d.queue.Started
  reset : d.core.AfterReset
  program : d.queue.Loaded (gppcuProgramAutofeedDeviceParallel (BitVec.ofNat 32 pp.mtaskmem) (ks.map HostInstr.word))
  cycles : d.queue.numCycles.toNat = pp.cycles
  size : d.queue.szPerTask = pp.szPerTask
  memory : d.queue.pmem.ram = v.pmem
  constants : d.queue.cmem.ram = v.cmem
  cells : d.view.cells = v.cells

/-- A call before the upload: it starts no run, and pushes nothing. -/
structure Call.Prepares (c : Call) : Prop where
  inRange : c.InRange
  calm : c.Calm
  silent : ∀ w, c ≠ .pushInstr w

section Run

variable {QBW GBW T : Nat} (F : Fpu) {pp : SwkGppcu} {ks : List HostInstr} (h : pp.Runs F QBW ks)

include h

theorem SwkGppcu.Runs.primed {b : Board QBW GBW T} (hb : b.Settled) {cs : List Call} (hcs : ∀ c ∈ cs, c.Prepares)
    (hbehind : b.device.queue.word (gppcuProgramAutofeedDeviceParallel (BitVec.ofNat 32 pp.mtaskmem)
      (ks.map HostInstr.word)).length = 0)
    {es : List Event} (hes : Board.Launches (cs ++ pp.upload (ks.map HostInstr.word)) es) :
    Primed pp ks (b.device.view.serve (cs ++ pp.upload (ks.map HostInstr.word)))
      (Lib.run (Board.step fun _ => F) b es).device := by
  have hcalls : ∀ c ∈ cs ++ pp.upload (ks.map HostInstr.word), c.InRange ∧ c.Calm := by
    intro c hc
    rcases List.mem_append.mp hc with hc | hc
    · exact ⟨(hcs c hc).inRange, (hcs c hc).calm⟩
    · exact ⟨pp.upload_inRange _ c hc, upload_calm pp _ c hc⟩
  obtain ⟨hstarted, hreset, hview⟩ := hb.launches (fun _ => F) hes (fun c hc => (hcalls c hc).1)
    fun c hc => (hcalls c hc).2
  rw [HostView.serve_append] at hview
  have hpmem := HostView.serve_pmem (fun c hc => (hcs c hc).silent) b.device.view
  have hv : b.device.view.serve (cs ++ pp.upload (ks.map HostInstr.word)) =
      (b.device.view.serve cs).serve (pp.upload (ks.map HostInstr.word)) := HostView.serve_append ..
  obtain ⟨hwords, hend, hkeep⟩ := HostView.upload_behind pp (ks.map HostInstr.word) rfl h.room (b.device.view.serve cs)
  obtain ⟨-, hsz, hn⟩ := (b.device.view.serve cs).upload_registers pp (ks.map HostInstr.word)
  rw [← hv] at hwords hend hkeep hsz hn
  obtain ⟨hpmem', hend', hn', hsz', hcmem', hlmem'⟩ :=
    Board.serve_runCalls (b.device.view.serve (cs ++ pp.upload (ks.map HostInstr.word)))
  generalize b.device.view.serve (cs ++ pp.upload (ks.map HostInstr.word)) = v at *
  generalize (Lib.run (Board.step fun _ => F) b es).device = d at *
  have hram : d.queue.pmem.ram = v.pmem := (congrArg HostView.pmem hview).trans hpmem'
  have hlast : d.queue.pmemEnd = v.pmemEnd := (congrArg HostView.pmemEnd hview).trans hend'
  refine ⟨hstarted, hreset, ⟨?_, ?_⟩, ?_, ?_, hram, ?_, ?_⟩
  · rw [← hwords]
    unfold Queue.words Queue.word HostView.words
    rw [hram, hlast]
  · rw [hlast, hend, Queue.word, hram, hkeep, hpmem]
    · exact hbehind
    · rw [BitVec.toNat_ofNat, Nat.mod_eq_of_lt h.room]
  · rw [← h.dealt.cycles_toNat, SwkGppcu.cycles, ← hn, ← hn']
    exact congrArg (fun v => v.numCycles.toNat) hview
  · rw [SwkGppcu.szPerTask, ← hsz, ← hsz']
    exact congrArg HostView.szPerTask hview
  · rw [← hcmem']
    exact congrArg HostView.cmem hview
  · rw [hview]
    unfold HostView.cells HostView.cell
    rw [hlmem']

theorem Primed.ends {v : HostView QBW GBW T} {d : GppcuTestQueue QBW GBW T} (hd : Primed pp ks v d)
    (hT : pp.mnumthr ≤ T) :
    (∃ n, ((GppcuTestQueue.clock fun _ => F)^[n] d).oDONE = true ∧
      ((GppcuTestQueue.clock fun _ => F)^[n] d).core.ctl.idling = true) ∧
    ∀ n, ((GppcuTestQueue.clock fun _ => F)^[n] d).oDONE = true →
      ((GppcuTestQueue.clock fun _ => F)^[n] d).core.ctl.idling = true →
      ((GppcuTestQueue.clock fun _ => F)^[n] d).core.AfterReset ∧
      ∀ i < pp.roNumtask, ∀ j < pp.mtaskmem, ((GppcuTestQueue.clock fun _ => F)^[n] d).view.cells (pp.cell i j) =
        pp.result F v.cmem (ks.map HostInstr.word) (i / pp.mnumthr) (fun j => v.cells (pp.cell i j)) j := by
  have hT' : 0 < T := Nat.lt_of_lt_of_le h.dealt.pos hT
  have hspaced := HostInstr.spaced_words h.padded h.spaced
  have hpos : 0 < d.queue.numCycles.toNat := by
    rw [hd.cycles]
    exact h.cycles_pos
  obtain ⟨hend, harch⟩ := GppcuTestQueue.runs_expanded F h.queued hspaced hT' hd.program hd.started hd.reset hpos
  refine ⟨hend, fun n hdone hidle => ⟨GppcuTestQueue.expanded_settles F h.queued hspaced hd.program hT' hd.started
    hd.reset hpos hdone hidle, fun i hi j hj => ?_⟩⟩
  have hk : i % pp.mnumthr < T := Nat.lt_of_lt_of_le (Nat.mod_lt _ h.dealt.pos) hT
  have hthread := congrFun (harch n hdone hidle) ⟨i % pp.mnumthr, hk⟩
  obtain ⟨hcycle, hround⟩ := h.round_lt hi
  have hword := passes_rounds F d.queue.cmem.ram h.dealt h.cycles h.selfContained pp.cycles (c := 0)
    (Nat.le_of_eq (Nat.zero_add _)) (d.core.arch ⟨i % pp.mnumthr, hk⟩) hround hj
  rw [if_pos ⟨Nat.zero_le _, by rwa [Nat.zero_add]⟩, ← hd.cycles, ← hd.size] at hword
  have hcells : ∀ (v : HostView QBW GBW T) j, v.cells (pp.cell i j) =
      v.lmem ⟨i % pp.mnumthr, hk⟩ (pp.roundWord (i / pp.mnumthr) j) :=
    fun v j => (v.lmem_cells ⟨i % pp.mnumthr, hk⟩ _).symm
  have hgiven : ∀ j < pp.mtaskmem,
      (d.core.arch ⟨i % pp.mnumthr, hk⟩).lmem (pp.roundWord (i / pp.mnumthr) j) = v.cells (pp.cell i j) := by
    intro j hj
    rw [← hd.cells, hcells]
    rfl
  have hlast := congrFun (congrArg Machine.lmem hthread) (pp.roundWord (i / pp.mnumthr) j)
  rw [hcells, ← hd.constants, ← result_congr F d.queue.cmem.ram h.dealt h.selfContained _ hgiven hj]
  exact hlast.trans hword

end Run

end Gppcu
