import Gppcu.App.Results

/-!
# Jobs

The driver as a host program uses it: tasks are set up, their words and the
constants are written, a program is uploaded and run, and the results are read.
-/

namespace Gppcu

open Instr

/-! ## A job -/

/-- What the host passes to the driver, and what it and the clock do up to the run, until the host knows
that it is done, and while the results are read. -/
structure Job where
  program : List HostInstr
  wordsPerTask : BitVec 8
  numTasks : BitVec 16
  input : List Word
  inSize : BitVec 8
  inOfst : Word
  constants : List Word
  constOfst : Word
  outSize : BitVec 8
  outOfst : Word
  capacity : Word
  launch : List Event
  watch : List Event
  download : List Event

namespace Job

abbrev Host (QBW GBW T : Nat) := SwkGppcu × Board QBW GBW T

section Calls

variable (job : Job)

def words : List Word := job.program.map HostInstr.word

def pushed : List Word := gppcuProgramAutofeedDeviceParallel (BitVec.ofNat 32 job.wordsPerTask.toNat) job.words

def tasks (pp : SwkGppcu) : SwkGppcu := (gppcuInitTaskParallel pp job.wordsPerTask job.numTasks).1

def prepare (pp : SwkGppcu) : List Call :=
  (gppcuInitTaskParallel pp job.wordsPerTask job.numTasks).2 ++
    (gppcuWrite (job.tasks pp) job.input job.inSize job.inOfst ++ gppcuWriteConst job.constants job.constOfst)

def upload (pp : SwkGppcu) : List Call := job.prepare pp ++ (job.tasks pp).upload job.words

end Calls

variable {QBW GBW T : Nat} (F : Fpu)

def given (job : Job) (s : Host QBW GBW T) (i j : Nat) : Word :=
  if job.inOfst.toNat ≤ j ∧ j < job.inOfst.toNat + job.inSize.toNat then
    job.input.getD (i * job.inSize.toNat + (j - job.inOfst.toNat)) 0
  else s.2.device.view.cells ((job.tasks s.1).cell i j)

def result (job : Job) (s : Host QBW GBW T) (i j : Nat) : Word :=
  (job.tasks s.1).result F (s.2.device.view.serve (job.upload s.1)).cmem job.words
    (i / s.1.mnumthr) (job.given s i) j

/-- What the driver asserts, what the memories have room for, and what the results need of the program. -/
structure Valid (QBW : Nat) (pp : SwkGppcu) (job : Job) : Prop where
  nonempty : 1 ≤ job.wordsPerTask.toNat ∧ 1 ≤ job.numTasks.toNat
  tasks : job.numTasks.toNat < 512 / job.wordsPerTask.toNat * pp.mnumthr
  cycles : (job.tasks pp).CyclesFit
  input : job.inOfst.toNat + job.inSize.toNat < job.wordsPerTask.toNat
  output : job.outOfst.toNat + job.outSize.toNat < job.wordsPerTask.toNat
  room : job.pushed.length < 2 ^ QBW
  padded : ∀ k ∈ job.program, k.Padded ∧ k.s = false
  spaced : HostInstr.Spaced job.program
  setsFirst : SetsFirst job.words
  owns : ∀ g l, OwnsTask F g job.words (BitVec.ofNat 32 job.wordsPerTask.toNat) l

/-- The host makes the calls of the job, nothing being behind its program, and reads the results from
a core that has drained. -/
structure Follows (s : Host QBW GBW T) (job : Job) : Prop where
  valid : Valid F QBW s.1 job
  behind : s.2.device.queue.word job.pushed.length = 0
  launch : Board.Launches (job.upload s.1) job.launch
  watch : Watches job.watch
  done : (Lib.run (Board.step fun _ => F) s.2 (job.launch ++ job.watch)).device.oDONE = true
  drained : (Lib.run (Board.step fun _ => F) s.2 (job.launch ++ job.watch)).device.core.ctl.idling = true
  download : job.download.filterMap Event.access? =
    (gppcuRead (job.tasks s.1) job.capacity job.outSize job.outOfst).flatMap Call.accesses

def step (s : Host QBW GBW T) (job : Job) : Host QBW GBW T :=
  (job.tasks s.1, Lib.run (Board.step fun _ => F) s.2 (job.launch ++ job.watch ++ job.download))

/-- What the host reads is the result of every task for which the destination has room. -/
def Computes (s : Host QBW GBW T) (job : Job) : Prop :=
  ∀ i < job.numTasks.toNat, i * job.outSize.toNat + job.outSize.toNat < job.capacity.toNat →
    ∀ j < job.outSize.toNat,
      ((Lib.run (Board.step fun _ => F) s.2 (job.launch ++ job.watch)).dataReads (fun _ => F)
          job.download)[i * job.outSize.toNat + j]? =
        some (job.result F s i (job.outOfst.toNat + j))

/-! ## Uploading it -/

/-- Between two jobs: `gppcu_init` has been called, and the board is settled. -/
structure Ready (s : Host QBW GBW T) : Prop where
  pos : 0 < s.1.mnumthr
  le : s.1.mnumthr ≤ 24
  device : s.1.mnumthr ≤ T
  memory : s.1.roMaxWordPerThread = 512
  settled : s.2.Settled

section Upload

variable {F} {job : Job} {s : Host QBW GBW T} (hs : Ready s) (h : Valid F QBW s.1 job)

include hs h

theorem fits : (job.tasks s.1).Fits T := ⟨hs.pos, hs.le, hs.device, h.tasks⟩

theorem runs : (job.tasks s.1).Runs F QBW job.program where
  dealt := ⟨hs.pos, h.nonempty.1, job.wordsPerTask.isLt, rfl, h.tasks⟩
  some := h.nonempty.2
  cycles := h.cycles
  room := h.room
  padded := h.padded
  spaced := h.spaced
  setsFirst := h.setsFirst
  owns := h.owns

theorem prepares : ∀ c ∈ job.prepare s.1, c.Prepares := by
  intro c hc
  rcases List.mem_append.mp hc with hc | hc
  · refine ⟨(adjust_silent (job.tasks s.1)).2.2 c hc, adjust_calm (job.tasks s.1) c hc, ?_⟩
    rintro w rfl
    simp [gppcuInitTaskParallel, SwkGppcu.adjust] at hc
  rcases List.mem_append.mp hc with hc | hc
  · have hrange := gppcuWrite_inRange (fits hs h) job.input h.input c hc
    obtain ⟨i, hi, j, hj, x, rfl⟩ := mem_gppcuWrite (fits hs h) hc
    exact ⟨hrange, Call.calm_plain fun _ _ => Call.noConfusion, fun _ => Call.noConfusion⟩
  · obtain ⟨a, x, rfl⟩ := mem_gppcuWriteConst hc
    exact ⟨trivial, Call.calm_plain fun _ _ => Call.noConfusion, fun _ => Call.noConfusion⟩

theorem upload_cells {i j : Nat} (hi : i < job.numTasks.toNat) (hj : j < job.wordsPerTask.toNat) :
    (s.2.device.view.serve (job.upload s.1)).cells ((job.tasks s.1).cell i j) = job.given s i j := by
  have hfits := fits hs h
  have hconst : ∀ v : HostView QBW GBW T, (v.serve (gppcuWriteConst job.constants job.constOfst)).cells = v.cells := by
    intro v
    have hnone : (gppcuWriteConst job.constants job.constOfst).filterMap Call.stored? = [] := by
      rw [List.filterMap_eq_nil_iff]
      intro c hc
      obtain ⟨a, x, rfl⟩ := mem_gppcuWriteConst hc
      rfl
    rw [v.cells_serve (by simp [hnone]), hnone, Lib.store_nil]
  unfold upload prepare
  rw [HostView.serve_append, HostView.serve_append, HostView.serve_append, HostView.upload_cells, hconst]
  have hinit := adjust_cells (job.tasks s.1) s.2.device.view
  unfold given
  split_ifs with hin
  · obtain ⟨k, rfl⟩ := Nat.exists_eq_add_of_le hin.1
    rw [Nat.add_sub_cancel_left]
    exact cells_write_own hfits _ h.input job.input hi (by omega)
  · rw [cells_write_other hfits]
    · exact congrFun hinit _
    · intro i' hi' j' hj' hcell
      have hword := (hfits.cell_injective hi' (Nat.lt_trans (by omega) h.input) hi hj hcell).2
      omega

theorem primed (hbehind : s.2.device.queue.word job.pushed.length = 0) {es : List Event}
    (hes : Board.Launches (job.upload s.1) es) :
    Primed (job.tasks s.1) job.program (s.2.device.view.serve (job.upload s.1))
      (Lib.run (Board.step fun _ => F) s.2 es).device :=
  (runs hs h).primed F hs.settled (prepares hs h) hbehind hes

end Upload

/-! ## Running it -/

theorem Follows.computes {job : Job} {s : Host QBW GBW T} (hf : Follows F s job) (hs : Ready s) :
    Computes F s job ∧ Ready (step F s job) := by
  have hfits := fits hs hf.valid
  have hruns := runs hs hf.valid
  obtain ⟨-, hends⟩ := (primed hs hf.valid hf.behind hf.launch).ends F hruns hs.device
  have hdone := hf.done
  have hidle := hf.drained
  have hticks := Board.device_ticks (fun _ => F) (Board.watches_quiet hf.watch)
    (Lib.run (Board.step fun _ => F) s.2 job.launch)
  rw [← Lib.run_append] at hticks
  rw [hticks] at hdone hidle
  obtain ⟨hreset, hresults⟩ := hends _ hdone hidle
  rw [← hticks] at hreset hresults
  have hsettled : (Lib.run (Board.step fun _ => F) s.2 (job.launch ++ job.watch)).Settled :=
    ⟨hreset, fun _ => hf.done⟩
  have hrange := gppcuRead_inRange hfits job.capacity hf.valid.output
  have hcalm : ∀ c ∈ gppcuRead (job.tasks s.1) job.capacity job.outSize job.outOfst, c.Calm := by
    intro c hc
    obtain ⟨-, -, -, -, rfl⟩ := mem_gppcuRead hfits hc
    exact Call.calm_plain fun _ _ => Call.noConfusion
  obtain ⟨hserves, hsettled'⟩ := hsettled.serves (fun _ => F) hf.download hrange hcalm
  obtain ⟨-, hreads⟩ := hserves.served _ hrange
  constructor
  · intro i hi hroom j hj
    have hout := hf.valid.output
    have hword : job.outOfst.toNat + j < job.wordsPerTask.toNat := by omega
    have hgiven := fun j (hj : j < job.wordsPerTask.toNat) => upload_cells hs hf.valid hi hj
    have hlast : _ = job.result F s i (job.outOfst.toNat + j) :=
      (hresults i hi _ hword).trans (result_congr F _ hruns.dealt hruns.selfContained _ hgiven hword)
    rw [hreads, ← hlast]
    exact replies_element hfits _ hi hj hroom
  · refine ⟨hs.pos, hs.le, hs.device, hs.memory, ?_⟩
    rw [step, Lib.run_append]
    exact hsettled'

theorem Follows.word_behind {job : Job} {s : Host QBW GBW T} (hf : Follows F s job) (hs : Ready s) {a : Nat}
    (ha : job.pushed.length ≤ a) (hlt : a < 2 ^ QBW) :
    (step F s job).2.device.queue.word a = s.2.device.queue.word a := by
  have hrange := gppcuRead_inRange (fits hs hf.valid) job.capacity hf.valid.output
  have hprimed := primed hs hf.valid hf.behind hf.launch
  have hupload : (s.2.device.view.serve (job.upload s.1)).pmem (BitVec.ofNat QBW a) =
      s.2.device.view.pmem (BitVec.ofNat QBW a) := by
    obtain ⟨-, -, hkeep⟩ := HostView.upload_behind (job.tasks s.1) job.words rfl hf.valid.room
      (s.2.device.view.serve (job.prepare s.1))
    rw [upload, HostView.serve_append, hkeep _ (by rwa [BitVec.toNat_ofNat, Nat.mod_eq_of_lt hlt]),
      HostView.serve_pmem fun c hc => (prepares hs hf.valid c hc).silent]
  have hlaunch := congrFun hprimed.memory (BitVec.ofNat QBW a)
  have hwatch := GppcuTestQueue.view_queue (fun _ => F) (Lib.run (Board.step fun _ => F) s.2 job.launch).device
    (ticks job.watch)
  rw [← Board.device_ticks (fun _ => F) (Board.watches_quiet hf.watch), ← Lib.run_append] at hwatch
  have hread := Board.queue_served (fun _ => F)
    (b := Lib.run (Board.step fun _ => F) s.2 (job.launch ++ job.watch)) hf.download hrange
  rw [← Lib.run_append] at hread
  have hreads : ∀ v : HostView QBW GBW T,
      (v.serve (gppcuRead (job.tasks s.1) job.capacity job.outSize job.outOfst)).pmem = v.pmem := by
    refine HostView.serve_pmem fun c hc => ?_
    obtain ⟨-, -, -, -, rfl⟩ := mem_gppcuRead (fits hs hf.valid) hc
    exact fun _ => Call.noConfusion
  calc (step F s job).2.device.queue.word a
      = ((Lib.run (Board.step fun _ => F) s.2 (job.launch ++ job.watch)).device.view.serve
          (gppcuRead (job.tasks s.1) job.capacity job.outSize job.outOfst)).pmem (BitVec.ofNat QBW a) :=
        congrFun (congrArg HostView.pmem hread) _
    _ = (Lib.run (Board.step fun _ => F) s.2 (job.launch ++ job.watch)).device.view.pmem (BitVec.ofNat QBW a) := by
        rw [hreads]
    _ = (Lib.run (Board.step fun _ => F) s.2 job.launch).device.view.pmem (BitVec.ofNat QBW a) :=
        congrFun (congrArg HostView.pmem hwatch) _
    _ = s.2.device.queue.word a := hlaunch.trans hupload

theorem finishes {job : Job} {s : Host QBW GBW T} (hs : Ready s) (h : Valid F QBW s.1 job)
    (hbehind : s.2.device.queue.word job.pushed.length = 0) {es : List Event}
    (hes : Board.Launches (job.upload s.1) es) :
    ∃ n, (Lib.run (Board.step fun _ => F) s.2 (es ++ watchEvents n)).device.oDONE = true ∧
      (Lib.run (Board.step fun _ => F) s.2 (es ++ watchEvents n)).device.core.ctl.idling = true := by
  obtain ⟨⟨n, hn⟩, -⟩ := (primed hs h hbehind hes).ends F (runs hs h) hs.device
  refine ⟨n, ?_⟩
  rw [run_watchEvents]
  exact hn

def direct (job : Job) (pp : SwkGppcu) (n : Nat) : Job := { job with
  launch := launchEvents (job.upload pp)
  watch := watchEvents n
  download := ((gppcuRead (job.tasks pp) job.capacity job.outSize job.outOfst).flatMap Call.accesses).map .access }

theorem follows_direct {job : Job} {s : Host QBW GBW T} (hs : Ready s) (h : Valid F QBW s.1 job)
    (hbehind : s.2.device.queue.word job.pushed.length = 0) : ∃ n, Follows F s (job.direct s.1 n) := by
  obtain ⟨n, hdone, hdrained⟩ := finishes F hs h hbehind (launches_launchEvents (job.upload s.1))
  have hevents : launchEvents (job.upload s.1) ++ watchEvents n =
      (job.direct s.1 n).launch ++ (job.direct s.1 n).watch := rfl
  rw [hevents] at hdone hdrained
  exact ⟨n, ⟨h.nonempty, h.tasks, h.cycles, h.input, h.output, h.room, h.padded, h.spaced, h.setsFirst, h.owns⟩,
    hbehind, launches_launchEvents _, watches_watchEvents n, hdone, hdrained, Event.filterMap_access _⟩

def mapProgram (opr : Opr) : List HostInstr := [.ldl 0 0 9 0, .fpArith 0 opr 1 0 0, .stl 0 1 9 1]

def mapCalls (opr : Opr) (input : List Word) : Job where
  program := mapProgram opr
  wordsPerTask := 4
  numTasks := 7
  input := input
  inSize := 1
  inOfst := 0
  constants := []
  constOfst := 1
  outSize := 1
  outOfst := 1
  capacity := 8
  launch := []
  watch := []
  download := []

def squares : Job := mapCalls .fmul [2, 3, 5, 7, 11, 13, 17]

def doubles : Job := mapCalls .fadd [8, 9, 10, 11, 12, 13, 14]

def twoThreads : SwkGppcu := gppcuInit ⟨0, 0, 0, 0, 0, 0⟩ 2 512

theorem mapProgram_spaced (opr : Opr) (hopr : opr = .fmul ∨ opr = .fadd) : HostInstr.Spaced (mapProgram opr) := by
  rcases hopr with rfl | rfl
  all_goals
    refine ⟨fun h => absurd h (by decide), fun _ => ⟨Or.inr ⟨by decide, by decide⟩, ?_⟩,
      fun h => absurd h (by decide), trivial⟩
    rintro j js hj hnop
    obtain ⟨rfl, -⟩ := List.cons.inj hj
    cases hnop

theorem mapProgram_owns (opr : Opr) (hopr : opr = .fmul ∨ opr = .fadd) (g : BitVec 17 → Word) (l : Nat) :
    OwnsTask anyFpu g ((mapProgram opr).map HostInstr.word) 4 l := by
  have hkeeps : ∀ k ∈ mapProgram opr, KeepsToTask 9 4 k.word := by rcases hopr with rfl | rfl <;> decide
  refine ownsTask anyFpu g (fun w hw => ?_) l
  obtain ⟨k, hk, rfl⟩ := List.mem_map.mp hw
  exact hkeeps k hk

theorem mapCalls_valid {opr : Opr} (hopr : opr = .fmul ∨ opr = .fadd) (input : List Word) {pp : SwkGppcu}
    (hpp : pp.mnumthr = 2) : Valid anyFpu 6 pp (mapCalls opr input) where
  nonempty := show 1 ≤ 4 ∧ 1 ≤ 7 by decide
  tasks := show 7 < 512 / 4 * pp.mnumthr by omega
  cycles := by
    change ((7 + pp.mnumthr - 1) / pp.mnumthr + PARALLEL_CNT - 1) / PARALLEL_CNT * PARALLEL_CNT ≤ 512 / 4
    rw [hpp]
    decide
  input := show 0 + 1 < 4 by decide
  output := show 1 + 1 < 4 by decide
  room := by
    have hlen : ((gppcuProgramAutofeedDeviceParallel 4 ((mapProgram opr).map HostInstr.word)).length) < 64 := by
      rcases hopr with rfl | rfl <;> decide
    exact hlen
  padded := show ∀ k ∈ mapProgram opr, _ by rcases hopr with rfl | rfl <;> decide
  spaced := mapProgram_spaced opr hopr
  setsFirst := show SetsFirst ((mapProgram opr).map HostInstr.word) by rcases hopr with rfl | rfl <;> decide
  owns := mapProgram_owns opr hopr

end Job

end Gppcu
