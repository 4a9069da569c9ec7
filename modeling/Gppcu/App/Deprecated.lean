import Gppcu.App.Launch
import Gppcu.App.Upload
import Gppcu.Driver.Program

/-!
# The plain upload

`DEPRECATED__gppcu_program_autofeed_device` pushes two nops before each
instruction, for one task to a thread. The read register is one word behind, so
the last instruction is never taken, and from the second pass on the word behind
the program is. An FPU instruction takes the turn of the one that follows it.
-/

namespace Gppcu

open Instr

/-! ## The functions of the driver -/

/-- `DEPRECATED__gppcu_init`: the ports are left as they are. -/
def deprecatedGppcuInit (pp : SwkGppcu) (numThreads MaxWordPerThread : Nat) : SwkGppcu :=
  gppcuInit pp numThreads MaxWordPerThread

/-- `gppcu_init_task`: what `gppcu_init_task_parallel` sets, without its commands. -/
def gppcuInitTask (pp : SwkGppcu) (WordsPerTask : BitVec 8) (NumTasks : BitVec 16) : SwkGppcu :=
  { pp with
    roNumtask := NumTasks.toNat
    mtaskcycle := (NumTasks.toNat + pp.mnumthr - 1) / pp.mnumthr
    mtaskmem := WordsPerTask.toNat
    roTaskmaxcycle := pp.roMaxWordPerThread / WordsPerTask.toNat }

def deprecatedProgram (marr : List Word) : List Word := marr.flatMap fun instr => [0, 0, instr]

def SwkGppcu.deprecatedUpload (pp : SwkGppcu) (marr : List Word) : List Call :=
  [.deviceCommand LPM_RESETPRG 0, .deviceCommand LPM_SZPERCYCLE (BitVec.ofNat 16 pp.mtaskmem),
    .deviceCommand LPM_NUMCYCLE (BitVec.ofNat 16 pp.mtaskcycle)] ++ (deprecatedProgram marr).map .pushInstr

/-! ## Turns -/

section Turns

variable {α : Type*} (p : α → Bool)

/-- What is left when each `p` that is left takes the turn of its successor. -/
def kept : Bool → List α → List α
  | _, [] => []
  | true, _ :: xs => kept false xs
  | false, x :: xs => x :: kept (p x) xs

def keptEnd : Bool → List α → Bool
  | skip, [] => skip
  | true, _ :: xs => keptEnd false xs
  | false, x :: xs => keptEnd (p x) xs

theorem kept_append (skip : Bool) (xs ys : List α) :
    kept p skip (xs ++ ys) = kept p skip xs ++ kept p (keptEnd p skip xs) ys := by
  induction xs generalizing skip with
  | nil => rfl
  | cons x xs ih => cases skip <;> simp [kept, keptEnd, ih]

theorem kept_map {β : Type*} (f : β → α) (skip : Bool) (xs : List β) :
    kept p skip (xs.map f) = (kept (p ∘ f) skip xs).map f ∧
      keptEnd p skip (xs.map f) = keptEnd (p ∘ f) skip xs := by
  induction xs generalizing skip with
  | nil => exact ⟨rfl, rfl⟩
  | cons x xs ih => cases skip <;> simp [kept, keptEnd, ih]

end Turns

/-! ## One pass -/

section Pass

variable {s : Stages} {lag : Word}

structure Stages.Apart (s : Stages) : Prop where
  fetch : s.f = 0
  decode : s.d = 0

theorem Stages.Apart.clear (h : s.Apart) : s.Clear := clear_zero s h.decode

theorem Stages.Apart.wrapped (h : s.Apart) : s.wrapped.Apart ∧ isFp s.wrapped.e = isFp s.e := by
  unfold Stages.wrapped
  split_ifs with hfp
  · exact ⟨h, rfl⟩
  · refine ⟨⟨rfl, h.fetch⟩, ?_⟩
    change isFp s.d = _
    rw [h.decode, zero_isFp, eq_comm, ← Bool.not_eq_true]
    exact hfp

/-- What the three words of an instruction put into the pipeline. -/
def turn (s : Stages) (lag : Word) : Stages := ⟨0, 0, if isFp s.e then 0 else lag, 0⟩

theorem turn_apart : (turn s lag).Apart := ⟨rfl, rfl⟩

theorem Stages.Apart.behind (h : s.Apart) : isFp s.d = false ∧ isFp s.f = false := by
  rw [h.decode, h.fetch]
  exact ⟨zero_isFp, zero_isFp⟩

theorem Stages.Apart.clear_next (h : s.Apart) (w : Word) {u : Word} (hu : sAllowed u) :
    (⟨w, u, s.f, s.d⟩ : Stages).Clear := by
  obtain ⟨-, hf⟩ := h.behind
  refine ⟨?_, ?_, ?_, hu⟩
  · change Indep u s.f
    rw [h.fetch]
    exact indep_zero_right _
  · change Indep u s.d
    rw [h.decode]
    exact indep_zero_right _
  · intro hfp
    rw [show isFp s.f = true from hfp] at hf
    cases hf

theorem deprecated_turn (h : s.Apart) (k : Word) (ws : List Word) :
    s.fed lag (0 :: 0 :: k :: ws) = (if isFp s.e then 0 else lag) :: 0 :: 0 :: (turn s lag).fed k ws ∧
      s.through lag (0 :: 0 :: k :: ws) = (turn s lag).through k ws := by
  obtain ⟨hd, hf⟩ := h.behind
  simp only [Stages.fed, Stages.through, Stages.take, hd, hf, Bool.false_eq_true, if_false]
  rw [h.fetch]
  exact ⟨rfl, rfl⟩

theorem deprecated_passes (h : s.Apart) (k : Word) {ws : List Word} (hl : sAllowed lag)
    (hws : (turn s lag).Passes k ws) : s.Passes lag (0 :: 0 :: k :: ws) := by
  obtain ⟨hd, hf⟩ := h.behind
  have hu : sAllowed (if isFp s.e then 0 else lag) := by
    split_ifs
    · exact zero_sAllowed
    · exact hl
  simp only [Stages.Passes, Stages.take, hd, hf, Bool.false_eq_true, if_false]
  refine ⟨h.clear, Stages.clear_zero _ h.fetch, h.clear_next 0 hu, ?_⟩
  rw [h.fetch]
  exact hws

theorem turn_kept (F : Fpu) (s : Stages) (lag : Word) (l : List Word) :
    keptEnd isFp (isFp s.e) (lag :: l) = keptEnd isFp (isFp (turn s lag).e) l ∧
      ∀ g m, Machine.run F id g (kept isFp (isFp (turn s lag).e) l)
        (Machine.exec F id g m (if isFp s.e then 0 else lag)) =
          Machine.run F id g (kept isFp (isFp s.e) (lag :: l)) m := by
  cases hfp : isFp s.e with
  | true =>
    have he : isFp (turn s lag).e = false := by simp [turn, hfp, show isFp 0#32 = false from zero_isFp]
    rw [he]
    refine ⟨rfl, fun g m => ?_⟩
    rw [if_pos rfl, exec_zero]
    rfl
  | false =>
    have he : (turn s lag).e = lag := by simp [turn, hfp]
    rw [he]
    exact ⟨rfl, fun g m => rfl⟩

/-- A pass over the program: the turns of the word in the read register and of all instructions but
the last. -/
theorem deprecated_pass (F : Fpu) (k : Word) (ks : List Word) (h : s.Apart) (hl : sAllowed lag)
    (hks : ∀ w ∈ k :: ks, sAllowed w) :
    s.Passes lag (deprecatedProgram (k :: ks)) ∧ (s.through lag (deprecatedProgram (k :: ks))).Apart ∧
      isFp (s.through lag (deprecatedProgram (k :: ks))).e =
        keptEnd isFp (isFp s.e) (lag :: (k :: ks).dropLast) ∧
      ∀ g m, Machine.run F id g (s.fed lag (deprecatedProgram (k :: ks))) m =
        Machine.run F id g (kept isFp (isFp s.e) (lag :: (k :: ks).dropLast)) m := by
  induction ks generalizing k s lag with
  | nil =>
    obtain ⟨hfed, hover⟩ := deprecated_turn h k []
    obtain ⟨hend, hrun⟩ := turn_kept F s lag []
    change s.Passes lag [0, 0, k] ∧ (s.through lag [0, 0, k]).Apart ∧ isFp (s.through lag [0, 0, k]).e = _ ∧
      ∀ g m, Machine.run F id g (s.fed lag [0, 0, k]) m = _
    rw [hfed, hover]
    refine ⟨deprecated_passes h k hl ⟨turn_apart.clear, ?_, ?_⟩, turn_apart, hend.symm, fun g m => ?_⟩
    · rw [turn_apart.wrapped.1.decode]
      exact zero_offPivot
    · rw [turn_apart.wrapped.1.fetch]
      exact zero_offPivot
    · simp only [Machine.run_cons, exec_zero]
      exact hrun g m
  | cons k' ks ih =>
    rw [List.forall_mem_cons] at hks
    obtain ⟨hfed, hover⟩ := deprecated_turn h k (deprecatedProgram (k' :: ks))
    obtain ⟨hend, hrun⟩ := turn_kept F s lag (k :: (k' :: ks).dropLast)
    obtain ⟨hpasses, hapart, hend', hrun'⟩ := ih k' (s := turn s lag) turn_apart hks.1 hks.2
    have hwords : deprecatedProgram (k :: k' :: ks) = 0 :: 0 :: k :: deprecatedProgram (k' :: ks) := rfl
    rw [hwords, hfed, hover, List.dropLast_cons_cons]
    refine ⟨deprecated_passes h k hl hpasses, hapart, hend'.trans hend.symm, fun g m => ?_⟩
    simp only [Machine.run_cons, exec_zero]
    rw [hrun', hrun]

end Pass

/-! ## All passes -/

section Turns

variable {QBW GBW T : Nat} (F : Fpu)

/-- The turns of `n` passes, each with its task offset, and the one behind the last pass. `lag` has
the first turn, and the word behind the program that of every later pass. -/
def turnsFrom (sz behind : Word) (marr : List Word) : Nat → Word → Word → List (Word × Word)
  | 0, ofst, lag => [(ofst, lag)]
  | n + 1, ofst, lag => (lag :: marr.dropLast).map (Prod.mk ofst) ++
      turnsFrom sz behind marr n (ofst + sz) behind

def runTurns (cmem : BitVec GBW → Word) (ts : List (Word × Word)) (m : Machine Reg) : Machine Reg :=
  ts.foldl (fun m t => Machine.exec F id (constMem cmem t.1) m t.2) m

theorem runTurns_append (cmem : BitVec GBW → Word) (ts us : List (Word × Word)) (m : Machine Reg) :
    runTurns F cmem (ts ++ us) m = runTurns F cmem us (runTurns F cmem ts m) := List.foldl_append ..

theorem runTurns_map (cmem : BitVec GBW → Word) (ofst : Word) (ws : List Word) (m : Machine Reg) :
    runTurns F cmem (ws.map (Prod.mk ofst)) m = Machine.run F id (constMem cmem ofst) ws m := by
  induction ws generalizing m with
  | nil => rfl
  | cons w ws ih => exact ih _

variable {q : Queue QBW GBW} {k : Word} {ks : List Word} {s : Stages} {lag : Word}

theorem deprecated_safe (hwords : q.words = deprecatedProgram (k :: ks)) (hks : ∀ w ∈ k :: ks, sAllowed w)
    (hstale : sAllowed (q.word q.pmemEnd.toNat)) (n : Nat) (h : s.Apart) (hl : sAllowed lag) :
    SafeFrom q n s lag := by
  induction n generalizing s lag with
  | zero =>
    refine ⟨h.clear, ?_⟩
    split_ifs
    · exact ⟨h.clear, Stages.clear_zero _ h.fetch⟩
    · exact ⟨Stages.clear_zero _ h.fetch, h.clear_next 0 hl⟩
  | succ n ih =>
    obtain ⟨hpasses, hapart, -⟩ := deprecated_pass anyFpu k ks h hl hks
    rw [SafeFrom, hwords]
    exact ⟨hpasses, ih hapart.wrapped.1 hstale⟩

theorem deprecated_fed (hwords : q.words = deprecatedProgram (k :: ks)) (hks : ∀ w ∈ k :: ks, sAllowed w)
    (hstale : sAllowed (q.word q.pmemEnd.toNat)) (n : Nat) (ofst : Word) (h : s.Apart) (hl : sAllowed lag)
    (m : Machine Reg) : fedFrom F q n ofst s lag m = runTurns F q.cmem.ram
      (kept (isFp ∘ Prod.snd) (isFp s.e) (turnsFrom q.szPerTask (q.word q.pmemEnd.toNat) (k :: ks) n ofst lag)) m := by
  induction n generalizing ofst s lag m with
  | zero => cases hfp : isFp s.e <;> simp [fedFrom, turnsFrom, kept, hfp, runTurns]
  | succ n ih =>
    obtain ⟨-, hapart, hend, hrun⟩ := deprecated_pass F k ks h hl hks
    have hfp := hapart.wrapped.2
    rw [fedFrom, hwords, hrun, Stages.after, ih _ hapart.wrapped.1 hstale, hfp, hend, turnsFrom, kept_append,
      runTurns_append]
    have hmap := kept_map (isFp ∘ Prod.snd) (Prod.mk ofst) (isFp s.e) (lag :: (k :: ks).dropLast)
    rw [hmap.1, hmap.2, runTurns_map]
    rfl

end Turns

/-! ## On the board -/

section Board

variable {QBW GBW T : Nat} (F : Fpu)

theorem deprecatedProgram_length (marr : List Word) : (deprecatedProgram marr).length = 3 * marr.length := by
  induction marr with
  | nil => rfl
  | cons w marr ih =>
    have hcons : deprecatedProgram (w :: marr) = [0, 0, w] ++ deprecatedProgram marr := rfl
    rw [hcons, List.length_append, ih, List.length_cons, List.length_cons, List.length_cons, List.length_nil,
      List.length_cons]
    omega

theorem deprecatedUpload_view (pp : SwkGppcu) {marr : List Word} (hroom : 3 * marr.length < 2 ^ QBW)
    (v : HostView QBW GBW T) :
    (v.serve (pp.deprecatedUpload marr)).words = deprecatedProgram marr ∧
      (v.serve (pp.deprecatedUpload marr)).pmemEnd.toNat = 3 * marr.length ∧
      (v.serve (pp.deprecatedUpload marr)).pmem (BitVec.ofNat QBW (3 * marr.length)) =
        v.pmem (BitVec.ofNat QBW (3 * marr.length)) ∧
      (v.serve (pp.deprecatedUpload marr)).szPerTask = (BitVec.ofNat 16 pp.mtaskmem).setWidth 32 ∧
      (v.serve (pp.deprecatedUpload marr)).numCycles = (BitVec.ofNat 16 pp.mtaskcycle).setWidth 12 := by
  have hlen := deprecatedProgram_length marr
  have hpush : ∀ c ∈ (deprecatedProgram marr).map Call.pushInstr, ∀ l x, c ≠ .deviceCommand l x := by simp
  unfold SwkGppcu.deprecatedUpload
  rw [HostView.serve_append]
  generalize hv : v.serve [.deviceCommand LPM_RESETPRG 0,
    .deviceCommand LPM_SZPERCYCLE (BitVec.ofNat 16 pp.mtaskmem),
    .deviceCommand LPM_NUMCYCLE (BitVec.ofNat 16 pp.mtaskcycle)] = v₀
  have hrun : v₀.pmemRunning = false := by rw [← hv]; rfl
  have hend : v₀.pmemEnd = 0 := by rw [← hv]; rfl
  have hpmem : v₀.pmem = v.pmem := by rw [← hv]; rfl
  have hsz : v₀.szPerTask = (BitVec.ofNat 16 pp.mtaskmem).setWidth 32 := by rw [← hv]; rfl
  have hnum : v₀.numCycles = (BitVec.ofNat 16 pp.mtaskcycle).setWidth 12 := by rw [← hv]; rfl
  have hzero : v₀.pmemEnd.toNat = 0 := by rw [hend]; rfl
  have hempty : v₀.words = [] := by
    unfold HostView.words
    rw [hzero]
    rfl
  obtain ⟨-, hsz', hnum'⟩ := HostView.serve_registers hpush v₀
  obtain ⟨hend', hkeep⟩ := HostView.pmem_pushes (deprecatedProgram marr) hrun (by omega)
  have hwords := HostView.words_pushes (deprecatedProgram marr) hrun (by omega)
  refine ⟨by rw [hwords, hempty, List.nil_append], by omega, ?_, hsz'.trans hsz, hnum'.trans hnum⟩
  rw [hkeep _ (by rw [BitVec.toNat_ofNat, Nat.mod_eq_of_lt hroom]; omega), hpmem]

theorem mem_deprecatedUpload {pp : SwkGppcu} {marr : List Word} {c : Call} (h : c ∈ pp.deprecatedUpload marr) :
    c.InRange ∧ c.Calm := by
  simp only [SwkGppcu.deprecatedUpload, List.cons_append, List.nil_append, List.mem_cons, List.mem_map] at h
  rcases h with rfl | rfl | rfl | ⟨w, -, rfl⟩
  · exact ⟨trivial, Call.calm_command (by decide) _⟩
  · exact ⟨trivial, Call.calm_command (by decide) _⟩
  · exact ⟨trivial, Call.calm_command (by decide) _⟩
  · exact ⟨trivial, Call.calm_plain (by simp)⟩

/-- What the plain upload runs: on a settled board every program whose words fit comes to its
end, and then each thread has executed, in order, the turns that no FPU instruction takes. -/
theorem deprecated_runs (hT : 0 < T) (pp : SwkGppcu) {marr : List Word} (hne : marr ≠ [])
    (hallow : ∀ w ∈ marr, sAllowed w) (hroom : 3 * marr.length < 2 ^ QBW) {b : Board QBW GBW T}
    (h : b.Settled) (hbehind : sAllowed (b.device.queue.word (3 * marr.length))) {es : List Event}
    (hes : Board.Launches (pp.deprecatedUpload marr) es) :
    (∃ n, ((GppcuTestQueue.clock fun _ => F)^[n] (Lib.run (Board.step fun _ => F) b es).device).oDONE = true ∧
      ((GppcuTestQueue.clock fun _ => F)^[n] (Lib.run (Board.step fun _ => F) b es).device).core.ctl.idling =
        true) ∧
    ∀ es', Watches es' →
      (Lib.run (Board.step fun _ => F) b (es ++ es')).device.oDONE = true →
      (Lib.run (Board.step fun _ => F) b (es ++ es')).device.core.ctl.idling = true →
      (Lib.run (Board.step fun _ => F) b (es ++ es')).Settled ∧
      (Lib.run (Board.step fun _ => F) b (es ++ es')).device.core.arch = fun k =>
        runTurns F (Lib.run (Board.step fun _ => F) b es).device.queue.cmem.ram
          (kept (isFp ∘ Prod.snd) false (turnsFrom (BitVec.setWidth 32 (BitVec.ofNat 16 pp.mtaskmem))
            (b.device.queue.word (3 * marr.length)) marr (pp.mtaskcycle % 2 ^ 12) 0 0))
          ((Lib.run (Board.step fun _ => F) b es).device.core.arch k) := by
  obtain ⟨k, ks, rfl⟩ := List.exists_cons_of_ne_nil hne
  obtain ⟨hstarted, hreset, hview⟩ := h.launches (fun _ => F) hes
    (fun c hc => (mem_deprecatedUpload hc).1) (fun c hc => (mem_deprecatedUpload hc).2)
  obtain ⟨hwords, hend, hkeep, hsz, hnum⟩ := deprecatedUpload_view pp hroom b.device.view
  rw [HostView.serve_append] at hview
  obtain ⟨hpmem₁, hend₁, hnum₁, hsz₁, -⟩ :=
    Board.serve_runCalls (b.device.view.serve (pp.deprecatedUpload (k :: ks)))
  generalize b.device.view.serve (pp.deprecatedUpload (k :: ks)) = v at *
  generalize hd : (Lib.run (Board.step fun _ => F) b es).device = d at *
  have hends : d.queue.pmemEnd = v.pmemEnd := (congrArg HostView.pmemEnd hview).trans hend₁
  have hpmem : d.queue.pmem.ram = v.pmem := (congrArg HostView.pmem hview).trans hpmem₁
  have hwords' : d.queue.words = deprecatedProgram (k :: ks) := by
    rw [← hwords]
    unfold Queue.words Queue.word HostView.words
    rw [hends, hpmem]
  have hend' : d.queue.pmemEnd.toNat = 3 * (k :: ks).length := by rw [hends, hend]
  have hbehind' : d.queue.word d.queue.pmemEnd.toNat = b.device.queue.word (3 * (k :: ks).length) := by
    rw [hend', Queue.word, hpmem, hkeep]
    rfl
  have hsz' : d.queue.szPerTask = BitVec.setWidth 32 (BitVec.ofNat 16 pp.mtaskmem) :=
    (congrArg HostView.szPerTask hview).trans (hsz₁.trans hsz)
  have hnum' : d.queue.numCycles.toNat = pp.mtaskcycle % 2 ^ 12 := by
    have hn : d.queue.numCycles = BitVec.setWidth 12 (BitVec.ofNat 16 pp.mtaskcycle) :=
      (congrArg HostView.numCycles hview).trans (hnum₁.trans hnum)
    rw [hn, BitVec.toNat_setWidth, BitVec.toNat_ofNat]
    omega
  have hpos : 0 < d.queue.pmemEnd.toNat := by
    rw [hend', List.length_cons]
    omega
  have hfirst : d.queue.word 0 = 0 := by
    have hcons := Queue.words_drop d.queue hpos
    rw [hwords'] at hcons
    exact (List.cons.inj hcons).1.symm
  have hlag : sAllowed (d.queue.word 0) := by
    rw [hfirst]
    exact zero_sAllowed
  have hallow' : sAllowed (d.queue.word d.queue.pmemEnd.toNat) := by rwa [hbehind']
  have hempty : Stages.empty.Apart := ⟨rfl, rfl⟩
  have hsafe := deprecated_safe hwords' hallow hallow' d.queue.numCycles.toNat hempty hlag
  refine ⟨(GppcuTestQueue.runs_fed (F := F) d hT hstarted hreset hpos hsafe).1, fun es' hw hdone hidle => ?_⟩
  have hticks := Board.device_ticks (fun _ => F) (Board.watches_quiet hw) (Lib.run (Board.step fun _ => F) b es)
  rw [← Lib.run_append, hd] at hticks
  rw [hticks] at hdone hidle
  have hended := GppcuTestQueue.ends F d hT hstarted hreset hpos hsafe _ hdone hidle
  rw [← hticks] at hended
  refine ⟨⟨hended.settled, fun _ => hended.done⟩, ?_⟩
  rw [hended.arch]
  funext j
  have hnot : isFp Stages.empty.e = false := zero_isFp
  rw [deprecated_fed F hwords' hallow hallow' _ _ hempty hlag, hsz', hbehind', hnum', hfirst, hnot]

def plainCalls : List HostInstr :=
  [.fpArith 0 .fmul 1 1 1, .stl 0 1 2 0, .mvi 0 false 3 9, .stl 0 3 2 0, .nop]

def plainProgram : List Word := plainCalls.map HostInstr.word

def plainTask : SwkGppcu := gppcuInitTask (deprecatedGppcuInit ⟨0, 0, 0, 0, 0, 0⟩ 2 512) 4 3

theorem deprecated_runs_plain : ∃ n,
    (Lib.run (Board.step fun _ => anyFpu) idleBoard
      (launchEvents (plainTask.deprecatedUpload plainProgram) ++ watchEvents n)).device.core.arch = fun k =>
        runTurns anyFpu (Lib.run (Board.step fun _ => anyFpu) idleBoard
            (launchEvents (plainTask.deprecatedUpload plainProgram))).device.queue.cmem.ram
          (kept (isFp ∘ Prod.snd) false (turnsFrom (BitVec.setWidth 32 (BitVec.ofNat 16 plainTask.mtaskmem))
            (idleBoard.device.queue.word (3 * plainProgram.length)) plainProgram (plainTask.mtaskcycle % 2 ^ 12)
            0 0))
          ((Lib.run (Board.step fun _ => anyFpu) idleBoard
            (launchEvents (plainTask.deprecatedUpload plainProgram))).device.core.arch k) := by
  have hne : plainProgram ≠ [] := by decide
  have hflags : ∀ k ∈ plainCalls, k.s = true → k.opr.flagsDeclared = true := by decide
  have hallow : ∀ w ∈ plainProgram, sAllowed w := by
    intro w hw
    obtain ⟨k, hk, rfl⟩ := List.mem_map.mp hw
    exact HostInstr.word_allowed (hflags k hk)
  have h := deprecated_runs anyFpu (by decide) plainTask hne hallow (by decide) idleBoard_settled
    (by decide) (launches_launchEvents _)
  obtain ⟨n, hdone, hidle⟩ := h.1
  rw [← run_watchEvents] at hdone hidle
  exact ⟨n, (h.2 (watchEvents n) (watches_watchEvents n) hdone hidle).2⟩

end Board

end Gppcu
