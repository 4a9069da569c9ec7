import Gppcu.Driver.Padding
import Gppcu.Queue.Device

/-!
# Programs of the driver on the device

A program that the driver has expanded and pushed runs on the device as its
words do one at a time: always without FPU instructions, and with them when
what follows each one can stand being taken twice.
-/

namespace Gppcu

open Instr

/-! ## Calls -/

namespace HostInstr

def isFp (k : HostInstr) : Bool := k.opr.controlWord.fpOp

/-- The call loads the constant at address 0, where the device answers with the task offset. -/
def loadsOfst : HostInstr → Bool
  | .ldci _ _ addr => addr.setWidth 17 == 0#17
  | _ => false

def readsOwn (k : HostInstr) : Bool :=
  k.opr.controlWord.regWr &&
    (k.opr.controlWord.useRegA && k.ra == k.rd || k.opr.controlWord.useRegB && k.rb == k.rd)

theorem word_isFp (k : HostInstr) : Gppcu.isFp k.word = k.isFp := by
  rw [Gppcu.isFp, word_cw, isFp]

theorem word_nop (k : HostInstr) : Instr.opr k.word = 0 ↔ k.opr = .nop := by
  rw [word_opr]
  cases k.opr <;> decide

theorem word_allowed {k : HostInstr} (h : k.s = true → k.opr.flagsDeclared = true) : sAllowed k.word := by
  intro hs
  rw [word_sBit] at hs
  rw [word_opr, Opr.ofCode_code]
  exact h hs

theorem word_offPivot {k : HostInstr} (hk : k.WellFormed) (h : k.loadsOfst = false) :
    OffPivot k.word := by
  intro hb
  rw [word_cw] at hb
  have hfam := (Build.family_operands _).2.2.2 hb
  cases k with
  | ldci c d addr =>
    have himm : imm2 (word (.ldci c d addr)) = addr.setWidth 17 :=
      (Build.formC c.code .ldci false d.code addr).imm17
    rw [himm]
    simpa [loadsOfst] using h
  | nop | mvi | ldl | stl => cases hb
  | arithS | arith0 | arithA | arithB | fpArith | fp0 => exact absurd (hk.symm.trans hfam) (by decide)

theorem word_own {k : HostInstr} (hk : k.WellFormed) (h : k.readsOwn = false) :
    Indep k.word k.word := by
  intro r hr
  by_contra hn
  obtain ⟨hd, ha, hb⟩ := word_regs hk
  unfold reads at hr
  unfold writes at hn
  rw [word_cw] at hr hn
  simp only [Bool.not_eq_false, Bool.or_eq_true, Bool.and_eq_true, beq_iff_eq] at hr hn
  obtain ⟨hw, rfl⟩ := hn
  rw [hd hw] at hr
  have hown : k.readsOwn = true := by
    rcases hr with ⟨hu, he⟩ | ⟨hu, he⟩
    · rw [ha hu] at he
      simp [readsOwn, hw, hu, code_inj he]
    · rw [hb hu] at he
      simp [readsOwn, hw, hu, code_inj he]
  rw [h] at hown
  cases hown

structure Padded (k : HostInstr) : Prop where
  wellFormed : k.WellFormed
  flags : k.s = true → k.opr.flagsDeclared = true
  offPivot : k.loadsOfst = false
  own : k.isFp = true → k.readsOwn = false

theorem padded_iff (k : HostInstr) : k.Padded ↔ k.WellFormed ∧ (k.s = true → k.opr.flagsDeclared = true) ∧
    k.loadsOfst = false ∧ (k.isFp = true → k.readsOwn = false) :=
  ⟨fun ⟨hw, hs, ho, hr⟩ => ⟨hw, hs, ho, hr⟩, fun ⟨hw, hs, ho, hr⟩ => ⟨hw, hs, ho, hr⟩⟩

instance (k : HostInstr) : Decidable k.Padded := decidable_of_iff' _ k.padded_iff

theorem Padded.queued {k : HostInstr} (h : k.Padded) : Queued k.word where
  host := hostWord h.wellFormed
  allowed := word_allowed h.flags
  offPivot := word_offPivot h.wellFormed h.offPivot
  own := by
    intro hfp
    rw [word_isFp] at hfp
    exact word_own h.wellFormed (h.own hfp)

/-! ## Spacing -/

/-- The instruction may follow one of the FPU: the device takes one of its copies twice. -/
def Follower : List HostInstr → Prop
  | [] => True
  | k :: _ => k.opr = .nop ∨ (k.isFp = false ∧ k.readsOwn = false)

/-- Such an instruction stands behind every one of the FPU, directly and behind one nop. -/
def Spaced : List HostInstr → Prop
  | [] => True
  | k :: ks => (k.isFp = true → Follower ks ∧ ∀ j js, ks = j :: js → j.opr = .nop → Follower js) ∧
      Spaced ks

theorem follower_words {ks : List HostInstr} (hk : ∀ k ∈ ks, k.Padded ∧ k.s = false)
    (h : Follower ks) : Gppcu.Follower (ks.map word) := by
  cases ks with
  | nil => trivial
  | cons k ks =>
    obtain ⟨hp, hs⟩ := hk k (List.mem_cons_self ..)
    rcases h with hn | ⟨hfp, hown⟩
    · exact Or.inl ((word_nop k).mpr hn)
    · right
      rw [word_isFp]
      exact ⟨hfp, by rw [word_sBit, hs], word_own hp.wellFormed hown⟩

theorem spaced_words {ks : List HostInstr} (hk : ∀ k ∈ ks, k.Padded ∧ k.s = false) (h : Spaced ks) :
    Gppcu.Spaced (ks.map word) := by
  induction ks with
  | nil => trivial
  | cons k ks ih =>
    have hks : ∀ j ∈ ks, j.Padded ∧ j.s = false := fun j hj => hk j (List.mem_cons_of_mem _ hj)
    refine ⟨fun hfp => ?_, ih hks h.2⟩
    rw [word_isFp] at hfp
    obtain ⟨hnext, hsecond⟩ := h.1 hfp
    refine ⟨follower_words hks hnext, fun v vs hv hnop => ?_⟩
    cases ks with
    | nil => cases hv
    | cons j js =>
      obtain ⟨rfl, rfl⟩ := List.cons.inj hv
      exact follower_words (fun i hi => hks i (List.mem_cons_of_mem _ hi))
        (hsecond j js rfl ((word_nop j).mp hnop))

theorem spaced_of_integer {ks : List HostInstr} (h : ∀ k ∈ ks, k.isFp = false) :
    Gppcu.Spaced (ks.map word) := by
  induction ks with
  | nil => trivial
  | cons k ks ih =>
    rw [List.forall_mem_cons] at h
    refine ⟨fun hfp => ?_, ih h.2⟩
    rw [word_isFp, h.1] at hfp
    cases hfp

end HostInstr

/-! ## The pushed program on the device -/

/-- The program memory holds the words and a nop behind them. -/
structure Queue.Loaded {QBW GBW : Nat} (q : Queue QBW GBW) (ws : List Word) : Prop where
  words : q.words = ws
  behind : q.word q.pmemEnd.toNat = 0

namespace GppcuTestQueue

variable {QBW GBW T : Nat} (F : Fpu)

/-- The device comes to its end, and there every thread has executed the words one at a time,
`num_cycles` times, address 0 answering with the task offset of the pass. -/
def RunsInOrder (ws : List Word) (d : GppcuTestQueue QBW GBW T) : Prop :=
  (∃ n, ((clock fun _ => F)^[n] d).oDONE = true ∧ ((clock fun _ => F)^[n] d).core.ctl.idling = true) ∧
    ∀ n, ((clock fun _ => F)^[n] d).oDONE = true → ((clock fun _ => F)^[n] d).core.ctl.idling = true →
      ((clock fun _ => F)^[n] d).core.arch = fun k =>
        cyclesFrom F d.queue.cmem.ram d.queue.szPerTask ws 0 d.queue.numCycles.toNat (d.core.arch k)

theorem runs_expanded {d : GppcuTestQueue QBW GBW T} {mtaskmem : Word} {ws : List Word}
    (hw : ∀ w ∈ ws, Queued w) (hsp : Spaced ws) (hT : 0 < T)
    (hload : d.queue.Loaded (gppcuProgramAutofeedDeviceParallel mtaskmem ws)) (hs : d.queue.Started)
    (hreset : d.core.AfterReset) (hN : 0 < d.queue.numCycles.toNat) :
    RunsInOrder F (gppcuProgramAutofeedDeviceParallel mtaskmem ws) d := by
  have hpos : 0 < d.queue.pmemEnd.toNat := by
    rw [← Queue.words_length, hload.words]
    simp [gppcuProgramAutofeedDeviceParallel, prologue]
  have hfirst : d.queue.word 0 = 0 := by
    have h := Queue.words_drop d.queue hpos
    rw [hload.words] at h
    exact (List.cons.inj h).1.symm
  have hr : Restarts d.queue.words PassEnd := by
    rw [hload.words]
    exact restarts mtaskmem hw hsp
  have h := runs_program (F := F) d hT hs hreset ⟨hfirst, hload.behind⟩ hN hpos hr
  rwa [hload.words] at h

/-- Without instructions of the FPU every program that the driver pushes runs in order. -/
theorem integer_program_in_order (d : GppcuTestQueue QBW GBW T) (hT : 0 < T) (mtaskmem : Word)
    (calls : List HostInstr) (hcalls : ∀ k ∈ calls, k.Padded ∧ k.isFp = false)
    (hload : d.queue.Loaded (gppcuProgramAutofeedDeviceParallel mtaskmem (calls.map HostInstr.word)))
    (hs : d.queue.Started) (hreset : d.core.AfterReset) (hN : 1 ≤ d.queue.numCycles.toNat) :
    RunsInOrder F (gppcuProgramAutofeedDeviceParallel mtaskmem (calls.map HostInstr.word)) d := by
  apply runs_expanded F _ (HostInstr.spaced_of_integer fun k hk => (hcalls k hk).2) hT hload hs hreset hN
  intro w hw
  obtain ⟨k, hk, rfl⟩ := List.mem_map.mp hw
  exact (hcalls k hk).1.queued

def holding (ws : List Word) : GppcuTestQueue 6 1 1 where
  queue :=
    { pmem := ⟨fun k => ws.getD k.toNat 0, 0, 0⟩
      cmem := ⟨fun _ => 0, 0, 0⟩
      pmemEnd := BitVec.ofNat 6 ws.length
      pmemRunning := true
      numCycles := 1
      szPerTask := 3
      pmemHead := 0
      programDone := false
      curTaskOfst := 0
      curCycleIdx := 0 }
  core := { (Core.blankCore : Core 1) with
    threads := fun _ => { Core.blankThread with rg := fun r => r.setWidth 32 } }

theorem holding_reset (ws : List Word) : (holding ws).core.AfterReset :=
  ⟨rfl, rfl, rfl, rfl, rfl, fun _ => rfl⟩

def storeSum : List HostInstr := [.arithB 0 .adi true 1 1 5, .stl 0 1 9 0]

theorem integer_program_sum : RunsInOrder anyFpu
    (gppcuProgramAutofeedDeviceParallel 1 (storeSum.map HostInstr.word))
    (holding (gppcuProgramAutofeedDeviceParallel 1 (storeSum.map HostInstr.word))) :=
  integer_program_in_order anyFpu _ (by decide) 1 storeSum (by decide) ⟨by decide, by decide⟩
    ⟨rfl, rfl, rfl, rfl, rfl, by decide⟩ (holding_reset _) (by decide)

/-- A program with instructions of the FPU runs in order when they are spaced. -/
theorem spaced_program_in_order (d : GppcuTestQueue QBW GBW T) (hT : 0 < T) (mtaskmem : Word)
    (calls : List HostInstr) (hcalls : ∀ k ∈ calls, k.Padded ∧ k.Plain)
    (hspaced : HostInstr.Spaced calls)
    (hload : d.queue.Loaded (gppcuProgramAutofeedDeviceParallel mtaskmem (calls.map HostInstr.word)))
    (hs : d.queue.Started) (hreset : d.core.AfterReset) (hN : 1 ≤ d.queue.numCycles.toNat) :
    RunsInOrder F (gppcuProgramAutofeedDeviceParallel mtaskmem (calls.map HostInstr.word)) d := by
  have hk : ∀ k ∈ calls, k.Padded ∧ k.s = false := fun k hk => ⟨(hcalls k hk).1, (hcalls k hk).2.2⟩
  apply runs_expanded F _ (HostInstr.spaced_words hk hspaced) hT hload hs hreset hN
  intro w hw
  obtain ⟨k, hk', rfl⟩ := List.mem_map.mp hw
  exact (hk k hk').1.queued

def spacedStore : List HostInstr := [.fpArith 0 .fmul 1 2 3, .arithS 0 .mov false 4 1 0, .stl 0 4 9 0]

theorem spaced_program_store : RunsInOrder anyFpu
    (gppcuProgramAutofeedDeviceParallel 1 (spacedStore.map HostInstr.word))
    (holding (gppcuProgramAutofeedDeviceParallel 1 (spacedStore.map HostInstr.word))) := by
  refine spaced_program_in_order anyFpu _ (by decide) 1 spacedStore (by decide) ?_ ⟨by decide, by decide⟩
    ⟨rfl, rfl, rfl, rfl, rfl, by decide⟩ (holding_reset _) (by decide)
  refine ⟨fun _ => ⟨Or.inr ⟨by decide, by decide⟩, ?_⟩, fun h => ?_, fun h => ?_, trivial⟩
  · rintro j js hj hnop
    obtain ⟨rfl, -⟩ := List.cons.inj hj
    cases hnop
  all_goals exact absurd h (by decide)

def adjacentFmul : List HostInstr :=
  [.fpArith 0 .fmul 1 2 3, .fpArith 0 .fmul 4 5 6, .stl 0 4 9 0]

/-- Of two adjacent instructions of the FPU the second one is never executed in the third lane,
and the local memory shows it. -/
theorem adjacent_not_in_order :
    (∀ k ∈ adjacentFmul, k.Padded ∧ k.Plain) ∧
      (holding (gppcuProgramAutofeedDeviceParallel 1 (adjacentFmul.map HostInstr.word))).queue.Loaded
        (gppcuProgramAutofeedDeviceParallel 1 (adjacentFmul.map HostInstr.word)) ∧
      (holding (gppcuProgramAutofeedDeviceParallel 1 (adjacentFmul.map HostInstr.word))).queue.Started ∧
      (holding (gppcuProgramAutofeedDeviceParallel 1 (adjacentFmul.map HostInstr.word))).core.AfterReset ∧
      ∃ d, d = (clock fun _ => anyFpu)^[60]
          (holding (gppcuProgramAutofeedDeviceParallel 1 (adjacentFmul.map HostInstr.word))) ∧
        d.oDONE = true ∧ d.core.ctl.idling = true ∧
        (d.core.arch 0).lmem ≠
          (cyclesFrom anyFpu d.queue.cmem.ram d.queue.szPerTask
            (gppcuProgramAutofeedDeviceParallel 1 (adjacentFmul.map HostInstr.word)) 0 1
            ((holding (gppcuProgramAutofeedDeviceParallel 1 (adjacentFmul.map HostInstr.word))).core.arch
              0)).lmem := by
  refine ⟨by decide, ⟨by decide, by decide⟩, ⟨rfl, rfl, rfl, rfl, rfl, by decide⟩, holding_reset _, _, rfl,
    by decide +kernel, by decide +kernel, fun h => ?_⟩
  have hword := congrFun h 2
  revert hword
  decide +kernel

end GppcuTestQueue

end Gppcu
