import Gppcu.Queue.Spec
import Gppcu.Lib.Run
import Mathlib.Tactic.Tauto

/-!
# Instruction delivery

The read register of the program memory is one clock behind `pmem_head`, and
`instr_valid` is not. A word is presented in its own place only after a clock on
which the core was not ready, or where its predecessor is the same word.
-/

namespace Gppcu

namespace Queue

variable {QBW GBW : Nat}

/-- The words taken on the clocks where `instr_valid` and `instr_ready` are both 1. -/
def taken : Queue QBW GBW → List Bool → List Word
  | _, [] => []
  | q, ready :: rs => (if q.instrValid && ready then [q.program] else []) ++ taken (q.clock true ready) rs

def word (q : Queue QBW GBW) (k : Nat) : Word := q.pmem.ram (BitVec.ofNat QBW k)

def words (q : Queue QBW GBW) : List Word := (List.range q.pmemEnd.toNat).map q.word

/-- What is still to be taken at `pmem_head = p` of pass `i`. -/
def rest (q : Queue QBW GBW) (i p : Nat) : List Word :=
  if i < q.numCycles.toNat then
    q.words.drop p ++ (List.replicate (q.numCycles.toNat - 1 - i) q.words).flatten
  else []

/-- The core takes the program `num_cycles` times and nothing else. -/
def Delivers (q : Queue QBW GBW) (ready : List Bool) : Prop :=
  taken q ready <+: (List.replicate q.numCycles.toNat q.words).flatten ∧
    ((Lib.run (fun q r => clock true r q) q ready).programDone = true →
      taken q ready = (List.replicate q.numCycles.toNat q.words).flatten)

/-! ## The condition on the stalls -/

/-- What the read register holds when `pmem_head` has just come to `p` in pass `i`. -/
def presented (q : Queue QBW GBW) (i p : Nat) : Word :=
  if p = 0 then if i = 0 then q.word 0 else q.word q.pmemEnd.toNat else q.word (p - 1)

/-- Each word waits for at least one clock, or follows a word equal to it, and the core is not
ready on the clock after the last pass. `held` tells that the word at `p` has waited. -/
def Fed (q : Queue QBW GBW) : Nat → Nat → Bool → List Bool → Prop
  | _, _, _, [] => True
  | i, p, held, ready :: rs =>
    if i = q.numCycles.toNat then ready = false
    else if p < q.pmemEnd.toNat then
      if ready then (held = true ∨ q.presented i p = q.word p) ∧ Fed q i (p + 1) false rs
      else Fed q i p true rs
    else Fed q (i + 1) 0 false rs

instance decidableFed (q : Queue QBW GBW) :
    (i p : Nat) → (held : Bool) → (rs : List Bool) → Decidable (q.Fed i p held rs)
  | _, _, _, [] => .isTrue trivial
  | i, p, held, ready :: rs =>
    have := decidableFed q i (p + 1) false rs
    have := decidableFed q i p true rs
    have := decidableFed q (i + 1) 0 false rs
    inferInstanceAs (Decidable (if i = q.numCycles.toNat then ready = false
      else if p < q.pmemEnd.toNat then
        if ready then (held = true ∨ q.presented i p = q.word p) ∧ q.Fed i (p + 1) false rs
        else q.Fed i p true rs
      else q.Fed (i + 1) 0 false rs))

/-! ## The registers at a position -/

/-- `q` has come to `pmem_head = p` of pass `i` of the run that `q₀` starts. -/
structure At (q₀ q : Queue QBW GBW) (i p : Nat) (held : Bool) : Prop where
  ram : q.pmem.ram = q₀.pmem.ram
  pmemEnd : q.pmemEnd = q₀.pmemEnd
  numCycles : q.numCycles = q₀.numCycles
  running : q.pmemRunning = true
  done : q.programDone = false
  head : q.pmemHead.toNat = p
  cycle : q.curCycleIdx.toNat = i
  bound : p ≤ q₀.pmemEnd.toNat
  last : i ≤ q₀.numCycles.toNat ∧ (i = q₀.numCycles.toNat → p = 0)
  program : q.program = if held then q₀.word p else q₀.presented i p

namespace At

variable {q₀ q : Queue QBW GBW} {i p : Nat} {held : Bool}

theorem cycle_iff (h : At q₀ q i p held) :
    q.curCycleIdx = q.numCycles ↔ i = q₀.numCycles.toNat := by
  rw [← BitVec.toNat_inj, h.cycle, h.numCycles]

theorem lt_iff (h : At q₀ q i p held) : q.pmemHead < q.pmemEnd ↔ p < q₀.pmemEnd.toNat := by
  rw [BitVec.lt_def, h.head, h.pmemEnd]

theorem instrValid (h : At q₀ q i p held) : q.instrValid = true ↔ p < q₀.pmemEnd.toNat := by
  have hb := h.bound
  simp only [Queue.instrValid, h.running, h.done, Bool.not_false, Bool.and_self, Bool.true_and,
    bne_iff_ne, ne_eq]
  rw [← BitVec.toNat_inj, h.head, h.pmemEnd]
  omega

theorem read (h : At q₀ q i p held) : q.pmem.ram q.pmemHead = q₀.word p := by
  rw [h.ram, word, ← h.head, BitVec.ofNat_toNat, BitVec.setWidth_eq]

theorem take (h : At q₀ q i p held) (hi : i ≠ q₀.numCycles.toNat) (hp : p < q₀.pmemEnd.toNat) :
    At q₀ (q.clock true true) i (p + 1) false := by
  have hend := q₀.pmemEnd.isLt
  have hhead : (q.pmemHead + 1).toNat = p + 1 := by
    rw [toNat_succ _ (by rw [h.head]; omega), h.head]
  have hword : q₀.presented i (p + 1) = q₀.word p := by simp [presented]
  rw [clock_next true h.running (by rwa [ne_eq, h.cycle_iff]) (h.lt_iff.mpr hp)]
  exact ⟨h.ram, h.pmemEnd, h.numCycles, h.running, h.done, hhead, h.cycle, hp,
    ⟨h.last.1, fun he => absurd he hi⟩, h.read.trans hword.symm⟩

theorem hold (h : At q₀ q i p held) (hi : i ≠ q₀.numCycles.toNat) (hp : p < q₀.pmemEnd.toNat) :
    At q₀ (q.clock true false) i p true := by
  rw [clock_next false h.running (by rwa [ne_eq, h.cycle_iff]) (h.lt_iff.mpr hp)]
  exact ⟨h.ram, h.pmemEnd, h.numCycles, h.running, h.done, h.head, h.cycle, h.bound, h.last, h.read⟩

theorem wrap (h : At q₀ q i p held) (hi : i ≠ q₀.numCycles.toNat) (hp : ¬ p < q₀.pmemEnd.toNat)
    (ready : Bool) : At q₀ (q.clock true ready) (i + 1) 0 false := by
  have hlast := h.last
  have hbound := h.bound
  have hn := q₀.numCycles.isLt
  have hcycle : (q.curCycleIdx + 1).toNat = i + 1 := by
    rw [toNat_succ _ (by rw [h.cycle]; omega), h.cycle]
  have hword : q₀.presented (i + 1) 0 = q₀.word p := by
    rw [presented, if_pos rfl, if_neg (Nat.succ_ne_zero i), show p = q₀.pmemEnd.toNat by omega]
  rw [clock_wrap ready h.running (by rwa [ne_eq, h.cycle_iff]) (by rwa [h.lt_iff])]
  exact ⟨h.ram, h.pmemEnd, h.numCycles, h.running, h.done, rfl, hcycle, Nat.zero_le _,
    ⟨by omega, fun _ => rfl⟩, h.read.trans hword.symm⟩

end At

theorem Started.at {q : Queue QBW GBW} (h : q.Started) : At q q 0 0 false where
  ram := rfl
  pmemEnd := rfl
  numCycles := rfl
  running := h.running
  done := h.done
  head := by rw [h.head]; rfl
  cycle := by rw [h.cycle]; rfl
  bound := Nat.zero_le _
  last := ⟨Nat.zero_le _, fun _ => rfl⟩
  program := by simp [presented, h.program, word]

/-! ## After the last pass -/

theorem finish_done {q : Queue QBW GBW} (ready : Bool) (hr : q.pmemRunning = true)
    (hc : q.curCycleIdx = q.numCycles) :
    (q.clock true ready).programDone = true ∧ (q.clock true ready).pmemRunning = true ∧
      (q.clock true ready).curCycleIdx = (q.clock true ready).numCycles := by
  rw [clock_last ready hr hc]
  exact ⟨rfl, hr, hc⟩

theorem taken_done {q : Queue QBW GBW} (rs : List Bool) (hd : q.programDone = true)
    (hr : q.pmemRunning = true) (hc : q.curCycleIdx = q.numCycles) : taken q rs = [] := by
  induction rs generalizing q with
  | nil => rfl
  | cons ready rs ih =>
    obtain ⟨hd', hr', hc'⟩ := finish_done ready hr hc
    rw [taken, ih hd' hr' hc']
    simp [instrValid, hd]

/-! ## What is left to deliver -/

theorem words_length (q : Queue QBW GBW) : q.words.length = q.pmemEnd.toNat := by simp [words]

theorem rest_take (q : Queue QBW GBW) {i p : Nat} (hi : i < q.numCycles.toNat)
    (hp : p < q.pmemEnd.toNat) : q.rest i p = q.word p :: q.rest i (p + 1) := by
  have hp' : p < q.words.length := by rwa [words_length]
  unfold rest
  rw [if_pos hi, if_pos hi, List.drop_eq_getElem_cons hp', List.cons_append]
  simp [words]

theorem rest_wrap (q : Queue QBW GBW) {i : Nat} (hi : i < q.numCycles.toNat) :
    q.rest i q.pmemEnd.toNat = q.rest (i + 1) 0 := by
  unfold rest
  rw [if_pos hi, List.drop_of_length_le (Nat.le_of_eq (words_length q)), List.nil_append]
  by_cases hl : i + 1 < q.numCycles.toNat
  · rw [if_pos hl, List.drop_zero, ← List.flatten_cons, ← List.replicate_succ]
    congr 2
    omega
  · rw [if_neg hl, show q.numCycles.toNat - 1 - i = 0 by omega]
    rfl

theorem rest_zero (q : Queue QBW GBW) :
    q.rest 0 0 = (List.replicate q.numCycles.toNat q.words).flatten := by
  unfold rest
  cases hn : q.numCycles.toNat with
  | zero => rfl
  | succ n => simp [List.replicate_succ]

theorem delivers_from {q₀ q : Queue QBW GBW} (hend : q₀.pmemEnd ≠ 0) (rs : List Bool) {i p : Nat}
    {held : Bool} (h : At q₀ q i p held) :
    (taken q rs <+: q₀.rest i p ∧
      ((Lib.run (fun q r => clock true r q) q rs).programDone = true → taken q rs = q₀.rest i p)) ↔
      Fed q₀ i p held rs := by
  induction rs generalizing q i p held with
  | nil => simp [taken, Fed, h.done]
  | cons ready rs ih =>
    have hpos : 0 < q₀.pmemEnd.toNat := by
      rw [Nat.pos_iff_ne_zero]
      exact fun h0 => hend (BitVec.eq_of_toNat_eq (by simpa using h0))
    rw [taken, Fed, Lib.run_cons]
    by_cases hi : i = q₀.numCycles.toNat
    -- `program_done` is not set yet, and the head is back at the first word.
    · have hp := h.last.2 hi
      have hv := h.instrValid.mpr (by omega)
      obtain ⟨hd, hr, hc⟩ := finish_done ready h.running (h.cycle_iff.mpr hi)
      have hrest : q₀.rest i p = [] := by rw [rest, if_neg (by omega)]
      rw [if_pos hi, hv, hrest, taken_done rs hd hr hc]
      cases ready <;> simp
    have hlt : i < q₀.numCycles.toNat := by
      have := h.last.1
      omega
    rw [if_neg hi]
    by_cases hp : p < q₀.pmemEnd.toNat
    · rw [if_pos hp, h.instrValid.mpr hp, rest_take q₀ hlt hp]
      cases ready with
      | true =>
        have hword : q.program = q₀.word p ↔ held = true ∨ q₀.presented i p = q₀.word p := by
          rw [h.program]
          cases held <;> simp
        rw [← ih (h.take hi hp), ← hword]
        simp only [Bool.and_self, if_true, List.singleton_append, List.cons_prefix_cons,
          List.cons.injEq]
        tauto
      | false =>
        rw [← ih (h.hold hi hp), rest_take q₀ hlt hp]
        simp
    · have hv : q.instrValid = false := by
        rw [← Bool.not_eq_true, h.instrValid]
        exact hp
      have hpe : p = q₀.pmemEnd.toNat := by
        have := h.bound
        omega
      rw [if_neg hp, hv, ← ih (h.wrap hi hp ready), hpe, rest_wrap q₀ hlt]
      simp

/-- The queue delivers the program exactly on the traces of `instr_ready` that feed it. -/
theorem delivers_iff (q : Queue QBW GBW) (hs : q.Started) (hend : q.pmemEnd ≠ 0) (ready : List Bool) :
    q.Delivers ready ↔ q.Fed 0 0 false ready := by
  rw [Delivers, ← rest_zero]
  exact delivers_from hend ready hs.at

def twoWords : Queue 2 1 where
  pmem := ⟨fun k => if k = 0 then 1 else if k = 1 then 2 else 0, 0, 1⟩
  cmem := ⟨fun _ => 0, 0, 0⟩
  pmemEnd := 2
  pmemRunning := true
  numCycles := 1
  szPerTask := 0
  pmemHead := 0
  programDone := false
  curTaskOfst := 0
  curCycleIdx := 0

theorem twoWords_started : twoWords.Started := ⟨rfl, rfl, rfl, rfl, rfl, rfl⟩

theorem delivers_twoWords : twoWords.Delivers [true, false, true, true, false, true] :=
  (delivers_iff twoWords twoWords_started (by decide) _).mpr (by decide)

/-- A core that is always ready takes the first word twice and the second one never. -/
theorem not_delivers : twoWords.Started ∧ ¬ twoWords.Delivers [true, true] := by
  refine ⟨twoWords_started, fun h => ?_⟩
  have hpre := h.1
  revert hpre
  decide

end Queue

end Gppcu
