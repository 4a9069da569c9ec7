import Gppcu.Core.Pipe

/-!
# Which words a pass takes

The read register of the program memory is one word behind `pmem_head`. A word
of the FPU in exec holds the pipeline for long enough that the register catches
up: from then on the words are taken in their places (`ahead`), until a clock
without a hold takes the last word again. A pass is safe when the word that is
skipped is a nop and the word that is taken again may run twice.
-/

namespace Gppcu

open Instr

def Twice (w : Word) : Prop := sBit w = false ∧ Indep w w

theorem zero_twice : Twice 0 := ⟨by decide, indep_zero_left 0⟩

def OffPivot (w : Word) : Prop := (cw w).bsel = 3 → imm2 w ≠ 0

theorem zero_offPivot : OffPivot 0 := by
  intro h
  exact absurd h (by decide)

/-- A pass that takes its words safely from the stages `s` on, `rest` being what has not been
taken. At its end the stages satisfy `Next`. -/
inductive Runs (Next : Stages → Prop) : Bool → Stages → List Word → Prop
  | take {s : Stages} {w w' : Word} {rest : List Word} : s.Clear → isFp s.e = false →
      Runs Next false (s.take w) (w' :: rest) → Runs Next false s (w :: w' :: rest)
  | skip {s : Stages} {w : Word} {rest : List Word} : s.Clear → isFp s.e = true →
      Runs Next true (s.take w) rest → Runs Next false s (0 :: w :: rest)
  | keep {s : Stages} {w : Word} {rest : List Word} : s.Clear → isFp s.e = true →
      Runs Next true (s.take w) rest → Runs Next true s (w :: rest)
  | again {s : Stages} {w : Word} {rest : List Word} : s.Clear → isFp s.e = false → Twice s.f →
      Runs Next false (s.take s.f) (w :: rest) → Runs Next true s (w :: rest)
  | last {s : Stages} {ahead : Bool} : s.Clear → (isFp s.e = false → Next (s.take 0)) →
      (isFp s.e = true → Next s) → Runs Next ahead s (if ahead then [] else [0])

theorem Runs.clear {Next : Stages → Prop} {ahead : Bool} {s : Stages} {rest : List Word}
    (h : Runs Next ahead s rest) : s.Clear := by
  cases h <;> assumption

/-- The passes of a program follow one another. -/
structure Restarts (ws : List Word) (Next : Stages → Prop) : Prop where
  run : ∀ s, Next s → Runs Next true s ws
  fetch : ∀ s, Next s → s.f = 0
  decode : ∀ s, Next s → OffPivot s.d
  first : Next Stages.empty

/-! ## The program, pass by pass -/

section Cycles

variable {GBW : Nat} (F : Fpu) (cmem : BitVec GBW → Word)

/-- What a word that loads a constant gets: address 0 is the task offset. -/
def constMem (ofst : Word) (a : BitVec 17) : Word := if a = 0 then ofst else cmem (a.setWidth GBW)

/-- `n` passes of the program, one word at a time, the first one with the given task offset. -/
def cyclesFrom (sz : Word) (ws : List Word) : Word → Nat → Machine Reg → Machine Reg
  | _, 0, m => m
  | ofst, n + 1, m => cyclesFrom sz ws (ofst + sz) n (Machine.run F id (constMem cmem ofst) ws m)

theorem exec_offPivot {w : Word} (h : OffPivot w) (o o' : Word) (m : Machine Reg) :
    Machine.exec F id (constMem cmem o) m w = Machine.exec F id (constMem cmem o') m w := by
  unfold Machine.exec
  by_cases hb : (cw w).bsel = 3
  · unfold constMem
    rw [if_neg (h hb), if_neg (h hb)]
  · exact Machine.execWith_gdata F id _ _ m hb

theorem exec_zero (g : BitVec 17 → Word) (m : Machine Reg) : Machine.exec F id g m 0 = m :=
  Machine.execWith_zero F id _ m

theorem exec_twice {w : Word} (h : Twice w) (g : BitVec 17 → Word) (m : Machine Reg) :
    Machine.exec F id g (Machine.exec F id g m w) w = Machine.exec F id g m w :=
  Machine.execWith_again F _ m h.1 h.2

end Cycles

end Gppcu
