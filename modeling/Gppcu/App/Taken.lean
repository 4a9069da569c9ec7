import Gppcu.App.Vertices
import Gppcu.Queue.Feed

/-!
# The shader as the device takes it

The read register of the program memory runs ahead behind every word of the FPU.
What the device takes of the expanded shader are all its copies but two: lane 2
gets neither of the conversions that follow an addition.
-/

namespace Gppcu

open Instr

/-! ## Words that come twice -/

instance (w : Word) : Decidable (Twice w) := inferInstanceAs (Decidable (_ ∧ _))

/-- Without the nops, and without a word that comes again when it may run twice. -/
def squash (last : Word) : List Word → List Word
  | [] => []
  | w :: ws => if w = 0 ∨ w = last ∧ Twice w then squash last ws else w :: squash w ws

theorem run_squash (F : Fpu) (g : BitVec 17 → Word) (last : Word) (ws : List Word) (m : Machine Reg) :
    Machine.run F id g (squash last ws) (Machine.exec F id g m last) =
      Machine.run F id g ws (Machine.exec F id g m last) := by
  induction ws generalizing last m with
  | nil => rfl
  | cons w ws ih =>
    rw [squash, Machine.run_cons]
    split_ifs with hw
    · rcases hw with rfl | ⟨rfl, htwice⟩
      · rw [exec_zero]
        exact ih last m
      · rw [exec_twice F htwice]
        exact ih w m
    · exact ih w _

/-! ## Copies in any order -/

def laneOf (l : Nat) (ps : List (Word × Nat)) : List Word := (ps.filter fun p => p.2 == l).map Prod.fst

section Lanes

variable (F : Fpu) (g : BitVec 17 → Word) {R : Nat → BitVec 9 → Prop} {lmem : BitVec 9 → Word}
  {m : Machine Reg} {r : Nat → Machine HostReg}

theorem laneOf_cons (l : Nat) (p : Word × Nat) (ps : List (Word × Nat)) :
    laneOf l (p :: ps) = if p.2 = l then p.1 :: laneOf l ps else laneOf l ps := by
  unfold laneOf
  rw [List.filter_cons]
  by_cases hl : p.2 = l
  · simp [hl]
  · simp [hl]

/-- Every lane does what its own copies do, however they are mixed with those of the others. -/
theorem Lanes.mixed (hR : Apart R) {ps : List (Word × Nat)}
    (hps : ∀ p ∈ ps, (HostWord p.1 ∧ sBit p.1 = false) ∧ p.2 < PARALLEL_CNT)
    (hacc : ∀ l < PARALLEL_CNT,
      Lib.Along (Machine.exec F hostReg g) (Accesses hostReg g (R l)) (r l) (laneOf l ps))
    (h : Lanes R lmem m r) :
    Lanes R lmem (Machine.run F id g (ps.map fun p => laneWord p.1 p.2) m)
      (fun l => Machine.run F hostReg g (laneOf l ps) (r l)) := by
  induction ps generalizing m r with
  | nil => exact h
  | cons p ps ih =>
    obtain ⟨w, n⟩ := p
    rw [List.forall_mem_cons] at hps
    obtain ⟨⟨hw, hn⟩, hps⟩ := hps
    have hfirst : Accesses hostReg g (R n) (r n) w := by
      have hn' := hacc n hn
      rw [laneOf_cons, if_pos rfl] at hn'
      exact hn'.1
    have hnext : Lanes R lmem (Machine.exec F id g m (laneWord w n))
        (fun l => if n = l then Machine.exec F hostReg g (r l) w else r l) :=
      h.copy F g hR hw.1 hw.2 hn hfirst (if_pos rfl) fun l hl => if_neg (Ne.symm hl)
    have hrest := ih hps (fun l hl => ?_) hnext
    · refine hrest.congr fun l _ => ?_
      rw [laneOf_cons]
      by_cases hl : n = l
      · simp [hl]
      · simp [hl]
    · have hl' := hacc l hl
      rw [laneOf_cons] at hl'
      by_cases hnl : n = l
      · rw [if_pos hnl] at hl'
        simpa [hnl] using hl'.2
      · rw [if_neg hnl] at hl'
        simpa [hnl] using hl'

end Lanes

/-! ## The copies of the shader -/

theorem Stages.eq_iff (s t : Stages) : s = t ↔ s.f = t.f ∧ s.d = t.d ∧ s.e = t.e ∧ s.b = t.b := by
  cases s
  cases t
  simp

instance : DecidableEq Stages := fun s t => decidable_of_iff' _ (s.eq_iff t)

namespace Shader

open HostInstr

/-- Lane 2 does not get `gp_ftoi`. -/
def gets (l : Nat) (k : HostInstr) : Bool := !(l == 2 && k.opr == .ftoi)

def taken : List (Word × Nat) := program.flatMap fun k =>
  ((List.range PARALLEL_CNT).filter fun l => gets l k).map fun l => (k.word, l)

def fedWords : List Word := Stages.empty.fed 0 words

def behind : Stages := Stages.empty.after 0 words

theorem fedWords_squash : squash 0 fedWords =
    squash 0 (prologue 12) ++ taken.map fun p => laneWord p.1 p.2 := by decide +kernel

theorem taken_lane {l : Nat} (hl : l < PARALLEL_CNT) : laneOf l taken = (program.filter (gets l)).map word := by
  revert l
  decide +kernel

theorem taken_words : ∀ p ∈ taken, (HostWord p.1 ∧ sBit p.1 = false) ∧ p.2 < PARALLEL_CNT := by
  intro p hp
  obtain ⟨k, hk, hp⟩ := List.mem_flatMap.mp hp
  obtain ⟨l, hl, rfl⟩ := List.mem_map.mp hp
  exact ⟨program_words _ (List.mem_map_of_mem hk), List.mem_range.mp (List.mem_filter.mp hl).1⟩

theorem run_fedWords (F : Fpu) (g : BitVec 17 → Word) (m : Machine Reg) : Machine.run F id g fedWords m =
    Machine.run F id g (taken.map fun p => laneWord p.1 p.2) (Machine.run F id g (prologue 12) m) := by
  have hsquash := fun ws => run_squash F g 0 ws m
  simp only [exec_zero] at hsquash
  rw [← hsquash fedWords, fedWords_squash, Machine.run_append, hsquash]

/-! ## Pass after pass -/

def Between (s : Stages) : Prop := s = Stages.empty ∨ s = behind

theorem between_passes {s : Stages} (h : Between s) :
    s.Passes 0 words ∧ s.after 0 words = behind ∧ s.fed 0 words = fedWords ∧ isFp s.e = false ∧
      s.Clear ∧ (s.take 0).Drains := by
  cases h with
  | inl h =>
    rw [h]
    exact ⟨by decide +kernel, rfl, rfl, by decide +kernel, by decide +kernel, by decide +kernel⟩
  | inr h =>
    rw [h]
    exact ⟨by decide +kernel, by decide +kernel, by decide +kernel, by decide +kernel, by decide +kernel,
      by decide +kernel⟩

section Passes

variable {QBW GBW : Nat} {q : Queue QBW GBW} (hwords : q.words = words) (hbehind : q.word q.pmemEnd.toNat = 0)

include hwords hbehind

theorem between_safe (n : Nat) {s : Stages} (h : Between s) : SafeFrom q n s 0 := by
  obtain ⟨hpasses, hafter, -, hfp, hclear, hdrains⟩ := between_passes h
  cases n with
  | zero =>
    refine ⟨hclear, ?_⟩
    rwa [hfp]
  | succ n =>
    rw [SafeFrom, hwords, hbehind, hafter]
    exact ⟨hpasses, between_safe n (Or.inr rfl)⟩

theorem between_fed (F : Fpu) (n : Nat) (ofst : Word) {s : Stages} (h : Between s) (m : Machine Reg) :
    fedFrom F q n ofst s 0 m = cyclesFrom F q.cmem.ram q.szPerTask fedWords ofst n m := by
  obtain ⟨-, hafter, hfed, hfp, -, -⟩ := between_passes h
  induction n generalizing ofst s m with
  | zero =>
    rw [fedFrom, hfp]
    exact exec_zero F _ m
  | succ n ih =>
    obtain ⟨-, hafter', hfed', hfp', -, -⟩ := between_passes (Or.inr rfl : Between behind)
    rw [fedFrom, hwords, hbehind, hafter, hfed, cyclesFrom]
    exact ih _ (Or.inr rfl) _ hafter' hfed' hfp'

end Passes

end Shader

end Gppcu
