import Gppcu.Queue.Untimed

/-!
# How many clocks a program takes

One for each word of each pass, one to go back to the first word, and the delay
of every FPU word. A word that is in exec at the end of a pass spends a clock of
its delay on going back.
-/

namespace Gppcu

open Instr

namespace GppcuTestQueue

variable {QBW GBW T : Nat} (F : Fpu) (q₀ : Queue QBW GBW)

/-- The clocks of delay in a pass, the word in exec having `waited` behind it. -/
def heldFor : Nat → Stages → Word → List Word → Nat
  | _, _, _, [] => 0
  | waited, s, lag, w :: ws =>
    Core.delayOf F s.e - waited + heldFor 0 (s.take (if isFp s.e then w else lag)) w ws

def overlap (s : Stages) : Nat := if isFp s.e then 1 else 0

def heldFrom : Nat → Nat → Stages → Word → Nat
  | 0, _, _, _ => 0
  | n + 1, waited, s, lag =>
    heldFor F waited s lag q₀.words +
      heldFrom n (overlap (s.through lag q₀.words)) (s.after lag q₀.words) (q₀.word q₀.pmemEnd.toNat)

def heldLeft (x : Feeder T) : Nat :=
  match x.place with
  | .pass n left => heldFor F x.waited x.stages x.lag left + heldFrom F q₀ n
      (overlap (x.stages.through x.lag left)) (x.stages.after x.lag left) (q₀.word q₀.pmemEnd.toNat)
  | .last | .done _ => 0

/-- The word in exec has spent no clock of its delay yet when a pass comes to its end. -/
def Unspent (x : Feeder T) : Prop := ∀ n, x.place = .pass n [] → x.waited = 0

variable {F q₀} {x : Feeder T}

theorem unspent_step (hpos : 0 < q₀.pmemEnd.toNat) : Unspent (x.step F q₀) := by
  intro n hp
  have hne : q₀.words ≠ [] := by
    rw [← List.length_pos_iff, Queue.words_length]
    exact hpos
  rw [Feeder.step_place] at hp
  cases hplace : x.place with
  | pass c left =>
    rw [hplace] at hp
    cases left with
    | nil =>
      cases c with
      | zero => cases hp
      | succ c =>
        obtain ⟨-, hw⟩ := Place.pass.inj hp
        exact absurd hw hne
    | cons w left =>
      unfold Feeder.step
      rw [hplace]
      rfl
  | last => rw [hplace] at hp; cases hp
  | done j => rw [hplace] at hp; cases hp

theorem heldLeft_nextPass {n : Nat} (hp : x.place = Feeder.nextPass q₀ n) :
    heldLeft F q₀ x = heldFrom F q₀ n x.waited x.stages x.lag := by
  unfold heldLeft
  rw [hp]
  cases n <;> rfl

theorem heldLeft_step (hx : Unspent x) :
    0 < Feeder.stepsLeft q₀ x.place → cost F x + heldLeft F q₀ (x.step F q₀) = heldLeft F q₀ x := by
  intro hleft
  cases hplace : x.place with
  | pass n left =>
    cases left with
    | nil =>
      have hz := hx n hplace
      have hnext : (x.step F q₀).place = Feeder.nextPass q₀ n := by
        rw [Feeder.step_place, hplace]
        rfl
      have hstep : x.step F q₀ = { x.pass F q₀ 0 with
          place := Feeder.nextPass q₀ n
          lag := q₀.word q₀.pmemEnd.toNat
          ofst := x.ofst + q₀.szPerTask } := by
        unfold Feeder.step
        rw [hplace]
      have hwaited : (x.pass F q₀ 0).waited = overlap x.stages := by
        unfold Feeder.pass overlap
        split_ifs
        · exact congrArg (· + 1) hz
        · rfl
      rw [heldLeft_nextPass hnext, hstep]
      change _ + heldFrom F q₀ n (x.pass F q₀ 0).waited (x.pass F q₀ 0).stages _ = _
      rw [hwaited, Feeder.pass_stages]
      unfold cost heldLeft
      rw [hplace]
      rfl
    | cons w left =>
      have hstep : x.step F q₀ = { x.move F q₀ (if isFp x.stages.e then w else x.lag) with
          place := .pass n left, lag := w } := by
        unfold Feeder.step
        rw [hplace]
      rw [hstep]
      unfold cost heldLeft
      rw [hplace]
      exact (Nat.add_assoc _ _ _).symm
  | last =>
    have hstep : (x.step F q₀).place = .done 0 := by
      rw [Feeder.step_place, hplace]
      rfl
    unfold cost heldLeft
    rw [hplace, hstep]
    rfl
  | done j =>
    rw [hplace] at hleft
    cases hleft

theorem clocks_done (hpos : 0 < q₀.pmemEnd.toNat) (hx : Unspent x) :
    Lib.clocks (Feeder.step F q₀) (cost F) (Feeder.stepsLeft q₀ x.place) x =
      Feeder.stepsLeft q₀ x.place + heldLeft F q₀ x := by
  generalize hn : Feeder.stepsLeft q₀ x.place = n
  induction n generalizing x with
  | zero =>
    cases hplace : x.place with
    | pass c left =>
      rw [hplace] at hn
      cases hn
    | last =>
      rw [hplace] at hn
      cases hn
    | done j =>
      unfold heldLeft
      rw [hplace]
      rfl
  | succ n ih =>
    have hnext := Feeder.stepsLeft_next _ _ hn
    rw [← Feeder.step_place (F := F)] at hnext
    rw [Lib.clocks, ih (unspent_step hpos) hnext, ← heldLeft_step hx (by omega)]
    omega

theorem step_done {j n : Nat} (hn : Feeder.stepsLeft q₀ x.place = n) (hpos : 0 < n) :
    (∃ i, ((Feeder.step F q₀)^[j] x).place = .done i) ↔ n ≤ j := by
  subst hn
  constructor
  · rintro ⟨i, hi⟩
    by_contra hlt
    have hsteps : ∀ j, j < Feeder.stepsLeft q₀ x.place →
        Feeder.stepsLeft q₀ ((Feeder.step F q₀)^[j] x).place = Feeder.stepsLeft q₀ x.place - j := by
      intro j
      induction j with
      | zero => exact fun _ => rfl
      | succ j ih =>
        intro hj
        rw [Function.iterate_succ_apply', Feeder.step_place]
        exact Feeder.stepsLeft_next _ _ (by rw [ih (by omega)]; omega)
    have := hsteps j (by omega)
    rw [hi, Feeder.stepsLeft] at this
    omega
  · intro hle
    obtain ⟨i, rfl⟩ := Nat.exists_eq_add_of_le hle
    exact ⟨i, Feeder.finishes x hpos i⟩

/-- The clock on which the program is done, told by its words. -/
theorem done_at_iff (F : Fpu) (d : GppcuTestQueue QBW GBW T) (hT : 0 < T) (hs : d.queue.Started)
    (hreset : d.core.AfterReset) (hpos : 0 < d.queue.pmemEnd.toNat)
    (hsafe : SafeFrom d.queue d.queue.numCycles.toNat Stages.empty (d.queue.word 0)) (t : Nat) :
    ((clock fun _ => F)^[t] d).oDONE = true ↔
      d.queue.numCycles.toNat * (d.queue.pmemEnd.toNat + 1) + 1 +
        heldFrom F d.queue d.queue.numCycles.toNat 0 Stages.empty (d.queue.word 0) ≤ t := by
  have hstart : Feeds F d.queue ⟨0, hT⟩ (feeder d) (cost F (feeder d)) d :=
    feeds_start hs hreset hpos hsafe
  have hunspent : Unspent (feeder d) := fun _ _ => rfl
  obtain ⟨k, n, hk, hclocks⟩ := (stutters (F := F) ⟨0, hT⟩ hpos).at_time hstart t
  rw [hk.done_iff, step_done (feeder_left d) (Nat.succ_pos _), ← hclocks, ← feeder_left,
    clocks_done hpos hunspent, heldLeft_nextPass rfl]
  rfl

theorem done_at_iff_multiplies : ((clock fun _ => anyFpu)^[14] multiplies).oDONE = true ∧
    ((clock fun _ => anyFpu)^[13] multiplies).oDONE = false := by
  have h := done_at_iff anyFpu multiplies (by decide) multiplies_started
    ⟨rfl, rfl, rfl, rfl, rfl, fun _ => rfl⟩ (by decide) multiplies_safe
  rw [← Bool.not_eq_true, h, h]
  decide +kernel

end GppcuTestQueue

end Gppcu
