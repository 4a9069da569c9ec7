import Gppcu.Driver.Task

/-!
# What a read leaves in its destination

`gppcu_read` stops before the task that would fill its destination to the end,
so it is one task short where the capacity is a multiple of the element.
-/

namespace Gppcu

def dstStores (reads : List Word) : List (Nat × Word) := reads.zipIdx.map Prod.swap

def SwkGppcu.elements (pp : SwkGppcu) (cells : Nat × BitVec 9 → Word) (n : Nat) (ElementSizeInWords : BitVec 8)
    (ofst : Word) : List Word :=
  (List.range n).flatMap fun i => (List.range ElementSizeInWords.toNat).map fun j =>
    cells (pp.cell i (ofst.toNat + j))

/-! ## How many tasks are read -/

theorem takeWhile_range (p : Nat → Bool) (n m : Nat) (h : ∀ i, p i = true ↔ i < m) :
    (List.range n).takeWhile p = List.range (min n m) := by
  induction n with
  | zero => simp
  | succ n ih =>
    rw [List.range_succ, List.takeWhile_append, ih, List.length_range, List.length_range]
    by_cases hn : n < m
    · rw [if_pos (by omega), List.takeWhile_cons, if_pos ((h n).mpr hn), List.takeWhile_nil,
        ← List.range_succ, Nat.min_eq_left (by omega)]
    · have hlt : ¬ p n = true := by rwa [h]
      rw [Nat.min_eq_right (show m ≤ n + 1 by omega)]
      by_cases hm : min n m = n
      · rw [if_pos hm, List.takeWhile_cons, if_neg hlt, List.append_nil]
        congr 1
        omega
      · rw [if_neg hm]
        congr 1
        omega

theorem room_iff {e : Nat} (he : 0 < e) (i Capacity : Nat) :
    i * e + e < Capacity ↔ i < (Capacity - 1) / e := by
  rw [Nat.lt_iff_add_one_le (m := i), Nat.le_div_iff_mul_le he, Nat.succ_mul]
  omega

section Count

variable {QBW GBW T : Nat} {pp : SwkGppcu} {e : BitVec 8} (he : 0 < e.toNat) (o Capacity : Word)

include he

theorem replies_elements (h : pp.Fits T) (v : HostView QBW GBW T) :
    v.replies (gppcuRead pp Capacity e o) =
      pp.elements v.cells (min pp.roNumtask ((Capacity.toNat - 1) / e.toNat)) e o := by
  rw [replies_gppcuRead h v, takeWhile_range _ _ ((Capacity.toNat - 1) / e.toNat)]
  · rfl
  · intro i
    rw [decide_eq_true_iff, room_iff he]

omit he in
theorem elements_length (cells : Nat × BitVec 9 → Word) (n : Nat) :
    (pp.elements cells n e o).length = n * e.toNat := pieces_length _ n e.toNat

theorem count_eq_iff (n : Nat) :
    min n ((Capacity.toNat - 1) / e.toNat) = min n (Capacity.toNat / e.toNat) ↔
      Capacity = 0 ∨ ¬ e.toNat ∣ Capacity.toNat ∨ n * e.toNat < Capacity.toNat := by
  have hzero : Capacity = 0 ↔ Capacity.toNat = 0 := by
    rw [← BitVec.toNat_inj]
    rfl
  rw [hzero]
  generalize Capacity.toNat = c
  generalize e.toNat = e at he
  rcases Nat.eq_zero_or_pos c with rfl | hc
  · simp
  have hdiv : (c - 1 + 1) / e = (c - 1) / e + if e ∣ c - 1 + 1 then 1 else 0 := Nat.succ_div
  rw [Nat.sub_add_cancel hc] at hdiv
  rw [hdiv]
  by_cases hd : e ∣ c
  · rw [if_pos hd]
    have hlt : n * e < c ↔ n ≤ (c - 1) / e := by
      rw [Nat.le_div_iff_mul_le he]
      omega
    rw [hlt]
    omega
  · simp [hd]

end Count

/-! ## On the board -/

section Board

variable {QBW GBW T : Nat} (F : Fin T → Fpu)

/-- The destination gets the elements of as many tasks as it has room for, in their order, and
nothing is stored behind its end. -/
structure Board.Downloads (b : Board QBW GBW T) (pp : SwkGppcu) (Capacity : Word) (e : BitVec 8) (o : Word)
    (es : List Event) : Prop where
  stored : b.dataReads F es =
    pp.elements b.device.view.cells (min pp.roNumtask (Capacity.toNat / e.toNat)) e o
  inside : ∀ s ∈ dstStores (b.dataReads F es), s.1 < Capacity.toNat

theorem dstStores_lt {reads : List Word} {s : Nat × Word} (hs : s ∈ dstStores reads) :
    s.1 < reads.length := by
  obtain ⟨⟨x, i⟩, hmem, rfl⟩ := List.mem_map.mp hs
  exact List.snd_lt_of_mem_zipIdx hmem

/-- A read fills its destination exactly where the capacity is not a multiple of the element, or
leaves a word behind the last task. -/
theorem downloads_iff {pp₀ pp : SwkGppcu} {init : List Call} {w : BitVec 8} {N : BitVec 16}
    (hinit : gppcuInitTaskParallel pp₀ w N = (pp, init)) (hpos : 0 < pp.mnumthr) (hle : pp.mnumthr ≤ 24)
    (hT : pp.mnumthr ≤ T) (hmax : pp.roMaxWordPerThread = 512)
    (hN : N.toNat < pp.roTaskmaxcycle * pp.mnumthr) {e : BitVec 8} (he : 0 < e.toNat) {o : Word}
    (ho : o.toNat + e.toNat < pp.mtaskmem) (Capacity : Word) (b : Board QBW GBW T) {es : List Event}
    (hes : b.Serves F (gppcuRead pp Capacity e o) es) :
    b.Downloads F pp Capacity e o es ↔
      Capacity = 0 ∨ ¬ e.toNat ∣ Capacity.toNat ∨ N.toNat * e.toNat < Capacity.toNat := by
  obtain ⟨-, htasks, hfits⟩ := gppcuInitTaskParallel_fits hinit hpos hle hT hmax hN
  have hreads := (hes.served F (gppcuRead_inRange hfits Capacity ho)).2
  rw [replies_elements he o Capacity hfits] at hreads
  rw [← htasks, ← count_eq_iff he Capacity]
  constructor
  · intro h
    have hlen := congrArg List.length h.stored
    rw [hreads, elements_length, elements_length] at hlen
    exact Nat.eq_of_mul_eq_mul_right he hlen
  · intro hcount
    refine ⟨?_, fun s hs => ?_⟩
    · rw [hreads, hcount]
    · have hlt := dstStores_lt hs
      rw [hreads, elements_length] at hlt
      have hdiv := Nat.div_mul_le_self (Capacity.toNat - 1) e.toNat
      have hmin := Nat.mul_le_mul_right e.toNat
        (Nat.min_le_right pp.roNumtask ((Capacity.toNat - 1) / e.toNat))
      omega

def downloadThree (Capacity : Word) : List Event :=
  ((gppcuRead threeTasks.1 Capacity 2 1).flatMap Call.accesses).map .access

theorem downloads_seven : idleBoard.Downloads (fun _ => anyFpu) threeTasks.1 7 2 1 (downloadThree 7) := by
  have hinit : gppcuInitTaskParallel (gppcuInit ⟨0, 0, 0, 0, 0, 0⟩ 2 512) 4 3 =
      (threeTasks.1, threeTasks.2) := rfl
  exact (downloads_iff (fun _ => anyFpu) hinit (by decide) (by decide) (by decide) rfl (by decide)
    (by decide) (by decide) 7 idleBoard (Board.serves_direct _ _ _)).mpr (by decide)

theorem not_downloads_six :
    idleBoard.Serves (fun _ => anyFpu) (gppcuRead threeTasks.1 6 2 1) (downloadThree 6) ∧
      ¬ idleBoard.Downloads (fun _ => anyFpu) threeTasks.1 6 2 1 (downloadThree 6) := by
  refine ⟨Board.serves_direct _ _ _, fun h => ?_⟩
  have hlen := congrArg List.length h.stored
  revert hlen
  decide +kernel

end Board

end Gppcu
