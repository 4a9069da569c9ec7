import Gppcu.Driver.Autofeed
import Gppcu.Queue.Schedule

/-!
# The padding of the driver

Where the pipeline stands between the groups of an expanded program. Without an
FPU word the three copies of a group and its bubble keep every word clear of the
two before it. The copies of an FPU word move the fetch ahead by one word, and
what follows has to bring it back.
-/

namespace Gppcu

open Instr

/-! ## Registers of a lane -/

def InLane (l : Nat) (w : Word) : Prop :=
  ∀ r : Reg, reads w r = true ∨ writes w r = true → r.toNat / REG_PER_THREAD = l

theorem indep_of_lanes {w x : Word} {l l' : Nat} (hw : InLane l w) (hx : InLane l' x) (h : l ≠ l') :
    Indep w x := by
  intro r hr
  by_contra hn
  have hlw := hw r (Or.inl hr)
  have hlx := hx r (Or.inr (by simpa using hn))
  omega

theorem isFpOpc_eq (w : Word) : isFpOpc (opr w) = isFp w := by
  have h : ∀ c : BitVec 5, isFpOpc c = (gppcuInstrDec c).fpOp := by decide
  exact h (opr w)

/-! ## The copies of a host word -/

/-- What the schedule needs to know of a queued word. -/
structure Queued (w : Word) : Prop where
  host : HostWord w
  allowed : sAllowed w
  offPivot : OffPivot w
  own : isFp w = true → Indep w w

section Copy

variable {w : Word} {l : Nat} (h : Queued w) (hl : l < PARALLEL_CNT)

include h hl

theorem copy_inLane : InLane l (laneWord w l) := by
  intro r hr
  have hcw := laneWord_cw h.host hl
  have hd := h.host.d
  have ha := h.host.a
  have hb := h.host.b
  have hregd := laneWord_regd h.host hl
  have hrega := laneWord_rega h.host hl
  have hregb := laneWord_regb h.host hl
  unfold reads writes at hr
  rw [hcw] at hr
  simp only [Bool.or_eq_true, Bool.and_eq_true, beq_iff_eq] at hr
  unfold REG_PER_THREAD NUM_REG PARALLEL_CNT at *
  rcases hr with (⟨hu, rfl⟩ | ⟨hu, rfl⟩) | ⟨hu, rfl⟩
  · have ht := useRegA_of_cw hu
    have hlt := ha ht
    rw [if_pos ht] at hrega
    omega
  · have ht := useRegB_of_cw hu
    have hlt := hb ht
    rw [if_pos ht] at hregb
    omega
  · have ht := useRegD_of_cw hu
    have hlt := hd ht
    rw [if_pos ht] at hregd
    omega

theorem copy_isFp : isFp (laneWord w l) = isFp w := by
  unfold isFp
  rw [laneWord_cw h.host hl]

theorem copy_allowed : sAllowed (laneWord w l) := by
  intro hs
  rw [laneWord_sBit h.host hl] at hs
  rw [laneWord_opr h.host hl]
  exact h.allowed hs

theorem copy_offPivot : OffPivot (laneWord w l) := by
  intro hb
  rw [laneWord_cw h.host hl] at hb
  obtain ⟨ha, hb'⟩ := immC_tables (Or.inr hb)
  rw [laneWord_imm2 h.host hl ha hb']
  exact h.offPivot hb

theorem copy_own (hi : Indep w w) : Indep (laneWord w l) (laneWord w l) := by
  intro r hr
  by_contra hn
  have hcw := laneWord_cw h.host hl
  have hregd := laneWord_regd h.host hl
  have hrega := laneWord_rega h.host hl
  have hregb := laneWord_regb h.host hl
  unfold reads at hr
  unfold writes at hn
  rw [hcw] at hr hn
  simp only [Bool.not_eq_false, Bool.or_eq_true, Bool.and_eq_true, beq_iff_eq] at hr hn
  obtain ⟨hw, rfl⟩ := hn
  rw [if_pos (useRegD_of_cw hw)] at hregd
  have hown : writes w (regd w) = true := by simp [writes, hw]
  have hread : reads w (regd w) = true := by
    rcases hr with ⟨hu, he⟩ | ⟨hu, he⟩
    · rw [if_pos (useRegA_of_cw hu), he, hregd] at hrega
      have hsame : rega w = regd w := BitVec.eq_of_toNat_eq (by omega)
      simp [reads, hu, hsame]
    · rw [if_pos (useRegB_of_cw hu), he, hregd] at hregb
      have hsame : regb w = regd w := BitVec.eq_of_toNat_eq (by omega)
      simp [reads, hu, hsame]
  rw [hi _ hread] at hown
  cases hown

theorem copy_twice (ht : Twice w) : Twice (laneWord w l) :=
  ⟨by rw [laneWord_sBit h.host hl, ht.1], copy_own h hl ht.2⟩

end Copy

theorem copies_indep {w x : Word} (hw : Queued w) (hx : Queued x) {l l' : Nat} (hl : l < PARALLEL_CNT)
    (hl' : l' < PARALLEL_CNT) (h : l ≠ l') : Indep (laneWord w l) (laneWord x l') :=
  indep_of_lanes (copy_inLane hw hl) (copy_inLane hx hl') h

theorem expandInstr_nop {w : Word} (h : opr w = 0) : expandInstr w = [0] := by
  rw [expandInstr, if_pos h]

theorem expandInstr_word {w : Word} (h : opr w ≠ 0) : expandInstr w =
    laneWord w 0 :: laneWord w 1 :: laneWord w 2 :: 0 :: if isFp w then [0] else [] := by
  rw [expandInstr, if_neg h, isFpOpc_eq]
  rfl

/-! ## Between the groups -/

/-- A word that writes no register of lane 0, where the next group starts. -/
def SparesFirst (x : Word) : Prop := ∀ r : Reg, writes x r = true → r.toNat / REG_PER_THREAD ≠ 0

theorem zero_sparesFirst : SparesFirst 0 := by
  intro r hr
  rw [zero_writes] at hr
  cases hr

theorem indep_sparesFirst {w x : Word} (hw : Queued w) (hx : SparesFirst x) :
    Indep (laneWord w 0) x := by
  intro r hr
  by_contra hn
  exact hx r (by simpa using hn) (copy_inLane hw (by decide) r (Or.inl hr))

theorem copy_sparesFirst {w : Word} (hw : Queued w) {l : Nat} (hl : l < PARALLEL_CNT) (h0 : l ≠ 0) :
    SparesFirst (laneWord w l) := by
  intro r hr
  rw [copy_inLane hw hl r (Or.inr hr)]
  exact h0

/-- What follows an FPU word when the fetch is a word ahead: the word taken twice is harmless. -/
def Follower : List Word → Prop
  | [] => True
  | w :: _ => opr w = 0 ∨ (isFp w = false ∧ Twice w)

/-- Every FPU word has such a word behind it, directly and behind one nop. -/
def Spaced : List Word → Prop
  | [] => True
  | w :: ws => (isFp w = true → Follower ws ∧ ∀ v vs, ws = v :: vs → opr v = 0 → Follower vs) ∧ Spaced ws

def PassEnd (s : Stages) : Prop := s.f = 0 ∧ s.Clear ∧ OffPivot s.d

/-- In step, the bubble of the last group still to be taken. -/
structure AtBubble (s : Stages) : Prop where
  clear : s.Clear
  next : (s.take 0).Clear
  f : isFp s.f = false
  d : isFp s.d = false
  e : isFp s.e = false
  spares : SparesFirst s.f
  offPivot : OffPivot s.f

structure AtGroup (s : Stages) : Prop where
  clear : s.Clear
  f : s.f = 0
  d : isFp s.d = false
  e : isFp s.e = false
  spares : SparesFirst s.d

/-- A word ahead, `n` FPU words being still in exec and decode. -/
structure AfterFp (n : Nat) (s : Stages) : Prop where
  clear : s.Clear
  f : s.f = 0
  d : if n = 2 then isFp s.d = true else s.d = 0
  e : if n = 0 then s.e = 0 else isFp s.e = true
  spares : SparesFirst s.d ∧ SparesFirst s.e
  offPivot : OffPivot s.d

theorem AtBubble.group {s : Stages} (h : AtBubble s) : AtGroup (s.take 0) :=
  ⟨h.next, rfl, h.f, h.d, h.spares⟩

theorem AtGroup.nop {s : Stages} (h : AtGroup s) : AtBubble s where
  clear := h.clear
  next := Stages.clear_zero _ h.f
  f := by rw [h.f]; exact zero_isFp
  d := h.d
  e := h.e
  spares := by rw [h.f]; exact zero_sparesFirst
  offPivot := by rw [h.f]; exact zero_offPivot

theorem clear_copy {s : Stages} {w : Word} (hw : Queued w) {l : Nat} (hl : l < PARALLEL_CNT)
    (hd : s.d = laneWord w l) (he : Indep (laneWord w l) s.e) (hb : Indep (laneWord w l) s.b)
    (hs : isFp s.e = true → isFp w = true) : s.Clear := by
  constructor
  · rwa [hd]
  · rwa [hd]
  · intro hfp
    rw [hd]
    exact copy_own hw hl (hw.own (hs hfp))
  · rw [hd]
    exact copy_allowed hw hl

section Groups

variable {w : Word} (hw : Queued w)

include hw

theorem spares_one : SparesFirst (laneWord w 1) := copy_sparesFirst hw lane_one (by decide)

theorem spares_two : SparesFirst (laneWord w 2) := copy_sparesFirst hw lane_two (by decide)

theorem runs_copies {s : Stages} (h : AtGroup s) {Next : Stages → Prop} {rest : List Word}
    (hr : Runs Next false ⟨laneWord w 2, laneWord w 1, laneWord w 0, 0⟩ (0 :: rest)) :
    Runs Next false s (laneWord w 0 :: laneWord w 1 :: laneWord w 2 :: 0 :: rest) := by
  obtain ⟨f, d, e, b⟩ := s
  obtain ⟨hc, rfl, hd, he, hsp⟩ := h
  have hc1 : Stages.Clear ⟨laneWord w 0, 0, d, e⟩ := Stages.clear_zero _ rfl
  have hc2 : Stages.Clear ⟨laneWord w 1, laneWord w 0, 0, d⟩ :=
    clear_copy hw (by decide) rfl (indep_zero_right _) (indep_sparesFirst hw hsp)
      (fun h0 => absurd h0 (by simp [show isFp 0#32 = false from zero_isFp]))
  exact .take hc he (.take hc1 hd (.take hc2 zero_isFp hr))

theorem clear_third : Stages.Clear ⟨laneWord w 2, laneWord w 1, laneWord w 0, 0⟩ :=
  clear_copy hw lane_one rfl (copies_indep hw hw lane_one lane_zero (by decide))
    (indep_zero_right _) (fun h => by rwa [copy_isFp hw lane_zero] at h)

theorem clear_bubble : Stages.Clear ⟨0, laneWord w 2, laneWord w 1, laneWord w 0⟩ :=
  clear_copy hw lane_two rfl (copies_indep hw hw lane_two lane_one (by decide))
    (copies_indep hw hw lane_two lane_zero (by decide)) (fun h => by rwa [copy_isFp hw lane_one] at h)

theorem runs_int {s : Stages} (h : AtGroup s) (hfp : isFp w = false) {Next : Stages → Prop}
    {rest : List Word} (hr : ∀ s', AtBubble s' → Runs Next false s' (0 :: rest)) :
    Runs Next false s (laneWord w 0 :: laneWord w 1 :: laneWord w 2 :: 0 :: rest) := by
  apply runs_copies hw h
  apply hr
  refine ⟨clear_third hw, clear_bubble hw, ?_, ?_, ?_, spares_two hw, copy_offPivot hw lane_two⟩
  all_goals
    rw [← hfp]
    exact copy_isFp hw (by decide)

theorem runs_fp {s : Stages} (h : AtGroup s) (hfp : isFp w = true) {Next : Stages → Prop}
    {rest : List Word} (hr : ∀ s', AfterFp 2 s' → Runs Next true s' rest) :
    Runs Next false s (laneWord w 0 :: laneWord w 1 :: laneWord w 2 :: 0 :: 0 :: rest) := by
  apply runs_copies hw h
  have hcopy : ∀ l < PARALLEL_CNT, isFp (laneWord w l) = true := fun l hl => by rw [copy_isFp hw hl, hfp]
  apply Runs.skip (clear_third hw) (hcopy 0 lane_zero)
  apply hr
  exact ⟨clear_bubble hw, rfl, hcopy 2 lane_two, hcopy 1 lane_one,
    ⟨spares_two hw, spares_one hw⟩, copy_offPivot hw lane_two⟩

/-- A copy in decode of a group without FPU words: `e` and `b` hold copies of other lanes, or of
the same word, which does not read its own destination. -/
theorem clear_int {f e b : Word} {l : Nat} (hl : l < PARALLEL_CNT)
    (he : Indep (laneWord w l) e) (hb : Indep (laneWord w l) b) (hefp : isFp e = false) :
    Stages.Clear ⟨f, laneWord w l, e, b⟩ := by
  refine clear_copy hw hl rfl he hb fun h => ?_
  change isFp e = true at h
  rw [hefp] at h
  cases h

theorem runs_after_two {s : Stages} (h : AfterFp 2 s) (hfp : isFp w = false) (ht : Twice w)
    {Next : Stages → Prop} {rest : List Word}
    (hr : ∀ s', AtBubble s' → Runs Next false s' (0 :: rest)) :
    Runs Next true s (laneWord w 0 :: laneWord w 1 :: laneWord w 2 :: 0 :: rest) := by
  obtain ⟨f, d, e, b⟩ := s
  obtain ⟨hc, rfl, hd, he, ⟨hsp, -⟩, -⟩ := h
  have hcopy : ∀ l < PARALLEL_CNT, isFp (laneWord w l) = false := fun l hl => by rw [copy_isFp hw hl, hfp]
  have h1 : Twice (laneWord w 1) := copy_twice hw lane_one ht
  have hi10 := copies_indep hw hw lane_one lane_zero (by decide)
  have hi21 := copies_indep hw hw lane_two lane_one (by decide)
  have hc1 : Stages.Clear ⟨laneWord w 0, 0, d, e⟩ := Stages.clear_zero _ rfl
  have hc2 : Stages.Clear ⟨laneWord w 1, laneWord w 0, 0, d⟩ :=
    clear_int hw (by decide) (indep_zero_right _) (indep_sparesFirst hw hsp) zero_isFp
  have hc3 : Stages.Clear ⟨laneWord w 1, laneWord w 1, laneWord w 0, 0⟩ :=
    clear_int hw (by decide) hi10 (indep_zero_right _) (hcopy 0 lane_zero)
  have hc4 : Stages.Clear ⟨laneWord w 2, laneWord w 1, laneWord w 1, laneWord w 0⟩ :=
    clear_int hw (by decide) h1.2 hi10 (hcopy 1 lane_one)
  have hc5 : Stages.Clear ⟨0, laneWord w 2, laneWord w 1, laneWord w 1⟩ :=
    clear_int hw (by decide) hi21 hi21 (hcopy 1 lane_one)
  have hend : AtBubble ⟨laneWord w 2, laneWord w 1, laneWord w 1, laneWord w 0⟩ :=
    ⟨hc4, hc5, hcopy 2 lane_two, hcopy 1 lane_one, hcopy 1 lane_one, spares_two hw,
      copy_offPivot hw lane_two⟩
  exact .keep hc he (.keep hc1 hd (.again hc2 zero_isFp h1
    (.take hc3 (hcopy 0 lane_zero) (hr _ hend))))

theorem runs_after_one {s : Stages} (h : AfterFp 1 s) (hfp : isFp w = false) (ht : Twice w)
    {Next : Stages → Prop} {rest : List Word}
    (hr : ∀ s', AtBubble s' → Runs Next false s' (0 :: rest)) :
    Runs Next true s (laneWord w 0 :: laneWord w 1 :: laneWord w 2 :: 0 :: rest) := by
  obtain ⟨f, d, e, b⟩ := s
  obtain ⟨hc, rfl, hd, he, -, -⟩ := h
  obtain rfl : d = 0 := by simpa using hd
  have hcopy : ∀ l < PARALLEL_CNT, isFp (laneWord w l) = false := fun l hl => by rw [copy_isFp hw hl, hfp]
  have h0 : Twice (laneWord w 0) := copy_twice hw lane_zero ht
  have hi10 := copies_indep hw hw lane_one lane_zero (by decide)
  have hc1 : Stages.Clear ⟨laneWord w 0, 0, 0, e⟩ := Stages.clear_zero _ rfl
  have hc2 : Stages.Clear ⟨laneWord w 0, laneWord w 0, 0, 0⟩ :=
    clear_int hw (by decide) (indep_zero_right _) (indep_zero_right _) zero_isFp
  have hc3 : Stages.Clear ⟨laneWord w 1, laneWord w 0, laneWord w 0, 0⟩ :=
    clear_int hw (by decide) h0.2 (indep_zero_right _) (hcopy 0 lane_zero)
  have hc4 : Stages.Clear ⟨laneWord w 2, laneWord w 1, laneWord w 0, laneWord w 0⟩ :=
    clear_int hw (by decide) hi10 hi10 (hcopy 0 lane_zero)
  have hend : AtBubble ⟨laneWord w 2, laneWord w 1, laneWord w 0, laneWord w 0⟩ :=
    ⟨hc4, clear_bubble hw, hcopy 2 lane_two, hcopy 1 lane_one, hcopy 0 lane_zero,
      spares_two hw, copy_offPivot hw lane_two⟩
  exact .keep hc he (.again hc1 zero_isFp h0 (.take hc2 zero_isFp
    (.take hc3 (hcopy 0 lane_zero) (hr _ hend))))

end Groups

namespace AfterFp

variable {s : Stages} {n : Nat}

theorem nop (h : AfterFp (n + 1) s) (hn : n ≤ 1) : AfterFp n (s.take 0) where
  clear := Stages.clear_zero _ h.f
  f := rfl
  d := by rw [if_neg (by omega)]; exact h.f
  e := by
    have hd := h.d
    split_ifs with h0
    · rwa [if_neg (by omega)] at hd
    · rwa [if_pos (by omega)] at hd
  spares := ⟨by rw [show (s.take 0).d = 0 from h.f]; exact zero_sparesFirst, h.spares.1⟩
  offPivot := by rw [show (s.take 0).d = 0 from h.f]; exact zero_offPivot

theorem isFp_e (h : AfterFp (n + 1) s) : isFp s.e = true := h.e

theorem passEnd (h : AfterFp (n + 1) s) : PassEnd s := ⟨h.f, h.clear, h.offPivot⟩

theorem zero_e (h : AfterFp 0 s) : isFp s.e = false := by
  rw [show s.e = 0 from h.e]
  exact zero_isFp

theorem group (h : AfterFp 0 s) : AtGroup (s.take s.f) where
  clear := Stages.clear_zero _ h.f
  f := h.f
  d := by rw [show (s.take s.f).d = 0 from h.f]; exact zero_isFp
  e := by rw [show (s.take s.f).e = 0 from h.d]; exact zero_isFp
  spares := by rw [show (s.take s.f).d = 0 from h.f]; exact zero_sparesFirst

theorem zero_passEnd (h : AfterFp 0 s) : PassEnd (s.take 0) :=
  ⟨rfl, Stages.clear_zero _ h.f, by rw [show (s.take 0).d = 0 from h.f]; exact zero_offPivot⟩

end AfterFp

/-! ## A whole pass -/

structure Taken (ws : List Word) : Prop where
  bubble : ∀ s, AtBubble s → Runs PassEnd false s (0 :: ws.flatMap expandInstr)
  two : Follower ws → (∀ v vs, ws = v :: vs → opr v = 0 → Follower vs) →
    ∀ s, AfterFp 2 s → Runs PassEnd true s (ws.flatMap expandInstr)
  one : Follower ws → ∀ s, AfterFp 1 s → Runs PassEnd true s (ws.flatMap expandInstr)
  zero : ∀ s, AfterFp 0 s → Runs PassEnd true s (ws.flatMap expandInstr)

theorem taken_nil : Taken [] where
  bubble := by
    intro s h
    refine @Runs.last _ s false h.clear (fun _ => ⟨rfl, h.next, h.offPivot⟩) fun he => ?_
    rw [h.e] at he
    cases he
  two := fun _ _ s h => @Runs.last _ s true h.clear
    (fun he => by rw [h.isFp_e] at he; cases he) (fun _ => h.passEnd)
  one := fun _ s h => @Runs.last _ s true h.clear
    (fun he => by rw [h.isFp_e] at he; cases he) (fun _ => h.passEnd)
  zero := fun s h => @Runs.last _ s true h.clear (fun _ => h.zero_passEnd)
    (fun he => by rw [h.zero_e] at he; cases he)

theorem runs_group {w : Word} {ws : List Word} (hw : Queued w) (ih : Taken ws)
    (hs : isFp w = true → Follower ws ∧ ∀ v vs, ws = v :: vs → opr v = 0 → Follower vs) {s : Stages}
    (h : AtGroup s) : Runs PassEnd false s ((w :: ws).flatMap expandInstr) := by
  rw [List.flatMap_cons]
  by_cases hnop : opr w = 0
  · rw [expandInstr_nop hnop]
    exact ih.bubble s h.nop
  rw [expandInstr_word hnop]
  cases hfp : isFp w with
  | false => exact runs_int hw h hfp ih.bubble
  | true => exact runs_fp hw h hfp (ih.two (hs hfp).1 (hs hfp).2)

theorem expand_cons (w : Word) (ws : List Word) :
    ∃ x xs, (w :: ws).flatMap expandInstr = x :: xs := by
  rw [List.flatMap_cons]
  by_cases hnop : opr w = 0
  · rw [expandInstr_nop hnop]
    exact ⟨_, _, rfl⟩
  · rw [expandInstr_word hnop]
    exact ⟨_, _, rfl⟩

theorem taken_cons {w : Word} {ws : List Word} (hw : Queued w) (ih : Taken ws)
    (hs : isFp w = true → Follower ws ∧ ∀ v vs, ws = v :: vs → opr v = 0 → Follower vs) :
    Taken (w :: ws) where
  bubble := by
    intro s h
    have hgroup := runs_group hw ih hs h.group
    obtain ⟨x, xs, hx⟩ := expand_cons w ws
    rw [hx] at hgroup ⊢
    exact .take h.clear h.e hgroup
  two := by
    intro hf hnext s h
    rw [List.flatMap_cons]
    by_cases hnop : opr w = 0
    · rw [expandInstr_nop hnop]
      exact .keep h.clear h.isFp_e (ih.one (hnext w ws rfl hnop) _ (h.nop (by omega)))
    obtain ⟨hfp, ht⟩ := hf.resolve_left hnop
    rw [expandInstr_word hnop, hfp]
    exact runs_after_two hw h hfp ht ih.bubble
  one := by
    intro hf s h
    rw [List.flatMap_cons]
    by_cases hnop : opr w = 0
    · rw [expandInstr_nop hnop]
      exact .keep h.clear h.isFp_e (ih.zero _ (h.nop (by omega)))
    obtain ⟨hfp, ht⟩ := hf.resolve_left hnop
    rw [expandInstr_word hnop, hfp]
    exact runs_after_one hw h hfp ht ih.bubble
  zero := by
    intro s h
    have hgroup := runs_group hw ih hs h.group
    obtain ⟨x, xs, hx⟩ := expand_cons w ws
    rw [hx] at hgroup ⊢
    exact .again h.clear h.zero_e (by rw [h.f]; exact zero_twice) hgroup

theorem taken_of_spaced {ws : List Word} (hw : ∀ w ∈ ws, Queued w) (hs : Spaced ws) : Taken ws := by
  induction ws with
  | nil => exact taken_nil
  | cons w ws ih =>
    rw [List.forall_mem_cons] at hw
    exact taken_cons hw.1 (ih hw.2 hs.2) hs.1

/-! ## The prologue -/

theorem pivotWord_plain : isFp pivotWord = false ∧ sAllowed pivotWord := by decide

theorem lanePivot_plain (mtaskmem : Word) {l : Nat} (hl : l < PARALLEL_CNT) :
    isFp (lanePivotWord mtaskmem l) = false ∧ sAllowed (lanePivotWord mtaskmem l) := by
  have hopr : opr (lanePivotWord mtaskmem l) = Opr.adi.code := lanePivot_opr mtaskmem hl
  refine ⟨?_, fun _ => ?_⟩
  · rw [isFp, cw_of_code hopr]
    rfl
  · rw [hopr]
    rfl

theorem runs_third {Next : Stages → Prop} {y w : Word} {e b : Word} {rest : List Word}
    (hy : isFp y = false ∧ sAllowed y) (he : isFp e = false)
    (hr : Runs Next false ⟨0, 0, y, 0⟩ (w :: rest)) :
    Runs Next false ⟨0, 0, e, b⟩ (y :: 0 :: 0 :: w :: rest) := by
  have hc : Stages.Clear ⟨0, y, 0, 0⟩ :=
    ⟨indep_zero_right _, indep_zero_right _,
      fun h => absurd h (by simp [show isFp 0#32 = false from zero_isFp]), hy.2⟩
  exact .take (Stages.clear_zero _ rfl) he (.take (Stages.clear_zero _ rfl) zero_isFp
    (.take hc zero_isFp hr))

theorem runs_start {Next : Stages → Prop} {w : Word} {rest : List Word}
    (hr : Runs Next false Stages.empty (w :: rest)) (s : Stages) (h : PassEnd s) :
    Runs Next true s (0 :: 0 :: w :: rest) := by
  obtain ⟨f, d, e, b⟩ := s
  obtain ⟨rfl, hc, -⟩ := h
  have hc1 : Stages.Clear ⟨0, 0, d, e⟩ := Stages.clear_zero _ rfl
  have hc2 : Stages.Clear ⟨0, 0, 0, d⟩ := Stages.clear_zero _ rfl
  have hstep : Runs Next false ⟨0, 0, 0, d⟩ (0 :: w :: rest) := .take hc2 zero_isFp hr
  have hahead : Runs Next true ⟨0, 0, 0, d⟩ (w :: rest) := .again hc2 zero_isFp zero_twice hr
  cases he : isFp e with
  | true =>
    apply Runs.keep hc he
    cases hd : isFp d with
    | true => exact .keep hc1 hd hahead
    | false => exact .again hc1 hd zero_twice hstep
  | false =>
    apply Runs.again hc he zero_twice
    cases hd : isFp d with
    | true => exact .skip hc1 hd hahead
    | false => exact .take hc1 hd hstep

theorem restarts (mtaskmem : Word) {ws : List Word} (hw : ∀ w ∈ ws, Queued w) (hs : Spaced ws) :
    Restarts (gppcuProgramAutofeedDeviceParallel mtaskmem ws) PassEnd where
  run := by
    apply runs_start
    have h0 := lanePivot_plain mtaskmem lane_zero
    have h1 := lanePivot_plain mtaskmem lane_one
    have h2 := lanePivot_plain mtaskmem lane_two
    refine runs_third pivotWord_plain zero_isFp (runs_third h0 pivotWord_plain.1
      (runs_third h1 h0.1 ?_))
    have hc : Stages.Clear ⟨0, lanePivotWord mtaskmem 2, 0, 0⟩ :=
      ⟨indep_zero_right _, indep_zero_right _,
        fun h => absurd h (by simp [show isFp 0#32 = false from zero_isFp]), h2.2⟩
    have hbubble : AtBubble ⟨0, lanePivotWord mtaskmem 2, 0, 0⟩ :=
      ⟨hc, Stages.clear_zero _ rfl, zero_isFp, h2.1, zero_isFp, zero_sparesFirst, zero_offPivot⟩
    exact .take (Stages.clear_zero _ rfl) h1.1 (.take (Stages.clear_zero _ rfl) zero_isFp
      ((taken_of_spaced hw hs).bubble _ hbubble))
  fetch := fun _ h => h.1
  decode := fun _ h => h.2.2
  first := ⟨rfl, Stages.clear_zero _ rfl, zero_offPivot⟩

end Gppcu
