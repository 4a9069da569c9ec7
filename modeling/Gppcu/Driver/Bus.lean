import Gppcu.Driver.Host
import Gppcu.Lib.Field

/-!
# The bus carries the calls

Every call but `gppcu_stat` reaches the device on one rising edge of its own, so
the device does what the calls stand for, in their order.
-/

namespace Gppcu

variable {QBW GBW T : Nat}

/-! ## The words on the port -/

section Words

variable {wparam lparam command : Word}

structure PortFit (wparam lparam command : Word) : Prop where
  wparam : wparam.toNat < 2 ^ 7
  lparam : lparam.toNat < 2 ^ 8
  command : command.toNat < 2 ^ 16

variable (h : PortFit wparam lparam command)

include h

theorem portWord_fields :
    ICmd.wparam (wparam <<< 24 ||| lparam <<< 16 ||| command) = wparam.setWidth 7 ∧
      ICmd.lparam (wparam <<< 24 ||| lparam <<< 16 ||| command) = lparam.setWidth 8 ∧
      ICmd.command (wparam <<< 24 ||| lparam <<< 16 ||| command) = command.setWidth 16 ∧
      ICmd.opclk (wparam <<< 24 ||| lparam <<< 16 ||| command) = false := by
  unfold ICmd.wparam ICmd.lparam ICmd.command ICmd.opclk
  rw [Lib.getLsbD_eq_extract]
  simp only [BitVec.extractLsb'_or]
  refine ⟨?_, ?_, ?_, ?_⟩
  · rw [Lib.extract_shiftLeft_self (by omega), Lib.extract_shiftLeft_other h.lparam (by omega),
      Lib.extract_of_small h.command (by omega)]
    simp
  · rw [Lib.extract_shiftLeft_other h.wparam (by omega), Lib.extract_shiftLeft_self (by omega),
      Lib.extract_of_small h.command (by omega)]
    simp
  · rw [Lib.extract_shiftLeft_other h.wparam (by omega), Lib.extract_shiftLeft_other h.lparam (by omega),
      Lib.extract_self]
    simp
  · rw [Lib.extract_shiftLeft_other h.wparam (by omega), Lib.extract_shiftLeft_other h.lparam (by omega),
      Lib.extract_of_small h.command (by omega)]
    simp

end Words

theorem clk_fields (x : Word) :
    ICmd.wparam (GPPCU_CMD_CLK ||| x) = ICmd.wparam x ∧ ICmd.lparam (GPPCU_CMD_CLK ||| x) = ICmd.lparam x ∧
      ICmd.command (GPPCU_CMD_CLK ||| x) = ICmd.command x ∧ ICmd.opclk (GPPCU_CMD_CLK ||| x) = true ∧
      (GPPCU_CMD_CLK ||| x).setWidth 31 = x.setWidth 31 := by
  unfold ICmd.wparam ICmd.lparam ICmd.command ICmd.opclk
  have hclk : GPPCU_CMD_CLK.extractLsb' 24 7 = 0 ∧ GPPCU_CMD_CLK.extractLsb' 16 8 = 0 ∧
      GPPCU_CMD_CLK.extractLsb' 0 16 = 0 ∧ GPPCU_CMD_CLK.getLsbD 31 = true ∧
      GPPCU_CMD_CLK.setWidth 31 = 0 := by decide
  rw [BitVec.extractLsb'_or, BitVec.extractLsb'_or, BitVec.extractLsb'_or, BitVec.getLsbD_or,
    BitVec.setWidth_or, hclk.1, hclk.2.1, hclk.2.2.1, hclk.2.2.2.1, hclk.2.2.2.2]
  simp

theorem clk_low (x : Word) (hx : ICmd.opclk x = false) :
    ICmd.opclk (~~~GPPCU_CMD_CLK &&& x) = false ∧ ICmd.opclk (~~~GPPCU_CMD_CLK ||| x) = false := by
  unfold ICmd.opclk at *
  have hclk : (~~~GPPCU_CMD_CLK).getLsbD 31 = false := by decide
  rw [BitVec.getLsbD_and, BitVec.getLsbD_or, hclk, hx]
  exact ⟨rfl, rfl⟩

/-! ## One call on the ports -/

def Ports.edges (p : Ports) (as : List Access) : List Edge :=
  Lib.trace Ports.step (fun p a => (p.rise a).toList) p as

theorem Ports.edges_append (p : Ports) (as bs : List Access) :
    p.edges (as ++ bs) = p.edges as ++ (Lib.run Ports.step p as).edges bs := Lib.trace_append ..

def Ports.AtRest (p : Ports) : Prop := ICmd.opclk p.iCMD = false

def pulse (cmd rest : Word) : List Access := [.cmd cmd, .cmd (GPPCU_CMD_CLK ||| cmd), .cmd rest]

theorem pulse_edges (p : Ports) {cmd : Word} (rest : Word) (hc : ICmd.opclk cmd = false) :
    p.edges (pulse cmd rest) = [⟨cmd, GPPCU_CMD_CLK ||| cmd, p.iDATA⟩] := by
  have hclk := (clk_fields cmd).2.2.2.1
  simp [Ports.edges, pulse, Lib.trace, Ports.step, Ports.rise, hc, hclk]

theorem pulse_run (p : Ports) (cmd rest : Word) :
    Lib.run Ports.step p (pulse cmd rest) = { p with iCMD := rest } := rfl

theorem pulse_command {wparam lparam command : Word} (h : PortFit wparam lparam command) (x : Word) :
    Edge.command ⟨wparam <<< 24 ||| lparam <<< 16 ||| command,
        GPPCU_CMD_CLK ||| (wparam <<< 24 ||| lparam <<< 16 ||| command), x⟩ =
      ⟨wparam.setWidth 7, lparam.setWidth 8, command.setWidth 16, x⟩ := by
  obtain ⟨hw, hl, hc, -⟩ := portWord_fields h
  obtain ⟨hw', hl', hc', -⟩ := clk_fields (wparam <<< 24 ||| lparam <<< 16 ||| command)
  unfold Edge.command
  rw [hw', hl', hc', hw, hl, hc]

structure Call.Served (c : Call) (p : Ports) : Prop where
  rest : (Lib.run Ports.step p c.accesses).AtRest
  data : (Lib.run Ports.step p c.accesses).iDATA = c.data?.getD p.iDATA
  command : (p.edges c.accesses).map Edge.command = (c.command? (c.data?.getD p.iDATA)).toList
  stable : ∀ e ∈ p.edges c.accesses, e.Stable

theorem Call.served_of_pulse {c : Call} {p : Ports} {cmd rest : Word} (post : List Access)
    (hacc : c.accesses = (c.data?.map Access.datout).toList ++ (pulse cmd rest ++ post))
    (hpost : post = [] ∨ post = [.datin]) (hcmd : ICmd.opclk cmd = false) (hrest : ICmd.opclk rest = false)
    (hcommand : ∀ x, c.command? x = some (Edge.command ⟨cmd, GPPCU_CMD_CLK ||| cmd, x⟩)) : c.Served p := by
  have hdata : Lib.run Ports.step p (c.data?.map Access.datout).toList =
      { p with iDATA := c.data?.getD p.iDATA } := by cases c.data? <;> rfl
  have hpre : p.edges (c.data?.map Access.datout).toList = [] := by cases c.data? <;> rfl
  have hrun : Lib.run Ports.step p c.accesses = ⟨rest, c.data?.getD p.iDATA⟩ := by
    rw [hacc, Lib.run_append, hdata, Lib.run_append, pulse_run]
    rcases hpost with rfl | rfl <;> rfl
  have hedges : p.edges c.accesses = [⟨cmd, GPPCU_CMD_CLK ||| cmd, c.data?.getD p.iDATA⟩] := by
    rw [hacc, Ports.edges_append, hpre, hdata, List.nil_append, Ports.edges_append, pulse_edges _ _ hcmd]
    rcases hpost with rfl | rfl <;> rfl
  refine ⟨by rw [hrun]; exact hrest, by rw [hrun], ?_, ?_⟩
  · rw [hedges, hcommand]
    rfl
  · rw [hedges]
    intro e he
    obtain rfl := List.mem_singleton.mp he
    exact (clk_fields cmd).2.2.2.2.symm

theorem Call.served {c : Call} (hc : c.InRange) (p : Ports) : c.Served p := by
  cases c with
  | pushInstr instr =>
    have hzero : ∀ x, Edge.command ⟨0, GPPCU_CMD_CLK ||| 0, x⟩ = ⟨OPR_INSTR, 0, 0, x⟩ := by
      intro x
      obtain ⟨hw, hl, hc, -⟩ := clk_fields 0
      unfold Edge.command
      rw [hw, hl, hc]
      rfl
    have hacc : (pushInstr instr).accesses = [.datout instr] ++ (pulse 0 0 ++ []) := rfl
    exact served_of_pulse [] hacc (Or.inl rfl) rfl rfl fun x => by rw [hzero]; rfl
  | dataRd t w =>
    have hfit : PortFit GPPCU_CMD_RD t w := ⟨by decide, by have := hc.1; omega, hc.2⟩
    have hlow := (portWord_fields hfit).2.2.2
    refine served_of_pulse [.datin] rfl (Or.inr rfl) hlow (clk_low _ hlow).1 fun x => ?_
    rw [pulse_command hfit]
    rfl
  | dataWr t w x =>
    have hfit : PortFit GPPCU_CMD_WR t w := ⟨by decide, by have := hc.1; omega, hc.2⟩
    have hlow := (portWord_fields hfit).2.2.2
    refine served_of_pulse [] rfl (Or.inl rfl) hlow (clk_low _ hlow).1 fun x => ?_
    rw [pulse_command hfit]
    rfl
  | constantWr a x =>
    have hfit : PortFit GPPCU_CMD_CONST 0 (a.setWidth 32) := ⟨by decide, by decide, by simp; omega⟩
    have hlow := (portWord_fields hfit).2.2.2
    refine served_of_pulse [] rfl (Or.inl rfl) hlow (clk_low _ hlow).1 fun x => ?_
    rw [pulse_command hfit, BitVec.setWidth_setWidth_of_le _ (by omega), BitVec.setWidth_eq]
    rfl
  | deviceCommand l k =>
    have hfit : PortFit GPPCU_CMD_STAT (l.setWidth 32) (k.setWidth 32) :=
      ⟨by decide, by simp; omega, by simp; omega⟩
    have hlow := (portWord_fields hfit).2.2.2
    refine served_of_pulse [] rfl (Or.inl rfl) hlow (clk_low _ hlow).2 fun x => ?_
    rw [pulse_command hfit, BitVec.setWidth_setWidth_of_le _ (by omega), BitVec.setWidth_eq,
      BitVec.setWidth_setWidth_of_le _ (by omega), BitVec.setWidth_eq]
    rfl
  | stat =>
    have hlow : ICmd.opclk (GPPCU_CMD_STAT <<< 24) = false := by decide
    have hedges : p.edges stat.accesses = [] := by
      simp [accesses, gppcuStat, Ports.edges, Lib.trace, Ports.rise, hlow]
    refine ⟨hlow, rfl, ?_, ?_⟩
    · rw [hedges]
      rfl
    · rw [hedges]
      intro e he
      cases he

/-! ## Sequences of calls on the ports -/

theorem Ports.calls_edges {cs : List Call} (hcs : ∀ c ∈ cs, c.InRange) (p : Ports) :
    (p.edges (cs.flatMap Call.accesses)).map Edge.command = commands p.iDATA cs ∧
      ∀ e ∈ p.edges (cs.flatMap Call.accesses), e.Stable := by
  induction cs generalizing p with
  | nil => exact ⟨rfl, nofun⟩
  | cons c cs ih =>
    rw [List.forall_mem_cons] at hcs
    have hserved := Call.served hcs.1 p
    obtain ⟨hmap, hstable⟩ := ih hcs.2 (Lib.run Ports.step p c.accesses)
    rw [List.flatMap_cons, Ports.edges_append]
    constructor
    · rw [List.map_append, hserved.command, hmap, hserved.data]
      rfl
    · rw [List.forall_mem_append]
      exact ⟨hserved.stable, hstable⟩

/-! ## What the board shows -/

/-- An edge of the command port, or what the core stores on a clock of its own. -/
inductive Obs (T : Nat)
  | edge (e : Edge)
  | stores (σ : Fin T → Option (BitVec 9 × Word))

def Obs.edge? : Obs T → Option Edge
  | edge e => some e
  | stores _ => none

def Obs.stores? : Obs T → Option (Fin T → Option (BitVec 9 × Word))
  | edge _ => none
  | stores σ => some σ

def HostView.observe (v : HostView QBW GBW T) : Obs T → HostView QBW GBW T
  | .edge e => v.clocked e.command
  | .stores σ => v.stored σ

namespace Board

variable (F : Fin T → Fpu)

def emit (b : Board QBW GBW T) : Event → List (Obs T)
  | .access a => (b.ports.rise a).toList.map .edge
  | .tick => [.stores b.device.stores]

def trace (b : Board QBW GBW T) (es : List Event) : List (Obs T) := Lib.trace (step F) emit b es

theorem step_view (b : Board QBW GBW T) (e : Event) :
    (b.step F e).device.view = (b.emit e).foldl HostView.observe b.device.view := by
  cases e with
  | tick => exact clock_view F b.device
  | access a =>
    cases h : b.ports.rise a with
    | none => simp [step, emit, h]
    | some e =>
      simp only [step, emit, h, Option.toList_some, List.map_singleton, List.foldl_cons, List.foldl_nil]
      exact opClock_view b.device e

theorem run_view (b : Board QBW GBW T) (es : List Event) :
    (Lib.run (step F) b es).device.view = (b.trace F es).foldl HostView.observe b.device.view :=
  Lib.view_run (fun b => b.device.view) (step_view F) b es

theorem step_ports (b : Board QBW GBW T) (e : Event) :
    (b.step F e).ports = e.access?.elim b.ports b.ports.step := by
  cases e <;> rfl

theorem run_ports (b : Board QBW GBW T) (es : List Event) :
    (Lib.run (step F) b es).ports = Lib.run Ports.step b.ports (es.filterMap Event.access?) :=
  Lib.run_proj Board.ports (fun b e _ => step_ports F b e) (Lib.along_of_forall fun _ _ => trivial)

theorem trace_edges (b : Board QBW GBW T) (es : List Event) :
    (b.trace F es).filterMap Obs.edge? = b.ports.edges (es.filterMap Event.access?) := by
  apply Lib.trace_proj Board.ports (fun b e _ => step_ports F b e) _
    (Lib.along_of_forall fun _ _ => trivial)
  intro b e _
  cases e with
  | tick => rfl
  | access a =>
    unfold emit Event.access?
    cases h : b.ports.rise a <;> simp [h, Obs.edge?]

end Board

/-! ## Calls in place of edges -/

def Call.clocks : Call → Bool
  | stat => false
  | _ => true

theorem Call.clocks_eq (c : Call) (x : Word) : c.clocks = (c.command? x).isSome := by cases c <;> rfl

inductive HostOp (T : Nat)
  | call (c : Call)
  | stores (σ : Fin T → Option (BitVec 9 × Word))

def HostOp.call? : HostOp T → Option Call
  | call c => some c
  | stores _ => none

def HostOp.stores? : HostOp T → Option (Fin T → Option (BitVec 9 × Word))
  | call _ => none
  | stores σ => some σ

def HostView.apply (v : HostView QBW GBW T) : HostOp T → HostView QBW GBW T
  | .call c => c.apply v
  | .stores σ => v.stored σ

theorem commands_cons {x : Word} {cs : List Call} {k : Command} {ks : List Command}
    (h : commands x cs = k :: ks) : ∃ y c rest, c.command? (c.data?.getD y) = some k ∧
      commands (c.data?.getD y) rest = ks ∧ cs.filter Call.clocks = c :: rest.filter Call.clocks ∧
      (∀ d ∈ c :: rest, d ∈ cs) := by
  induction cs generalizing x with
  | nil => cases h
  | cons c cs ih =>
    rw [commands] at h
    cases hk : c.command? (c.data?.getD x) with
    | some k' =>
      rw [hk] at h
      obtain ⟨rfl, rfl⟩ := List.cons.inj h
      have hclocks : c.clocks = true := by rw [c.clocks_eq, hk, Option.isSome_some]
      exact ⟨x, c, cs, hk, rfl, by rw [List.filter_cons_of_pos hclocks], fun d hd => hd⟩
    | none =>
      rw [hk] at h
      obtain ⟨y, d, rest, hd, hrest, hfilter, hmem⟩ := ih h
      have hclocks : ¬c.clocks = true := by
        rw [c.clocks_eq (c.data?.getD x), hk]
        exact Bool.false_ne_true
      exact ⟨y, d, rest, hd, hrest, by rw [List.filter_cons_of_neg hclocks, hfilter],
        fun e he => List.mem_cons_of_mem _ (hmem e he)⟩

theorem commands_nil {x : Word} {cs : List Call} (h : commands x cs = []) : cs.filter Call.clocks = [] := by
  induction cs generalizing x with
  | nil => rfl
  | cons c cs ih =>
    rw [commands, List.append_eq_nil_iff] at h
    have hclocks : ¬c.clocks = true := by
      rw [c.clocks_eq, Option.toList_eq_nil_iff.mp h.1]
      exact Bool.false_ne_true
    rw [List.filter_cons_of_neg hclocks, ih h.2]

variable (QBW GBW) in
theorem ops_of_trace {cs : List Call} (hcs : ∀ c ∈ cs, c.InRange) {x : Word} {tr : List (Obs T)}
    (h : (tr.filterMap Obs.edge?).map Edge.command = commands x cs) :
    ∃ ops : List (HostOp T), ops.filterMap HostOp.call? = cs.filter Call.clocks ∧
      ops.filterMap HostOp.stores? = tr.filterMap Obs.stores? ∧
      ∀ v : HostView QBW GBW T, tr.foldl HostView.observe v = ops.foldl HostView.apply v := by
  induction tr generalizing cs x with
  | nil => exact ⟨[], (commands_nil h.symm).symm, rfl, fun _ => rfl⟩
  | cons o tr ih =>
    cases o with
    | stores σ =>
      obtain ⟨ops, hcall, hstores, hfold⟩ := ih hcs h
      refine ⟨.stores σ :: ops, hcall, congrArg (σ :: ·) hstores, fun v => ?_⟩
      exact hfold (v.stored σ)
    | edge e =>
      obtain ⟨y, c, rest, hk, hrest, hfilter, hmem⟩ := commands_cons h.symm
      have hc := hcs c (hmem c (List.mem_cons_self ..))
      obtain ⟨ops, hcall, hstores, hfold⟩ :=
        ih (fun d hd => hcs d (hmem d (List.mem_cons_of_mem _ hd))) hrest.symm
      refine ⟨.call c :: ops, ?_, hstores, fun v => ?_⟩
      · rw [hfilter, ← hcall]
        rfl
      · rw [List.foldl_cons, List.foldl_cons, hfold]
        congr 1
        exact HostView.clocked_command hc hk v

/-! ## What a read answers -/

def Call.wrote (k : Fin T) (a : BitVec 9) : Call → Option Word
  | dataWr ThreadIdx WordIdx Data =>
    if ThreadIdx.toNat = k ∧ WordIdx.setWidth 9 = a then some Data else none
  | _ => none

def HostOp.wrote (k : Fin T) (a : BitVec 9) : HostOp T → Option Word
  | call c => c.wrote k a
  | stores σ => (σ k).bind fun s => if s.1 = a then some s.2 else none

theorem apply_lmem (v : HostView QBW GBW T) (o : HostOp T) (k : Fin T) (a : BitVec 9) :
    (v.apply o).lmem k a = (o.wrote k a).getD (v.lmem k a) := by
  cases o with
  | stores σ =>
    unfold HostView.apply HostView.stored HostOp.wrote
    cases h : σ k with
    | none => simp [h]
    | some s =>
      simp only [h, Option.bind_some, Function.update_apply]
      by_cases ha : a = s.1
      · simp [ha]
      · simp [ha, Ne.symm ha]
  | call c =>
    cases c with
    | dataWr t w x =>
      unfold HostView.apply Call.apply HostView.write HostView.answering HostOp.wrote Call.wrote
      by_cases ht : t.toNat = k
      · by_cases ha : a = w.setWidth 9
        · simp [ht, ha]
        · simp [ht, ha, Ne.symm ha]
      · simp [ht]
    | deviceCommand l x =>
      change ((v.answering _).setRegister l x).lmem k a = v.lmem k a
      rw [HostView.setRegister_lmem]
      rfl
    | pushInstr | dataRd | constantWr | stat => rfl

theorem foldl_lmem (ops : List (HostOp T)) (v : HostView QBW GBW T) (k : Fin T) (a : BitVec 9) :
    (ops.foldl HostView.apply v).lmem k a =
      ((ops.filterMap (HostOp.wrote k a)).getLast?).getD (v.lmem k a) := by
  induction ops generalizing v with
  | nil => rfl
  | cons o ops ih =>
    rw [List.foldl_cons, ih, apply_lmem, List.filterMap_cons]
    cases o.wrote k a with
    | none => rfl
    | some x => rw [List.getLast?_cons, Option.getD_some, Option.getD_some]

theorem foldl_stores {ops : List (HostOp T)} (h : ops.filterMap HostOp.call? = []) (v : HostView QBW GBW T) :
    (ops.foldl HostView.apply v).lmemRdata = v.lmemRdata := by
  induction ops generalizing v with
  | nil => rfl
  | cons o ops ih =>
    cases o with
    | stores σ => exact ih h (v.stored σ)
    | call c => cases h

theorem clk_back (x : Word) :
    ICmd.wparam (~~~GPPCU_CMD_CLK &&& x) = ICmd.wparam x ∧
      ICmd.lparam (~~~GPPCU_CMD_CLK &&& x) = ICmd.lparam x := by
  unfold ICmd.wparam ICmd.lparam
  have hclk : (~~~GPPCU_CMD_CLK).extractLsb' 24 7 = BitVec.allOnes 7 ∧
      (~~~GPPCU_CMD_CLK).extractLsb' 16 8 = BitVec.allOnes 8 := by decide
  rw [BitVec.extractLsb'_and, BitVec.extractLsb'_and, hclk.1, hclk.2, BitVec.allOnes_and,
    BitVec.allOnes_and]
  exact ⟨rfl, rfl⟩

theorem dataRd_port {t w : Word} (hfit : (Call.dataRd t w).InRange) :
    ICmd.wparam (~~~GPPCU_CMD_CLK &&& (GPPCU_CMD_RD <<< 24 ||| t <<< 16 ||| w)) = OPR_RDL ∧
      (ICmd.lparam (~~~GPPCU_CMD_CLK &&& (GPPCU_CMD_RD <<< 24 ||| t <<< 16 ||| w))).toNat = t.toNat := by
  have hport : PortFit GPPCU_CMD_RD t w := ⟨by decide, by have := hfit.1; omega, hfit.2⟩
  obtain ⟨hw, hl, -, -⟩ := portWord_fields hport
  obtain ⟨hw', hl'⟩ := clk_back (GPPCU_CMD_RD <<< 24 ||| t <<< 16 ||| w)
  have ht := hfit.1
  rw [hw', hl', hw, hl, BitVec.toNat_setWidth, Nat.mod_eq_of_lt (by omega)]
  exact ⟨by decide, rfl⟩

theorem datin_eq (b : Board QBW GBW T) (h : ICmd.wparam b.ports.iCMD ≠ OPR_COMMAND) :
    b.datin = b.device.view.answer (ICmd.lparam b.ports.iCMD).toNat := by
  have hthread : ((ICmd.lparam b.ports.iCMD).setWidth 10).toNat = (ICmd.lparam b.ports.iCMD).toNat := by
    rw [BitVec.toNat_setWidth, Nat.mod_eq_of_lt (by omega)]
  unfold Board.datin GppcuTestQueue.oDATA Core.lmemRdata HostView.answer
  rw [if_neg h]
  simp only [hthread]
  rfl

/-! ## The whole run -/

theorem ops_last {ops : List (HostOp T)} {cs : List Call} {c : Call}
    (h : ops.filterMap HostOp.call? = cs ++ [c]) :
    ∃ ops₁ ops₂, ops = ops₁ ++ .call c :: ops₂ ∧ ops₁.filterMap HostOp.call? = cs ∧
      ops₂.filterMap HostOp.call? = [] := by
  obtain ⟨ops₁, l, rfl, h₁, hl⟩ := List.filterMap_eq_append_iff.mp h
  obtain ⟨σs, o, ops₂, rfl, hσ, ho, h₂⟩ := List.filterMap_eq_cons_iff.mp hl
  have ho' : o = .call c := by
    cases o with
    | stores σ => cases ho
    | call d => rw [Option.some.inj ho]
  refine ⟨ops₁ ++ σs, ops₂, by rw [ho', List.append_assoc], ?_, h₂⟩
  rw [List.filterMap_append, h₁, List.filterMap_eq_nil_iff.mpr hσ, List.append_nil]

/-- The bus carries every sequence of calls to the device, the core being free to run and to
store between any two accesses: each call has one edge, on which the port shows the command and
only the clock changes; the device does what the calls stand for, and a read answers the word
that was written last to the cell, by a call or by the core. -/
theorem driver_simulates_device (F : Fin T → Fpu) (b : Board QBW GBW T) {cs : List Call}
    (hcs : ∀ c ∈ cs, c.InRange) {es : List Event}
    (hes : es.filterMap Event.access? = cs.flatMap Call.accesses) :
    ((b.trace F es).filterMap Obs.edge?).map Edge.command = commands b.ports.iDATA cs ∧
      (∀ e ∈ (b.trace F es).filterMap Obs.edge?, e.Stable) ∧
      (∃ ops : List (HostOp T), ops.filterMap HostOp.call? = cs.filter Call.clocks ∧
        ops.filterMap HostOp.stores? = (b.trace F es).filterMap Obs.stores? ∧
        (Lib.run (Board.step F) b es).device.view = ops.foldl HostView.apply b.device.view ∧
        ∀ (pre : List Call) (t w : Word) (k : Fin T), cs = pre ++ [.dataRd t w] → t.toNat = k →
          ∀ es' : List Event, es = es' ++ [.access .datin] →
            ∃ ops₁ ops₂, ops = ops₁ ++ .call (.dataRd t w) :: ops₂ ∧ ops₂.filterMap HostOp.call? = [] ∧
              (Lib.run (Board.step F) b es').datin =
                ((ops₁.filterMap (HostOp.wrote k (w.setWidth 9))).getLast?).getD
                  (b.device.view.lmem k (w.setWidth 9))) ∧
      ∀ (instr : Word) (v : HostView QBW GBW T), v.pmemRunning = true →
        ((Call.pushInstr instr).apply v).pmemEnd = v.pmemEnd ∧
          ∀ a < v.pmemEnd, ((Call.pushInstr instr).apply v).pmem a = v.pmem a := by
  obtain ⟨hmap, hstable⟩ := Ports.calls_edges hcs b.ports
  rw [← hes, ← b.trace_edges F es] at hmap hstable
  obtain ⟨ops, hcall, hstores, hfold⟩ := ops_of_trace QBW GBW hcs hmap
  have hview := (b.run_view F es).trans (hfold _)
  refine ⟨hmap, hstable, ⟨ops, hcall, hstores, hview, ?_⟩, fun instr v hr => v.push_running instr hr⟩
  rintro pre t w k rfl hk es' rfl
  rw [List.filter_append] at hcall
  obtain ⟨ops₁, ops₂, rfl, -, hlast⟩ := ops_last hcall
  refine ⟨ops₁, ops₂, rfl, hlast, ?_⟩
  have hport := b.run_ports F (es' ++ [.access .datin])
  rw [hes, List.flatMap_append, Lib.run_append, Lib.run_append] at hport
  have hsame : (Lib.run (Board.step F) b es').ports.iCMD =
      ~~~GPPCU_CMD_CLK &&& (GPPCU_CMD_RD <<< 24 ||| t <<< 16 ||| w) := congrArg Ports.iCMD hport
  have hrange : (Call.dataRd t w).InRange := hcs _ (List.mem_append_right _ (List.mem_singleton.mpr rfl))
  obtain ⟨hwparam, hlparam⟩ := dataRd_port hrange
  rw [← hsame] at hwparam hlparam
  rw [datin_eq _ (by rw [hwparam]; decide), hlparam, hk, HostView.answer, dif_pos k.isLt, ← foldl_lmem]
  rw [Lib.run_append] at hview
  have hrdata := congrArg HostView.lmemRdata hview
  rw [List.foldl_append, List.foldl_cons, foldl_stores hlast] at hrdata
  exact congrFun hrdata k

def idleBoard : Board 6 1 2 where
  ports := ⟨0, 0⟩
  device :=
    { queue :=
        { pmem := ⟨fun _ => 0, 0, 0⟩
          cmem := ⟨fun _ => 0, 0, 0⟩
          pmemEnd := 0
          pmemRunning := false
          numCycles := 0
          szPerTask := 0
          pmemHead := 0
          programDone := false
          curTaskOfst := 0
          curCycleIdx := 0 }
      core := Core.blankCore }

def resetBetween : List Call := [.dataWr 1 5 7, .deviceCommand LPM_RESETPRG 0, .stat, .dataRd 1 517]

theorem driver_simulates_device_reset :
    ((idleBoard.trace (fun _ => anyFpu)
        (resetBetween.flatMap fun c => .tick :: c.accesses.map .access)).filterMap Obs.edge?).map
        Edge.command =
      [⟨OPR_WRL, 1, 5, 7⟩, ⟨OPR_COMMAND, LPM_RESETPRG, 0, 7⟩, ⟨OPR_RDL, 1, 517, 7⟩] := by
  have hcs : ∀ c ∈ resetBetween, c.InRange := by
    unfold resetBetween
    simp only [List.forall_mem_cons]
    exact ⟨⟨by decide, by decide⟩, trivial, trivial, ⟨by decide, by decide⟩, by simp⟩
  exact (driver_simulates_device (fun _ => anyFpu) idleBoard hcs rfl).1

end Gppcu
