import Gppcu.Lib.Run
import Gppcu.Queue.Spec

/-!
# The bus of the driver

The functions of `gppcu.c` that move the PIO ports, as the accesses they make,
and the board on which the ports drive the device. Between two accesses the
device may be clocked by `iACLK` any number of times.
-/

namespace Gppcu

/-! ## The functions of the driver -/

def GPPCU_CMD_RD : Word := 1
def GPPCU_CMD_WR : Word := 2
def GPPCU_CMD_CONST : Word := 3
def GPPCU_CMD_STAT : Word := 4
def GPPCU_CMD_CLK : Word := 1 <<< 31

/-- `IOWR_ALTERA_AVALON_PIO_DATA` and `IORD_ALTERA_AVALON_PIO_DATA` on the three ports. -/
inductive Access
  | cmd (x : Word)
  | datout (x : Word)
  | datin
  deriving DecidableEq

def gppcuPushInstr (instr : Word) : List Access :=
  [.datout instr, .cmd 0, .cmd GPPCU_CMD_CLK, .cmd 0]

def gppcuDataRd (ThreadIdx WordIdx : Word) : List Access :=
  let cmd := GPPCU_CMD_RD <<< 24 ||| ThreadIdx <<< 16 ||| WordIdx
  [.cmd cmd, .cmd (GPPCU_CMD_CLK ||| cmd), .cmd (~~~GPPCU_CMD_CLK &&& cmd), .datin]

def gppcuDataWr (ThreadIdx WordIdx Data : Word) : List Access :=
  let cmd := GPPCU_CMD_WR <<< 24 ||| ThreadIdx <<< 16 ||| WordIdx
  [.datout Data, .cmd cmd, .cmd (GPPCU_CMD_CLK ||| cmd), .cmd (~~~GPPCU_CMD_CLK &&& cmd)]

def gppcuConstantWr (Addr : BitVec 16) (Data : Word) : List Access :=
  let cmd := GPPCU_CMD_CONST <<< 24 ||| (0 : Word) <<< 16 ||| Addr.setWidth 32
  [.datout Data, .cmd cmd, .cmd (GPPCU_CMD_CLK ||| cmd), .cmd (~~~GPPCU_CMD_CLK &&& cmd)]

/-- The last write sets all of the low bits. -/
def gppcuDeviceCommand (lparam : BitVec 8) (command : BitVec 16) : List Access :=
  let cmd := GPPCU_CMD_STAT <<< 24 ||| lparam.setWidth 32 <<< 16 ||| command.setWidth 32
  [.cmd cmd, .cmd (GPPCU_CMD_CLK ||| cmd), .cmd (~~~GPPCU_CMD_CLK ||| cmd)]

def gppcuStat : List Access := [.cmd (GPPCU_CMD_STAT <<< 24), .datin]

inductive Call
  | pushInstr (instr : Word)
  | dataRd (ThreadIdx WordIdx : Word)
  | dataWr (ThreadIdx WordIdx Data : Word)
  | constantWr (Addr : BitVec 16) (Data : Word)
  | deviceCommand (lparam : BitVec 8) (command : BitVec 16)
  | stat
  deriving DecidableEq

def Call.accesses : Call → List Access
  | pushInstr instr => gppcuPushInstr instr
  | dataRd ThreadIdx WordIdx => gppcuDataRd ThreadIdx WordIdx
  | dataWr ThreadIdx WordIdx Data => gppcuDataWr ThreadIdx WordIdx Data
  | constantWr Addr Data => gppcuConstantWr Addr Data
  | deviceCommand lparam command => gppcuDeviceCommand lparam command
  | stat => gppcuStat

def Call.InRange : Call → Prop
  | dataRd ThreadIdx WordIdx | dataWr ThreadIdx WordIdx _ => ThreadIdx.toNat < 24 ∧ WordIdx.toNat < 2 ^ 16
  | _ => True

/-! ## The ports -/

structure Ports where
  iCMD : Word
  iDATA : Word

def Ports.step (p : Ports) : Access → Ports
  | .cmd x => { p with iCMD := x }
  | .datout x => { p with iDATA := x }
  | .datin => p

/-- A rising edge of `opclk`: the command before it and behind it, and the data beside it. -/
structure Edge where
  before : Word
  after : Word
  iDATA : Word
  deriving DecidableEq

def Ports.rise (p : Ports) : Access → Option Edge
  | .cmd x => if !ICmd.opclk p.iCMD && ICmd.opclk x then some ⟨p.iCMD, x, p.iDATA⟩ else none
  | _ => none

/-! ## The board -/

structure Board (QBW GBW T : Nat) where
  ports : Ports
  device : GppcuTestQueue QBW GBW T

/-- What happens next: an access of the host, or a period of `iACLK`. -/
inductive Event
  | access (a : Access)
  | tick

def Event.access? : Event → Option Access
  | access a => some a
  | tick => none

theorem Event.filterMap_access (as : List Access) : (as.map Event.access).filterMap Event.access? = as := by
  rw [List.filterMap_map]
  exact List.filterMap_some

namespace Board

variable {QBW GBW T : Nat}

def step (F : Fin T → Fpu) (b : Board QBW GBW T) : Event → Board QBW GBW T
  | .access a =>
    { ports := b.ports.step a
      device := match b.ports.rise a with
        | some e => b.device.opClock e.after e.iDATA
        | none => b.device }
  | .tick => { b with device := b.device.clock F }

def datin (b : Board QBW GBW T) : Word := b.device.oDATA b.ports.iCMD

end Board

end Gppcu
