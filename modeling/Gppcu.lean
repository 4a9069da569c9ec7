import Gppcu.Isa.Instr
import Gppcu.Isa.Machine
import Gppcu.Lib.Run
import Gppcu.Core.Spec
import Gppcu.Core.Stall
import Gppcu.Core.Refines
import Gppcu.Queue.Spec
import Gppcu.Queue.Supply
import Gppcu.Driver.Builders
import Gppcu.Driver.Autofeed
import Gppcu.Core.Pipe
import Gppcu.Queue.Schedule
import Gppcu.Queue.Device
import Gppcu.Driver.Padding
import Gppcu.Driver.Program
import Gppcu.Lanes.Alike
import Gppcu.Lanes.Expand
import Gppcu.Lanes.Leak
import Gppcu.Driver.Port
import Gppcu.Driver.Bus
import Gppcu.Driver.Serve
import Gppcu.Driver.Task
import Gppcu.Lanes.Effect
import Gppcu.App.Shader
import Gppcu.App.Pass
import Gppcu.App.Upload
import Gppcu.App.Vertices
import Gppcu.Isa.Carry
import Gppcu.Driver.Assembler
import Gppcu.Driver.Download
import Gppcu.Lanes.Spill
import Gppcu.App.Capacity
import Gppcu.App.Rounds
import Gppcu.App.Surplus
import Gppcu.Driver.Drain
import Gppcu.Core.Sequencer
import Gppcu.App.Progress
import Gppcu.Lib.DigitalLine
import Gppcu.Lib.Loop
import Gppcu.Screen.Line
import Gppcu.Screen.Span
import Gppcu.Lib.Triangle
import Gppcu.Mesh.Subdevide
import Gppcu.Mesh.Storage
import Gppcu.Mesh.Area
import Gppcu.Screen.Timing
import Gppcu.Screen.Frame
import Gppcu.Screen.Picture
import Gppcu.App.Deprecated
import Gppcu.Queue.Clocks
import Gppcu.App.Frames
import Gppcu.Screen.Display
import Gppcu.Screen.Wireframe
import Gppcu.Lib.Surface
import Gppcu.Mesh.Box
import Gppcu.App.Constant
import Gppcu.Screen.Main
import Gppcu.App.Jobs
