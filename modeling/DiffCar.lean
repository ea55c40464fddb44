import DiffCar.MovingAverage
import DiffCar.NewestCommand
import DiffCar.SteadyWheel
import DiffCar.Interlock
import DiffCar.Envelope
import DiffCar.PwmDriver
import DiffCar.BadPacket
import DiffCar.Mirror
import DiffCar.Telemetry
import DiffCar.StaleMemory
import DiffCar.WindUp
import DiffCar.Integrator
import DiffCar.Setpoints
import DiffCar.HeapBalance
import DiffCar.Segmentation
import DiffCar.Drain
import DiffCar.AllocFailure
import DiffCar.Kinematics
import DiffCar.Header
import DiffCar.Button
import DiffCar.Lib.Hold
import DiffCar.Debounce
import DiffCar.Bounce
import DiffCar.Lib.Chain
import DiffCar.MessagePool
import DiffCar.Linearizable
import DiffCar.AtClient
import DiffCar.AtStream
import DiffCar.Commands
import DiffCar.AtResponse
import DiffCar.AtCommand
import DiffCar.StrayNotices
import DiffCar.AnswerSeen
import DiffCar.Lib.Ring
import DiffCar.SerialDma
import DiffCar.SerialStream
import DiffCar.SerialIndices
import DiffCar.Lib.Segments
import DiffCar.Mem
import DiffCar.MemBlocks
import DiffCar.Malloc
import DiffCar.HeapRuns
import DiffCar.PacketHeap
