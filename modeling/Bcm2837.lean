import Bcm2837.BlockPlacement
import Bcm2837.Boot
import Bcm2837.BoundedTransfers
import Bcm2837.BringupConsole
import Bcm2837.BringupTimer
import Bcm2837.ClockFields
import Bcm2837.ClockPassword
import Bcm2837.ConsolePreemption
import Bcm2837.ControlFields
import Bcm2837.Cores
import Bcm2837.DispatchOrder
import Bcm2837.FormatOutput
import Bcm2837.GpioEvents
import Bcm2837.GpioPads
import Bcm2837.GpioPins
import Bcm2837.HandlerBounds
import Bcm2837.HandlerTable
import Bcm2837.Handles
import Bcm2837.IdentityMap
import Bcm2837.IdleInterrupt
import Bcm2837.Instances
import Bcm2837.Integrity
import Bcm2837.InterruptEnables
import Bcm2837.InterruptLines
import Bcm2837.Lengths
import Bcm2837.Memmove
import Bcm2837.MemoryFunctions
import Bcm2837.PeriphBase
import Bcm2837.PolledRead
import Bcm2837.Printf
import Bcm2837.Refinement
import Bcm2837.ShortWrites
import Bcm2837.StartPreemption
import Bcm2837.Uart
import Bcm2837.VectorTable
import Bcm2837.Vectors
import Bcm2837.Watchdog
