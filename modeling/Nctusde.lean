import Nctusde.EmulatorKernel.Atomicity
import Nctusde.EmulatorKernel.Buffers
import Nctusde.EmulatorKernel.Builds
import Nctusde.EmulatorKernel.Codec
import Nctusde.EmulatorKernel.Pausing
import Nctusde.EmulatorKernel.Progress
import Nctusde.EmulatorKernel.Response
import Nctusde.EmulatorKernel.Sectors
import Nctusde.EmulatorKernel.Skbs
import Nctusde.EmulatorKernel.UdpFrames
import Nctusde.EmulatorKernel.Unload
import Nctusde.FtraceProcessing.Footprint
import Nctusde.Locking
import Nctusde.ModuleExit
import Nctusde.Network.Reordering
import Nctusde.Network.Resending
import Nctusde.Ramdisk.EndOfDevice
import Nctusde.Ramdisk.Rates
import Nctusde.Ramdisk.Response
import Nctusde.Ramdisk.Sectors
import Nctusde.Ramdisk.Sequential
import Nctusde.Ramdisk.Unload
import Nctusde.Ramdisk.Wakeup
import Nctusde.UdpServer.Admission
import Nctusde.UdpServer.Answers
import Nctusde.UdpServer.Draining
import Nctusde.UdpServer.Reset
import Nctusde.UdpServer.Schedule
import Nctusde.UdpServer.SizeClass
import Nctusde.UdpServer.Storage
