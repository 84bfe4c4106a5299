import SeccampRiscvCpu.FwtoolService
import SeccampRiscvCpu.FwtoolClient
import SeccampRiscvCpu.FwtoolFrameLimits
import SeccampRiscvCpu.FwtoolResync
import SeccampRiscvCpu.FwtoolAnswers
import SeccampRiscvCpu.FwtoolBootrom
import SeccampRiscvCpu.FwtoolLink
import SeccampRiscvCpu.ProbeCapture
import SeccampRiscvCpu.ProbeFrameCodec
import SeccampRiscvCpu.ProbeTrigger
import SeccampRiscvCpu.UartLink
import SeccampRiscvCpu.DviEncoder
import SeccampRiscvCpu.VideoPixels
import SeccampRiscvCpu.MemoryPorts
import SeccampRiscvCpu.VramPort
import SeccampRiscvCpu.GpioPorts
import SeccampRiscvCpu.CoreInterrupts
import SeccampRiscvCpu.CoreEnvironmentCall
import SeccampRiscvCpu.CoreStatusWords
import SeccampRiscvCpu.ProbeRows
import SeccampRiscvCpu.ProbeSerial
import SeccampRiscvCpu.VideoFrames
import SeccampRiscvCpu.SegmentChains
import SeccampRiscvCpu.LedMatrix
import SeccampRiscvCpu.StepperPulses
import SeccampRiscvCpu.UartServer
import SeccampRiscvCpu.TopSystem
import SeccampRiscvCpu.HdmiPicture
import SeccampRiscvCpu.BoxRounds
import SeccampRiscvCpu.StepperBootrom
import SeccampRiscvCpu.StepperMotor
