import Mos6502.InterruptTransparency
import Mos6502.LinearDisassembly
import Mos6502.CmosNops
import Mos6502.VariantLockstep
import Mos6502.BusTrace
import Mos6502.Arbitration
import Mos6502.InterruptMasking
import Mos6502.NmiDelivery
import Mos6502.RunKlaus
import Mos6502.SumProgram
import Mos6502.Benchmark
import Mos6502.JammedProcessor
import Mos6502.ResetHistory
import Mos6502.StepFrame
import Mos6502.HookEvents
import Mos6502.Tracing
import Mos6502.MultiByteArithmetic
import Mos6502.MultiByteComparison
import Mos6502.MultiByteShifts
import Mos6502.FusedInstructions
import Mos6502.OperandText
import Mos6502.ImageLoading
import Mos6502.Replay
import Mos6502.MaskedIrq
import Mos6502.HeldIrq
import Mos6502.Listing
import Mos6502.TraceLog
import Mos6502.Processor
import Mos6502.OneListing
import Mos6502.Harness.CaseIsolation
import Mos6502.Harness.RoundTrip
import Mos6502.Harness.AcceptedTexts
import Mos6502.Harness.Suite
