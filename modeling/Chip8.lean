import Chip8.Burst
import Chip8.ByteStream
import Chip8.CallStack
import Chip8.CommandLine
import Chip8.Dialect
import Chip8.Execution
import Chip8.Fault
import Chip8.Hex
import Chip8.Instruction
import Chip8.Keyboard
import Chip8.Machine
import Chip8.Main
import Chip8.Memory
import Chip8.Metronome
import Chip8.Notice
import Chip8.Operation
import Chip8.Proofs.Bursts
import Chip8.Proofs.Faults
import Chip8.Proofs.InstructionForms
import Chip8.Proofs.Quitting
import Chip8.Proofs.Reachability
import Chip8.Proofs.StackDiscipline
import Chip8.Proofs.Storage
import Chip8.Proofs.StorageExecution
import Chip8.Proofs.StorageInstructions
import Chip8.Proofs.StorageRuns
import Chip8.Raster
import Chip8.RasterViews
import Chip8.Report
import Chip8.Rom
import Chip8.Script
import Chip8.Session
import Chip8.Word
import Chip8.Proofs.BurstTime
import Chip8.Proofs.Iterations
import Chip8.Proofs.KeyWait
import Chip8.Proofs.Timekeeping
import Chip8.Proofs.Backlog
import Chip8.Proofs.PowerOn
import Chip8.Proofs.Replay
import Chip8.Proofs.AutoRepeat
import Chip8.Proofs.PausedTime
import Chip8.Proofs.TwelveBits
import Chip8.Proofs.Footprint
import Chip8.Proofs.Dialects
import Chip8.Proofs.RandomBytes
import Chip8.Proofs.SpriteCoverage
import Chip8.Proofs.BurstOutcome
import Chip8.Proofs.DrawingOutage
import Chip8.Proofs.HeldKeys
import Chip8.Proofs.IntegerArithmetic
import Chip8.Proofs.ControlFlow
import Chip8.Proofs.Interleaving
import Chip8.Proofs.SpriteDrawing
import Chip8.Proofs.DrawingOrder
import Chip8.Proofs.SavedRegisters
import Chip8.Proofs.BytesRead
import Chip8.Proofs.PictureViews
import Chip8.Proofs.Alignment
import Chip8.Proofs.BeatRate
