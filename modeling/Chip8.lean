import Chip8.Assembly.Basic
import Chip8.Assembly.Reader
import Chip8.CallStack
import Chip8.Command.Basic
import Chip8.Command.Report
import Chip8.Command.Settings
import Chip8.Config.Basic
import Chip8.Config.Settings
import Chip8.Dialect
import Chip8.Error
import Chip8.Glyphs
import Chip8.Instruction.Basic
import Chip8.Instruction.Describe
import Chip8.Instruction.Lemmas
import Chip8.Json.Value
import Chip8.Keypad
import Chip8.Limits
import Chip8.Listing
import Chip8.Machine.Basic
import Chip8.Machine.Execute
import Chip8.Main
import Chip8.Memory
import Chip8.Pace
import Chip8.Random.Keystream
import Chip8.Registers
import Chip8.Screen
import Chip8.Sprite
import Chip8.Text.Blank
import Chip8.Text.Hex
import Chip8.Text.Trace
import Chip8.Timers
import Chip8.Vm.Basic
import Chip8.Vm.Event
import Chip8.Vm.Operation
import Chip8.Vm.Text
import Chip8.Word
import Chip8.Proofs.Instruction.Pattern
import Chip8.Proofs.Machine.Step
import Chip8.Proofs.Machine.Boot
import Chip8.Proofs.Machine.Fresh
import Chip8.Proofs.Config.Check
import Chip8.Proofs.Vm.Invariant
import Chip8.Proofs.Vm.Load
import Chip8.Proofs.Vm.Reload
import Chip8.Proofs.Vm.Requirement
import Chip8.Proofs.Vm.Fits
import Chip8.Proofs.Checked.Arithmetic
import Chip8.Proofs.Checked.Parts
import Chip8.Proofs.Checked.Drawing
import Chip8.Proofs.Checked.Execute
import Chip8.Proofs.Checked.Loading
import Chip8.Proofs.Checked.Operation
import Chip8.Proofs.Vm.Trap
import Chip8.Proofs.Pace.Fraction
import Chip8.Proofs.Pace.Frame
import Chip8.Proofs.Memory.Block
import Chip8.Proofs.Screen.Lit
import Chip8.Proofs.Pace.Blinker
import Chip8.Proofs.Pace.Report
import Chip8.Proofs.Vm.Fault
import Chip8.Proofs.Vm.Nesting
import Chip8.Proofs.Text.Lines
import Chip8.Proofs.Listing.Lines
import Chip8.Proofs.Listing.Lossless
import Chip8.Proofs.Listing.Trace
import Chip8.Proofs.Machine.Congruence
import Chip8.Proofs.Vm.Congruence
import Chip8.Proofs.Screen.Parity
import Chip8.Proofs.Vm.Drawing
import Chip8.Proofs.Machine.Frame
import Chip8.Proofs.Machine.Timers
import Chip8.Proofs.Vm.Effect
import Chip8.Proofs.Vm.Advance
import Chip8.Proofs.Vm.Mark
import Chip8.Proofs.Vm.Timers
import Chip8.Proofs.Keypad.Events
import Chip8.Proofs.Vm.Keys
import Chip8.Proofs.Vm.Random
import Chip8.Proofs.Vm.Simulation
import Chip8.Proofs.Vm.Hearing
import Chip8.Proofs.Machine.Dialect
import Chip8.Proofs.Vm.Dialect
import Chip8.Proofs.Machine.Hint
import Chip8.Proofs.Vm.Hint
import Chip8.Proofs.Pace.Sign
import Chip8.Proofs.Vm.Budget
import Chip8.Proofs.Screen.Collision
import Chip8.Proofs.Vm.Collision
import Chip8.Proofs.Vm.Arithmetic
import Chip8.Proofs.Machine.Storage
import Chip8.Proofs.Vm.Storage
import Chip8.Proofs.Vm.Transfer
import Chip8.Proofs.Vm.Waiting
import Chip8.Proofs.Vm.Glyph
import Chip8.Proofs.Command.Run
import Chip8.Proofs.History
import Chip8.Proofs.Memory.History
import Chip8.Proofs.CallStack.Slots
import Chip8.Proofs.Screen.Text
import Chip8.Proofs.Vm.Words
