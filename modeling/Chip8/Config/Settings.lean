import Chip8.Config.Basic
import Chip8.Json.Value
import Chip8.Keypad

/-! Settings: configurations and keys written as JSON. Fields that are not there take their
defaults, and fields that nobody asks for are passed over; one that is asked for stands there once.
Of several bad fields the one with the least name is reported. -/

namespace Chip8

inductive SettingError where
  -- it is of the wrong kind
  | kind
  -- a field of it stands there more than once
  | repeated (field : String)
  | font (cause : ConfigError)
  | key (cause : KeyError)
  deriving DecidableEq, Repr

def SettingError.message? : SettingError → Option String
  | kind | repeated _ => none
  | font cause => some (Error.config cause).message
  | key cause => some cause.message

namespace Setting

def natural (j : Json) : Except SettingError Nat :=
  match j.natural? with
  | some n => .ok n
  | none => .error .kind

def word64 (j : Json) : Except SettingError UInt64 := (natural j).map UInt64.ofNat

def bool : Json → Except SettingError Bool
  | .bool b => .ok b
  | _ => .error .kind

def font : Json → Except SettingError Font
  | .string s => (Font.parse s).mapError .font
  | _ => .error .kind

/-- A number past a byte is of the wrong kind; one past the last key is a bad key. -/
def key (j : Json) : Except SettingError Key := do
  let n ← natural j
  if n < 256 then (Key.ofNat? n).mapError .key else .error .kind

def keys : Json → Except SettingError (List Key)
  | .array items => items.mapM key
  | _ => .error .kind

def field {α : Type} (j : Json) (name : String) (default : α) (read : Json → Except SettingError α) :
    Except SettingError α :=
  match j.values name with
  | [] => .ok default
  | [value] => read value
  | _ => .error (.repeated name)

def object : Json → Except SettingError Unit
  | .object _ => .ok ()
  | _ => .error .kind

end Setting

open Setting in
def Dialect.ofJson (j : Json) : Except SettingError Dialect := do
  object j
  let indexFlagsOverflow ← field j "index_overflow_sets_vf" false bool
  let jumpAddsX ← field j "jump_offset_uses_vx" false bool
  let blockMovesIndex ← field j "load_store_increments_index" false bool
  let shiftReadsY ← field j "shift_uses_vy" false bool
  return ⟨shiftReadsY, jumpAddsX, blockMovesIndex, indexFlagsOverflow⟩

def Setting.seed : Json → Except SettingError (Option UInt64)
  | .null => .ok none
  | j => (word64 j).map some

open Setting in
def Config.ofJson (j : Json) : Except SettingError Config := do
  object j
  let standard : Config := {}
  let hertz ← field j "clock_frequency" standard.frequency.hertz word64
  let screenHeight ← field j "display_height" standard.screenHeight natural
  let screenWidth ← field j "display_width" standard.screenWidth natural
  let font ← field j "font" standard.font Setting.font
  let fontStart ← field j "font_start" standard.fontStart natural
  let memorySize ← field j "memory_size" standard.memorySize natural
  let programStart ← field j "program_start" standard.programStart natural
  let dialect ← field j "quirks" standard.dialect Dialect.ofJson
  let seed ← field j "rng_seed" standard.seed Setting.seed
  let stackSize ← field j "stack_size" standard.stackSize natural
  return ⟨memorySize, programStart, fontStart, stackSize, screenWidth, screenHeight, ⟨hertz⟩, font,
    dialect, seed⟩

end Chip8
