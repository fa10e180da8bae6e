import Chip8.Config.Settings

/-! The settings of a run: how many frames, at what pace, with which keys, on which machine. The
commands take them from a text, and what reads texts is given to them. -/

namespace Chip8

structure RunSettings where
  frames : Nat := 600
  /-- Whether frames follow each other at once, instead of in real time. -/
  unthrottled : Bool := false
  keys : List Key := []
  machine : Config := {}
  deriving DecidableEq, Repr

namespace RunSettings

open Setting in
def ofJson (j : Json) : Except SettingError RunSettings := do
  object j
  let standard : RunSettings := {}
  let frames ← field j "frames" standard.frames natural
  let keys ← field j "keys" standard.keys Setting.keys
  let machine ← field j "machine" standard.machine Config.ofJson
  let unthrottled ← field j "unthrottled" standard.unthrottled bool
  return ⟨frames, unthrottled, keys, machine⟩

def frameMilliseconds (s : RunSettings) : Float :=
  if s.unthrottled then Frequency.frameMilliseconds else Frequency.frames.waitMilliseconds

end RunSettings

/-- A text that holds no settings is refused in the reader's own words. -/
abbrev SettingsReader := String → Except String RunSettings

end Chip8
