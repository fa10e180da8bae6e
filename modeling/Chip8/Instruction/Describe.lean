import Chip8.Assembly.Basic

/-! Sentences on what the instructions do. -/

namespace Chip8

def Alu.describe (op : Alu) (x y : Digit) : String :=
  let vx := registerText x
  let vy := registerText y
  match op with
  | copy => s!"set {vx} to {vy}"
  | or => s!"set {vx} to {vx} | {vy}"
  | and => s!"set {vx} to {vx} & {vy}"
  | xor => s!"set {vx} to {vx} ^ {vy}"
  | add => s!"set {vx} to {vx} + {vy}, VF = 1 on carry"
  | sub => s!"set {vx} to {vx} - {vy}, VF = 1 if {vx} >= {vy}"
  | shiftRight => s!"shift {vx} right by 1, VF = bit shifted out"
  | subFrom => s!"set {vx} to {vy} - {vx}, VF = 1 if {vy} >= {vx}"
  | shiftLeft => s!"shift {vx} left by 1, VF = bit shifted out"

def Condition.describe : Condition → String
  | equalsByte x byte => s!"{registerText x} == {byteText byte}"
  | differsByte x byte => s!"{registerText x} != {byteText byte}"
  | equals x y => s!"{registerText x} == {registerText y}"
  | differs x y => s!"{registerText x} != {registerText y}"
  | keyDown x => s!"key {registerText x} is pressed"
  | keyUp x => s!"key {registerText x} is not pressed"

def Instruction.describe : Instruction → String
  | clearScreen => "clear the screen"
  | ret => "return from subroutine"
  | jump target => s!"jump to {addressText target}"
  | call target => s!"call subroutine at {addressText target}"
  | skip condition => s!"skip next instruction if {condition.describe}"
  | loadByte x byte => s!"set {registerText x} to {byteText byte}"
  | addByte x byte => s!"set {registerText x} to {registerText x} + {byteText byte}"
  | alu op x y => op.describe x y
  | loadIndex target => s!"set I to {addressText target}"
  | jumpOffset base => s!"jump to {addressText base} plus offset register"
  | random x mask => s!"set {registerText x} to a random byte & {byteText mask}"
  | draw x y rows =>
    s!"draw {rows.val} byte sprite from I at ({registerText x}, {registerText y}), VF = 1 on collision"
  | readDelay x => s!"set {registerText x} to the delay timer"
  | waitKey x => s!"wait for a key press and store it in {registerText x}"
  | setDelay x => s!"set the delay timer to {registerText x}"
  | setSound x => s!"set the sound timer to {registerText x}"
  | addIndex x => s!"set I to I + {registerText x}"
  | loadGlyph x => s!"set I to the font glyph for digit {registerText x}"
  | storeDecimal x => s!"store decimal digits of {registerText x} at I, I+1 and I+2"
  | storeBlock x => s!"store V0 through {registerText x} in memory starting at I"
  | loadBlock x => s!"load V0 through {registerText x} from memory starting at I"

end Chip8
