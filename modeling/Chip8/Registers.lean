import Chip8.Word

/-! The register file: sixteen byte registers `V0` to `VF` and the address register `I`. -/

namespace Chip8

structure Registers where
  v : Vector Byte 16 := Vector.replicate 16 0
  index : Word := 0
  deriving DecidableEq, Repr

namespace Registers

def get (r : Registers) (x : Digit) : Byte := r.v[x]

def set (r : Registers) (x : Digit) (value : Byte) : Registers :=
  { r with v := r.v.set x value }

def setIndex (r : Registers) (a : Word) : Registers := { r with index := a }

def flag : Digit := 0xF

def setFlag (r : Registers) (on : Bool) : Registers := r.set flag (if on then 1 else 0)

/-- The result first and the flag last, so that the flag survives in `VF`. -/
def setWithFlag (r : Registers) (x : Digit) (value : Byte) (on : Bool) : Registers :=
  (r.set x value).setFlag on

def upTo (r : Registers) (x : Digit) : List Byte := r.v.toList.take (x.val + 1)

def setBlock (r : Registers) (bytes : List Byte) : Registers :=
  { r with v := Vector.ofFn fun k => bytes.getD k.val (r.get k) }

theorem get_set (r : Registers) (x y : Digit) (value : Byte) :
    (r.set x value).get y = if x = y then value else r.get y := by
  simp [get, set, Vector.getElem_set, Fin.ext_iff]

theorem length_upTo (r : Registers) (x : Digit) : (r.upTo x).length = x.val + 1 := by
  have hx := x.isLt
  simp only [upTo, List.length_take, Vector.length_toList]
  omega

theorem getElem_upTo (r : Registers) {x k : Digit} (h : k.val < (r.upTo x).length) :
    (r.upTo x)[k.val] = r.get k := by
  simp [upTo, get]

theorem get_setBlock (r : Registers) (bytes : List Byte) (x : Digit) :
    (r.setBlock bytes).get x = bytes.getD x.val (r.get x) := by
  simp [get, setBlock]

theorem ext_get {r s : Registers} (hindex : r.index = s.index) (h : ∀ x, r.get x = s.get x) :
    r = s := by
  obtain ⟨v, index⟩ := r
  obtain ⟨v', index'⟩ := s
  cases hindex
  have hv : v = v' := Vector.ext fun k hk => h ⟨k, hk⟩
  rw [hv]

theorem set_set (r : Registers) (x : Digit) (a b : Byte) : (r.set x a).set x b = r.set x b := by
  refine ext_get rfl fun k => ?_
  simp only [get_set]
  split <;> rfl

theorem set_get (r : Registers) (x : Digit) : r.set x (r.get x) = r := by
  refine ext_get rfl fun k => ?_
  rw [get_set]
  split
  · rename_i h
    rw [h]
  · rfl

end Registers

end Chip8
