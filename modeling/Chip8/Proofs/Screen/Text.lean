import Chip8.Proofs.History
import Chip8.Proofs.Screen.Parity
import Chip8.Proofs.Text.Lines

/-! The text of a screen is a picture of it: a line for each row, a character for each column. The
pixels lie in one row after the other, so the picture read line by line is the array of pixels, and
to set a pixel changes one character. -/

namespace Chip8

inductive ScreenChange where
  | set (x y : Nat) (on : Bool)
  | clear
  | mark
  | unmark
  deriving DecidableEq, Repr

namespace ScreenChange

def apply (s : Screen) : ScreenChange → Screen
  | set x y on => s.set x y on
  | clear => s.clear
  | mark => s.mark
  | unmark => s.unmark

def Within (width height : Nat) : ScreenChange → Prop
  | set x y _ => x < width ∧ y < height
  | _ => True

def written? (x y : Nat) : ScreenChange → Option Bool
  | set a b on => if a = x ∧ b = y then some on else none
  | clear => some false
  | mark | unmark => none

def lastWritten? (x y : Nat) (changes : List ScreenChange) : Option Bool :=
  (changes.filterMap (written? x y)).getLast?

end ScreenChange

def charAt? (text : String) (x y : Nat) : Option Char :=
  (textLines text)[y]?.bind fun line => line.toList[x]?

def picturedPixels (text : String) : List Bool :=
  (textLines text).flatMap fun line => line.toList.map (· == '#')

theorem flatMap_range_rows {α : Type} (f : Nat → α) (width height : Nat) :
    ((List.range height).flatMap fun y => (List.range width).map fun x => f (x + y * width)) =
      (List.range (width * height)).map f := by
  induction height with
  | zero => rfl
  | succ height ih =>
    rw [List.range_succ, List.flatMap_append, ih, Nat.mul_succ, List.range_add, List.map_append,
      List.flatMap_singleton, List.map_map]
    refine congrArg _ (List.map_congr_left fun x _ => ?_)
    rw [Function.comp_apply, Nat.add_comm, Nat.mul_comm]

namespace Screen

variable {s t : Screen}

def after (s : Screen) (changes : List ScreenChange) : Screen := changes.foldl ScreenChange.apply s

theorem toList_pixels (s : Screen) :
    s.pixels.toList = (List.range (s.width * s.height)).map fun i => s.pixels.getD i false := by
  rw [← s.size_pixels]
  refine List.ext_getElem (by simp) fun i hi _ => ?_
  have hi : i < s.pixels.size := hi
  simp [hi]

theorem flatMap_lit (s : Screen) :
    ((List.range s.height).flatMap fun y => (List.range s.width).map fun x => s.lit x y) =
      s.pixels.toList := by
  rw [toList_pixels]
  exact flatMap_range_rows (fun i => s.pixels.getD i false) s.width s.height

theorem toList_rowText (s : Screen) (y : Nat) :
    (s.rowText y).toList = (List.range s.width).map fun x => if s.lit x y then '#' else '.' :=
  String.toList_ofList

theorem mem_rowText {y : Nat} {c : Char} (h : c ∈ (s.rowText y).toList) : c = '#' ∨ c = '.' := by
  rw [toList_rowText] at h
  obtain ⟨x, -, rfl⟩ := List.mem_map.1 h
  cases s.lit x y
  · exact .inr rfl
  · exact .inl rfl

theorem length_rowText (s : Screen) (y : Nat) : (s.rowText y).length = s.width := by
  rw [← String.length_toList, toList_rowText, List.length_map, List.length_range]

theorem oneLine_rowText (s : Screen) (y : Nat) : OneLine (s.rowText y) :=
  fun h => by rcases mem_rowText h with h | h <;> cases h

theorem text_eq_join (s : Screen) :
    s.text = String.join (((List.range s.height).map s.rowText).map (· ++ "\n")) := by
  rw [text, List.map_map]
  rfl

theorem textLines_text (s : Screen) : textLines s.text = (List.range s.height).map s.rowText := by
  rw [text_eq_join, textLines_join]
  intro l hl
  obtain ⟨y, -, rfl⟩ := List.mem_map.1 hl
  exact s.oneLine_rowText y

theorem charAt?_text (s : Screen) (x y : Nat) :
    charAt? s.text x y =
      if x < s.width ∧ y < s.height then some (if s.lit x y then '#' else '.') else none := by
  rw [charAt?, textLines_text, List.getElem?_map]
  by_cases hy : y < s.height
  · rw [List.getElem?_range hy, Option.map_some, Option.bind_some, toList_rowText,
      List.getElem?_map]
    by_cases hx : x < s.width
    · rw [List.getElem?_range hx, if_pos ⟨hx, hy⟩]
      rfl
    · rw [List.getElem?_eq_none (by simpa using hx), if_neg fun h => hx h.1]
      rfl
  · rw [List.getElem?_eq_none (by simpa using hy), if_neg fun h => hy h.2]
    rfl

theorem picturedPixels_text (s : Screen) : picturedPixels s.text = s.pixels.toList := by
  rw [picturedPixels, textLines_text, List.flatMap_map, ← flatMap_lit]
  refine List.flatMap_congr fun y _ => ?_
  rw [toList_rowText, List.map_map]
  refine List.map_congr_left fun x _ => ?_
  rw [Function.comp_apply]
  cases s.lit x y <;> rfl

theorem lit_set_of_lt {x y a b : Nat} (hx : x < s.width) (hy : y < s.height) (ha : a < s.width)
    (on : Bool) : (s.set x y on).lit a b = if x = a ∧ y = b then on else s.lit a b := by
  rw [lit_set (place_lt hx hy)]
  by_cases h : x = a ∧ y = b
  · obtain ⟨rfl, rfl⟩ := h
    rw [if_pos rfl, if_pos ⟨rfl, rfl⟩]
  · rw [if_neg h, if_neg fun hplace => h (place_inj hx ha hplace)]

theorem charAt?_text_set {x y : Nat} (hx : x < s.width) (hy : y < s.height) (on : Bool)
    (a b : Nat) :
    charAt? (s.set x y on).text a b =
      if x = a ∧ y = b then some (if on then '#' else '.') else charAt? s.text a b := by
  rw [charAt?_text, charAt?_text]
  change (if a < s.width ∧ b < s.height then _ else none) = _
  by_cases hin : a < s.width ∧ b < s.height
  · rw [if_pos hin, if_pos hin, lit_set_of_lt hx hy hin.1]
    by_cases hsame : x = a ∧ y = b
    · rw [if_pos hsame, if_pos hsame]
    · rw [if_neg hsame, if_neg hsame]
  · have hother : ¬(x = a ∧ y = b) := by
      rintro ⟨rfl, rfl⟩
      exact hin ⟨hx, hy⟩
    rw [if_neg hin, if_neg hin, if_neg hother]

theorem lit_apply {x y : Nat} {change : ScreenChange} (hx : x < s.width)
    (hchange : change.Within s.width s.height) :
    (change.apply s).lit x y = (change.written? x y).getD (s.lit x y) := by
  cases change with
  | set a b on =>
    rw [ScreenChange.apply, lit_set_of_lt hchange.1 hchange.2 hx, ScreenChange.written?]
    split <;> rfl
  | clear => exact lit_of_dark rfl x y
  | mark => rfl
  | unmark => rfl

theorem size_apply (s : Screen) (change : ScreenChange) :
    (change.apply s).width = s.width ∧ (change.apply s).height = s.height := by
  cases change <;> exact ⟨rfl, rfl⟩

theorem size_after (s : Screen) (changes : List ScreenChange) :
    (s.after changes).width = s.width ∧ (s.after changes).height = s.height := by
  refine List.foldlRecOn changes ScreenChange.apply
    (motive := fun t => width t = s.width ∧ height t = s.height) ⟨rfl, rfl⟩ ?_
  rintro t ⟨hwidth, hheight⟩ change -
  have ⟨hw, hh⟩ := t.size_apply change
  exact ⟨hw.trans hwidth, hh.trans hheight⟩

theorem lit_after {changes : List ScreenChange}
    (hwithin : ∀ change ∈ changes, change.Within s.width s.height) {x : Nat} (hx : x < s.width)
    (y : Nat) :
    (s.after changes).lit x y = (ScreenChange.lastWritten? x y changes).getD (s.lit x y) := by
  refine view_foldl (P := fun t => width t = s.width ∧ height t = s.height)
    (f := fun t => lit t x y) ⟨rfl, rfl⟩ ?_
  rintro t ⟨hwidth, hheight⟩ change hchange
  have ⟨hw, hh⟩ := t.size_apply change
  refine ⟨⟨hw.trans hwidth, hh.trans hheight⟩, lit_apply (hwidth ▸ hx) ?_⟩
  rw [hwidth, hheight]
  exact hwithin change hchange

/-- Whatever was done to a screen, its text has a line for each row and a character for each column,
`#` where the pixel was set last to be lit and `.` elsewhere. To set a pixel changes its character
and no other. Read line by line the text gives the pixels back, so screens of one size with the same
text have the same pixels. -/
theorem text_pictures_pixels {width height : Nat} {changes : List ScreenChange}
    (hwithin : ∀ change ∈ changes, change.Within width height) :
    let s := (dark width height).after changes
    let lines := textLines s.text
    (s.text = String.join (lines.map (· ++ "\n")) ∧ lines.length = height ∧
        ∀ line ∈ lines, line.length = width ∧ ∀ c ∈ line.toList, c = '#' ∨ c = '.') ∧
      (∀ x < width, ∀ y < height,
        charAt? s.text x y = some (if s.lit x y then '#' else '.') ∧
          s.lit x y = (ScreenChange.lastWritten? x y changes).getD false) ∧
      (∀ x < width, ∀ y < height, ∀ on a b, charAt? (s.set x y on).text a b =
        if x = a ∧ y = b then some (if on then '#' else '.') else charAt? s.text a b) ∧
      picturedPixels s.text = s.pixels.toList ∧
      ∀ t : Screen, t.width = width → t.height = height → t.text = s.text →
        t.pixels = s.pixels := by
  intro s lines
  obtain ⟨hwidth, hheight⟩ : s.width = width ∧ s.height = height :=
    (dark width height).size_after changes
  have hlines : lines = (List.range height).map s.rowText := by
    rw [← hheight]
    exact s.textLines_text
  refine ⟨⟨?_, ?_, fun line hline => ?_⟩, fun x hx y hy => ⟨?_, ?_⟩, fun x hx y hy on a b => ?_,
    s.picturedPixels_text, fun t _ _ htext => ?_⟩
  · rw [hlines, ← hheight]
    exact s.text_eq_join
  · rw [hlines, List.length_map, List.length_range]
  · rw [hlines] at hline
    obtain ⟨y, -, rfl⟩ := List.mem_map.1 hline
    exact ⟨(s.length_rowText y).trans hwidth, fun c => mem_rowText⟩
  · rw [charAt?_text, hwidth, hheight, if_pos ⟨hx, hy⟩]
  · rw [← lit_of_dark (s := dark width height) rfl x y]
    exact lit_after hwithin hx y
  · exact charAt?_text_set (hwidth ▸ hx) (hheight ▸ hy) on a b
  · refine Array.toList_inj.1 ?_
    rw [← picturedPixels_text, htext, picturedPixels_text]

theorem text_pictures_pixels_of_corners :
    let changes : List ScreenChange :=
      [.set 1 1 true, .clear, .set 0 0 true, .set 3 1 true, .set 2 0 true, .unmark, .set 2 0 false]
    let text := ((dark 4 2).after changes).text
    (∀ change ∈ changes, change.Within 4 2) ∧ (textLines text).length = 2 ∧
      charAt? text 0 0 = some '#' ∧ charAt? text 2 0 = some '.' ∧ charAt? text 1 1 = some '.' ∧
      charAt? text 3 1 = some '#' := by
  intro changes text
  have hwithin : ∀ change ∈ changes, change.Within 4 2 := by
    simp [changes, ScreenChange.Within]
  obtain ⟨⟨-, hlines, -⟩, hpixels, -⟩ := text_pictures_pixels hwithin
  have hchar (x : Nat) (hx : x < 4) (y : Nat) (hy : y < 2) : charAt? text x y =
      some (if (ScreenChange.lastWritten? x y changes).getD false then '#' else '.') := by
    obtain ⟨hchar, hlit⟩ := hpixels x hx y hy
    rw [hchar, hlit]
  exact ⟨hwithin, hlines, hchar 0 (by decide) 0 (by decide), hchar 2 (by decide) 0 (by decide),
    hchar 1 (by decide) 1 (by decide), hchar 3 (by decide) 1 (by decide)⟩

end Screen

end Chip8
