import Chip8.Text.Hex

/-! The lines of a text in which every line is ended, the last one too. -/

namespace Chip8

def OneLine (s : String) : Prop := '\n' ∉ s.toList

def textLines (s : String) : List String := (s.toList.splitOn '\n').dropLast.map String.ofList

namespace OneLine

theorem append_iff {s t : String} : OneLine (s ++ t) ↔ OneLine s ∧ OneLine t := by
  simp [OneLine]

theorem join {ls : List String} (h : ∀ l ∈ ls, OneLine l) : OneLine (String.join ls) := by
  simpa [OneLine] using h

theorem intercalate {sep : String} {ls : List String} (hsep : OneLine sep)
    (h : ∀ l ∈ ls, OneLine l) : OneLine (sep.intercalate ls) := by
  rw [OneLine, String.toList_intercalate]
  induction ls with
  | nil => exact List.not_mem_nil
  | cons l ls ih =>
    have hl : '\n' ∉ l.toList := h l List.mem_cons_self
    cases ls with
    | nil => simpa using hl
    | cons k ks =>
      have hks := ih fun x hx => h x (List.mem_cons_of_mem l hx)
      rw [List.map_cons, List.map_cons, List.intercalate_cons_cons]
      simpa [hl, show '\n' ∉ sep.toList from hsep] using hks

theorem blanks (n : Nat) : OneLine (String.ofList (List.replicate n ' ')) := by
  simp [OneLine]

theorem padded (least n : Nat) : OneLine (Hex.padded least n) := by
  rw [OneLine, Hex.padded, String.toList_ofList]
  exact Hex.not_mem_lastDigits (by decide) _ n

end OneLine

theorem intercalate_concat_nil {α : Type} (sep : α) (ls : List (List α)) :
    [sep].intercalate (ls ++ [[]]) = ls.flatMap (· ++ [sep]) := by
  induction ls with
  | nil => rfl
  | cons l ls ih =>
    rw [List.cons_append, List.flatMap_cons, ← ih]
    cases ls with
    | nil => simp
    | cons k ks => simp

theorem textLines_join {ls : List String} (h : ∀ l ∈ ls, OneLine l) :
    textLines (String.join (ls.map (· ++ "\n"))) = ls := by
  have htext : (String.join (ls.map (· ++ "\n"))).toList =
      ['\n'].intercalate (ls.map String.toList ++ [[]]) := by
    simp [intercalate_concat_nil, List.flatMap_map]
  have hsplit : (['\n'].intercalate (ls.map String.toList ++ [[]])).splitOn '\n' =
      ls.map String.toList ++ [[]] := by
    refine List.splitOn_intercalate '\n' ?_ (by simp)
    intro cs hcs
    rcases List.mem_append.1 hcs with hcs | hcs
    · obtain ⟨l, hl, rfl⟩ := List.mem_map.1 hcs
      exact h l hl
    · cases List.mem_singleton.1 hcs
      exact List.not_mem_nil
  rw [textLines, htext, hsplit, List.dropLast_concat, List.map_map]
  exact (List.map_congr_left fun l _ => String.ofList_toList).trans (List.map_id ls)

end Chip8
