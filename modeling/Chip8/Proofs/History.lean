import Mathlib.Data.List.Basic

/-! Histories. Where every event writes to a place or leaves it alone, the place shows in the end
what was written to it last. -/

namespace Chip8

theorem view_foldl {σ ε α : Type} {step : σ → ε → σ} {f : σ → α} {written? : ε → Option α}
    {P : σ → Prop} {events : List ε} {s : σ} (hs : P s)
    (hstep : ∀ s, P s → ∀ e ∈ events,
      P (step s e) ∧ f (step s e) = (written? e).getD (f s)) :
    f (events.foldl step s) = ((events.filterMap written?).getLast?).getD (f s) := by
  induction events generalizing s with
  | nil => rfl
  | cons e rest ih =>
    obtain ⟨hnext, hwritten⟩ := hstep s hs e List.mem_cons_self
    have hlast := ih hnext fun s hs e he => hstep s hs e (List.mem_cons_of_mem _ he)
    rw [List.foldl_cons, hlast, hwritten]
    cases he : written? e with
    | none => rw [List.filterMap_cons_none he]; rfl
    | some value => rw [List.filterMap_cons_some he, List.getLast?_cons]; rfl

end Chip8
