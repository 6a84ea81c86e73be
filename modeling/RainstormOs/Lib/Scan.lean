import Mathlib.Data.List.Basic

/-!
# Scanning by longest match

A scanner takes items from the front of its input for as long as its step accepts them, and stops in
front of the first one it does not. The input has to go on after that: a scanner that comes to the
end of what it was given has no result, as a C loop over a pointer has none.

What a scan has read is the unique prefix that is accepted and after which the next item is not.
-/

namespace Scan

variable {α β : Type}

/-- Folding the accepted items into `acc`; the result is the value and the input it stops at. -/
def foldWhile (step : β → α → Option β) : List α → β → Option (β × List α)
  | [], _ => none
  | x :: xs, acc =>
      match step acc x with
      | some acc => foldWhile step xs acc
      | none => some (acc, x :: xs)

/-- A scan that accepts by a test on the item alone. -/
def accept (p : α → Bool) (f : β → α → β) (acc : β) (x : α) : Option β :=
  if p x then some (f acc x) else none

/-- `rest` goes on, with an item that `p` refuses. -/
def StopsAt (p : α → Bool) (rest : List α) : Prop := ∃ x ∈ rest.head?, p x = false

theorem stopsAt_cons {p : α → Bool} {x : α} {xs : List α} : StopsAt p (x :: xs) ↔ p x = false := by
  simp [StopsAt]

theorem not_stopsAt_nil {p : α → Bool} : ¬ StopsAt p [] := by
  simp [StopsAt]

theorem stopsAt_append {p : α → Bool} {xs : List α} (hxs : xs ≠ []) (rest : List α) :
    StopsAt p (xs ++ rest) ↔ StopsAt p xs := by
  rw [StopsAt, StopsAt, List.head?_append_of_ne_nil _ hxs]

/-- **Longest match.** -/
theorem foldWhile_accept_eq_some_iff {p : α → Bool} {f : β → α → β} {xs rest : List α}
    {acc result : β} :
    foldWhile (accept p f) xs acc = some (result, rest) ↔
      ∃ run, xs = run ++ rest ∧ (∀ x ∈ run, p x = true) ∧ StopsAt p rest
        ∧ result = run.foldl f acc := by
  induction xs generalizing acc with
  | nil =>
      constructor
      · exact fun h => absurd h (by simp [foldWhile])
      · rintro ⟨run, hsplit, -, hstop, -⟩
        obtain ⟨rfl, rfl⟩ := List.append_eq_nil_iff.mp hsplit.symm
        exact absurd hstop not_stopsAt_nil
  | cons x xs ih =>
      cases hx : p x with
      | true =>
          have hstep : foldWhile (accept p f) (x :: xs) acc
              = foldWhile (accept p f) xs (f acc x) := by
            simp [foldWhile, accept, hx]
          rw [hstep, ih]
          constructor
          · rintro ⟨run, rfl, hrun, hstop, rfl⟩
            exact ⟨x :: run, rfl, List.forall_mem_cons.mpr ⟨hx, hrun⟩, hstop, rfl⟩
          · rintro ⟨run, hsplit, hrun, hstop, rfl⟩
            cases run with
            | nil =>
                rw [List.nil_append] at hsplit
                rw [← hsplit, stopsAt_cons, hx] at hstop
                exact absurd hstop (by decide)
            | cons y run =>
                obtain ⟨rfl, rfl⟩ := List.cons.inj hsplit
                exact ⟨run, rfl, (List.forall_mem_cons.mp hrun).2, hstop, rfl⟩
      | false =>
          have hstep : foldWhile (accept p f) (x :: xs) acc = some (acc, x :: xs) := by
            simp [foldWhile, accept, hx]
          rw [hstep, Option.some.injEq, Prod.mk.injEq]
          constructor
          · rintro ⟨rfl, rfl⟩
            exact ⟨[], rfl, fun _ h => absurd h List.not_mem_nil, stopsAt_cons.mpr hx, rfl⟩
          · rintro ⟨run, hsplit, hrun, -, rfl⟩
            cases run with
            | nil => exact ⟨rfl, hsplit⟩
            | cons y run =>
                obtain ⟨rfl, -⟩ := List.cons.inj hsplit
                rw [hrun x List.mem_cons_self] at hx
                exact absurd hx (by decide)

end Scan
