import RainstormOs.Lib.Prog

/-!
# Programs and a component that moves beside them

Hardware does not wait for the end of a call. Here a second component with a state of its own moves
before every command of a program and after the last one, as far as the state of the machine allows
it then, and takes notice of each command. What the rules for single programs say about every state
passed through is enough for an invariant of that component.

An invariant of this kind says nothing about the command that was issued last, and often that is the
command which cleans up. `EndsWith` is the fact about the text of a program that is missing.
-/

namespace Prog

variable {Cmd : Type} {Reply : Cmd → Type} {σ ε α β : Type}

/-- Whatever the replies, the last command issued is one of `last`; a program that issues none has
`ended` to say for itself. -/
def EndsWith (last : Cmd → Prop) : Prog Cmd Reply α → Prop → Prop
  | .ret _, ended => ended
  | .call command next, _ => ∀ reply, (next reply).EndsWith last (last command)

theorem EndsWith.bind {last : Cmd → Prop} {prog : Prog Cmd Reply α}
    {next : α → Prog Cmd Reply β}
    (hnext : ∀ value ended, (next value).EndsWith last ended) (ended : Prop) :
    (prog >>= next).EndsWith last ended := by
  induction prog generalizing ended with
  | ret value => exact hnext value ended
  | call command rest ih =>
      intro reply
      exact ih reply (last command)

theorem EndsWith.bind_pure {last : Cmd → Prop} {prog : Prog Cmd Reply α} {ended : Prop}
    (h : prog.EndsWith last ended) (out : α → β) :
    (prog >>= fun value => pure (out value)).EndsWith last ended := by
  induction prog generalizing ended with
  | ret value => exact h
  | call command rest ih =>
      intro reply
      exact ih reply (h reply)

/-- An execution beside which the other component makes the moves that `moves` allows, and is
changed by every command as `notice` says. -/
inductive Interleaved (handle : (command : Cmd) → σ → Option (Reply command × σ))
    (moves : σ → ε → ε → Prop) (notice : Cmd → ε → ε) :
    Prog Cmd Reply α → σ → ε → α → σ → ε → Prop where
  | ret {value : α} {state : σ} {e e' : ε} (hmoves : moves state e e') :
      Interleaved handle moves notice (.ret value) state e value state e'
  | call {command : Cmd} {next : Reply command → Prog Cmd Reply α} {state mid after : σ}
      {reply : Reply command} {value : α} {e e' e'' : ε} (hmoves : moves state e e')
      (hreply : handle command state = some (reply, mid))
      (hrest : Interleaved handle moves notice (next reply) mid (notice command e') value after
        e'') :
      Interleaved handle moves notice (.call command next) state e value after e''

variable {handle : (command : Cmd) → σ → Option (Reply command × σ)}
  {moves : σ → ε → ε → Prop} {notice : Cmd → ε → ε} {guar : σ → Cmd → Prop}
  {prog : Prog Cmd Reply α} {state after : σ} {value : α} {e e' : ε} {post : α → σ → Prop}

/-- The program itself does not see the other component. -/
theorem Interleaved.run (h : Interleaved handle moves notice prog state e value after e') :
    run handle prog state = some (value, after) := by
  induction h with
  | ret _ => rfl
  | call _ hreply _ ih =>
      rw [Prog.run, hreply]
      exact ih

/-- The other component can always be left alone. -/
theorem Interleaved.exists_of_run (hidle : ∀ state e, moves state e e)
    (hrun : Prog.run handle prog state = some (value, after)) (e : ε) :
    ∃ e', Interleaved handle moves notice prog state e value after e' := by
  induction prog generalizing state e with
  | ret result =>
      obtain ⟨rfl, rfl⟩ : result = value ∧ state = after := by simpa [Prog.run] using hrun
      exact ⟨e, .ret (hidle state e)⟩
  | call command next ih =>
      rw [Prog.run] at hrun
      cases hreply : handle command state with
      | none =>
          rw [hreply] at hrun
          cases hrun
      | some out =>
          obtain ⟨reply, mid⟩ := out
          rw [hreply] at hrun
          obtain ⟨e', hrest⟩ := ih reply hrun (notice command e)
          exact ⟨e', .call (hidle state e) hreply hrest⟩

/-- An invariant of the other component that no command breaks is there when the program returns,
before the last moves. -/
theorem Interleaved.invariant (h : Interleaved handle moves notice prog state e value after e')
    (hwp : Wp handle guar prog state post) (inv : ε → Prop)
    (hkeep : ∀ mid command reply after e e', guar mid command →
      handle command mid = some (reply, after) → moves mid e e' → inv e → inv (notice command e'))
    (hinv : inv e) :
    ∃ e'', inv e'' ∧ moves after e'' e' ∧ post value after := by
  induction h with
  | ret hmoves => exact ⟨_, hinv, hmoves, hwp⟩
  | call hmoves hreply _ ih =>
      exact ih (hwp.2 _ _ hreply) (hkeep _ _ _ _ _ _ hwp.1 hreply hmoves hinv)

/-- What every possible last command establishes is there when the program returns. -/
theorem Interleaved.finish (h : Interleaved handle moves notice prog state e value after e')
    (hwp : Wp handle guar prog state post) (inv : ε → Prop)
    (hkeep : ∀ mid command reply after e e', guar mid command →
      handle command mid = some (reply, after) → moves mid e e' → inv e → inv (notice command e'))
    {last : Cmd → Prop} {ended : Prop} (hends : prog.EndsWith last ended) (final : σ → ε → Prop)
    (hlast : ∀ mid command reply after e e', guar mid command → last command →
      handle command mid = some (reply, after) → moves mid e e' → inv e →
      final after (notice command e'))
    (hinv : inv e) (hended : ended → final state e) :
    ∃ e'', final after e'' ∧ moves after e'' e' := by
  induction h generalizing ended with
  | ret hmoves => exact ⟨_, hended hends, hmoves⟩
  | call hmoves hreply _ ih =>
      refine ih (hwp.2 _ _ hreply) (hends _) (hkeep _ _ _ _ _ _ hwp.1 hreply hmoves hinv) ?_
      intro hcommand
      exact hlast _ _ _ _ _ _ hwp.1 hcommand hreply hmoves hinv

end Prog
