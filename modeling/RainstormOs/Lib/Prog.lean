import Mathlib.Logic.Function.Basic

/-!
# Programs that issue commands

A program is a tree: it returns, or it issues one command to the machine and goes on with the reply.
What a command does is left to a handler, so one program text has several readings: its result from
a state (`run`), the states in which it issues each command (`Visits`), and everything a caller may
rely on (`Wp`).

`Wp` carries a guarantee beside the postcondition. The guarantee is asked of every state the program
passes through and of the command it issues there, which is what the results about interrupted
executions need: an invariant at the end of a call says nothing about the middle of it.
-/

/-- A program over the commands `Cmd`, whose replies have the types `Reply`. -/
inductive Prog (Cmd : Type) (Reply : Cmd → Type) (α : Type) where
  | ret (value : α)
  | call (command : Cmd) (next : Reply command → Prog Cmd Reply α)

namespace Prog

variable {Cmd : Type} {Reply : Cmd → Type} {σ α β ρ : Type}

protected def bind : Prog Cmd Reply α → (α → Prog Cmd Reply β) → Prog Cmd Reply β
  | .ret value, next => next value
  | .call command rest, next => .call command fun reply => (rest reply).bind next

instance : Monad (Prog Cmd Reply) where
  pure := .ret
  bind := Prog.bind

@[simp]
theorem pure_eq (value : α) : (pure value : Prog Cmd Reply α) = .ret value := rfl

@[simp]
theorem ret_bind (value : α) (next : α → Prog Cmd Reply β) :
    (.ret value : Prog Cmd Reply α) >>= next = next value := rfl

def issue (command : Cmd) : Prog Cmd Reply (Reply command) :=
  .call command .ret

/-- The C loop `for (i = first; i < first + count; i++)` with a variable carried along. -/
def forAcc (body : Nat → β → Prog Cmd Reply β) : Nat → Nat → β → Prog Cmd Reply β
  | 0, _, acc => .ret acc
  | count + 1, first, acc => do
      let acc ← body first acc
      forAcc body count (first + 1) acc

/-- The C loop `for (i = count; i != 0; i--)`. -/
def forDown (body : Nat → Prog Cmd Reply Unit) : Nat → Prog Cmd Reply Unit
  | 0 => .ret ()
  | i + 1 => do
      body (i + 1)
      forDown body i

/-- The upward loop, with a body that can leave it: `inl` goes on, `inr` returns from the loop. -/
def forUntil (body : Nat → β → Prog Cmd Reply (β ⊕ ρ)) :
    Nat → Nat → β → Prog Cmd Reply (β ⊕ ρ)
  | 0, _, acc => .ret (.inl acc)
  | count + 1, first, acc => do
      match ← body first acc with
      | .inl acc => forUntil body count (first + 1) acc
      | .inr result => .ret (.inr result)

def forList {ι : Type} (body : ι → Prog Cmd Reply Unit) : List ι → Prog Cmd Reply Unit
  | [] => .ret ()
  | entry :: rest => do
      body entry
      forList body rest

variable (handle : (command : Cmd) → σ → Option (Reply command × σ))

/-- Running to the end; `none` where the machine stops inside a command. -/
def run : Prog Cmd Reply α → σ → Option (α × σ)
  | .ret value, state => some (value, state)
  | .call command next, state =>
      match handle command state with
      | none => none
      | some (reply, state) => (next reply).run state

/-- The program, started in `state`, issues `issued` while the machine is in `mid`. -/
def Visits : Prog Cmd Reply α → σ → σ → Cmd → Prop
  | .ret _, _, _, _ => False
  | .call command next, state, mid, issued =>
      (mid = state ∧ issued = command)
        ∨ ∃ reply after, handle command state = some (reply, after)
            ∧ (next reply).Visits after mid issued

variable (guar : σ → Cmd → Prop)

/-- Started in `state`, the program meets the guarantee at every command it issues, and where it
returns the postcondition holds. -/
def Wp : Prog Cmd Reply α → σ → (α → σ → Prop) → Prop
  | .ret value, state, post => post value state
  | .call command next, state, post =>
      guar state command
        ∧ ∀ reply after, handle command state = some (reply, after) →
            (next reply).Wp after post

variable {handle guar}

@[simp]
theorem wp_ret {value : α} {state : σ} {post : α → σ → Prop} :
    Wp handle guar (.ret value) state post ↔ post value state := Iff.rfl

theorem wp_issue {command : Cmd} {state after : σ} {reply : Reply command}
    {post : Reply command → σ → Prop} (hreply : handle command state = some (reply, after)) :
    Wp handle guar (issue command) state post ↔ guar state command ∧ post reply after := by
  change (_ ∧ ∀ reply after, handle command state = some (reply, after) → post reply after) ↔ _
  simp [hreply]

theorem wp_bind {prog : Prog Cmd Reply α} {next : α → Prog Cmd Reply β} {state : σ}
    {post : β → σ → Prop} :
    Wp handle guar (prog >>= next) state post ↔
      Wp handle guar prog state fun value after => Wp handle guar (next value) after post := by
  induction prog generalizing state with
  | ret value => exact Iff.rfl
  | call command rest ih =>
      refine and_congr Iff.rfl (forall_congr' fun reply => forall_congr' fun after =>
        imp_congr Iff.rfl ?_)
      exact ih reply

theorem Wp.imp {guar' : σ → Cmd → Prop} {prog : Prog Cmd Reply α} {state : σ}
    {post post' : α → σ → Prop} (h : Wp handle guar prog state post)
    (hguar : ∀ mid command, guar mid command → guar' mid command)
    (hpost : ∀ value after, post value after → post' value after) :
    Wp handle guar' prog state post' := by
  induction prog generalizing state with
  | ret value => exact hpost _ _ h
  | call command rest ih =>
      exact ⟨hguar _ _ h.1, fun reply after hrun => ih reply (h.2 reply after hrun)⟩

theorem Wp.post {prog : Prog Cmd Reply α} {state : σ} {post post' : α → σ → Prop}
    (h : Wp handle guar prog state post)
    (hpost : ∀ value after, post value after → post' value after) :
    Wp handle guar prog state post' :=
  h.imp (fun _ _ hguar => hguar) hpost

theorem Wp.bind {prog : Prog Cmd Reply α} {next : α → Prog Cmd Reply β} {state : σ}
    (mid : α → σ → Prop) {post : β → σ → Prop} (h : Wp handle guar prog state mid)
    (hnext : ∀ value after, mid value after → Wp handle guar (next value) after post) :
    Wp handle guar (prog >>= next) state post :=
  wp_bind.mpr (h.post hnext)

/-! ### Loops

The invariant is indexed by the loop variable and speaks about the carried value and the state. -/

theorem wp_forAcc {body : Nat → β → Prog Cmd Reply β} (inv : Nat → β → σ → Prop)
    {count first : Nat} {acc : β} {state : σ} {post : β → σ → Prop}
    (hinit : inv first acc state)
    (hbody : ∀ i acc mid, first ≤ i → i < first + count → inv i acc mid →
      Wp handle guar (body i acc) mid fun acc' after => inv (i + 1) acc' after)
    (hpost : ∀ acc after, inv (first + count) acc after → post acc after) :
    Wp handle guar (forAcc body count first acc) state post := by
  induction count generalizing first acc state with
  | zero => exact hpost _ _ hinit
  | succ count ih =>
      refine Wp.bind _ (hbody first acc state (Nat.le_refl _) (by omega) hinit)
        fun acc' after hinv => ?_
      refine ih hinv (fun i acc mid hle hlt => hbody i acc mid (by omega) (by omega)) ?_
      intro acc after hinv
      refine hpost acc after ?_
      rwa [show first + (count + 1) = first + 1 + count by omega]

theorem wp_forDown {body : Nat → Prog Cmd Reply Unit} (inv : Nat → σ → Prop) {count : Nat}
    {state : σ} {post : Unit → σ → Prop} (hinit : inv count state)
    (hbody : ∀ i mid, i < count → inv (i + 1) mid →
      Wp handle guar (body (i + 1)) mid fun _ after => inv i after)
    (hpost : ∀ after, inv 0 after → post () after) :
    Wp handle guar (forDown body count) state post := by
  induction count generalizing state with
  | zero => exact hpost _ hinit
  | succ count ih =>
      refine Wp.bind _ (hbody count state (Nat.lt_succ_self _) hinit) fun _ after hinv => ?_
      exact ih hinv fun i mid hlt => hbody i mid (by omega)

theorem wp_forUntil {body : Nat → β → Prog Cmd Reply (β ⊕ ρ)} (inv : Nat → β → σ → Prop)
    {count first : Nat} {acc : β} {state : σ} {post : β ⊕ ρ → σ → Prop}
    (hinit : inv first acc state)
    (hbody : ∀ i acc mid, first ≤ i → i < first + count → inv i acc mid →
      Wp handle guar (body i acc) mid fun out after =>
        match out with
        | .inl acc' => inv (i + 1) acc' after
        | .inr result => post (.inr result) after)
    (hpost : ∀ acc after, inv (first + count) acc after → post (.inl acc) after) :
    Wp handle guar (forUntil body count first acc) state post := by
  induction count generalizing first acc state with
  | zero => exact hpost _ _ hinit
  | succ count ih =>
      refine Wp.bind _ (hbody first acc state (Nat.le_refl _) (by omega) hinit)
        fun out after hout => ?_
      cases out with
      | inr result => exact hout
      | inl acc' =>
          refine ih hout (fun i acc mid hle hlt => hbody i acc mid (by omega) (by omega)) ?_
          intro acc after hinv
          refine hpost acc after ?_
          rwa [show first + (count + 1) = first + 1 + count by omega]

/-- The invariant of a list loop speaks about the entries already done. -/
theorem wp_forList {ι : Type} {body : ι → Prog Cmd Reply Unit} (inv : List ι → σ → Prop)
    {entries : List ι} {state : σ} {post : Unit → σ → Prop} (hinit : inv [] state)
    (hbody : ∀ done entry rest mid, entries = done ++ entry :: rest → inv done mid →
      Wp handle guar (body entry) mid fun _ after => inv (done ++ [entry]) after)
    (hpost : ∀ after, inv entries after → post () after) :
    Wp handle guar (forList body entries) state post := by
  suffices h : ∀ rest done state, entries = done ++ rest → inv done state →
      Wp handle guar (forList body rest) state post from h entries [] state rfl hinit
  intro rest
  induction rest with
  | nil =>
      intro done state hsplit hinv
      rw [List.append_nil] at hsplit
      exact hpost state (hsplit ▸ hinv)
  | cons entry rest ih =>
      intro done state hsplit hinv
      refine Wp.bind _ (hbody done entry rest state hsplit hinv) fun _ after hinv' => ?_
      exact ih (done ++ [entry]) after (by simp [hsplit]) hinv'

/-! ### What a `Wp` says about runs and visited states -/

theorem Wp.of_run {prog : Prog Cmd Reply α} {state : σ} {post : α → σ → Prop} {value : α}
    {after : σ} (h : Wp handle guar prog state post)
    (hrun : run handle prog state = some (value, after)) : post value after := by
  induction prog generalizing state with
  | ret result =>
      simp only [run, Option.some.injEq, Prod.mk.injEq] at hrun
      obtain ⟨rfl, rfl⟩ := hrun
      exact h
  | call command rest ih =>
      rw [run] at hrun
      split at hrun
      · exact absurd hrun (by simp)
      · next reply mid hmid => exact ih reply (h.2 reply mid hmid) hrun

theorem Wp.of_visits {prog : Prog Cmd Reply α} {state mid : σ} {post : α → σ → Prop}
    {command : Cmd} (h : Wp handle guar prog state post)
    (hvisit : Visits handle prog state mid command) : guar mid command := by
  induction prog generalizing state with
  | ret result => exact hvisit.elim
  | call issued rest ih =>
      obtain ⟨rfl, rfl⟩ | ⟨reply, after, hrun, hvisit⟩ := hvisit
      · exact h.1
      · exact ih reply (h.2 reply after hrun) hvisit

/-- A program whose guarantee rules out every command the machine stops in returns. -/
theorem Wp.returns {prog : Prog Cmd Reply α} {state : σ} {post : α → σ → Prop}
    (h : Wp handle guar prog state post)
    (hsome : ∀ mid command, guar mid command → handle command mid ≠ none) :
    ∃ value after, run handle prog state = some (value, after) ∧ post value after := by
  induction prog generalizing state with
  | ret value => exact ⟨value, state, rfl, h⟩
  | call command rest ih =>
      obtain ⟨⟨reply, mid⟩, hmid⟩ := Option.ne_none_iff_exists'.mp (hsome _ _ h.1)
      obtain ⟨value, after, hrun, hpost⟩ := ih reply (h.2 reply mid hmid)
      exact ⟨value, after, by rw [run, hmid]; exact hrun, hpost⟩

/-- Every program satisfies its own run. -/
theorem wp_run (prog : Prog Cmd Reply α) (state : σ) :
    Wp handle (fun _ _ => True) prog state fun value after =>
      run handle prog state = some (value, after) := by
  induction prog generalizing state with
  | ret value => rfl
  | call command rest ih =>
      refine ⟨trivial, fun reply mid hmid => (ih reply mid).post fun value after hrun => ?_⟩
      rw [run, hmid]
      exact hrun

theorem Wp.and {guar' : σ → Cmd → Prop} {prog : Prog Cmd Reply α} {state : σ}
    {post post' : α → σ → Prop} (h : Wp handle guar prog state post)
    (h' : Wp handle guar' prog state post') :
    Wp handle (fun mid command => guar mid command ∧ guar' mid command) prog state
      fun value after => post value after ∧ post' value after := by
  induction prog generalizing state with
  | ret value => exact ⟨h, h'⟩
  | call command rest ih =>
      refine ⟨⟨h.1, h'.1⟩, fun reply after hrun => ?_⟩
      exact ih reply (h.2 reply after hrun) (h'.2 reply after hrun)

/-- What holds at every command and of every result is a `Wp`. -/
theorem wp_of_visits {prog : Prog Cmd Reply α} {state : σ} {post : α → σ → Prop}
    (hguar : ∀ mid command, Visits handle prog state mid command → guar mid command)
    (hpost : ∀ value after, run handle prog state = some (value, after) → post value after) :
    Wp handle guar prog state post := by
  induction prog generalizing state with
  | ret value => exact hpost value state rfl
  | call command rest ih =>
      refine ⟨hguar state command (Or.inl ⟨rfl, rfl⟩), fun reply after hreply => ih reply ?_ ?_⟩
      · exact fun mid issued hvisit => hguar mid issued (Or.inr ⟨reply, after, hreply, hvisit⟩)
      · intro value final hrun
        refine hpost value final ?_
        rw [run, hreply]
        exact hrun

theorem run_bind {prog : Prog Cmd Reply α} {next : α → Prog Cmd Reply β} {state : σ} :
    run handle (prog >>= next) state =
      (run handle prog state).bind fun out => run handle (next out.1) out.2 := by
  induction prog generalizing state with
  | ret value => rfl
  | call command rest ih =>
      change run handle (.call command fun reply => rest reply >>= next) state = _
      rw [run, run]
      split
      · rfl
      · exact ih _

/-- The commands of a sequence are those of its first part, and those of the second from where the
first returns. -/
theorem visits_bind {prog : Prog Cmd Reply α} {next : α → Prog Cmd Reply β} {state mid : σ}
    {issued : Cmd} :
    Visits handle (prog >>= next) state mid issued ↔ Visits handle prog state mid issued
      ∨ ∃ value after, run handle prog state = some (value, after)
          ∧ Visits handle (next value) after mid issued := by
  induction prog generalizing state with
  | ret value =>
      constructor
      · exact fun h => Or.inr ⟨value, state, rfl, h⟩
      · rintro (h | ⟨value', after, hrun, h⟩)
        · exact h.elim
        · cases hrun
          exact h
  | call command rest ih =>
      change ((mid = state ∧ issued = command) ∨ ∃ reply after,
        handle command state = some (reply, after)
          ∧ Visits handle (rest reply >>= next) after mid issued) ↔ _
      rw [run, Visits]
      cases hstep : handle command state with
      | none => simp
      | some out =>
          obtain ⟨reply, after⟩ := out
          simp only [Option.some.injEq, Prod.mk.injEq, ih, or_assoc]
          refine or_congr Iff.rfl ?_
          constructor
          · rintro ⟨reply', after', ⟨rfl, rfl⟩, h | h⟩
            · exact Or.inl ⟨_, _, ⟨rfl, rfl⟩, h⟩
            · exact Or.inr h
          · rintro (⟨reply', after', ⟨rfl, rfl⟩, h⟩ | h)
            · exact ⟨_, _, ⟨rfl, rfl⟩, Or.inl h⟩
            · exact ⟨_, _, ⟨rfl, rfl⟩, Or.inr h⟩

/-- A loop comes to a round if the rounds before it return and keep an invariant. -/
theorem exists_visits_forAcc_of_inv {body : Nat → β → Prog Cmd Reply β} {issued : Cmd}
    (inv : Nat → β → σ → Prop) {count first i : Nat} (hfirst : first ≤ i) (hi : i < first + count)
    (hbefore : ∀ j acc state, j < i → inv j acc state →
      ∃ acc' after, run handle (body j acc) state = some (acc', after) ∧ inv (j + 1) acc' after)
    (hround : ∀ acc state, inv i acc state → ∃ mid, Visits handle (body i acc) state mid issued)
    {acc : β} {state : σ} (hinit : inv first acc state) :
    ∃ mid, Visits handle (forAcc body count first acc) state mid issued := by
  induction count generalizing first acc state with
  | zero => omega
  | succ count ih =>
      obtain rfl | hlater := Nat.eq_or_lt_of_le hfirst
      · obtain ⟨mid, hmid⟩ := hround acc state hinit
        exact ⟨mid, visits_bind.mpr (Or.inl hmid)⟩
      · obtain ⟨acc', after, hrun, hinv⟩ := hbefore first acc state hlater hinit
        obtain ⟨mid, hmid⟩ := ih hlater (by omega) hinv
        exact ⟨mid, visits_bind.mpr (Or.inr ⟨acc', after, hrun, hmid⟩)⟩

/-- A loop whose rounds return comes to every round. -/
theorem exists_visits_forAcc {body : Nat → β → Prog Cmd Reply β} {issued : Cmd}
    (hreturns : ∀ i acc state, run handle (body i acc) state ≠ none) {count first i : Nat}
    (hfirst : first ≤ i) (hi : i < first + count)
    (hround : ∀ acc state, ∃ mid, Visits handle (body i acc) state mid issued) (acc : β)
    (state : σ) : ∃ mid, Visits handle (forAcc body count first acc) state mid issued := by
  refine exists_visits_forAcc_of_inv (fun _ _ _ => True) hfirst hi ?_
    (fun acc state _ => hround acc state) trivial
  intro j acc state _ _
  obtain ⟨⟨acc', after⟩, hrun⟩ := Option.ne_none_iff_exists'.mp (hreturns j acc state)
  exact ⟨acc', after, hrun, trivial⟩

/-- A program over a machine that never stops returns. -/
theorem run_ne_none (hsome : ∀ mid command, handle command mid ≠ none)
    (prog : Prog Cmd Reply α) (state : σ) : run handle prog state ≠ none := by
  obtain ⟨value, after, hrun, -⟩ := (wp_run prog state).returns fun mid command _ =>
    hsome mid command
  rw [hrun]
  exact Option.some_ne_none _

end Prog
