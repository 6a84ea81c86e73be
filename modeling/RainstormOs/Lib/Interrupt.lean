import RainstormOs.Lib.Prog

/-!
# Programs that are interrupted

An interrupt, unlike the hardware of `Interleaved`, works on the program's own state: it comes between
two commands, runs to its end and goes away. A schedule says which ones come before which command. The
program is not disturbed if the states with and without them stay related, and then it does, command
by command, what it does alone.
-/

namespace Prog

variable {Cmd : Type} {Reply : Cmd → Type} {σ ι α β : Type}

section Simulation

variable {handle : (command : Cmd) → σ → Option (Reply command × σ)} {interrupt : ι → σ → Option σ}
  {ok : ι → Prop} (sim : List ι → σ → σ → Prop)

end Simulation

/-! ### Blocks between a program's own output -/

variable {γ : Type}

/-- `all` is `own` with `blocks` put in between, each in one piece, in their order. -/
inductive Woven : List (List γ) → List γ → List γ → Prop where
  | refl (own : List γ) : Woven [] own own
  | own {blocks : List (List γ)} {own all : List γ} (h : Woven blocks own all) (entry : γ) :
      Woven blocks (own ++ [entry]) (all ++ [entry])
  | block {blocks : List (List γ)} {own all : List γ} (h : Woven blocks own all) (entries : List γ) :
      Woven (blocks ++ [entries]) own (all ++ entries)

end Prog
