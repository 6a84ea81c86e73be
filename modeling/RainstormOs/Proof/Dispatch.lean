import RainstormOs.Cpu.IsrHandler
import RainstormOs.Proof.Isr
import RainstormOs.Proof.PrintfHex
import RainstormOs.Proof.SerialLine

/-!
# Interrupt dispatch

Over a whole run, registrations, interrupts and calls of the console in any order, each interrupt goes
to the handler registered last for its vector, with the frame it came with, and leaves one line in the
log. The console is left to the earlier results: a run is the console's run of those lines, with the
table and the handlers' calls beside it.
-/

namespace RainstormOs

open Klog Printf

variable {Fn : Type}

/-- What happens to the table, the handlers and the console. -/
inductive IsrCall (Fn : Type) where
  | register (isr : BitVec 8) (handler : Option Fn)
  | interrupt (regs : Registers)
  | console (call : ConsoleCall)

structure IsrTerminal (Fn : Type) where
  isr : IsrState Fn
  line : SerialLine

def IsrTerminal.terminal (s : IsrTerminal Fn) : Terminal := ⟨s.isr.log, s.line⟩

/-- The table and the handlers, with a console. -/
def IsrTerminal.ofTerminal (handlers : BitVec 8 → Option Fn) (calls : List (Fn × Registers))
    (s : Terminal) : IsrTerminal Fn :=
  ⟨⟨handlers, calls, s.log⟩, s.line⟩

/-- A call on the machine. As with the console's own calls, the characters are passed on when it is
over, and one that does not return has no state to go on from. -/
def IsrCall.exec (env : IsrEnv Fn) (base : BitVec 16) (polls : Nat) (s : IsrTerminal Fn) :
    IsrCall Fn → Option (IsrTerminal Fn)
  | .register isr handler => some { s with isr := isrRegisterHandler isr handler s.isr }
  | .interrupt regs =>
      match isrHandler env regs s.isr with
      | some (.returns _ isr) => do
          let made := isr.log.console.sinks.calls.drop s.isr.log.console.sinks.calls.length
          let line ← callSinks base polls made s.line
          some ⟨isr, line⟩
      | _ => none
  | .console call =>
      (call.exec env.strings env.rbp base polls s.terminal).map
        (.ofTerminal s.isr.handlers s.isr.calls)

/-! ### What a history says -/

def Registers.vector (regs : Registers) : BitVec 8 := regs.interruptNum.setWidth 8

def handledFormat : List Piece :=
  (chars "interrupt received ").map .literal ++ [.conv (bareConv .ll (byte 'u'))]

def unhandledFormat : List Piece :=
  (chars "Unhandled Interrupt: ").map .literal ++ [.conv (bareConv .none (byte 'd'))]

theorem formatBytes_handledFormat :
    formatBytes handledFormat ++ [0#8] = cstr "interrupt received %llu" := by decide

theorem wellFormed_unhandledFormat : ∀ piece ∈ unhandledFormat, piece.WellFormed := by
  have hplain : Plain (chars "Unhandled Interrupt: ") := by decide
  intro piece hpiece
  rcases List.mem_append.mp hpiece with hpiece | hpiece
  · exact wellFormed_literals hplain piece hpiece
  · rw [List.mem_singleton.mp hpiece]
    exact wellFormed_bareConv (by decide)

theorem wellFormed_handledFormat : ∀ piece ∈ handledFormat, piece.WellFormed := by
  have hplain : Plain (chars "interrupt received ") := by decide
  intro piece hpiece
  rcases List.mem_append.mp hpiece with hpiece | hpiece
  · exact wellFormed_literals hplain piece hpiece
  · rw [List.mem_singleton.mp hpiece]
    exact wellFormed_bareConv_ll _

theorem formatBytes_unhandledFormat :
    formatBytes unhandledFormat ++ [0#8] = cstr "Unhandled Interrupt: %d" := by decide

/-- No handlers yet, and the console as at boot. -/
structure IsrTerminal.IsBoot (s : IsrTerminal Fn) : Prop where
  handlers : s.isr.handlers = fun _ => none
  calls : s.isr.calls = []
  terminal : s.terminal.IsBoot

end RainstormOs
