import RainstormOs.Lib.Interrupt
import RainstormOs.Proof.Dispatch
import RainstormOs.Utils.KlogSteps

/-!
# The console under interrupts

`isr_handler` prints, and it may come at any command of the code it interrupts, in the middle of a
message that is itself being printed. It points the default sink somewhere else for the time of its
line and puts back what it found. So the interrupted calls do what they do undisturbed, their
characters go where they would have gone, and the only trace of the interrupts are their lines, whole
and in order, between those characters.
-/

namespace RainstormOs.Klog

open Printf

/-! ### The steps are the code -/

section Steps

variable {strings : Strings} {s : State}

def LogCall.steps (strings : Strings) : LogCall → LogProg Unit
  | .sinkRegister writeCallback => do
      let _ ← ofSink (RainstormOs.sinkRegister writeCallback)
  | .sinkRemove id => ofSink (RainstormOs.sinkRemove id)
  | .setDefaultSink id => setDefaultSinkSteps id
  | .setLevel level => setLevelSteps level
  | .kprintf pieces va => kvprintfSteps strings (formatBytes pieces ++ [0#8]) va
  | .klogf level pieces args => klogfSteps strings level (formatBytes pieces ++ [0#8]) args

end Steps

/-! ### What an interrupt leaves -/

/-- `%llu`. -/
theorem integerText_llu (va : List (BitVec 64)) (value : BitVec 64) :
    integerText (byte 'u') ⟨{ long := true, longLong := true }, 0#32, 0#32, [], va⟩ value
      = numeral false 10 value.toNat := by
  have hflags : integerFlags (byte 'u') { long := true, longLong := true }
      = { long := true, longLong := true } := by decide
  have hbase : (specifierBase (byte 'u')).toNat = 10 := by decide
  have hvalue : integerValue (byte 'u') { long := true, longLong := true } value = value.toNat := rfl
  have hsign : signText (decide ((value.toNat : Int) < 0)) { long := true, longLong := true }
      = [] := by
    rw [decide_eq_false (by omega)]
    rfl
  have hlength : (numeral false 10 value.toNat).length ≤ 20 :=
    length_numeral_le (by decide) (by decide) (Nat.lt_trans value.isLt (by decide))
  rw [integerText_eq_codeLayout _ _ _ (Or.inl rfl), hvalue, hflags, hbase, hsign, Int.natAbs_natCast]
  change codeLayout (numeral false 10 value.toNat) [] 0 0 { long := true, longLong := true } = _
  rw [codeLayout_zeros rfl (Or.inr rfl) (Nat.le_trans hlength (by decide)) (by decide)]
  simp [zeros]

theorem formatText_handledFormat (strings : Strings) (value : BitVec 64) :
    formatText strings handledFormat [value]
      = some (chars "interrupt received " ++ numeral false 10 value.toNat) := by
  have htext : Piece.text strings (.conv (bareConv .ll (byte 'u'))) [value]
      = some (numeral false 10 value.toNat, []) :=
    congrArg (fun text => some (text, [])) (integerText_llu [value] value)
  rw [handledFormat, formatText_literals_append, formatText, htext]
  simp [formatText]

theorem formatText_unhandledFormat (strings : Strings) (vector : BitVec 8) :
    formatText strings unhandledFormat [vector.setWidth 64]
      = some (chars "Unhandled Interrupt: " ++ numeral false 10 vector.toNat) := by
  have hvector : vector.toNat < 2 ^ 31 := Nat.lt_trans vector.isLt (by decide)
  have hindex := integerText_index hvector [vector.setWidth 64]
  rw [BitVec.ofNat_toNat] at hindex
  have htext : Piece.text strings (.conv (bareConv .none (byte 'd'))) [vector.setWidth 64]
      = some (numeral false 10 vector.toNat, []) :=
    congrArg (fun text => some (text, [])) hindex
  rw [unhandledFormat, formatText_literals_append, formatText, htext]
  simp [formatText]

section Interrupt

variable {Fn : Type} {env : IsrEnv Fn} {handlers : BitVec 8 → Option Fn}

/-- An interrupt on the log. -/
def interrupt (env : IsrEnv Fn) (handlers : BitVec 8 → Option Fn) (regs : Registers) (s : State) :
    Option State :=
  match isrHandler env regs ⟨handlers, [], s⟩ with
  | some (.returns _ isr) => some isr.log
  | _ => none

/-- The line of an interrupt. -/
def interruptLine (env : IsrEnv Fn) (handlers : BitVec 8 → Option Fn) (regs : Registers) :
    List (BitVec 8) :=
  match handlers regs.vector with
  | some handler => Journal.line .debug
      (chars "interrupt received " ++ numeral false 10 (env.handle handler regs).interruptNum.toNat)
  | none => Journal.line .warn (chars "Unhandled Interrupt: " ++ numeral false 10 regs.vector.toNat)

def State.withCalls (s : State) (calls : List (ConsoleSink × BitVec 8)) : State :=
  s.withSinks { s.console.sinks with calls := calls }

/-- Nothing, or a line to one listener. -/
def Announces (line : List (BitVec 8)) (entries : List (ConsoleSink × BitVec 8)) : Prop :=
  entries = [] ∨ ∃ callback, entries = deliveries (some callback) line

theorem klogf_announces {strings : Strings} {level : Level} {pieces : List Piece}
    {text : List (BitVec 8)} {args : List (BitVec 64)} (hwf : ∀ piece ∈ pieces, piece.WellFormed)
    (htext : formatText strings pieces args = some text) (hpanic : level ≠ .panic) (rbp : BitVec 64)
    (s : State) :
    ∃ entries, Announces (Journal.line level text) entries
      ∧ klogf strings level (formatBytes pieces ++ [0#8]) args rbp s
          = some (.returns (s.withCalls (s.console.sinks.calls ++ entries))) := by
  have hsilent : s = s.withCalls (s.console.sinks.calls ++ []) := by
    rw [List.append_nil]
    rfl
  by_cases hlevel : level.value < s.currentLevel.value
  · refine ⟨[], Or.inl rfl, ?_⟩
    rw [klogf, if_pos hlevel, ← hsilent]
  · by_cases hdebug : s.debugSink < 0
    · refine ⟨[], Or.inl rfl, ?_⟩
      rw [klogf, if_neg hlevel, if_neg hpanic, if_pos hdebug, ← hsilent]
    · refine ⟨deliveries (listener s.console.sinks s.debugSink) (Journal.line level text), ?_, ?_⟩
      · cases listener s.console.sinks s.debugSink with
        | none => exact Or.inl rfl
        | some callback => exact Or.inr ⟨callback, rfl⟩
      · rw [klogf_shown hwf htext hlevel hpanic hdebug]
        rfl

theorem interrupt_announces {regs : Registers}
    (hfatal : handlers regs.vector = none → 0x20#8 ≤ regs.vector) (s : State) :
    ∃ entries, Announces (interruptLine env handlers regs) entries
      ∧ interrupt env handlers regs s
          = some (s.withCalls (s.console.sinks.calls ++ entries)) := by
  cases hslot : handlers regs.vector with
  | some handler =>
      obtain ⟨entries, hline, hlogged⟩ := klogf_announces wellFormed_handledFormat
        (formatText_handledFormat env.strings (env.handle handler regs).interruptNum)
        (by decide : Level.debug ≠ .panic) env.rbp s
      refine ⟨entries, ?_, ?_⟩
      · rwa [interruptLine, hslot]
      · change IsrState.handlers ⟨handlers, [], s⟩ (regs.interruptNum.setWidth 8) = some handler
          at hslot
        rw [interrupt, isrHandler, hslot, ← formatBytes_handledFormat]
        simp only [hlogged]
        rfl
  | none =>
      have hmasked : regs.interruptNum.setWidth 8 ≥ 0x20#8 := hfatal hslot
      obtain ⟨entries, hline, hlogged⟩ := klogf_announces wellFormed_unhandledFormat
        (formatText_unhandledFormat env.strings regs.vector) (by decide : Level.warn ≠ .panic)
        env.rbp s
      refine ⟨entries, ?_, ?_⟩
      · rwa [interruptLine, hslot]
      · change IsrState.handlers ⟨handlers, [], s⟩ (regs.interruptNum.setWidth 8) = none at hslot
        rw [interrupt, isrHandler, hslot, ← formatBytes_unhandledFormat]
        simp only [if_pos hmasked]
        change klogf env.strings .warn (formatBytes unhandledFormat ++ [0#8])
          [(regs.interruptNum.setWidth 8).setWidth 64] env.rbp s = _ at hlogged
        simp only [hlogged]
        rfl

end Interrupt

/-! ### Under any schedule -/

section Schedule

variable {Fn : Type} {env : IsrEnv Fn} {handlers : BitVec 8 → Option Fn}

/-- The interrupts of `past` have left nothing but their lines: apart from these `s` is `u`. -/
structure Undisturbed (env : IsrEnv Fn) (handlers : BitVec 8 → Option Fn) (past : List Registers)
    (s u : State) : Prop where
  rest : s = u.withCalls s.console.sinks.calls
  lines : ∃ blocks, Prog.Woven blocks u.console.sinks.calls s.console.sinks.calls
    ∧ List.Forall₂ (fun regs => Announces (interruptLine env handlers regs)) past blocks

theorem Undisturbed.refl (s : State) : Undisturbed env handlers [] s s :=
  ⟨rfl, [], .refl _, .nil⟩

theorem Undisturbed.interrupt {past : List Registers} {regs : Registers} {s u : State}
    (h : Undisturbed env handlers past s u)
    (hfatal : handlers regs.vector = none → 0x20#8 ≤ regs.vector) :
    ∃ s', Klog.interrupt env handlers regs s = some s'
      ∧ Undisturbed env handlers (past ++ [regs]) s' u := by
  obtain ⟨entries, hline, hinterrupt⟩ := @interrupt_announces _ env handlers regs hfatal s
  obtain ⟨blocks, hwoven, hblocks⟩ := h.lines
  refine ⟨_, hinterrupt, ?_, blocks ++ [entries], hwoven.block entries, ?_⟩
  · conv_lhs => rw [h.rest]
    rfl
  · exact List.rel_append hblocks (.cons hline .nil)

/-- A command does the same with the interrupts' lines among the calls. -/
theorem Undisturbed.command {past : List Registers} {s u u' : State} {command : LogCmd}
    {reply : command.Reply} (h : Undisturbed env handlers past s u)
    (hu : logExec command u = some (reply, u')) :
    ∃ s', logExec command s = some (reply, s') ∧ Undisturbed env handlers past s' u' := by
  obtain ⟨hrest, blocks, hwoven, hblocks⟩ := h
  generalize s.console.sinks.calls = all at hrest hwoven
  subst hrest
  cases command with
  | sink command =>
      cases command with
      | invoke callback ch =>
          obtain ⟨rfl, rfl⟩ := Prod.mk.inj (Option.some.inj hu)
          exact ⟨_, rfl, rfl, blocks, hwoven.own (callback, ch), hblocks⟩
      | _ =>
          obtain ⟨rfl, rfl⟩ := Prod.mk.inj (Option.some.inj hu)
          exact ⟨_, rfl, rfl, blocks, hwoven, hblocks⟩
  | stop => cases hu
  | _ =>
      obtain ⟨rfl, rfl⟩ := Prod.mk.inj (Option.some.inj hu)
      exact ⟨_, rfl, rfl, blocks, hwoven, hblocks⟩

end Schedule

end RainstormOs.Klog
