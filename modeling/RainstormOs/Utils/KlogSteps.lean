import RainstormOs.Utils.Klog

/-!
# `utils/klog.c`, command by command

An interrupt does not wait for the end of a call. Here the console's functions are programs whose
commands are the accesses to the static variables of `klog.c`, `printf.c` and `sink.c` and the calls
of the callbacks.
-/

namespace RainstormOs.Klog

open Printf

/-- `stop` has no successor: it stands for undefined behaviour and for a panic, which masks interrupts
before it does anything else. -/
inductive LogCmd where
  | sink (command : SinkCmd ConsoleSink)
  | defaultSink
  | setDefaultSink (id : Int)
  | debugSink
  | setDebugSink (id : Int)
  | currentLevel
  | setCurrentLevel (level : Level)
  | stop

abbrev LogCmd.Reply : LogCmd → Type
  | .sink command => command.Reply
  | .defaultSink => Int
  | .debugSink => Int
  | .currentLevel => Level
  | .stop => Empty
  | _ => Unit

def State.withSinks (s : State) (sinks : SinkState ConsoleSink) : State :=
  { s with console := { s.console with sinks := sinks } }

def logExec : (command : LogCmd) → State → Option (command.Reply × State)
  | .sink command, s =>
      (sinkExec command s.console.sinks).map fun out => (out.1, s.withSinks out.2)
  | .defaultSink, s => some (kprintfGetDefaultSink s.console, s)
  | .setDefaultSink id, s => some ((), s.setDefaultSink id)
  | .debugSink, s => some (s.debugSink, s)
  | .setDebugSink id, s => some ((), { s with debugSink := id })
  | .currentLevel, s => some (s.currentLevel, s)
  | .setCurrentLevel level, s => some ((), { s with currentLevel := level })
  | .stop, _ => none

abbrev LogProg (α : Type) := Prog LogCmd LogCmd.Reply α

/-- A function of `sink.c`. -/
def ofSink {α : Type} : SinkProg ConsoleSink α → LogProg α
  | .ret value => .ret value
  | .call command next => .call (.sink command) fun reply => ofSink (next reply)

def getDefaultSinkSteps : LogProg Int := Prog.issue LogCmd.defaultSink

def setDefaultSinkSteps (id : Int) : LogProg Unit := Prog.issue (LogCmd.setDefaultSink id)

def getDebugSinkSteps : LogProg Int := Prog.issue LogCmd.debugSink

def stopSteps {α : Type} : LogProg α := .call .stop Empty.elim

def putcharSteps (character : BitVec 8) : LogProg Unit := do
  let defaultSink ← getDefaultSinkSteps
  ofSink (sinkWrite defaultSink character)

/-- `_out_char`, with the characters kept instead of written. -/
def outKept : OutFct Unit (List (BitVec 8)) := fun character _ _ _ text =>
  some (if character ≠ 0#8 then text ++ [character] else text)

/-- The characters that formatting passes to `_putchar`. -/
def printed (strings : Strings) (format : List (BitVec 8)) (va : List (BitVec 64)) :
    Option (List (BitVec 8)) :=
  (vsnprintf strings outKept (some ()) (-1#64) format va []).map Prod.snd

def kvprintfSteps (strings : Strings) (format : List (BitVec 8)) (va : List (BitVec 64)) :
    LogProg Unit :=
  match printed strings format va with
  | none => stopSteps
  | some text => Prog.forList putcharSteps text

def setLevelSteps (level : Level) : LogProg Unit := do
  Prog.issue (LogCmd.setCurrentLevel level)
  let debugSink ← getDebugSinkSteps
  if debugSink < 0 then
    let id ← ofSink (sinkRegister (some .debugSinkWrite))
    Prog.issue (LogCmd.setDebugSink id)
  else
    pure ()

def klogfSteps (strings : Strings) (level : Level) (string : List (BitVec 8))
    (args : List (BitVec 64)) : LogProg Unit := do
  let currentLevel ← Prog.issue LogCmd.currentLevel
  if level.value < Level.value currentLevel then
    pure ()
  else if level = .panic then
    stopSteps
  else
    let debugSink ← getDebugSinkSteps
    if debugSink < 0 then
      pure ()
    else
      let prevSink ← getDefaultSinkSteps
      let debugSink ← getDebugSinkSteps
      setDefaultSinkSteps debugSink
      kvprintfSteps strings (cstr (logLabels level)) []
      kvprintfSteps strings string args
      kvprintfSteps strings (cstr "\n") []
      setDefaultSinkSteps prevSink

end RainstormOs.Klog
