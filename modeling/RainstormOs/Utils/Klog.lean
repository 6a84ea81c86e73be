import RainstormOs.Drivers.Framebuffer
import RainstormOs.Drivers.Serial
import RainstormOs.Utils.Printf

/-!
# `utils/klog.c`

The log prints through the console's default sink, which it points at its own debug sink for the time
of a message. A panic takes the default sink for good, paints the screen, and follows the chain of
frame pointers from where it stands.
-/

namespace RainstormOs.Klog

open Printf

/-- `klog_level`. -/
inductive Level where
  | debug
  | info
  | warn
  | error
  | panic
deriving DecidableEq

/-- The value of the enumerator. -/
def Level.value : Level → Nat
  | .debug => 0
  | .info => 1
  | .warn => 2
  | .error => 3
  | .panic => 4

/-- The characters of a string constant. -/
def chars (text : String) : List (BitVec 8) := text.toList.map byte

/-- A string constant, as a pointer to it finds it. -/
def cstr (text : String) : List (BitVec 8) := chars text ++ [0#8]

def logLabels : Level → String
  | .debug => "[debug]: "
  | .info => "[info]: "
  | .warn => "[warn]: "
  | .error => "[ERROR]: "
  | .panic => "[PANIC]: "

/-- The static variables of `klog.c`, the console, and what a panic touches besides: the screen, with
the memory the stack lies in, and the interrupt flag. -/
structure State where
  currentLevel : Level
  debugSink : Int
  console : Console ConsoleSink
  screen : FbState
  interruptFlag : Bool

def State.setDefaultSink (s : State) (id : Int) : State :=
  { s with console := kprintfSetDefaultSink id s.console }

def State.kprintf (s : State) (strings : Strings) (format : List (BitVec 8))
    (va : List (BitVec 64)) : Option State :=
  (Printf.kprintf strings format va s.console).map fun out => { s with console := out.2 }

def State.kvprintf (s : State) (strings : Strings) (format : List (BitVec 8))
    (va : List (BitVec 64)) : Option State :=
  (Printf.kvprintf strings format va s.console).map fun out => { s with console := out.2 }

def debugSinkWrite (polls : Nat) (ch : BitVec 8) : SerialProg Bool := serialWrite polls ch

/-- `klog_set_level`; the registration is that of `klogSetLevel`. -/
def setLevel (level : Level) (s : State) : Option State :=
  (Prog.run sinkExec (klogSetLevel s.debugSink) s.console.sinks).map fun out =>
    { s with
      currentLevel := level
      debugSink := out.1
      console := { s.console with sinks := out.2 } }

/-- `for (int i = 0; i < 16 && rbp; i++)`, from the value of `i` on. -/
def stackTrace (strings : Strings) : Nat → Nat → BitVec 64 → State → Option State
  | 0, _, _, s => some s
  | rounds + 1, i, rbp, s =>
      if rbp = 0#64 then
        some s
      else do
        let s ← s.kprintf strings (cstr "  [%d] 0x%016llx\n")
          [BitVec.ofNat 64 i, s.screen.mem.readWord (rbp + 8#64) 8]
        stackTrace strings rounds (i + 1) (s.screen.mem.readWord rbp 8) s

/-- The panic branch of `klogf`, with the frame pointer it finds; the state is the one it halts in. -/
def panic (strings : Strings) (string : List (BitVec 8)) (args : List (BitVec 64))
    (rbp : BitVec 64) (s : State) : Option State := do
  let s := { s with interruptFlag := false }
  let s := s.setDefaultSink s.debugSink
  let screen ← Prog.run fbExec (fbClearScreen ⟨235#8, 52#8, 76#8⟩) s.screen
  let s := { s with screen := screen.2 }
  let s ← s.kprintf strings (cstr "\n--- KERNEL PANIC ---\n") []
  let s ← s.kvprintf strings string args
  let s ← s.kprintf strings (cstr "\n") []
  let s ← s.kprintf strings (cstr "Stack trace:\n") []
  let s ← stackTrace strings 16 0 rbp s
  s.kprintf strings (cstr "--------------------\n") []

/-- How `klogf` ends. -/
inductive Outcome where
  | returns (s : State)
  | halts (s : State)

/-- The label of a message is printed as a format. -/
def klogf (strings : Strings) (level : Level) (string : List (BitVec 8)) (args : List (BitVec 64))
    (rbp : BitVec 64) (s : State) : Option Outcome :=
  if level.value < s.currentLevel.value then
    some (.returns s)
  else if level = .panic then
    (panic strings string args rbp s).map .halts
  else if s.debugSink < 0 then
    some (.returns s)
  else do
    let prevSink := kprintfGetDefaultSink s.console
    let s := s.setDefaultSink s.debugSink
    let s ← s.kprintf strings (cstr (logLabels level)) []
    let s ← s.kvprintf strings string args
    let s ← s.kprintf strings (cstr "\n") []
    some (.returns (s.setDefaultSink prevSink))

/-! ### The console over the serial line -/

/-- A registered callback, with a bound on its polling. -/
def callSink (polls : Nat) : ConsoleSink → BitVec 8 → SerialProg Bool
  | .serialSinkWrite, ch => serialSinkWrite polls ch
  | .debugSinkWrite, ch => debugSinkWrite polls ch

/-- The calls the console has made of its callbacks, one after another; `none` while one still
polls. -/
def callSinks (base : BitVec 16) (polls : Nat) :
    List (ConsoleSink × BitVec 8) → SerialLine → Option SerialLine
  | [], l => some l
  | (callback, ch) :: calls, l =>
      match Prog.run (lineExec base) (callSink polls callback ch) l with
      | some (true, l) => callSinks base polls calls l
      | _ => none

end RainstormOs.Klog
