import RainstormOs.Proof.Klog
import RainstormOs.Proof.Serial

/-!
# From the log to the line

The console's callbacks end in `serial_write`, which waits for the transmitter and gives it one
character. They touch nothing the console reads, so the characters of a call can be passed on when the
call is over. With a transmitter that is occupied for any length of time by each byte, and that loses
what is written to it meanwhile, the line still carries every character delivered since `serial_init`,
in order and once, whatever is registered, removed, printed and logged.
-/

namespace RainstormOs

/-! ### One character -/

section Line

variable {base : BitVec 16} {l : SerialLine}

/-- Set up, as `serial_init` leaves the port. -/
structure SerialLine.Online (base : BitVec 16) (l : SerialLine) : Prop where
  statics : l.statics = ⟨true, base⟩
  dlab : l.uart.dlab = false
  loopback : l.uart.loopback = false

/-- A byte taken by the transmitter. -/
def SerialLine.take (l : SerialLine) (val : BitVec 8) : SerialLine :=
  { l with
    uart := { l.uart with sent := l.uart.sent ++ [val] }
    busy := l.times 0
    times := fun n => l.times (n + 1) }

theorem serialLineStatusPort_sub : serialLineStatusPort base - base = 5#16 := port_sub_base base 5#16

theorem run_isTransmitEmpty (base : BitVec 16) (l : SerialLine) :
    ∃ status, Prog.run (lineExec base) (isTransmitEmpty base) l
        = some (status, { l with busy := l.busy - 1 })
      ∧ (status = 0#8 ↔ l.busy ≠ 0) := by
  refine ⟨l.lineStatus &&& 0x20#8, ?_, ?_⟩
  · change some ((l.read (serialLineStatusPort base - base)).1 &&& 0x20#8,
      (l.read (serialLineStatusPort base - base)).2) = _
    rw [serialLineStatusPort_sub]
    rfl
  · have hset : ∀ lsr : BitVec 8, (lsr ||| 0x20#8) &&& 0x20#8 ≠ 0#8 := by decide
    have hclear : ∀ lsr : BitVec 8, (lsr &&& 0xDF#8) &&& 0x20#8 = 0#8 := by decide
    rw [SerialLine.lineStatus]
    split
    · next hempty => exact iff_of_false (hset _) (not_not.mpr hempty)
    · next hbusy => exact iff_of_true (hclear _) hbusy

/-- The loop ends one poll after the transmitter is empty. -/
theorem run_awaitTransmitEmpty {polls : Nat} (h : l.busy < polls) :
    Prog.run (lineExec base) (awaitTransmitEmpty base polls) l = some (true, { l with busy := 0 }) := by
  induction polls generalizing l with
  | zero => omega
  | succ polls ih =>
      obtain ⟨status, hrun, hstatus⟩ := run_isTransmitEmpty base l
      rw [awaitTransmitEmpty, Prog.run_bind, hrun, Option.bind_some]
      by_cases hbusy : l.busy = 0
      · rw [if_neg (fun hzero => hstatus.mp hzero hbusy), hbusy]
        rfl
      · rw [if_pos (hstatus.mpr hbusy), ih (by change l.busy - 1 < polls; omega)]

theorem run_serialWrite (h : l.Online base) {polls : Nat} (hpolls : l.busy < polls)
    (ch : BitVec 8) : Prog.run (lineExec base) (serialWrite polls ch) l = some (true, l.take ch) := by
  have hwrite : ({ l with busy := 0 }).write 0#16 ch = l.take ch := by
    have hsent : l.uart.write 0#16 ch = { l.uart with sent := l.uart.sent ++ [ch] } := by
      rw [Uart.write_data h.dlab, Uart.transmit, h.loopback]
      rfl
    rw [SerialLine.write, if_pos ⟨rfl, h.dlab⟩, if_pos rfl, hsent, SerialLine.take]
  have hstatics : Prog.run (lineExec base) getStatics l = some (⟨true, base⟩, l) := by
    rw [← h.statics]
    rfl
  rw [serialWrite, Prog.run_bind, hstatics, Option.bind_some, if_neg Bool.noConfusion]
  rw [Prog.run_bind, run_awaitTransmitEmpty hpolls, Option.bind_some, if_pos rfl, Prog.run_bind]
  change some (true, ({ l with busy := 0 }).write (serialDataPort base - base) ch) = _
  rw [serialDataPort_sub, hwrite]

theorem SerialLine.Online.take (h : l.Online base) (val : BitVec 8) : (l.take val).Online base :=
  ⟨h.statics, h.dlab, h.loopback⟩

/-! ### Setting the port up -/

theorem SerialLine.write_line (l : SerialLine) (val : BitVec 8) :
    l.write 3#16 val = { l with uart := { l.uart with lcr := val } } := rfl

theorem SerialLine.write_modem (l : SerialLine) (val : BitVec 8) :
    l.write 4#16 val = { l with uart := { l.uart with mcr := val } } := rfl

theorem SerialLine.write_fifo {val : BitVec 8} (h : val.getLsbD 2 = true) (l : SerialLine) :
    l.write 2#16 val = { l with uart := { l.uart with fcr := val }, busy := 0 } := by
  rw [SerialLine.write, if_neg (fun hdata => absurd hdata.1 (by decide)), if_pos ⟨rfl, h⟩]
  rfl

theorem SerialLine.write_latch (h : l.uart.dlab = true) (val : BitVec 8) :
    l.write 0#16 val = { l with uart := { l.uart with dll := val } } := by
  rw [SerialLine.write, if_neg (by simp [h]), if_neg (fun hfifo => absurd hfifo.1 (by decide)),
    Uart.write_data_of_dlab h]

/-- In loopback the byte comes back. -/
theorem SerialLine.write_loopback (hdlab : l.uart.dlab = false) (hloop : l.uart.loopback = true)
    (hempty : l.busy = 0) (val : BitVec 8) :
    l.write 0#16 val
      = { l with
          uart := { l.uart with rbr := val }
          busy := l.times 0
          times := fun n => l.times (n + 1) } := by
  rw [SerialLine.write, if_pos ⟨rfl, hdlab⟩, if_pos hempty, Uart.write_data hdlab,
    Uart.transmit_of_loopback hloop]

theorem run_line_outb (base port : BitVec 16) (val : BitVec 8) (l : SerialLine) :
    Prog.run (lineExec base) (outb port val) l = some ((), l.write (port - base) val) := rfl

theorem run_line_inb_data (h : l.uart.dlab = false) :
    Prog.run (lineExec base) (inb (serialDataPort base)) l = some (l.uart.rbr, l) := by
  change some (l.read (serialDataPort base - base)) = _
  rw [serialDataPort_sub, ← Uart.read_data h]
  rfl

theorem run_line_getStatics (base : BitVec 16) (l : SerialLine) :
    Prog.run (lineExec base) getStatics l = some (l.statics, l) := rfl

theorem run_line_serialConfigureBaudRate (base divisor : BitVec 16) (l : SerialLine) :
    Prog.run (lineExec base) (serialConfigureBaudRate base divisor) l
      = some ((), { l with
          uart := { l.uart with
            lcr := serialLineEnableDlab
            dll := divisor.setWidth 8 &&& 0xFF#8 } }) := by
  have hopen : serialLineEnableDlab.getLsbD 7 = true := by decide
  simp only [serialConfigureBaudRate, Prog.run_bind, run_line_outb, Option.bind_some,
    serialLineCommandPort_sub, serialDataPort_sub, SerialLine.write_line]
  have hlatch : ∀ low val : BitVec 8,
      ({ l with uart := { l.uart with lcr := serialLineEnableDlab, dll := low } }).write 0#16 val
        = { l with uart := { l.uart with lcr := serialLineEnableDlab, dll := val } } :=
    fun _ => SerialLine.write_latch hopen
  rw [hlatch l.uart.dll, hlatch]

/-- `serial_init` on a port with a UART: set up, and nothing on the line. -/
theorem run_serialInitPort_line (hfresh : l.statics.isInitialied = false) :
    ∃ l', Prog.run (lineExec base) (serialInitPort base) l = some (some 0xAE#8, l')
      ∧ l'.Online base ∧ l'.uart.sent = l.uart.sent := by
  have hclosed : (0x03#8).getLsbD 7 = false := by decide
  have hloop : (0x16#8).getLsbD 4 = true := by decide
  have hempties : (0xC7#8).getLsbD 2 = true := by decide
  refine ⟨{ statics := ⟨true, base⟩
            uart := { l.uart with
              dll := (3#16).setWidth 8 &&& 0xFF#8, lcr := 0x03#8, fcr := 0xC7#8, mcr := 0x7#8, rbr := 0xAE#8 }
            busy := l.times 0
            times := fun n => l.times (n + 1) }, ?_, ⟨rfl, hclosed, ?_⟩, rfl⟩
  · simp only [serialInitPort, Prog.run_bind, run_line_getStatics, Option.bind_some, hfresh,
      Bool.false_eq_true, if_false, run_line_serialConfigureBaudRate, run_line_outb,
      serialLineCommandPort_sub, serialModemCommandPort_sub, serialFifoCommandPort_sub,
      SerialLine.write_line, SerialLine.write_fifo hempties, SerialLine.write_modem]
    rw [serialDataPort_sub, SerialLine.write_loopback, run_line_inb_data]
    · rw [Option.bind_some, if_neg (not_not.mpr rfl), Prog.run_bind, run_line_outb,
        serialModemCommandPort_sub, SerialLine.write_modem]
      rfl
    · exact hclosed
    · exact hclosed
    · exact hloop
    · rfl
  · change (0x7#8).getLsbD 4 = false
    decide

end Line

end RainstormOs

namespace RainstormOs.Klog

open Printf

/-! ### Characters in a row -/

section Calls

variable {base : BitVec 16} {l : SerialLine}

/-- Both callbacks write to the line. -/
theorem run_callSink (h : l.Online base) {polls : Nat} (hpolls : l.busy < polls)
    (callback : ConsoleSink) (ch : BitVec 8) :
    Prog.run (lineExec base) (callSink polls callback ch) l = some (true, l.take ch) := by
  have hstatics : Prog.run (lineExec base) getStatics l = some (⟨true, base⟩, l) := by
    rw [← h.statics]
    rfl
  cases callback with
  | serialSinkWrite =>
      rw [callSink, serialSinkWrite, Prog.run_bind, hstatics, Option.bind_some,
        if_neg Bool.noConfusion]
      exact run_serialWrite h hpolls ch
  | debugSinkWrite => exact run_serialWrite h hpolls ch

/-- Before the port is set up they do nothing. -/
theorem run_callSink_offline (h : l.statics.isInitialied = false) (polls : Nat)
    (callback : ConsoleSink) (ch : BitVec 8) :
    Prog.run (lineExec base) (callSink polls callback ch) l = some (true, l) := by
  cases callback with
  | serialSinkWrite =>
      rw [callSink, serialSinkWrite, Prog.run_bind, run_line_getStatics, Option.bind_some, if_pos h]
      rfl
  | debugSinkWrite =>
      rw [callSink, debugSinkWrite, serialWrite, Prog.run_bind, run_line_getStatics, Option.bind_some,
        if_pos h]
      rfl

theorem exists_callSinks (h : l.Online base) (calls : List (ConsoleSink × BitVec 8)) :
    ∃ bound l', (∀ polls, bound ≤ polls → callSinks base polls calls l = some l') ∧ l'.Online base
      ∧ l'.uart.sent = l.uart.sent ++ calls.map Prod.snd := by
  induction calls generalizing l with
  | nil => exact ⟨0, l, fun _ _ => rfl, h, by rw [List.map_nil, List.append_nil]⟩
  | cons call calls ih =>
      obtain ⟨callback, ch⟩ := call
      obtain ⟨bound, l', hrest, honline, hsent⟩ := ih (h.take ch)
      refine ⟨max bound (l.busy + 1), l', fun polls hpolls => ?_, honline, ?_⟩
      · have hbusy : l.busy < polls := by omega
        rw [callSinks, run_callSink h hbusy]
        exact hrest polls (by omega)
      · rw [hsent, List.map_cons]
        change l.uart.sent ++ [ch] ++ _ = _
        rw [List.append_assoc]
        rfl

theorem callSinks_offline (h : l.statics.isInitialied = false) (polls : Nat)
    (calls : List (ConsoleSink × BitVec 8)) : callSinks base polls calls l = some l := by
  induction calls with
  | nil => rfl
  | cons call calls ih =>
      obtain ⟨callback, ch⟩ := call
      rw [callSinks, run_callSink_offline h]
      exact ih

end Calls

/-! ### The system -/

/-- What clients of the console call, the set-up of the port among it. -/
inductive ConsoleCall where
  | serialInit
  | log (call : LogCall)

/-- The log and the line. -/
structure Terminal where
  log : State
  line : SerialLine

def ConsoleCall.exec (strings : Strings) (rbp : BitVec 64) (base : BitVec 16) (polls : Nat)
    (s : Terminal) : ConsoleCall → Option Terminal
  | .serialInit => do
      let (echo, line) ← Prog.run (lineExec base) (serialInitPort base) s.line
      match echo with
      | none => some { s with line := line }
      | some echo =>
          let (_, sinks) ← Prog.run sinkExec (RainstormOs.serialInit echo) s.log.console.sinks
          some ⟨{ s.log with console := { s.log.console with sinks := sinks } }, line⟩
  | .log call => do
      let log ← call.exec strings rbp s.log
      let made := log.console.sinks.calls.drop s.log.console.sinks.calls.length
      let line ← callSinks base polls made s.line
      some ⟨log, line⟩

/-- The journal, and what has gone out since the port was set up. -/
structure Transcript where
  journal : Journal
  online : Bool
  sent : List (BitVec 8)

def Transcript.step (strings : Strings) (t : Transcript) : ConsoleCall → Option Transcript
  | .serialInit =>
      if t.online then
        some t
      else
        some { t with journal := (t.journal.register (some .serialSinkWrite)).2, online := true }
  | .log call =>
      (t.journal.step strings call).map fun j => { t with
        journal := j
        sent := if t.online then t.sent ++ (j.delivered.drop t.journal.delivered.length).map Prod.snd
          else t.sent }

def Transcript.Allows (t : Transcript) : ConsoleCall → Prop
  | .serialInit => True
  | .log call => t.journal.Allows call

def Transcript.AllowsAll (strings : Strings) : Transcript → List ConsoleCall → Prop
  | _, [] => True
  | t, call :: calls =>
      t.Allows call ∧ ∀ t', t.step strings call = some t' → AllowsAll strings t' calls

structure Carries (base : BitVec 16) (t : Transcript) (s : Terminal) : Prop where
  log : Follows t.journal s.log
  line : if t.online then s.line.Online base else s.line.statics.isInitialied = false
  sent : s.line.uart.sent = t.sent

section System

variable {strings : Strings} {base : BitVec 16} {t t' : Transcript} {s : Terminal}

theorem Carries.serialInit (h : Carries base t s) (rbp : BitVec 64)
    (hstep : t.step strings .serialInit = some t') :
    ∃ s', (∀ polls, ConsoleCall.exec strings rbp base polls s .serialInit = some s')
      ∧ Carries base t' s' := by
  rw [Transcript.step] at hstep
  have hline := h.line
  cases honline : t.online with
  | true =>
      rw [honline, if_pos rfl] at hstep hline
      obtain rfl := Option.some.inj hstep
      refine ⟨s, fun polls => ?_, h⟩
      have hrun : Prog.run (lineExec base) (serialInitPort base) s.line = some (none, s.line) := by
        rw [serialInitPort, Prog.run_bind, run_line_getStatics, Option.bind_some, hline.statics]
        rfl
      rw [ConsoleCall.exec, hrun]
      rfl
  | false =>
      rw [honline, if_neg Bool.noConfusion] at hstep hline
      obtain rfl := Option.some.inj hstep
      obtain ⟨line, hrun, hset, hsent⟩ := run_serialInitPort_line hline
      obtain ⟨id, sinks, hregister, -, hfollows⟩ := h.log.sinkRegister (some .serialSinkWrite)
      refine ⟨⟨{ s.log with console := { s.log.console with sinks := sinks } }, line⟩,
        fun polls => ?_, hfollows, hset, hsent.trans h.sent⟩
      have hsinks : Prog.run sinkExec (RainstormOs.serialInit 0xAE#8) s.log.console.sinks
          = some (id, sinks) := by
        rw [RainstormOs.serialInit, if_neg (not_not.mpr rfl), hregister]
      rw [ConsoleCall.exec, hrun]
      simp only [Option.bind_eq_bind, Option.bind_some, hsinks]

theorem Carries.log_call (h : Carries base t s) (rbp : BitVec 64) {call : LogCall}
    (hallows : t.journal.Allows call) (hstep : t.step strings (.log call) = some t') :
    ∃ bound s', (∀ polls, bound ≤ polls →
        ConsoleCall.exec strings rbp base polls s (.log call) = some s')
      ∧ Carries base t' s' := by
  obtain ⟨j, hjournal, rfl⟩ := Option.map_eq_some_iff.mp hstep
  obtain ⟨log, hexec, hfollows⟩ := h.log.step rbp hallows hjournal
  have hmade : log.console.sinks.calls.drop s.log.console.sinks.calls.length
      = j.delivered.drop t.journal.delivered.length := by
    rw [hfollows.delivered, h.log.delivered]
  have hline := h.line
  cases honline : t.online with
  | true =>
      rw [honline, if_pos rfl] at hline
      obtain ⟨bound, line, hcalls, hset, hsent⟩ :=
        exists_callSinks hline (j.delivered.drop t.journal.delivered.length)
      refine ⟨bound, ⟨log, line⟩, fun polls hpolls => ?_, hfollows, ?_, ?_⟩
      · rw [ConsoleCall.exec, hexec]
        simp only [Option.bind_eq_bind, Option.bind_some, hmade, hcalls polls hpolls]
      · simp only [if_true]
        exact hset
      · simp only [if_true]
        rw [hsent, h.sent]
  | false =>
      rw [honline, if_neg Bool.noConfusion] at hline
      refine ⟨0, ⟨log, s.line⟩, fun polls _ => ?_, hfollows, ?_, ?_⟩
      · rw [ConsoleCall.exec, hexec]
        simp only [Option.bind_eq_bind, Option.bind_some, callSinks_offline hline]
      · simp only [Bool.false_eq_true, if_false]
        exact hline
      · simp only [Bool.false_eq_true, if_false]
        exact h.sent

theorem Carries.step (h : Carries base t s) (rbp : BitVec 64) {call : ConsoleCall}
    (hallows : t.Allows call) (hstep : t.step strings call = some t') :
    ∃ bound s', (∀ polls, bound ≤ polls → call.exec strings rbp base polls s = some s')
      ∧ Carries base t' s' := by
  cases call with
  | serialInit =>
      obtain ⟨s', hexec, hcarries⟩ := h.serialInit rbp hstep
      exact ⟨0, s', fun polls _ => hexec polls, hcarries⟩
  | log call => exact h.log_call rbp hallows hstep

theorem Carries.run (h : Carries base t s) (rbp : BitVec 64) {calls : List ConsoleCall}
    (hallows : Transcript.AllowsAll strings t calls)
    (hrun : calls.foldlM (Transcript.step strings) t = some t') :
    ∃ bound s', (∀ polls, bound ≤ polls →
        calls.foldlM (ConsoleCall.exec strings rbp base polls) s = some s')
      ∧ Carries base t' s' := by
  induction calls generalizing t s with
  | nil =>
      obtain rfl := Option.some.inj hrun
      exact ⟨0, s, fun _ _ => rfl, h⟩
  | cons call calls ih =>
      obtain ⟨t₁, hstep, hrest⟩ := Option.bind_eq_some_iff.mp hrun
      obtain ⟨bound₁, s₁, hexec, h₁⟩ := h.step rbp hallows.1 hstep
      obtain ⟨bound, s', hexecs, h'⟩ := ih h₁ (hallows.2 t₁ hstep) hrest
      refine ⟨max bound₁ bound, s', fun polls hpolls => ?_, h'⟩
      rw [List.foldlM_cons, hexec polls (by omega)]
      exact hexecs polls (by omega)

end System

/-- The statics as the loader leaves them, and a UART in any state. -/
structure Terminal.IsBoot (s : Terminal) : Prop where
  level : s.log.currentLevel = .info
  debugSink : s.log.debugSink = -1
  defaultSink : s.log.console.defaultSink = -1
  sinks : s.log.console.sinks.IsBoot
  calls : s.log.console.sinks.calls = []
  offline : s.line.statics.isInitialied = false

def Journal.boot : Journal := ⟨fun _ => none, 0, -1, .info, none, []⟩

def Transcript.boot (sent : List (BitVec 8)) : Transcript := ⟨.boot, false, sent⟩

theorem Terminal.IsBoot.carries {s : Terminal} (h : s.IsBoot) (base : BitVec 16) :
    Carries base (.boot s.line.uart.sent) s where
  log := by
    refine ⟨⟨[], h.sinks.inv, rfl, ?_⟩, h.defaultSink, h.level, h.debugSink, ?_, h.calls⟩
    · rw [h.sinks.currIdx]
      rfl
    · intro id hid
      cases hid
  line := h.offline
  sent := rfl

/-- After reset, each byte occupying the transmitter longer than the one before. -/
def bootTerminal : Terminal where
  log := ⟨.info, -1, ⟨-1, bootSinks⟩, ⟨⟨0#64, 0#64, 0#64, 0#64, false⟩, fun _ => 0#8⟩, true⟩
  line := ⟨⟨false, 0#16⟩, resetUart, 0, fun n => n⟩

end RainstormOs.Klog
