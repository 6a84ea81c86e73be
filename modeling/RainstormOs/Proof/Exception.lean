import RainstormOs.Proof.Dispatch
import RainstormOs.Proof.Panic

/-!
# Unhandled exceptions

An exception nobody handles ends the kernel, and what is left of it is what went out on the line: a
report of the registers at the time, and the panic's own. From the delivery of the exception through
the stub, `isr_handler`, `kprintf` and the serial driver, the numbers in it are those of the code that
was interrupted. For two vectors they are not, the ones whose error code the stubs do not know of.
-/

namespace RainstormOs

open Klog Printf

/-! ### The heading -/

def headingFormat : List Piece :=
  (chars "\n--- EXCEPTION: ").map .literal ++ .conv (bareConv .none (byte 's'))
    :: ((chars " (vector=0x").map .literal ++ .conv (bareConv .ll (byte 'x'))
      :: (chars ") ---\n").map .literal)

def headingText (name : String) (vector : BitVec 64) : List (BitVec 8) :=
  chars "\n--- EXCEPTION: " ++ (chars name ++ (chars " (vector=0x" ++ (hexText 0 vector
    ++ chars ") ---\n")))

theorem formatBytes_headingFormat :
    formatBytes headingFormat ++ [0#8] = cstr "\n--- EXCEPTION: %s (vector=0x%llx) ---\n" := by decide

theorem wellFormed_headingFormat : ∀ piece ∈ headingFormat, piece.WellFormed := by
  have hopen : Plain (chars "\n--- EXCEPTION: ") := by decide
  have hmiddle : Plain (chars " (vector=0x") := by decide
  have hclose : Plain (chars ") ---\n") := by decide
  intro piece hpiece
  simp only [headingFormat, List.mem_append, List.mem_cons] at hpiece
  rcases hpiece with hpiece | rfl | hpiece | rfl | hpiece
  · exact wellFormed_literals hopen piece hpiece
  · exact wellFormed_bareConv (by decide)
  · exact wellFormed_literals hmiddle piece hpiece
  · exact wellFormed_bareConv_ll _
  · exact wellFormed_literals hclose piece hpiece

/-- A string constant without zeros, where a pointer to it points. -/
structure PointsTo (strings : Strings) (ptr : BitVec 64) (text : String) : Prop where
  bytes : ∃ rest, strings.bytes ptr = cstr text ++ rest
  nonzero : ∀ ch ∈ chars text, ch ≠ 0#8

theorem PointsTo.cstring_eq {strings : Strings} {ptr : BitVec 64} {text : String}
    (h : PointsTo strings ptr text) :
    cstring (strings.bytes ptr) = chars text
      ∧ (cstring (strings.bytes ptr)).length < (strings.bytes ptr).length := by
  obtain ⟨rest, hbytes⟩ := h.bytes
  have hcut : cstring (strings.bytes ptr) = chars text := by
    rw [hbytes, cstr, List.append_assoc, cstring, List.takeWhile_append_of_pos]
    · simp
    · intro ch hch
      exact decide_eq_true (h.nonzero ch hch)
  refine ⟨hcut, ?_⟩
  rw [hcut, hbytes, cstr]
  simp

theorem text_percent_s {strings : Strings} {ptr : BitVec 64} {text : String}
    (h : PointsTo strings ptr text) (va : List (BitVec 64)) :
    Piece.text strings (.conv (bareConv .none (byte 's'))) (ptr :: va) = some (chars text, va) := by
  obtain ⟨hcut, hread⟩ := h.cstring_eq
  have hreadable : StringReadable ⟨{}, 0#32, 0#32, [], ptr :: va⟩ (strings.bytes ptr) :=
    Or.inl hread
  have hstring : stringText ⟨{}, 0#32, 0#32, [], ptr :: va⟩ (strings.bytes ptr)
      = some (chars text) := by
    rw [stringText, if_pos hreadable]
    simp [stringShown, fieldText, spaces, hcut]
  change (stringText ⟨{}, 0#32, 0#32, [], ptr :: va⟩ (strings.bytes ptr)).map (fun text => (text, va))
    = _
  rw [hstring]
  rfl

theorem text_percent_llx (strings : Strings) (vector : BitVec 64) (va : List (BitVec 64)) :
    Piece.text strings (.conv (bareConv .ll (byte 'x'))) (vector :: va)
      = some (hexText 0 vector, va) := by
  have htext := integerText_hex (Or.inr rfl : false = true ∨ 0#32 = 0#32) (by decide) (vector :: va)
    vector
  exact congrArg (fun text => some (text, va)) htext

theorem formatText_headingFormat {strings : Strings} {ptr : BitVec 64} {name : String}
    (h : PointsTo strings ptr name) (vector : BitVec 64) :
    formatText strings headingFormat [ptr, vector] = some (headingText name vector) := by
  rw [headingFormat, formatText_literals_append, formatText, text_percent_s h]
  simp only [Option.bind_eq_bind, Option.bind_some, formatText_literals_append]
  rw [formatText, text_percent_llx]
  simp only [Option.bind_eq_bind, Option.bind_some, formatText_literals, Option.map_some]
  rfl

/-! ### The registers -/

def wideFields (labels : List String) : List HexField := labels.map fun label => ⟨label, true⟩

def codeFields : List HexField := wideFields ["RIP=0x", "  RSP=0x", "  RBP=0x"]

def dataFields : List HexField := wideFields ["RAX=0x", "  RBX=0x", "  RCX=0x", "  RDX=0x"]

def indexFields : List HexField := wideFields ["RSI=0x", "  RDI=0x"]

def lowFields : List HexField := wideFields ["R8 =0x", "  R9 =0x", "  R10=0x", "  R11=0x"]

def highFields : List HexField := wideFields ["R12=0x", "  R13=0x", "  R14=0x", "  R15=0x"]

def segmentFields : List HexField := [⟨"CS =0x", false⟩, ⟨"  SS =0x", false⟩, ⟨"  RFLAGS=0x", true⟩]

def faultFields : List HexField := wideFields ["CR2=0x", "  ERR=0x"]

/-- The report of an exception. -/
def exceptionText (name : String) (cr2 : BitVec 64) (regs : Registers) : List (BitVec 8) :=
  headingText name regs.interruptNum
    ++ hexLine (codeFields.zip [regs.rip, regs.rsp, regs.rbp])
    ++ hexLine (dataFields.zip [regs.rax, regs.rbx, regs.rcx, regs.rdx])
    ++ hexLine (indexFields.zip [regs.rsi, regs.rdi])
    ++ hexLine (lowFields.zip [regs.r8, regs.r9, regs.r10, regs.r11])
    ++ hexLine (highFields.zip [regs.r12, regs.r13, regs.r14, regs.r15])
    ++ hexLine (segmentFields.zip [regs.cs, regs.ss, regs.rflags])
    ++ hexLine (faultFields.zip [cr2, regs.errorCode])

/-- The lines below the heading, with their formats. -/
def reportLines : List (List HexField × String) :=
  [(codeFields, "RIP=0x%016llx  RSP=0x%016llx  RBP=0x%016llx\n"),
    (dataFields, "RAX=0x%016llx  RBX=0x%016llx  RCX=0x%016llx  RDX=0x%016llx\n"),
    (indexFields, "RSI=0x%016llx  RDI=0x%016llx\n"),
    (lowFields, "R8 =0x%016llx  R9 =0x%016llx  R10=0x%016llx  R11=0x%016llx\n"),
    (highFields, "R12=0x%016llx  R13=0x%016llx  R14=0x%016llx  R15=0x%016llx\n"),
    (segmentFields, "CS =0x%04llx  SS =0x%04llx  RFLAGS=0x%016llx\n"),
    (faultFields, "CR2=0x%016llx  ERR=0x%016llx\n")]

theorem formatBytes_reportLines : ∀ line ∈ reportLines,
    formatBytes (hexFormat line.1) ++ [0#8] = cstr line.2
      ∧ ∀ field ∈ line.1, Plain (chars field.label) := by
  decide +kernel

theorem kprintf_reportLine (strings : Strings) {i : Nat} {labels : List HexField} {format : String}
    {values : List (BitVec 64)} (hline : reportLines[i]? = some (labels, format))
    (hlength : labels.length = values.length) (s : Klog.State) :
    s.kprintf strings (cstr format) values
      = some { s with console := s.console.deliver (hexLine (labels.zip values)) } := by
  obtain ⟨hformat, hplain⟩ := formatBytes_reportLines _ (List.mem_of_getElem? hline)
  exact kprintf_hexLine strings hplain hlength hformat s

theorem exceptionDump_eq {Fn : Type} {env : IsrEnv Fn} {regs : Registers} {name : String}
    (h : PointsTo env.strings (env.exceptionPtr regs.interruptNum) name) (s : Klog.State) :
    exceptionDump env regs s
      = some { s with console := s.console.deliver (exceptionText name env.cr2 regs) } := by
  have hheading : ∀ s : Klog.State, s.kprintf env.strings
      (cstr "\n--- EXCEPTION: %s (vector=0x%llx) ---\n")
      [env.exceptionPtr regs.interruptNum, regs.interruptNum]
        = some { s with console := s.console.deliver (headingText name regs.interruptNum) } := by
    intro s
    rw [← formatBytes_headingFormat]
    exact kvprintf_of_pieces wellFormed_headingFormat (formatText_headingFormat h _) s
  have hcode := @kprintf_reportLine env.strings 0 _ _ [regs.rip, regs.rsp, regs.rbp] rfl rfl
  have hdata := @kprintf_reportLine env.strings 1 _ _ [regs.rax, regs.rbx, regs.rcx, regs.rdx] rfl rfl
  have hindex := @kprintf_reportLine env.strings 2 _ _ [regs.rsi, regs.rdi] rfl rfl
  have hlow := @kprintf_reportLine env.strings 3 _ _ [regs.r8, regs.r9, regs.r10, regs.r11] rfl rfl
  have hhigh := @kprintf_reportLine env.strings 4 _ _ [regs.r12, regs.r13, regs.r14, regs.r15] rfl rfl
  have hsegment := @kprintf_reportLine env.strings 5 _ _ [regs.cs, regs.ss, regs.rflags] rfl rfl
  have hfault := @kprintf_reportLine env.strings 6 _ _ [env.cr2, regs.errorCode] rfl rfl
  rw [exceptionDump]
  simp only [hheading, hcode, hdata, hindex, hlow, hhigh, hsegment, hfault, Option.bind_eq_bind,
    Option.bind_some, exceptionText, Console.deliver_append]

/-! ### From the processor to the line -/

section Report

variable {Fn : Type} {env : IsrEnv Fn} {s : IsrTerminal Fn}

/-- `isr_handler` for an exception without a handler. -/
theorem isrHandler_fatal {regs : Registers} (hvector : regs.vector < 0x20#8)
    (hnone : s.isr.handlers regs.vector = none) {name : String}
    (hname : PointsTo env.strings (env.exceptionPtr regs.interruptNum) name)
    (hfits : s.isr.log.screen.framebuffer.isReady = true → s.isr.log.screen.framebuffer.Fits)
    (hapart : StackApart s.isr.log.screen env.rbp) :
    ∃ painted, isrHandler env regs s.isr = some (.halts { s.isr with
      log := { s.isr.log with
        console :=
          ({ s.isr.log.console.deliver (exceptionText name env.cr2 regs) with
              defaultSink := s.isr.log.debugSink }).deliver
            (panicText s.isr.log.screen.mem env.rbp (chars "unhandled exception"))
        screen := painted
        interruptFlag := false } }) := by
  have hplain : Plain (chars "unhandled exception") := by decide
  have htext := formatText_literals env.strings (chars "unhandled exception") []
  obtain ⟨painted, hpanic, -⟩ := @klogf_panic env.strings _ _ _ (wellFormed_literals hplain) htext
    { s.isr.log with console := s.isr.log.console.deliver (exceptionText name env.cr2 regs) } hfits
    env.rbp hapart
  rw [formatBytes_literals] at hpanic
  refine ⟨painted, ?_⟩
  change s.isr.handlers (regs.interruptNum.setWidth 8) = none at hnone
  have hfatal : ¬ regs.interruptNum.setWidth 8 ≥ 0x20#8 := BitVec.not_le.mpr hvector
  rw [isrHandler, hnone]
  simp only [if_neg hfatal, exceptionDump_eq hname, Option.bind_eq_bind, Option.bind_some]
  refine (congrArg (Option.map (s.isr.logged regs)) hpanic).trans ?_
  rfl

/-- **Exceptions are reported.** An exception without a handler, in any state the console can be in:
the frame the stub shows to `isr_handler` is the interrupted context's, the handler does not return,
and behind everything the line has carried so far it carries the report of that context, and then the
panic's. -/
theorem exception_reaches_line {base : BitVec 16} {t : Transcript} (h : Carries base t s.terminal)
    (honline : t.online = true) {out callback : ConsoleSink} {id : Int}
    (hdefault : 0 ≤ t.journal.defaultSink)
    (hout : t.journal.sinks t.journal.defaultSink = some out)
    (hdebug : t.journal.debugSink = some id) (hsink : t.journal.sinks id = some callback)
    (hnames : ∀ i name, exceptions[i]? = some name →
      PointsTo env.strings (env.exceptionPtr (BitVec.ofNat 64 i)) name)
    (hfits : s.isr.log.screen.framebuffer.isReady = true → s.isr.log.screen.framebuffer.Fits)
    (hapart : StackApart s.isr.log.screen env.rbp)
    {vector : BitVec 8} (hvector : vector < 0x20#8) (herror : vector ≠ 29#8 ∧ vector ≠ 30#8)
    (hnone : s.isr.handlers vector = none)
    (handler : Cpu → Cpu) (errorCode stack : BitVec 64) (context : Context) (mem : ByteMemory 64) :
    let regs := context.registers (vector.setWidth 64)
      (if pushesErrorCode vector then errorCode else 0#64)
    ∃ cpu name s' bound line,
      atCall handler (isr vector) (deliver vector errorCode stack context mem) = some cpu
      ∧ exceptions[vector.toNat]? = some name
      ∧ isrHandler env (Registers.read cpu.mem (cpu.general .rdi)) s.isr = some (.halts s')
      ∧ s'.calls = s.isr.calls
      ∧ s'.log.interruptFlag = false
      ∧ (∀ polls, bound ≤ polls → callSinks base polls
          (s'.log.console.sinks.calls.drop s.isr.log.console.sinks.calls.length) s.line = some line)
      ∧ line.uart.sent = t.sent ++ (exceptionText name env.cr2 regs
          ++ panicText s.isr.log.screen.mem env.rbp (chars "unhandled exception")).filter (· ≠ 0#8) := by
  intro regs
  have hagree := (withError_eq_pushesErrorCode_iff vector).mpr herror
  have hgeneral : ((deliver vector errorCode stack context mem).stub vector).general
      = context.general := by
    rw [Cpu.stub_general, deliver_general]
  set cpu := ((deliver vector errorCode stack context mem).stub vector).atHandler with hcpu
  have hframe : Registers.read cpu.mem (cpu.general .rdi) = regs := by
    rw [hcpu, Cpu.atHandler_rdi]
    exact read_atHandler hgeneral (holds_stub hagree errorCode stack context mem)
      (Nat.zero_lt_succ _)
  have hvalue : regs.vector = vector := by
    change (vector.setWidth 64).setWidth 8 = vector
    rw [BitVec.setWidth_setWidth_of_le vector (by decide), BitVec.setWidth_eq]
  have hindex : vector.toNat < exceptions.length := hvector
  have hname := hnames vector.toNat _ (List.getElem?_eq_getElem hindex)
  rw [BitVec.ofNat_toNat] at hname
  obtain ⟨painted, hfatal⟩ := isrHandler_fatal (hvalue ▸ hvector) (hvalue ▸ hnone) hname hfits hapart
  have hlog : Follows t.journal s.isr.log := h.log
  have hline := h.line
  rw [honline, if_pos rfl] at hline
  obtain ⟨bound, line, hcalls, -, hsent⟩ := exists_callSinks hline
    (deliveries (some out) (exceptionText exceptions[vector.toNat] env.cr2 regs)
      ++ deliveries (some callback)
        (panicText s.isr.log.screen.mem env.rbp (chars "unhandled exception")))
  refine ⟨cpu, _, _, bound, line, atCall_isr vector _, List.getElem?_eq_getElem hindex,
    (congrArg (fun frame => isrHandler env frame s.isr) hframe).trans hfatal, rfl, rfl,
    fun polls hpolls => ?_, ?_⟩
  · have hfirst : listener s.isr.log.console.sinks s.isr.log.console.defaultSink = some out := by
      rw [hlog.defaultSink, hlog.listener_eq hdefault, hout]
    have hsecond : listener s.isr.log.console.sinks s.isr.log.debugSink = some callback := by
      rw [hlog.listener_debugSink hdebug, hsink]
    rw [← hcalls polls hpolls, ← hfirst, ← hsecond]
    refine congrArg (fun calls => callSinks base polls calls s.line) ?_
    change ((s.isr.log.console.sinks.calls ++ _) ++ _).drop _ = _
    rw [List.append_assoc, List.drop_left]
    rfl
  · rw [hsent, List.map_append, map_snd_deliveries, map_snd_deliveries, List.filter_append]
    exact congrArg (· ++ _) h.sent

end Report

/-- The names of the exceptions at the addresses from zero on. -/
def exceptionStrings : Strings where
  bytes ptr := cstr (exceptions.getD ptr.toNat "")
  length_lt ptr := by
    have hall : ∀ name ∈ "" :: exceptions, (cstr name).length < 2 ^ 64 := by decide +kernel
    refine hall _ ?_
    rw [List.getD_eq_getElem?_getD]
    cases hname : exceptions[ptr.toNat]? with
    | none => exact List.mem_cons_self
    | some name => exact List.mem_cons_of_mem _ (List.mem_of_getElem? hname)

def faultEnv : IsrEnv Unit := ⟨exceptionStrings, fun num => num, fun _ regs => regs, 0xDEAD#64, 0#64⟩

/-- The console as `kmain` sets it up. -/
def kmainCalls : List ConsoleCall := [.serialInit, .log (.setDefaultSink 0), .log (.setLevel .debug)]

/-- A page fault in the kernel. -/
theorem exception_reaches_line_pageFault :
    ∃ (s : Terminal) (cpu : Cpu) (s' : IsrState Unit) (bound : Nat) (line : SerialLine),
      kmainCalls.foldlM (ConsoleCall.exec exceptionStrings 0#64 0x3F8#16 0) bootTerminal = some s
      ∧ atCall (fun cpu => cpu) (isr 14#8) (deliver 14#8 2#64 0x9000#64 interruptedKernel fun _ => 0#8)
          = some cpu
      ∧ isrHandler faultEnv (Registers.read cpu.mem (cpu.general .rdi)) ⟨fun _ => none, [], s.log⟩
          = some (.halts s')
      ∧ (∀ polls, bound ≤ polls → callSinks 0x3F8#16 polls
          (s'.log.console.sinks.calls.drop s.log.console.sinks.calls.length) s.line = some line)
      ∧ line.uart.sent = (exceptionText "Page Fault" 0xDEAD#64 (interruptedKernel.registers 14#64 2#64)
          ++ panicText (fun _ => 0#8) 0#64 (chars "unhandled exception")).filter (· ≠ 0#8) := by
  have hboot : bootTerminal.IsBoot := ⟨rfl, rfl, rfl, bootSinks_isBoot, rfl, rfl⟩
  have hallows : Transcript.AllowsAll exceptionStrings (.boot []) kmainCalls :=
    ⟨trivial, fun _ _ => ⟨trivial, fun _ _ => ⟨trivial, fun _ _ => trivial⟩⟩⟩
  obtain ⟨bound, s, hexec, hcarries⟩ := (hboot.carries 0x3F8#16).run 0#64 hallows rfl
  obtain ⟨s', hready, hscreen⟩ : ∃ s', (∀ polls,
      kmainCalls.foldlM (ConsoleCall.exec exceptionStrings 0#64 0x3F8#16 polls) bootTerminal = some s')
        ∧ s'.log.screen = bootTerminal.log.screen := ⟨_, fun _ => rfl, rfl⟩
  obtain rfl : s = s' := Option.some.inj ((hexec bound (Nat.le_refl _)).symm.trans (hready bound))
  have hnames : ∀ i name, exceptions[i]? = some name →
      PointsTo faultEnv.strings (faultEnv.exceptionPtr (BitVec.ofNat 64 i)) name := by
    intro i name hname
    have hi : i < 32 := (List.getElem?_eq_some_iff.mp hname).1
    have hplain : ∀ name ∈ exceptions, Plain (chars name) := by decide +kernel
    refine ⟨⟨[], ?_⟩, fun ch hch => (hplain name (List.mem_of_getElem? hname) ch hch).1⟩
    change cstr (exceptions.getD (BitVec.ofNat 64 i).toNat "") = cstr name ++ []
    rw [BitVec.toNat_ofNat, Nat.mod_eq_of_lt (by omega), List.getD_eq_getElem?_getD, hname,
      List.append_nil, Option.getD_some]
  have hnoFrame : s.log.screen.framebuffer.isReady = true → s.log.screen.framebuffer.Fits := by
    rw [hscreen]
    exact fun hready => absurd hready (by decide)
  have hapart : StackApart s.log.screen 0#64 := by
    rintro frame hframe
    exact absurd hframe List.not_mem_nil
  have hvector : 14#8 < 0x20#8 := by decide
  have herror : 14#8 ≠ 29#8 ∧ 14#8 ≠ 30#8 := by decide
  have hstart : Carries 0x3F8#16 _
      (IsrTerminal.ofTerminal (fun _ => (none : Option Unit)) [] s).terminal := hcarries
  obtain ⟨cpu, name, t, bound', line, hcall, hname, hfatal, -, -, hcalls, hsent⟩ :=
    exception_reaches_line hstart rfl (by decide) rfl rfl rfl hnames hnoFrame hapart hvector herror rfl
      (fun cpu => cpu) 2#64 0x9000#64 interruptedKernel fun _ => 0#8
  obtain rfl : "Page Fault" = name := Option.some.inj hname
  refine ⟨s, cpu, t, bound', line, hready 0, hcall, hfatal, hcalls, ?_⟩
  have hmem : (fun _ => 0#8) = s.log.screen.mem := by
    rw [hscreen]
    rfl
  rw [hmem]
  exact hsent

end RainstormOs
