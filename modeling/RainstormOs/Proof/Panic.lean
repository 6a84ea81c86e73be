import RainstormOs.Proof.Framebuffer
import RainstormOs.Proof.PrintfHex
import RainstormOs.Proof.SerialLine

/-!
# Panics

A panic is the one message that is never filtered and that does not return. What it leaves on the
line is the message and the return addresses of the first sixteen frames on the stack, whose memory
the painting of the screen must not have touched.
-/

namespace RainstormOs.Klog

open Printf

/-! ### The stack -/

/-- The frame pointers met from `rbp` on: each frame begins with the one of its caller. -/
def framePointers (mem : ByteMemory 64) : Nat → BitVec 64 → List (BitVec 64)
  | 0, _ => []
  | count + 1, rbp =>
      if rbp = 0#64 then [] else rbp :: framePointers mem count (mem.readWord rbp 8)

/-- What stands above a frame pointer. -/
def returnAddress (mem : ByteMemory 64) (rbp : BitVec 64) : BitVec 64 := mem.readWord (rbp + 8#64) 8

/-- Memory that agrees on the frames has the same frames. -/
theorem framePointers_congr {mem mem' : ByteMemory 64} {count : Nat} {rbp : BitVec 64}
    (h : ∀ frame ∈ framePointers mem count rbp, mem'.readWord frame 8 = mem.readWord frame 8) :
    framePointers mem' count rbp = framePointers mem count rbp := by
  induction count generalizing rbp with
  | zero => rfl
  | succ count ih =>
      rw [framePointers, framePointers]
      rw [framePointers] at h
      split
      · rfl
      · next hrbp =>
          rw [if_neg hrbp] at h
          rw [h rbp List.mem_cons_self, ih fun frame hframe => h frame (List.mem_cons_of_mem _ hframe)]

/-! ### One line of the trace -/

def traceLine (i : Nat) (address : BitVec 64) : List (BitVec 8) :=
  chars "  [" ++ (numeral false 10 i ++ hexLine [(⟨"] 0x", true⟩, address)])

def traceFormat : List Piece :=
  (chars "  [").map .literal
    ++ .conv (bareConv .none (byte 'd')) :: hexFormat [⟨"] 0x", true⟩]

theorem formatBytes_traceFormat : formatBytes traceFormat ++ [0#8] = cstr "  [%d] 0x%016llx\n" := by
  decide

theorem wellFormed_traceFormat : ∀ piece ∈ traceFormat, piece.WellFormed := by
  have hopen : Plain (chars "  [") := by decide
  have hlabel : ∀ field ∈ [HexField.mk "] 0x" true], Plain (chars field.label) := by decide
  intro piece hpiece
  rcases List.mem_append.mp hpiece with hpiece | hpiece
  · exact wellFormed_literals hopen piece hpiece
  · rcases List.mem_cons.mp hpiece with rfl | hpiece
    · exact wellFormed_bareConv (by decide)
    · exact wellFormed_hexFormat hlabel piece hpiece

theorem formatText_traceFormat (strings : Strings) {i : Nat} (hi : i < 2 ^ 31) (address : BitVec 64) :
    formatText strings traceFormat [BitVec.ofNat 64 i, address] = some (traceLine i address) := by
  have hindex : Piece.text strings (.conv (bareConv .none (byte 'd')))
      [BitVec.ofNat 64 i, address] = some (numeral false 10 i, [address]) := by
    rw [← integerText_index hi [BitVec.ofNat 64 i, address]]
    rfl
  have haddress : formatText strings (hexFormat [⟨"] 0x", true⟩]) [address] = _ :=
    formatText_hexFormat strings [(⟨"] 0x", true⟩, address)]
  rw [traceFormat, formatText_literals_append, formatText, hindex]
  simp only [Option.bind_eq_bind, Option.bind_some, haddress, Option.map_some]
  rfl

/-! ### The report -/

def traceText (mem : ByteMemory 64) : Nat → List (BitVec 64) → List (BitVec 8)
  | _, [] => []
  | i, frame :: frames => traceLine i (returnAddress mem frame) ++ traceText mem (i + 1) frames

theorem kprintf_trace (strings : Strings) {i : Nat} (hi : i < 2 ^ 31) (address : BitVec 64) (s : State) :
    s.kprintf strings (cstr "  [%d] 0x%016llx\n") [BitVec.ofNat 64 i, address]
      = some { s with console := s.console.deliver (traceLine i address) } := by
  rw [← formatBytes_traceFormat]
  exact kvprintf_of_pieces wellFormed_traceFormat (formatText_traceFormat strings hi address) s

theorem stackTrace_eq (strings : Strings) {rounds i : Nat} (hi : i + rounds < 2 ^ 31) (rbp : BitVec 64)
    (s : State) :
    stackTrace strings rounds i rbp s = some { s with
      console := s.console.deliver
        (traceText s.screen.mem i (framePointers s.screen.mem rounds rbp)) } := by
  induction rounds generalizing i rbp s with
  | zero => rw [stackTrace, framePointers, traceText, Console.deliver_nil]
  | succ rounds ih =>
      rw [stackTrace, framePointers]
      by_cases hrbp : rbp = 0#64
      · rw [if_pos hrbp, if_pos hrbp, traceText, Console.deliver_nil]
      · rw [if_neg hrbp, if_neg hrbp, kprintf_trace strings (by omega)]
        simp only [Option.bind_eq_bind, Option.bind_some]
        rw [ih (by omega), traceText, Console.deliver_append]
        rfl

theorem traceText_congr {mem mem' : ByteMemory 64} {frames : List (BitVec 64)} (i : Nat)
    (h : ∀ frame ∈ frames, returnAddress mem' frame = returnAddress mem frame) :
    traceText mem' i frames = traceText mem i frames := by
  induction frames generalizing i with
  | nil => rfl
  | cons frame frames ih =>
      rw [traceText, traceText, h frame List.mem_cons_self,
        ih (i + 1) fun frame hframe => h frame (List.mem_cons_of_mem _ hframe)]

/-- What a panic prints. -/
def panicText (mem : ByteMemory 64) (rbp : BitVec 64) (text : List (BitVec 8)) : List (BitVec 8) :=
  chars "\n--- KERNEL PANIC ---\n" ++ text ++ chars "\n" ++ chars "Stack trace:\n"
    ++ traceText mem 0 (framePointers mem 16 rbp) ++ chars "--------------------\n"

def panicColor : FbColor := ⟨235#8, 52#8, 76#8⟩

/-- No byte of the first sixteen frames is a byte of a pixel. -/
def StackApart (screen : FbState) (rbp : BitVec 64) : Prop :=
  ∀ frame ∈ framePointers screen.mem 16 rbp, ∀ k < 16,
    ByteMemory.Outside 4 screen.framebuffer.addrOf (frame + BitVec.ofNat 64 k)

theorem panicText_congr {screen : FbState} {rbp : BitVec 64} {mem : ByteMemory 64}
    (hapart : StackApart screen rbp)
    (hmem : ∀ addr, ByteMemory.Outside 4 screen.framebuffer.addrOf addr → mem addr = screen.mem addr)
    (text : List (BitVec 8)) : panicText mem rbp text = panicText screen.mem rbp text := by
  have hframes : framePointers mem 16 rbp = framePointers screen.mem 16 rbp := by
    refine framePointers_congr fun frame hframe => ByteMemory.readWord_congr fun i hi => ?_
    exact hmem _ (hapart frame hframe i (by omega))
  have hreturns : ∀ frame ∈ framePointers screen.mem 16 rbp,
      returnAddress mem frame = returnAddress screen.mem frame := by
    refine fun frame hframe => ByteMemory.readWord_congr fun i hi => hmem _ ?_
    rw [BitVec.add_assoc, ← BitVec.ofNat_add]
    exact hapart frame hframe (8 + i) (by omega)
  rw [panicText, panicText, hframes, traceText_congr 0 hreturns]

/-- The screen is painted if there is one, and nothing else is. -/
theorem exists_panicScreen {screen : FbState}
    (hfits : screen.framebuffer.isReady = true → screen.framebuffer.Fits) :
    ∃ painted, Prog.run fbExec (fbClearScreen panicColor) screen = some ((), painted)
      ∧ (∀ addr, ByteMemory.Outside 4 screen.framebuffer.addrOf addr → painted.mem addr = screen.mem addr)
      ∧ (screen.framebuffer.isReady = true → ∀ x y : BitVec 32,
          x.toNat < screen.framebuffer.width.toNat → y.toNat < screen.framebuffer.height.toNat →
            Prog.run fbExec (fbGetPixel x y) painted = some (panicColor, painted)) := by
  by_cases hready : screen.framebuffer.isReady = true
  · obtain ⟨_, painted, hrun, hshows⟩ := (wp_fbClearScreen (hfits hready) hready rfl panicColor).returns
      fun mid c _ => fbExec_ne_none mid c
    have hsame : { screen.framebuffer with isReady := true } = screen.framebuffer := by
      rw [← hready]
    have hpixels : RefinesPixels screen.framebuffer screen.framebuffer.addrOf [.clear panicColor]
        screen painted := by
      apply FbState.Shows.refinesPixels
      exact ⟨hshows.framebuffer.trans hsame.symm, hshows.painted⟩
    refine ⟨painted, hrun, hpixels.outside, fun _ x y hx hy => ?_⟩
    exact hpixels.getPixel x y hx hy
  · refine ⟨screen, ?_, fun _ _ => rfl, fun h => absurd h hready⟩
    rw [fbClearScreen, run_getFramebuffer_bind, if_pos hready]
    rfl

theorem panic_eq {strings : Strings} {pieces : List Piece} {args : List (BitVec 64)}
    {text : List (BitVec 8)} (hwf : ∀ piece ∈ pieces, piece.WellFormed)
    (htext : formatText strings pieces args = some text) (rbp : BitVec 64) {s : State}
    {painted : FbState} (hscreen : Prog.run fbExec (fbClearScreen panicColor) s.screen = some ((), painted)) :
    panic strings (formatBytes pieces ++ [0#8]) args rbp s
      = some { s with
          console := ({ s.console with defaultSink := s.debugSink }).deliver
            (panicText painted.mem rbp text)
          screen := painted
          interruptFlag := false } := by
  have hbanner : Plain (chars "\n--- KERNEL PANIC ---\n") := by decide
  have hnewline : Plain (chars "\n") := by decide
  have htitle : Plain (chars "Stack trace:\n") := by decide
  have hend : Plain (chars "--------------------\n") := by decide
  have hpainted : Prog.run fbExec (fbClearScreen ⟨235#8, 52#8, 76#8⟩)
      ({ s with interruptFlag := false }.setDefaultSink s.debugSink).screen = some ((), painted) := hscreen
  rw [panic]
  simp only [hpainted, Option.bind_eq_bind, Option.bind_some, kprintf_cstr hbanner,
    kvprintf_of_pieces hwf htext, kprintf_cstr hnewline, kprintf_cstr htitle, kprintf_cstr hend]
  rw [stackTrace_eq strings (by decide)]
  simp only [Option.bind_some, panicText, Console.deliver_append]
  rfl

/-- A panic is never filtered. -/
theorem klogf_panic {strings : Strings} {pieces : List Piece} {args : List (BitVec 64)}
    {text : List (BitVec 8)} (hwf : ∀ piece ∈ pieces, piece.WellFormed)
    (htext : formatText strings pieces args = some text) {s : State}
    (hfits : s.screen.framebuffer.isReady = true → s.screen.framebuffer.Fits) {rbp : BitVec 64}
    (hapart : StackApart s.screen rbp) :
    ∃ painted, klogf strings .panic (formatBytes pieces ++ [0#8]) args rbp s
        = some (.halts { s with
            console := ({ s.console with defaultSink := s.debugSink }).deliver
              (panicText s.screen.mem rbp text)
            screen := painted
            interruptFlag := false })
      ∧ (s.screen.framebuffer.isReady = true → ∀ x y : BitVec 32,
          x.toNat < s.screen.framebuffer.width.toNat → y.toNat < s.screen.framebuffer.height.toNat →
            Prog.run fbExec (fbGetPixel x y) painted = some (panicColor, painted)) := by
  obtain ⟨painted, hscreen, houtside, hpixels⟩ := exists_panicScreen hfits
  refine ⟨painted, ?_, hpixels⟩
  have hvalue : ¬ Level.panic.value < s.currentLevel.value := by
    cases s.currentLevel <;> decide
  rw [klogf, if_neg hvalue, if_pos rfl, panic_eq hwf htext rbp hscreen,
    panicText_congr hapart houtside]
  rfl

/-- Characters for a callback, on the line. -/
theorem map_snd_deliveries (callback : ConsoleSink) (text : List (BitVec 8)) :
    (deliveries (some callback) text).map Prod.snd = text.filter (· ≠ 0#8) := by
  rw [deliveries, List.map_map]
  exact List.map_id _

/-- **Panics are reported.** In any state the console can be in, with the port set up and the log's
sink in place, a panic is not filtered and does not return: interrupts are off, the screen is painted,
and behind everything the line has carried so far it carries the report. -/
theorem panic_reaches_line {strings : Strings} {base : BitVec 16} {t : Transcript} {s : Terminal}
    (h : Carries base t s) (honline : t.online = true) {id : Int} {callback : ConsoleSink}
    (hdebug : t.journal.debugSink = some id) (hsink : t.journal.sinks id = some callback)
    {pieces : List Piece} {args : List (BitVec 64)} {text : List (BitVec 8)}
    (hwf : ∀ piece ∈ pieces, piece.WellFormed) (htext : formatText strings pieces args = some text)
    (hfits : s.log.screen.framebuffer.isReady = true → s.log.screen.framebuffer.Fits)
    {rbp : BitVec 64} (hapart : StackApart s.log.screen rbp) :
    ∃ log bound line,
      klogf strings .panic (formatBytes pieces ++ [0#8]) args rbp s.log = some (.halts log)
      ∧ log.interruptFlag = false
      ∧ (s.log.screen.framebuffer.isReady = true → ∀ x y : BitVec 32,
          x.toNat < s.log.screen.framebuffer.width.toNat →
          y.toNat < s.log.screen.framebuffer.height.toNat →
            Prog.run fbExec (fbGetPixel x y) log.screen = some (panicColor, log.screen))
      ∧ (∀ polls, bound ≤ polls → callSinks base polls
          (log.console.sinks.calls.drop s.log.console.sinks.calls.length) s.line = some line)
      ∧ line.uart.sent
          = t.sent ++ (panicText s.log.screen.mem rbp text).filter (· ≠ 0#8) := by
  obtain ⟨painted, hpanic, hpixels⟩ := klogf_panic hwf htext hfits hapart
  have hline := h.line
  rw [honline, if_pos rfl] at hline
  obtain ⟨bound, line, hcalls, -, hsent⟩ := exists_callSinks hline
    (deliveries (some callback) (panicText s.log.screen.mem rbp text))
  refine ⟨_, bound, line, hpanic, rfl, hpixels, fun polls hpolls => ?_, ?_⟩
  · change callSinks base polls ((s.log.console.sinks.calls
      ++ deliveries (listener s.log.console.sinks s.log.debugSink)
        (panicText s.log.screen.mem rbp text)).drop s.log.console.sinks.calls.length) s.line = _
    rw [List.drop_left, h.log.listener_debugSink hdebug, hsink]
    exact hcalls polls hpolls
  · rw [hsent, h.sent, map_snd_deliveries]

/-- The port set up and the log's sink registered. -/
def readyCalls : List ConsoleCall := [.serialInit, .log (.setLevel .debug)]

/-- With one frame on the stack, and no screen yet. -/
theorem panic_reaches_line_readyCalls :
    ∃ s log bound line,
      readyCalls.foldlM (ConsoleCall.exec emptyStrings 0#64 0x3F8#16 0) bootTerminal = some s
      ∧ klogf emptyStrings .panic (cstr "boom") [] 0x7000#64 s.log = some (.halts log)
      ∧ (∀ polls, bound ≤ polls → callSinks 0x3F8#16 polls
          (log.console.sinks.calls.drop s.log.console.sinks.calls.length) s.line = some line)
      ∧ line.uart.sent = chars
          ("\n--- KERNEL PANIC ---\nboom\nStack trace:\n"
            ++ "  [0] 0x0000000000000000\n--------------------\n") := by
  have hboot : bootTerminal.IsBoot := ⟨rfl, rfl, rfl, bootSinks_isBoot, rfl, rfl⟩
  have hallows : Transcript.AllowsAll emptyStrings (.boot []) readyCalls :=
    ⟨trivial, fun _ _ => ⟨trivial, fun _ _ => trivial⟩⟩
  obtain ⟨bound, s, hexec, hcarries⟩ := (hboot.carries 0x3F8#16).run 0#64 hallows rfl
  obtain ⟨s', hready, hscreen⟩ : ∃ s', (∀ polls,
      readyCalls.foldlM (ConsoleCall.exec emptyStrings 0#64 0x3F8#16 polls) bootTerminal = some s')
        ∧ s'.log.screen = bootTerminal.log.screen := ⟨_, fun _ => rfl, rfl⟩
  obtain rfl : s = s' := Option.some.inj ((hexec bound (Nat.le_refl _)).symm.trans (hready bound))
  have hboom : Plain (chars "boom") := by decide
  have hnoFrame : s.log.screen.framebuffer.isReady = true → s.log.screen.framebuffer.Fits := by
    rw [hscreen]
    exact fun hready => absurd hready (by decide)
  have hapart : StackApart s.log.screen 0x7000#64 := by
    rw [hscreen]
    rintro frame - k - ⟨⟨column, hcolumn⟩, -⟩
    exact absurd hcolumn (Nat.not_lt_zero column)
  obtain ⟨log, bound', line, hpanic, -, -, hcalls, hsent⟩ := panic_reaches_line hcarries rfl rfl rfl
    (wellFormed_literals hboom) (formatText_literals emptyStrings (chars "boom") []) hnoFrame hapart
  rw [formatBytes_literals] at hpanic
  refine ⟨s, log, bound', line, hready 0, hpanic, hcalls, hsent.trans ?_⟩
  rw [hscreen]
  decide

end RainstormOs.Klog
