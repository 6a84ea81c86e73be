import RainstormOs.Lib.Scan
import RainstormOs.Machine
import RainstormOs.Utils.Sink

/-!
# `utils/printf.c`

The formatter, as it is compiled for the kernel: without floating point, with `long long` and
`ptrdiff_t`.

A pointer into a string is the list of the bytes from there to the end of the object. Reading one
more byte than there are has no result, and neither has taking an argument the caller did not pass.
An argument is the 64-bit slot `va_arg` takes it from. Where C leaves a signed overflow undefined,
the negation of the smallest integer, the model has the wrapped result of the machine.
-/

namespace RainstormOs.Printf

/-- A character constant. -/
def byte (c : Char) : BitVec 8 := BitVec.ofNat 8 c.toNat

/-- The bits of `flags`; `FLAGS_ADAPT_EXP` is for floating point only. -/
structure Flags where
  zeropad : Bool := false
  left : Bool := false
  plus : Bool := false
  space : Bool := false
  hash : Bool := false
  uppercase : Bool := false
  char : Bool := false
  short : Bool := false
  long : Bool := false
  longLong : Bool := false
  precision : Bool := false
deriving DecidableEq

/-! ### Output functions -/

/-- `out_fct_type`: the character, the buffer, the index and the limit, and the state the function
works on. There is no result where the function does not return. -/
abbrev OutFct (β σ : Type) := BitVec 8 → β → BitVec 64 → BitVec 64 → σ → Option σ

def outBuffer : OutFct VirtAddr Machine := fun character buffer idx maxlen s =>
  if idx < maxlen then
    (Kernel.run (store8 (buffer + idx) character) s).map Prod.snd
  else
    some s

def outNull {β σ : Type} : OutFct β σ := fun _ _ _ _ s => some s

/-- The static variables behind `_putchar`: those of `sink.c` and `default_sink`. -/
structure Console (Fn : Type) where
  defaultSink : Int
  sinks : SinkState Fn

def putchar {Fn : Type} (character : BitVec 8) (s : Console Fn) : Option (Console Fn) :=
  (Prog.run sinkExec (sinkWrite s.defaultSink character) s.sinks).map fun out =>
    { s with sinks := out.2 }

/-- The buffer of `_out_char` is not looked at. -/
def outChar {Fn : Type} : OutFct Unit (Console Fn) := fun character _ _ _ s =>
  if character ≠ 0#8 then putchar character s else some s

structure OutFctWrap (α σ : Type) where
  fct : BitVec 8 → α → σ → Option σ
  arg : α

def outFct {α σ : Type} : OutFct (OutFctWrap α σ) σ := fun character buffer _ _ s =>
  if character ≠ 0#8 then buffer.fct character buffer.arg s else some s

/-! ### Strings -/

/-- `_strnlen_s`; it looks at one byte more than `maxsize` before it stops. -/
def strnlen : List (BitVec 8) → BitVec 64 → Option (BitVec 32)
  | [], _ => none
  | ch :: str, maxsize =>
      if ch ≠ 0#8 ∧ maxsize ≠ 0#64 then
        (strnlen str (maxsize - 1#64)).map (· + 1#32)
      else
        some 0#32

def isDigit (ch : BitVec 8) : Bool := byte '0' ≤ ch && ch ≤ byte '9'

/-- `_atoi` from the value so far, with the place it stops at. -/
def atoi : List (BitVec 8) → BitVec 32 → Option (BitVec 32 × List (BitVec 8)) :=
  Scan.foldWhile (Scan.accept isDigit fun i ch => i * 10#32 + (ch - byte '0').setWidth 32)

/-! ### Output -/

/-- `idx` and the state the output function works on. -/
structure Cursor (σ : Type) where
  idx : BitVec 64
  state : σ

section

variable {σ : Type} (out : BitVec 8 → BitVec 64 → BitVec 64 → σ → Option σ) (maxlen : BitVec 64)

/-- `out(character, buffer, idx++, maxlen)`. -/
def put (character : BitVec 8) (s : Cursor σ) : Option (Cursor σ) :=
  (out character s.idx maxlen s.state).map fun state => ⟨s.idx + 1#64, state⟩

def putTimes (character : BitVec 8) : Nat → Cursor σ → Option (Cursor σ)
  | 0, s => some s
  | count + 1, s => do
      let s ← put out maxlen character s
      putTimes character count s

/-- `while (len) out(buf[--len], ...)`, with the characters in the order they are written in. -/
def putAll : List (BitVec 8) → Cursor σ → Option (Cursor σ)
  | [], s => some s
  | ch :: rest, s => do
      let s ← put out maxlen ch s
      putAll rest s

/-- `while (idx - start_idx < width)`. Each round moves `idx` by one, so there are at most `width`. -/
def padTo (startIdx : BitVec 64) (width : BitVec 32) : Nat → Cursor σ → Option (Cursor σ)
  | 0, s => some s
  | rounds + 1, s =>
      if s.idx - startIdx < width.setWidth 64 then do
        let s ← put out maxlen (byte ' ') s
        padTo startIdx width rounds s
      else
        some s

def outRev (buf : List (BitVec 8)) (width : BitVec 32) (flags : Flags) (s : Cursor σ) :
    Option (Cursor σ) := do
  let startIdx := s.idx
  let s ← if !flags.left && !flags.zeropad then
      putTimes out maxlen (byte ' ') (width.toNat - buf.length) s
    else
      some s
  let s ← putAll out maxlen buf.reverse s
  if flags.left then
    padTo out maxlen startIdx width width.toNat s
  else
    some s

end

/-! ### Integers -/

def ntoaBufferSize : Nat := 32

/-- The conversion buffer with its first `len` characters. There is no way to write past its end. -/
structure NtoaBuffer where
  chars : List (BitVec 8)
  length_le : chars.length ≤ ntoaBufferSize

namespace NtoaBuffer

def empty : NtoaBuffer := ⟨[], Nat.zero_le _⟩

abbrev len (buf : NtoaBuffer) : Nat := buf.chars.length

/-- `buf[len++] = character`. -/
def push (buf : NtoaBuffer) (character : BitVec 8) (h : buf.len < ntoaBufferSize) : NtoaBuffer :=
  ⟨buf.chars ++ [character], by
    rw [List.length_append]
    exact h⟩

/-- `if (len < PRINTF_NTOA_BUFFER_SIZE) buf[len++] = character`. -/
def pushIf (buf : NtoaBuffer) (character : BitVec 8) : NtoaBuffer :=
  if h : buf.len < ntoaBufferSize then buf.push character h else buf

/-- `len--`. -/
def pop (buf : NtoaBuffer) : NtoaBuffer :=
  ⟨buf.chars.dropLast, by
    rw [List.length_dropLast]
    exact Nat.le_trans (Nat.sub_le _ _) buf.length_le⟩

/-- `while ((len < target) && (len < PRINTF_NTOA_BUFFER_SIZE)) buf[len++] = '0'`. -/
def padZeros (target : BitVec 32) : Nat → NtoaBuffer → NtoaBuffer
  | 0, buf => buf
  | rounds + 1, buf =>
      if buf.len < target.toNat then
        if h : buf.len < ntoaBufferSize then
          padZeros target rounds (buf.push (byte '0') h)
        else
          buf
      else
        buf

end NtoaBuffer

/-- The zero padding leaves a place for the sign. -/
def signWidth (negative : Bool) (width : BitVec 32) (flags : Flags) : BitVec 32 :=
  if !flags.left && (width ≠ 0#32) && flags.zeropad && (negative || flags.plus || flags.space) then
    width - 1#32
  else
    width

/-- "pad leading zeros", with the width `signWidth` leaves. -/
def ntoaZeros (buf : NtoaBuffer) (prec width : BitVec 32) (flags : Flags) : NtoaBuffer :=
  if !flags.left then
    let buf := buf.padZeros prec ntoaBufferSize
    if flags.zeropad then buf.padZeros width ntoaBufferSize else buf
  else
    buf

/-- "handle hash". -/
def ntoaHash (buf : NtoaBuffer) (base prec width : BitVec 32) (flags : Flags) : NtoaBuffer :=
  if flags.hash then
    let buf :=
      if !flags.precision && (buf.len ≠ 0) && (buf.len = prec.toNat || buf.len = width.toNat) then
        let buf := buf.pop
        if (buf.len ≠ 0) && (base = 16#32) then buf.pop else buf
      else
        buf
    let buf :=
      if base = 16#32 ∧ flags.uppercase = false then buf.pushIf (byte 'x')
      else if base = 16#32 ∧ flags.uppercase = true then buf.pushIf (byte 'X')
      else if base = 2#32 then buf.pushIf (byte 'b')
      else buf
    buf.pushIf (byte '0')
  else
    buf

def ntoaSign (buf : NtoaBuffer) (negative : Bool) (flags : Flags) : NtoaBuffer :=
  if negative then buf.pushIf (byte '-')
  else if flags.plus then buf.pushIf (byte '+')
  else if flags.space then buf.pushIf (byte ' ')
  else buf

section

variable {σ : Type} (out : BitVec 8 → BitVec 64 → BitVec 64 → σ → Option σ) (maxlen : BitVec 64)

def ntoaFormat (buf : NtoaBuffer) (negative : Bool) (base prec width : BitVec 32) (flags : Flags)
    (s : Cursor σ) : Option (Cursor σ) :=
  let width := signWidth negative width flags
  let buf := ntoaZeros buf prec width flags
  let buf := ntoaHash buf base prec width flags
  let buf := ntoaSign buf negative flags
  outRev out maxlen buf.chars width flags s

/-- The character of a digit. -/
def digitChar (uppercase : Bool) (digit : BitVec 8) : BitVec 8 :=
  if digit < 10#8 then byte '0' + digit
  else (if uppercase then byte 'A' else byte 'a') + digit - 10#8

/-- `do ... while (value && (len < PRINTF_NTOA_BUFFER_SIZE))`: the test at the end of a round is the
one before the next. -/
def ntoaDigits (uppercase : Bool) (base : BitVec 64) : Nat → BitVec 64 → NtoaBuffer → NtoaBuffer
  | 0, _, buf => buf
  | rounds + 1, value, buf =>
      if h : buf.len < ntoaBufferSize then
        let buf := buf.push (digitChar uppercase ((value % base).setWidth 8)) h
        let value := value / base
        if value ≠ 0#64 then ntoaDigits uppercase base rounds value buf else buf
      else
        buf

/-- The body `_ntoa_long` and `_ntoa_long_long` share. -/
def ntoa (value : BitVec 64) (negative : Bool) (base : BitVec 64) (prec width : BitVec 32)
    (flags : Flags) (s : Cursor σ) : Option (Cursor σ) :=
  let flags := if value = 0#64 then { flags with hash := false } else flags
  let buf :=
    if !flags.precision || value ≠ 0#64 then
      ntoaDigits flags.uppercase base ntoaBufferSize value .empty
    else
      .empty
  ntoaFormat out maxlen buf negative (base.setWidth 32) prec width flags s

def ntoaLong (value : BitVec 64) (negative : Bool) (base : BitVec 64) (prec width : BitVec 32)
    (flags : Flags) (s : Cursor σ) : Option (Cursor σ) :=
  ntoa out maxlen value negative base prec width flags s

def ntoaLongLong (value : BitVec 64) (negative : Bool) (base : BitVec 64) (prec width : BitVec 32)
    (flags : Flags) (s : Cursor σ) : Option (Cursor σ) :=
  ntoa out maxlen value negative base prec width flags s

end

/-! ### The conversion specification -/

/-- The `switch` over the flag characters; `none` is its default case. -/
def Flags.set (flags : Flags) (ch : BitVec 8) : Option Flags :=
  if ch = byte '0' then some { flags with zeropad := true }
  else if ch = byte '-' then some { flags with left := true }
  else if ch = byte '+' then some { flags with plus := true }
  else if ch = byte ' ' then some { flags with space := true }
  else if ch = byte '#' then some { flags with hash := true }
  else none

/-- `do ... while (n)` over the flag characters. -/
def evalFlags : List (BitVec 8) → Flags → Option (Flags × List (BitVec 8)) :=
  Scan.foldWhile Flags.set

/-- `va_arg`. -/
def vaArg : List (BitVec 64) → Option (BitVec 64 × List (BitVec 64))
  | [] => none
  | arg :: va => some (arg, va)

/-- What has been read of a conversion, and what is left to read: the format and the arguments. -/
structure Directive where
  flags : Flags
  width : BitVec 32
  precision : BitVec 32
  format : List (BitVec 8)
  va : List (BitVec 64)

def evalWidth (flags : Flags) (format : List (BitVec 8)) (va : List (BitVec 64)) :
    Option Directive := do
  let ch ← format.head?
  if isDigit ch then
    let (width, format) ← atoi format 0#32
    some ⟨flags, width, 0#32, format, va⟩
  else if ch = byte '*' then
    let (arg, va) ← vaArg va
    let w : BitVec 32 := arg.setWidth 32
    if w.slt 0#32 then
      some ⟨{ flags with left := true }, -w, 0#32, format.tail, va⟩
    else
      some ⟨flags, w, 0#32, format.tail, va⟩
  else
    some ⟨flags, 0#32, 0#32, format, va⟩

def evalPrecision (d : Directive) : Option Directive := do
  let ch ← d.format.head?
  if ch = byte '.' then
    let flags := { d.flags with precision := true }
    let format := d.format.tail
    let ch ← format.head?
    if isDigit ch then
      let (precision, format) ← atoi format 0#32
      some { d with flags := flags, precision := precision, format := format }
    else if ch = byte '*' then
      let (arg, va) ← vaArg d.va
      let prec : BitVec 32 := arg.setWidth 32
      let precision := if (0#32).slt prec then prec else 0#32
      some { d with flags := flags, precision := precision, format := format.tail, va := va }
    else
      some { d with flags := flags, format := format }
  else
    some d

/-- `ptrdiff_t`, `intmax_t` and `size_t` have the size of `long`. -/
def evalLength (d : Directive) : Option Directive := do
  let ch ← d.format.head?
  if ch = byte 'l' then
    let format := d.format.tail
    let ch ← format.head?
    if ch = byte 'l' then
      some { d with flags := { d.flags with long := true, longLong := true }, format := format.tail }
    else
      some { d with flags := { d.flags with long := true }, format := format }
  else if ch = byte 'h' then
    let format := d.format.tail
    let ch ← format.head?
    if ch = byte 'h' then
      some { d with flags := { d.flags with short := true, char := true }, format := format.tail }
    else
      some { d with flags := { d.flags with short := true }, format := format }
  else if ch = byte 't' ∨ ch = byte 'j' ∨ ch = byte 'z' then
    some { d with flags := { d.flags with long := true }, format := d.format.tail }
  else
    some d

/-- From the character after the `%` up to the specifier. -/
def evalDirective (format : List (BitVec 8)) (va : List (BitVec 64)) : Option Directive := do
  let (flags, format) ← evalFlags format {}
  let d ← evalWidth flags format va
  let d ← evalPrecision d
  evalLength d

/-! ### The specifiers -/

/-- `value > 0 ? value : 0 - value`. -/
def magnitude {w : Nat} (value : BitVec w) : BitVec w :=
  if (0#w).slt value then value else 0#w - value

def specifierBase (specifier : BitVec 8) : BitVec 64 :=
  if specifier = byte 'x' ∨ specifier = byte 'X' then 16#64
  else if specifier = byte 'o' then 8#64
  else if specifier = byte 'b' then 2#64
  else 10#64

def isSigned (specifier : BitVec 8) : Bool := specifier = byte 'i' || specifier = byte 'd'

/-- The flags an integer conversion goes on with. -/
def integerFlags (specifier : BitVec 8) (flags : Flags) : Flags :=
  let flags := if specifierBase specifier = 10#64 then { flags with hash := false } else flags
  let flags := if specifier = byte 'X' then { flags with uppercase := true } else flags
  let flags := if isSigned specifier then flags else { flags with plus := false, space := false }
  if flags.precision then { flags with zeropad := false } else flags

section

variable {σ : Type} (out : BitVec 8 → BitVec 64 → BitVec 64 → σ → Option σ) (maxlen : BitVec 64)

/-- `d`, `i`, `u`, `x`, `X`, `o` and `b`. -/
def evalInteger (specifier : BitVec 8) (d : Directive) (s : Cursor σ) :
    Option (List (BitVec 64) × Cursor σ) := do
  let base := specifierBase specifier
  let flags := integerFlags specifier d.flags
  let (arg, va) ← vaArg d.va
  let s ← if isSigned specifier then
      if flags.longLong then
        ntoaLongLong out maxlen (magnitude arg) (arg.slt 0#64) base d.precision d.width flags s
      else if flags.long then
        ntoaLong out maxlen (magnitude arg) (arg.slt 0#64) base d.precision d.width flags s
      else
        let value : BitVec 32 :=
          if flags.char then (arg.setWidth 8).signExtend 32
          else if flags.short then (arg.setWidth 16).signExtend 32
          else arg.setWidth 32
        ntoaLong out maxlen ((magnitude value).setWidth 64) (value.slt 0#32) base d.precision d.width
          flags s
    else if flags.longLong then
      ntoaLongLong out maxlen arg false base d.precision d.width flags s
    else if flags.long then
      ntoaLong out maxlen arg false base d.precision d.width flags s
    else
      let value : BitVec 32 :=
        if flags.char then (arg.setWidth 8).setWidth 32
        else if flags.short then (arg.setWidth 16).setWidth 32
        else arg.setWidth 32
      ntoaLong out maxlen (value.setWidth 64) false base d.precision d.width flags s
  some (va, s)

/-- `while (l++ < width)`, from the value of `l` before the first test. -/
def padFrom (l width : BitVec 32) (s : Cursor σ) : Option (Cursor σ) :=
  putTimes out maxlen (byte ' ') (width.toNat - l.toNat) s

def evalChar (d : Directive) (s : Cursor σ) : Option (List (BitVec 64) × Cursor σ) := do
  let s ← if !d.flags.left then padFrom out maxlen 1#32 d.width s else some s
  let (arg, va) ← vaArg d.va
  let s ← put out maxlen (arg.setWidth 8) s
  let s ← if d.flags.left then padFrom out maxlen 1#32 d.width s else some s
  some (va, s)

/-- `while ((*p != 0) && (!(flags & FLAGS_PRECISION) || precision--))`. -/
def putString (limited : Bool) : List (BitVec 8) → BitVec 32 → Cursor σ → Option (Cursor σ)
  | [], _, _ => none
  | ch :: p, precision, s =>
      if ch ≠ 0#8 ∧ (limited = false ∨ precision ≠ 0#32) then do
        let s ← put out maxlen ch s
        putString limited p (precision - 1#32) s
      else
        some s

/-- What a pointer points to: the bytes from there to the end of the object, which fits into the
address space. -/
structure Strings where
  bytes : VirtAddr → List (BitVec 8)
  length_lt : ∀ p, (bytes p).length < 2 ^ 64

def evalString (strings : Strings) (d : Directive) (s : Cursor σ) :
    Option (List (BitVec 64) × Cursor σ) := do
  let (arg, va) ← vaArg d.va
  let p := strings.bytes arg
  let l ← strnlen p (if d.precision ≠ 0#32 then d.precision.setWidth 64 else -1#64)
  let l := if d.flags.precision then (if l < d.precision then l else d.precision) else l
  let s ← if !d.flags.left then padFrom out maxlen l d.width s else some s
  let s ← putString out maxlen d.flags.precision p d.precision s
  let s ← if d.flags.left then padFrom out maxlen l d.width s else some s
  some (va, s)

def evalPointer (d : Directive) (s : Cursor σ) : Option (List (BitVec 64) × Cursor σ) := do
  let flags := { d.flags with zeropad := true, uppercase := true }
  let (arg, va) ← vaArg d.va
  let s ← ntoaLongLong out maxlen arg false 16#64 d.precision 16#32 flags s
  some (va, s)

def isInteger (specifier : BitVec 8) : Bool :=
  [byte 'd', byte 'i', byte 'u', byte 'x', byte 'X', byte 'o', byte 'b'].contains specifier

/-- The `switch` over the specifier. `%` and the default case write the character as it is, the
terminating zero among them. -/
def evalSpecifier (strings : Strings) (specifier : BitVec 8) (d : Directive) (s : Cursor σ) :
    Option (List (BitVec 64) × Cursor σ) :=
  if isInteger specifier then evalInteger out maxlen specifier d s
  else if specifier = byte 'c' then evalChar out maxlen d s
  else if specifier = byte 's' then evalString out maxlen strings d s
  else if specifier = byte 'p' then evalPointer out maxlen d s
  else do
    let s ← put out maxlen specifier s
    some (d.va, s)

/-- `while (*format)`. A round reads at least one byte of the format, so there are no more rounds
than bytes: when they are used up there is no byte left to read. -/
def vsnprintfLoop (strings : Strings) :
    Nat → List (BitVec 8) → List (BitVec 64) → Cursor σ → Option (Cursor σ)
  | 0, _, _, _ => none
  | _ + 1, [], _, _ => none
  | rounds + 1, ch :: format, va, s =>
      if ch = 0#8 then
        some s
      else if ch ≠ byte '%' then do
        let s ← put out maxlen ch s
        vsnprintfLoop strings rounds format va s
      else do
        let d ← evalDirective format va
        let specifier ← d.format.head?
        let (va, s) ← evalSpecifier out maxlen strings specifier d s
        vsnprintfLoop strings rounds d.format.tail va s

end

/-- `_vsnprintf`. A null buffer is `none`. -/
def vsnprintf {β σ : Type} (strings : Strings) (out : OutFct β σ) (buffer : Option β)
    (maxlen : BitVec 64) (format : List (BitVec 8)) (va : List (BitVec 64)) (state : σ) :
    Option (BitVec 32 × σ) := do
  let out := fun character idx maxlen s =>
    match buffer with
    | none => outNull character () idx maxlen s
    | some buffer => out character buffer idx maxlen s
  let s ← vsnprintfLoop out maxlen strings format.length format va ⟨0#64, state⟩
  let state ← out 0#8 (if s.idx < maxlen then s.idx else maxlen - 1#64) maxlen s.state
  some (s.idx.setWidth 32, state)

/-! ### The entry points

The variadic functions differ from those that take a `va_list` in `va_start` and `va_end` only. -/

section

variable {Fn : Type}

def kprintfSetDefaultSink (id : Int) (s : Console Fn) : Console Fn := { s with defaultSink := id }

def kprintfGetDefaultSink (s : Console Fn) : Int := s.defaultSink

def kvprintf (strings : Strings) (format : List (BitVec 8)) (va : List (BitVec 64)) (s : Console Fn) :
    Option (BitVec 32 × Console Fn) :=
  vsnprintf strings outChar (some ()) (-1#64) format va s

def kprintf (strings : Strings) (format : List (BitVec 8)) (va : List (BitVec 64)) (s : Console Fn) :
    Option (BitVec 32 × Console Fn) :=
  kvprintf strings format va s

end

def kvsnprintf (strings : Strings) (buffer : Option VirtAddr) (count : BitVec 64)
    (format : List (BitVec 8)) (va : List (BitVec 64)) (s : Machine) : Option (BitVec 32 × Machine) :=
  vsnprintf strings outBuffer buffer count format va s

def ksprintf (strings : Strings) (buffer : Option VirtAddr) (format : List (BitVec 8))
    (va : List (BitVec 64)) (s : Machine) : Option (BitVec 32 × Machine) :=
  kvsnprintf strings buffer (-1#64) format va s

def fctprintf {α σ : Type} (strings : Strings) (out : BitVec 8 → α → σ → Option σ) (arg : α)
    (format : List (BitVec 8)) (va : List (BitVec 64)) (s : σ) : Option (BitVec 32 × σ) :=
  vsnprintf strings outFct (some ⟨out, arg⟩) (-1#64) format va s

end RainstormOs.Printf
