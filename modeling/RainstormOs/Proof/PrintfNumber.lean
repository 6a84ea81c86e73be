import Mathlib.Data.Nat.Digits.Lemmas
import RainstormOs.Proof.PrintfText

/-!
# How numbers are written

The C standard says what an integer conversion looks like: the digits of the number, zeros in front of
them up to the precision, the sign, and padding up to the width. The code builds this backwards in a
buffer of 32 characters and stops adding to it where it is full, zeros, prefix and sign alike. Both are
stated here, the standard's layout without a word about the buffer, and the condition under which they
agree is found.
-/

namespace RainstormOs.Printf

/-! ### The standard's layout -/

def digitByte (uppercase : Bool) (digit : Nat) : BitVec 8 :=
  digitChar uppercase (BitVec.ofNat 8 digit)

/-- A number in a base, the highest digit first. -/
def numeral (uppercase : Bool) (base value : Nat) : List (BitVec 8) :=
  if value = 0 then [byte '0'] else ((Nat.digits base value).map (digitByte uppercase)).reverse

/-- The digits of a conversion; with a precision zero has none of its own. -/
def shownDigits (flags : Flags) (base value : Nat) : List (BitVec 8) :=
  if flags.precision = true ∧ value = 0 then [] else numeral flags.uppercase base value

def signText (negative : Bool) (flags : Flags) : List (BitVec 8) :=
  if negative then [byte '-']
  else if flags.plus then [byte '+']
  else if flags.space then [byte ' ']
  else []

def zeros (count : Nat) : List (BitVec 8) := List.replicate count (byte '0')

/-- What C asks of a conversion without `#`. -/
def layout (digits sign : List (BitVec 8)) (prec width : Nat) (flags : Flags) : List (BitVec 8) :=
  let body := zeros (prec - digits.length) ++ digits
  let padding := width - (sign.length + body.length)
  if flags.left then
    sign ++ body ++ spaces padding
  else if flags.zeropad then
    sign ++ (zeros padding ++ body)
  else
    spaces padding ++ (sign ++ body)

/-! ### The code's layout -/

/-- What becomes of the digits in the buffer: the last 32 of them, with as many zeros as are asked
for and as there is room for. -/
def bufferBody (digits : List (BitVec 8)) (target : Nat) : List (BitVec 8) :=
  let kept := digits.drop (digits.length - ntoaBufferSize)
  zeros (min target ntoaBufferSize - kept.length) ++ kept

/-- The sign, where there is room for it. -/
def bufferText (digits sign : List (BitVec 8)) (target : Nat) : List (BitVec 8) :=
  let body := bufferBody digits target
  if body.length < ntoaBufferSize then sign ++ body else body

/-- How many digits the zeros are to fill up to. -/
def zeroTarget (sign : List (BitVec 8)) (prec width : Nat) (flags : Flags) : Nat :=
  if flags.left then 0
  else if flags.zeropad then max prec (width - sign.length)
  else prec

def codeLayout (digits sign : List (BitVec 8)) (prec width : Nat) (flags : Flags) :
    List (BitVec 8) :=
  let text := bufferText digits sign (zeroTarget sign prec width flags)
  if flags.left then
    text ++ spaces (width - text.length)
  else if flags.zeropad then
    text
  else
    spaces (width - text.length) ++ text

/-- One digit off a number, the loop's step. -/
theorem reverse_numeral_step {uppercase : Bool} {base value : Nat} (hbase : 2 ≤ base) :
    (numeral uppercase base value).reverse
      = digitByte uppercase (value % base)
          :: if value / base = 0 then [] else (numeral uppercase base (value / base)).reverse := by
  by_cases hvalue : value = 0
  · subst hvalue
    have hzero : digitByte uppercase 0 = byte '0' := by cases uppercase <;> decide
    simp [numeral, hzero]
  · rw [numeral, if_neg hvalue, List.reverse_reverse, Nat.digits_def' (by omega) (by omega),
      List.map_cons]
    congr 1
    by_cases hdiv : value / base = 0
    · rw [if_pos hdiv, hdiv, Nat.digits_zero, List.map_nil]
    · rw [if_neg hdiv, numeral, if_neg hdiv, List.reverse_reverse]

theorem ntoaDigits_chars {uppercase : Bool} {base : BitVec 64} (hbase : 2 ≤ base.toNat)
    {rounds : Nat} {value : BitVec 64} {buf : NtoaBuffer}
    (hrounds : buf.len + rounds = ntoaBufferSize) :
    (ntoaDigits uppercase base rounds value buf).chars
      = buf.chars ++ (numeral uppercase base.toNat value.toNat).reverse.take rounds := by
  induction rounds generalizing value buf with
  | zero => rw [ntoaDigits, List.take_zero, List.append_nil]
  | succ rounds ih =>
      change buf.chars.length + (rounds + 1) = ntoaBufferSize at hrounds
      have hroom : buf.len < ntoaBufferSize := by
        change buf.chars.length < ntoaBufferSize
        omega
      have hdigit : digitChar uppercase ((value % base).setWidth 8)
          = digitByte uppercase (value.toNat % base.toNat) := by
        rw [digitByte, ← BitVec.toNat_umod, BitVec.ofNat_toNat]
      have hdiv : value / base ≠ 0#64 ↔ value.toNat / base.toNat ≠ 0 := by
        rw [not_iff_not, ← BitVec.toNat_inj, BitVec.toNat_udiv]
        rfl
      rw [ntoaDigits, dif_pos hroom, reverse_numeral_step hbase, List.take_succ_cons]
      by_cases hmore : value.toNat / base.toNat = 0
      · rw [if_pos hmore, if_neg (by rw [hdiv]; exact not_not.mpr hmore), hdigit, List.take_nil]
        rfl
      · have hlen : (buf.push (digitChar uppercase ((value % base).setWidth 8)) hroom).len + rounds
            = ntoaBufferSize := by
          change (buf.chars ++ [_]).length + rounds = _
          rw [List.length_append, List.length_singleton]
          omega
        rw [if_neg hmore, if_pos (hdiv.mpr hmore), ih hlen, BitVec.toNat_udiv, hdigit]
        exact List.append_assoc _ _ _

theorem digitsBuffer_chars {base : BitVec 64} (hbase : 2 ≤ base.toNat) (value : BitVec 64)
    (flags : Flags) :
    (digitsBuffer value base flags).chars
      = (shownDigits flags base.toNat value.toNat).reverse.take ntoaBufferSize := by
  have hzero : value = 0#64 ↔ value.toNat = 0 := by
    rw [← BitVec.toNat_inj]
    rfl
  rw [digitsBuffer, shownDigits]
  by_cases hnone : flags.precision = true ∧ value.toNat = 0
  · rw [if_pos hnone, if_neg]
    · rfl
    · simp [hnone.1, hzero.mpr hnone.2]
  · rw [if_neg hnone, if_pos]
    · rw [ntoaDigits_chars hbase (Nat.zero_add _)]
      rfl
    · cases hprec : flags.precision with
      | false => rfl
      | true =>
          have hvalue : value ≠ 0#64 := fun h => hnone ⟨hprec, hzero.mp h⟩
          simp [hvalue]

theorem padZeros_chars {target : BitVec 32} {rounds : Nat} {buf : NtoaBuffer}
    (hrounds : ntoaBufferSize - buf.len ≤ rounds) :
    (buf.padZeros target rounds).chars
      = buf.chars ++ zeros (min target.toNat ntoaBufferSize - buf.len) := by
  induction rounds generalizing buf with
  | zero =>
      have hnone : min target.toNat ntoaBufferSize - buf.len = 0 := by omega
      rw [NtoaBuffer.padZeros, hnone]
      exact (List.append_nil _).symm
  | succ rounds ih =>
      rw [NtoaBuffer.padZeros]
      by_cases htarget : buf.len < target.toNat
      · by_cases hroom : buf.len < ntoaBufferSize
        · have hlen : (buf.push (byte '0') hroom).len = buf.len + 1 := by
            change (buf.chars ++ [_]).length = _
            rw [List.length_append, List.length_singleton]
          have hcount : min target.toNat ntoaBufferSize - buf.len
              = min target.toNat ntoaBufferSize - (buf.len + 1) + 1 := by omega
          rw [if_pos htarget, dif_pos hroom, ih (by omega), hlen, hcount, zeros, zeros,
            List.replicate_succ]
          exact List.append_assoc _ _ _
        · have hnone : min target.toNat ntoaBufferSize - buf.len = 0 := by omega
          rw [if_pos htarget, dif_neg hroom, hnone]
          exact (List.append_nil _).symm
      · have hnone : min target.toNat ntoaBufferSize - buf.len = 0 := by omega
        rw [if_neg htarget, hnone]
        exact (List.append_nil _).symm

theorem ntoaSign_chars (buf : NtoaBuffer) (negative : Bool) (flags : Flags) :
    (ntoaSign buf negative flags).chars
      = if buf.len < ntoaBufferSize then buf.chars ++ signText negative flags else buf.chars := by
  have hpush : ∀ ch : BitVec 8, (buf.pushIf ch).chars
      = if buf.len < ntoaBufferSize then buf.chars ++ [ch] else buf.chars := by
    intro ch
    rw [NtoaBuffer.pushIf]
    split <;> rfl
  rw [ntoaSign, signText]
  split
  · exact hpush _
  split
  · exact hpush _
  split
  · exact hpush _
  · rw [List.append_nil, ite_self]

theorem toNat_signWidth (negative : Bool) (width : BitVec 32) (flags : Flags) :
    (signWidth negative width flags).toNat
      = if flags.left = false ∧ flags.zeropad = true then
          width.toNat - (signText negative flags).length
        else width.toNat := by
  have hzero : width.toNat = 0 ↔ width = 0#32 := by
    rw [← BitVec.toNat_inj]
    rfl
  rw [signWidth, signText]
  cases flags.left <;> cases flags.zeropad <;> try simp
  by_cases hwidth : width = 0#32
  · simp [hwidth]
  · have hsub := toNat_sub_one hwidth
    cases negative <;> cases flags.plus <;> cases flags.space <;> simp [hwidth, hsub]

/-- The zeros, all at once. -/
theorem ntoaZeros_chars (buf : NtoaBuffer) (prec width : BitVec 32) (flags : Flags) :
    (ntoaZeros buf prec width flags).chars
      = buf.chars ++ zeros (min (if flags.left then 0
          else if flags.zeropad then max prec.toNat width.toNat else prec.toNat) ntoaBufferSize
            - buf.len) := by
  rw [ntoaZeros]
  cases flags.left with
  | true => simp [zeros]
  | false =>
      have hprec : (buf.padZeros prec ntoaBufferSize).chars
          = buf.chars ++ zeros (min prec.toNat ntoaBufferSize - buf.len) :=
        padZeros_chars (Nat.sub_le _ _)
      cases flags.zeropad with
      | false => simpa using hprec
      | true =>
          have hlen : (buf.padZeros prec ntoaBufferSize).len
              = buf.len + (min prec.toNat ntoaBufferSize - buf.len) := by
            rw [NtoaBuffer.len, hprec, List.length_append, zeros, List.length_replicate]
          have hbuf := buf.length_le
          simp only [Bool.not_false, if_true, Bool.false_eq_true, if_false]
          rw [padZeros_chars (Nat.sub_le _ _), hprec, List.append_assoc, hlen, zeros, zeros, zeros,
            List.replicate_append_replicate]
          congr 2
          omega

theorem reverse_ntoaSign {base : BitVec 64} (hbase : 2 ≤ base.toNat) (value : BitVec 64)
    (negative : Bool) (prec width : BitVec 32) (flags : Flags) :
    (ntoaSign (ntoaZeros (digitsBuffer value base flags) prec (signWidth negative width flags) flags)
        negative flags).chars.reverse
      = bufferText (shownDigits flags base.toNat value.toNat) (signText negative flags)
          (zeroTarget (signText negative flags) prec.toNat width.toNat flags) := by
  set digits := shownDigits flags base.toNat value.toNat with hdigits
  set sign := signText negative flags with hsign
  have htarget : (if flags.left then 0 else if flags.zeropad then
      max prec.toNat (signWidth negative width flags).toNat else prec.toNat)
      = zeroTarget sign prec.toNat width.toNat flags := by
    rw [zeroTarget, toNat_signWidth]
    cases flags.left <;> cases flags.zeropad <;> simp [hsign]
  have hkept : (digitsBuffer value base flags).chars.reverse
      = digits.drop (digits.length - ntoaBufferSize) := by
    rw [digitsBuffer_chars hbase, ← hdigits, List.take_reverse, List.reverse_reverse]
  have hbody : (ntoaZeros (digitsBuffer value base flags) prec (signWidth negative width flags)
      flags).chars.reverse = bufferBody digits (zeroTarget sign prec.toNat width.toNat flags) := by
    rw [ntoaZeros_chars, htarget, bufferBody, ← hkept, List.reverse_append, zeros,
      List.reverse_replicate, List.length_reverse]
    rfl
  have hlen := congrArg List.length hbody
  rw [List.length_reverse] at hlen
  rw [ntoaSign_chars, bufferText, ← hlen, ← hbody, ← hsign]
  split
  · rw [List.reverse_append]
    congr 1
    rw [hsign, signText]
    repeat' split
    all_goals rfl
  · rfl

/-- Without `#` the code writes its own layout of the digits. -/
theorem numberText_eq_codeLayout {base : BitVec 64} (hbase : 2 ≤ base.toNat) (value : BitVec 64)
    (negative : Bool) (prec width : BitVec 32) {flags : Flags} (hhash : flags.hash = false) :
    numberText value negative base prec width flags
      = codeLayout (shownDigits flags base.toNat value.toNat) (signText negative flags) prec.toNat
          width.toNat flags := by
  have hflags : (if value = 0#64 then { flags with hash := false } else flags) = flags := by
    obtain ⟨_, _, _, _, _, _, _, _, _, _, _⟩ := flags
    subst hhash
    exact ite_self _
  have hreverse := reverse_ntoaSign hbase value negative prec width flags
  rw [numberText, hflags]
  simp only [ntoaHash, hhash, Bool.false_eq_true, if_false]
  rw [revText, codeLayout, hreverse, ← List.length_reverse, hreverse, toNat_signWidth]
  cases flags.left <;> cases flags.zeropad <;> simp

/-! ### Where they agree -/

/-- The conversion buffer holds the digits, with their zeros, and the sign; and a left-justified number
has no zeros, so its precision must not ask for any. A sign that is lost shows all the same if it is a
blank and blanks are padded with. -/
structure Fits (digits sign : List (BitVec 8)) (prec width : Nat) (flags : Flags) : Prop where
  left : flags.left = true → prec ≤ digits.length
  room : max digits.length (zeroTarget sign prec width flags) + sign.length ≤ ntoaBufferSize
    ∨ (max digits.length (zeroTarget sign prec width flags) = ntoaBufferSize ∧ sign = [byte ' ']
        ∧ flags.left = false ∧ flags.zeropad = false ∧ ntoaBufferSize < width)

theorem length_zeros (count : Nat) : (zeros count).length = count := List.length_replicate

theorem length_bufferBody (digits : List (BitVec 8)) (target : Nat) :
    (bufferBody digits target).length = min (max digits.length target) ntoaBufferSize := by
  rw [bufferBody, List.length_append, length_zeros, List.length_drop]
  omega

theorem bufferBody_of_le {digits : List (BitVec 8)} {target : Nat}
    (hfits : max digits.length target ≤ ntoaBufferSize) :
    bufferBody digits target = zeros (target - digits.length) ++ digits := by
  have hnone : digits.length - ntoaBufferSize = 0 := by omega
  have htarget : min target ntoaBufferSize = target := by omega
  rw [bufferBody, hnone, List.drop_zero, htarget]

theorem codeLayout_of_fits {digits sign : List (BitVec 8)} {prec width : Nat} {flags : Flags}
    (h : Fits digits sign prec width flags) :
    codeLayout digits sign prec width flags = layout digits sign prec width flags := by
  obtain ⟨hleft, hroom⟩ := h
  rcases hroom with hroom | ⟨hfull, rfl, hright, hblank, hwidth⟩
  · have hbody := bufferBody_of_le (Nat.le_of_add_right_le hroom)
    have hlength := length_bufferBody digits (zeroTarget sign prec width flags)
    have htext : bufferText digits sign (zeroTarget sign prec width flags)
        = sign ++ bufferBody digits (zeroTarget sign prec width flags) := by
      rw [bufferText]
      split
      · rfl
      · have hnil : sign = [] := List.length_eq_zero_iff.mp (by omega)
        rw [hnil, List.nil_append]
    rw [codeLayout, htext, hbody, layout]
    cases hl : flags.left with
    | true =>
        have hprec : prec - digits.length = 0 := Nat.sub_eq_zero_of_le (hleft hl)
        have htarget : zeroTarget sign prec width flags = 0 := by simp [zeroTarget, hl]
        simp [hprec, htarget, zeros]
    | false =>
        cases hz : flags.zeropad with
        | true =>
            have htarget : zeroTarget sign prec width flags = max prec (width - sign.length) := by
              simp [zeroTarget, hl, hz]
            have hcount : max prec (width - sign.length) - digits.length
                = width - (sign.length + (prec - digits.length + digits.length))
                    + (prec - digits.length) := by omega
            simp only [htarget, Bool.false_eq_true, if_false, if_true, List.length_append,
              length_zeros]
            rw [hcount, zeros, ← List.replicate_append_replicate, List.append_assoc]
            rfl
        | false =>
            have htarget : zeroTarget sign prec width flags = prec := by simp [zeroTarget, hl, hz]
            simp only [htarget, Bool.false_eq_true, if_false, List.length_append, length_zeros]
  · have htarget : zeroTarget [byte ' '] prec width flags = prec := by
      simp [zeroTarget, hright, hblank]
    rw [htarget] at hfull
    have hbody := bufferBody_of_le (Nat.le_of_eq hfull)
    have hlength := length_bufferBody digits prec
    have hcount : width - ntoaBufferSize = width - (1 + ntoaBufferSize) + 1 := by omega
    have hzeros : prec - digits.length + digits.length = ntoaBufferSize := by omega
    have htext : bufferText digits [byte ' '] prec = bufferBody digits prec := by
      rw [bufferText]
      exact if_neg (by omega)
    rw [codeLayout, layout, htarget, htext, hbody]
    simp only [hright, hblank, Bool.false_eq_true, if_false, List.length_append, length_zeros,
      List.length_singleton, hzeros, hcount]
    rw [spaces, List.replicate_succ', List.append_assoc]
    rfl

section Agree

variable {digits sign : List (BitVec 8)} {prec width : Nat} {flags : Flags}

end Agree

/-! ### Integer conversions -/

theorem specifierBase_bounds (specifier : BitVec 8) :
    2 ≤ (specifierBase specifier).toNat ∧ (specifierBase specifier).toNat ≤ 16 := by
  rw [specifierBase]
  split
  · decide
  split
  · decide
  split <;> decide

theorem natAbs_integerValue_lt (specifier : BitVec 8) (flags : Flags) (arg : BitVec 64) :
    (integerValue specifier flags arg).natAbs < 2 ^ 64 := by
  have hsigned : ∀ {w : Nat} (value : BitVec w), w ≤ 64 → value.toInt.natAbs < 2 ^ 64 := by
    intro w value hw
    rw [← toNat_magnitude]
    exact Nat.lt_of_lt_of_le (magnitude value).isLt (Nat.pow_le_pow_right (by decide) hw)
  have hunsigned : ∀ {w : Nat} (value : BitVec w), w ≤ 64 → (value.toNat : Int).natAbs < 2 ^ 64 := by
    intro w value hw
    exact Nat.lt_of_lt_of_le value.isLt (Nat.pow_le_pow_right (by decide) hw)
  rw [integerValue]
  repeat' split
  all_goals first
    | exact hsigned _ (by decide)
    | exact hunsigned _ (by decide)

theorem integerText_eq_codeLayout (specifier : BitVec 8) (d : Directive) (arg : BitVec 64)
    (hhash : d.flags.hash = false ∨ specifierBase specifier = 10#64) :
    integerText specifier d arg
      = codeLayout
          (shownDigits (integerFlags specifier d.flags) (specifierBase specifier).toNat
            (integerValue specifier d.flags arg).natAbs)
          (signText (integerValue specifier d.flags arg < 0) (integerFlags specifier d.flags))
          d.precision.toNat d.width.toNat (integerFlags specifier d.flags) := by
  have hnone : (integerFlags specifier d.flags).hash = false := by
    rw [integerFlags_eq]
    rcases hhash with hhash | hhash <;> simp [hhash]
  have hvalue : (BitVec.ofNat 64 (integerValue specifier d.flags arg).natAbs).toNat
      = (integerValue specifier d.flags arg).natAbs := by
    rw [BitVec.toNat_ofNat]
    exact Nat.mod_eq_of_lt (natAbs_integerValue_lt specifier d.flags arg)
  rw [integerText, numberText_eq_codeLayout (specifierBase_bounds specifier).1 _ _ _ _ hnone, hvalue]

end RainstormOs.Printf
