import RainstormOs.Utils.Printf

/-!
# The text of a conversion

None of the functions of `printf.c` looks at what its output function does, so each of them comes
down to a text it writes one character after the other. Here the text of every conversion is stated
in terms of the number or the string it shows, and each function is proved to write its text, for any
output function, limit and place in the output.
-/

namespace RainstormOs.Printf

/-! ### Writing a text -/

section Writing

variable {σ : Type} {out : BitVec 8 → BitVec 64 → BitVec 64 → σ → Option σ} {maxlen : BitVec 64}

theorem putAll_append (xs ys : List (BitVec 8)) (s : Cursor σ) :
    putAll out maxlen (xs ++ ys) s = (putAll out maxlen xs s).bind (putAll out maxlen ys) := by
  induction xs generalizing s with
  | nil => rfl
  | cons ch xs ih =>
      rw [List.cons_append, putAll, putAll]
      change (put out maxlen ch s).bind _ = ((put out maxlen ch s).bind _).bind _
      rw [Option.bind_assoc]
      exact Option.bind_congr fun t _ => ih t

theorem putAll_singleton (ch : BitVec 8) (s : Cursor σ) :
    putAll out maxlen [ch] s = put out maxlen ch s := by
  change (put out maxlen ch s).bind some = _
  exact Option.bind_fun_some _

theorem putTimes_eq (ch : BitVec 8) (count : Nat) (s : Cursor σ) :
    putTimes out maxlen ch count s = putAll out maxlen (List.replicate count ch) s := by
  induction count generalizing s with
  | zero => rfl
  | succ count ih =>
      rw [List.replicate_succ, putTimes, putAll]
      exact Option.bind_congr fun t _ => ih t

theorem put_idx {ch : BitVec 8} {s t : Cursor σ} (h : put out maxlen ch s = some t) :
    t.idx = s.idx + 1#64 := by
  obtain ⟨state, -, rfl⟩ := Option.map_eq_some_iff.mp h
  rfl

theorem putAll_idx {text : List (BitVec 8)} {s t : Cursor σ}
    (h : putAll out maxlen text s = some t) : t.idx = s.idx + BitVec.ofNat 64 text.length := by
  induction text generalizing s with
  | nil =>
      obtain rfl := Option.some.inj h
      simp
  | cons ch text ih =>
      obtain ⟨mid, hput, hrest⟩ := Option.bind_eq_some_iff.mp h
      rw [ih hrest, put_idx hput, List.length_cons, BitVec.add_assoc, ← BitVec.ofNat_add,
        Nat.add_comm]

def spaces (count : Nat) : List (BitVec 8) := List.replicate count (byte ' ')

/-- The padding loop of a left-justified number, when `written` characters stand before it. -/
theorem padTo_eq {startIdx : BitVec 64} {width : BitVec 32} {rounds written : Nat} {s : Cursor σ}
    (hwritten : s.idx - startIdx = BitVec.ofNat 64 written) (hsmall : written < 2 ^ 33)
    (hrounds : width.toNat - written ≤ rounds) :
    padTo out maxlen startIdx width rounds s
      = putAll out maxlen (spaces (width.toNat - written)) s := by
  have hwidth := width.isLt
  induction rounds generalizing s written with
  | zero =>
      have hnone : width.toNat - written = 0 := by omega
      rw [hnone]
      rfl
  | succ rounds ih =>
      have hlt : s.idx - startIdx < width.setWidth 64 ↔ written < width.toNat := by
        rw [BitVec.lt_def, hwritten, BitVec.toNat_ofNat, BitVec.toNat_setWidth,
          Nat.mod_eq_of_lt (by omega), Nat.mod_eq_of_lt (by omega)]
      rw [padTo]
      by_cases hmore : written < width.toNat
      · have hcount : width.toNat - written = width.toNat - (written + 1) + 1 := by omega
        rw [if_pos (hlt.mpr hmore), hcount, spaces, List.replicate_succ, putAll]
        refine Option.bind_congr fun t ht => ih ?_ (by omega) (by omega)
        rw [put_idx ht, BitVec.ofNat_add, ← hwritten, BitVec.sub_eq_add_neg, BitVec.sub_eq_add_neg,
          BitVec.add_assoc, BitVec.add_comm 1#64, ← BitVec.add_assoc]
      · have hnone : width.toNat - written = 0 := by omega
        rw [if_neg (mt hlt.mp hmore), hnone]
        rfl

/-- What `_out_rev` writes: the buffer backwards, in a field of the given width. -/
def revText (buf : List (BitVec 8)) (width : BitVec 32) (flags : Flags) : List (BitVec 8) :=
  if flags.left then
    buf.reverse ++ spaces (width.toNat - buf.length)
  else if flags.zeropad then
    buf.reverse
  else
    spaces (width.toNat - buf.length) ++ buf.reverse

theorem outRev_eq {buf : List (BitVec 8)} (hbuf : buf.length ≤ ntoaBufferSize) (width : BitVec 32)
    (flags : Flags) (s : Cursor σ) :
    outRev out maxlen buf width flags s = putAll out maxlen (revText buf width flags) s := by
  change buf.length ≤ 32 at hbuf
  rw [outRev, revText]
  cases hleft : flags.left with
  | true =>
      simp only [Bool.not_true, Bool.false_and, Bool.false_eq_true, if_false, if_true, putAll_append]
      refine Option.bind_congr fun t ht => padTo_eq ?_ (by omega) (Nat.sub_le _ _)
      rw [putAll_idx ht, List.length_reverse, BitVec.add_comm, BitVec.add_sub_cancel]
  | false =>
      cases hzero : flags.zeropad with
      | true =>
          simp only [Bool.not_false, Bool.not_true, Bool.and_false, Bool.false_eq_true, if_false,
            if_true]
          exact Option.bind_fun_some _
      | false =>
          simp only [Bool.not_false, Bool.and_true, if_true, Bool.false_eq_true, if_false,
            putAll_append, putTimes_eq]
          exact Option.bind_congr fun t _ => Option.bind_fun_some _

end Writing

/-! ### Integers -/

/-- The digits of a value in the conversion buffer, the lowest one first. -/
def digitsBuffer (value : BitVec 64) (base : BitVec 64) (flags : Flags) : NtoaBuffer :=
  if !flags.precision || value ≠ 0#64 then
    ntoaDigits flags.uppercase base ntoaBufferSize value .empty
  else
    .empty

/-- What `_ntoa_long` and `_ntoa_long_long` write. -/
def numberText (value : BitVec 64) (negative : Bool) (base : BitVec 64) (prec width : BitVec 32)
    (flags : Flags) : List (BitVec 8) :=
  let flags := if value = 0#64 then { flags with hash := false } else flags
  let width := signWidth negative width flags
  let buf := ntoaZeros (digitsBuffer value base flags) prec width flags
  let buf := ntoaHash buf (base.setWidth 32) prec width flags
  revText (ntoaSign buf negative flags).chars width flags

theorem toNat_magnitude {w : Nat} (value : BitVec w) :
    (magnitude value).toNat = value.toInt.natAbs := by
  have hlt := value.isLt
  have hint := BitVec.toInt_eq_toNat_cond value
  have hsign : (0#w).slt value ↔ 0 < value.toInt := by
    rw [BitVec.slt_iff_toInt_lt, BitVec.toInt_zero]
  rw [magnitude]
  by_cases hpos : 0 < value.toInt
  · rw [if_pos (hsign.mpr hpos)]
    split at hint <;> omega
  · rw [if_neg (mt hsign.mp hpos), BitVec.toNat_sub, BitVec.toNat_ofNat, Nat.zero_mod, Nat.add_zero]
    split at hint
    · have hzero : value.toNat = 0 := by omega
      rw [hzero, Nat.sub_zero, Nat.mod_self]
      omega
    · rw [Nat.mod_eq_of_lt (by omega)]
      omega

/-- The integer an argument stands for. -/
def integerValue (specifier : BitVec 8) (flags : Flags) (arg : BitVec 64) : Int :=
  if isSigned specifier then
    if flags.longLong || flags.long then arg.toInt
    else if flags.char then (arg.setWidth 8).toInt
    else if flags.short then (arg.setWidth 16).toInt
    else (arg.setWidth 32).toInt
  else
    if flags.longLong || flags.long then arg.toNat
    else if flags.char then (arg.setWidth 8).toNat
    else if flags.short then (arg.setWidth 16).toNat
    else (arg.setWidth 32).toNat

/-- The same integer as the code hands it on, by its magnitude and its sign. -/
def integerOperand (specifier : BitVec 8) (flags : Flags) (arg : BitVec 64) : BitVec 64 × Bool :=
  if isSigned specifier then
    if flags.longLong || flags.long then
      (magnitude arg, arg.slt 0#64)
    else if flags.char then
      ((magnitude ((arg.setWidth 8).signExtend 32)).setWidth 64,
        ((arg.setWidth 8).signExtend 32).slt 0#32)
    else if flags.short then
      ((magnitude ((arg.setWidth 16).signExtend 32)).setWidth 64,
        ((arg.setWidth 16).signExtend 32).slt 0#32)
    else
      ((magnitude (arg.setWidth 32)).setWidth 64, (arg.setWidth 32).slt 0#32)
  else
    if flags.longLong || flags.long then (arg, false)
    else if flags.char then (((arg.setWidth 8).setWidth 32).setWidth 64, false)
    else if flags.short then (((arg.setWidth 16).setWidth 32).setWidth 64, false)
    else ((arg.setWidth 32).setWidth 64, false)

theorem integerOperand_eq (specifier : BitVec 8) (flags : Flags) (arg : BitVec 64) :
    integerOperand specifier flags arg
      = (BitVec.ofNat 64 (integerValue specifier flags arg).natAbs,
          decide (integerValue specifier flags arg < 0)) := by
  have hmagnitude : ∀ {w : Nat} (value : BitVec w),
      (((magnitude value).setWidth 64 : BitVec 64), value.slt 0#w)
        = (BitVec.ofNat 64 value.toInt.natAbs, decide (value.toInt < 0)) := by
    intro w value
    rw [BitVec.slt_eq_decide, ← toNat_magnitude, BitVec.ofNat_toNat, BitVec.toInt_zero]
  have hunsigned : ∀ {w : Nat} (value : BitVec w), w ≤ 32 →
      (((value.setWidth 32).setWidth 64 : BitVec 64), false)
        = (BitVec.ofNat 64 (value.toNat : Int).natAbs, decide ((value.toNat : Int) < 0)) := by
    intro w value hw
    have hpos : ¬ (value.toNat : Int) < 0 := by omega
    rw [Int.natAbs_natCast, BitVec.ofNat_toNat, BitVec.setWidth_setWidth (by omega),
      decide_eq_false hpos]
  rw [integerOperand, integerValue]
  repeat' split
  · simpa using hmagnitude arg
  · rw [hmagnitude, BitVec.toInt_signExtend_of_le (by decide)]
  · rw [hmagnitude, BitVec.toInt_signExtend_of_le (by decide)]
  · exact hmagnitude _
  · simp
  · exact hunsigned _ (by decide)
  · exact hunsigned _ (by decide)
  · simpa using hunsigned (arg.setWidth 32) (by decide)

theorem integerFlags_eq (specifier : BitVec 8) (flags : Flags) :
    integerFlags specifier flags = { flags with
      zeropad := flags.zeropad && !flags.precision
      plus := flags.plus && isSigned specifier
      space := flags.space && isSigned specifier
      hash := flags.hash && specifierBase specifier ≠ 10#64
      uppercase := flags.uppercase || specifier = byte 'X' } := by
  obtain ⟨zeropad, left, plus, space, hash, uppercase, char, short, long, longLong, precision⟩ := flags
  rw [integerFlags]
  by_cases hupper : specifier = byte 'X'
  · have hbase : specifierBase (byte 'X') = 16#64 := by decide
    have hsigned : isSigned (byte 'X') = false := by decide
    subst hupper
    cases precision <;> simp [hbase, hsigned]
  · by_cases hbase : specifierBase specifier = 10#64 <;> cases hsigned : isSigned specifier <;>
      cases precision <;> simp [hupper, hbase]

/-- What an integer conversion writes. -/
def integerText (specifier : BitVec 8) (d : Directive) (arg : BitVec 64) : List (BitVec 8) :=
  let value := integerValue specifier d.flags arg
  numberText (BitVec.ofNat 64 value.natAbs) (value < 0) (specifierBase specifier) d.precision d.width
    (integerFlags specifier d.flags)

def pointerText (d : Directive) (arg : BitVec 64) : List (BitVec 8) :=
  numberText arg false 16#64 d.precision 16#32 { d.flags with zeropad := true, uppercase := true }

/-! ### Strings -/

/-- The string at a pointer, its bytes up to the terminating zero. -/
def cstring (p : List (BitVec 8)) : List (BitVec 8) := p.takeWhile (· ≠ 0#8)

/-- A text in a field, at its left or at its right end. -/
def fieldText (left : Bool) (padding : Nat) (text : List (BitVec 8)) : List (BitVec 8) :=
  if left then text ++ spaces padding else spaces padding ++ text

/-- Only a conversion with a precision has one other than zero. -/
def Directive.Valid (d : Directive) : Prop := d.flags.precision = false → d.precision = 0#32

/-- The part of a string the precision lets through. -/
def stringShown (d : Directive) (p : List (BitVec 8)) : List (BitVec 8) :=
  if d.flags.precision then (cstring p).take d.precision.toNat else cstring p

/-- What `s` needs: a terminating zero, or one byte more than the precision lets it show. With a
precision of zero only the terminating zero will do. -/
def StringReadable (d : Directive) (p : List (BitVec 8)) : Prop :=
  (cstring p).length < p.length ∨ (d.precision ≠ 0#32 ∧ d.precision.toNat < p.length)

instance (d : Directive) (p : List (BitVec 8)) : Decidable (StringReadable d p) :=
  inferInstanceAs (Decidable (_ ∨ _))

/-- What `s` writes. The length the padding is computed from is an `unsigned int`. -/
def stringText (d : Directive) (p : List (BitVec 8)) : Option (List (BitVec 8)) :=
  if StringReadable d p then
    some (fieldText d.flags.left (d.width.toNat - (stringShown d p).length % 2 ^ 32)
      (stringShown d p))
  else
    none

theorem cstring_cons (ch : BitVec 8) (p : List (BitVec 8)) :
    cstring (ch :: p) = if ch = 0#8 then [] else ch :: cstring p := by
  by_cases hch : ch = 0#8 <;> simp [cstring, hch]

theorem length_cstring_le (p : List (BitVec 8)) : (cstring p).length ≤ p.length :=
  (List.takeWhile_prefix _).length_le

theorem toNat_sub_one {w : Nat} {x : BitVec w} (hx : x ≠ 0#w) : (x - 1#w).toNat = x.toNat - 1 := by
  have hpos : 0 < x.toNat := Nat.pos_of_ne_zero fun h => hx (BitVec.eq_of_toNat_eq (by simpa using h))
  have hlt := x.isLt
  rw [BitVec.toNat_sub_of_le, BitVec.toNat_ofNat, Nat.mod_eq_of_lt (by omega)]
  rw [BitVec.le_def, BitVec.toNat_ofNat]
  exact Nat.le_trans (Nat.mod_le 1 _) hpos

theorem strnlen_eq (p : List (BitVec 8)) (maxsize : BitVec 64) :
    strnlen p maxsize
      = if (cstring p).length < p.length ∨ maxsize.toNat < p.length then
          some (BitVec.ofNat 32 (min (cstring p).length maxsize.toNat))
        else none := by
  induction p generalizing maxsize with
  | nil => rfl
  | cons ch p ih =>
      rw [strnlen, cstring_cons, List.length_cons]
      by_cases hch : ch = 0#8
      · simp [hch]
      · by_cases hmax : maxsize = 0#64
        · simp [hmax]
        · have hpos : maxsize.toNat ≠ 0 := fun h => hmax (BitVec.eq_of_toNat_eq h)
          rw [if_pos ⟨hch, hmax⟩, ih, toNat_sub_one hmax, if_neg hch, List.length_cons]
          by_cases hread : (cstring p).length < p.length ∨ maxsize.toNat - 1 < p.length
          · rw [if_pos hread, if_pos (by omega), Option.map_some,
              show min ((cstring p).length + 1) maxsize.toNat
                = min (cstring p).length (maxsize.toNat - 1) + 1 by omega, BitVec.ofNat_add]
          · rw [if_neg hread, if_neg (by omega), Option.map_none]

/-- The length of what is shown, as the code finds it before it writes anything. -/
theorem shownLength_eq {d : Directive} (hd : d.Valid) {p : List (BitVec 8)}
    (hlength : p.length < 2 ^ 64) :
    ((strnlen p (if d.precision ≠ 0#32 then d.precision.setWidth 64 else -1#64)).map fun l =>
        if d.flags.precision then (if l < d.precision then l else d.precision) else l)
      = if StringReadable d p then some (BitVec.ofNat 32 (stringShown d p).length) else none := by
  have hcstring := length_cstring_le p
  rw [strnlen_eq, stringShown]
  by_cases hprec : d.precision = 0#32
  · have hmax : (-1#64).toNat = 2 ^ 64 - 1 := by decide
    have hlimit : ¬ 2 ^ 64 - 1 < p.length := by omega
    simp only [StringReadable, hprec, ne_eq, not_true_eq_false, if_false, hmax, hlimit, or_false,
      false_and]
    by_cases hend : (cstring p).length < p.length
    · have hmin : min (cstring p).length (2 ^ 64 - 1) = (cstring p).length := by omega
      rw [if_pos hend, if_pos hend, hmin]
      cases d.flags.precision <;> simp
    · simp [hend]
  · have hflag : d.flags.precision = true := by
      cases hflag : d.flags.precision with
      | true => rfl
      | false => exact absurd (hd hflag) hprec
    have hlt := d.precision.isLt
    have hlimit : (d.precision.setWidth 64).toNat = d.precision.toNat := by
      rw [BitVec.toNat_setWidth]
      exact Nat.mod_eq_of_lt (by omega)
    simp only [StringReadable, hprec, hflag, ne_eq, not_false_eq_true, if_true, true_and, hlimit,
      List.length_take]
    split
    · have hmin : (BitVec.ofNat 32 (min (cstring p).length d.precision.toNat)).toNat
          = min (cstring p).length d.precision.toNat := by
        rw [BitVec.toNat_ofNat]
        exact Nat.mod_eq_of_lt (by omega)
      rw [Option.map_some, Nat.min_comm d.precision.toNat]
      split
      · rfl
      · next hge =>
          rw [BitVec.lt_def, hmin] at hge
          refine congrArg some (BitVec.eq_of_toNat_eq ?_)
          rw [hmin]
          omega
    · rfl

section Strings

variable {σ : Type} {out : BitVec 8 → BitVec 64 → BitVec 64 → σ → Option σ} {maxlen : BitVec 64}

theorem putString_eq (limited : Bool) (p : List (BitVec 8)) (precision : BitVec 32) (s : Cursor σ) :
    putString out maxlen limited p precision s
      = if (cstring p).length < p.length ∨ (limited = true ∧ precision.toNat < p.length) then
          putAll out maxlen (if limited then (cstring p).take precision.toNat else cstring p) s
        else none := by
  induction p generalizing precision s with
  | nil => simp [putString, cstring]
  | cons ch p ih =>
      rw [putString, cstring_cons, List.length_cons]
      by_cases hch : ch = 0#8
      · simp [hch, putAll]
      · cases limited with
        | false =>
            simp only [hch, ne_eq, not_false_eq_true, true_or, and_self, if_true, if_false,
              Bool.false_eq_true, false_and, or_false, List.length_cons, Nat.add_lt_add_iff_right,
              putAll, ih]
            split <;> rename_i hread
            · rfl
            · exact Option.bind_fun_none _
        | true =>
            by_cases hprec : precision = 0#32
            · simp [hprec, putAll]
            · have hpos : precision.toNat ≠ 0 := fun h => hprec (BitVec.eq_of_toNat_eq h)
              simp only [hch, hprec, ne_eq, not_false_eq_true, or_true, and_self, if_true, if_false,
                true_and, List.length_cons, ih, toNat_sub_one hprec]
              obtain ⟨n, hn⟩ := Nat.exists_eq_succ_of_ne_zero hpos
              simp only [hn, List.take_succ_cons, putAll, Nat.succ_sub_one]
              by_cases hread : (cstring p).length < p.length ∨ n < p.length
              · rw [if_pos (by omega)]
                exact Option.bind_congr fun t _ => if_pos hread
              · rw [if_neg (by omega)]
                simp only [if_neg hread]
                exact Option.bind_fun_none _

theorem padFrom_eq (l width : BitVec 32) (s : Cursor σ) :
    padFrom out maxlen l width s = putAll out maxlen (spaces (width.toNat - l.toNat)) s :=
  putTimes_eq _ _ _

end Strings

/-! ### The specifiers -/

/-- What a conversion writes, and the arguments it leaves. -/
def Directive.text (strings : Strings) (specifier : BitVec 8) (d : Directive) :
    Option (List (BitVec 8) × List (BitVec 64)) :=
  if isInteger specifier then
    (vaArg d.va).map fun arg => (integerText specifier d arg.1, arg.2)
  else if specifier = byte 'c' then
    (vaArg d.va).map fun arg => (fieldText d.flags.left (d.width.toNat - 1) [arg.1.setWidth 8], arg.2)
  else if specifier = byte 's' then
    (vaArg d.va).bind fun arg => (stringText d (strings.bytes arg.1)).map fun text => (text, arg.2)
  else if specifier = byte 'p' then
    (vaArg d.va).map fun arg => (pointerText d arg.1, arg.2)
  else
    some ([specifier], d.va)

section Specifiers

variable {σ : Type} {out : BitVec 8 → BitVec 64 → BitVec 64 → σ → Option σ} {maxlen : BitVec 64}

theorem ntoa_eq (value : BitVec 64) (negative : Bool) (base : BitVec 64) (prec width : BitVec 32)
    (flags : Flags) (s : Cursor σ) :
    ntoa out maxlen value negative base prec width flags s
      = putAll out maxlen (numberText value negative base prec width flags) s :=
  outRev_eq (NtoaBuffer.length_le _) _ _ _

theorem evalInteger_eq (specifier : BitVec 8) (d : Directive) (s : Cursor σ) :
    evalInteger out maxlen specifier d s
      = (vaArg d.va).bind fun arg =>
          (putAll out maxlen (integerText specifier d arg.1) s).map fun s => (arg.2, s) := by
  have hoperand : ∀ arg, numberText (integerOperand specifier d.flags arg).1
      (integerOperand specifier d.flags arg).2 (specifierBase specifier) d.precision d.width
        (integerFlags specifier d.flags) = integerText specifier d arg := by
    intro arg
    rw [integerOperand_eq, integerText]
  rw [evalInteger]
  refine Option.bind_congr fun arg _ => ?_
  simp only [← hoperand, ← ntoa_eq, ntoaLongLong, ntoaLong, integerFlags_eq, integerOperand]
  cases isSigned specifier <;> cases d.flags.longLong <;> cases d.flags.long <;>
    cases d.flags.char <;> cases d.flags.short <;>
    simp only [Bool.or_false, Bool.or_true, if_true, Bool.false_eq_true, if_false] <;>
    exact Option.map_eq_bind.symm

theorem evalChar_eq (d : Directive) (s : Cursor σ) :
    evalChar out maxlen d s
      = (vaArg d.va).bind fun arg =>
          (putAll out maxlen (fieldText d.flags.left (d.width.toNat - 1) [arg.1.setWidth 8]) s).map
            fun s => (arg.2, s) := by
  have hone : (1#32).toNat = 1 := rfl
  rw [evalChar]
  cases vaArg d.va with
  | none =>
      simp only [Option.bind_eq_bind, Option.bind_none, Option.bind_fun_none, ite_self]
  | some arg =>
      simp only [padFrom_eq, hone, fieldText]
      cases d.flags.left with
      | true =>
          simp only [Bool.not_true, Bool.false_eq_true, if_false, if_true, putAll_append,
            putAll_singleton, Option.bind_eq_bind, Option.bind_some, Option.map_eq_bind,
            Option.bind_assoc]
          rfl
      | false =>
          simp only [Bool.not_false, Bool.false_eq_true, if_false, if_true, putAll_append,
            Option.bind_eq_bind, Option.bind_some, Option.map_eq_bind,
            Option.bind_assoc]
          refine Option.bind_congr fun t _ => ?_
          rw [putAll_singleton]
          rfl

theorem evalString_eq {d : Directive} (hd : d.Valid) (strings : Strings) (s : Cursor σ) :
    evalString out maxlen strings d s
      = (vaArg d.va).bind fun arg => (stringText d (strings.bytes arg.1)).bind fun text =>
          (putAll out maxlen text s).map fun s => (arg.2, s) := by
  rw [evalString]
  refine Option.bind_congr fun arg _ => ?_
  have hshown := shownLength_eq hd (strings.length_lt arg.1)
  dsimp only
  generalize strings.bytes arg.1 = p at hshown ⊢
  rw [stringText]
  by_cases hread : StringReadable d p
  · rw [if_pos hread] at hshown
    obtain ⟨l, hstrnlen, hl⟩ := Option.map_eq_some_iff.mp hshown
    have hbody : ∀ s : Cursor σ, putString out maxlen d.flags.precision p d.precision s
        = putAll out maxlen (stringShown d p) s := by
      intro s
      rw [putString_eq, if_pos, stringShown]
      refine hread.imp_right fun hlimit => ⟨?_, hlimit.2⟩
      by_contra hflag
      exact hlimit.1 (hd (Bool.eq_false_iff.mpr hflag))
    simp only [hstrnlen, hl, hbody, padFrom_eq, if_pos hread, fieldText, BitVec.toNat_ofNat,
      Option.bind_eq_bind, Option.bind_some]
    cases d.flags.left with
    | true =>
        simp only [Bool.not_true, Bool.false_eq_true, if_false, if_true, putAll_append,
          Option.map_eq_bind, Option.bind_assoc]
        rfl
    | false =>
        simp only [Bool.not_false, Bool.false_eq_true, if_false, if_true, putAll_append,
          Option.map_eq_bind, Option.bind_assoc]
        rfl
  · rw [if_neg hread, Option.map_eq_none_iff] at hshown
    rw [hshown, if_neg hread]
    rfl

theorem evalPointer_eq (d : Directive) (s : Cursor σ) :
    evalPointer out maxlen d s
      = (vaArg d.va).bind fun arg =>
          (putAll out maxlen (pointerText d arg.1) s).map fun s => (arg.2, s) := by
  rw [evalPointer]
  refine Option.bind_congr fun arg _ => ?_
  simp only [ntoaLongLong, ntoa_eq, pointerText]
  exact Option.map_eq_bind.symm

/-- Every conversion writes its text. -/
theorem evalSpecifier_eq {d : Directive} (hd : d.Valid) (strings : Strings) (specifier : BitVec 8)
    (s : Cursor σ) :
    evalSpecifier out maxlen strings specifier d s
      = (d.text strings specifier).bind fun result =>
          (putAll out maxlen result.1 s).map fun s => (result.2, s) := by
  rw [evalSpecifier, Directive.text]
  split
  · rw [evalInteger_eq, Option.bind_map]
    rfl
  split
  · rw [evalChar_eq, Option.bind_map]
    rfl
  split
  · rw [evalString_eq hd, Option.bind_assoc]
    refine Option.bind_congr fun arg _ => ?_
    rw [Option.bind_map]
    rfl
  split
  · rw [evalPointer_eq, Option.bind_map]
    rfl
  · rw [Option.bind_some, putAll_singleton]
    exact Option.map_eq_bind.symm

end Specifiers

end RainstormOs.Printf
