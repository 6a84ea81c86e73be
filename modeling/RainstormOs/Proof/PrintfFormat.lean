import RainstormOs.Proof.PrintfText

/-!
# The format language

What a format string says, apart from how `_vsnprintf` reads it: a list of pieces, each a character to
write or a conversion, and the text they stand for over a list of arguments. The code is proved to
have a result exactly on the strings that spell such a list, and then to write its text.

A conversion is read by longest match, so not every sequence of fields spells one: `%5` followed by
`3d` is a conversion of width 53. A specifier the code has no case for is written as it is, and the
terminating zero is such a specifier: a format that ends inside a conversion goes on behind its end.
-/

namespace RainstormOs.Printf

open Scan

/-! ### Syntax -/

def isFlag (ch : BitVec 8) : Bool :=
  [byte '0', byte '-', byte '+', byte ' ', byte '#'].contains ch

/-- A number in a conversion: its digits, or a star that takes it from the arguments. -/
inductive Amount where
  | digits (ds : List (BitVec 8))
  | star

namespace Amount

def bytes : Amount → List (BitVec 8)
  | .digits ds => ds
  | .star => [byte '*']

def Numeric : Amount → Prop
  | .digits ds => ∀ ch ∈ ds, isDigit ch = true
  | .star => True

/-- A number ends in front of a character that is no digit, and one without digits in front of one
that is no star either. -/
def EndsBefore : Amount → List (BitVec 8) → Prop
  | .digits [], rest => StopsAt (fun ch => isDigit ch || ch = byte '*') rest
  | .digits (_ :: _), rest => StopsAt isDigit rest
  | .star, _ => True

end Amount

inductive Length where
  | none | l | ll | h | hh | t | j | z

namespace Length

def bytes : Length → List (BitVec 8)
  | .none => []
  | .l => [byte 'l']
  | .ll => [byte 'l', byte 'l']
  | .h => [byte 'h']
  | .hh => [byte 'h', byte 'h']
  | .t => [byte 't']
  | .j => [byte 'j']
  | .z => [byte 'z']

def isLength (ch : BitVec 8) : Bool :=
  [byte 'l', byte 'h', byte 't', byte 'j', byte 'z'].contains ch

def EndsBefore : Length → List (BitVec 8) → Prop
  | .none, rest => StopsAt isLength rest
  | .l, rest => StopsAt (· = byte 'l') rest
  | .h, rest => StopsAt (· = byte 'h') rest
  | _, _ => True

end Length

/-- A conversion, from behind its `%` to its specifier. -/
structure Conv where
  flags : List (BitVec 8)
  width : Amount
  precision : Option Amount
  length : Length
  specifier : BitVec 8

def precisionBytes : Option Amount → List (BitVec 8)
  | none => []
  | some amount => byte '.' :: amount.bytes

namespace Conv

def afterPrecision (c : Conv) : List (BitVec 8) := c.length.bytes ++ [c.specifier]

def afterWidth (c : Conv) : List (BitVec 8) := precisionBytes c.precision ++ c.afterPrecision

def afterFlags (c : Conv) : List (BitVec 8) := c.width.bytes ++ c.afterWidth

def bytes (c : Conv) : List (BitVec 8) := c.flags ++ c.afterFlags

/-- Each field is what it is called, and none of them could take more of what follows it. -/
structure WellFormed (c : Conv) : Prop where
  flags : ∀ ch ∈ c.flags, isFlag ch = true
  flagsEnd : StopsAt isFlag c.afterFlags
  width : c.width.Numeric
  widthEnd : c.width.EndsBefore c.afterWidth
  precision : ∀ amount ∈ c.precision, amount.Numeric ∧ amount.EndsBefore c.afterPrecision
  noPrecision : c.precision = none → StopsAt (· = byte '.') c.afterPrecision
  lengthEnd : c.length.EndsBefore [c.specifier]

end Conv

inductive Piece where
  | literal (ch : BitVec 8)
  | conv (c : Conv)

namespace Piece

def bytes : Piece → List (BitVec 8)
  | .literal ch => [ch]
  | .conv c => byte '%' :: c.bytes

def WellFormed : Piece → Prop
  | .literal ch => ch ≠ 0#8 ∧ ch ≠ byte '%'
  | .conv c => c.WellFormed

end Piece

/-- The format string of the pieces, without the terminating zero. -/
def formatBytes (pieces : List Piece) : List (BitVec 8) := pieces.flatMap Piece.bytes

/-! ### Meaning -/

def decimalValue (ds : List (BitVec 8)) : Nat := ds.foldl (fun i ch => i * 10 + (ch.toNat - 48)) 0

/-- The number, and the arguments it leaves. One from the arguments is an `int`. -/
def Amount.value : Amount → List (BitVec 64) → Option (Int × List (BitVec 64))
  | .digits ds, va => some (decimalValue ds, va)
  | .star, va => (vaArg va).map fun arg => ((arg.1.setWidth 32).toInt, arg.2)

def precisionValue : Option Amount → List (BitVec 64) → Option (Int × List (BitVec 64))
  | none, va => some (0, va)
  | some amount, va => amount.value va

/-- The flags of a conversion; a negative width is a flag too. -/
def Conv.flagBits (c : Conv) (width : Int) : Flags where
  zeropad := c.flags.contains (byte '0')
  left := c.flags.contains (byte '-') || width < 0
  plus := c.flags.contains (byte '+')
  space := c.flags.contains (byte ' ')
  hash := c.flags.contains (byte '#')
  char := c.length matches .hh
  short := c.length matches .h | .hh
  long := c.length matches .l | .ll | .t | .j | .z
  longLong := c.length matches .ll
  precision := c.precision.isSome

/-- The conversion with its numbers filled in. A negative precision is none. -/
def Conv.directive (c : Conv) (va : List (BitVec 64)) : Option Directive := do
  let width ← c.width.value va
  let precision ← precisionValue c.precision width.2
  some ⟨c.flagBits width.1, BitVec.ofNat 32 width.1.natAbs, BitVec.ofNat 32 precision.1.toNat, [],
    precision.2⟩

def Piece.text (strings : Strings) : Piece → List (BitVec 64) →
    Option (List (BitVec 8) × List (BitVec 64))
  | .literal ch, va => some ([ch], va)
  | .conv c, va => (c.directive va).bind fun d => d.text strings c.specifier

/-- The text of a format: the texts of its pieces, each over the arguments the ones before it
leave. -/
def formatText (strings : Strings) : List Piece → List (BitVec 64) → Option (List (BitVec 8))
  | [], _ => some []
  | piece :: pieces, va => do
      let out ← piece.text strings va
      let rest ← formatText strings pieces out.2
      some (out.1 ++ rest)

/-! ### Reading the fields -/

theorem isDigit_iff {ch : BitVec 8} : isDigit ch = true ↔ 48 ≤ ch.toNat ∧ ch.toNat ≤ 57 := by
  have hzero : (byte '0').toNat = 48 := by decide
  have hnine : (byte '9').toNat = 57 := by decide
  rw [isDigit, Bool.and_eq_true, decide_eq_true_iff, decide_eq_true_iff, BitVec.le_def, BitVec.le_def,
    hzero, hnine]

theorem setWidth_sub_byte_zero {ch : BitVec 8} (hch : isDigit ch = true) :
    (ch - byte '0').setWidth 32 = BitVec.ofNat 32 (ch.toNat - 48) := by
  have hzero : (byte '0').toNat = 48 := by decide
  obtain ⟨hlow, -⟩ := isDigit_iff.mp hch
  rw [← BitVec.ofNat_toNat, BitVec.toNat_sub_of_le (by rw [BitVec.le_def, hzero]; exact hlow), hzero]

theorem foldl_digits {ds : List (BitVec 8)} (hds : ∀ ch ∈ ds, isDigit ch = true) (i : Nat) :
    ds.foldl (fun i ch => i * 10#32 + (ch - byte '0').setWidth 32) (BitVec.ofNat 32 i)
      = BitVec.ofNat 32 (ds.foldl (fun i ch => i * 10 + (ch.toNat - 48)) i) := by
  induction ds generalizing i with
  | nil => rfl
  | cons ch ds ih =>
      obtain ⟨hch, hds⟩ := List.forall_mem_cons.mp hds
      rw [List.foldl_cons, List.foldl_cons, setWidth_sub_byte_zero hch, ← BitVec.ofNat_mul,
        ← BitVec.ofNat_add, ih hds]

theorem atoi_eq_some_iff {str rest : List (BitVec 8)} {n : BitVec 32} :
    atoi str 0#32 = some (n, rest) ↔ ∃ ds, str = ds ++ rest ∧ (∀ ch ∈ ds, isDigit ch = true)
      ∧ StopsAt isDigit rest ∧ n = BitVec.ofNat 32 (decimalValue ds) := by
  rw [atoi, foldWhile_accept_eq_some_iff]
  refine exists_congr fun ds => and_congr_right fun _ => and_congr_right fun hds =>
    and_congr_right fun _ => ?_
  rw [show (0#32) = BitVec.ofNat 32 0 from rfl, foldl_digits hds, decimalValue]

/-- One flag character added. -/
def Flags.add (flags : Flags) (ch : BitVec 8) : Flags :=
  { flags with
    zeropad := flags.zeropad || ch = byte '0'
    left := flags.left || ch = byte '-'
    plus := flags.plus || ch = byte '+'
    space := flags.space || ch = byte ' '
    hash := flags.hash || ch = byte '#' }

theorem flags_set_eq : Flags.set = accept isFlag Flags.add := by
  funext flags ch
  by_cases h0 : ch = byte '0'
  · subst h0
    simp +decide [Flags.set, accept, Flags.add]
  by_cases hm : ch = byte '-'
  · subst hm
    simp +decide [Flags.set, accept, Flags.add]
  by_cases hp : ch = byte '+'
  · subst hp
    simp +decide [Flags.set, accept, Flags.add]
  by_cases hs : ch = byte ' '
  · subst hs
    simp +decide [Flags.set, accept, Flags.add]
  by_cases hh : ch = byte '#'
  · subst hh
    simp +decide [Flags.set, accept, Flags.add]
  · simp [Flags.set, accept, isFlag, h0, hm, hp, hs, hh]

/-- The flags after a run of flag characters. -/
theorem foldl_add (fs : List (BitVec 8)) (flags : Flags) :
    fs.foldl Flags.add flags = { flags with
      zeropad := flags.zeropad || fs.contains (byte '0')
      left := flags.left || fs.contains (byte '-')
      plus := flags.plus || fs.contains (byte '+')
      space := flags.space || fs.contains (byte ' ')
      hash := flags.hash || fs.contains (byte '#') } := by
  induction fs generalizing flags with
  | nil => simp
  | cons ch fs ih => simp [ih, Flags.add, Bool.or_assoc, eq_comm]

theorem evalFlags_eq_some_iff {format rest : List (BitVec 8)} {flags : Flags} :
    evalFlags format {} = some (flags, rest) ↔ ∃ fs, format = fs ++ rest
      ∧ (∀ ch ∈ fs, isFlag ch = true) ∧ StopsAt isFlag rest ∧ flags = fs.foldl Flags.add {} := by
  rw [evalFlags, flags_set_eq, foldWhile_accept_eq_some_iff]

/-- `amount` is what stands at the front of `format`, and `rest` is what follows it. -/
structure Amount.Reads (amount : Amount) (format rest : List (BitVec 8)) : Prop where
  split : format = amount.bytes ++ rest
  numeric : amount.Numeric
  ends : amount.EndsBefore rest

theorem not_reads_nil {amount : Amount} {rest : List (BitVec 8)} : ¬ amount.Reads [] rest := by
  rintro ⟨hsplit, -, hends⟩
  obtain ⟨hbytes, rfl⟩ := List.append_eq_nil_iff.mp hsplit.symm
  cases amount with
  | star => exact absurd hbytes (List.cons_ne_nil _ _)
  | digits ds =>
      cases ds with
      | nil => exact not_stopsAt_nil hends
      | cons d ds => exact absurd hbytes (List.cons_ne_nil _ _)

theorem reads_iff_of_digit {amount : Amount} {ch : BitVec 8} {str rest : List (BitVec 8)}
    (hch : isDigit ch = true) :
    amount.Reads (ch :: str) rest ↔ ∃ ds, amount = .digits ds ∧ ch :: str = ds ++ rest
      ∧ (∀ ch ∈ ds, isDigit ch = true) ∧ StopsAt isDigit rest := by
  constructor
  · rintro ⟨hsplit, hnumeric, hends⟩
    cases amount with
    | star =>
        obtain ⟨rfl, -⟩ := List.cons.inj hsplit
        exact absurd hch (by decide)
    | digits ds =>
        cases ds with
        | nil =>
            rw [Amount.bytes, List.nil_append] at hsplit
            rw [← hsplit, Amount.EndsBefore, stopsAt_cons, hch] at hends
            exact absurd hends (by simp)
        | cons d ds => exact ⟨d :: ds, rfl, hsplit, hnumeric, hends⟩
  · rintro ⟨ds, rfl, hsplit, hnumeric, hstop⟩
    cases ds with
    | nil =>
        rw [List.nil_append] at hsplit
        rw [← hsplit, stopsAt_cons, hch] at hstop
        exact absurd hstop (by decide)
    | cons d ds => exact ⟨hsplit, hnumeric, hstop⟩

theorem reads_iff_of_star {amount : Amount} {str rest : List (BitVec 8)} :
    amount.Reads (byte '*' :: str) rest ↔ amount = .star ∧ rest = str := by
  constructor
  · rintro ⟨hsplit, hnumeric, hends⟩
    cases amount with
    | star => exact ⟨rfl, (List.cons.inj hsplit).2.symm⟩
    | digits ds =>
        cases ds with
        | nil =>
            rw [Amount.bytes, List.nil_append] at hsplit
            rw [← hsplit, Amount.EndsBefore, stopsAt_cons] at hends
            exact absurd hends (by simp)
        | cons d ds =>
            obtain ⟨rfl, -⟩ := List.cons.inj hsplit
            exact absurd (hnumeric _ List.mem_cons_self) (by decide)
  · rintro ⟨rfl, rfl⟩
    exact ⟨rfl, trivial, trivial⟩

theorem reads_iff_of_neither {amount : Amount} {ch : BitVec 8} {str rest : List (BitVec 8)}
    (hdigit : isDigit ch = false) (hstar : ch ≠ byte '*') :
    amount.Reads (ch :: str) rest ↔ amount = .digits [] ∧ rest = ch :: str := by
  constructor
  · rintro ⟨hsplit, hnumeric, -⟩
    cases amount with
    | star => exact absurd (List.cons.inj hsplit).1 hstar
    | digits ds =>
        cases ds with
        | nil => exact ⟨rfl, hsplit.symm⟩
        | cons d ds =>
            obtain ⟨rfl, -⟩ := List.cons.inj hsplit
            rw [hnumeric _ List.mem_cons_self] at hdigit
            exact absurd hdigit (by decide)
  · rintro ⟨rfl, rfl⟩
    refine ⟨rfl, fun _ h => absurd h List.not_mem_nil, stopsAt_cons.mpr ?_⟩
    simp [hdigit, hstar]

theorem flags_left_or_false (flags : Flags) (n : Nat) :
    { flags with left := flags.left || decide ((n : Int) < 0) } = flags := by
  have hn : ¬ (n : Int) < 0 := by omega
  simp [hn]

/-- The width a star stands for: a negative one loses its sign to the flags. -/
theorem starWidth_eq (flags : Flags) (w : BitVec 32) (rest : List (BitVec 8)) (va : List (BitVec 64)) :
    (if w.slt 0#32 then (⟨{ flags with left := true }, -w, 0#32, rest, va⟩ : Directive)
      else ⟨flags, w, 0#32, rest, va⟩)
      = ⟨{ flags with left := flags.left || w.toInt < 0 }, BitVec.ofNat 32 w.toInt.natAbs, 0#32, rest,
          va⟩ := by
  have hslt : w.slt 0#32 = decide (w.toInt < 0) := by rw [BitVec.slt_eq_decide, BitVec.toInt_zero]
  have hmagnitude := toNat_magnitude w
  rw [magnitude, BitVec.slt_eq_decide, BitVec.toInt_zero] at hmagnitude
  rw [hslt, ← hmagnitude, BitVec.ofNat_toNat, BitVec.setWidth_eq]
  by_cases hneg : w.toInt < 0
  · have hpos : ¬ 0 < w.toInt := by omega
    simp [hneg, hpos]
  · by_cases hpos : 0 < w.toInt
    · simp [hneg, hpos]
    · have hzero : w = 0#32 := BitVec.eq_of_toInt_eq (by rw [BitVec.toInt_zero]; omega)
      simp [hzero]

theorem evalWidth_eq_some_iff {flags : Flags} {format : List (BitVec 8)} {va : List (BitVec 64)}
    {d : Directive} :
    evalWidth flags format va = some d ↔ ∃ amount rest width, Amount.Reads amount format rest
      ∧ amount.value va = some width
      ∧ d = ⟨{ flags with left := flags.left || width.1 < 0 }, BitVec.ofNat 32 width.1.natAbs, 0#32,
          rest, width.2⟩ := by
  cases format with
  | nil => simp [evalWidth, not_reads_nil]
  | cons ch str =>
      rw [evalWidth]
      change (if isDigit ch = true then _ else _) = _ ↔ _
      by_cases hdigit : isDigit ch = true
      · rw [if_pos hdigit]
        constructor
        · intro h
          obtain ⟨⟨width, rest⟩, hatoi, hd⟩ := Option.bind_eq_some_iff.mp h
          obtain ⟨ds, hsplit, hds, hstop, rfl⟩ := atoi_eq_some_iff.mp hatoi
          refine ⟨.digits ds, rest, (decimalValue ds, va),
            (reads_iff_of_digit hdigit).mpr ⟨ds, rfl, hsplit, hds, hstop⟩, rfl, ?_⟩
          rw [flags_left_or_false]
          exact (Option.some.inj hd).symm
        · rintro ⟨amount, rest, width, hreads, hvalue, rfl⟩
          obtain ⟨ds, rfl, hsplit, hds, hstop⟩ := (reads_iff_of_digit hdigit).mp hreads
          obtain rfl := Option.some.inj hvalue
          refine Option.bind_eq_some_iff.mpr
            ⟨_, atoi_eq_some_iff.mpr ⟨ds, hsplit, hds, hstop, rfl⟩, ?_⟩
          rw [flags_left_or_false]
          rfl
      · rw [if_neg hdigit]
        rw [Bool.not_eq_true] at hdigit
        by_cases hstar : ch = byte '*'
        · subst hstar
          rw [if_pos rfl]
          simp only [reads_iff_of_star, ← apply_ite some, starWidth_eq]
          constructor
          · intro h
            obtain ⟨⟨arg, va'⟩, hva, hd⟩ := Option.bind_eq_some_iff.mp h
            refine ⟨.star, str, ((arg.setWidth 32).toInt, va'), ⟨rfl, rfl⟩, ?_,
              (Option.some.inj hd).symm⟩
            rw [Amount.value, hva]
            rfl
          · rintro ⟨amount, rest, width, ⟨rfl, rfl⟩, hvalue, rfl⟩
            obtain ⟨arg, hva, rfl⟩ := Option.map_eq_some_iff.mp hvalue
            exact Option.bind_eq_some_iff.mpr ⟨arg, hva, rfl⟩
        · rw [if_neg hstar]
          simp only [reads_iff_of_neither hdigit hstar]
          constructor
          · intro h
            refine ⟨.digits [], ch :: str, (decimalValue [], va), ⟨rfl, rfl⟩, rfl, ?_⟩
            rw [flags_left_or_false]
            exact (Option.some.inj h).symm
          · rintro ⟨amount, rest, width, ⟨rfl, rfl⟩, hvalue, rfl⟩
            obtain rfl := Option.some.inj hvalue
            rw [flags_left_or_false]
            rfl

/-- The precision a conversion gives, read from the front of `format`. -/
structure PrecisionReads (precision : Option Amount) (format rest : List (BitVec 8)) : Prop where
  split : format = precisionBytes precision ++ rest
  given : ∀ amount ∈ precision, amount.Numeric ∧ amount.EndsBefore rest
  absent : precision = none → StopsAt (· = byte '.') rest

theorem precisionReads_dot {precision : Option Amount} {str rest : List (BitVec 8)} :
    PrecisionReads precision (byte '.' :: str) rest
      ↔ ∃ amount, precision = some amount ∧ amount.Reads str rest := by
  constructor
  · rintro ⟨hsplit, hgiven, habsent⟩
    cases precision with
    | none =>
        have hstop := habsent rfl
        rw [← show byte '.' :: str = rest from hsplit, stopsAt_cons] at hstop
        exact absurd hstop (by simp)
    | some amount =>
        obtain ⟨hnumeric, hends⟩ := hgiven amount rfl
        exact ⟨amount, rfl, (List.cons.inj hsplit).2, hnumeric, hends⟩
  · rintro ⟨amount, rfl, hsplit, hnumeric, hends⟩
    refine ⟨congrArg (byte '.' :: ·) hsplit, ?_, fun h => absurd h (Option.some_ne_none _)⟩
    rintro _ ⟨⟩
    exact ⟨hnumeric, hends⟩

theorem precisionReads_of_ne {precision : Option Amount} {ch : BitVec 8} {str rest : List (BitVec 8)}
    (hch : ch ≠ byte '.') :
    PrecisionReads precision (ch :: str) rest ↔ precision = none ∧ rest = ch :: str := by
  constructor
  · rintro ⟨hsplit, -, -⟩
    cases precision with
    | none => exact ⟨rfl, hsplit.symm⟩
    | some amount => exact absurd (List.cons.inj hsplit).1 hch
  · rintro ⟨rfl, rfl⟩
    refine ⟨rfl, fun _ h => absurd h (by simp), fun _ => stopsAt_cons.mpr ?_⟩
    simp [hch]

theorem not_precisionReads_nil {precision : Option Amount} {rest : List (BitVec 8)} :
    ¬ PrecisionReads precision [] rest := by
  rintro ⟨hsplit, -, habsent⟩
  cases precision with
  | none =>
      have hstop := habsent rfl
      rw [← show [] = rest from hsplit] at hstop
      exact not_stopsAt_nil hstop
  | some amount => exact absurd hsplit.symm (List.cons_ne_nil _ _)

/-- The precision a star stands for. -/
theorem starPrecision_eq (prec : BitVec 32) :
    (if (0#32).slt prec then prec else 0#32) = BitVec.ofNat 32 prec.toInt.toNat := by
  have hint := BitVec.toInt_eq_toNat_cond prec
  have hslt : (0#32).slt prec = decide (0 < prec.toInt) := by
    rw [BitVec.slt_eq_decide, BitVec.toInt_zero]
  rw [hslt]
  by_cases hpos : 0 < prec.toInt
  · have htoNat : prec.toInt.toNat = prec.toNat := by
      split at hint <;> omega
    rw [htoNat, BitVec.ofNat_toNat, BitVec.setWidth_eq, decide_eq_true hpos, if_pos rfl]
  · have htoNat : prec.toInt.toNat = 0 := by omega
    rw [htoNat, decide_eq_false hpos, if_neg Bool.false_ne_true]

theorem evalPrecision_eq_some_iff {d d' : Directive} (hflag : d.flags.precision = false)
    (hprec : d.precision = 0#32) :
    evalPrecision d = some d' ↔ ∃ precision rest value, PrecisionReads precision d.format rest
      ∧ precisionValue precision d.va = some value
      ∧ d' = { d with
          flags := { d.flags with precision := precision.isSome }
          precision := BitVec.ofNat 32 value.1.toNat
          format := rest
          va := value.2 } := by
  obtain ⟨flags, width, precision, format, va⟩ := d
  subst hprec
  cases format with
  | nil => simp [evalPrecision, not_precisionReads_nil]
  | cons dot format =>
      rw [evalPrecision]
      change (if dot = byte '.' then _ else _) = _ ↔ _
      by_cases hdot : dot = byte '.'
      · subst hdot
        rw [if_pos rfl]
        simp only [precisionReads_dot]
        cases format with
        | nil => simp [not_reads_nil]
        | cons ch str =>
            change (if isDigit ch = true then _ else _) = _ ↔ _
            by_cases hdigit : isDigit ch = true
            · rw [if_pos hdigit]
              constructor
              · intro h
                obtain ⟨⟨prec, rest⟩, hatoi, hd⟩ := Option.bind_eq_some_iff.mp h
                obtain ⟨ds, hsplit, hds, hstop, rfl⟩ := atoi_eq_some_iff.mp hatoi
                exact ⟨some (.digits ds), rest, (decimalValue ds, va),
                  ⟨_, rfl, (reads_iff_of_digit hdigit).mpr ⟨ds, rfl, hsplit, hds, hstop⟩⟩, rfl,
                  (Option.some.inj hd).symm⟩
              · rintro ⟨_, rest, value, ⟨amount, rfl, hreads⟩, hvalue, rfl⟩
                obtain ⟨ds, rfl, hsplit, hds, hstop⟩ := (reads_iff_of_digit hdigit).mp hreads
                obtain rfl := Option.some.inj hvalue
                exact Option.bind_eq_some_iff.mpr
                  ⟨_, atoi_eq_some_iff.mpr ⟨ds, hsplit, hds, hstop, rfl⟩, rfl⟩
            · rw [if_neg hdigit]
              rw [Bool.not_eq_true] at hdigit
              by_cases hstar : ch = byte '*'
              · subst hstar
                rw [if_pos rfl]
                simp only [reads_iff_of_star, starPrecision_eq]
                constructor
                · intro h
                  obtain ⟨⟨arg, va'⟩, hva, hd⟩ := Option.bind_eq_some_iff.mp h
                  refine ⟨some .star, str, ((arg.setWidth 32).toInt, va'), ⟨_, rfl, rfl, rfl⟩, ?_,
                    (Option.some.inj hd).symm⟩
                  rw [precisionValue, Amount.value, show vaArg va = _ from hva]
                  rfl
                · rintro ⟨_, rest, value, ⟨_, rfl, rfl, rfl⟩, hvalue, rfl⟩
                  obtain ⟨arg, hva, rfl⟩ := Option.map_eq_some_iff.mp hvalue
                  exact Option.bind_eq_some_iff.mpr ⟨arg, hva, rfl⟩
              · rw [if_neg hstar]
                simp only [reads_iff_of_neither hdigit hstar]
                constructor
                · intro h
                  exact ⟨some (.digits []), ch :: str, (decimalValue [], va), ⟨_, rfl, rfl, rfl⟩, rfl,
                    (Option.some.inj h).symm⟩
                · rintro ⟨_, rest, value, ⟨_, rfl, rfl, rfl⟩, hvalue, rfl⟩
                  obtain rfl := Option.some.inj hvalue
                  rfl
      · have hkeep : { flags with precision := (none : Option Amount).isSome } = flags := by
          obtain ⟨_, _, _, _, _, _, _, _, _, _, _⟩ := flags
          subst hflag
          rfl
        rw [if_neg hdot]
        simp only [precisionReads_of_ne hdot]
        constructor
        · intro h
          refine ⟨none, dot :: format, (0, va), ⟨rfl, rfl⟩, rfl, ?_⟩
          rw [hkeep]
          exact (Option.some.inj h).symm
        · rintro ⟨_, rest, value, ⟨rfl, rfl⟩, hvalue, rfl⟩
          obtain rfl := Option.some.inj hvalue
          rw [hkeep]
          rfl

/-- The flags a length field sets. -/
def Length.set (flags : Flags) : Length → Flags
  | .none => flags
  | .l | .t | .j | .z => { flags with long := true }
  | .ll => { flags with long := true, longLong := true }
  | .h => { flags with short := true }
  | .hh => { flags with short := true, char := true }

structure Length.Reads (length : Length) (format rest : List (BitVec 8)) : Prop where
  split : format = length.bytes ++ rest
  ends : length.EndsBefore rest

theorem not_isLength {ch : BitVec 8} (hch : Length.isLength ch = false) :
    ch ≠ byte 'l' ∧ ch ≠ byte 'h' ∧ ch ≠ byte 't' ∧ ch ≠ byte 'j' ∧ ch ≠ byte 'z' := by
  simpa [Length.isLength, not_or] using hch

theorem evalLength_of_reads {d : Directive} {length : Length} {rest : List (BitVec 8)}
    (h : length.Reads d.format rest) :
    evalLength d = some { d with flags := length.set d.flags, format := rest } := by
  obtain ⟨hsplit, hends⟩ := h
  obtain ⟨flags, width, precision, format, va⟩ := d
  subst hsplit
  rw [evalLength]
  cases length with
  | none =>
      obtain ⟨ch, hhead, hch⟩ := hends
      obtain ⟨hl, hh, ht, hj, hz⟩ := not_isLength hch
      obtain ⟨str, rfl⟩ := List.head?_eq_some_iff.mp hhead
      simp [Length.bytes, hl, hh, ht, hj, hz, Length.set]
  | l =>
      obtain ⟨ch, hhead, hch⟩ := hends
      obtain ⟨str, rfl⟩ := List.head?_eq_some_iff.mp hhead
      have hne : ch ≠ byte 'l' := by simpa using hch
      simp [Length.bytes, hne, Length.set]
  | ll => simp [Length.bytes, Length.set]
  | h =>
      obtain ⟨ch, hhead, hch⟩ := hends
      obtain ⟨str, rfl⟩ := List.head?_eq_some_iff.mp hhead
      have hne : ch ≠ byte 'h' := by simpa using hch
      simp +decide [Length.bytes, hne, Length.set]
  | hh => simp +decide [Length.bytes, Length.set]
  | t => simp +decide [Length.bytes, Length.set]
  | j => simp +decide [Length.bytes, Length.set]
  | z => simp +decide [Length.bytes, Length.set]

theorem exists_reads_of_evalLength {d : Directive} (h : evalLength d ≠ none) :
    ∃ (length : Length) (rest : List (BitVec 8)), length.Reads d.format rest := by
  rw [evalLength] at h
  cases hformat : d.format with
  | nil => simp [hformat] at h
  | cons ch str =>
      by_cases hl : ch = byte 'l'
      · subst hl
        cases str with
        | nil => simp [hformat] at h
        | cons ch str =>
            by_cases hll : ch = byte 'l'
            · subst hll
              exact ⟨.ll, str, rfl, trivial⟩
            · exact ⟨.l, ch :: str, rfl, stopsAt_cons.mpr (by simp [hll])⟩
      by_cases hh : ch = byte 'h'
      · subst hh
        cases str with
        | nil => simp +decide [hformat] at h
        | cons ch str =>
            by_cases hhh : ch = byte 'h'
            · subst hhh
              exact ⟨.hh, str, rfl, trivial⟩
            · exact ⟨.h, ch :: str, rfl, stopsAt_cons.mpr (by simp [hhh])⟩
      by_cases ht : ch = byte 't'
      · subst ht
        exact ⟨.t, str, rfl, trivial⟩
      by_cases hj : ch = byte 'j'
      · subst hj
        exact ⟨.j, str, rfl, trivial⟩
      by_cases hz : ch = byte 'z'
      · subst hz
        exact ⟨.z, str, rfl, trivial⟩
      · exact ⟨.none, ch :: str, rfl, stopsAt_cons.mpr (by simp [Length.isLength, hl, hh, ht, hj, hz])⟩

theorem evalLength_eq_some_iff {d d' : Directive} :
    evalLength d = some d' ↔ ∃ (length : Length) (rest : List (BitVec 8)), length.Reads d.format rest
      ∧ d' = { d with flags := length.set d.flags, format := rest } := by
  constructor
  · intro h
    obtain ⟨length, rest, hreads⟩ := exists_reads_of_evalLength (by rw [h]; exact Option.some_ne_none _)
    rw [evalLength_of_reads hreads, Option.some.injEq] at h
    exact ⟨length, rest, hreads, h.symm⟩
  · rintro ⟨length, rest, hreads, rfl⟩
    exact evalLength_of_reads hreads

/-! ### Reading a conversion -/

theorem Amount.endsBefore_append {amount : Amount} {xs : List (BitVec 8)} (hxs : xs ≠ [])
    (rest : List (BitVec 8)) : amount.EndsBefore (xs ++ rest) ↔ amount.EndsBefore xs := by
  match amount with
  | .star => exact Iff.rfl
  | .digits [] => exact stopsAt_append hxs rest
  | .digits (_ :: _) => exact stopsAt_append hxs rest

theorem Length.endsBefore_cons {length : Length} {ch : BitVec 8} (rest : List (BitVec 8)) :
    length.EndsBefore (ch :: rest) ↔ length.EndsBefore [ch] := by
  cases length <;> simp [Length.EndsBefore, stopsAt_cons]

namespace Conv

theorem afterPrecision_ne_nil (c : Conv) : c.afterPrecision ≠ [] := by
  simp [afterPrecision]

theorem afterWidth_ne_nil (c : Conv) : c.afterWidth ≠ [] := by
  simp [afterWidth, afterPrecision]

theorem afterFlags_ne_nil (c : Conv) : c.afterFlags ≠ [] := by
  simp [afterFlags, afterWidth, afterPrecision]

/-- A conversion is well formed if its fields are what the code reads one after the other. -/
theorem wellFormed_iff_reads (c : Conv) (rest : List (BitVec 8)) :
    c.WellFormed ↔ (∀ ch ∈ c.flags, isFlag ch = true) ∧ StopsAt isFlag (c.afterFlags ++ rest)
      ∧ c.width.Reads (c.afterFlags ++ rest) (c.afterWidth ++ rest)
      ∧ PrecisionReads c.precision (c.afterWidth ++ rest) (c.afterPrecision ++ rest)
      ∧ c.length.Reads (c.afterPrecision ++ rest) (c.specifier :: rest) := by
  have hwidth : c.afterFlags ++ rest = c.width.bytes ++ (c.afterWidth ++ rest) := by
    rw [afterFlags, List.append_assoc]
  have hprec : c.afterWidth ++ rest = precisionBytes c.precision ++ (c.afterPrecision ++ rest) := by
    rw [afterWidth, List.append_assoc]
  have hlength : c.afterPrecision ++ rest = c.length.bytes ++ (c.specifier :: rest) := by
    rw [afterPrecision, List.append_assoc]
    rfl
  constructor
  · intro h
    refine ⟨h.flags, (stopsAt_append c.afterFlags_ne_nil rest).mpr h.flagsEnd,
      ⟨hwidth, h.width, (Amount.endsBefore_append c.afterWidth_ne_nil rest).mpr h.widthEnd⟩,
      ⟨hprec, ?_, ?_⟩, ⟨hlength, (Length.endsBefore_cons rest).mpr h.lengthEnd⟩⟩
    · intro amount hamount
      obtain ⟨hnumeric, hends⟩ := h.precision amount hamount
      exact ⟨hnumeric, (Amount.endsBefore_append c.afterPrecision_ne_nil rest).mpr hends⟩
    · intro hnone
      exact (stopsAt_append c.afterPrecision_ne_nil rest).mpr (h.noPrecision hnone)
  · rintro ⟨hflags, hflagsEnd, hwidth, hprec, hlength⟩
    refine ⟨hflags, (stopsAt_append c.afterFlags_ne_nil rest).mp hflagsEnd, hwidth.numeric,
      (Amount.endsBefore_append c.afterWidth_ne_nil rest).mp hwidth.ends, ?_, ?_,
      (Length.endsBefore_cons rest).mp hlength.ends⟩
    · intro amount hamount
      obtain ⟨hnumeric, hends⟩ := hprec.given amount hamount
      exact ⟨hnumeric, (Amount.endsBefore_append c.afterPrecision_ne_nil rest).mp hends⟩
    · intro hnone
      exact (stopsAt_append c.afterPrecision_ne_nil rest).mp (hprec.absent hnone)

theorem flagBits_eq (c : Conv) (width : Int) :
    c.length.set { c.flags.foldl Flags.add {} with
      left := (c.flags.foldl Flags.add {}).left || width < 0
      precision := c.precision.isSome } = c.flagBits width := by
  rw [foldl_add, flagBits]
  cases c.length <;> simp [Length.set]

theorem evalDirective_eq_some_iff {format rest : List (BitVec 8)} {va : List (BitVec 64)}
    {specifier : BitVec 8} {d : Directive} :
    (evalDirective format va = some d ∧ d.format = specifier :: rest) ↔
      ∃ c : Conv, ∃ d', c.WellFormed ∧ c.specifier = specifier ∧ format = c.bytes ++ rest
        ∧ c.directive va = some d' ∧ d = { d' with format := specifier :: rest } := by
  constructor
  · rintro ⟨h, hformat⟩
    rw [evalDirective] at h
    obtain ⟨⟨flags, rest₁⟩, hflags, h⟩ := Option.bind_eq_some_iff.mp h
    obtain ⟨fs, rfl, hfs, hflagsEnd, rfl⟩ := evalFlags_eq_some_iff.mp hflags
    obtain ⟨d₁, hwidth, h⟩ := Option.bind_eq_some_iff.mp h
    obtain ⟨amount, rest₂, width, hreads, hvalue, rfl⟩ := evalWidth_eq_some_iff.mp hwidth
    obtain ⟨d₂, hprec, h⟩ := Option.bind_eq_some_iff.mp h
    have hprecIff := fun hflag hzero => (evalPrecision_eq_some_iff hflag hzero).mp hprec
    obtain ⟨precision, rest₃, value, hprecReads, hprecValue, rfl⟩ := hprecIff (by rw [foldl_add]) rfl
    obtain ⟨length, rest₄, hlengthReads, rfl⟩ := evalLength_eq_some_iff.mp h
    obtain rfl : rest₄ = specifier :: rest := hformat
    have hrest₃ : rest₃ = length.bytes ++ (specifier :: rest) := hlengthReads.split
    have hrest₂ : rest₂ = precisionBytes precision ++ rest₃ := hprecReads.split
    have hrest₁ : rest₁ = amount.bytes ++ rest₂ := hreads.split
    let c : Conv := ⟨fs, amount, precision, length, specifier⟩
    have hafterPrecision : rest₃ = c.afterPrecision ++ rest := by
      simp [hrest₃, afterPrecision, c]
    have hafterWidth : rest₂ = c.afterWidth ++ rest := by
      simp [hrest₂, hafterPrecision, afterWidth, c]
    have hafterFlags : rest₁ = c.afterFlags ++ rest := by
      simp [hrest₁, hafterWidth, afterFlags, c]
    refine ⟨c, ⟨c.flagBits width.1, BitVec.ofNat 32 width.1.natAbs,
      BitVec.ofNat 32 value.1.toNat, [], value.2⟩, ?_, rfl, ?_, ?_, ?_⟩
    · rw [wellFormed_iff_reads c rest, ← hafterFlags, ← hafterWidth, ← hafterPrecision]
      exact ⟨hfs, hflagsEnd, hreads, hprecReads, hlengthReads⟩
    · rw [hafterFlags, bytes, List.append_assoc]
    · rw [directive]
      exact Option.bind_eq_some_iff.mpr ⟨width, hvalue,
        Option.bind_eq_some_iff.mpr ⟨value, hprecValue, rfl⟩⟩
    · rw [← flagBits_eq]
  · rintro ⟨c, d', hwf, rfl, rfl, hdirective, rfl⟩
    obtain ⟨hflags, hflagsEnd, hwidth, hprec, hlength⟩ := (wellFormed_iff_reads c rest).mp hwf
    obtain ⟨width, hvalue, hdirective⟩ := Option.bind_eq_some_iff.mp hdirective
    obtain ⟨value, hprecValue, hdirective⟩ := Option.bind_eq_some_iff.mp hdirective
    obtain rfl := Option.some.inj hdirective
    refine ⟨?_, rfl⟩
    rw [evalDirective, bytes, List.append_assoc]
    refine Option.bind_eq_some_iff.mpr ⟨_, evalFlags_eq_some_iff.mpr
      ⟨c.flags, rfl, hflags, hflagsEnd, rfl⟩, ?_⟩
    refine Option.bind_eq_some_iff.mpr ⟨_, evalWidth_eq_some_iff.mpr
      ⟨c.width, _, width, hwidth, hvalue, rfl⟩, ?_⟩
    refine Option.bind_eq_some_iff.mpr ⟨_, (evalPrecision_eq_some_iff ?_ rfl).mpr
      ⟨c.precision, _, value, hprec, hprecValue, rfl⟩, ?_⟩
    · rw [foldl_add]
    · refine evalLength_eq_some_iff.mpr ⟨c.length, _, hlength, ?_⟩
      rw [← flagBits_eq]

end Conv

end RainstormOs.Printf
