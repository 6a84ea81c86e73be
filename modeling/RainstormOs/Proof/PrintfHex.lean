import RainstormOs.Proof.Klog
import RainstormOs.Proof.PrintfNumber

/-!
# Numbers in reports

The kernel's reports show small indices in decimal, and registers and addresses in hexadecimal with
leading zeros. These are the conversions whose layout needs no case distinction: such numbers always
fit the conversion buffer.
-/

namespace RainstormOs.Printf

open Klog

theorem length_numeral_le {uppercase : Bool} {base value count : Nat} (hbase : 2 ≤ base)
    (hcount : 0 < count) (hvalue : value < base ^ count) :
    (numeral uppercase base value).length ≤ count := by
  rw [numeral]
  split
  · exact hcount
  · rw [List.length_reverse, List.length_map]
    exact (Nat.digits_length_le_iff hbase value).mpr hvalue

/-- A number without sign or precision, as wide as it is or filled up with zeros. -/
theorem codeLayout_zeros {digits : List (BitVec 8)} {width : Nat} {flags : Flags}
    (hleft : flags.left = false) (hfill : flags.zeropad = true ∨ width = 0)
    (hroom : digits.length ≤ ntoaBufferSize) (hwidth : width ≤ ntoaBufferSize) :
    codeLayout digits [] 0 width flags = zeros (width - digits.length) ++ digits := by
  rw [codeLayout_of_fits]
  · rcases hfill with hfill | rfl
    · simp [layout, hleft, hfill, zeros]
    · simp [layout, hleft, zeros, spaces]
  · refine ⟨fun h => absurd (hleft.symm.trans h) Bool.noConfusion, Or.inl ?_⟩
    rw [zeroTarget, hleft, if_neg Bool.noConfusion, List.length_nil]
    split <;> omega

/-- A conversion with nothing but a length. -/
def bareConv (length : Length) (specifier : BitVec 8) : Conv :=
  ⟨[], .digits [], none, length, specifier⟩

theorem wellFormed_bareConv_ll (specifier : BitVec 8) : (bareConv .ll specifier).WellFormed :=
  ⟨fun _ hch => absurd hch List.not_mem_nil, ⟨_, rfl, by decide⟩,
    fun _ hch => absurd hch List.not_mem_nil, ⟨_, rfl, by decide⟩, by simp [bareConv],
    fun _ => ⟨_, rfl, by decide⟩, trivial⟩

theorem wellFormed_bareConv {specifier : BitVec 8}
    (h : [isFlag specifier, isDigit specifier, specifier = byte '*', specifier = byte '.',
      Length.isLength specifier].all (! ·) = true) : (bareConv .none specifier).WellFormed := by
  simp only [List.all_cons, List.all_nil, Bool.and_true, Bool.and_eq_true, Bool.not_eq_true'] at h
  obtain ⟨hflag, hdigit, hstar, hdot, hlength⟩ := h
  refine ⟨fun _ hch => absurd hch List.not_mem_nil, ⟨specifier, rfl, hflag⟩,
    fun _ hch => absurd hch List.not_mem_nil, ⟨specifier, rfl, ?_⟩, by simp [bareConv],
    fun _ => ⟨specifier, rfl, hdot⟩, ⟨specifier, rfl, hlength⟩⟩
  change (isDigit specifier || decide (specifier = byte '*')) = false
  rw [hdigit, hstar]
  rfl

/-- `%d` of an index. -/
theorem integerText_index {i : Nat} (hi : i < 2 ^ 31) (va : List (BitVec 64)) :
    integerText (byte 'd') ⟨{}, 0#32, 0#32, [], va⟩ (BitVec.ofNat 64 i) = numeral false 10 i := by
  have hnat : ((BitVec.ofNat 64 i).setWidth 32).toNat = i := by
    rw [BitVec.toNat_setWidth, BitVec.toNat_ofNat]
    omega
  have hvalue : integerValue (byte 'd') {} (BitVec.ofNat 64 i) = i := by
    change ((BitVec.ofNat 64 i).setWidth 32).toInt = i
    rw [BitVec.toInt_eq_toNat_of_lt (by omega), hnat]
  have hflags : integerFlags (byte 'd') {} = {} := by decide
  have hbase : (specifierBase (byte 'd')).toNat = 10 := by decide
  have hsign : signText (decide ((i : Int) < 0)) {} = [] := by
    rw [decide_eq_false (by omega)]
    rfl
  have hlength : (numeral false 10 i).length ≤ 10 :=
    length_numeral_le (by decide) (by decide) (by omega)
  rw [integerText_eq_codeLayout _ _ _ (Or.inl rfl), hvalue, hflags, hbase, hsign, Int.natAbs_natCast]
  change codeLayout (numeral false 10 i) [] 0 0 {} = _
  rw [codeLayout_zeros rfl (Or.inr rfl) (Nat.le_trans hlength (by decide)) (by decide)]
  simp [zeros]

/-- A 64-bit number in hexadecimal, in at least so many digits. -/
def hexText (width : Nat) (value : BitVec 64) : List (BitVec 8) :=
  zeros (width - (numeral false 16 value.toNat).length) ++ numeral false 16 value.toNat

/-- `%llx`, or with a width and `0`. -/
theorem integerText_hex {zeropad : Bool} {width : BitVec 32} (hfill : zeropad = true ∨ width = 0#32)
    (hwidth : width.toNat ≤ ntoaBufferSize) (va : List (BitVec 64)) (value : BitVec 64) :
    integerText (byte 'x') ⟨{ zeropad := zeropad, long := true, longLong := true }, width, 0#32, [], va⟩
      value = hexText width.toNat value := by
  have hvalue : integerValue (byte 'x') { zeropad := zeropad, long := true, longLong := true } value
      = value.toNat := rfl
  have hflags : integerFlags (byte 'x') { zeropad := zeropad, long := true, longLong := true }
      = { zeropad := zeropad, long := true, longLong := true } := by
    cases zeropad <;> decide
  have hbase : (specifierBase (byte 'x')).toNat = 16 := by decide
  have hsign : signText (decide ((value.toNat : Int) < 0))
      { zeropad := zeropad, long := true, longLong := true } = [] := by
    rw [decide_eq_false (by omega)]
    rfl
  have hlength : (numeral false 16 value.toNat).length ≤ 16 :=
    length_numeral_le (by decide) (by decide) value.isLt
  rw [integerText_eq_codeLayout _ _ _ (Or.inl rfl), hvalue, hflags, hbase, hsign, Int.natAbs_natCast]
  refine codeLayout_zeros rfl ?_ (Nat.le_trans hlength (by decide)) hwidth
  exact hfill.imp_right fun hzero => congrArg BitVec.toNat hzero

/-! ### Lines of registers -/

/-- A label in front of `%016llx`, or of `%04llx`. -/
structure HexField where
  label : String
  wide : Bool

namespace HexField

def width (field : HexField) : Nat := if field.wide then 16 else 4

def conv (field : HexField) : Conv :=
  ⟨[byte '0'], .digits (if field.wide then [byte '1', byte '6'] else [byte '4']), none, .ll, byte 'x'⟩

def pieces (field : HexField) : List Piece := (chars field.label).map .literal ++ [.conv field.conv]

theorem wellFormed_conv (field : HexField) : field.conv.WellFormed := by
  obtain ⟨label, wide⟩ := field
  have hflag : ∀ ch ∈ [byte '0'], isFlag ch = true := by decide
  have hdigits : ∀ ch ∈ [byte '1', byte '6'], isDigit ch = true := by decide
  have hdigit : ∀ ch ∈ [byte '4'], isDigit ch = true := by decide
  cases wide with
  | true =>
      exact ⟨hflag, ⟨_, rfl, by decide⟩, hdigits, ⟨_, rfl, by decide⟩, by simp [conv],
        fun _ => ⟨_, rfl, by decide⟩, trivial⟩
  | false =>
      exact ⟨hflag, ⟨_, rfl, by decide⟩, hdigit, ⟨_, rfl, by decide⟩, by simp [conv],
        fun _ => ⟨_, rfl, by decide⟩, trivial⟩

theorem text_conv (strings : Strings) (field : HexField) (value : BitVec 64) (va : List (BitVec 64)) :
    Piece.text strings (.conv field.conv) (value :: va) = some (hexText field.width value, va) := by
  obtain ⟨label, wide⟩ := field
  cases wide with
  | true =>
      have htext := integerText_hex (Or.inl rfl) (by decide : (16#32).toNat ≤ _) (value :: va) value
      exact congrArg (fun text => some (text, va)) htext
  | false =>
      have htext := integerText_hex (Or.inl rfl) (by decide : (4#32).toNat ≤ _) (value :: va) value
      exact congrArg (fun text => some (text, va)) htext

end HexField

/-- A line of fields. -/
def hexFormat (fields : List HexField) : List Piece :=
  fields.flatMap HexField.pieces ++ [.literal (byte '\n')]

def hexLine (fields : List (HexField × BitVec 64)) : List (BitVec 8) :=
  (fields.flatMap fun field => chars field.1.label ++ hexText field.1.width field.2) ++ [byte '\n']

theorem wellFormed_hexFormat {fields : List HexField}
    (h : ∀ field ∈ fields, Plain (chars field.label)) :
    ∀ piece ∈ hexFormat fields, piece.WellFormed := by
  intro piece hpiece
  rcases List.mem_append.mp hpiece with hpiece | hpiece
  · obtain ⟨field, hfield, hpiece⟩ := List.mem_flatMap.mp hpiece
    rcases List.mem_append.mp hpiece with hpiece | hpiece
    · exact wellFormed_literals (h field hfield) piece hpiece
    · rw [List.mem_singleton.mp hpiece]
      exact field.wellFormed_conv
  · rw [List.mem_singleton.mp hpiece]
    exact ⟨by decide, by decide⟩

theorem formatText_hexFormat (strings : Strings) (fields : List (HexField × BitVec 64)) :
    formatText strings (hexFormat (fields.map Prod.fst)) (fields.map Prod.snd)
      = some (hexLine fields) := by
  induction fields with
  | nil => rfl
  | cons field fields ih =>
      have hsplit : hexFormat ((field :: fields).map Prod.fst)
          = (chars field.1.label).map .literal
            ++ .conv field.1.conv :: hexFormat (fields.map Prod.fst) := by
        simp [hexFormat, HexField.pieces]
      rw [hsplit, formatText_literals_append, formatText, List.map_cons, HexField.text_conv]
      simp only [Option.bind_eq_bind, Option.bind_some, ih, Option.map_some]
      simp [hexLine]

/-- A line of registers, printed. -/
theorem kprintf_hexLine (strings : Strings) {labels : List HexField} {values : List (BitVec 64)}
    {format : String} (hplain : ∀ field ∈ labels, Plain (chars field.label))
    (hlength : labels.length = values.length)
    (hformat : formatBytes (hexFormat labels) ++ [0#8] = cstr format) (s : State) :
    s.kprintf strings (cstr format) values
      = some { s with console := s.console.deliver (hexLine (labels.zip values)) } := by
  have htext := formatText_hexFormat strings (labels.zip values)
  rw [List.map_fst_zip (Nat.le_of_eq hlength), List.map_snd_zip (Nat.le_of_eq hlength.symm)] at htext
  rw [← hformat]
  exact Klog.kvprintf_of_pieces (wellFormed_hexFormat hplain) htext s

end RainstormOs.Printf
