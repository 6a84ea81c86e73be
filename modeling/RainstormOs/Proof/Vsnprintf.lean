import RainstormOs.Proof.PrintfFormat

/-!
# What a call of the formatter does

`_vsnprintf` has a result exactly where its format spells a list of pieces up to a zero, the arguments
are there and the strings among them can be read; and then it hands the text of the pieces to its
output function, one character after the other, each with its index. Nothing of this depends on the
output function, so `kprintf`, `ksnprintf` and `fctprintf` show the same text.
-/

namespace RainstormOs.Printf

/-! ### The loop -/

theorem Conv.directive_valid {c : Conv} {va : List (BitVec 64)} {d : Directive}
    (h : c.directive va = some d) (format : List (BitVec 8)) : { d with format := format }.Valid := by
  obtain ⟨width, -, h⟩ := Option.bind_eq_some_iff.mp h
  obtain ⟨precision, hprecision, h⟩ := Option.bind_eq_some_iff.mp h
  obtain rfl := Option.some.inj h
  intro hnone
  change c.precision.isSome = false at hnone
  rw [Option.isSome_eq_false_iff, Option.isNone_iff_eq_none] at hnone
  rw [hnone] at hprecision
  obtain rfl := Option.some.inj hprecision
  rfl

theorem formatBytes_cons (piece : Piece) (pieces : List Piece) :
    formatBytes (piece :: pieces) = piece.bytes ++ formatBytes pieces := rfl

theorem Piece.length_bytes_pos (piece : Piece) : 0 < piece.bytes.length := by
  cases piece <;> simp [Piece.bytes]

theorem Directive.text_format (strings : Strings) (specifier : BitVec 8) (d : Directive)
    (format : List (BitVec 8)) :
    { d with format := format }.text strings specifier = d.text strings specifier := rfl

section Loop

variable {σ : Type} {out : BitVec 8 → BitVec 64 → BitVec 64 → σ → Option σ} {maxlen : BitVec 64}
  {strings : Strings}

/-- A round that comes to a conversion. -/
theorem vsnprintfLoop_conv {rounds : Nat} {format rest : List (BitVec 8)} {va : List (BitVec 64)}
    {specifier : BitVec 8} {d : Directive} {s : Cursor σ} (hd : evalDirective format va = some d)
    (hformat : d.format = specifier :: rest) (hvalid : d.Valid) :
    vsnprintfLoop out maxlen strings (rounds + 1) (byte '%' :: format) va s
      = (d.text strings specifier).bind fun result =>
          (putAll out maxlen result.1 s).bind (vsnprintfLoop out maxlen strings rounds rest result.2) := by
  rw [vsnprintfLoop, if_neg (by decide), if_neg (by decide), hd]
  simp only [Option.bind_eq_bind, Option.bind_some, hformat, List.head?_cons, List.tail_cons,
    evalSpecifier_eq hvalid, Option.bind_assoc, Option.bind_map]
  rfl

theorem vsnprintfLoop_of_pieces {pieces : List Piece} (hpieces : ∀ piece ∈ pieces, piece.WellFormed)
    {after text : List (BitVec 8)} {va : List (BitVec 64)} {rounds : Nat} {s : Cursor σ}
    (hrounds : (formatBytes pieces ++ 0#8 :: after).length ≤ rounds)
    (htext : formatText strings pieces va = some text) :
    vsnprintfLoop out maxlen strings rounds (formatBytes pieces ++ 0#8 :: after) va s
      = putAll out maxlen text s := by
  induction pieces generalizing va text rounds s with
  | nil =>
      cases rounds with
      | zero => exact absurd hrounds (by simp [formatBytes])
      | succ rounds =>
          obtain rfl := Option.some.inj htext
          rfl
  | cons piece pieces ih =>
      have hpiece := hpieces piece List.mem_cons_self
      have ih := @ih fun piece hpiece => hpieces piece (List.mem_cons_of_mem _ hpiece)
      obtain ⟨⟨front, va'⟩, hfront, htext⟩ := Option.bind_eq_some_iff.mp htext
      obtain ⟨back, hback, htext⟩ := Option.bind_eq_some_iff.mp htext
      obtain rfl := Option.some.inj htext
      rw [formatBytes_cons, List.append_assoc] at hrounds ⊢
      cases rounds with
      | zero => exact absurd hrounds (by simp)
      | succ rounds =>
          have hrest : (formatBytes pieces ++ 0#8 :: after).length ≤ rounds := by
            have hpos := piece.length_bytes_pos
            rw [List.length_append] at hrounds
            omega
          cases piece with
          | literal ch =>
              obtain ⟨hzero, hpercent⟩ := hpiece
              cases hfront
              change vsnprintfLoop out maxlen strings (rounds + 1)
                (ch :: (formatBytes pieces ++ 0#8 :: after)) va s = putAll out maxlen (ch :: back) s
              rw [vsnprintfLoop, if_neg hzero, if_pos hpercent]
              exact Option.bind_congr fun t _ => ih hrest hback
          | conv c =>
              obtain ⟨d, hd, hfront⟩ := Option.bind_eq_some_iff.mp hfront
              obtain ⟨hread, hformat⟩ := Conv.evalDirective_eq_some_iff.mpr
                ⟨c, d, hpiece, rfl, rfl, hd, rfl⟩
              change vsnprintfLoop out maxlen strings (rounds + 1)
                (byte '%' :: (c.bytes ++ (formatBytes pieces ++ 0#8 :: after))) va s = _
              rw [vsnprintfLoop_conv hread hformat (Conv.directive_valid hd _),
                Directive.text_format, hfront, Option.bind_some, putAll_append]
              exact Option.bind_congr fun t _ => ih hrest hback

/-- Where the loop has a result it has read a list of pieces. -/
theorem exists_pieces_of_vsnprintfLoop {rounds : Nat} {format : List (BitVec 8)}
    {va : List (BitVec 64)} {s t : Cursor σ}
    (h : vsnprintfLoop out maxlen strings rounds format va s = some t) :
    ∃ pieces after text, (∀ piece ∈ pieces, Piece.WellFormed piece)
      ∧ format = formatBytes pieces ++ 0#8 :: after ∧ formatText strings pieces va = some text := by
  induction rounds generalizing format va s with
  | zero => exact absurd h (by simp [vsnprintfLoop])
  | succ rounds ih =>
      cases format with
      | nil => exact absurd h (by simp [vsnprintfLoop])
      | cons ch format =>
          by_cases hzero : ch = 0#8
          · subst hzero
            exact ⟨[], format, [], fun _ h => absurd h List.not_mem_nil, rfl, rfl⟩
          by_cases hpercent : ch = byte '%'
          · subst hpercent
            have hloop := h
            rw [vsnprintfLoop, if_neg hzero, if_neg (by simp)] at h
            obtain ⟨d, hd, h⟩ := Option.bind_eq_some_iff.mp h
            obtain ⟨specifier, hhead, -⟩ := Option.bind_eq_some_iff.mp h
            obtain ⟨rest, hformat⟩ := List.head?_eq_some_iff.mp hhead
            obtain ⟨c, d', hc, rfl, rfl, hdirective, rfl⟩ :=
              Conv.evalDirective_eq_some_iff.mp ⟨hd, hformat⟩
            rw [vsnprintfLoop_conv hd hformat (Conv.directive_valid hdirective _),
              Directive.text_format] at hloop
            obtain ⟨⟨front, va'⟩, hfront, hloop⟩ := Option.bind_eq_some_iff.mp hloop
            obtain ⟨mid, -, hloop⟩ := Option.bind_eq_some_iff.mp hloop
            obtain ⟨pieces, after, back, hpieces, rfl, hback⟩ := ih hloop
            refine ⟨.conv c :: pieces, after, front ++ back,
              List.forall_mem_cons.mpr ⟨hc, hpieces⟩, ?_, ?_⟩
            · rw [formatBytes_cons, List.append_assoc]
              rfl
            · refine Option.bind_eq_some_iff.mpr ⟨(front, va'), ?_,
                Option.bind_eq_some_iff.mpr ⟨back, hback, rfl⟩⟩
              exact Option.bind_eq_some_iff.mpr ⟨d', hdirective, hfront⟩
          · rw [vsnprintfLoop, if_neg hzero, if_pos hpercent] at h
            obtain ⟨mid, -, h⟩ := Option.bind_eq_some_iff.mp h
            obtain ⟨pieces, after, text, hpieces, rfl, htext⟩ := ih h
            refine ⟨.literal ch :: pieces, after, ch :: text,
              List.forall_mem_cons.mpr ⟨⟨hzero, hpercent⟩, hpieces⟩, rfl, ?_⟩
            exact Option.bind_eq_some_iff.mpr ⟨text, htext, rfl⟩

end Loop

/-! ### Calls -/

/-- Handing a text to an output function: its characters one after the other, each with its index,
and a zero at the index behind them or at the last one there is room for. -/
def emit {σ : Type} (out : BitVec 8 → BitVec 64 → BitVec 64 → σ → Option σ) (maxlen : BitVec 64)
    (text : List (BitVec 8)) (state : σ) : Option (BitVec 32 × σ) := do
  let s ← putAll out maxlen text ⟨0#64, state⟩
  let length := BitVec.ofNat 64 text.length
  let state ← out 0#8 (if length < maxlen then length else maxlen - 1#64) maxlen s.state
  some (BitVec.ofNat 32 text.length, state)

/-- The output function of a call, `_out_null` if it has no buffer. -/
def outOf {β σ : Type} (out : OutFct β σ) (buffer : Option β) :
    BitVec 8 → BitVec 64 → BitVec 64 → σ → Option σ :=
  fun character idx maxlen s =>
    match buffer with
    | none => outNull character () idx maxlen s
    | some buffer => out character buffer idx maxlen s

theorem vsnprintf_eq_loop {β σ : Type} (strings : Strings) (out : OutFct β σ) (buffer : Option β)
    (maxlen : BitVec 64) (format : List (BitVec 8)) (va : List (BitVec 64)) (state : σ) :
    vsnprintf strings out buffer maxlen format va state
      = (vsnprintfLoop (outOf out buffer) maxlen strings format.length format va ⟨0#64, state⟩).bind
          fun s => (outOf out buffer 0#8 (if s.idx < maxlen then s.idx else maxlen - 1#64) maxlen
            s.state).bind fun state => some (s.idx.setWidth 32, state) := by
  rfl

section Calls

variable {β σ : Type} {strings : Strings} {out : OutFct β σ} {buffer : Option β} {maxlen : BitVec 64}
  {format : List (BitVec 8)} {va : List (BitVec 64)} {state : σ}

theorem vsnprintf_of_pieces {pieces : List Piece} {after text : List (BitVec 8)}
    (hwf : ∀ piece ∈ pieces, Piece.WellFormed piece)
    (hformat : format = formatBytes pieces ++ 0#8 :: after)
    (htext : formatText strings pieces va = some text) :
    vsnprintf strings out buffer maxlen format va state
      = emit (outOf out buffer) maxlen text state := by
  subst hformat
  rw [vsnprintf_eq_loop, vsnprintfLoop_of_pieces hwf (Nat.le_refl _) htext, emit]
  refine Option.bind_congr fun s hs => ?_
  rw [putAll_idx hs, BitVec.zero_add, BitVec.setWidth_ofNat_of_le (by decide)]
  rfl

theorem exists_pieces_of_vsnprintf {result : BitVec 32 × σ}
    (h : vsnprintf strings out buffer maxlen format va state = some result) :
    ∃ pieces after text, (∀ piece ∈ pieces, Piece.WellFormed piece)
      ∧ format = formatBytes pieces ++ 0#8 :: after ∧ formatText strings pieces va = some text := by
  rw [vsnprintf_eq_loop] at h
  obtain ⟨s, hs, -⟩ := Option.bind_eq_some_iff.mp h
  exact exists_pieces_of_vsnprintfLoop hs

end Calls

/-- **The formatter.** A call has a result exactly if its format spells pieces up to a zero and the
arguments give them a text, and then it hands that text to its output function. -/
theorem vsnprintf_eq_some_iff {β σ : Type} (strings : Strings) (out : OutFct β σ)
    (buffer : Option β) (maxlen : BitVec 64) (format : List (BitVec 8)) (va : List (BitVec 64))
    (state : σ) (result : BitVec 32 × σ) :
    vsnprintf strings out buffer maxlen format va state = some result ↔
      ∃ pieces after text, (∀ piece ∈ pieces, Piece.WellFormed piece)
        ∧ format = formatBytes pieces ++ 0#8 :: after
        ∧ formatText strings pieces va = some text
        ∧ emit (outOf out buffer) maxlen text state = some result := by
  constructor
  · intro h
    obtain ⟨pieces, after, text, hwf, hformat, htext⟩ := exists_pieces_of_vsnprintf h
    exact ⟨pieces, after, text, hwf, hformat, htext, vsnprintf_of_pieces hwf hformat htext ▸ h⟩
  · rintro ⟨pieces, after, text, hwf, hformat, htext, hemit⟩
    rw [vsnprintf_of_pieces hwf hformat htext, hemit]

/-! ### Formats that end inside a conversion -/

/-- A string before whose terminating zero there is no other. -/
theorem eq_of_append_zero {body front after : List (BitVec 8)} (hbody : 0#8 ∉ body)
    (h : body ++ [0#8] = front ++ 0#8 :: after) : front = body := by
  rcases List.append_eq_append_iff.mp h with ⟨mid, rfl, hmid⟩ | ⟨mid, rfl, hmid⟩
  · cases mid with
    | nil => exact List.append_nil body
    | cons ch mid => exact absurd (congrArg List.length hmid) (by simp)
  · cases mid with
    | nil => exact (List.append_nil front).symm
    | cons ch mid =>
        obtain ⟨rfl, -⟩ := List.cons.inj hmid
        exact absurd (List.mem_append_right front List.mem_cons_self) hbody

/-- Strings that are all empty. -/
def emptyStrings : Strings := ⟨fun _ => [0#8], fun _ => by simp⟩

theorem exists_directive (c : Conv) {va : List (BitVec 64)} (hva : 2 ≤ va.length) :
    ∃ d, c.directive va = some d ∧ va.length - 2 ≤ d.va.length := by
  have hvalue : ∀ (amount : Amount) (va : List (BitVec 64)), 0 < va.length →
      ∃ value, amount.value va = some value ∧ va.length - 1 ≤ value.2.length := by
    intro amount va hva
    cases amount with
    | digits ds => exact ⟨_, rfl, Nat.sub_le _ _⟩
    | star =>
        cases va with
        | nil => exact absurd hva (by simp)
        | cons arg va => exact ⟨_, rfl, Nat.le_refl _⟩
  obtain ⟨width, hwidth, hleft⟩ := hvalue c.width va (by omega)
  obtain ⟨precision, hprecision, hrest⟩ : ∃ precision,
      precisionValue c.precision width.2 = some precision
        ∧ width.2.length - 1 ≤ precision.2.length := by
    cases hprec : c.precision with
    | none => exact ⟨_, rfl, Nat.sub_le _ _⟩
    | some amount => exact hvalue amount width.2 (by omega)
  refine ⟨_, Option.bind_eq_some_iff.mpr ⟨width, hwidth,
    Option.bind_eq_some_iff.mpr ⟨precision, hprecision, rfl⟩⟩, ?_⟩
  change va.length - 2 ≤ precision.2.length
  omega

theorem exists_directiveText {d : Directive} (specifier : BitVec 8) (hva : 0 < d.va.length) :
    ∃ result, d.text emptyStrings specifier = some result ∧ d.va.length - 1 ≤ result.2.length := by
  obtain ⟨flags, width, precision, format, va⟩ := d
  cases va with
  | nil => exact absurd hva (by simp)
  | cons arg va =>
      rw [Directive.text]
      split
      · exact ⟨_, rfl, Nat.le_refl _⟩
      split
      · exact ⟨_, rfl, Nat.le_refl _⟩
      split
      · exact ⟨_, rfl, Nat.le_refl _⟩
      split
      · exact ⟨_, rfl, Nat.le_refl _⟩
      · exact ⟨_, rfl, Nat.sub_le _ _⟩

/-- Three arguments for each piece are always enough. -/
theorem exists_formatText {pieces : List Piece} {va : List (BitVec 64)}
    (hva : 3 * pieces.length ≤ va.length) : ∃ text, formatText emptyStrings pieces va = some text := by
  induction pieces generalizing va with
  | nil => exact ⟨[], rfl⟩
  | cons piece pieces ih =>
      rw [List.length_cons] at hva
      obtain ⟨result, hresult, hleft⟩ : ∃ result, piece.text emptyStrings va = some result
          ∧ va.length - 3 ≤ result.2.length := by
        cases piece with
        | literal ch => exact ⟨_, rfl, Nat.sub_le _ _⟩
        | conv c =>
            have hfields : 2 ≤ va.length := by omega
            obtain ⟨d, hd, hleft⟩ := exists_directive c hfields
            have harg : 0 < d.va.length := by omega
            obtain ⟨result, hresult, hrest⟩ := exists_directiveText c.specifier harg
            exact ⟨result, Option.bind_eq_some_iff.mpr ⟨d, hd, hresult⟩, by omega⟩
      have hrest : 3 * pieces.length ≤ result.2.length := by omega
      obtain ⟨text, htext⟩ := ih hrest
      exact ⟨result.1 ++ text, Option.bind_eq_some_iff.mpr ⟨result, hresult,
        Option.bind_eq_some_iff.mpr ⟨text, htext, rfl⟩⟩⟩

theorem exists_putAll {σ : Type} {out : BitVec 8 → BitVec 64 → BitVec 64 → σ → Option σ}
    (hout : ∀ ch idx maxlen s, ∃ t, out ch idx maxlen s = some t) (maxlen : BitVec 64)
    (text : List (BitVec 8)) (s : Cursor σ) : ∃ t, putAll out maxlen text s = some t := by
  induction text generalizing s with
  | nil => exact ⟨s, rfl⟩
  | cons ch text ih =>
      obtain ⟨state, hstate⟩ := hout ch s.idx maxlen s.state
      obtain ⟨t, ht⟩ := ih ⟨s.idx + 1#64, state⟩
      refine ⟨t, Option.bind_eq_some_iff.mpr ⟨_, ?_, ht⟩⟩
      rw [put, hstate]
      rfl

/-- **Complete formats.** A format string can be printed, by an output function that returns, with
some arguments and without reading behind its terminating zero, exactly if it spells pieces: if it
does not end inside a conversion. -/
theorem exists_vsnprintf_iff_spells {β σ : Type} {out : OutFct β σ} {buffer : β}
    (hout : ∀ ch idx maxlen s, ∃ t, out ch buffer idx maxlen s = some t) {body : List (BitVec 8)}
    (hbody : 0#8 ∉ body) (maxlen : BitVec 64) (state : σ) :
    (∃ strings va result,
        vsnprintf strings out (some buffer) maxlen (body ++ [0#8]) va state = some result)
      ↔ ∃ pieces, (∀ piece ∈ pieces, Piece.WellFormed piece) ∧ body = formatBytes pieces := by
  constructor
  · rintro ⟨strings, va, result, h⟩
    obtain ⟨pieces, after, text, hwf, hformat, -⟩ := exists_pieces_of_vsnprintf h
    exact ⟨pieces, hwf, (eq_of_append_zero hbody hformat).symm⟩
  · rintro ⟨pieces, hwf, rfl⟩
    have hva : 3 * pieces.length ≤ (List.replicate (3 * pieces.length) 0#64).length := by simp
    obtain ⟨text, htext⟩ := exists_formatText hva
    have hreturns : ∀ ch idx maxlen s, ∃ t, outOf out (some buffer) ch idx maxlen s = some t := hout
    obtain ⟨s, hs⟩ := exists_putAll hreturns maxlen text ⟨0#64, state⟩
    obtain ⟨state', hstate'⟩ := hout 0#8 (if BitVec.ofNat 64 text.length < maxlen
      then BitVec.ofNat 64 text.length else maxlen - 1#64) maxlen s.state
    refine ⟨emptyStrings, List.replicate (3 * pieces.length) 0#64,
      (BitVec.ofNat 32 text.length, state'), ?_⟩
    rw [vsnprintf_of_pieces hwf rfl htext]
    exact Option.bind_eq_some_iff.mpr ⟨s, hs, Option.bind_eq_some_iff.mpr ⟨state', hstate', rfl⟩⟩

theorem exists_vsnprintf_iff_spells_percent_d :
    ∃ pieces, (∀ piece ∈ pieces, Piece.WellFormed piece)
      ∧ [byte '%', byte 'd'] = formatBytes pieces := by
  have hreturns : ∀ ch idx maxlen (s : Unit), ∃ t, outNull ch () idx maxlen s = some t :=
    fun _ _ _ s => ⟨s, rfl⟩
  have hbody : 0#8 ∉ [byte '%', byte 'd'] := by decide
  exact (exists_vsnprintf_iff_spells hreturns hbody 0#64 ()).mp
    ⟨emptyStrings, [0#64], (1#32, ()), rfl⟩

end RainstormOs.Printf
