import RainstormOs.Proof.Sink
import RainstormOs.Proof.Vsnprintf
import RainstormOs.Utils.Klog

/-!
# The log

What the console and the log are for, apart from slots, callbacks and formats, is a journal: who
listens under an id, and what has been delivered to whom. The clients' calls are steps of the journal,
a message being one line to the log's listener, and the code is proved to follow it in every run: the
calls its callbacks have received are what the journal says was delivered, and a message leaves the
default sink where it was.

As in the registry, this is for ids that are not negative; the log itself checks its own.
-/

namespace RainstormOs.Printf

/-! ### Printing to the console -/

section Console

variable {Fn : Type}

/-- Who hears a character written to an id. -/
def listener (s : SinkState Fn) (id : Int) : Option Fn :=
  if id ≥ sinkMax then none else s.sinks id

/-- A text as its listener receives it; zeros are not passed on. -/
def deliveries (callback : Option Fn) (text : List (BitVec 8)) : List (Fn × BitVec 8) :=
  match callback with
  | none => []
  | some callback => (text.filter (· ≠ 0#8)).map fun ch => (callback, ch)

theorem deliveries_append (callback : Option Fn) (xs ys : List (BitVec 8)) :
    deliveries callback (xs ++ ys) = deliveries callback xs ++ deliveries callback ys := by
  cases callback <;> simp [deliveries]

def Console.deliver (c : Console Fn) (text : List (BitVec 8)) : Console Fn :=
  { c with sinks :=
      { c.sinks with calls := c.sinks.calls ++ deliveries (listener c.sinks c.defaultSink) text } }

@[simp]
theorem Console.deliver_nil (c : Console Fn) : c.deliver [] = c := by
  rw [Console.deliver]
  cases listener c.sinks c.defaultSink <;> simp [deliveries]

theorem Console.deliver_append (c : Console Fn) (xs ys : List (BitVec 8)) :
    c.deliver (xs ++ ys) = (c.deliver xs).deliver ys := by
  have hlistener : listener (c.deliver xs).sinks (c.deliver xs).defaultSink
      = listener c.sinks c.defaultSink := rfl
  rw [Console.deliver, Console.deliver, hlistener, deliveries_append, ← List.append_assoc]
  rfl

theorem outChar_eq_deliver (ch : BitVec 8) (idx maxlen : BitVec 64) (c : Console Fn) :
    outChar ch () idx maxlen c = some (c.deliver [ch]) := by
  have hsame : ∀ calls, deliveries (listener c.sinks c.defaultSink) [ch] = calls →
      c.deliver [ch] = { c with sinks := { c.sinks with calls := c.sinks.calls ++ calls } } := by
    rintro calls rfl
    rfl
  rw [outChar]
  by_cases hzero : ch = 0#8
  · rw [if_neg (not_not.mpr hzero), hsame []]
    · rw [List.append_nil]
    · subst hzero
      cases listener c.sinks c.defaultSink <;> rfl
  · rw [if_pos hzero, putchar, sinkWrite]
    by_cases hpast : c.defaultSink ≥ sinkMax
    · rw [if_pos hpast, hsame []]
      · rw [List.append_nil]
        rfl
      · rw [listener, if_pos hpast]
        rfl
    · rw [if_neg hpast, run_loadSink_bind]
      cases hslot : c.sinks.sinks c.defaultSink with
      | none =>
          rw [hsame []]
          · rw [List.append_nil]
            rfl
          · rw [listener, if_neg hpast, hslot]
            rfl
      | some callback =>
          rw [hsame [(callback, ch)]]
          · rfl
          · rw [listener, if_neg hpast, hslot]
            simp [deliveries, hzero]

theorem putAll_outChar (maxlen idx : BitVec 64) (text : List (BitVec 8)) (c : Console Fn) :
    ∃ idx', putAll (outOf outChar (some ())) maxlen text ⟨idx, c⟩ = some ⟨idx', c.deliver text⟩ := by
  induction text generalizing idx c with
  | nil =>
      refine ⟨idx, ?_⟩
      rw [Console.deliver_nil]
      rfl
  | cons ch text ih =>
      obtain ⟨idx', hrest⟩ := ih (idx + 1#64) (c.deliver [ch])
      refine ⟨idx', ?_⟩
      rw [← List.singleton_append, Console.deliver_append, ← hrest, List.singleton_append, putAll, put]
      rw [show outOf outChar (some ()) ch idx maxlen c = some (c.deliver [ch]) from
        outChar_eq_deliver ch idx maxlen c]
      rfl

theorem emit_outChar (maxlen : BitVec 64) (text : List (BitVec 8)) (c : Console Fn) :
    emit (outOf outChar (some ())) maxlen text c
      = some (BitVec.ofNat 32 text.length, c.deliver text) := by
  obtain ⟨idx, htext⟩ := putAll_outChar maxlen 0#64 text c
  rw [emit, htext]
  rfl

theorem kvprintf_of_pieces {strings : Strings} {pieces : List Piece} {after text : List (BitVec 8)}
    {va : List (BitVec 64)} (hwf : ∀ piece ∈ pieces, piece.WellFormed)
    (htext : formatText strings pieces va = some text) (c : Console Fn) :
    kvprintf strings (formatBytes pieces ++ 0#8 :: after) va c
      = some (BitVec.ofNat 32 text.length, c.deliver text) := by
  rw [kvprintf, vsnprintf_of_pieces hwf rfl htext, emit_outChar]

end Console

/-! ### Texts without conversions -/

/-- Characters a format writes as they are. -/
def Plain (text : List (BitVec 8)) : Prop := ∀ ch ∈ text, ch ≠ 0#8 ∧ ch ≠ byte '%'

instance (text : List (BitVec 8)) : Decidable (Plain text) :=
  decidable_of_iff (text.all fun ch => ch != 0#8 && ch != byte '%') (by simp [Plain])

theorem formatBytes_literals (text : List (BitVec 8)) :
    formatBytes (text.map .literal) = text := by
  induction text with
  | nil => rfl
  | cons ch text ih =>
      rw [List.map_cons, formatBytes_cons, ih]
      rfl

theorem formatText_literals_append (strings : Strings) (text : List (BitVec 8)) (pieces : List Piece)
    (va : List (BitVec 64)) :
    formatText strings (text.map .literal ++ pieces) va
      = (formatText strings pieces va).map (text ++ ·) := by
  induction text with
  | nil => exact Option.map_id'.symm
  | cons ch text ih =>
      rw [List.map_cons, List.cons_append, formatText, Piece.text]
      simp only [Option.bind_eq_bind, Option.bind_some, ih]
      cases formatText strings pieces va <;> rfl

theorem formatText_literals (strings : Strings) (text : List (BitVec 8)) (va : List (BitVec 64)) :
    formatText strings (text.map .literal) va = some text := by
  have happend := formatText_literals_append strings text [] va
  rwa [List.append_nil, formatText, Option.map_some, List.append_nil] at happend

theorem wellFormed_literals {text : List (BitVec 8)} (h : Plain text) :
    ∀ piece ∈ text.map Piece.literal, piece.WellFormed := by
  intro piece hpiece
  obtain ⟨ch, hch, rfl⟩ := List.mem_map.mp hpiece
  exact h ch hch

end RainstormOs.Printf

namespace RainstormOs.Klog

open Printf

/-! ### The journal -/

/-- Who listens under an id, how many ids have been handed out, the settings, and what has been
delivered. -/
structure Journal where
  sinks : Int → Option ConsoleSink
  ids : Nat
  defaultSink : Int
  level : Level
  debugSink : Option Int
  delivered : List (ConsoleSink × BitVec 8)

/-- What clients call. -/
inductive LogCall where
  | sinkRegister (writeCallback : Option ConsoleSink)
  | sinkRemove (id : Int)
  | setDefaultSink (id : Int)
  | setLevel (level : Level)
  | kprintf (pieces : List Piece) (va : List (BitVec 64))
  | klogf (level : Level) (pieces : List Piece) (args : List (BitVec 64))

namespace Journal

def deliver (j : Journal) (id : Int) (text : List (BitVec 8)) : Journal :=
  { j with delivered := j.delivered ++ deliveries (j.sinks id) text }

/-- The next id, while there are any. -/
def register (j : Journal) (writeCallback : Option ConsoleSink) : Option Int × Journal :=
  if j.ids < 256 then
    (some j.ids, { j with
      sinks := Function.update j.sinks j.ids writeCallback
      ids := j.ids + 1 })
  else
    (none, j)

/-- One line of the log. -/
def line (level : Level) (text : List (BitVec 8)) : List (BitVec 8) :=
  chars (logLabels level) ++ text ++ [byte '\n']

/-- A call has a meaning where its format has a text. -/
def step (strings : Strings) (j : Journal) : LogCall → Option Journal
  | .sinkRegister writeCallback => some (j.register writeCallback).2
  | .sinkRemove id => some { j with sinks := Function.update j.sinks id none }
  | .setDefaultSink id => some { j with defaultSink := id }
  | .setLevel level =>
      match j.debugSink with
      | some _ => some { j with level := level }
      | none =>
          some { (j.register (some .debugSinkWrite)).2 with
            level := level
            debugSink := (j.register (some .debugSinkWrite)).1 }
  | .kprintf pieces va => (formatText strings pieces va).map (j.deliver j.defaultSink)
  | .klogf level pieces args =>
      if level.value < j.level.value then
        some j
      else
        match j.debugSink with
        | none => some j
        | some id => (formatText strings pieces args).map fun text => j.deliver id (line level text)

/-- What the code relies on: formats that spell pieces, a default sink that is not negative when
something is printed to it, and no panic. -/
def Allows (j : Journal) : LogCall → Prop
  | .kprintf pieces _ => (∀ piece ∈ pieces, piece.WellFormed) ∧ 0 ≤ j.defaultSink
  | .klogf level pieces _ => (∀ piece ∈ pieces, piece.WellFormed) ∧ level ≠ .panic
  | _ => True

end Journal

/-- A call on the machine; a message that does not return has no state to go on from. -/
def LogCall.exec (strings : Strings) (rbp : BitVec 64) (s : State) : LogCall → Option State
  | .sinkRegister writeCallback =>
      (Prog.run sinkExec (RainstormOs.sinkRegister writeCallback) s.console.sinks).map fun out =>
        { s with console := { s.console with sinks := out.2 } }
  | .sinkRemove id =>
      (Prog.run sinkExec (RainstormOs.sinkRemove id) s.console.sinks).map fun out =>
        { s with console := { s.console with sinks := out.2 } }
  | .setDefaultSink id => some (s.setDefaultSink id)
  | .setLevel level => Klog.setLevel level s
  | .kprintf pieces va => s.kprintf strings (formatBytes pieces ++ [0#8]) va
  | .klogf level pieces args =>
      match Klog.klogf strings level (formatBytes pieces ++ [0#8]) args rbp s with
      | some (.returns s) => some s
      | _ => none

/-- The machine's side of a journal. -/
structure Follows (j : Journal) (s : State) : Prop where
  sinks : ∃ history, SinkInv history s.console.sinks ∧ j.sinks = callbackOf history
    ∧ s.console.sinks.currIdx + 1 = j.ids
  defaultSink : s.console.defaultSink = j.defaultSink
  level : s.currentLevel = j.level
  debugSink : s.debugSink = j.debugSink.getD (-1)
  debugSink_nonneg : ∀ id ∈ j.debugSink, 0 ≤ id
  delivered : s.console.sinks.calls = j.delivered

/-! ### One call -/

section Calls

variable {strings : Strings} {rbp : BitVec 64} {j : Journal} {s : State}

theorem sinkExec_ne_none {Fn : Type} (mid : SinkState Fn) (command : SinkCmd Fn) :
    sinkExec command mid ≠ none := by
  cases command <;> exact Option.some_ne_none _

theorem Follows.sinkRegister (h : Follows j s) (writeCallback : Option ConsoleSink) :
    ∃ id t, Prog.run sinkExec (RainstormOs.sinkRegister writeCallback) s.console.sinks = some (id, t)
      ∧ id = (j.register writeCallback).1.getD (-1)
      ∧ Follows (j.register writeCallback).2
          { s with console := { s.console with sinks := t } } := by
  obtain ⟨history, hinv, hsinks, hids⟩ := h.sinks
  obtain ⟨id, t, hrun, hout⟩ := (wp_sinkRegister hinv writeCallback).returns
    fun mid command _ => sinkExec_ne_none mid command
  refine ⟨id, t, hrun, ?_⟩
  rcases hout with ⟨rfl, hfull, rfl⟩ | ⟨rfl, hroom, rfl⟩
  · have hnone : j.register writeCallback = (none, j) := by
      change (256 : Int) ≤ _ at hfull
      rw [Journal.register, if_neg (by omega)]
    rw [hnone]
    exact ⟨rfl, h.sinks, h.defaultSink, h.level, h.debugSink, h.debugSink_nonneg, h.delivered⟩
  · have hsome : j.register writeCallback = (some (j.ids : Int), { j with
        sinks := Function.update j.sinks j.ids writeCallback
        ids := j.ids + 1 }) := by
      change _ < (256 : Int) at hroom
      rw [Journal.register, if_pos (by omega)]
    rw [hsome]
    refine ⟨hids, ⟨⟨_, hinv.registered hroom (Function.update_apply _ _ _) rfl, ?_, ?_⟩, h.defaultSink,
      h.level, h.debugSink, h.debugSink_nonneg, h.delivered⟩⟩
    · have hnonneg : (0 : Int) ≤ j.ids := Int.natCast_nonneg _
      funext i
      change Function.update j.sinks j.ids writeCallback i
        = if 0 ≤ s.console.sinks.currIdx + 1 ∧ i = s.console.sinks.currIdx + 1 then writeCallback
          else callbackOf history i
      rw [Function.update_apply, hsinks, hids]
      simp only [hnonneg, true_and]
    · change s.console.sinks.currIdx + 1 + 1 = ((j.ids + 1 : Nat) : Int)
      omega

theorem Follows.sinkRemove (h : Follows j s) (id : Int) :
    ∃ t, Prog.run sinkExec (RainstormOs.sinkRemove id) s.console.sinks = some ((), t)
      ∧ Follows { j with sinks := Function.update j.sinks id none }
          { s with console := { s.console with sinks := t } } := by
  obtain ⟨history, hinv, hsinks, hids⟩ := h.sinks
  have hhistory : Function.update j.sinks id none = callbackOf ((.remove id, none) :: history) := by
    funext i
    rw [Function.update_apply, hsinks]
    rfl
  rw [RainstormOs.sinkRemove]
  by_cases hpast : id ≥ sinkMax
  · rw [if_pos hpast]
    refine ⟨_, rfl, ⟨_, hinv.removed (fun i hi => ?_) rfl, hhistory, hids⟩, h.defaultSink, h.level,
      h.debugSink, h.debugSink_nonneg, h.delivered⟩
    rw [if_neg (by omega)]
  · rw [if_neg hpast]
    exact ⟨_, rfl, ⟨_, hinv.removed (fun i _ => Function.update_apply _ _ _ i) rfl, hhistory, hids⟩,
      h.defaultSink, h.level, h.debugSink, h.debugSink_nonneg, h.delivered⟩

theorem Follows.listener_eq (h : Follows j s) {id : Int} (hid : 0 ≤ id) :
    listener s.console.sinks id = j.sinks id := by
  obtain ⟨history, hinv, hsinks, -⟩ := h.sinks
  rw [listener, hsinks]
  split
  · next hpast => exact (hinv.past id hpast).symm
  · next hin => exact hinv.slots id hid (by omega)

theorem Follows.listener_debugSink (h : Follows j s) {id : Int} (hdebug : j.debugSink = some id) :
    listener s.console.sinks s.debugSink = j.sinks id := by
  rw [h.debugSink, hdebug, Option.getD_some, h.listener_eq (h.debugSink_nonneg id hdebug)]

/-- Printing to a default sink that is not negative. -/
theorem Follows.deliver (h : Follows j s) (hid : 0 ≤ j.defaultSink) (text : List (BitVec 8)) :
    Follows (j.deliver j.defaultSink text) { s with console := s.console.deliver text } := by
  obtain ⟨history, hinv, hsinks, hids⟩ := h.sinks
  refine ⟨⟨history, ⟨hinv.slots, hinv.past, hinv.above, hinv.bound, hinv.ids⟩, hsinks, hids⟩,
    h.defaultSink, h.level, h.debugSink, h.debugSink_nonneg, ?_⟩
  change s.console.sinks.calls ++ deliveries (listener s.console.sinks s.console.defaultSink) text = _
  rw [h.defaultSink, h.listener_eq hid, h.delivered]
  rfl

theorem Follows.setDefaultSink (h : Follows j s) (id : Int) :
    Follows { j with defaultSink := id } (s.setDefaultSink id) :=
  ⟨h.sinks, rfl, h.level, h.debugSink, h.debugSink_nonneg, h.delivered⟩

theorem kvprintf_of_pieces {pieces : List Piece} {after text : List (BitVec 8)}
    {va : List (BitVec 64)} (hwf : ∀ piece ∈ pieces, piece.WellFormed)
    (htext : formatText strings pieces va = some text) (s : State) :
    s.kvprintf strings (formatBytes pieces ++ 0#8 :: after) va
      = some { s with console := s.console.deliver text } := by
  rw [State.kvprintf, Printf.kvprintf_of_pieces hwf htext]
  rfl

theorem kprintf_cstr {text : String} (h : Plain (chars text)) (s : State) :
    s.kprintf strings (cstr text) [] = some { s with console := s.console.deliver (chars text) } := by
  have htext := formatText_literals strings (chars text) []
  have hprint : s.kvprintf strings (formatBytes ((chars text).map .literal) ++ [0#8]) [] = _ :=
    kvprintf_of_pieces (wellFormed_literals h) htext s
  rw [formatBytes_literals] at hprint
  exact hprint

theorem plain_logLabels (level : Level) : Plain (chars (logLabels level)) := by
  cases level <;> decide

/-- A message that is shown: one line to the debug sink, and the default sink as it was. -/
theorem klogf_shown {level : Level} {pieces : List Piece} {text : List (BitVec 8)}
    {args : List (BitVec 64)} (hwf : ∀ piece ∈ pieces, piece.WellFormed)
    (htext : formatText strings pieces args = some text) (hlevel : ¬ level.value < s.currentLevel.value)
    (hpanic : level ≠ .panic) (hdebug : ¬ s.debugSink < 0) :
    klogf strings level (formatBytes pieces ++ [0#8]) args rbp s
      = some (.returns { s with console :=
          { (({ s.console with defaultSink := s.debugSink }).deliver (Journal.line level text)) with
            defaultSink := s.console.defaultSink } }) := by
  have hnewline : Plain (chars "\n") := by decide
  rw [klogf, if_neg hlevel, if_neg hpanic, if_neg hdebug]
  simp only [kprintf_cstr (plain_logLabels level), kvprintf_of_pieces hwf htext, kprintf_cstr hnewline,
    Option.bind_eq_bind, Option.bind_some]
  rw [Journal.line, Console.deliver_append, Console.deliver_append]
  rfl

theorem Follows.setLevel (h : Follows j s) (strings : Strings) (level : Level) :
    ∃ s' j', j.step strings (.setLevel level) = some j' ∧ Klog.setLevel level s = some s'
      ∧ Follows j' s' := by
  cases hdebug : j.debugSink with
  | some id =>
      have hid : 0 ≤ id := h.debugSink_nonneg id hdebug
      have hsink : s.debugSink = id := by rw [h.debugSink, hdebug, Option.getD_some]
      refine ⟨{ s with currentLevel := level }, { j with level := level }, ?_, ?_,
        h.sinks, h.defaultSink, rfl, h.debugSink, h.debugSink_nonneg, h.delivered⟩
      · rw [Journal.step, hdebug]
      · rw [Klog.setLevel, klogSetLevel, if_neg (by omega)]
        rfl
  | none =>
      have hsink : s.debugSink = -1 := by rw [h.debugSink, hdebug, Option.getD_none]
      obtain ⟨id, t, hrun, hid, hfollows⟩ := h.sinkRegister (some .debugSinkWrite)
      refine ⟨{ s with
          currentLevel := level
          debugSink := id
          console := { s.console with sinks := t } },
        { (j.register (some .debugSinkWrite)).2 with
          level := level
          debugSink := (j.register (some .debugSinkWrite)).1 }, ?_, ?_,
        hfollows.sinks, hfollows.defaultSink, rfl, hid, ?_, hfollows.delivered⟩
      · rw [Journal.step, hdebug]
      · rw [Klog.setLevel, klogSetLevel, if_pos (by omega), hrun]
        rfl
      · intro id' hid'
        rw [Journal.register] at hid'
        split at hid'
        · obtain rfl : (j.ids : Int) = id' := Option.some.inj hid'
          exact Int.natCast_nonneg _
        · cases hid'

theorem Follows.klogf (h : Follows j s) (rbp : BitVec 64) {level : Level} {pieces : List Piece}
    {args : List (BitVec 64)} {j' : Journal} (hwf : ∀ piece ∈ pieces, piece.WellFormed)
    (hpanic : level ≠ .panic) (hstep : j.step strings (.klogf level pieces args) = some j') :
    ∃ s', Klog.klogf strings level (formatBytes pieces ++ [0#8]) args rbp s = some (.returns s')
      ∧ Follows j' s' := by
  rw [Journal.step] at hstep
  by_cases hlevel : level.value < j.level.value
  · rw [if_pos hlevel] at hstep
    obtain rfl := Option.some.inj hstep
    refine ⟨s, ?_, h⟩
    rw [Klog.klogf, h.level, if_pos hlevel]
  · rw [if_neg hlevel] at hstep
    cases hdebug : j.debugSink with
    | none =>
        rw [hdebug] at hstep
        obtain rfl := Option.some.inj hstep
        refine ⟨s, ?_, h⟩
        have hsink : s.debugSink < 0 := by
          rw [h.debugSink, hdebug, Option.getD_none]
          decide
        rw [Klog.klogf, h.level, if_neg hlevel, if_neg hpanic, if_pos hsink]
    | some id =>
        rw [hdebug] at hstep
        obtain ⟨text, htext, rfl⟩ := Option.map_eq_some_iff.mp hstep
        have hid : 0 ≤ id := h.debugSink_nonneg id hdebug
        have hsink : s.debugSink = id := by rw [h.debugSink, hdebug, Option.getD_some]
        refine ⟨_, klogf_shown hwf htext (h.level ▸ hlevel) hpanic (by omega), ?_⟩
        -- the default sink is the debug sink while the line is printed
        have hline := (h.setDefaultSink id).deliver hid (Journal.line level text)
        have hback := hline.setDefaultSink j.defaultSink
        rw [← hsink, ← h.defaultSink] at hback
        exact ⟨hback.sinks, h.defaultSink, hback.level, hback.debugSink, hback.debugSink_nonneg,
          hback.delivered.trans (by rw [hsink]; rfl)⟩

theorem Follows.step (h : Follows j s) (rbp : BitVec 64) {call : LogCall} {j' : Journal}
    (hallows : j.Allows call) (hstep : j.step strings call = some j') :
    ∃ s', call.exec strings rbp s = some s' ∧ Follows j' s' := by
  cases call with
  | sinkRegister writeCallback =>
      obtain rfl := Option.some.inj hstep
      obtain ⟨id, t, hrun, -, hfollows⟩ := h.sinkRegister writeCallback
      refine ⟨_, ?_, hfollows⟩
      rw [LogCall.exec, hrun]
      rfl
  | sinkRemove id =>
      obtain rfl := Option.some.inj hstep
      obtain ⟨t, hrun, hfollows⟩ := h.sinkRemove id
      refine ⟨_, ?_, hfollows⟩
      rw [LogCall.exec, hrun]
      rfl
  | setDefaultSink id =>
      obtain rfl := Option.some.inj hstep
      exact ⟨_, rfl, h.setDefaultSink id⟩
  | setLevel level =>
      obtain ⟨s', j'', hstep', hrun, hfollows⟩ := h.setLevel strings level
      rw [hstep] at hstep'
      obtain rfl := Option.some.inj hstep'
      exact ⟨s', hrun, hfollows⟩
  | kprintf pieces va =>
      obtain ⟨hwf, hid⟩ := hallows
      obtain ⟨text, htext, rfl⟩ := Option.map_eq_some_iff.mp hstep
      exact ⟨_, kvprintf_of_pieces hwf htext s, h.deliver hid text⟩
  | klogf level pieces args =>
      obtain ⟨hwf, hpanic⟩ := hallows
      obtain ⟨s', hrun, hfollows⟩ := h.klogf rbp hwf hpanic hstep
      refine ⟨s', ?_, hfollows⟩
      rw [LogCall.exec, hrun]

end Calls

end RainstormOs.Klog
