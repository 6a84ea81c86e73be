import RainstormOs.Utils.Sink
import Mathlib.Data.List.Nodup
import Mathlib.Data.List.Range

/-!
# Dispatch to sinks

A run of the registry is followed with its history: the calls made so far and what they returned. Who
is registered under an id is read off the history, newest call first, and the array is shown to say
the same. The slots above `curr_idx` have never been written, so a registration finds its slot empty
and its id new.

All of it holds for ids that are not negative. The functions compare an id with the array's length
and not with zero, and a negative one, such as the failure code of a registration, indexes the memory
before the array.
-/

namespace RainstormOs

variable {Fn : Type}

inductive SinkCall (Fn : Type) where
  | register (writeCallback : Option Fn)
  | remove (id : Int)
  | write (id : Int) (ch : BitVec 8)

/-- A call and the id it returned, if it returns one. -/
def SinkCall.prog : SinkCall Fn → SinkProg Fn (Option Int)
  | .register writeCallback => do
      let id ← sinkRegister writeCallback
      pure (some id)
  | .remove id => do
      sinkRemove id
      pure none
  | .write id ch => do
      sinkWrite id ch
      pure none

def SinkCall.Checked : SinkCall Fn → Prop
  | .register _ => True
  | .remove id => 0 ≤ id
  | .write id _ => 0 ≤ id

abbrev SinkHistory (Fn : Type) := List (SinkCall Fn × Option Int)

/-- A run of calls from `boot`, newest first. -/
inductive SinkRun (boot : SinkState Fn) : SinkHistory Fn → SinkState Fn → Prop where
  | init : SinkRun boot [] boot
  | call {history : SinkHistory Fn} {s t : SinkState Fn} {call : SinkCall Fn} {result : Option Int}
      (hrun : SinkRun boot history s)
      (hcall : Prog.run sinkExec call.prog s = some (result, t)) :
      SinkRun boot ((call, result) :: history) t

/-- The static variables before the first call. Memory around the array holds anything. -/
structure SinkState.IsBoot (s : SinkState Fn) : Prop where
  sinks : ∀ i, 0 ≤ i → i < sinkMax → s.sinks i = none
  currIdx : s.currIdx = -1

/-- The ids of the successful registrations, newest first. -/
def registeredIds : SinkHistory Fn → List Int
  | [] => []
  | (.register _, some id) :: history =>
      if 0 ≤ id then id :: registeredIds history else registeredIds history
  | _ :: history => registeredIds history

/-- The callback registered under an id and not removed since. -/
def callbackOf : SinkHistory Fn → Int → Option Fn
  | [], _ => none
  | (.register writeCallback, some id') :: history, id =>
      if 0 ≤ id' ∧ id = id' then writeCallback else callbackOf history id
  | (.remove id', _) :: history, id => if id = id' then none else callbackOf history id
  | _ :: history, id => callbackOf history id

/-- A command that accesses the array inside its bounds, or not at all. -/
def SinkCmd.InSinks : SinkCmd Fn → Prop
  | .load i => 0 ≤ i ∧ i < sinkMax
  | .store i _ => 0 ≤ i ∧ i < sinkMax
  | _ => True

def StaysInSinks {α : Type} (prog : SinkProg Fn α) (s : SinkState Fn) : Prop :=
  ∀ mid c, Prog.Visits sinkExec prog s mid c → c.InSinks

/-- What the registry promises about one more call. -/
structure Dispatches (history : SinkHistory Fn) (s : SinkState Fn) (call : SinkCall Fn) : Prop where
  inBounds : StaysInSinks call.prog s
  write : ∀ id ch, call = .write id ch → Prog.run sinkExec call.prog s
    = some (none, { s with calls := s.calls ++ ((callbackOf history id).map (·, ch)).toList })
  remove : ∀ id, call = .remove id → ∃ t, Prog.run sinkExec call.prog s = some (none, t)
    ∧ (∀ i, i ≠ id → t.sinks i = s.sinks i) ∧ t.currIdx = s.currIdx ∧ t.calls = s.calls

/-! ### One call -/

/-- What every checked run keeps: the array agrees with the history, and nothing is registered above
the last id. -/
structure SinkInv (history : SinkHistory Fn) (s : SinkState Fn) : Prop where
  slots : ∀ i, 0 ≤ i → i < sinkMax → s.sinks i = callbackOf history i
  past : ∀ i, sinkMax ≤ i → callbackOf history i = none
  above : ∀ i, s.currIdx < i → i < sinkMax → s.sinks i = none
  bound : -1 ≤ s.currIdx ∧ s.currIdx < sinkMax
  ids : registeredIds history = ((List.range (s.currIdx + 1).toNat).map Int.ofNat).reverse

section Rules

variable {guar : SinkState Fn → SinkCmd Fn → Prop} {s : SinkState Fn}

@[simp]
theorem wp_loadSink {index : Int} {post : Option Fn → SinkState Fn → Prop} :
    Prog.Wp sinkExec guar (loadSink index) s post ↔
      guar s (.load index) ∧ post (s.sinks index) s :=
  Prog.wp_issue rfl

@[simp]
theorem wp_storeSink {index : Int} {callback : Option Fn} {post : Unit → SinkState Fn → Prop} :
    Prog.Wp sinkExec guar (storeSink index callback) s post ↔
      guar s (.store index callback)
        ∧ post () { s with sinks := Function.update s.sinks index callback } :=
  Prog.wp_issue rfl

@[simp]
theorem wp_getCurrIdx {post : Int → SinkState Fn → Prop} :
    Prog.Wp sinkExec guar getCurrIdx s post ↔ guar s .currIdx ∧ post s.currIdx s :=
  Prog.wp_issue rfl

@[simp]
theorem wp_setCurrIdx {index : Int} {post : Unit → SinkState Fn → Prop} :
    Prog.Wp sinkExec guar (setCurrIdx index) s post ↔
      guar s (.setCurrIdx index) ∧ post () { s with currIdx := index } :=
  Prog.wp_issue rfl

@[simp]
theorem wp_invoke {callback : Fn} {ch : BitVec 8} {post : Unit → SinkState Fn → Prop} :
    Prog.Wp sinkExec guar (invoke callback ch) s post ↔
      guar s (.invoke callback ch) ∧ post () { s with calls := s.calls ++ [(callback, ch)] } :=
  Prog.wp_issue rfl

theorem wp_sinkClear (hempty : ∀ i, 0 ≤ i → i < sinkMax → s.sinks i = none) :
    Prog.Wp sinkExec (fun _ c => c.InSinks) sinkClear s fun _ t => t = s := by
  apply Prog.wp_forAcc (fun _ _ t => t = s) rfl
  · rintro i - t - hi rfl
    have hmax : (i : Int) < sinkMax := by
      change (i : Int) < 256
      omega
    have hnone := hempty i (Int.natCast_nonneg i) hmax
    rw [wp_storeSink]
    refine ⟨⟨Int.natCast_nonneg i, hmax⟩, ?_⟩
    rw [← hnone, Function.update_eq_self]
  · exact fun _ _ h => h

/-- A registration takes the next slot, or fails at the end of the array. -/
theorem wp_sinkRegister {history : SinkHistory Fn} (h : SinkInv history s)
    (writeCallback : Option Fn) :
    Prog.Wp sinkExec (fun _ c => c.InSinks) (sinkRegister writeCallback) s fun id t =>
      (id = -1 ∧ sinkMax ≤ s.currIdx + 1 ∧ t = s) ∨ (id = s.currIdx + 1 ∧ s.currIdx + 1 < sinkMax
        ∧ t = { s with sinks := Function.update s.sinks id writeCallback, currIdx := id }) := by
  obtain ⟨hlo, hhi⟩ := h.bound
  have hrest : Prog.Wp sinkExec (fun _ c => c.InSinks)
      (do
        let currIdx ← getCurrIdx
        if currIdx + 1 ≥ sinkMax then
          pure (-1)
        else
          let slot ← loadSink (currIdx + 1)
          if slot.isSome then
            pure (-1)
          else
            storeSink (currIdx + 1) writeCallback
            setCurrIdx (currIdx + 1)
            pure (currIdx + 1)) s fun id t =>
      (id = -1 ∧ sinkMax ≤ s.currIdx + 1 ∧ t = s) ∨ (id = s.currIdx + 1 ∧ s.currIdx + 1 < sinkMax
        ∧ t = { s with sinks := Function.update s.sinks id writeCallback, currIdx := id }) := by
    rw [Prog.wp_bind, wp_getCurrIdx]
    refine ⟨trivial, ?_⟩
    by_cases hfull : s.currIdx + 1 ≥ sinkMax
    · rw [if_pos hfull]
      exact Or.inl ⟨rfl, hfull, rfl⟩
    · have hslot : 0 ≤ s.currIdx + 1 ∧ s.currIdx + 1 < sinkMax := ⟨by omega, by omega⟩
      rw [if_neg hfull, Prog.wp_bind, wp_loadSink, h.above _ (by omega) hslot.2]
      refine ⟨hslot, ?_⟩
      simp only [Option.isSome_none, Bool.false_eq_true, if_false, Prog.wp_bind, wp_storeSink,
        wp_setCurrIdx]
      exact ⟨hslot, trivial, Or.inr ⟨rfl, hslot.2, rfl⟩⟩
  rw [sinkRegister, Prog.wp_bind, wp_getCurrIdx]
  refine ⟨trivial, ?_⟩
  split
  · next hfirst =>
      have hempty : ∀ i, 0 ≤ i → i < sinkMax → s.sinks i = none :=
        fun i hi hmax => h.above i (by omega) hmax
      apply Prog.Wp.bind _ (wp_sinkClear hempty)
      rintro - t rfl
      exact hrest
  · exact hrest

theorem SinkInv.registered {history : SinkHistory Fn} (h : SinkInv history s)
    (hroom : s.currIdx + 1 < sinkMax) {writeCallback : Option Fn} {t : SinkState Fn}
    (hsinks : ∀ i, t.sinks i = if i = s.currIdx + 1 then writeCallback else s.sinks i)
    (hcurrIdx : t.currIdx = s.currIdx + 1) :
    SinkInv ((.register writeCallback, some (s.currIdx + 1)) :: history) t := by
  obtain ⟨hlo, hhi⟩ := h.bound
  have hnonneg : 0 ≤ s.currIdx + 1 := by omega
  have hcallback : ∀ i, callbackOf ((.register writeCallback, some (s.currIdx + 1)) :: history) i
      = if i = s.currIdx + 1 then writeCallback else callbackOf history i :=
    fun _ => if_congr (and_iff_right hnonneg) rfl rfl
  refine ⟨?_, ?_, ?_, ?_, ?_⟩
  · intro i hi hmax
    rw [hsinks, hcallback, h.slots i hi hmax]
  · intro i hi
    rw [hcallback, if_neg (by omega), h.past i hi]
  · intro i hi hmax
    rw [hcurrIdx] at hi
    rw [hsinks, if_neg (by omega), h.above i (by omega) hmax]
  · rw [hcurrIdx]
    exact ⟨Int.le_trans (by decide) hnonneg, hroom⟩
  · have hnext : (s.currIdx + 1 + 1).toNat = (s.currIdx + 1).toNat + 1 := by omega
    have hid : s.currIdx + 1 = Int.ofNat (s.currIdx + 1).toNat := by
      change s.currIdx + 1 = ((s.currIdx + 1).toNat : Int)
      omega
    rw [registeredIds, if_pos hnonneg, h.ids, hcurrIdx, hnext, List.range_succ, List.map_append,
      List.reverse_append]
    exact congrArg (· :: _) hid

/-- A removal that `sink_remove` refuses changes nothing below `SINK_MAX`. -/
theorem SinkInv.removed {history : SinkHistory Fn} (h : SinkInv history s) {id : Int}
    {t : SinkState Fn} (hsinks : ∀ i, i < sinkMax → t.sinks i = if i = id then none else s.sinks i)
    (hcurrIdx : t.currIdx = s.currIdx) : SinkInv ((.remove id, none) :: history) t := by
  have hcallback : ∀ i, callbackOf ((.remove id, none) :: history) i
      = if i = id then none else callbackOf history i := fun _ => rfl
  refine ⟨?_, ?_, ?_, ?_, ?_⟩
  · intro i hi hmax
    rw [hsinks i hmax, hcallback, h.slots i hi hmax]
  · intro i hi
    rw [hcallback, h.past i hi, ite_self]
  · intro i hi hmax
    rw [hcurrIdx] at hi
    rw [hsinks i hmax, h.above i hi hmax, ite_self]
  · rw [hcurrIdx]
    exact h.bound
  · rw [hcurrIdx]
    exact h.ids

theorem SinkInv.written {history : SinkHistory Fn} (h : SinkInv history s) {id : Int}
    {ch : BitVec 8} {t : SinkState Fn} (hsinks : t.sinks = s.sinks)
    (hcurrIdx : t.currIdx = s.currIdx) : SinkInv ((.write id ch, none) :: history) t := by
  refine ⟨?_, h.past, ?_, ?_, ?_⟩
  · rw [hsinks]
    exact h.slots
  · rw [hsinks, hcurrIdx]
    exact h.above
  · rw [hcurrIdx]
    exact h.bound
  · rw [hcurrIdx]
    exact h.ids

/-- Every checked call stays inside the array and does to it what the history records. -/
theorem SinkInv.wp_prog {history : SinkHistory Fn} (h : SinkInv history s) {call : SinkCall Fn}
    (hchecked : call.Checked) :
    Prog.Wp sinkExec (fun _ c => c.InSinks) call.prog s fun result t =>
      SinkInv ((call, result) :: history) t := by
  cases call with
  | register writeCallback =>
      rw [SinkCall.prog, Prog.wp_bind]
      apply (wp_sinkRegister h writeCallback).post
      rintro id t (⟨rfl, -, rfl⟩ | ⟨rfl, hroom, rfl⟩)
      · exact ⟨h.slots, h.past, h.above, h.bound, h.ids⟩
      · exact h.registered hroom (Function.update_apply s.sinks _ writeCallback) rfl
  | remove id =>
      rw [SinkCall.prog, Prog.wp_bind, sinkRemove]
      split
      · next hpast =>
          apply h.removed _ rfl
          intro i hmax
          rw [if_neg (by omega)]
      · next hin =>
          rw [wp_storeSink]
          exact ⟨⟨hchecked, by omega⟩,
            h.removed (fun i _ => Function.update_apply s.sinks id none i) rfl⟩
  | write id ch =>
      rw [SinkCall.prog, Prog.wp_bind, sinkWrite]
      split
      · exact h.written rfl rfl
      · next hin =>
          rw [Prog.wp_bind, wp_loadSink]
          refine ⟨⟨hchecked, by omega⟩, ?_⟩
          cases s.sinks id with
          | none => exact h.written rfl rfl
          | some callback =>
              change Prog.Wp sinkExec _ (invoke callback ch) s _
              rw [wp_invoke]
              exact ⟨trivial, h.written rfl rfl⟩

end Rules

/-! ### Runs -/

theorem SinkState.IsBoot.inv {boot : SinkState Fn} (h : boot.IsBoot) : SinkInv [] boot where
  slots := h.sinks
  past _ _ := rfl
  above i hi hmax := by
    rw [h.currIdx] at hi
    exact h.sinks i (by omega) hmax
  bound := by
    rw [h.currIdx]
    decide
  ids := by
    rw [h.currIdx]
    rfl

theorem SinkRun.inv {boot s : SinkState Fn} {history : SinkHistory Fn} (hrun : SinkRun boot history s)
    (hboot : boot.IsBoot) (hchecked : ∀ entry ∈ history, entry.1.Checked) : SinkInv history s := by
  induction hrun with
  | init => exact hboot.inv
  | call _ hcall ih =>
      have hprev := ih fun entry hentry => hchecked entry (List.mem_cons_of_mem _ hentry)
      exact (hprev.wp_prog (hchecked _ List.mem_cons_self)).of_run hcall

theorem SinkInv.registeredIds_ok {s : SinkState Fn} {history : SinkHistory Fn}
    (h : SinkInv history s) :
    (registeredIds history).Nodup ∧ ∀ id ∈ registeredIds history, 0 ≤ id ∧ id < sinkMax := by
  have hbound := h.bound
  rw [h.ids]
  constructor
  · rw [List.nodup_reverse]
    exact List.nodup_range.map fun a b hab => Int.ofNat.inj hab
  · intro id hid
    rw [List.mem_reverse, List.mem_map] at hid
    obtain ⟨n, hn, rfl⟩ := hid
    rw [List.mem_range] at hn
    change 0 ≤ (n : Int) ∧ (n : Int) < sinkMax
    omega

theorem run_loadSink_bind {α : Type} {s : SinkState Fn} (index : Int)
    (next : Option Fn → SinkProg Fn α) :
    Prog.run sinkExec (loadSink index >>= next) s = Prog.run sinkExec (next (s.sinks index)) s :=
  rfl

theorem SinkInv.dispatches {s : SinkState Fn} {history : SinkHistory Fn} (h : SinkInv history s)
    {call : SinkCall Fn} (hchecked : call.Checked) : Dispatches history s call where
  inBounds mid c hvisit := (h.wp_prog hchecked).of_visits hvisit
  write id ch hcall := by
    subst hcall
    have hnone : s = { s with calls := s.calls ++ [] } := by rw [List.append_nil]
    by_cases hpast : id ≥ sinkMax
    · rw [SinkCall.prog, sinkWrite, if_pos hpast, h.past id hpast]
      exact congrArg (fun t => some (none, t)) hnone
    · have hslot := h.slots id hchecked (by omega)
      rw [SinkCall.prog, sinkWrite, if_neg hpast, ← hslot, Prog.run_bind, run_loadSink_bind]
      cases s.sinks id with
      | none => exact congrArg (fun t => some (none, t)) hnone
      | some callback => rfl
  remove id hcall := by
    subst hcall
    by_cases hpast : id ≥ sinkMax
    · refine ⟨s, ?_, fun _ _ => rfl, rfl, rfl⟩
      rw [SinkCall.prog, sinkRemove, if_pos hpast]
      rfl
    · refine ⟨{ s with sinks := Function.update s.sinks id none }, ?_, ?_, rfl, rfl⟩
      · rw [SinkCall.prog, sinkRemove, if_neg hpast]
        rfl
      · exact fun i hne => Function.update_of_ne hne _ _

/-- A negative id is used as an index all the same. -/
theorem not_dispatches_of_not_checked {s : SinkState Fn} {history : SinkHistory Fn}
    {call : SinkCall Fn} (hchecked : ¬ call.Checked) : ¬ Dispatches history s call := by
  intro h
  cases call with
  | register writeCallback => exact hchecked trivial
  | remove id =>
      have hin : ¬ id ≥ sinkMax := fun hge => hchecked (Int.le_trans (by decide) hge)
      have hvisit : Prog.Visits sinkExec (SinkCall.remove id).prog s s (.store id none) := by
        rw [SinkCall.prog, sinkRemove, if_neg hin]
        exact Or.inl ⟨rfl, rfl⟩
      exact hchecked (h.inBounds s _ hvisit).1
  | write id ch =>
      have hin : ¬ id ≥ sinkMax := fun hge => hchecked (Int.le_trans (by decide) hge)
      have hvisit : Prog.Visits sinkExec (SinkCall.write id ch).prog s s (.load id) := by
        rw [SinkCall.prog, sinkWrite, if_neg hin]
        exact Or.inl ⟨rfl, rfl⟩
      exact hchecked (h.inBounds s _ hvisit).1

/-- **Dispatch.** In every run whose ids are not negative the ids handed out are distinct indices of
the array, and the next call behaves exactly if its id is not negative either. -/
theorem sinkRun_dispatches {boot s : SinkState Fn} {history : SinkHistory Fn} (hboot : boot.IsBoot)
    (hrun : SinkRun boot history s) (hchecked : ∀ entry ∈ history, entry.1.Checked) :
    (registeredIds history).Nodup
      ∧ (∀ id ∈ registeredIds history, 0 ≤ id ∧ id < sinkMax)
      ∧ ∀ call : SinkCall Fn, Dispatches history s call ↔ call.Checked := by
  have hinv := hrun.inv hboot hchecked
  obtain ⟨hnodup, hrange⟩ := hinv.registeredIds_ok
  refine ⟨hnodup, hrange, fun call => ⟨?_, hinv.dispatches⟩⟩
  intro hdispatches
  by_contra hnot
  exact not_dispatches_of_not_checked hnot hdispatches

/-! ### Capacity

An id is handed out once. `sink_remove` empties the slot and `curr_idx` stays where it is, so what a
registration runs out of is indices, and a slot given back is not found again. -/

theorem SinkInv.length_registeredIds {s : SinkState Fn} {history : SinkHistory Fn}
    (h : SinkInv history s) : ((registeredIds history).length : Int) = s.currIdx + 1 := by
  obtain ⟨hlo, -⟩ := h.bound
  rw [h.ids, List.length_reverse, List.length_map, List.length_range]
  exact Int.toNat_of_nonneg (by omega)

theorem SinkInv.fresh {s : SinkState Fn} {history : SinkHistory Fn} (h : SinkInv history s)
    (hroom : s.currIdx + 1 < sinkMax) :
    s.currIdx + 1 ∉ registeredIds history ∧ callbackOf history (s.currIdx + 1) = none := by
  obtain ⟨hlo, -⟩ := h.bound
  constructor
  · rw [h.ids, List.mem_reverse, List.mem_map]
    rintro ⟨n, hn, hid⟩
    rw [List.mem_range] at hn
    change (n : Int) = s.currIdx + 1 at hid
    omega
  · rw [← h.slots _ (by omega) hroom]
    exact h.above _ (by omega) hroom

theorem SinkInv.run_sinkRegister {s : SinkState Fn} {history : SinkHistory Fn}
    (h : SinkInv history s) (writeCallback : Option Fn) :
    ∃ id t, Prog.run sinkExec (sinkRegister writeCallback) s = some (id, t)
      ∧ ((id = -1 ∧ sinkMax ≤ s.currIdx + 1) ∨ (id = s.currIdx + 1 ∧ s.currIdx + 1 < sinkMax)) := by
  have hexec : ∀ (mid : SinkState Fn) (c : SinkCmd Fn), c.InSinks → sinkExec c mid ≠ none := by
    intro mid c _
    cases c <;> exact Option.some_ne_none _
  obtain ⟨id, t, hrun, hout⟩ := (wp_sinkRegister h writeCallback).returns hexec
  refine ⟨id, t, hrun, hout.imp ?_ ?_⟩
  · rintro ⟨hid, hfull, -⟩
    exact ⟨hid, hfull⟩
  · rintro ⟨hid, hroom, -⟩
    exact ⟨hid, hroom⟩

/-- **Capacity.** In every run whose ids are not negative, a registration fails exactly after 256
successful ones, removed since or not, and otherwise its id is one never handed out before. -/
theorem sinkRun_register_fails_iff {boot s : SinkState Fn} {history : SinkHistory Fn}
    (hboot : boot.IsBoot) (hrun : SinkRun boot history s)
    (hchecked : ∀ entry ∈ history, entry.1.Checked) (writeCallback : Option Fn) :
    ∃ id t, Prog.run sinkExec (sinkRegister writeCallback) s = some (id, t)
      ∧ (id = -1 ↔ (registeredIds history).length = 256)
      ∧ (id ≠ -1 → id ∉ registeredIds history ∧ callbackOf history id = none) := by
  have hinv := hrun.inv hboot hchecked
  have hlength := hinv.length_registeredIds
  obtain ⟨hlo, hhi⟩ := hinv.bound
  change s.currIdx < 256 at hhi
  obtain ⟨id, t, hreg, hout⟩ := hinv.run_sinkRegister writeCallback
  refine ⟨id, t, hreg, ?_⟩
  rcases hout with ⟨rfl, hfull⟩ | ⟨rfl, hroom⟩
  · change (256 : Int) ≤ s.currIdx + 1 at hfull
    exact ⟨⟨fun _ => by omega, fun _ => rfl⟩, fun hne => absurd rfl hne⟩
  · refine ⟨?_, fun _ => hinv.fresh hroom⟩
    change s.currIdx + 1 < 256 at hroom
    omega

def bootSinks : SinkState ConsoleSink := ⟨fun _ => none, -1, []⟩

theorem bootSinks_isBoot : bootSinks.IsBoot := ⟨fun _ _ _ => rfl, rfl⟩

theorem sinkRun_dispatches_bootSinks :
    ∃ s, SinkRun bootSinks [(.register (some .serialSinkWrite), some 0)] s
      ∧ Dispatches [(.register (some .serialSinkWrite), some 0)] s (.write 0 0x48#8) := by
  have hrun : SinkRun bootSinks [(.register (some .serialSinkWrite), some 0)] _ := .call .init rfl
  refine ⟨_, hrun, ((sinkRun_dispatches bootSinks_isBoot hrun ?_).2.2 (.write 0 0x48#8)).mpr ?_⟩
  · intro entry hentry
    rw [List.mem_singleton] at hentry
    rw [hentry]
    exact trivial
  · exact Int.le_refl 0

def registrations : Nat → SinkHistory ConsoleSink
  | 0 => []
  | n + 1 => (.register (some .serialSinkWrite), some (n : Int)) :: registrations n

theorem registrations_checked (n : Nat) : ∀ entry ∈ registrations n, entry.1.Checked := by
  induction n with
  | zero => exact fun _ hentry => absurd hentry List.not_mem_nil
  | succ n ih =>
      intro entry hentry
      rcases List.mem_cons.mp hentry with rfl | hrest
      · exact trivial
      · exact ih entry hrest

theorem length_registeredIds_registrations (n : Nat) :
    (registeredIds (registrations n)).length = n := by
  induction n with
  | zero => rfl
  | succ n ih => rw [registrations, registeredIds, if_pos (Int.natCast_nonneg n), List.length_cons, ih]

theorem exists_sinkRun_registrations {n : Nat} (hn : n ≤ 256) :
    ∃ s, SinkRun bootSinks (registrations n) s := by
  induction n with
  | zero => exact ⟨bootSinks, .init⟩
  | succ n ih =>
      obtain ⟨s, hrun⟩ := ih (by omega)
      have hinv := hrun.inv bootSinks_isBoot (registrations_checked n)
      have hlength := hinv.length_registeredIds
      rw [length_registeredIds_registrations] at hlength
      obtain ⟨id, t, hreg, hout⟩ := hinv.run_sinkRegister (some .serialSinkWrite)
      have hid : id = n := by
        rcases hout with ⟨-, hfull⟩ | ⟨hid, -⟩
        · change (256 : Int) ≤ s.currIdx + 1 at hfull
          omega
        · rw [hid, hlength]
      refine ⟨t, .call hrun ?_⟩
      rw [SinkCall.prog, Prog.run_bind, hreg, hid]
      rfl

theorem sinkRun_register_fails_iff_registrations :
    ∃ s t, SinkRun bootSinks (registrations 256) s
      ∧ Prog.run sinkExec (sinkRegister (some .serialSinkWrite)) s = some (-1, t) := by
  obtain ⟨s, hrun⟩ := exists_sinkRun_registrations (Nat.le_refl 256)
  obtain ⟨id, t, hreg, hfails, -⟩ := sinkRun_register_fails_iff bootSinks_isBoot hrun
    (registrations_checked 256) (some .serialSinkWrite)
  have hid := hfails.mpr (length_registeredIds_registrations 256)
  subst hid
  exact ⟨s, t, hrun, hreg⟩

/-- The ids registered and not removed. -/
def openIds (history : SinkHistory Fn) : List Int :=
  (registeredIds history).filter fun id => (callbackOf history id).isSome

/-- After 256 registrations and the removal of the first one a registration fails, with fewer than
256 sinks registered. -/
theorem sinkRegister_fails_after_sinkRemove :
    ∃ s t, SinkRun bootSinks ((.remove 0, none) :: registrations 256) s
      ∧ (0 : Int) ∈ registeredIds (registrations 256)
      ∧ Prog.run sinkExec (sinkRegister (some .serialSinkWrite)) s = some (-1, t)
      ∧ (openIds ((.remove 0, none) :: registrations 256)).length < 256 := by
  obtain ⟨s, hrun⟩ := exists_sinkRun_registrations (Nat.le_refl 256)
  have hinv := hrun.inv bootSinks_isBoot (registrations_checked 256)
  have hlength := length_registeredIds_registrations 256
  have hmem : (0 : Int) ∈ registeredIds (registrations 256) := by
    have hcount := hinv.length_registeredIds
    rw [hlength] at hcount
    rw [hinv.ids, List.mem_reverse, List.mem_map]
    refine ⟨0, List.mem_range.mpr ?_, rfl⟩
    omega
  have hremove : SinkRun bootSinks ((.remove 0, none) :: registrations 256) _ := .call hrun rfl
  have hchecked : ∀ entry ∈ (SinkCall.remove 0, none) :: registrations 256, entry.1.Checked := by
    intro entry hentry
    rcases List.mem_cons.mp hentry with rfl | hrest
    · exact Int.le_refl 0
    · exact registrations_checked 256 entry hrest
  have hinv' := hremove.inv bootSinks_isBoot hchecked
  have hcount := hinv'.length_registeredIds
  change ((registeredIds (registrations 256)).length : Int) = _ at hcount
  rw [hlength] at hcount
  obtain ⟨id, t, hreg, hout⟩ := hinv'.run_sinkRegister (some .serialSinkWrite)
  have hid : id = -1 := by
    rcases hout with ⟨hid, -⟩ | ⟨-, hroom⟩
    · exact hid
    · rw [← hcount] at hroom
      exact absurd hroom (by decide)
  subst hid
  refine ⟨_, t, hremove, hmem, hreg, ?_⟩
  refine Nat.lt_of_lt_of_eq (List.length_filter_lt_length_iff_exists.mpr ⟨0, hmem, ?_⟩) hlength
  exact Bool.false_ne_true

/-- Without a serial port the loopback test reads `0xFF`, the default sink is -1, and the first
character of the greeting is looked up before the array. -/
theorem kmainConsole_leaves_sinks :
    ¬ StaysInSinks (kmainConsole 0xFF#8 [0x48#8]) bootSinks
      ∧ ∃ s : SinkState ConsoleSink, SinkRun bootSinks [] s
          ∧ ¬ Dispatches [] s (.write (-1) 0x48#8) := by
  constructor
  · intro hstays
    have hvisit : Prog.Visits sinkExec (kmainConsole 0xFF#8 [0x48#8]) bootSinks _ (.load (-1)) :=
      Prog.visits_bind.mpr (Or.inr ⟨-1, bootSinks, rfl,
        Prog.visits_bind.mpr (Or.inr ⟨0, _, rfl, Or.inl ⟨rfl, rfl⟩⟩)⟩)
    exact absurd (hstays _ _ hvisit).1 (by decide)
  · have hnegative : ¬ (SinkCall.write (-1) 0x48#8 : SinkCall ConsoleSink).Checked := by
      change ¬ (0 : Int) ≤ -1
      decide
    exact ⟨bootSinks, .init, not_dispatches_of_not_checked hnegative⟩

end RainstormOs
