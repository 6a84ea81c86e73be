import RainstormOs.Proof.PmmInit
import Mathlib.Order.Interval.Finset.Nat

/-!
# The allocator and its clients

Clients call the allocator in any order; what is promised to them is about the whole run. A client
call is modelled together with the set of frames in clients' hands, which an allocation enlarges by
the range it returned and a free shrinks by the range it was given. One rule says what any such call
does to the bitmap, and the results about runs follow from it by induction.
-/

namespace RainstormOs

/-- The frames of a range of pages. No frame starts at a misaligned address, so a range that starts
at one covers none. -/
def coveredFrames (physAddr : PhysAddr) (count : Nat) : Finset Nat :=
  if IsPageAligned physAddr then Finset.Ico (frameOf physAddr) (frameOf physAddr + count) else ∅

inductive PmmCall where
  | allocFrame
  | allocFrames (count : BitVec 64)
  | freeFrame (physAddr : PhysAddr)
  | freeFrames (physAddr : PhysAddr) (count : BitVec 64)

/-- The only rule of the interface: free what is held. -/
def PmmCall.Allowed (held : Finset Nat) : PmmCall → Prop
  | .allocFrame => True
  | .allocFrames _ => True
  | .freeFrame physAddr => coveredFrames physAddr 1 ⊆ held
  | .freeFrames physAddr count => coveredFrames physAddr count.toNat ⊆ held

def PmmCall.prog (held : Finset Nat) : PmmCall → Kernel (Finset Nat)
  | .allocFrame => do
      let physAddr ← pmmAllocFrame
      pure (held ∪ coveredFrames physAddr 1)
  | .allocFrames count => do
      let physAddr ← pmmAllocFrames count
      pure (held ∪ coveredFrames physAddr count.toNat)
  | .freeFrame physAddr => do
      let _ ← pmmFreeFrame physAddr
      pure (held \ coveredFrames physAddr 1)
  | .freeFrames physAddr count => do
      pmmFreeFrames physAddr count
      pure (held \ coveredFrames physAddr count.toNat)

theorem coveredFrames_frameAddr {start count : Nat} (hstart : start < 2 ^ 52) :
    coveredFrames (frameAddr start) count = Finset.Ico start (start + count) := by
  rw [coveredFrames, if_pos (isPageAligned_frameAddr hstart), frameOf_frameAddr hstart]

/-- What a client call does to the machine: frames move between the free ones and the held ones, and
nothing outside the bitmap changes. -/
structure PmmEffect (s : Machine) (held : Finset Nat) (t : Machine) (held' : Finset Nat) :
    Prop where
  only : PmmOnly s t
  taken : ∀ f ∈ held', f ∈ held ∨ s.IsFree f
  bits : ∀ f, f < 2 ^ 64 →
    (t.frameBit f = true ↔ (s.frameBit f = true ∧ f ∉ held) ∨ f ∈ held')

section Calls

variable {guar : Machine → Cmd → Prop} {s : Machine} {held : Finset Nat}

theorem Machine.frameBit_markRange {s : Machine} {start count : Nat} (hend : start + count < 2 ^ 64)
    {f : Nat} (hf : f < 2 ^ 64) :
    (s.markRange start count).frameBit f = true ↔
      s.frameBit f = true ∨ f ∈ Finset.Ico start (start + count) := by
  induction count with
  | zero => simp [Machine.markRange]
  | succ count ih =>
      rw [Machine.markRange, Machine.frameBit_markFrame _ (by omega) hf, Bool.or_eq_true,
        ih (by omega), decide_eq_true_eq, or_assoc]
      refine or_congr Iff.rfl ?_
      rw [Finset.mem_Ico, Finset.mem_Ico]
      omega

theorem PmmEffect.alloc (hlayout : s.globals.PmmLayout)
    (hheld : ∀ f ∈ held, s.frameBit f = true) {start count : Nat}
    (hwindow : s.FreeWindow start count) (hend : start + count ≤ s.globals.totalFrames.toNat) :
    PmmEffect s held (s.markRange start count) (held ∪ coveredFrames (frameAddr start) count) := by
  have htotal := hlayout.total_le
  rw [coveredFrames_frameAddr (by omega)]
  refine ⟨(BitmapOnly.markRange hlayout.fits hend).pmmOnly hlayout, ?_, ?_⟩
  · intro f hf
    rw [Finset.mem_union, Finset.mem_Ico] at hf
    cases hf with
    | inl hf => exact Or.inl hf
    | inr hf => exact Or.inr (hwindow f hf.1 hf.2)
  · intro f hf
    rw [Machine.frameBit_markRange (by omega) hf, Finset.mem_union]
    have := hheld f
    tauto

theorem PmmEffect.free (hlayout : s.globals.PmmLayout)
    (hheld : ∀ f ∈ held, f < s.globals.totalFrames.toNat ∧ s.frameBit f = true)
    {physAddr : PhysAddr} {count : Nat} (hcovered : coveredFrames physAddr count ⊆ held) :
    PmmEffect s held (s.afterFrees physAddr count) (held \ coveredFrames physAddr count) := by
  refine ⟨(BitmapOnly.afterFrees hlayout.fits physAddr count).pmmOnly hlayout, ?_, ?_⟩
  · intro f hf
    exact Or.inl (Finset.mem_sdiff.mp hf).1
  · intro f hf
    have hmem := hheld f
    by_cases haligned : IsPageAligned physAddr
    · rw [coveredFrames, if_pos haligned] at hcovered ⊢
      by_cases hempty : count = 0
      · subst hempty
        simp only [Machine.afterFrees, Nat.add_zero, Finset.Ico_self, Finset.sdiff_empty]
        tauto
      · have hlast := hheld _ (hcovered
          (Finset.mem_Ico.mpr ⟨by omega, by omega⟩ : frameOf physAddr + count - 1 ∈ _))
        have hin : f ∈ Finset.Ico (frameOf physAddr) (frameOf physAddr + count) → f ∈ held :=
          fun h => hcovered h
        rw [Machine.frameBit_afterFrees hlayout.fits haligned (by omega) hf, Finset.mem_sdiff]
        rw [Finset.mem_Ico] at hin ⊢
        tauto
    · rw [Machine.afterFrees_of_not_aligned haligned, coveredFrames, if_neg haligned,
        Finset.sdiff_empty]
      tauto

theorem Machine.FreeWindow.end_le {start count : Nat} (h : s.FreeWindow start count)
    (hcount : count ≠ 0) : start + count ≤ s.globals.totalFrames.toNat := by
  have := (h (start + count - 1) (by omega) (by omega)).1
  omega

/-- **Every client call** reads and writes the bitmap only, and moves exactly the frames of its
range. -/
theorem PmmCall.wp_prog (hlayout : s.globals.PmmLayout)
    (hguar : ∀ t c, PmmOnly s t → PmmCommand s.globals c → guar t c)
    (hpanic : ∀ string, guar s (.kpanic string))
    (hheld : ∀ f ∈ held, f < s.globals.totalFrames.toNat ∧ s.frameBit f = true)
    {call : PmmCall} (hallowed : call.Allowed held) :
    Prog.Wp exec guar (call.prog held) s fun held' t => PmmEffect s held t held' := by
  have hset : ∀ f ∈ held, s.frameBit f = true := fun f hf => (hheld f hf).2
  have hquiet : ∀ t c, BitmapOnly s t → PmmCommand s.globals c → guar t c :=
    fun t c ht hc => hguar t c (ht.pmmOnly hlayout) hc
  cases call with
  | allocFrame =>
      rw [PmmCall.prog, Prog.wp_bind]
      refine wp_pmmAllocFrame hlayout.fits (fun c hc => hguar s c (PmmOnly.refl s) hc)
        (fun _ => hpanic _) ?_
      intro f hfree _
      have hwindow : s.FreeWindow f 1 := by
        intro g hlo hhi
        obtain rfl : g = f := by omega
        exact hfree
      exact PmmEffect.alloc hlayout hset hwindow (hwindow.end_le Nat.one_ne_zero)
  | allocFrames count =>
      rw [PmmCall.prog, Prog.wp_bind]
      refine wp_pmmAllocFrames hlayout.fits hquiet (fun _ => hpanic) ?_ ?_
      · rintro rfl
        have hnone : coveredFrames 0#64 0 = ∅ := by
          rw [coveredFrames, Nat.add_zero, Finset.Ico_self, ite_self]
        change PmmEffect s held s (held ∪ coveredFrames 0#64 0)
        rw [hnone, Finset.union_empty]
        refine ⟨PmmOnly.refl s, fun f hf => Or.inl hf, fun f _ => ?_⟩
        have := hset f
        tauto
      · intro hcount start hwindow _
        have hpos : count.toNat ≠ 0 := fun h => hcount (BitVec.eq_of_toNat_eq h)
        exact PmmEffect.alloc hlayout hset hwindow (hwindow.end_le hpos)
  | freeFrame physAddr =>
      rw [PmmCall.prog, Prog.wp_bind]
      refine wp_pmmFreeFrame hlayout.fits (fun c hc => hguar s c (PmmOnly.refl s) hc) ?_
      have hone : s.afterFrees physAddr 1 = s.afterFree physAddr := by
        simp [Machine.afterFrees]
      have heffect := PmmEffect.free hlayout hheld hallowed
      rwa [hone] at heffect
  | freeFrames physAddr count =>
      rw [PmmCall.prog, Prog.wp_bind]
      exact wp_pmmFreeFrames hlayout.fits hquiet (PmmEffect.free hlayout hheld hallowed)

end Calls

/-! ### Runs -/

/-- A run of client calls from `s0`, with the frames in clients' hands. -/
inductive PmmRun (s0 : Machine) : Machine → Finset Nat → Prop where
  | init : PmmRun s0 s0 ∅
  | step {s t : Machine} {held held' : Finset Nat} {call : PmmCall} (hrun : PmmRun s0 s held)
      (hallowed : call.Allowed held) (hcall : (call.prog held).run s = some (held', t)) :
      PmmRun s0 t held'

/-- What every run keeps: the free frames and the held frames are a partition of the frames that
were free at the start. -/
structure PmmRunInv (s0 s : Machine) (held : Finset Nat) : Prop where
  only : PmmOnly s0 s
  held_free : ∀ f ∈ held, s0.IsFree f
  bits : ∀ f, f < 2 ^ 64 → (s.frameBit f = true ↔ s0.frameBit f = true ∨ f ∈ held)

theorem PmmRunInv.held_set {s0 s : Machine} {held : Finset Nat} (hlayout : s0.globals.PmmLayout)
    (h : PmmRunInv s0 s held) :
    ∀ f ∈ held, f < s.globals.totalFrames.toNat ∧ s.frameBit f = true := by
  intro f hf
  have hlt := (h.held_free f hf).1
  have htotal := hlayout.total_le
  refine ⟨?_, (h.bits f (by omega)).mpr (Or.inr hf)⟩
  rwa [h.only.globals]

theorem PmmRunInv.isFree_iff {s0 s : Machine} {held : Finset Nat}
    (hlayout : s0.globals.PmmLayout) (h : PmmRunInv s0 s held) (f : Nat) :
    s.IsFree f ↔ s0.IsFree f ∧ f ∉ held := by
  have htotal := hlayout.total_le
  unfold Machine.IsFree
  rw [h.only.globals]
  by_cases hlt : f < s0.globals.totalFrames.toNat
  · have hbits := h.bits f (by omega)
    rw [← Bool.not_eq_true, ← Bool.not_eq_true, hbits]
    tauto
  · tauto

theorem PmmRunInv.step {s0 s t : Machine} {held held' : Finset Nat}
    (hlayout : s0.globals.PmmLayout) (h : PmmRunInv s0 s held)
    (heffect : PmmEffect s held t held') : PmmRunInv s0 t held' := by
  have hfree := h.isFree_iff hlayout
  refine ⟨h.only.trans heffect.only, ?_, ?_⟩
  · intro f hf
    cases heffect.taken f hf with
    | inl hheld => exact h.held_free f hheld
    | inr hnew => exact ((hfree f).mp hnew).1
  · intro f hf
    rw [heffect.bits f hf, h.bits f hf]
    have hdisjoint : f ∈ held → ¬ s0.frameBit f = true := by
      intro hheld
      rw [(h.held_free f hheld).2]
      exact Bool.false_ne_true
    tauto

theorem PmmRun.inv {s0 s : Machine} {held : Finset Nat} (hlayout : s0.globals.PmmLayout)
    (hrun : PmmRun s0 s held) : PmmRunInv s0 s held := by
  induction hrun with
  | init => exact ⟨PmmOnly.refl s0, by simp, by simp⟩
  | step hrun hallowed hcall ih =>
      have hlayout' := hlayout
      rw [← ih.only.globals] at hlayout'
      have heffect := (PmmCall.wp_prog hlayout' (fun _ _ _ _ => trivial)
        (fun _ => trivial) (ih.held_set hlayout) hallowed).of_run hcall
      exact ih.step hlayout heffect

def freeFrames (s : Machine) : Set Nat :=
  {f | f < s.globals.totalFrames.toNat
    ∧ (pmmIsFrameFree (frameAddr f)).run s = some (true, s)}

theorem mem_freeFrames_iff {s : Machine} (hfits : s.globals.BitmapFits) {f : Nat} :
    f ∈ freeFrames s ↔ s.IsFree f := by
  refine and_congr_right fun hlt => ?_
  rw [pmmIsFrameFree_run hfits hlt]
  cases s.frameBit f <;> simp

theorem pmmAllocFrame_window {s t : Machine} (hlayout : s.globals.PmmLayout) {physAddr : PhysAddr}
    (hrun : pmmAllocFrame.run s = some (physAddr, t)) :
    ∃ start, start < 2 ^ 52 ∧ physAddr = frameAddr start ∧ s.FreeWindow start 1 := by
  have htotal := hlayout.total_le
  have hwp : Prog.Wp exec (fun _ _ => True) pmmAllocFrame s fun physAddr _ =>
      ∃ start, start < 2 ^ 52 ∧ physAddr = frameAddr start ∧ s.FreeWindow start 1 := by
    refine wp_pmmAllocFrame hlayout.fits (fun _ _ => trivial) (fun _ => trivial) ?_
    intro f hfree _
    have hlt := hfree.1
    refine ⟨f, by omega, rfl, ?_⟩
    intro g hlo hhi
    obtain rfl : g = f := by omega
    exact hfree
  exact hwp.of_run hrun

/-- The range a multi-frame allocation returns; for a count of 0 it is empty. -/
theorem pmmAllocFrames_window {s t : Machine} (hlayout : s.globals.PmmLayout) {count : BitVec 64}
    {physAddr : PhysAddr} (hrun : (pmmAllocFrames count).run s = some (physAddr, t)) :
    ∃ start, start < 2 ^ 52 ∧ physAddr = frameAddr start ∧ s.FreeWindow start count.toNat := by
  have htotal := hlayout.total_le
  have hwp : Prog.Wp exec (fun _ _ => True) (pmmAllocFrames count) s fun physAddr _ =>
      ∃ start, start < 2 ^ 52 ∧ physAddr = frameAddr start
        ∧ s.FreeWindow start count.toNat := by
    refine wp_pmmAllocFrames hlayout.fits (fun _ _ _ _ => trivial) (fun _ _ => trivial) ?_ ?_
    · rintro rfl
      refine ⟨0, by omega, by decide, ?_⟩
      intro f _ hlt
      exact absurd hlt (by simp)
    · intro hcount start hwindow _
      have hpos : count.toNat ≠ 0 := fun h => hcount (BitVec.eq_of_toNat_eq h)
      have hend := hwindow.end_le hpos
      exact ⟨start, by omega, rfl, hwindow⟩
  exact hwp.of_run hrun

/-- An allocation returns frames that were free at the start and that nobody holds. -/
theorem PmmRunInv.alloc_range {s0 s : Machine} {held : Finset Nat}
    (hlayout : s0.globals.PmmLayout) (h : PmmRunInv s0 s held) {physAddr : PhysAddr} {count : Nat}
    (hwindow : ∃ start, start < 2 ^ 52 ∧ physAddr = frameAddr start
      ∧ s.FreeWindow start count) :
    IsPageAligned physAddr
      ∧ (coveredFrames physAddr count : Set Nat) ⊆ freeFrames s0
      ∧ Disjoint (coveredFrames physAddr count) held := by
  obtain ⟨start, hstart, rfl, hwindow⟩ := hwindow
  have hcovered : ∀ f ∈ coveredFrames (frameAddr start) count, s0.IsFree f ∧ f ∉ held := by
    intro f hf
    rw [coveredFrames_frameAddr hstart, Finset.mem_Ico] at hf
    exact (h.isFree_iff hlayout f).mp (hwindow f hf.1 hf.2)
  refine ⟨isPageAligned_frameAddr hstart, ?_, ?_⟩
  · intro f hf
    exact (mem_freeFrames_iff hlayout.fits).mpr (hcovered f hf).1
  · rw [Finset.disjoint_left]
    exact fun f hf => (hcovered f hf).2

/-- **No frame is handed out twice.** Over every run of client calls from the state `pmm_init` left,
the free frames are the initially free ones without the held ones, and an allocation returns
initially free frames that nobody holds. -/
theorem pmmRun_free_eq_sdiff_held {memmap : List LimineMemmapEntry} (h : LimineMemmap memmap)
    (hhdmOffset : BitVec 64) {boot s0 s : Machine} {held : Finset Nat}
    (hinit : (pmmInit memmap hhdmOffset).run boot = some ((), s0)) (hrun : PmmRun s0 s held) :
    freeFrames s = freeFrames s0 \ held
      ∧ (held : Set Nat) ⊆ freeFrames s0
      ∧ (∀ physAddr t, pmmAllocFrame.run s = some (physAddr, t) →
          IsPageAligned physAddr
            ∧ (coveredFrames physAddr 1 : Set Nat) ⊆ freeFrames s0
            ∧ Disjoint (coveredFrames physAddr 1) held)
      ∧ (∀ count physAddr t, (pmmAllocFrames count).run s = some (physAddr, t) →
          IsPageAligned physAddr
            ∧ (coveredFrames physAddr count.toNat : Set Nat) ⊆ freeFrames s0
            ∧ Disjoint (coveredFrames physAddr count.toNat) held)
      ∧ ∀ f, s0.globals.IsBitmapFrame f → f ∉ freeFrames s0 := by
  have hboot := (wp_pmmInit h hhdmOffset boot).of_run hinit
  have hlayout := hboot.layout
  have hinv := hrun.inv hlayout
  have hlayout' : s.globals.PmmLayout := by rwa [hinv.only.globals]
  refine ⟨?_, ?_, ?_, ?_, ?_⟩
  · ext f
    rw [mem_freeFrames_iff hlayout'.fits, hinv.isFree_iff hlayout, Set.mem_sdiff,
      mem_freeFrames_iff hlayout.fits, Finset.mem_coe]
  · intro f hf
    exact (mem_freeFrames_iff hlayout.fits).mpr (hinv.held_free f hf)
  · intro physAddr t hcall
    exact hinv.alloc_range hlayout (pmmAllocFrame_window hlayout' hcall)
  · intro count physAddr t hcall
    exact hinv.alloc_range hlayout (pmmAllocFrames_window hlayout' hcall)
  · intro f hbitmap hfree
    rw [mem_freeFrames_iff hlayout.fits] at hfree
    have hsize := hlayout.size_eq
    have hlt := hfree.1
    have hset := (hboot.bits f (by omega)).mpr (Or.inr hbitmap)
    rw [hfree.2] at hset
    cases hset

theorem pmmAllocFrame_returns {s : Machine} (hlayout : s.globals.PmmLayout) {f : Nat}
    (hfree : s.IsFree f) : ∃ physAddr t, pmmAllocFrame.run s = some (physAddr, t) := by
  have hwp : Prog.Wp exec (fun t c => PmmCommand t.globals c) pmmAllocFrame s
      fun _ _ => True := by
    refine wp_pmmAllocFrame hlayout.fits (fun _ hc => hc) (fun hnone => absurd hfree (hnone f)) ?_
    exact fun _ _ _ => trivial
  obtain ⟨physAddr, t, hrun, -⟩ := hwp.returns fun mid c hc => by cases hc <;> simp [exec]
  exact ⟨physAddr, t, hrun⟩

theorem pmmRun_free_eq_sdiff_held_sampleMemmap :
    ∃ s0 s held, (pmmInit sampleMemmap 0xFFFF800000000000#64).run bareMachine = some ((), s0)
      ∧ PmmRun s0 s held ∧ held.Nonempty ∧ freeFrames s = freeFrames s0 \ held := by
  obtain ⟨s0, hboot, hinit⟩ :=
    pmmInit_returns sampleMemmap_ok 0xFFFF800000000000#64 bareMachine (by decide)
  have hglobals := hinit.globals
  have hfree : s0.IsFree 2 := by
    have hbit := hinit.bits 2 (by rw [hglobals]; decide)
    have husable : UsableFrame sampleMemmap 2 :=
      ⟨_, List.mem_cons_self, by decide, by unfold LimineMemmapEntry.ContainsFrame; decide⟩
    have hbitmap : ¬ s0.globals.IsBitmapFrame 2 := by
      rw [hglobals]
      unfold Globals.IsBitmapFrame
      decide
    refine ⟨by rw [hglobals]; decide, ?_⟩
    rw [← Bool.not_eq_true, hbit]
    tauto
  obtain ⟨physAddr, s, halloc⟩ := pmmAllocFrame_returns hinit.layout hfree
  have hcall : (PmmCall.allocFrame.prog ∅).run s0 = some (∅ ∪ coveredFrames physAddr 1, s) := by
    rw [PmmCall.prog, Kernel.run_bind, halloc]
    rfl
  have hallowed : PmmCall.allocFrame.Allowed ∅ := trivial
  have hrun : PmmRun s0 s (∅ ∪ coveredFrames physAddr 1) := .step .init hallowed hcall
  obtain ⟨start, hstart, rfl, -⟩ := pmmAllocFrame_window hinit.layout halloc
  refine ⟨s0, s, _, hboot, hrun, ⟨start, ?_⟩,
    (pmmRun_free_eq_sdiff_held sampleMemmap_ok _ hboot hrun).1⟩
  rw [Finset.empty_union, coveredFrames_frameAddr hstart, Finset.mem_Ico]
  omega

end RainstormOs
