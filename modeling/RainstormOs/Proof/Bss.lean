import RainstormOs.KernelEntry
import RainstormOs.Proof.MemsetFrame

/-!
# Clearing `.bss`

`boot.asm` reserves the boot stack in `.bss`, so in every layout the stack lies between the symbols
`kmain` clears between, and `memset` runs on it. It clears upwards from `_bss_start` until it comes to
its own frame. The lowest variable there is `count`: once its bytes are zero the loop ends, a few bytes
into the frame. So `memset` returns and no live byte of the stack is lost, but what lies above is never
reached: neither the rest of the frame nor the part of `.bss` behind the stack.
-/

namespace RainstormOs

open ByteMemory

theorem le_alignUp {align : Nat} (addr : Nat) (hpos : 0 < align) : addr ≤ alignUp addr align := by
  have hdiv := Nat.div_add_mod (addr + align - 1) align
  have hmod := Nat.mod_lt (addr + align - 1) hpos
  rw [alignUp, Nat.mul_comm]
  omega

theorem le_placeAll (dot : Nat) (inputs : List InputSection) : dot ≤ placeAll dot inputs := by
  induction inputs generalizing dot with
  | nil => exact Nat.le_refl dot
  | cons input rest ih =>
      calc dot
          ≤ alignUp dot input.align := le_alignUp dot input.align_pos
        _ ≤ input.place dot := Nat.le_add_right _ _
        _ ≤ placeAll (input.place dot) rest := ih _

namespace BssLayout

variable (layout : BssLayout)

theorem bssStart_le_stackBottom : layout.bssStart ≤ layout.stackBottom :=
  Nat.le_trans (le_placeAll _ _) (le_alignUp _ bootStack.align_pos)

theorem stackTop_le_bssEnd : layout.stackTop ≤ layout.bssEnd := by
  have hsplit : layout.bssEnd = placeAll layout.stackTop layout.after := by
    rw [bssEnd, placeAll, List.foldl_append, List.foldl_cons]
    rfl
  rw [hsplit]
  exact le_placeAll _ _

theorem stackBottom_le_stackTop : layout.stackBottom ≤ layout.stackTop := Nat.le_add_right _ _

theorem bssStart_lt : layout.bssStart < 2 ^ 64 := by
  have hstack : layout.stackTop = layout.stackBottom + 65536 := rfl
  have hbottom := layout.bssStart_le_stackBottom
  have htop := layout.stackTop_le_bssEnd
  have hfits : layout.bssEnd ≤ 2 ^ 64 := layout.fits
  omega

/-- The size `kmain` computes, also where the section ends at the top of the address space. -/
theorem toNat_bssSize :
    (BitVec.ofNat 64 layout.bssEnd - BitVec.ofNat 64 layout.bssStart).toNat
      = layout.bssEnd - layout.bssStart := by
  have hlt := layout.bssStart_lt
  have hbottom := layout.bssStart_le_stackBottom
  have hstack := layout.stackBottom_le_stackTop
  have htop := layout.stackTop_le_bssEnd
  have hfits : layout.bssEnd ≤ 2 ^ 64 := layout.fits
  have hstart : 0xFFFFFFFF80000000 ≤ layout.bssStart := layout.start_ge
  rw [BitVec.toNat_sub, BitVec.toNat_ofNat, BitVec.toNat_ofNat]
  omega

end BssLayout

/-! ### `kmain` -/

namespace BssLayout

variable {layout : BssLayout} {frame : MemsetFrame} {rsp rbp : BitVec 64} {mem : ByteMemory 64}

theorem toNat_sub_bssStart (layout : BssLayout) {addr : BitVec 64}
    (haddr : layout.bssStart ≤ addr.toNat) :
    (addr - BitVec.ofNat 64 layout.bssStart).toNat = addr.toNat - layout.bssStart := by
  have hlt := layout.bssStart_lt
  have haddr' := addr.isLt
  rw [BitVec.toNat_sub, BitVec.toNat_ofNat]
  omega

/-- `memset` is entered on the boot stack, with room for its frame. -/
structure OnStack (layout : BssLayout) (frame : MemsetFrame) (rsp : BitVec 64) : Prop where
  room : layout.stackBottom + frame.size ≤ rsp.toNat
  returnAddress : rsp.toNat + 8 ≤ layout.stackTop

theorem OnStack.toNat_base (h : layout.OnStack frame rsp) :
    (frame.base rsp).toNat = rsp.toNat - frame.size := by
  have hroom := h.room
  have hrsp := rsp.isLt
  rw [MemsetFrame.base, BitVec.toNat_sub, BitVec.toNat_ofNat]
  omega

theorem OnStack.toNat_add (h : layout.OnStack frame rsp) {k : Nat} (hk : k < frame.size) :
    (frame.base rsp + BitVec.ofNat 64 k).toNat = rsp.toNat - frame.size + k := by
  have hroom := h.room
  have hrsp := rsp.isLt
  rw [BitVec.toNat_add, h.toNat_base, BitVec.toNat_ofNat]
  omega

/-- Bytes of `.bss` under the frame. -/
def below (layout : BssLayout) (frame : MemsetFrame) (rsp : BitVec 64) : Nat :=
  rsp.toNat - frame.size - layout.bssStart

theorem OnStack.toNat_frame (h : layout.OnStack frame rsp) {k : Nat} (hk : k < frame.size) :
    (frame.base rsp + BitVec.ofNat 64 k - BitVec.ofNat 64 layout.bssStart).toNat
      = layout.below frame rsp + k := by
  have hroom := h.room
  have hbottom := layout.bssStart_le_stackBottom
  have hadd := h.toNat_add hk
  rw [layout.toNat_sub_bssStart (by omega), hadd, below]
  omega

theorem OnStack.spares (h : layout.OnStack frame rsp) :
    frame.Spares (frame.base rsp) (BitVec.ofNat 64 layout.bssStart)
      (layout.below frame rsp + 8) := by
  intro k hlow hhigh
  rw [h.toNat_frame hhigh]
  omega

theorem OnStack.size_le (h : layout.OnStack frame rsp) : frame.size ≤ 2 ^ 64 := by
  have hroom := h.room
  have hrsp := rsp.isLt
  omega

theorem OnStack.bounds (h : layout.OnStack frame rsp) :
    layout.bssStart ≤ layout.stackBottom ∧ layout.stackBottom + frame.size ≤ rsp.toNat
      ∧ rsp.toNat + 8 ≤ layout.stackTop ∧ layout.stackTop ≤ layout.bssEnd ∧ layout.bssEnd ≤ 2 ^ 64
      ∧ layout.below frame rsp = rsp.toNat - frame.size - layout.bssStart :=
  ⟨layout.bssStart_le_stackBottom, h.room, h.returnAddress, layout.stackTop_le_bssEnd, layout.fits,
    rfl⟩

/-- Memory when the loop starts. -/
def entry (layout : BssLayout) (frame : MemsetFrame) (rsp rbp : BitVec 64) (mem : ByteMemory 64) :
    ByteMemory 64 :=
  frame.enter (frame.base rsp) rbp (BitVec.ofNat 64 layout.bssStart) 0#32
    (BitVec.ofNat 64 layout.bssEnd - BitVec.ofNat 64 layout.bssStart) mem

theorem OnStack.entered (h : layout.OnStack frame rsp) :
    frame.Entered (frame.base rsp) rbp (BitVec.ofNat 64 layout.bssStart) 0#32
      (BitVec.ofNat 64 layout.bssEnd - BitVec.ofNat 64 layout.bssStart)
      (layout.entry frame rsp rbp mem) :=
  MemsetFrame.entered_enter h.size_le

/-- Memory after `k` turns. -/
def turns (layout : BssLayout) (frame : MemsetFrame) (rsp rbp : BitVec 64) (mem : ByteMemory 64)
    (k : Nat) : ByteMemory 64 :=
  frame.afterTurns (frame.base rsp) (BitVec.ofNat 64 layout.bssStart) 0#8
    (layout.entry frame rsp rbp mem) k

/-- Up to the frame `count` is what it was, and more than the turns so far. -/
theorem OnStack.goesOn (h : layout.OnStack frame rsp) {k : Nat} (hk : k ≤ layout.below frame rsp) :
    frame.goesOn (frame.base rsp) (layout.turns frame rsp rbp mem k) := by
  have hframe := frame.offsets
  have hbounds := h.bounds
  have hapart : ∀ j, j < 8 → k ≤ (frame.base rsp + BitVec.ofNat 64 j
      - BitVec.ofNat 64 layout.bssStart).toNat := by
    intro j hj
    rw [h.toNat_frame (by omega)]
    omega
  rw [turns, MemsetFrame.goesOn_iff h.size_le (by omega), MemsetFrame.readField_fill_count hapart,
    h.entered.count_eq]
  have hbss := layout.toNat_bssSize
  omega

/-- Eight bytes into the frame `count` is zero. -/
theorem OnStack.ends (h : layout.OnStack frame rsp) :
    ¬ frame.goesOn (frame.base rsp)
      (layout.turns frame rsp rbp mem (layout.below frame rsp + 8)) := by
  have hframe := frame.offsets
  have hbounds := h.bounds
  have hcount : ((layout.entry frame rsp rbp mem).fill (BitVec.ofNat 64 layout.bssStart)
      (layout.below frame rsp + 8) 0#8).readField (frame.base rsp) 0 8 = 0#64 := by
    apply readWord_eq_zero
    intro j hj
    rw [BitVec.add_zero]
    apply fill_of_lt
    rw [h.toNat_frame (by omega)]
    omega
  rw [turns, MemsetFrame.goesOn_iff h.size_le (by omega), hcount]
  exact Nat.not_lt_zero _

theorem OnStack.exists_last (h : layout.OnStack frame rsp) (rbp : BitVec 64) (mem : ByteMemory 64) :
    ∃ last, layout.below frame rsp < last ∧ last ≤ layout.below frame rsp + 8
      ∧ (∀ k, k < last → frame.goesOn (frame.base rsp) (layout.turns frame rsp rbp mem k))
      ∧ ¬ frame.goesOn (frame.base rsp) (layout.turns frame rsp rbp mem last) := by
  have hexists : ∃ last, ¬ frame.goesOn (frame.base rsp) (layout.turns frame rsp rbp mem last) :=
    ⟨_, h.ends⟩
  refine ⟨Nat.find hexists, ?_, Nat.find_min' hexists h.ends, ?_, Nat.find_spec hexists⟩
  · apply Nat.lt_of_not_le
    exact fun hle => Nat.find_spec hexists (h.goesOn hle)
  · intro k hk
    exact not_not.mp (Nat.find_min hexists hk)

/-- Above the frame nothing is written. -/
theorem OnStack.turns_of_ge (h : layout.OnStack frame rsp) {k : Nat}
    (hk : k ≤ layout.below frame rsp + 8) {addr : BitVec 64} (haddr : rsp.toNat ≤ addr.toNat) :
    layout.turns frame rsp rbp mem k addr = mem addr := by
  have hframe := frame.offsets
  have hbounds := h.bounds
  have haddr' := addr.isLt
  have hbounds := h.bounds
  have hout : frame.size ≤ (addr - frame.base rsp).toNat := by
    rw [BitVec.toNat_sub, h.toNat_base]
    omega
  have hfill : k ≤ (addr - BitVec.ofNat 64 layout.bssStart).toNat := by
    rw [layout.toNat_sub_bssStart (by omega)]
    omega
  rw [turns, MemsetFrame.afterTurns, writeField_of_le (by omega) hout, fill_of_le hfill, entry,
    MemsetFrame.enter_of_le hout]

/-- Below it everything is cleared. -/
theorem OnStack.turns_of_lt (h : layout.OnStack frame rsp) {k : Nat}
    (hk : layout.below frame rsp ≤ k) {addr : BitVec 64} (hlow : layout.bssStart ≤ addr.toNat)
    (hhigh : addr.toNat < rsp.toNat - frame.size) :
    layout.turns frame rsp rbp mem k addr = 0#8 := by
  have hframe := frame.offsets
  have hbounds := h.bounds
  have hout : frame.size ≤ (addr - frame.base rsp).toNat := by
    rw [BitVec.toNat_sub, h.toNat_base]
    omega
  have hfill : (addr - BitVec.ofNat 64 layout.bssStart).toNat < k := by
    rw [layout.toNat_sub_bssStart hlow]
    omega
  rw [turns, MemsetFrame.afterTurns, writeField_of_le (by omega) hout, fill_of_lt hfill]

/-- `memset` returns to `kmain`, with the frame pointer of `kmain`, and leaves `after`. -/
def ClearsTo (layout : BssLayout) (frame : MemsetFrame) (rsp rbp : BitVec 64)
    (mem after : ByteMemory 64) : Prop :=
  ∀ fuel, layout.bssEnd - layout.bssStart < fuel →
    kmainClearBss layout frame rsp rbp fuel mem
      = some ⟨BitVec.ofNat 64 layout.bssStart, rbp, mem.readWord rsp 8, after⟩

theorem OnStack.clearsTo (h : layout.OnStack frame rsp) (rbp : BitVec 64) (mem : ByteMemory 64) :
    ∃ last, layout.below frame rsp < last ∧ last ≤ layout.below frame rsp + 8
      ∧ layout.ClearsTo frame rsp rbp mem (layout.turns frame rsp rbp mem last) := by
  have hframe := frame.offsets
  have hbounds := h.bounds
  obtain ⟨last, hlow, hhigh, hgoes, hends⟩ := h.exists_last rbp mem
  refine ⟨last, hlow, hhigh, fun fuel hfuel => ?_⟩
  have hrip : (layout.turns frame rsp rbp mem last).readWord rsp 8 = mem.readWord rsp 8 := by
    apply readWord_congr
    intro j hj
    apply h.turns_of_ge hhigh
    rw [BitVec.toNat_add, BitVec.toNat_ofNat]
    omega
  rw [kmainClearBss, ← hrip]
  exact MemsetFrame.memset_eq h.size_le h.spares hhigh rfl hgoes hends (by omega) rfl

/-- The stack from `rsp` on is kept, and every byte of `.bss` outside the stack from `bottom` on is
zero. -/
def ClearedAround (layout : BssLayout) (bottom rsp : Nat) (mem after : ByteMemory 64) : Prop :=
  (∀ addr : VirtAddr, rsp ≤ addr.toNat → addr.toNat < layout.stackTop → after addr = mem addr)
    ∧ ∀ addr : VirtAddr, layout.bssStart ≤ addr.toNat → addr.toNat < layout.bssEnd →
        ¬ (bottom ≤ addr.toNat ∧ addr.toNat < layout.stackTop) → after addr = 0#8

/-- `dest` still has its value, and it is not zero. -/
theorem OnStack.exists_ne_zero (h : layout.OnStack frame rsp) {k : Nat}
    (hk : k ≤ layout.below frame rsp + 8) :
    ∃ addr : VirtAddr, layout.bssStart ≤ addr.toNat ∧ addr.toNat < rsp.toNat
      ∧ layout.turns frame rsp rbp mem k addr ≠ 0#8 := by
  have hframe := frame.offsets
  have hbounds := h.bounds
  by_contra hzero
  push Not at hzero
  have hdest : (layout.turns frame rsp rbp mem k).readField (frame.base rsp) frame.dest 8 = 0#64 := by
    apply readWord_eq_zero
    intro j hj
    rw [BitVec.add_assoc, ← BitVec.ofNat_add]
    have haddr := h.toNat_add (k := frame.dest + j) (by omega)
    exact hzero _ (by omega) (by omega)
  rw [turns, MemsetFrame.readField_afterTurns h.size_le h.spares hk (by omega) (by omega) (by omega),
    h.entered.dest_eq] at hdest
  have hstart := congrArg BitVec.toNat hdest
  have hvma : 0xFFFFFFFF80000000 ≤ layout.bssStart := layout.start_ge
  rw [BitVec.toNat_ofNat, Nat.mod_eq_of_lt layout.bssStart_lt] at hstart
  simp at hstart
  omega

theorem ClearsTo.unique {after after' : ByteMemory 64} (h : layout.ClearsTo frame rsp rbp mem after)
    (h' : layout.ClearsTo frame rsp rbp mem after') : after = after' := by
  have heq := (h _ (Nat.lt_succ_self _)).symm.trans (h' _ (Nat.lt_succ_self _))
  exact congrArg MemsetReturn.mem (Option.some.inj heq)

end BssLayout

/-- **Clearing `.bss`** always returns and keeps the stack, but the rest of `.bss` is never all zero,
since the frame of `memset` is part of it. That frame left aside, it is zero whatever it was before
exactly if nothing of `.bss` lies above the boot stack. -/
theorem kmainClearBss_clears_iff {layout : BssLayout} {frame : MemsetFrame} {rsp : BitVec 64}
    (h : layout.OnStack frame rsp) (rbp : BitVec 64) :
    (∀ mem, ∃ after, layout.ClearsTo frame rsp rbp mem after
        ∧ ∀ live, rsp.toNat ≤ live → ¬ layout.ClearedAround live live mem after)
      ∧ ((∀ mem, ∃ after, layout.ClearsTo frame rsp rbp mem after
          ∧ layout.ClearedAround (rsp.toNat - frame.size) rsp.toNat mem after) ↔
        layout.stackTop = layout.bssEnd) := by
  have hbounds := h.bounds
  refine ⟨fun mem => ?_, fun hall => ?_, fun hlast mem => ?_⟩
  · obtain ⟨last, -, hhigh, hclears⟩ := h.clearsTo rbp mem
    refine ⟨_, hclears, fun live hlive hcleared => ?_⟩
    obtain ⟨addr, hlow, hrsp, hne⟩ := h.exists_ne_zero hhigh
    exact hne (hcleared.2 addr hlow (by omega) (by omega))
  · by_contra hne
    obtain ⟨after, hafter, -, hzero⟩ := hall fun _ => 1#8
    obtain ⟨last, -, hhigh, hclears⟩ := h.clearsTo rbp fun _ => 1#8
    have htop : (BitVec.ofNat 64 layout.stackTop).toNat = layout.stackTop := by
      rw [BitVec.toNat_ofNat, Nat.mod_eq_of_lt (by omega)]
    have hbyte := hzero (BitVec.ofNat 64 layout.stackTop) (by omega) (by omega) (by omega)
    rw [hafter.unique hclears, h.turns_of_ge hhigh (by omega)] at hbyte
    exact absurd hbyte (by decide)
  · obtain ⟨last, hlow, hhigh, hclears⟩ := h.clearsTo rbp mem
    refine ⟨_, hclears, fun addr hrsp _ => h.turns_of_ge hhigh hrsp, fun addr hstart hend hout => ?_⟩
    exact h.turns_of_lt hlow.le hstart (by omega)

/-- The offsets gcc chooses. -/
def gccMemsetFrame : MemsetFrame where
  value := 12
  dest := 16
  destPtr := 24
  i := 32
  savedRbp := 40
  value_ge := by decide
  dest_ge := by decide
  destPtr_ge := by decide
  i_ge := by decide
  locals := by decide
  savedRbp_ge := by decide

/-- `.bss` with nothing in it but the boot stack. -/
def stackOnlyLayout : BssLayout where
  bssStart := 0xFFFFFFFF80006000
  common := []
  before := []
  after := []
  start_ge := by decide
  fits := by decide

/-- The same with one pointer behind it. -/
def stackFirstLayout : BssLayout where
  bssStart := 0xFFFFFFFF80006000
  common := []
  before := []
  after := [⟨8, 8, by decide⟩]
  start_ge := by decide
  fits := by decide

/-- Nothing is cleared yet, and the stack holds the return address into `_start`. -/
def bootMemory : ByteMemory 64 :=
  ByteMemory.writeWord (fun _ => 0xCC#8) 0xFFFFFFFF80015FF8#64 8 0xFFFFFFFF80001012#64

theorem kmainClearBss_clears_iff_stackOnly :
    ∃ after, stackOnlyLayout.ClearsTo gccMemsetFrame 0xFFFFFFFF80015FD8#64 0xFFFFFFFF80015FF0#64
        bootMemory after
      ∧ stackOnlyLayout.ClearedAround 0xFFFFFFFF80015FA8 0xFFFFFFFF80015FD8 bootMemory after := by
  have h : stackOnlyLayout.OnStack gccMemsetFrame 0xFFFFFFFF80015FD8#64 := ⟨by decide, by decide⟩
  exact (kmainClearBss_clears_iff h 0xFFFFFFFF80015FF0#64).2.mpr (by decide) bootMemory

/-- The pointer behind the stack keeps its bytes. -/
theorem kmainClearBss_skips_pointer :
    ∃ after, stackFirstLayout.ClearsTo gccMemsetFrame 0xFFFFFFFF80015FD8#64 0xFFFFFFFF80015FF0#64
        bootMemory after
      ∧ stackFirstLayout.stackTop = 0xFFFFFFFF80016000 ∧ after 0xFFFFFFFF80016000#64 = 0xCC#8
      ∧ ¬ stackFirstLayout.ClearedAround 0xFFFFFFFF80015FD8 0xFFFFFFFF80015FD8 bootMemory after
      ∧ ¬ stackFirstLayout.ClearedAround 0xFFFFFFFF80015FA8 0xFFFFFFFF80015FD8 bootMemory after := by
  have h : stackFirstLayout.OnStack gccMemsetFrame 0xFFFFFFFF80015FD8#64 := ⟨by decide, by decide⟩
  obtain ⟨last, -, hhigh, hclears⟩ := h.clearsTo 0xFFFFFFFF80015FF0#64 bootMemory
  have hbyte : stackFirstLayout.turns gccMemsetFrame 0xFFFFFFFF80015FD8#64 0xFFFFFFFF80015FF0#64
      bootMemory last 0xFFFFFFFF80016000#64 = 0xCC#8 := by
    rw [h.turns_of_ge hhigh (by decide)]
    decide
  refine ⟨_, hclears, by decide, hbyte, fun hcleared => ?_, fun hcleared => ?_⟩
  all_goals
    have hzero := hcleared.2 0xFFFFFFFF80016000#64 (by decide) (by decide) (by decide)
    rw [hbyte] at hzero
    exact absurd hzero (by decide)

end RainstormOs
