import RainstormOs.Proof.Memory
import RainstormOs.Utils.MemsetFrame

/-!
# The frame of `memset`

What the compiled `memset` does as long as the block leaves its variables alone, `count` apart. After
`k` turns the first `k` bytes of the block are set and `i` is `k`; the loop ends at the first turn at
which `count`, as it then is, has been reached. Where the block is apart from the whole frame that is
what `memset` does without a frame.
-/

namespace RainstormOs

open ByteMemory

namespace MemsetFrame

variable {frame : MemsetFrame} {base rbp dest : BitVec 64} {value : BitVec 32} {count : BitVec 64}
  {mem : ByteMemory 64} {k n : Nat}

theorem offsets (frame : MemsetFrame) :
    8 ≤ frame.value ∧ frame.value + 4 ≤ frame.dest ∧ frame.dest + 8 ≤ frame.destPtr
      ∧ frame.dest + 8 ≤ frame.i ∧ (frame.i + 8 ≤ frame.destPtr ∨ frame.destPtr + 8 ≤ frame.i)
      ∧ (frame.i + 8 ≤ frame.savedRbp ∧ frame.destPtr + 8 ≤ frame.savedRbp)
      ∧ frame.size = frame.savedRbp + 8 :=
  ⟨frame.value_ge, frame.dest_ge, frame.destPtr_ge, frame.i_ge, frame.locals, frame.savedRbp_ge, rfl⟩

/-- The frame after the prologue: every variable but `i` has its value. -/
structure Entered (frame : MemsetFrame) (base rbp dest : BitVec 64) (value : BitVec 32)
    (count : BitVec 64) (mem : ByteMemory 64) : Prop where
  savedRbp_eq : mem.readField base frame.savedRbp 8 = rbp
  dest_eq : mem.readField base frame.dest 8 = dest
  value_eq : mem.readField base frame.value 4 = value
  count_eq : mem.readField base 0 8 = count
  destPtr_eq : mem.readField base frame.destPtr 8 = dest

theorem entered_enter (hsize : frame.size ≤ 2 ^ 64) :
    frame.Entered base rbp dest value count (frame.enter base rbp dest value count mem) := by
  have hframe := frame.offsets
  constructor
  · rw [enter, readField_writeField_of_ne (by omega) (by omega) (by omega),
      readField_writeField_of_ne (by omega) (by omega) (by omega),
      readField_writeField_of_ne (by omega) (by omega) (by omega),
      readField_writeField_of_ne (by omega) (by omega) (by omega),
      readField_writeField_self (by decide)]
  · rw [enter, readField_writeField_of_ne (by omega) (by omega) (by omega),
      readField_writeField_of_ne (by omega) (by omega) (by omega),
      readField_writeField_of_ne (by omega) (by omega) (by omega),
      readField_writeField_self (by decide)]
  · rw [enter, readField_writeField_of_ne (by omega) (by omega) (by omega),
      readField_writeField_of_ne (by omega) (by omega) (by omega),
      readField_writeField_self (by decide)]
  · rw [enter, readField_writeField_of_ne (by omega) (by omega) (by omega),
      readField_writeField_self (by decide)]
  · rw [enter, readField_writeField_self (by decide),
      readField_writeField_of_ne (by omega) (by omega) (by omega),
      readField_writeField_of_ne (by omega) (by omega) (by omega),
      readField_writeField_self (by decide)]

/-- The prologue writes to the frame only. -/
theorem enter_of_le {addr : BitVec 64}
    (hout : frame.size ≤ (addr - base).toNat) :
    frame.enter base rbp dest value count mem addr = mem addr := by
  have hframe := frame.offsets
  rw [enter, writeField_of_le (by omega) hout, writeField_of_le (by omega) hout,
    writeField_of_le (by omega) hout, writeField_of_le (by omega) hout,
    writeField_of_le (by omega) hout]

/-- Memory after `k` turns: so many bytes of the block are set, and `i` counts them. -/
def afterTurns (frame : MemsetFrame) (base dest : BitVec 64) (byte : BitVec 8) (mem : ByteMemory 64)
    (k : Nat) : ByteMemory 64 :=
  (mem.fill dest k byte).writeField base frame.i 8 (BitVec.ofNat 64 k)

/-- The first `n` bytes of the block leave the frame alone, `count` apart. -/
def Spares (frame : MemsetFrame) (base dest : BitVec 64) (n : Nat) : Prop :=
  ∀ k, 8 ≤ k → k < frame.size → n ≤ (base + BitVec.ofNat 64 k - dest).toNat

variable {byte : BitVec 8}

theorem afterTurns_zero :
    frame.afterTurns base dest byte mem 0 = mem.writeField base frame.i 8 0#64 := by
  rw [afterTurns, fill_zero]

theorem readField_i (k : Nat) :
    (frame.afterTurns base dest byte mem k).readField base frame.i 8 = BitVec.ofNat 64 k :=
  readField_writeField_self (by decide) _

/-- The other variables above `count` are as the prologue left them. -/
theorem readField_afterTurns (hsize : frame.size ≤ 2 ^ 64) (hspares : frame.Spares base dest n)
    (hk : k ≤ n) {offset width : Nat} (hlow : 8 ≤ offset) (hhigh : offset + width ≤ frame.size)
    (hi : offset + width ≤ frame.i ∨ frame.i + 8 ≤ offset) :
    (frame.afterTurns base dest byte mem k).readField base offset width
      = mem.readField base offset width := by
  have hframe := frame.offsets
  rw [afterTurns, readField_writeField_of_ne (by omega) (by omega) hi]
  apply readWord_congr
  intro j hj
  rw [BitVec.add_assoc, ← BitVec.ofNat_add]
  exact fill_of_le (hk.trans (hspares _ (by omega) (by omega)))

theorem readField_count (hsize : frame.size ≤ 2 ^ 64) :
    (frame.afterTurns base dest byte mem k).readField base 0 8
      = (mem.fill dest k byte).readField base 0 8 := by
  have hframe := frame.offsets
  rw [afterTurns, readField_writeField_of_ne (by omega) (by omega) (by omega)]

/-- As long as the block has not come to it, `count` is as the prologue left it. -/
theorem readField_fill_count
    (hapart : ∀ j, j < 8 → k ≤ (base + BitVec.ofNat 64 j - dest).toNat) :
    (mem.fill dest k byte).readField base 0 8 = mem.readField base 0 8 := by
  apply readWord_congr
  intro j hj
  rw [BitVec.add_zero]
  exact fill_of_le (hapart j hj)

theorem goesOn_iff (hsize : frame.size ≤ 2 ^ 64) (hk : k < 2 ^ 64) :
    frame.goesOn base (frame.afterTurns base dest byte mem k)
      ↔ k < ((mem.fill dest k byte).readField base 0 8).toNat := by
  rw [goesOn, decide_eq_true_iff, readField_i, readField_count hsize, BitVec.lt_def,
    BitVec.toNat_ofNat, Nat.mod_eq_of_lt hk]

/-- One turn. -/
theorem turn_afterTurns (hsize : frame.size ≤ 2 ^ 64)
    (hmem : frame.Entered base rbp dest value count mem) (hspares : frame.Spares base dest n)
    (hk : k < n) :
    frame.turn base (frame.afterTurns base dest (value.setWidth 8) mem k)
      = frame.afterTurns base dest (value.setWidth 8) mem (k + 1) := by
  have hframe := frame.offsets
  have hsmall : k < 2 ^ 64 := by
    have hn := hspares 8 (by omega) (by omega)
    have hlt := (base + BitVec.ofNat 64 8 - dest).isLt
    omega
  -- The byte stored is none of `i`.
  have hcounter : ((frame.afterTurns base dest (value.setWidth 8) mem k).writeByte
      (dest + BitVec.ofNat 64 k) (value.setWidth 8)).readField base frame.i 8
        = BitVec.ofNat 64 k := by
    have hsame : ((frame.afterTurns base dest (value.setWidth 8) mem k).writeByte
        (dest + BitVec.ofNat 64 k) (value.setWidth 8)).readField base frame.i 8
          = (frame.afterTurns base dest (value.setWidth 8) mem k).readField base frame.i 8 := by
      apply readWord_congr
      intro j hj
      apply writeByte_of_ne
      rw [BitVec.add_assoc, ← BitVec.ofNat_add]
      intro heq
      have hfar := hspares (frame.i + j) (by omega) (by omega)
      rw [heq, toNat_add_ofNat_sub dest hsmall] at hfar
      omega
    rw [hsame, readField_i]
  rw [turn, readField_i, readField_afterTurns hsize hspares hk.le (by omega) (by omega) (by omega),
    readField_afterTurns hsize hspares hk.le (by omega) (by omega) (by omega), hmem.destPtr_eq,
    hmem.value_eq, hcounter, ← BitVec.ofNat_add]
  funext addr
  by_cases hin : (addr - (base + BitVec.ofNat 64 frame.i)).toNat < 8
  · rw [writeField, writeWord, if_pos hin, afterTurns, writeField, writeWord, if_pos hin]
  · have hout := Nat.le_of_not_lt hin
    have hbefore : frame.afterTurns base dest (value.setWidth 8) mem k addr
        = mem.fill dest k (value.setWidth 8) addr := writeWord_of_le hout
    have hafter : frame.afterTurns base dest (value.setWidth 8) mem (k + 1) addr
        = mem.fill dest (k + 1) (value.setWidth 8) addr := writeWord_of_le hout
    rw [writeField, writeWord_of_le hout, hafter, ← writeByte_fill hsmall, writeByte, writeByte,
      hbefore]

/-- The loop ends at the first turn whose test fails. -/
theorem loop_eq (hsize : frame.size ≤ 2 ^ 64)
    (hmem : frame.Entered base rbp dest value count mem) (hspares : frame.Spares base dest n)
    {last : Nat} (hlast : last ≤ n)
    (hgoes : ∀ k, k < last →
      frame.goesOn base (frame.afterTurns base dest (value.setWidth 8) mem k))
    (hends : ¬ frame.goesOn base (frame.afterTurns base dest (value.setWidth 8) mem last))
    {fuel : Nat} (hfuel : last < fuel) :
    frame.loop base fuel (mem.writeField base frame.i 8 0#64)
      = some (frame.afterTurns base dest (value.setWidth 8) mem last) := by
  suffices hrest : ∀ left k fuel, k + left = last → left < fuel →
      frame.loop base fuel (frame.afterTurns base dest (value.setWidth 8) mem k)
        = some (frame.afterTurns base dest (value.setWidth 8) mem last) by
    rw [← afterTurns_zero]
    exact hrest last 0 fuel (Nat.zero_add last) hfuel
  intro left
  induction left with
  | zero =>
      intro k fuel hk hfuel
      obtain ⟨fuel, rfl⟩ : ∃ rest, fuel = rest + 1 := ⟨fuel - 1, by omega⟩
      rw [Nat.add_zero] at hk
      rw [loop, hk, if_neg hends]
  | succ left ih =>
      intro k fuel hk hfuel
      obtain ⟨fuel, rfl⟩ : ∃ rest, fuel = rest + 1 := ⟨fuel - 1, by omega⟩
      rw [loop, if_pos (hgoes k (by omega)), turn_afterTurns hsize hmem hspares (by omega)]
      exact ih (k + 1) fuel (by omega) (by omega)

theorem memset_eq {rsp : BitVec 64} (hsize : frame.size ≤ 2 ^ 64)
    (hspares : frame.Spares (frame.base rsp) dest n) {last : Nat} (hlast : last ≤ n)
    {start : ByteMemory 64}
    (hstart : start = frame.enter (frame.base rsp) rbp dest value count mem)
    (hgoes : ∀ k, k < last → frame.goesOn (frame.base rsp)
      (frame.afterTurns (frame.base rsp) dest (value.setWidth 8) start k))
    (hends : ¬ frame.goesOn (frame.base rsp)
      (frame.afterTurns (frame.base rsp) dest (value.setWidth 8) start last))
    {fuel : Nat} (hfuel : last < fuel) {after : ByteMemory 64}
    (hafter : after = frame.afterTurns (frame.base rsp) dest (value.setWidth 8) start last) :
    frame.memset rsp rbp dest value count fuel mem
      = some ⟨dest, rbp, after.readWord rsp 8, after⟩ := by
  have hframe := frame.offsets
  have hentered : frame.Entered (frame.base rsp) rbp dest value count start := by
    rw [hstart]
    exact entered_enter hsize
  have hrax : after.readField (frame.base rsp) frame.dest 8 = dest := by
    rw [hafter, readField_afterTurns hsize hspares hlast (by omega) (by omega) (by omega),
      hentered.dest_eq]
  have hsaved : after.readField (frame.base rsp) frame.savedRbp 8 = rbp := by
    rw [hafter, readField_afterTurns hsize hspares hlast (by omega) (by omega) (by omega),
      hentered.savedRbp_eq]
  simp only [memset, ← hstart, loop_eq hsize hentered hspares hlast hgoes hends hfuel, ← hafter,
    Option.bind_eq_bind, Option.bind_some, hrax, hsaved]
  rfl

end MemsetFrame

/-- A block apart from the frame is filled as by the loop alone: outside the frame `memset` as it is
built leaves what `memset` leaves. -/
theorem memset_agrees {frame : MemsetFrame} {rsp dest count : BitVec 64}
    (hsize : frame.size ≤ 2 ^ 64)
    (hapart : ∀ k, k < frame.size →
      count.toNat ≤ (frame.base rsp + BitVec.ofNat 64 k - dest).toNat)
    (rbp : BitVec 64) (value : Int) {fuel : Nat} (hfuel : count.toNat < fuel) (s : Machine) :
    ∃ t after, (memset dest value count).run s = some (dest, t)
      ∧ frame.memset rsp rbp dest (BitVec.ofInt 32 value) count fuel s.virtMem
          = some ⟨dest, rbp, after.readWord rsp 8, after⟩
      ∧ ∀ addr, frame.size ≤ (addr - frame.base rsp).toNat → after addr = t.virtMem addr := by
  have hframe := frame.offsets
  have hspares : frame.Spares (frame.base rsp) dest count.toNat := fun k _ hk => hapart k hk
  have hbyte : (BitVec.ofInt 32 value).setWidth 8 = BitVec.ofInt 8 value := by
    apply BitVec.eq_of_toNat_eq
    rw [BitVec.toNat_setWidth, BitVec.toNat_ofInt, BitVec.toNat_ofInt]
    omega
  let start := frame.enter (frame.base rsp) rbp dest (BitVec.ofInt 32 value) count s.virtMem
  have hcount : start.readField (frame.base rsp) 0 8 = count :=
    (MemsetFrame.entered_enter hsize).count_eq
  have hgoes : ∀ k, k ≤ count.toNat → (frame.goesOn (frame.base rsp)
      (frame.afterTurns (frame.base rsp) dest ((BitVec.ofInt 32 value).setWidth 8) start k)
        ↔ k < count.toNat) := by
    intro k hk
    rw [MemsetFrame.goesOn_iff hsize (by omega),
      MemsetFrame.readField_fill_count fun j hj => hk.trans (hapart j (by omega)), hcount]
  refine ⟨_, _, run_memset s dest value count, MemsetFrame.memset_eq hsize hspares (Nat.le_refl _) rfl
    (fun k hk => (hgoes k hk.le).mpr hk)
    (fun h => Nat.lt_irrefl _ ((hgoes _ (Nat.le_refl _)).mp h)) hfuel rfl, fun addr hout => ?_⟩
  rw [virtMem_fill, MemsetFrame.afterTurns, ByteMemory.writeField_of_le (by omega) hout, hbyte, fill,
    fill, MemsetFrame.enter_of_le hout]

end RainstormOs
