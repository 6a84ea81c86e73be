import RainstormOs.Machine

/-!
# `utils/memory.c`

The byte loops of the kernel's C library.
-/

namespace RainstormOs

/-- `memset`: the value is converted to a byte, as the C function does. It returns `dest`. -/
def memset (dest : VirtAddr) (value : Int) (count : BitVec 64) : Kernel VirtAddr := do
  Prog.forAcc (fun i () => store8 (dest + BitVec.ofNat 64 i) (BitVec.ofInt 8 value))
    count.toNat 0 ()
  pure dest

/-- `memmove`: the end of the source is computed with wrap-around, as the pointers are compared. -/
def memmove (dest src : VirtAddr) (count : BitVec 64) : Kernel VirtAddr := do
  if dest < src ∨ dest ≥ src + count then
    Prog.forAcc (fun i _ => do
      let byte ← load8 (src + BitVec.ofNat 64 i)
      store8 (dest + BitVec.ofNat 64 i) byte) count.toNat 0 ()
  else
    Prog.forDown (fun i => do
      let byte ← load8 (src + BitVec.ofNat 64 (i - 1))
      store8 (dest + BitVec.ofNat 64 (i - 1)) byte) count.toNat
  pure dest

/-- `memcmp`: where two bytes differ they are read again for the result. -/
def memcmp (s1 s2 : VirtAddr) (count : BitVec 64) : Kernel Int := do
  let out ← Prog.forUntil
    (fun i () => do
      let byte1 ← load8 (s1 + BitVec.ofNat 64 i)
      let byte2 ← load8 (s2 + BitVec.ofNat 64 i)
      if byte1 ≠ byte2 then
        let byte1 ← load8 (s1 + BitVec.ofNat 64 i)
        let byte2 ← load8 (s2 + BitVec.ofNat 64 i)
        pure (.inr ((byte1.toNat : Int) - byte2.toNat))
      else
        pure (.inl ()))
    count.toNat 0 ()
  match out with
  | .inl () => pure 0
  | .inr result => pure result

theorem hhdmVirtToPhys_add (g : Globals) (virt offset : BitVec 64) :
    g.hhdmVirtToPhys (virt + offset) = g.hhdmVirtToPhys virt + offset := by
  rw [Globals.hhdmVirtToPhys, Globals.hhdmVirtToPhys, BitVec.sub_eq_add_neg,
    BitVec.sub_eq_add_neg, BitVec.add_assoc, BitVec.add_comm offset, ← BitVec.add_assoc]

def Machine.fill (s : Machine) (dest : VirtAddr) (count : Nat) (byte : BitVec 8) : Machine :=
  { s with mem := s.mem.fill (s.globals.hhdmVirtToPhys dest) count byte }

theorem wp_memset {guar : Machine → Cmd → Prop} {s : Machine} {dest : VirtAddr} {value : Int}
    {count : BitVec 64} {post : VirtAddr → Machine → Prop}
    (hguar : ∀ i, i < count.toNat →
      guar (s.fill dest i (BitVec.ofInt 8 value))
        (.store8 (dest + BitVec.ofNat 64 i) (BitVec.ofInt 8 value)))
    (hpost : post dest (s.fill dest count.toNat (BitVec.ofInt 8 value))) :
    Prog.Wp exec guar (memset dest value count) s post := by
  refine Prog.Wp.bind
    (fun _ t => t = s.fill dest count.toNat (BitVec.ofInt 8 value))
    (Prog.wp_forAcc (fun i _ t => t = s.fill dest i (BitVec.ofInt 8 value)) ?_ ?_ ?_) ?_
  · simp [Machine.fill]
  · rintro i ⟨⟩ t - hi rfl
    have hsmall : i < 2 ^ 64 := by
      have := count.isLt
      omega
    rw [wp_store8]
    refine ⟨hguar i (by omega), ?_⟩
    simp only [Machine.fill, hhdmVirtToPhys_add]
    rw [ByteMemory.writeByte_fill hsmall]
  · rintro ⟨⟩ t rfl
    rw [Nat.zero_add]
  · rintro ⟨⟩ t rfl
    exact hpost

end RainstormOs
