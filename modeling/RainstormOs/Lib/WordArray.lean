import RainstormOs.Lib.ByteMemory

/-!
# Words painted over a memory

An array of `n`-byte words starts at a base address, which need not be aligned; a slot is an index
into it. Slots below `2 ^ w / n` do not overlap, so a set of them can be written over a memory in any
order. `Painted` says what the memory is afterwards: the words that were given a colour have it, the
other words of the set and every byte outside it are as they were.
-/

namespace ByteMemory

variable {ι : Type} {w n : Nat}

/-- No byte of one word is a byte of another. -/
def Separate (n : Nat) (addrOf : ι → BitVec w) : Prop :=
  ∀ i j, i ≠ j → ∀ k, k < n → n ≤ (addrOf j + BitVec.ofNat w k - addrOf i).toNat

/-- The address is no byte of a word of the family. -/
def Outside (n : Nat) (addrOf : ι → BitVec w) (x : BitVec w) : Prop :=
  ∀ i, n ≤ (x - addrOf i).toNat

/-- `after` is `mem` with the words that `paint` gives written over it. -/
structure Painted (addrOf : ι → BitVec w) (paint : ι → Option (BitVec (8 * n)))
    (mem after : ByteMemory w) : Prop where
  word : ∀ i, after.readWord (addrOf i) n = (paint i).getD (mem.readWord (addrOf i) n)
  outside : ∀ x, Outside n addrOf x → after x = mem x

variable {addrOf : ι → BitVec w} {paint paint' : ι → Option (BitVec (8 * n))}
  {mem mid after : ByteMemory w}

theorem Painted.refl (mem : ByteMemory w) :
    Painted (n := n) addrOf (fun _ => none) mem mem :=
  ⟨fun _ => rfl, fun _ _ => rfl⟩

theorem Painted.trans (h : Painted addrOf paint mem mid) (h' : Painted addrOf paint' mid after) :
    Painted addrOf (fun i => (paint' i).or (paint i)) mem after where
  word i := by
    rw [h'.word, h.word]
    cases paint' i <;> rfl
  outside x hx := (h'.outside x hx).trans (h.outside x hx)

theorem Painted.congr (h : Painted addrOf paint mem after) (hpaint : ∀ i, paint i = paint' i) :
    Painted addrOf paint' mem after := by
  rwa [← funext hpaint]

theorem Painted.writeWord [DecidableEq ι] (hsep : Separate n addrOf) (hn : n ≤ 2 ^ w)
    (mem : ByteMemory w) (i : ι) (value : BitVec (8 * n)) :
    Painted addrOf (fun j => if j = i then some value else none) mem
      (mem.writeWord (addrOf i) n value) where
  word j := by
    by_cases hji : j = i
    · rw [hji, if_pos rfl]
      exact readWord_writeWord_self hn mem (addrOf i) value
    · rw [if_neg hji]
      exact readWord_writeWord_of_disjoint (hsep i j (Ne.symm hji))
  outside x hx := writeWord_of_le (hx i)

/-! ### Slots of an array -/

def slotAddr (base : BitVec w) (n k : Nat) : BitVec w := base + BitVec.ofNat w (k * n)

/-- Words whose distances from a base are at least a word apart do not overlap. -/
theorem offset_separate (base : BitVec w) {a b i : Nat} (ha : a + n ≤ 2 ^ w) (hb : b + n ≤ 2 ^ w)
    (hapart : a + n ≤ b ∨ b + n ≤ a) (hi : i < n) :
    n ≤ (base + BitVec.ofNat w b + BitVec.ofNat w i - (base + BitVec.ofNat w a)).toNat := by
  have hdiff : base + BitVec.ofNat w b + BitVec.ofNat w i - (base + BitVec.ofNat w a)
      = BitVec.ofNat w (b + i) - BitVec.ofNat w a := by
    rw [BitVec.ofNat_add, BitVec.add_assoc]
    exact add_sub_add_left_eq_sub _ _ base
  rw [hdiff, BitVec.toNat_sub, BitVec.toNat_ofNat, BitVec.toNat_ofNat,
    Nat.mod_eq_of_lt (by omega : a < 2 ^ w), Nat.mod_eq_of_lt (by omega : b + i < 2 ^ w)]
  obtain hlt | hgt := hapart
  · have hwrap : 2 ^ w - a + (b + i) = b + i - a + 2 ^ w := by omega
    rw [hwrap, Nat.add_mod_right, Nat.mod_eq_of_lt (by omega)]
    omega
  · rw [Nat.mod_eq_of_lt (by omega)]
    omega

/-- Distinct slots of an array that does not wrap around do not overlap. -/
theorem slotAddr_separate (base : BitVec w) {k k' i : Nat} (hk : k * n + n ≤ 2 ^ w)
    (hk' : k' * n + n ≤ 2 ^ w) (hne : k ≠ k') (hi : i < n) :
    n ≤ (slotAddr base n k' + BitVec.ofNat w i - slotAddr base n k).toNat := by
  apply offset_separate base hk hk' ?_ hi
  rw [← Nat.succ_mul, ← Nat.succ_mul]
  obtain hlt | hgt := Nat.lt_or_gt_of_ne hne
  · exact Or.inl (Nat.mul_le_mul_right n hlt)
  · exact Or.inr (Nat.mul_le_mul_right n hgt)

theorem separate_slotAddr (base : BitVec w) {slotOf : ι → Nat} (hinj : Function.Injective slotOf)
    (hbound : ∀ i, slotOf i * n + n ≤ 2 ^ w) :
    Separate n fun i => slotAddr base n (slotOf i) :=
  fun i j hij _ hk =>
    slotAddr_separate base (hbound i) (hbound j) (fun heq => hij (hinj heq)) hk

end ByteMemory
