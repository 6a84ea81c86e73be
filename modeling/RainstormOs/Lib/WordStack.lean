import RainstormOs.Lib.ByteMemory

/-!
# Words on a stack

A stack that grows down lies in memory as a list of words, the last pushed at the lowest address.
Pushing puts a word in front of the list and leaves the others alone, as long as the list does not
reach around the address space; nothing outside the bytes of the list matters to it.
-/

namespace ByteMemory

variable {w n : Nat} {mem mem' : ByteMemory w} {addr : BitVec w} {words : List (BitVec (8 * n))}

/-- From `addr` upwards the memory holds these `n`-byte words. -/
def HoldsWords (mem : ByteMemory w) (addr : BitVec w) : List (BitVec (8 * n)) → Prop
  | [] => True
  | word :: words => mem.readWord addr n = word ∧ mem.HoldsWords (addr + BitVec.ofNat w n) words

theorem HoldsWords.congr (h : mem.HoldsWords addr words)
    (hbytes : ∀ k, k < n * words.length →
      mem' (addr + BitVec.ofNat w k) = mem (addr + BitVec.ofNat w k)) :
    mem'.HoldsWords addr words := by
  induction words generalizing addr with
  | nil => exact trivial
  | cons word words ih =>
      obtain ⟨hword, hrest⟩ := h
      rw [List.length_cons, Nat.mul_succ] at hbytes
      refine ⟨?_, ih hrest ?_⟩
      · rw [← hword]
        exact readWord_congr fun k hk => hbytes k (by omega)
      · intro k hk
        rw [BitVec.add_assoc, ← BitVec.ofNat_add]
        exact hbytes (n + k) (by omega)

theorem HoldsWords.of_append {rest : List (BitVec (8 * n))}
    (h : mem.HoldsWords addr (words ++ rest)) : mem.HoldsWords addr words := by
  induction words generalizing addr with
  | nil => exact trivial
  | cons word words ih => exact ⟨h.1, ih h.2⟩

theorem HoldsWords.readWord_eq (h : mem.HoldsWords addr words) {i : Nat} (hi : i < words.length) :
    mem.readWord (addr + BitVec.ofNat w (n * i)) n = words.get ⟨i, hi⟩ := by
  induction words generalizing addr i with
  | nil => exact absurd hi (Nat.not_lt_zero i)
  | cons word words ih =>
      cases i with
      | zero =>
          rw [Nat.mul_zero, BitVec.add_zero]
          exact h.1
      | succ i =>
          rw [Nat.mul_succ, Nat.add_comm, BitVec.ofNat_add, ← BitVec.add_assoc]
          exact ih h.2 (Nat.lt_of_succ_lt_succ hi)

theorem HoldsWords.push (h : mem.HoldsWords addr words)
    (hroom : n * (words.length + 1) ≤ 2 ^ w) (word : BitVec (8 * n)) :
    (mem.writeWord (addr - BitVec.ofNat w n) n word).HoldsWords (addr - BitVec.ofNat w n)
      (word :: words) := by
  rw [Nat.mul_succ] at hroom
  refine ⟨readWord_writeWord_self (by omega) _ _ _, ?_⟩
  rw [BitVec.sub_add_cancel]
  refine h.congr fun k hk => writeWord_of_le ?_
  have hoffset : addr + BitVec.ofNat w k - (addr - BitVec.ofNat w n) = BitVec.ofNat w (n + k) := by
    rw [BitVec.ofNat_add]
    grind
  rw [hoffset, BitVec.toNat_ofNat, Nat.mod_eq_of_lt (by omega)]
  exact Nat.le_add_right n k

end ByteMemory
