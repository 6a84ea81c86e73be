import RainstormOs.Utils.Memory
import RainstormOs.Lib.BlockCopy

/-!
# Block copies

`memmove` reads and writes the same memory. Going up it is safe as long as no source byte still to
be read lies among the first ones of the destination, going down as long as none lies among the last
ones. The comparison of the two pointers picks a direction for which this holds wherever the blocks
lie, also where the end of the source wraps to zero: the destination then cannot start above it.
-/

namespace RainstormOs

/-- Memory under the addresses the code uses. -/
def Machine.virtMem (s : Machine) : ByteMemory 64 :=
  fun addr => s.mem (s.globals.hhdmVirtToPhys addr)

/-- The bytes at offsets from `first` up to `last` of a block copied. -/
def Machine.copy (s : Machine) (dest src : VirtAddr) (first last : Nat) : Machine :=
  { s with
    mem := s.mem.copy (s.globals.hhdmVirtToPhys dest) (s.globals.hhdmVirtToPhys src) first last }

theorem hhdmVirtToPhys_sub_hhdmVirtToPhys (g : Globals) (addr base : VirtAddr) :
    g.hhdmVirtToPhys addr - g.hhdmVirtToPhys base = addr - base := by
  rw [Globals.hhdmVirtToPhys, Globals.hhdmVirtToPhys]
  exact sub_sub_sub_cancel_right addr base g.hhdmOffset

theorem virtMem_copy (s : Machine) (dest src : VirtAddr) (first last : Nat) :
    (s.copy dest src first last).virtMem = s.virtMem.copy dest src first last := by
  funext addr
  simp only [Machine.virtMem, Machine.copy, ByteMemory.copy, hhdmVirtToPhys_sub_hhdmVirtToPhys,
    hhdmVirtToPhys_add]

theorem virtMem_fill (s : Machine) (dest : VirtAddr) (count : Nat) (byte : BitVec 8) :
    (s.fill dest count byte).virtMem = s.virtMem.fill dest count byte := by
  funext addr
  simp only [Machine.virtMem, Machine.fill, ByteMemory.fill, hhdmVirtToPhys_sub_hhdmVirtToPhys]

theorem run_memset (s : Machine) (dest : VirtAddr) (value : Int) (count : BitVec 64) :
    (memset dest value count).run s
      = some (dest, s.fill dest count.toNat (BitVec.ofInt 8 value)) :=
  Kernel.run_eq (wp_memset (fun _ _ _ => Cmd.noConfusion) ⟨rfl, rfl⟩)

/-! ### One byte -/

section Rules

variable {guar : Machine → Cmd → Prop} {s : Machine} {dest src : VirtAddr} {first last k : Nat}

/-- A load of a byte no step has written yet. -/
theorem wp_load8_copy {post : BitVec 8 → Machine → Prop}
    (hunread : ¬ (first ≤ (src + BitVec.ofNat 64 k - dest).toNat
      ∧ (src + BitVec.ofNat 64 k - dest).toNat < last))
    (hguar : ∀ t addr, guar t (.load8 addr))
    (hpost : post (s.virtMem (src + BitVec.ofNat 64 k)) (s.copy dest src first last)) :
    Prog.Wp exec guar (load8 (src + BitVec.ofNat 64 k)) (s.copy dest src first last) post := by
  rw [wp_load8]
  refine ⟨hguar _ _, ?_⟩
  change post ((s.copy dest src first last).virtMem (src + BitVec.ofNat 64 k)) _
  rwa [virtMem_copy, ByteMemory.copy_of_not_mem hunread]

theorem wp_store8_copy {first' last' : Nat} {post : Unit → Machine → Prop} (hk : k < 2 ^ 64)
    (hjoin : ∀ i, (first' ≤ i ∧ i < last') ↔ (first ≤ i ∧ i < last) ∨ i = k)
    (hguar : ∀ t addr byte, guar t (.store8 addr byte))
    (hpost : post () (s.copy dest src first' last')) :
    Prog.Wp exec guar (store8 (dest + BitVec.ofNat 64 k) (s.virtMem (src + BitVec.ofNat 64 k)))
      (s.copy dest src first last) post := by
  rw [wp_store8]
  refine ⟨hguar _ _ _, ?_⟩
  simp only [Machine.copy, Machine.virtMem, hhdmVirtToPhys_add]
  rw [ByteMemory.writeByte_copy hk hjoin]
  exact hpost

end Rules

/-! ### The two directions -/

section Directions

variable {dest src count : BitVec 64} {k : Nat}

theorem toNat_source_offset (hk : src.toNat + k < 2 ^ 64) :
    (src + BitVec.ofNat 64 k - dest).toNat
      = if dest.toNat ≤ src.toNat + k then src.toNat + k - dest.toNat
        else 2 ^ 64 + (src.toNat + k) - dest.toNat := by
  have hdest := dest.isLt
  rw [BitVec.toNat_sub, BitVec.toNat_add, BitVec.toNat_ofNat]
  split <;> omega

theorem forward_unread (hsrc : src.toNat + count.toNat ≤ 2 ^ 64)
    (hdirection : dest.toNat ≤ src.toNat ∨ src.toNat + count.toNat ≤ dest.toNat)
    (hk : k < count.toNat) :
    ¬ (0 ≤ (src + BitVec.ofNat 64 k - dest).toNat
      ∧ (src + BitVec.ofNat 64 k - dest).toNat < k) := by
  have hdest := dest.isLt
  rw [toNat_source_offset (by omega)]
  split <;> omega

theorem backward_unread (hsrc : src.toNat + count.toNat ≤ 2 ^ 64)
    (hdest : dest.toNat + count.toNat ≤ 2 ^ 64) (hdirection : src.toNat ≤ dest.toNat)
    (hk : k < count.toNat) :
    ¬ (k + 1 ≤ (src + BitVec.ofNat 64 k - dest).toNat
      ∧ (src + BitVec.ofNat 64 k - dest).toNat < count.toNat) := by
  rw [toNat_source_offset (by omega)]
  split <;> omega

/-- What the comparison of the pointers decides. -/
theorem forward_of_test (hdest : dest.toNat + count.toNat ≤ 2 ^ 64)
    (htest : dest < src ∨ dest ≥ src + count) :
    dest.toNat ≤ src.toNat ∨ src.toNat + count.toNat ≤ dest.toNat := by
  rcases htest with hbefore | hafter
  · exact Or.inl (Nat.le_of_lt hbefore)
  · have hend : (src + count).toNat ≤ dest.toNat := hafter
    rw [BitVec.toNat_add] at hend
    omega

theorem backward_of_test (htest : ¬ (dest < src ∨ dest ≥ src + count)) :
    src.toNat ≤ dest.toNat := by
  rw [not_or] at htest
  exact Nat.not_lt.mp htest.1

end Directions

theorem wp_memmove {guar : Machine → Cmd → Prop} {s : Machine} {dest src : VirtAddr}
    {count : BitVec 64} {post : VirtAddr → Machine → Prop}
    (hsrc : src.toNat + count.toNat ≤ 2 ^ 64) (hdest : dest.toNat + count.toNat ≤ 2 ^ 64)
    (hload : ∀ t addr, guar t (.load8 addr)) (hstore : ∀ t addr byte, guar t (.store8 addr byte))
    (hpost : post dest (s.copy dest src 0 count.toNat)) :
    Prog.Wp exec guar (memmove dest src count) s post := by
  have hcount := count.isLt
  have hstart : ∀ i, s = s.copy dest src i i := by
    intro i
    simp [Machine.copy]
  rw [memmove]
  split
  · next htest =>
      have hdirection := forward_of_test hdest htest
      refine Prog.Wp.bind (fun _ t => t = s.copy dest src 0 count.toNat)
        (Prog.wp_forAcc (fun i _ t => t = s.copy dest src 0 i) (hstart 0) ?_ ?_) ?_
      · rintro i - t - hi rfl
        rw [Prog.wp_bind]
        refine wp_load8_copy (forward_unread hsrc hdirection (by omega)) hload ?_
        exact wp_store8_copy (by omega) (fun j => by omega) hstore rfl
      · rintro - t rfl
        rw [Nat.zero_add]
      · rintro - t rfl
        exact hpost
  · next htest =>
      have hdirection := backward_of_test htest
      refine Prog.Wp.bind (fun _ t => t = s.copy dest src 0 count.toNat)
        (Prog.wp_forDown (fun i t => t = s.copy dest src i count.toNat) (hstart _) ?_ ?_) ?_
      · rintro i t hi rfl
        rw [Prog.wp_bind, Nat.add_sub_cancel]
        refine wp_load8_copy (backward_unread hsrc hdest hdirection hi) hload ?_
        exact wp_store8_copy (by omega) (fun j => by omega) hstore rfl
      · rintro t rfl
        rfl
      · rintro - t rfl
        exact hpost

theorem run_memmove (s : Machine) {dest src : VirtAddr} {count : BitVec 64}
    (hsrc : src.toNat + count.toNat ≤ 2 ^ 64) (hdest : dest.toNat + count.toNat ≤ 2 ^ 64) :
    (memmove dest src count).run s = some (dest, s.copy dest src 0 count.toNat) :=
  Kernel.run_eq (wp_memmove hsrc hdest (fun _ _ _ => Cmd.noConfusion)
    (fun _ _ _ _ => Cmd.noConfusion) ⟨rfl, rfl⟩)

/-- **memmove copies a snapshot.** Wherever the two blocks lie, the destination holds the source's
original bytes afterwards and nothing else has changed. -/
theorem memmove_copies (s : Machine) (dest src : VirtAddr) (count : BitVec 64)
    (hsrc : src.toNat + count.toNat ≤ 2 ^ 64) (hdest : dest.toNat + count.toNat ≤ 2 ^ 64) :
    ∃ t, (memmove dest src count).run s = some (dest, t)
      ∧ (∀ i, i < count.toNat →
          t.virtMem (dest + BitVec.ofNat 64 i) = s.virtMem (src + BitVec.ofNat 64 i))
      ∧ (∀ addr, ¬ (dest.toNat ≤ addr.toNat ∧ addr.toNat < dest.toNat + count.toNat) →
          t.virtMem addr = s.virtMem addr)
      ∧ t = { s with mem := t.mem } := by
  have hcount := count.isLt
  refine ⟨_, run_memmove s hsrc hdest, ?_, ?_, rfl⟩
  · intro i hi
    rw [virtMem_copy, ByteMemory.copy_add_ofNat (Nat.zero_le i) hi (by omega)]
  · intro addr hout
    rw [virtMem_copy, ByteMemory.copy_of_not_mem]
    have haddr := addr.isLt
    rw [BitVec.toNat_sub]
    omega

/-- Every byte of memory holds the low byte of its address. -/
def rampMachine : Machine :=
  { mem := fun addr => addr.setWidth 8, globals := ⟨0#64, 0#64, 0#64, 0#64, fun _ => 0#64⟩,
    cr3 := 0#64, nxe := false }

theorem memmove_copies_rampMachine :
    ∃ t, (memmove 0x11#64 0x10#64 4#64).run rampMachine = some (0x11#64, t)
      ∧ t.virtMem 0x14#64 = 0x13#8 ∧ t.virtMem 0x15#64 = 0x15#8 := by
  obtain ⟨t, hrun, hcopied, hkept, -⟩ :=
    memmove_copies rampMachine 0x11#64 0x10#64 4#64 (by decide) (by decide)
  exact ⟨t, hrun, hcopied 3 (by decide), hkept 0x15#64 (by decide)⟩

/-! ### Comparing -/

def Machine.block (s : Machine) (ptr : VirtAddr) (count : Nat) : List (BitVec 8) :=
  (List.range count).map fun i => s.virtMem (ptr + BitVec.ofNat 64 i)

/-- The sign of `result` says how two blocks lie in the lexicographic order of their bytes. -/
structure Orders (result : Int) (block1 block2 : List (BitVec 8)) : Prop where
  neg_iff : result < 0 ↔ block1 < block2
  eq_zero_iff : result = 0 ↔ block1 = block2
  pos_iff : 0 < result ↔ block2 < block1

section Compare

variable {s : Machine} {s1 s2 : VirtAddr} {i count : Nat}

theorem block_lt_block (hi : i < count)
    (hsame : ∀ j, j < i → s.virtMem (s1 + BitVec.ofNat 64 j) = s.virtMem (s2 + BitVec.ofNat 64 j))
    (hlt : s.virtMem (s1 + BitVec.ofNat 64 i) < s.virtMem (s2 + BitVec.ofNat 64 i)) :
    s.block s1 count < s.block s2 count := by
  rw [List.lt_iff_exists]
  refine Or.inr ⟨i, by simpa [Machine.block] using hi, by simpa [Machine.block] using hi, ?_, ?_⟩
  · intro j hj
    simpa [Machine.block] using hsame j hj
  · simpa [Machine.block] using hlt

/-- The first bytes that differ decide. -/
theorem orders_of_first_difference (hi : i < count)
    (hsame : ∀ j, j < i → s.virtMem (s1 + BitVec.ofNat 64 j) = s.virtMem (s2 + BitVec.ofNat 64 j))
    (hne : s.virtMem (s1 + BitVec.ofNat 64 i) ≠ s.virtMem (s2 + BitVec.ofNat 64 i)) :
    Orders ((s.virtMem (s1 + BitVec.ofNat 64 i)).toNat - (s.virtMem (s2 + BitVec.ofNat 64 i)).toNat)
      (s.block s1 count) (s.block s2 count) := by
  rcases BitVec.lt_trichotomy (s.virtMem (s1 + BitVec.ofNat 64 i)) (s.virtMem (s2 + BitVec.ofNat 64 i))
    with hlt | heq | hgt
  · have hblocks := block_lt_block hi hsame hlt
    have hbytes := BitVec.lt_def.mp hlt
    refine ⟨iff_of_true (by omega) hblocks, iff_of_false (by omega) fun heq => ?_,
      iff_of_false (by omega) (List.lt_asymm hblocks)⟩
    rw [heq] at hblocks
    exact List.lt_irrefl _ hblocks
  · exact absurd heq hne
  · have hblocks := block_lt_block hi (fun j hj => (hsame j hj).symm) hgt
    have hbytes := BitVec.lt_def.mp hgt
    refine ⟨iff_of_false (by omega) (List.lt_asymm hblocks), iff_of_false (by omega) fun heq => ?_,
      iff_of_true (by omega) hblocks⟩
    rw [heq] at hblocks
    exact List.lt_irrefl _ hblocks

theorem orders_of_same
    (hsame : ∀ j, j < count →
      s.virtMem (s1 + BitVec.ofNat 64 j) = s.virtMem (s2 + BitVec.ofNat 64 j)) :
    Orders 0 (s.block s1 count) (s.block s2 count) := by
  have hblocks : s.block s1 count = s.block s2 count :=
    List.map_congr_left fun j hj => hsame j (List.mem_range.mp hj)
  rw [hblocks]
  exact ⟨iff_of_false (by omega) (List.lt_irrefl _), iff_of_true rfl rfl,
    iff_of_false (by omega) (List.lt_irrefl _)⟩

/-- A load from one of the blocks, no further than the first difference. -/
def Cmd.Compares (s : Machine) (s1 s2 : VirtAddr) (count : Nat) (c : Cmd) : Prop :=
  ∃ i, i < count
    ∧ (∀ j, j < i → s.virtMem (s1 + BitVec.ofNat 64 j) = s.virtMem (s2 + BitVec.ofNat 64 j))
    ∧ (c = .load8 (s1 + BitVec.ofNat 64 i) ∨ c = .load8 (s2 + BitVec.ofNat 64 i))

theorem wp_memcmp (s : Machine) (s1 s2 : VirtAddr) (count : BitVec 64) :
    Prog.Wp exec (fun mid c => mid = s ∧ c.Compares s s1 s2 count.toNat) (memcmp s1 s2 count) s
      fun result t => t = s ∧ Orders result (s.block s1 count.toNat) (s.block s2 count.toNat) := by
  rw [memcmp]
  refine Prog.Wp.bind (fun out t => t = s ∧ Orders (out.elim (fun _ => 0) id)
    (s.block s1 count.toNat) (s.block s2 count.toNat))
    (Prog.wp_forUntil (fun i _ t => t = s ∧ ∀ j, j < i →
      s.virtMem (s1 + BitVec.ofNat 64 j) = s.virtMem (s2 + BitVec.ofNat 64 j)) ?_ ?_ ?_) ?_
  · exact ⟨rfl, fun j hj => absurd hj (Nat.not_lt_zero j)⟩
  · rintro i ⟨⟩ t - hi ⟨rfl, hsame⟩
    rw [Nat.zero_add] at hi
    have hload1 : Cmd.Compares t s1 s2 count.toNat (.load8 (s1 + BitVec.ofNat 64 i)) :=
      ⟨i, hi, hsame, Or.inl rfl⟩
    have hload2 : Cmd.Compares t s1 s2 count.toNat (.load8 (s2 + BitVec.ofNat 64 i)) :=
      ⟨i, hi, hsame, Or.inr rfl⟩
    rw [Prog.wp_bind, wp_load8, Prog.wp_bind, wp_load8]
    refine ⟨⟨rfl, hload1⟩, ⟨rfl, hload2⟩, ?_⟩
    split
    · next hne =>
        rw [Prog.wp_bind, wp_load8, Prog.wp_bind, wp_load8]
        exact ⟨⟨rfl, hload1⟩, ⟨rfl, hload2⟩, rfl, orders_of_first_difference hi hsame hne⟩
    · next heq =>
        refine ⟨rfl, fun j hj => ?_⟩
        obtain hj | rfl := Nat.lt_succ_iff_lt_or_eq.mp hj
        · exact hsame j hj
        · exact not_not.mp heq
  · rintro ⟨⟩ t ⟨rfl, hsame⟩
    rw [Nat.zero_add] at hsame
    exact ⟨rfl, orders_of_same hsame⟩
  · rintro (⟨⟩ | result) t ⟨rfl, horders⟩
    · exact ⟨rfl, horders⟩
    · exact ⟨rfl, horders⟩

end Compare

/-- **memcmp is the lexicographic order.** It leaves memory alone, the sign of its result orders the
two blocks, and it reads nothing behind the first bytes that differ. -/
theorem memcmp_orders (s : Machine) (s1 s2 : VirtAddr) (count : BitVec 64) :
    (∃ result, (memcmp s1 s2 count).run s = some (result, s)
        ∧ Orders result (s.block s1 count.toNat) (s.block s2 count.toNat))
      ∧ ∀ mid c, Prog.Visits exec (memcmp s1 s2 count) s mid c →
          mid = s ∧ c.Compares s s1 s2 count.toNat := by
  have hwp := wp_memcmp s s1 s2 count
  have hpanic : ∀ (mid : Machine) (c : Cmd), mid = s ∧ c.Compares s s1 s2 count.toNat →
      ∀ string, c ≠ .kpanic string := by
    rintro mid c ⟨-, i, -, -, rfl | rfl⟩ string hc <;> cases hc
  obtain ⟨result, t, hrun, rfl, horders⟩ :=
    Kernel.returns (hwp.imp hpanic fun _ _ h => h)
  exact ⟨⟨result, hrun, horders⟩, fun mid c hvisit => hwp.of_visits hvisit⟩

end RainstormOs
