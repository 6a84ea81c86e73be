import RainstormOs.Proof.Memory
import RainstormOs.Proof.Vsnprintf

/-!
# Printing into memory

`ksnprintf` cuts the text off where the buffer ends and puts a zero behind what is left, and the
number it returns is the length of the whole text. It stores nowhere else, a buffer of no bytes
included, for which it computes the index of the last one all the same.
-/

namespace RainstormOs.Printf

section Buffer

variable {buffer : VirtAddr} {count : BitVec 64} {s : Machine}

theorem hhdmVirtToPhys_add (globals : Globals) (idx : BitVec 64) :
    globals.hhdmVirtToPhys (buffer + idx) = globals.hhdmVirtToPhys buffer + idx := by
  rw [Globals.hhdmVirtToPhys, Globals.hhdmVirtToPhys, BitVec.sub_eq_add_neg, BitVec.sub_eq_add_neg,
    BitVec.add_assoc, BitVec.add_comm idx, ← BitVec.add_assoc]

end Buffer

end RainstormOs.Printf
