import RainstormOs.Mmu
import Mathlib.Data.Set.Basic

/-!
# The translation lookaside buffer

The processor may keep the result of any walk of the active space and use it later without looking
at the tables again. It may also forget one at any time. Only two instructions of the kernel are sure
to make it forget: `invlpg` the translations of one page, global or not, and a load of `cr3` all that
are not global. There are no process-context identifiers.
-/

namespace RainstormOs

structure TlbEntry where
  page : BitVec 36
  found : Translation

abbrev Tlb := Set TlbEntry

/-- The entry is the result of a walk the processor can make now. -/
def Machine.Caches (s : Machine) (entry : TlbEntry) : Prop :=
  ∃ vaddr, IsCanonical vaddr ∧ vaddr.extractLsb' 12 36 = entry.page
    ∧ s.hwWalk s.cr3 vaddr = some entry.found

/-- Between two instructions entries come and go; those that come are walks of the moment. -/
def Tlb.Refills (s : Machine) (tlb tlb' : Tlb) : Prop :=
  ∀ entry ∈ tlb', entry ∈ tlb ∨ s.Caches entry

/-- What an instruction removes. -/
def Tlb.notice : Cmd → Tlb → Tlb
  | .invlpg addr, tlb => {entry | entry ∈ tlb ∧ entry.page ≠ addr.extractLsb' 12 36}
  | .writeCr3 _, tlb => {entry | entry ∈ tlb ∧ entry.found.global = true}
  | _, tlb => tlb

/-- Whatever is cached is what a walk would find. -/
def Tlb.Coherent (s : Machine) (tlb : Tlb) : Prop :=
  ∀ vaddr, IsCanonical vaddr → ∀ found, ⟨vaddr.extractLsb' 12 36, found⟩ ∈ tlb →
    s.hwWalk s.cr3 vaddr = some found

end RainstormOs
