import Frostix.Kernel

/-!
What the heap, the page allocator and the paging code look like to the parts of the
memory manager built on them, and what those parts may rely on: the allocator never
hands out a struct that is in use, and everything else may come back with any result. -/
namespace Frostix

/-- The functions of the lower layers; `none` is a page fault. -/
structure MmOps (σ : Type) where
  kmalloc : σ → Nat → Option (Nat × σ)
  kfree : σ → Nat → σ
  pmmAllocPage : σ → Nat × σ
  pmmFreePage : σ → Nat → σ
  vmmMapPage : σ → Nat → Nat → Nat → Option (KernelStatus × σ)
  vmmUnmapPage : σ → Nat → Option (KernelStatus × σ)
  vmmGetPhysicalAddr : σ → Nat → Option Nat

variable {σ : Type}

/-- `kfree` of one of the structs leaves the others allocated. -/
def Frees (ops : MmOps σ) (I : Set Nat → σ → Prop) : Prop :=
  ∀ A s p, I A s → p ∈ A → I (A \ {p}) (ops.kfree s p)

/-- The contract of `kmalloc` and `kfree`: `I A s` says that the allocator state `s` knows
that the structs at the addresses `A` are allocated, and whatever else it keeps. -/
structure Allocator (ops : MmOps σ) (I : Set Nat → σ → Prop) : Prop where
  kmalloc : ∀ {A s} (n : Nat), I A s → ∃ p s', ops.kmalloc s n = some (p, s') ∧
    ((p = 0 ∧ I A s') ∨ (p ≠ 0 ∧ p < 2 ^ 32 ∧ p ∉ A ∧ I (insert p A) s'))
  kfree : Frees ops I

/-- `vmm_unmap_page` comes back and keeps `I` on the pages of `P`. -/
def Unmaps (ops : MmOps σ) (I : Set Nat → σ → Prop) (P : Nat → Prop) : Prop :=
  ∀ va, P va → ∀ A s, I A s → ∃ st s', ops.vmmUnmapPage s va = some (st, s') ∧ I A s'

/-- The functions come back with any result; only the allocator has a contract. -/
structure AnyOutcome (ops : MmOps σ) (I : Set Nat → σ → Prop) : Prop extends Allocator ops I where
  pmmAllocPage : ∀ A s, I A s → I A (ops.pmmAllocPage s).2
  pmmFreePage : ∀ A s phys, I A s → I A (ops.pmmFreePage s phys)
  vmmMapPage : ∀ A s virt phys flags, I A s →
    ∃ st s', ops.vmmMapPage s virt phys flags = some (st, s') ∧ I A s'
  vmmUnmapPage : Unmaps ops I fun _ => True
  vmmGetPhysicalAddr : ∀ A s virt, I A s → ∃ phys, ops.vmmGetPhysicalAddr s virt = some phys

/-- Structs are handed out one after the other and every page function succeeds. -/
def bumpOps : MmOps Nat where
  kmalloc := fun s _ => if s < 2 ^ 32 then some (s, s + 32) else some (0, s)
  kfree := fun s _ => s
  pmmAllocPage := fun s => (0x400000, s)
  pmmFreePage := fun s _ => s
  vmmMapPage := fun s _ _ _ => some (.ok, s)
  vmmUnmapPage := fun s _ => some (.ok, s)
  vmmGetPhysicalAddr := fun _ _ => some 0x400000

theorem bumpOps_anyOutcome : AnyOutcome bumpOps fun A s => 0 < s ∧ ∀ a ∈ A, a < s where
  kmalloc := by
    rintro A s n ⟨hpos, hA⟩
    by_cases hlt : s < 2 ^ 32
    · refine ⟨s, s + 32, if_pos hlt, Or.inr ⟨hpos.ne', hlt, fun hmem => lt_irrefl s (hA s hmem), by omega, ?_⟩⟩
      intro a ha
      rcases ha with rfl | ha
      · omega
      · exact lt_trans (hA a ha) (by omega)
    · exact ⟨0, s, if_neg hlt, Or.inl ⟨rfl, hpos, hA⟩⟩
  kfree := fun A s p ⟨hpos, hA⟩ _ => ⟨hpos, fun a ha => hA a ha.1⟩
  pmmAllocPage := fun _ _ hs => hs
  pmmFreePage := fun _ _ _ hs => hs
  vmmMapPage := fun _ s _ _ _ hs => ⟨.ok, s, rfl, hs⟩
  vmmUnmapPage := fun _ _ _ s hs => ⟨.ok, s, rfl, hs⟩
  vmmGetPhysicalAddr := fun _ _ _ _ => ⟨0x400000, rfl⟩

end Frostix
