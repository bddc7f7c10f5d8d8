import Frostix.Vma.Munmap

/-!
`split_vma_at` changes how the areas are cut, and nothing that an address can see of them:
the covering area has the same flags, and the page offset of the address is the same. Two
cuts of one area can be made in either order. -/
namespace Frostix.Vma
open Machine32 LinkedStore

variable {σ : Type}

def Region.Inside (r : Region) (addr : Nat) : Prop := r.start < addr ∧ addr < r.stop

section Cuts

variable {r : Region} {addr a b : Nat}

theorem Region.covers_parts (hr : r.start % 4096 = 0) (halign : addr % 4096 = 0) (hin : r.Inside addr)
    (x flags off : Nat) :
    (r.lower addr).Covers x flags off ∨ (r.upper addr).Covers x flags off ↔ r.Covers x flags off := by
  rw [Region.covers_lower hin.2.le, Region.covers_upper hr halign hin.1.le, ← and_or_left]
  exact and_iff_left (lt_or_ge x addr)

theorem Region.cut_upper (hr : r.start % 4096 = 0) (ha : a % 4096 = 0) (hb : b % 4096 = 0) (hlo : r.start < a)
    (hab : a < b) : (r.upper a).upper b = r.upper b := by
  have hpages : (b - r.start) / 4096 = (a - r.start) / 4096 + (b - a) / 4096 := by omega
  simp only [Region.upper, wrap, hpages, Nat.mod_add_mod, Nat.add_assoc]

theorem Region.cut_lower (r : Region) (a b : Nat) : (r.lower b).lower a = r.lower a := rfl

theorem Region.cut_middle (r : Region) (a b : Nat) : (r.lower b).upper a = (r.upper a).lower b := rfl

end Cuts

section Split

variable {ops : MmOps σ} {I : Set Nat → σ → Prop} {mm mm' : Mm σ} {xs ys : List (Nat × Region)} {v addr : Nat}
  {r : Region}

def regions (cs : List (Nat × Region)) : List Region := cs.map Prod.snd

/-- How `split_vma_at` can end. -/
inductive SplitOutcome (ops : MmOps σ) (mm : Mm σ) (xs : List (Nat × Region)) (v : Nat) (r : Region)
    (ys : List (Nat × Region)) (addr : Nat) : Nat → Mm σ → Prop
  | outside : ¬ r.Inside addr → SplitOutcome ops mm xs v r ys addr 0 mm
  | noMemory (env : σ) : r.Inside addr → ops.kmalloc mm.env sizeofArea = some (0, env) →
      SplitOutcome ops mm xs v r ys addr 0 { mm with env }
  | done (u : Nat) (env : σ) (mm' : Mm σ) : r.Inside addr → ops.kmalloc mm.env sizeofArea = some (u, env) →
      u ≠ 0 → Listed mm' (xs ++ (v, r.lower addr) :: (u, r.upper addr) :: ys) →
      SplitOutcome ops mm xs v r ys addr u mm'

theorem Listed.area (hl : Listed mm (xs ++ (v, r) :: ys)) : mm.areas v = some (r.area (headPtr ys 0)) :=
  (Seg.append.mp hl.seg).2.2.1

theorem splitVmaAt_outside (hl : Listed mm (xs ++ (v, r) :: ys)) (hout : ¬ r.Inside addr) :
    splitVmaAt ops mm v addr = some (0, mm) := by
  rw [splitVmaAt, hl.area]
  exact if_pos (by
    by_contra h
    exact hout ⟨not_le.mp fun hle => h (Or.inl hle), not_le.mp fun hle => h (Or.inr hle)⟩)

theorem splitVmaAt_noMemory (hl : Listed mm (xs ++ (v, r) :: ys)) (hin : r.Inside addr) {env : σ}
    (hmem : ops.kmalloc mm.env sizeofArea = some (0, env)) :
    splitVmaAt ops mm v addr = some (0, { mm with env }) := by
  have halloc : vmAreaAlloc ops mm = some (0, { mm with env }) := by
    rw [vmAreaAlloc, hmem]
    rfl
  rw [splitVmaAt, hl.area]
  simp only [Option.bind_eq_bind, Option.bind_some, Region.area]
  rw [if_neg (not_or.mpr ⟨not_le.mpr hin.1, not_le.mpr hin.2⟩), halloc]
  rfl

theorem Listed.splitVmaAt_spec (hops : AllocatesArea ops I I) (hl : Listed mm (xs ++ (v, r) :: ys))
    (hown : Owns I mm)
    (halign : addr % 4096 = 0) :
    ∃ u mm', splitVmaAt ops mm v addr = some (u, mm') ∧ Owns I mm' ∧
      SplitOutcome ops mm xs v r ys addr u mm' := by
  by_cases hin : r.Inside addr
  · obtain ⟨u, mm', hrun, hmem, -, hown', ⟨rfl, -⟩ | ⟨hu, hl'⟩⟩ :=
      hown.split hops (listed_iff.mp hl) hin.1 hin.2 halign
    · have hsame := splitVmaAt_noMemory hl hin hmem
      have heq := (Prod.mk.inj (Option.some.inj (hrun.symm.trans hsame))).2
      rw [heq] at hown'
      exact ⟨0, _, hsame, hown', .noMemory _ hin hmem⟩
    · exact ⟨u, mm', hrun, hown', .done u _ mm' hin hmem hu (listed_iff.mpr hl')⟩
  · exact ⟨0, mm, splitVmaAt_outside hl hin, hown, .outside hin⟩

/-- What `split_vma_at` promises: without a split nothing changes, and with one the list is
proper, has one area more and says the same about every address. -/
structure SplitsProperly (ops : MmOps σ) (mm : Mm σ) (cs : List (Nat × Region)) (r : Region) (addr u : Nat)
    (mm' : Mm σ) : Prop where
  outside : ¬ r.Inside addr → u = 0 ∧ mm' = mm
  noMemory : ∀ env, r.Inside addr → ops.kmalloc mm.env sizeofArea = some (0, env) →
    u = 0 ∧ mm' = { mm with env }
  done : ∀ p env, r.Inside addr → ops.kmalloc mm.env sizeofArea = some (p, env) → p ≠ 0 →
    u = p ∧ ∃ cs', Listed mm' cs' ∧ mm'.mapCount = mm.mapCount + 1 ∧
      ∀ x flags off, Covers cs' x flags off ↔ Covers cs x flags off

theorem SplitOutcome.properly {u : Nat} (hl : Listed mm (xs ++ (v, r) :: ys)) (halign : addr % 4096 = 0)
    (h : SplitOutcome ops mm xs v r ys addr u mm') : SplitsProperly ops mm
      (xs ++ (v, r) :: ys) r addr u mm' := by
  cases h with
  | outside hout => exact ⟨fun _ => ⟨rfl, rfl⟩, fun _ hin => absurd hin hout, fun _ _ hin => absurd hin hout⟩
  | noMemory env hin hmem =>
      refine ⟨fun hout => absurd hin hout, fun env' _ hmem' => ?_, fun p env' _ hmem' hp => ?_⟩
      · cases hmem.symm.trans hmem'
        exact ⟨rfl, rfl⟩
      · cases hmem.symm.trans hmem'
        exact absurd rfl hp
  | done u env mm' hin hmem hu hl' =>
      refine ⟨fun hout => absurd hin hout, fun env' _ hmem' => ?_, fun p env' _ hmem' _ => ?_⟩
      · cases hmem.symm.trans hmem'
        exact absurd rfl hu
      · cases hmem.symm.trans hmem'
        refine ⟨rfl, _, hl', ?_, fun x flags off => ?_⟩
        · rw [hl'.count, hl.count]
          simp only [List.length_append, List.length_cons]
          omega
        · have hr := (hl.ordered.valid (v, r) (by simp)).1
          have hparts := Region.covers_parts hr halign hin x flags off
          rw [Covers.append, Covers.append, Covers.cons, Covers.cons, Covers.cons]
          exact or_congr_right ((or_assoc).symm.trans (or_congr_left hparts))

/-- The area at `v` is split at `addr`; the upper part is at `u`. -/
def Splits (ops : MmOps σ) (mm : Mm σ) (v addr u : Nat) (mm' : Mm σ) : Prop :=
  splitVmaAt ops mm v addr = some (u, mm') ∧ u ≠ 0

/-- Both address spaces have the same ranges with the same flags and page offsets. -/
def SameRegions (mm mm' : Mm σ) : Prop :=
  ∃ cs ds, Listed mm cs ∧ Listed mm' ds ∧ regions cs = regions ds

theorem Splits.listed {u : Nat} (h : Splits ops mm v addr u mm') (hops : AllocatesArea ops I I)
    (hl : Listed mm (xs ++ (v, r) :: ys)) (hown : Owns I mm) (halign : addr % 4096 = 0) :
    r.Inside addr ∧ Owns I mm' ∧ Listed mm' (xs ++ (v, r.lower addr) :: (u, r.upper addr) :: ys) := by
  obtain ⟨u', mm'', hrun, hown', hout⟩ := hl.splitVmaAt_spec hops hown halign
  cases hrun.symm.trans h.1
  cases hout with
  | outside => exact absurd rfl h.2
  | noMemory => exact absurd rfl h.2
  | done _ _ _ hin _ _ hl' => exact ⟨hin, hown', hl'⟩

/-- A split at `a` and then of the upper part at `b` makes the same list as a split at `b` and
then of the lower part at `a`. -/
theorem splits_commute (hops : AllocatesArea ops I I) (hl : Listed mm (xs ++ (v, r) :: ys)) (hown : Owns I mm)
    {a b u₁ u₂ w₁ w₂ : Nat} {m₁ m₂ n₁ n₂ : Mm σ} (ha : a % 4096 = 0) (hb : b % 4096 = 0) (hab : a < b)
    (h₁ : Splits ops mm v a u₁ m₁) (h₂ : Splits ops m₁ u₁ b u₂ m₂)
    (k₁ : Splits ops mm v b w₁ n₁) (k₂ : Splits ops n₁ v a w₂ n₂) : SameRegions m₂ n₂ := by
  obtain ⟨⟨hlo, -⟩, hown₁, hl₁⟩ := h₁.listed hops hl hown ha
  have hl₁' : Listed m₁ ((xs ++ [(v, r.lower a)]) ++ (u₁, r.upper a) :: ys) := by simpa using hl₁
  obtain ⟨-, -, hl₂⟩ := h₂.listed hops hl₁' hown₁ hb
  obtain ⟨-, hownk, hk₁⟩ := k₁.listed hops hl hown hb
  obtain ⟨-, -, hk₂⟩ := k₂.listed hops hk₁ hownk ha
  have hr := (hl.ordered.valid (v, r) (by simp)).1
  refine ⟨_, _, hl₂, hk₂, ?_⟩
  simp [regions, Region.cut_upper hr ha hb hlo hab, Region.cut_lower, Region.cut_middle]

/-- `split_vma_at` on every list, at every area and every page-aligned address; and two splits
of one area in either order. -/
theorem split_vma_at_preserves (hops : Allocator ops I) {cs : List (Nat × Region)} (hl : Listed mm cs)
    (hown : Owns I mm) (hv : (v, r) ∈ cs) :
    (∀ addr, addr % 4096 = 0 → ∃ u mm', splitVmaAt ops mm v addr = some (u, mm') ∧
        SplitsProperly ops mm cs r addr u mm') ∧
      ∀ a b u₁ m₁ u₂ m₂ w₁ n₁ w₂ n₂, a % 4096 = 0 → b % 4096 = 0 → a < b →
        Splits ops mm v a u₁ m₁ → Splits ops m₁ u₁ b u₂ m₂ → Splits ops mm v b w₁ n₁ → Splits ops n₁ v a w₂ n₂ →
          SameRegions m₂ n₂ := by
  obtain ⟨xs, ys, rfl⟩ := List.append_of_mem hv
  constructor
  · intro addr halign
    obtain ⟨u, mm', hrun, -, hout⟩ := hl.splitVmaAt_spec (allocatesArea hops) hown halign
    exact ⟨u, mm', hrun, hout.properly hl halign⟩
  · intro a b u₁ m₁ u₂ m₂ w₁ n₁ w₂ n₂ ha hb hab h₁ h₂ k₁ k₂
    exact splits_commute (allocatesArea hops) hl hown ha hb hab h₁ h₂ k₁ k₂

end Split

def fourPages : Mm Nat :=
  ⟨8, Function.update (fun _ => none) 16 (some ⟨0x20000000, 0x20004000, 0x20000, 19, 0⟩), 16, 1, 64⟩

theorem fourPages_listed : Listed fourPages [(16, ⟨0x20000000, 0x20004000, 0x20000, 19⟩)] := by
  refine ⟨rfl, ⟨by decide, rfl, trivial⟩, ⟨?_, List.pairwise_singleton _ _⟩, rfl⟩
  intro c hc
  rw [List.mem_singleton] at hc
  subst hc
  exact ⟨rfl, rfl, by decide, by decide⟩

theorem fourPages_owns : Owns (fun A s => 0 < s ∧ ∀ a ∈ A, a < s) fourPages := by
  refine ⟨rfl, by decide, ?_⟩
  rintro a (rfl | ha)
  · decide
  · by_cases h16 : a = 16
    · rw [h16]
      decide
    · have hnone : fourPages.areas a = none := by
        dsimp only [fourPages]
        rw [Function.update_of_ne h16]
      exact absurd hnone ha

theorem fourPages_splits :
    ∃ m₁ m₂ n₁ n₂, Splits bumpOps fourPages 16 0x20001000 64 m₁ ∧ Splits bumpOps m₁ 64 0x20003000 96 m₂ ∧
      Splits bumpOps fourPages 16 0x20003000 64 n₁ ∧ Splits bumpOps n₁ 16 0x20001000 96 n₂ :=
  ⟨_, _, _, _, ⟨rfl, by decide⟩, ⟨rfl, by decide⟩, ⟨rfl, by decide⟩, ⟨rfl, by decide⟩⟩

theorem split_vma_at_preserves_four :
    (∃ u mm', splitVmaAt bumpOps fourPages 16 0x20001000 = some (u, mm') ∧
        SplitsProperly bumpOps fourPages [(16, ⟨0x20000000, 0x20004000, 0x20000, 19⟩)]
          ⟨0x20000000, 0x20004000, 0x20000, 19⟩ 0x20001000 u mm') ∧
      ∃ m₁ m₂ n₁ n₂, Splits bumpOps fourPages 16 0x20001000 64 m₁ ∧ Splits bumpOps m₁ 64 0x20003000 96 m₂ ∧
        Splits bumpOps fourPages 16 0x20003000 64 n₁ ∧ Splits bumpOps n₁ 16 0x20001000 96 n₂ ∧
        SameRegions m₂ n₂ := by
  obtain ⟨hone, htwo⟩ := split_vma_at_preserves bumpOps_anyOutcome.toAllocator fourPages_listed fourPages_owns
    List.mem_cons_self
  obtain ⟨m₁, m₂, n₁, n₂, h₁, h₂, k₁, k₂⟩ := fourPages_splits
  exact ⟨hone _ rfl, m₁, m₂, n₁, n₂, h₁, h₂, k₁, k₂,
    htwo _ _ _ _ _ _ _ _ _ _ rfl rfl (by decide) h₁ h₂ k₁ k₂⟩

end Frostix.Vma
