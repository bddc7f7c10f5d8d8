import Mathlib

/-!
Sequences of stores in a memory of cells. A step that stores known values paints the
cells that it covers, and steps that paint from one picture can run in any order. A
sequence of copies from cell to cell is compared with the simultaneous copy. -/
namespace CellStores

variable {α β ι : Type*}

/-- `f` stores the values of `g` in the cells of `S`, and nothing elsewhere. -/
structure Paints (f : (α → β) → α → β) (S : Set α) (g : α → β) : Prop where
  inside : ∀ m, ∀ a ∈ S, f m a = g a
  outside : ∀ m, ∀ a ∉ S, f m a = m a

theorem Paints.nothing (g : α → β) : Paints (fun m => m) ∅ g :=
  ⟨fun _ _ ha => absurd ha (Set.notMem_empty _), fun _ _ _ => rfl⟩

theorem Paints.comp {f f' : (α → β) → α → β} {S T : Set α} {g : α → β} (h : Paints f S g)
    (h' : Paints f' T g) : Paints (fun m => f' (f m)) (S ∪ T) g := by
  constructor
  · intro m a ha
    by_cases hT : a ∈ T
    · exact h'.inside _ a hT
    · rw [h'.outside _ a hT]
      exact h.inside m a (ha.resolve_right hT)
  · intro m a ha
    rw [Set.mem_union, not_or] at ha
    rw [h'.outside _ a ha.2, h.outside m a ha.1]

/-- A loop of steps that paint from `g` paints all their cells. -/
theorem Paints.foldl {f : (α → β) → ι → α → β} {S : ι → Set α} {g : α → β} (ps : List ι)
    (h : ∀ p ∈ ps, Paints (fun m => f m p) (S p) g) :
    Paints (fun m => ps.foldl f m) {a | ∃ p ∈ ps, a ∈ S p} g := by
  induction ps with
  | nil =>
      have hempty : {a | ∃ p ∈ ([] : List ι), a ∈ S p} = ∅ := by
        ext a
        simp
      rw [hempty]
      exact .nothing g
  | cons p ps ih =>
      have hsplit : {a | ∃ q ∈ p :: ps, a ∈ S q} = S p ∪ {a | ∃ q ∈ ps, a ∈ S q} := by
        ext a
        simp
      rw [hsplit]
      exact (h p List.mem_cons_self).comp (ih fun q hq => h q (List.mem_cons_of_mem p hq))

theorem Paints.unique {f f' : (α → β) → α → β} {S : Set α} {g : α → β} (h : Paints f S g)
    (h' : Paints f' S g) (m : α → β) : f m = f' m := by
  funext a
  by_cases ha : a ∈ S
  · rw [h.inside m a ha, h'.inside m a ha]
  · rw [h.outside m a ha, h'.outside m a ha]

/-- `m'` is `m` after all copies at once. -/
structure Simultaneous (m m' : α → β) (ps : List (α × α)) : Prop where
  copied : ∀ p ∈ ps, m' p.1 = m p.2
  kept : ∀ a ∉ ps.map Prod.fst, m' a = m a

theorem Simultaneous.perm {m m' : α → β} {ps qs : List (α × α)} (h : Simultaneous m m' ps) (hperm : ps.Perm qs) :
    Simultaneous m m' qs where
  copied p hp := h.copied p (hperm.mem_iff.mpr hp)
  kept a ha := h.kept a fun hmem => ha ((hperm.map Prod.fst).mem_iff.mp hmem)

variable [DecidableEq α]

/-- One copy after the other, from the second cell of a pair to the first. -/
def copyCells (m : α → β) (ps : List (α × α)) : α → β :=
  ps.foldl (fun m p => Function.update m p.1 (m p.2)) m

theorem copyCells_concat (m : α → β) (ps : List (α × α)) (p : α × α) :
    copyCells m (ps ++ [p]) = Function.update (copyCells m ps) p.1 (copyCells m ps p.2) := by
  rw [copyCells, List.foldl_append]
  rfl

theorem copyCells_kept (m : α → β) (ps : List (α × α)) {a : α} (ha : a ∉ ps.map Prod.fst) :
    copyCells m ps a = m a := by
  induction ps using List.reverseRecOn with
  | nil => rfl
  | append_singleton ps p ih =>
      rw [List.map_append, List.mem_append, not_or] at ha
      have hne : a ≠ p.1 := by simpa using ha.2
      rw [copyCells_concat, Function.update_of_ne hne, ih ha.1]

theorem copyCells_flatMap (m : α → β) (l : List ι) (f : ι → List (α × α)) :
    copyCells m (l.flatMap f) = l.foldl (fun m i => copyCells m (f i)) m := List.foldl_flatMap

theorem simultaneous_concat_iff {m : α → β} {ps : List (α × α)} {p : α × α}
    (hp : p.1 ∉ ps.map Prod.fst) :
    Simultaneous m (copyCells m (ps ++ [p])) (ps ++ [p]) ↔
      Simultaneous m (copyCells m ps) ps ∧ copyCells m ps p.2 = m p.2 := by
  have hbefore : ∀ q ∈ ps, q.1 ≠ p.1 := by
    rintro q hq heq
    exact hp (heq ▸ List.mem_map_of_mem hq)
  constructor
  · intro h
    refine ⟨⟨fun q hq => ?_, fun a ha => copyCells_kept m ps ha⟩, ?_⟩
    · have hcopied := h.copied q (List.mem_append_left _ hq)
      rwa [copyCells_concat, Function.update_of_ne (hbefore q hq)] at hcopied
    · have hcopied := h.copied p (by simp)
      rwa [copyCells_concat, Function.update_self] at hcopied
  · rintro ⟨h, hread⟩
    refine ⟨fun q hq => ?_, fun a ha => copyCells_kept m _ ha⟩
    rw [copyCells_concat]
    rcases List.mem_append.mp hq with hq | hq
    · rw [Function.update_of_ne (hbefore q hq)]
      exact h.copied q hq
    · obtain rfl := List.mem_singleton.mp hq
      rw [Function.update_self, hread]

/-- Copies one after the other are the simultaneous copy exactly if no cell is read after a
copy has put another value there. -/
theorem copyCells_simultaneous_iff (m : α → β) {ps : List (α × α)} (hnodup : (ps.map Prod.fst).Nodup) :
    Simultaneous m (copyCells m ps) ps ↔ ps.Pairwise fun p q => p.1 = q.2 → m p.2 = m q.2 := by
  induction ps using List.reverseRecOn with
  | nil => exact ⟨fun _ => .nil, fun _ => ⟨fun p hp => absurd hp List.not_mem_nil, fun _ _ => rfl⟩⟩
  | append_singleton ps p ih =>
      rw [List.map_append, List.map_cons, List.map_nil, List.nodup_append] at hnodup
      obtain ⟨hps, -, hcross⟩ := hnodup
      have hp : p.1 ∉ ps.map Prod.fst := fun hmem => hcross _ hmem _ (List.mem_singleton_self _) rfl
      rw [simultaneous_concat_iff hp, ih hps, List.pairwise_append]
      refine and_congr_right fun hpairs => ?_
      have hsim := (ih hps).mpr hpairs
      -- the cell is read as some earlier copy left it, or as it was
      constructor
      · intro hread
        refine ⟨List.pairwise_singleton _ _, fun q hq r hr heq => ?_⟩
        obtain rfl := List.mem_singleton.mp hr
        rw [← hsim.copied q hq, heq, hread]
      · rintro ⟨-, hfresh⟩
        by_cases hmem : p.2 ∈ ps.map Prod.fst
        · obtain ⟨q, hq, heq⟩ := List.mem_map.mp hmem
          rw [← heq, hsim.copied q hq, heq]
          exact hfresh q hq p (List.mem_singleton_self _) heq
        · exact hsim.kept _ hmem

theorem Simultaneous.unique {m m₁ m₂ : α → β} {ps : List (α × α)} (h₁ : Simultaneous m m₁ ps)
    (h₂ : Simultaneous m m₂ ps) : m₁ = m₂ := by
  funext a
  by_cases ha : a ∈ ps.map Prod.fst
  · obtain ⟨p, hp, rfl⟩ := List.mem_map.mp ha
    rw [h₁.copied p hp, h₂.copied p hp]
  · rw [h₁.kept a ha, h₂.kept a ha]

end CellStores
