import Mathlib

/-!
Counting loops. A `for` loop over `0 .. n` is a fold over `List.range n`; a loop
that can return early is the same fold in `Except`, with the returned value as
the error. The rules below are the loop rules of both forms. -/
namespace Loop

variable {σ ε α : Type*}

theorem foldl_range {f : σ → Nat → σ} {n : Nat} {s : σ} (Inv : Nat → σ → Prop)
    (base : Inv 0 s) (step : ∀ i < n, ∀ t, Inv i t → Inv (i + 1) (f t i)) :
    Inv n ((List.range n).foldl f s) := by
  induction n with
  | zero => exact base
  | succ n ih =>
      rw [List.range_succ, List.foldl_append]
      exact step n (Nat.lt_succ_self n) _
        (ih fun i hi => step i (Nat.lt_succ_of_lt hi))

/-- What a loop with early exit guarantees: `Inv n` at its end, `Post` on return. -/
def Ends (Inv : σ → Prop) (Post : ε → Prop) : Except ε σ → Prop
  | .ok s => Inv s
  | .error e => Post e

theorem foldlM_range {f : σ → Nat → Except ε σ} {n : Nat} {s : σ} (Inv : Nat → σ → Prop)
    (Post : ε → Prop) (base : Inv 0 s)
    (step : ∀ i < n, ∀ t, Inv i t → Ends (Inv (i + 1)) Post (f t i)) :
    Ends (Inv n) Post ((List.range n).foldlM f s) := by
  induction n with
  | zero => exact base
  | succ n ih =>
      have hprev := ih fun i hi => step i (Nat.lt_succ_of_lt hi)
      rw [List.range_succ, List.foldlM_append]
      cases hrun : (List.range n).foldlM f s with
      | error e =>
          rw [hrun] at hprev
          exact hprev
      | ok t =>
          rw [hrun] at hprev
          have hlast := step n (Nat.lt_succ_self n) t hprev
          simp only [List.foldlM_cons, List.foldlM_nil, bind_pure]
          exact hlast

theorem foldlM_range_some {f : σ → Nat → Option σ} {n : Nat} {s : σ} (Inv : Nat → σ → Prop)
    (base : Inv 0 s) (step : ∀ i < n, ∀ t, Inv i t → ∃ t', f t i = some t' ∧ Inv (i + 1) t') :
    ∃ t, (List.range n).foldlM f s = some t ∧ Inv n t := by
  induction n with
  | zero => exact ⟨s, rfl, base⟩
  | succ n ih =>
      obtain ⟨t, hrun, ht⟩ := ih fun i hi => step i (Nat.lt_succ_of_lt hi)
      obtain ⟨t', hlast, ht'⟩ := step n (Nat.lt_succ_self n) t ht
      refine ⟨t', ?_, ht'⟩
      rw [List.range_succ, List.foldlM_append, hrun]
      simp only [Option.bind_eq_bind, Option.bind_some, List.foldlM_cons, List.foldlM_nil, hlast]
      rfl

theorem foldlM_eq_some {ι : Type*} {f : σ → ι → Option σ} {g : σ → ι → σ} {l : List ι}
    (h : ∀ i ∈ l, ∀ t, f t i = some (g t i)) (s : σ) : l.foldlM f s = some (l.foldl g s) := by
  induction l generalizing s with
  | nil => rfl
  | cons i l ih =>
      rw [List.foldlM_cons, h i List.mem_cons_self]
      exact ih (fun j hj => h j (List.mem_cons_of_mem i hj)) (g s i)

theorem findSome_range {f : Nat → Option α} {n : Nat} {a : α} :
    (List.range n).findSome? f = some a ↔ ∃ i < n, f i = some a ∧ ∀ j < i, f j = none := by
  induction n with
  | zero => simp
  | succ n ih =>
      rw [List.range_succ, List.findSome?_append]
      constructor
      · intro h
        cases hfirst : (List.range n).findSome? f with
        | some b =>
            rw [hfirst] at h
            obtain ⟨i, hi, hfi, hbefore⟩ := ih.mp (hfirst.trans h)
            exact ⟨i, Nat.lt_succ_of_lt hi, hfi, hbefore⟩
        | none =>
            simp only [List.findSome?_eq_none_iff, List.mem_range] at hfirst
            refine ⟨n, Nat.lt_succ_self n, ?_, hfirst⟩
            have hnone : (List.range n).findSome? f = none := by
              simpa only [List.findSome?_eq_none_iff, List.mem_range] using hfirst
            simpa [hnone] using h
      · rintro ⟨i, hi, hfi, hbefore⟩
        rcases Nat.lt_succ_iff_lt_or_eq.mp hi with hlt | rfl
        · rw [ih.mpr ⟨i, hlt, hfi, hbefore⟩]
          rfl
        · have hnone : (List.range i).findSome? f = none := by
            simpa only [List.findSome?_eq_none_iff, List.mem_range] using hbefore
          simp [hnone, hfi]

/-- The rounds of a loop over `w` columns in a loop over `h` rows. -/
def rowMajor (h w : Nat) : List (Nat × Nat) := (List.range h).flatMap fun j => (List.range w).map fun i => (j, i)

def Before (p q : Nat × Nat) : Prop := p.1 < q.1 ∨ p.1 = q.1 ∧ p.2 < q.2

theorem mem_rowMajor {h w : Nat} {p : Nat × Nat} : p ∈ rowMajor h w ↔ p.1 < h ∧ p.2 < w := by
  simp only [rowMajor, List.mem_flatMap, List.mem_range, List.mem_map]
  constructor
  · rintro ⟨j, hj, i, hi, rfl⟩
    exact ⟨hj, hi⟩
  · rintro ⟨hj, hi⟩
    exact ⟨p.1, hj, p.2, hi, rfl⟩

theorem rowMajor_pairwise (h w : Nat) : (rowMajor h w).Pairwise Before := by
  rw [rowMajor, List.pairwise_flatMap]
  constructor
  · intro j _
    rw [List.pairwise_map]
    exact List.pairwise_lt_range.imp fun hlt => Or.inr ⟨rfl, hlt⟩
  · refine List.pairwise_lt_range.imp fun hlt => ?_
    intro p hp q hq
    obtain ⟨i, -, rfl⟩ := List.mem_map.mp hp
    obtain ⟨i', -, rfl⟩ := List.mem_map.mp hq
    exact Or.inl hlt

theorem foldl_rowMajor {f : σ → Nat × Nat → σ} (h w : Nat) (s : σ) :
    (rowMajor h w).foldl f s =
      (List.range h).foldl (fun s j => (List.range w).foldl (fun s i => f s (j, i)) s) s := by
  simp only [rowMajor, List.foldl_flatMap, List.foldl_map]

theorem pairwise_iff_of_sorted {lt R : α → α → Prop} (asymm : ∀ a b, lt a b → ¬ lt b a) {l : List α}
    (hsorted : l.Pairwise lt) : l.Pairwise R ↔ ∀ a ∈ l, ∀ b ∈ l, lt a b → R a b := by
  constructor
  · intro hpairs
    induction l with
    | nil => exact fun a ha => absurd ha List.not_mem_nil
    | cons c l ih =>
        obtain ⟨hfirst, hrest⟩ := List.pairwise_cons.mp hsorted
        obtain ⟨hc, hl⟩ := List.pairwise_cons.mp hpairs
        intro a ha b hb hlt
        rcases List.mem_cons.mp ha with rfl | hal
        · rcases List.mem_cons.mp hb with rfl | hbl
          · exact absurd hlt (asymm _ _ hlt)
          · exact hc b hbl
        · rcases List.mem_cons.mp hb with rfl | hbl
          · exact absurd hlt (asymm _ _ (hfirst a hal))
          · exact ih hrest hl a hal b hbl hlt
  · exact fun h => hsorted.imp_of_mem fun ha hb hlt => h _ ha _ hb hlt

end Loop
