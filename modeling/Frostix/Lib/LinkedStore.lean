import Mathlib

/-!
Singly linked lists in a store of records. A record is built from its contents and
the address of the next one; a segment of the list is the list of addresses and
contents from one pointer up to another. -/
namespace LinkedStore

variable {α ρ : Type*} {link : α → Nat → ρ}

/-- The pointer to the first cell, or `t` when there is none. -/
def headPtr : List (Nat × α) → Nat → Nat
  | [], t => t
  | c :: _, _ => c.1

/-- The cells are in the store and linked up to the pointer `t`. -/
def Seg (link : α → Nat → ρ) (s : Nat → Option ρ) : List (Nat × α) → Nat → Prop
  | [], _ => True
  | c :: cs, t => c.1 ≠ 0 ∧ s c.1 = some (link c.2 (headPtr cs t)) ∧ Seg link s cs t

theorem headPtr_append (cs ds : List (Nat × α)) (t : Nat) :
    headPtr (cs ++ ds) t = headPtr cs (headPtr ds t) := by
  cases cs with
  | nil => rfl
  | cons c cs => rfl

theorem Seg.append {s : Nat → Option ρ} {cs ds : List (Nat × α)} {t : Nat} :
    Seg link s (cs ++ ds) t ↔ Seg link s cs (headPtr ds t) ∧ Seg link s ds t := by
  induction cs with
  | nil => simp [Seg]
  | cons c cs ih => simp only [List.cons_append, Seg, ih, headPtr_append, and_assoc]

theorem Seg.mem {s : Nat → Option ρ} {cs : List (Nat × α)} {t : Nat} (h : Seg link s cs t)
    {c : Nat × α} (hc : c ∈ cs) : c.1 ≠ 0 ∧ ∃ n, s c.1 = some (link c.2 n) := by
  obtain ⟨xs, ys, rfl⟩ := List.append_of_mem hc
  obtain ⟨-, hne, hs, -⟩ := Seg.append.mp h
  exact ⟨hne, _, hs⟩

theorem Seg.congr {s s' : Nat → Option ρ} {cs : List (Nat × α)} {t : Nat} (h : Seg link s cs t)
    (hsame : ∀ c ∈ cs, s' c.1 = s c.1) : Seg link s' cs t := by
  induction cs with
  | nil => trivial
  | cons c cs ih =>
      obtain ⟨hne, hs, hrest⟩ := h
      refine ⟨hne, (hsame c List.mem_cons_self).trans hs, ih hrest ?_⟩
      exact fun d hd => hsame d (List.mem_cons_of_mem c hd)

theorem Seg.update {s : Nat → Option ρ} {cs : List (Nat × α)} {t a : Nat} (h : Seg link s cs t)
    (ha : a ∉ cs.map Prod.fst) (x : Option ρ) : Seg link (Function.update s a x) cs t := by
  refine h.congr fun c hc => ?_
  have hne : c.1 ≠ a := by
    rintro rfl
    exact ha (List.mem_map_of_mem hc)
  exact Function.update_of_ne hne _ _

theorem notMem_of_nodup {xs ys : List (Nat × α)} {c : Nat × α}
    (h : ((xs ++ c :: ys).map Prod.fst).Nodup) :
    c.1 ∉ xs.map Prod.fst ∧ c.1 ∉ ys.map Prod.fst := by
  rw [List.map_append, List.map_cons, List.nodup_append] at h
  obtain ⟨-, hcons, hcross⟩ := h
  refine ⟨?_, (List.nodup_cons.mp hcons).1⟩
  intro hx
  exact hcross _ hx _ List.mem_cons_self rfl

theorem nodup_insertAfter {xs ys : List (Nat × α)} {p c : Nat × α}
    (h : ((xs ++ p :: ys).map Prod.fst).Nodup) (hc : c.1 ∉ (xs ++ p :: ys).map Prod.fst) :
    ((xs ++ p :: c :: ys).map Prod.fst).Nodup := by
  have hperm : (xs ++ p :: c :: ys).Perm (c :: (xs ++ p :: ys)) := by
    have hmid := @List.perm_middle _ c (xs ++ [p]) ys
    simpa using hmid
  rw [(hperm.map Prod.fst).nodup_iff, List.map_cons, List.nodup_cons]
  exact ⟨hc, h⟩

/-- A cell is linked in behind `p`. -/
theorem Seg.insertAfter {s : Nat → Option ρ} {xs ys : List (Nat × α)} {p c : Nat × α} {t : Nat}
    (h : Seg link s (xs ++ p :: ys) t) (hnodup : ((xs ++ p :: ys).map Prod.fst).Nodup)
    (hc : c.1 ≠ 0) (hnew : c.1 ∉ (xs ++ p :: ys).map Prod.fst) :
    Seg link (Function.update (Function.update s c.1 (some (link c.2 (headPtr ys t)))) p.1
      (some (link p.2 c.1))) (xs ++ p :: c :: ys) t := by
  obtain ⟨hpx, hpy⟩ := notMem_of_nodup hnodup
  simp only [List.map_append, List.map_cons, List.mem_append, List.mem_cons, not_or] at hnew
  obtain ⟨hcx, hcp, hcy⟩ := hnew
  obtain ⟨hxs, hp, hval, hys⟩ := Seg.append.mp h
  refine Seg.append.mpr ⟨?_, hp, ?_, hc, ?_, ?_⟩
  · exact (hxs.update hcx _).update hpx _
  · exact Function.update_self ..
  · rw [Function.update_of_ne hcp, Function.update_self]
  · exact (hys.update hcy _).update hpy _

/-- The cell behind `p` is skipped. -/
theorem Seg.removeAfter {s : Nat → Option ρ} {xs ys : List (Nat × α)} {p c : Nat × α} {t : Nat}
    (h : Seg link s (xs ++ p :: c :: ys) t)
    (hnodup : ((xs ++ p :: c :: ys).map Prod.fst).Nodup) :
    Seg link (Function.update s p.1 (some (link p.2 (headPtr ys t)))) (xs ++ p :: ys) t := by
  obtain ⟨hpx, hpy⟩ := notMem_of_nodup hnodup
  obtain ⟨hxs, hp, -, -, -, hys⟩ := Seg.append.mp h
  refine Seg.append.mpr ⟨hxs.update hpx _, hp, Function.update_self .., hys.update ?_ _⟩
  exact fun hmem => hpy (List.mem_cons_of_mem _ hmem)

theorem Seg.setVal {s : Nat → Option ρ} {xs ys : List (Nat × α)} {a t : Nat} {v w : α}
    (h : Seg link s (xs ++ (a, v) :: ys) t)
    (hnodup : ((xs ++ (a, v) :: ys).map Prod.fst).Nodup) :
    Seg link (Function.update s a (some (link w (headPtr ys t)))) (xs ++ (a, w) :: ys) t := by
  obtain ⟨hpx, hpy⟩ := notMem_of_nodup hnodup
  obtain ⟨hxs, hp, -, hys⟩ := Seg.append.mp h
  exact Seg.append.mpr ⟨hxs.update hpx _, hp, Function.update_self .., hys.update hpy _⟩

theorem Seg.headPtr_ne_zero {s : Nat → Option ρ} {c : Nat × α} {cs : List (Nat × α)} {t : Nat}
    (h : Seg link s (c :: cs) t) : headPtr (c :: cs) t ≠ 0 := h.1

end LinkedStore
