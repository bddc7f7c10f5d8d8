import Mathlib

/-!
The fields of a list between separators, one after the other. The next field is what is
left after the separators in front, up to the next separator. -/
namespace Fields

variable {α : Type*} (sep : α → Bool)

def gap (l : List α) : List α := l.takeWhile sep

def token (l : List α) : List α := (l.dropWhile sep).takeWhile fun c => !sep c

def rest (l : List α) : List α := (l.dropWhile sep).dropWhile fun c => !sep c

/-- All fields: the maximal parts without separators that are not empty. -/
def fields (l : List α) : List (List α) := (l.splitOnP sep).filter fun f => !f.isEmpty

theorem gap_append_token_append_rest (l : List α) : gap sep l ++ (token sep l ++ rest sep l) = l := by
  rw [gap, token, rest, List.takeWhile_append_dropWhile, List.takeWhile_append_dropWhile]

variable {sep}

theorem sep_of_mem_gap {l : List α} {c : α} (h : c ∈ gap sep l) : sep c = true := List.mem_takeWhile_imp h

theorem sep_of_mem_token {l : List α} {c : α} (h : c ∈ token sep l) : sep c = false := by
  simpa using List.mem_takeWhile_imp h

theorem rest_cases (sep : α → Bool) (l : List α) :
    rest sep l = [] ∨ ∃ c after, rest sep l = c :: after ∧ sep c = true := by
  cases hrest : rest sep l with
  | nil => exact Or.inl rfl
  | cons c after =>
      refine Or.inr ⟨c, after, rfl, ?_⟩
      have hhead := List.head?_dropWhile_not (fun c => !sep c) (l.dropWhile sep)
      rw [rest] at hrest
      rw [hrest] at hhead
      simpa using hhead

theorem rest_eq_nil {l : List α} (h : token sep l = []) : rest sep l = [] := by
  rcases rest_cases sep l with hnil | ⟨c, after, hcons, hc⟩
  · exact hnil
  · exfalso
    have hdrop : l.dropWhile sep = c :: after := by
      rw [← hcons, ← List.nil_append (rest sep l), ← h, token, rest, List.takeWhile_append_dropWhile]
    have hhead := List.head?_dropWhile_not sep l
    rw [hdrop] at hhead
    simp [hc] at hhead

theorem fields_gap (l l' : List α) (h : ∀ c ∈ l, sep c = true) : fields sep (l ++ l') = fields sep l' := by
  induction l with
  | nil => rfl
  | cons c l ih =>
      have hc := h c List.mem_cons_self
      rw [← ih fun d hd => h d (List.mem_cons_of_mem c hd), List.cons_append]
      simp [fields, List.splitOnP_cons_eq_if_modifyHead, hc]

theorem fields_eq_nil {l : List α} (h : token sep l = []) : fields sep l = [] := by
  have hall := gap_append_token_append_rest sep l
  rw [h, rest_eq_nil h] at hall
  rw [← hall, fields_gap _ _ fun c => sep_of_mem_gap]
  simp [fields]

theorem fields_eq_cons {l : List α} (h : token sep l ≠ []) :
    fields sep l = token sep l :: fields sep (rest sep l).tail := by
  have hkeep : ∀ fs : List (List α), (token sep l :: fs).filter (fun f => !f.isEmpty) =
      token sep l :: fs.filter fun f => !f.isEmpty := by
    intro fs
    exact List.filter_cons_of_pos (by simpa using h)
  have hno : ∀ c ∈ token sep l, sep c = false := fun c => sep_of_mem_token
  conv_lhs => rw [← gap_append_token_append_rest sep l]
  rw [fields_gap _ _ fun c => sep_of_mem_gap]
  rcases rest_cases sep l with hnil | ⟨c, after, hcons, hc⟩
  · rw [hnil, List.append_nil, fields, List.splitOnP_eq_singleton hno, hkeep]
    simp [fields]
  · rw [hcons, fields, List.splitOnP_append_cons_of_forall_mem hno c hc, hkeep]
    rfl

/-- The next field with its position, and where the search goes on: behind one separator. -/
def cut (sep : α → Bool) (c : Nat × List α) : Option (Nat × List α) × Nat × List α :=
  let start := c.1 + (gap sep c.2).length
  if (token sep c.2).isEmpty then (none, start, [])
  else (some (start, token sep c.2), start + (token sep c.2).length + 1, (rest sep c.2).tail)

def cuts : List (α → Bool) → Nat × List α → List (Option (Nat × List α))
  | [], _ => []
  | sep :: seps, c => (cut sep c).1 :: cuts seps (cut sep c).2

theorem cut_none {c : Nat × List α} (h : token sep c.2 = []) :
    cut sep c = (none, c.1 + (gap sep c.2).length, []) := by
  rw [cut, h]
  rfl

theorem cut_some {c : Nat × List α} (h : token sep c.2 ≠ []) :
    cut sep c = (some (c.1 + (gap sep c.2).length, token sep c.2),
      c.1 + (gap sep c.2).length + (token sep c.2).length + 1, (rest sep c.2).tail) := by
  rw [cut, if_neg (by simpa using h)]

theorem cut_lt {c t : Nat × List α} (h : (cut sep c).1 = some t) : t.1 + t.2.length < (cut sep c).2.1 := by
  by_cases htok : token sep c.2 = []
  · rw [cut_none htok] at h
    cases h
  · rw [cut_some htok] at h ⊢
    cases h
    exact Nat.lt_succ_self _

theorem cuts_nil (seps : List (α → Bool)) (pos : Nat) : ∀ r ∈ cuts seps (pos, []), r = none := by
  induction seps generalizing pos with
  | nil => exact fun _ h => absurd h List.not_mem_nil
  | cons sep seps ih =>
      intro r hr
      rw [cuts, cut_none rfl, List.mem_cons] at hr
      exact hr.elim id (ih _ r)

theorem le_of_mem_cuts {seps : List (α → Bool)} {c t : Nat × List α} (h : some t ∈ cuts seps c) : c.1 ≤ t.1 := by
  induction seps generalizing c with
  | nil => exact absurd h List.not_mem_nil
  | cons sep seps ih =>
      rw [cuts, List.mem_cons] at h
      by_cases htok : token sep c.2 = []
      · rw [cut_none htok] at h
        rcases h with hhead | hmem
        · cases hhead
        · cases cuts_nil _ _ _ hmem
      · rw [cut_some htok] at h
        rcases h with hhead | hmem
        · cases hhead
          exact Nat.le_add_right _ _
        · have hle := ih hmem
          exact le_trans (by simp only; omega) hle

theorem add_length_le_of_mem_cuts {seps : List (α → Bool)} {c t : Nat × List α} (h : some t ∈ cuts seps c) :
    t.1 + t.2.length ≤ c.1 + c.2.length := by
  induction seps generalizing c with
  | nil => exact absurd h List.not_mem_nil
  | cons sep seps ih =>
      rw [cuts, List.mem_cons] at h
      by_cases htok : token sep c.2 = []
      · rw [cut_none htok] at h
        rcases h with hhead | hmem
        · cases hhead
        · cases cuts_nil _ _ _ hmem
      · rw [cut_some htok] at h
        have hall := congrArg List.length (gap_append_token_append_rest sep c.2)
        rw [List.length_append, List.length_append] at hall
        rcases h with hhead | hmem
        · cases hhead
          simp only
          omega
        · cases hrest : rest sep c.2 with
          | nil =>
              rw [hrest] at hmem
              cases cuts_nil _ _ _ hmem
          | cons b after =>
              rw [hrest, List.length_cons] at hall
              have hle := ih hmem
              rw [hrest, List.tail_cons] at hle
              exact hle.trans (by simp only; omega)

theorem cuts_pairwise (seps : List (α → Bool)) (c : Nat × List α) :
    (cuts seps c).Pairwise fun r r' => r = none → r' = none := by
  induction seps generalizing c with
  | nil => exact List.Pairwise.nil
  | cons sep seps ih =>
      refine List.pairwise_cons.mpr ⟨fun r hr hnone => ?_, ih _⟩
      by_cases htok : token sep c.2 = []
      · rw [cut_none htok] at hr
        exact cuts_nil _ _ r hr
      · rw [cut_some htok] at hnone
        cases hnone

theorem cuts_replicate (n : Nat) (c : Nat × List α) :
    (cuts (List.replicate n sep) c).map (Option.map Prod.snd) =
    (List.range n).map fun i => (fields sep c.2)[i]? := by
  induction n generalizing c with
  | zero => rfl
  | succ n ih =>
      rw [List.replicate_succ, cuts, List.map_cons, ih, List.range_succ_eq_map, List.map_cons, List.map_map]
      by_cases htok : token sep c.2 = []
      · rw [cut_none htok, fields_eq_nil htok, fields_eq_nil (l := []) rfl]
        rfl
      · rw [cut_some htok, fields_eq_cons htok]
        rfl

end Fields
