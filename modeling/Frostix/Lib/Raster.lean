import Frostix.Lib.Loop

/-!
Rasters and the grids of tiles drawn on them. A raster gives every column and row a value; a
grid of tiles is drawn by giving each tile a rectangle of the same size. Operations on
rectangles that are made of tiles are operations on the grid. -/
namespace Raster

variable {α κ : Type*}

abbrev Canvas (α : Type*) := Nat → Nat → α

abbrev Grid (κ : Type*) := Nat → Nat → κ

/-- Column `i` and row `j` lie in the rectangle. -/
def InRect (x y w h i j : Nat) : Prop := (x ≤ i ∧ i < x + w) ∧ y ≤ j ∧ j < y + h

instance (x y w h i j : Nat) : Decidable (InRect x y w h i j) := inferInstanceAs (Decidable (_ ∧ _))

def stamp (c : Canvas α) (x y w h : Nat) (g : Canvas α) : Canvas α := fun i j =>
  if InRect x y w h i j then g (i - x) (j - y) else c i j

def fill (c : Canvas α) (x y w h : Nat) (v : α) : Canvas α := stamp c x y w h fun _ _ => v

def move (c : Canvas α) (dx dy sx sy w h : Nat) : Canvas α :=
  stamp c dx dy w h fun i j => c (sx + i) (sy + j)

def render (tile : κ → Canvas α) (tw th : Nat) (g : Grid κ) : Canvas α := fun i j =>
  tile (g (j / th) (i / tw)) (i % tw) (j % th)

def setTiles (g : Grid κ) (row col rows cols : Nat) (k : κ) : Grid κ := fun r c =>
  if (row ≤ r ∧ r < row + rows) ∧ col ≤ c ∧ c < col + cols then k else g r c

/-- The rows of a grid of `rows` rows moved up by one; the last one stays. -/
def shiftUp (g : Grid κ) (rows : Nat) : Grid κ := fun r c => if r + 1 < rows then g (r + 1) c else g r c

def Shows (c : Canvas α) (tile : κ → Canvas α) (tw th rows cols : Nat) (g : Grid κ) : Prop :=
  ∀ i j, i < cols * tw → j < rows * th → c i j = render tile tw th g i j

def SameTiles (rows cols : Nat) (g g' : Grid κ) : Prop := ∀ r < rows, ∀ c < cols, g r c = g' r c

theorem Shows.congr {c : Canvas α} {tile : κ → Canvas α} {tw th rows cols : Nat} {g g' : Grid κ}
    (h : Shows c tile tw th rows cols g) (htw : 0 < tw) (hth : 0 < th) (hsame : SameTiles rows cols g g') :
    Shows c tile tw th rows cols g' := by
  intro i j hi hj
  rw [h i j hi hj, render, render,
    hsame (j / th) ((Nat.div_lt_iff_lt_mul hth).mpr hj) (i / tw) ((Nat.div_lt_iff_lt_mul htw).mpr hi)]

theorem stamp_outside {c g : Canvas α} {x y w h i j : Nat} (hout : ¬InRect x y w h i j) :
    stamp c x y w h g i j = c i j := if_neg hout

theorem stamp_inside {c g : Canvas α} {x y w h i j : Nat} (hin : InRect x y w h i j) :
    stamp c x y w h g i j = g (i - x) (j - y) := if_pos hin

theorem foldl_pixels (x y : Nat) (g : Canvas α) (ps : List (Nat × Nat)) : ∀ (c : Canvas α) (i j : Nat),
    ps.foldl (fun c p => fill c (x + p.2) (y + p.1) 1 1 (g p.2 p.1)) c i j =
      if (x ≤ i ∧ y ≤ j) ∧ (j - y, i - x) ∈ ps then g (i - x) (j - y) else c i j := by
  induction ps with
  | nil => exact fun c i j => (if_neg fun h => List.not_mem_nil h.2).symm
  | cons p ps ih =>
      intro c i j
      rw [List.foldl_cons, ih]
      by_cases hrest : (x ≤ i ∧ y ≤ j) ∧ (j - y, i - x) ∈ ps
      · rw [if_pos hrest, if_pos ⟨hrest.1, List.mem_cons_of_mem p hrest.2⟩]
      · rw [if_neg hrest]
        unfold fill
        by_cases hin : InRect (x + p.2) (y + p.1) 1 1 i j
        · obtain ⟨⟨hx, hx'⟩, hy, hy'⟩ := hin
          have hp : (j - y, i - x) = p := Prod.ext (by dsimp only; omega) (by dsimp only; omega)
          rw [stamp_inside ⟨⟨hx, hx'⟩, hy, hy'⟩, if_pos ⟨⟨by omega, by omega⟩, hp ▸ List.mem_cons_self⟩,
            ← hp]
        · rw [stamp_outside hin, if_neg]
          rintro ⟨hcorner, hmem⟩
          rcases List.mem_cons.mp hmem with rfl | hmem
          · exact hin ⟨⟨by dsimp only; omega, by dsimp only; omega⟩, by dsimp only; omega, by dsimp only; omega⟩
          · exact hrest ⟨hcorner, hmem⟩

theorem stamp_pixels (c : Canvas α) (x y w h : Nat) (g : Canvas α) :
    (Loop.rowMajor h w).foldl (fun c p => fill c (x + p.2) (y + p.1) 1 1 (g p.2 p.1)) c = stamp c x y w h g := by
  funext i j
  rw [foldl_pixels, stamp]
  refine if_congr ?_ rfl rfl
  rw [Loop.mem_rowMajor]
  unfold InRect
  dsimp only
  omega

def stampRow (c : Canvas α) (x y tw th : Nat) : List (Canvas α) → Canvas α
  | [] => c
  | g :: gs => stampRow (stamp c x y tw th g) (x + tw) y tw th gs

def rowOf (tw : Nat) (gs : List (Canvas α)) (d : Canvas α) : Canvas α := fun i j => gs.getD (i / tw) d (i % tw) j

theorem stampRow_eq {tw : Nat} (htw : 0 < tw) (d : Canvas α) (y th : Nat) (gs : List (Canvas α)) :
    ∀ (c : Canvas α) (x : Nat),
      stampRow c x y tw th gs = stamp c x y (gs.length * tw) th (rowOf tw gs d) := by
  induction gs with
  | nil =>
      intro c x
      funext i j
      exact (stamp_outside (by unfold InRect; simp only [List.length_nil]; omega)).symm
  | cons g gs ih =>
      intro c x
      funext i j
      rw [stampRow, ih, List.length_cons, Nat.succ_mul]
      by_cases hfirst : InRect x y tw th i j
      · have hin : InRect x y (gs.length * tw + tw) th i j :=
          ⟨⟨hfirst.1.1, by have := hfirst.1.2; omega⟩, hfirst.2⟩
        have hlt : i - x < tw := by
          have := hfirst.1
          omega
        rw [stamp_outside (by unfold InRect at *; omega), stamp_inside hfirst, stamp_inside hin, rowOf,
          Nat.div_eq_of_lt hlt, Nat.mod_eq_of_lt hlt, List.getD_cons_zero]
      · by_cases hrest : InRect (x + tw) y (gs.length * tw) th i j
        · have hin : InRect x y (gs.length * tw + tw) th i j := by
            unfold InRect at *
            omega
          have hstep : i - x = i - (x + tw) + tw := by
            unfold InRect at hrest
            omega
          rw [stamp_inside hrest, stamp_inside hin, rowOf, rowOf, hstep, Nat.add_div_right _ htw,
            Nat.add_mod_right,
            List.getD_cons_succ]
        · rw [stamp_outside hrest, stamp_outside hfirst, stamp_outside (by unfold InRect at *; omega)]

theorem stamp_stamp (c : Canvas α) (x y w h : Nat) (g g' : Canvas α) :
    stamp (stamp c x y w h g) x y w h g' = stamp c x y w h g' := by
  funext i j
  by_cases hin : InRect x y w h i j
  · rw [stamp_inside hin, stamp_inside hin]
  · rw [stamp_outside hin, stamp_outside hin, stamp_outside hin]

theorem tile_range {t n k i : Nat} (ht : 0 < t) :
    (n * t ≤ i ∧ i < n * t + k * t) ↔ n ≤ i / t ∧ i / t < n + k := by
  rw [Nat.le_div_iff_mul_le ht, Nat.div_lt_iff_lt_mul ht, Nat.add_mul]

theorem Shows.stamp_tile {c : Canvas α} {tile : κ → Canvas α} {tw th rows cols : Nat} {g : Grid κ}
    (h : Shows c tile tw th rows cols g) (htw : 0 < tw) (hth : 0 < th) (row col : Nat) (k : κ) :
    Shows (stamp c (col * tw) (row * th) tw th (tile k)) tile tw th rows cols (setTiles g row col 1 1 k) := by
  intro i j hi hj
  have hcol := tile_range (n := col) (k := 1) (i := i) htw
  have hrow := tile_range (n := row) (k := 1) (i := j) hth
  rw [Nat.one_mul] at hcol hrow
  by_cases hin : InRect (col * tw) (row * th) tw th i j
  · have hcell : (row ≤ j / th ∧ j / th < row + 1) ∧ col ≤ i / tw ∧ i / tw < col + 1 :=
      ⟨hrow.mp hin.2, hcol.mp hin.1⟩
    have hi' : i % tw = i - col * tw := by
      have hdiv : i / tw = col := by omega
      have hsplit := Nat.div_add_mod i tw
      rw [hdiv, Nat.mul_comm] at hsplit
      omega
    have hj' : j % th = j - row * th := by
      have hdiv : j / th = row := by omega
      have hsplit := Nat.div_add_mod j th
      rw [hdiv, Nat.mul_comm] at hsplit
      omega
    rw [stamp_inside hin, render, setTiles, if_pos hcell, hi', hj']
  · have hcell : ¬((row ≤ j / th ∧ j / th < row + 1) ∧ col ≤ i / tw ∧ i / tw < col + 1) :=
      fun hcell => hin ⟨hcol.mpr hcell.2, hrow.mpr hcell.1⟩
    rw [stamp_outside hin, h i j hi hj, render, render, setTiles, if_neg hcell]

/-- A rectangle of tiles filled with one value is a rectangle of one tile. It may reach out of
the grid on the right. -/
theorem Shows.fill_tiles {c : Canvas α} {tile : κ → Canvas α} {tw th rows cols : Nat} {g : Grid κ}
    (h : Shows c tile tw th rows cols g) (htw : 0 < tw) (hth : 0 < th) {row col n k w : Nat} {v : α} {t : κ}
    (hflat : ∀ i j, tile t i j = v) (hw : w = k * tw ∨ cols * tw ≤ col * tw + w ∧ cols ≤ col + k) :
    Shows (fill c (col * tw) (row * th) w (n * th) v) tile tw th rows cols (setTiles g row col n k t) := by
  intro i j hi hj
  have hi' : i / tw < cols := (Nat.div_lt_iff_lt_mul htw).mpr hi
  have hcol : (col * tw ≤ i ∧ i < col * tw + w) ↔ col ≤ i / tw ∧ i / tw < col + k := by
    rcases hw with rfl | ⟨hw, hk⟩
    · exact tile_range htw
    · have hleft := (tile_range (n := col) (k := k) (i := i) htw).trans
        (and_congr_right_iff.mpr fun _ => iff_of_true (by omega) trivial)
      constructor
      · intro hin
        have hle : col ≤ i / tw := (Nat.le_div_iff_mul_le htw).mpr hin.1
        exact ⟨hle, by omega⟩
      · intro hin
        have hle : col * tw ≤ i := (Nat.le_div_iff_mul_le htw).mp hin.1
        exact ⟨hle, by omega⟩
  have hrow := tile_range (n := row) (k := n) (i := j) hth
  unfold fill
  by_cases hin : InRect (col * tw) (row * th) w (n * th) i j
  · rw [stamp_inside hin, render, setTiles, if_pos ⟨hrow.mp hin.2, hcol.mp hin.1⟩, hflat]
  · rw [stamp_outside hin, h i j hi hj, render, render, setTiles,
      if_neg fun hcell => hin ⟨hcol.mpr hcell.2, hrow.mpr hcell.1⟩]

theorem shows_filled {c : Canvas α} {tile : κ → Canvas α} {tw th rows cols w h : Nat} {v : α} {t : κ}
    (hflat : ∀ i j, tile t i j = v) (hw : cols * tw ≤ w) (hh : rows * th ≤ h) :
    Shows (fill c 0 0 w h v) tile tw th rows cols fun _ _ => t := by
  intro i j hi hj
  rw [fill, stamp_inside ⟨⟨Nat.zero_le i, by omega⟩, Nat.zero_le j, by omega⟩, render, hflat]

theorem Shows.shift_tiles {c : Canvas α} {tile : κ → Canvas α} {tw th rows cols : Nat} {g : Grid κ}
    (h : Shows c tile tw th rows cols g) (hth : 0 < th) (hrows : 0 < rows) {w : Nat} (hw : cols * tw ≤ w) :
    Shows (move c 0 0 0 th w ((rows - 1) * th)) tile tw th rows cols (shiftUp g rows) := by
  intro i j hi hj
  have hlast : rows * th = (rows - 1) * th + th := by
    rw [← Nat.succ_mul, Nat.succ_eq_add_one, Nat.sub_add_cancel hrows]
  by_cases hup : j < (rows - 1) * th
  · have hup' : j / th < rows - 1 := (Nat.div_lt_iff_lt_mul hth).mpr hup
    have hnext : (th + j) / th = j / th + 1 := by rw [Nat.add_comm, Nat.add_div_right j hth]
    rw [move, stamp_inside ⟨⟨Nat.zero_le i, by omega⟩, Nat.zero_le j, by omega⟩, Nat.zero_add, Nat.sub_zero,
      Nat.sub_zero, h i (th + j) hi (by omega), render, render, hnext, Nat.add_mod_left, shiftUp,
        if_pos (by omega)]
  · have hdown : rows - 1 ≤ j / th := (Nat.le_div_iff_mul_le hth).mpr (by omega)
    rw [move, stamp_outside (by unfold InRect; omega), h i j hi hj, render, render, shiftUp, if_neg (by omega)]

end Raster
