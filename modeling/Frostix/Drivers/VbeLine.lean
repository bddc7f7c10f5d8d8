import Frostix.Drivers.VbeFill
import Frostix.Lib.ErrorTerm

/-!
The loop of `vbe_draw_line` only ends at the second end point. Along the longer axis every
round takes a step; its error term, or its negation where the line is steep, stays between
zero and the longer extent, and so both coordinates arrive in the same round. -/
namespace Frostix.Drivers

open Machine32 ByteMemory Tty While ErrorTerm

variable {dev : VbeDevice}

def dist (a b : UInt16) : Nat := ((b.toNat : Int) - a.toNat).natAbs

/-- Neighbouring pixels of a line: one step along the longer axis, at most one along the other. -/
structure Adjacent (x1 y1 x2 y2 : UInt16) (p q : UInt16 × UInt16) : Prop where
  column : dist p.1 q.1 ≤ 1
  row : dist p.2 q.2 ≤ 1
  longColumn : dist y1 y2 ≤ dist x1 x2 → dist p.1 q.1 = 1
  longRow : dist x1 x2 ≤ dist y1 y2 → dist p.2 q.2 = 1

structure Line (x1 y1 x2 y2 : UInt16) (pixels : List (UInt16 × UInt16)) : Prop where
  count : pixels.length = max (dist x1 x2) (dist y1 y2) + 1
  first : pixels.head? = some (x1, y1)
  last : pixels.getLast? = some (x2, y2)
  inBox : ∀ p ∈ pixels, (min x1.toNat x2.toNat ≤ p.1.toNat ∧ p.1.toNat ≤ max x1.toNat x2.toNat) ∧
    min y1.toNat y2.toNat ≤ p.2.toNat ∧ p.2.toNat ≤ max y1.toNat y2.toNat
  adjacent : pixels.IsChain (Adjacent x1 y1 x2 y2)

structure Spans (p : LineParams) (x1 y1 x2 y2 : UInt16) : Prop where
  x2_eq : p.x2 = x2
  y2_eq : p.y2 = y2
  x2_sum : (x2.toNat : Int) = x1.toNat + p.sx * p.absDx
  y2_sum : (y2.toNat : Int) = y1.toNat + p.sy * p.absDy
  sx : p.sx = 1 ∨ p.sx = -1
  sy : p.sy = 1 ∨ p.sy = -1
  absDx : p.absDx = dist x1 x2
  absDy : p.absDy = dist y1 y2

theorem lineParams_spans (x1 y1 x2 y2 : UInt16) : Spans (lineParams x1 y1 x2 y2) x1 y1 x2 y2 := by
  constructor <;> simp only [lineParams, dist, UInt16.lt_iff_toNat_lt]
  · split_ifs <;> omega
  · split_ifs <;> omega
  · split_ifs <;> simp
  · split_ifs <;> simp
  · split_ifs <;> omega
  · split_ifs <;> omega

theorem firstErr_flat {p : LineParams} (hy : 0 ≤ p.absDy) (h : p.absDy < p.absDx) : p.firstErr = p.absDx / 2 := by
  rw [LineParams.firstErr, if_pos h]
  exact Int.tdiv_eq_ediv_of_nonneg (by omega)

theorem firstErr_steep {p : LineParams} (hy : 0 ≤ p.absDy) (h : p.absDx ≤ p.absDy) :
    -p.firstErr = p.absDy / 2 := by
  rw [LineParams.firstErr, if_neg (not_lt.mpr h), Int.neg_tdiv, neg_neg]
  exact Int.tdiv_eq_ediv_of_nonneg hy

theorem coordinate_bounds {a b : UInt16} {s d i : Int} (hs : s = 1 ∨ s = -1)
    (hb : (b.toNat : Int) = a.toNat + s * d)
    (hlo : 0 ≤ i) (hhi : i ≤ d) :
    (min a.toNat b.toNat : Int) ≤ a.toNat + s * i ∧ (a.toNat : Int) + s * i ≤ max a.toNat b.toNat := by
  rcases hs with rfl | rfl <;> omega

section Rounds

variable {x1 y1 x2 y2 : UInt16} {p : LineParams} {s : LineState}

/-- The state after `i` steps in the columns and `j` in the rows. -/
structure OnLine (p : LineParams) (x1 y1 : UInt16) (i j : Int) (s : LineState) : Prop where
  column : (s.x.toNat : Int) = x1.toNat + p.sx * i
  row : (s.y.toNat : Int) = y1.toNat + p.sy * j

/-- After `k` rounds: the number of steps along the longer axis is `k`, and the error term
is the one of the shorter axis. -/
inductive Progress (p : LineParams) (x1 y1 : UInt16) (k : Int) (s : LineState) : Prop where
  | flat (j : Int) : p.absDy < p.absDx → Balanced p.absDx p.absDy k j s.err → OnLine p x1 y1 k j s →
      Progress p x1 y1 k s
  | steep (i : Int) : p.absDx ≤ p.absDy → Balanced p.absDy p.absDx k i (-s.err) → OnLine p x1 y1 i k s →
      Progress p x1 y1 k s

def LineParams.long (p : LineParams) : Int := max p.absDx p.absDy

theorem Progress.steps (hp : Spans p x1 y1 x2 y2) {k : Int} (hk : 0 ≤ k) (hle : k ≤ p.long)
    (h : Progress p x1 y1 k s) :
    ∃ i j, OnLine p x1 y1 i j s ∧ (0 ≤ i ∧ i ≤ p.absDx) ∧ 0 ≤ j ∧ j ≤ p.absDy := by
  have hdx : 0 ≤ p.absDx := by rw [hp.absDx]; omega
  have hdy : 0 ≤ p.absDy := by rw [hp.absDy]; omega
  unfold LineParams.long at hle
  cases h with
  | flat j hflat hbal hon => exact ⟨k, j, hon, ⟨hk, by omega⟩, hbal.range hdy hk (by omega)⟩
  | steep i hsteep hbal hon => exact ⟨i, k, hon, hbal.range hdx hk (by omega), hk, by omega⟩

theorem Progress.inBox (hp : Spans p x1 y1 x2 y2) {k : Int} (hk : 0 ≤ k) (hle : k ≤ p.long)
    (h : Progress p x1 y1 k s) :
    (min x1.toNat x2.toNat ≤ s.x.toNat ∧ s.x.toNat ≤ max x1.toNat x2.toNat) ∧
      min y1.toNat y2.toNat ≤ s.y.toNat ∧ s.y.toNat ≤ max y1.toNat y2.toNat := by
  obtain ⟨i, j, hon, ⟨hi, hi'⟩, hj, hj'⟩ := h.steps hp hk hle
  have hx := coordinate_bounds hp.sx hp.x2_sum hi hi'
  have hy := coordinate_bounds hp.sy hp.y2_sum hj hj'
  have hcol := hon.column
  have hrow := hon.row
  omega

theorem vbePutPixel_ok (hd : Ready dev) (fb : Mem) {x y : UInt16} (hx : x < dev.width) (hy : y < dev.height)
    (color : VbeColor) : (vbePutPixel dev fb x y color).1 = .ok := by
  rw [vbePutPixel_eq hd fb hx hy]

theorem lineBody_next {color : VbeColor} (hok : (vbePutPixel dev s.fb s.x s.y color).1 = .ok)
    (hend : ¬ (s.x = p.x2 ∧ s.y = p.y2)) :
    lineBody dev color p s = some (.next
      { x := if -p.absDx < s.err then u16 (s.x.toNat + p.sx) else s.x
        y := if s.err < p.absDy then u16 (s.y.toNat + p.sy) else s.y
        err := if s.err < p.absDy then
            sint ((if -p.absDx < s.err then sint (s.err - p.absDy) else s.err) + p.absDx)
          else if -p.absDx < s.err then sint (s.err - p.absDy) else s.err
        fb := (vbePutPixel dev s.fb s.x s.y color).2 }) := by
  obtain ⟨x, y, err, fb⟩ := s
  unfold lineBody
  rcases hput : vbePutPixel dev fb x y color with ⟨status, fb'⟩
  rw [hput] at hok
  cases hok
  simp only [ne_eq, not_true_eq_false, if_false, if_neg hend]
  by_cases hx : -p.absDx < err <;> by_cases hy : err < p.absDy <;> simp [hx, hy]

theorem lineBody_stop {color : VbeColor} (hok : (vbePutPixel dev s.fb s.x s.y color).1 = .ok)
    (hend : s.x = p.x2 ∧ s.y = p.y2) :
    lineBody dev color p s = some (.stop (.ok, (vbePutPixel dev s.fb s.x s.y color).2)) := by
  obtain ⟨x, y, err, fb⟩ := s
  unfold lineBody
  rcases hput : vbePutPixel dev fb x y color with ⟨status, fb'⟩
  rw [hput] at hok
  cases hok
  simp only [ne_eq, not_true_eq_false, if_false, if_pos hend]

theorem dist_lt (a b : UInt16) : dist a b < 65536 := by
  have ha := a.toNat_lt
  have hb := b.toNat_lt
  unfold dist
  omega

theorem coordinate_step {a b c : UInt16} {sgn d i : Int} (hs : sgn = 1 ∨ sgn = -1)
    (hb : (b.toNat : Int) = a.toNat + sgn * d) (hc : (c.toNat : Int) = a.toNat + sgn * i) (hlo : 0 ≤ i)
    (hlt : i < d) :
    ((u16 (c.toNat + sgn)).toNat : Int) = a.toNat + sgn * (i + 1) ∧ dist c (u16 (c.toNat + sgn)) = 1 ∧ c ≠ b := by
  have hbounds := coordinate_bounds hs hb (show 0 ≤ i + 1 by omega) (show i + 1 ≤ d by omega)
  have ha := a.toNat_lt
  have hb' := b.toNat_lt
  have hsum : (c.toNat : Int) + sgn = a.toNat + sgn * (i + 1) := by
    rw [hc]
    ring
  have hstep : ((u16 (c.toNat + sgn)).toNat : Int) = a.toNat + sgn * (i + 1) := by
    rw [hsum]
    exact toNat_u16_of_range (by omega) (by omega)
  refine ⟨hstep, ?_, ?_⟩
  · unfold dist
    rcases hs with rfl | rfl <;> omega
  · rintro rfl
    rcases hs with rfl | rfl <;> omega

theorem dist_self (a : UInt16) : dist a a = 0 := by
  unfold dist
  omega

/-- Before the end every round goes on by one along the longer axis. -/
theorem Progress.step (hp : Spans p x1 y1 x2 y2) {k : Int} (hk : 0 ≤ k) (hlt : k < p.long)
    (h : Progress p x1 y1 k s) {color : VbeColor} (hok : (vbePutPixel dev s.fb s.x s.y color).1 = .ok) :
    ∃ t, lineBody dev color p s = some (.next t) ∧ t.fb = (vbePutPixel dev s.fb s.x s.y color).2 ∧
      Progress p x1 y1 (k + 1) t ∧ Adjacent x1 y1 x2 y2 (s.x, s.y) (t.x, t.y) := by
  have hdx := dist_lt x1 x2
  have hdy := dist_lt y1 y2
  have hax := hp.absDx
  have hay := hp.absDy
  unfold LineParams.long at hlt
  cases h with
  | flat j hflat hbal hon =>
      obtain ⟨hcol, hone, hne⟩ := coordinate_step hp.sx hp.x2_sum hon.column hk (show k < p.absDx by omega)
      have hend : ¬ (s.x = p.x2 ∧ s.y = p.y2) := fun h => hne (h.1.trans hp.x2_eq)
      have hnonneg := hbal.nonneg
      have hless := hbal.lt
      have hright : -p.absDx < s.err := by omega
      refine ⟨_, lineBody_next hok hend, rfl, ?_⟩
      by_cases hdown : s.err < p.absDy
      · obtain ⟨hj, hj'⟩ := hbal.range (by omega) hk (by omega)
        have hbal' := hbal.bothStep (by omega) hdown
        obtain ⟨-, hj''⟩ := hbal'.range (by omega) (by omega) (by omega)
        obtain ⟨hrow, hone', -⟩ := coordinate_step hp.sy hp.y2_sum hon.row hj (by omega)
        simp only [if_pos hright, if_pos hdown]
        refine ⟨.flat (j + 1) hflat ?_ ⟨hcol, hrow⟩, ⟨hone.le, hone'.le, fun _ => hone, fun hge => by omega⟩⟩
        rwa [sint_of_range (x := s.err - p.absDy) (by omega) (by omega), sint_of_range (by omega) (by omega)]
      · simp only [if_pos hright, if_neg hdown]
        refine ⟨.flat j hflat ?_ ⟨hcol, hon.row⟩,
          ⟨hone.le, by rw [dist_self]; omega, fun _ => hone, fun hge => by omega⟩⟩
        rw [sint_of_range (by omega) (by omega)]
        exact hbal.longStep (by omega) (by omega)
  | steep i hsteep hbal hon =>
      obtain ⟨hrow, hone, hne⟩ := coordinate_step hp.sy hp.y2_sum hon.row hk (show k < p.absDy by omega)
      have hend : ¬ (s.x = p.x2 ∧ s.y = p.y2) := fun h => hne (h.2.trans hp.y2_eq)
      have hnonneg := hbal.nonneg
      have hless := hbal.lt
      have hdown : s.err < p.absDy := by omega
      refine ⟨_, lineBody_next hok hend, rfl, ?_⟩
      by_cases hright : -p.absDx < s.err
      · obtain ⟨hi, hi'⟩ := hbal.range (by omega) hk (by omega)
        have hbal' := hbal.bothStep (by omega) (by omega)
        obtain ⟨-, hi''⟩ := hbal'.range (by omega) (by omega) (by omega)
        obtain ⟨hcol, hone', -⟩ := coordinate_step hp.sx hp.x2_sum hon.column hi (by omega)
        simp only [if_pos hright, if_pos hdown]
        refine ⟨.steep (i + 1) hsteep ?_ ⟨hcol, hrow⟩, ⟨hone'.le, hone.le, fun _ => hone', fun _ => hone⟩⟩
        rw [sint_of_range (x := s.err - p.absDy) (by omega) (by omega), sint_of_range (by omega) (by omega)]
        have hneg : -(s.err - p.absDy + p.absDx) = -s.err - p.absDx + p.absDy := by ring
        rwa [hneg]
      · simp only [if_neg hright, if_pos hdown]
        refine ⟨.steep i hsteep ?_ ⟨hon.column, hrow⟩,
          ⟨by rw [dist_self]; omega, hone.le, fun hge => ?_, fun _ => hone⟩⟩
        · rw [sint_of_range (by omega) (by omega)]
          have hneg : -(s.err + p.absDx) = -s.err - p.absDx := by ring
          rw [hneg]
          exact hbal.longStep (by omega) (by omega)
        · -- on a diagonal the error term never holds a column back
          omega

theorem Progress.arrives (hp : Spans p x1 y1 x2 y2) (h : Progress p x1 y1 p.long s) :
    s.x = p.x2 ∧ s.y = p.y2 := by
  have hlong : p.long = max p.absDx p.absDy := rfl
  rw [hp.x2_eq, hp.y2_eq, ← UInt16.toNat_inj, ← UInt16.toNat_inj]
  have hx := hp.x2_sum
  have hy := hp.y2_sum
  cases h with
  | flat j hflat hbal hon =>
      rw [hlong, max_eq_left hflat.le] at hbal hon
      have hj := hbal.arrives
      have hcol := hon.column
      have hrow := hon.row
      rw [hj] at hrow
      omega
  | steep i hsteep hbal hon =>
      rw [hlong, max_eq_right hsteep] at hbal hon
      have hi := hbal.arrives
      have hcol := hon.column
      have hrow := hon.row
      rw [hi] at hcol
      omega

end Rounds

def LineState.pixel (s : LineState) : UInt16 × UInt16 := (s.x, s.y)

def plotAll (dev : VbeDevice) (color : VbeColor) (fb : Mem) (pixels : List (UInt16 × UInt16)) : Mem :=
  pixels.foldl (fun fb q => (vbePutPixel dev fb q.1 q.2 color).2) fb

/-- What the rounds from some state on plot: a chain of pixels that ends at the end point. -/
structure Plots (dev : VbeDevice) (color : VbeColor) (x1 y1 x2 y2 : UInt16) (s : LineState) (n : Nat)
    (states : List LineState) : Prop where
  trace : Trace (lineBody dev color (lineParams x1 y1 x2 y2)) s states
    (.ok, plotAll dev color s.fb (states.map LineState.pixel))
  length : states.length = n + 1
  last : (states.map LineState.pixel).getLast? = some (x2, y2)
  inBox : ∀ q ∈ states.map LineState.pixel,
    (min x1.toNat x2.toNat ≤ q.1.toNat ∧ q.1.toNat ≤ max x1.toNat x2.toNat) ∧
      min y1.toNat y2.toNat ≤ q.2.toNat ∧ q.2.toNat ≤ max y1.toNat y2.toNat
  adjacent : (states.map LineState.pixel).IsChain (Adjacent x1 y1 x2 y2)

section Run

variable {x1 y1 x2 y2 : UInt16}

theorem plots_last (hd : Ready dev) (hx : x2 < dev.width)
    (hy : y2 < dev.height) {color : VbeColor} {s : LineState}
    (hsx : s.x = x2) (hsy : s.y = y2) : Plots dev color x1 y1 x2 y2 s 0 [s] := by
  have hok : (vbePutPixel dev s.fb s.x s.y color).1 = .ok := vbePutPixel_ok hd s.fb (hsx ▸ hx) (hsy ▸ hy) color
  refine ⟨.stop (lineBody_stop hok ⟨hsx, hsy⟩), rfl, by simp [LineState.pixel, hsx, hsy], ?_,
    List.isChain_singleton _⟩
  intro q hq
  obtain rfl : q = s.pixel := by simpa using hq
  simp only [LineState.pixel, hsx, hsy]
  omega

/-- Induction on the rounds that are left: every one of them plots its pixel and goes on
to a neighbour. -/
theorem plots_of_progress (hd : Ready dev) (hx1 : x1 < dev.width) (hy1 : y1 < dev.height) (hx2 : x2 < dev.width)
    (hy2 : y2 < dev.height) (color : VbeColor) (n : Nat) :
    ∀ {k : Int} {s : LineState}, 0 ≤ k → k + n = (lineParams x1 y1 x2 y2).long →
      Progress (lineParams x1 y1 x2 y2) x1 y1 k s → ∃ states, Plots dev color x1 y1 x2 y2 s n states := by
  have hp := lineParams_spans x1 y1 x2 y2
  rw [UInt16.lt_iff_toNat_lt] at hx1 hy1
  induction n with
  | zero =>
      intro k s _ hsum hprogress
      obtain rfl : k = (lineParams x1 y1 x2 y2).long := by omega
      obtain ⟨hsx, hsy⟩ := hprogress.arrives hp
      exact ⟨[s], plots_last hd hx2 hy2 (hsx.trans hp.x2_eq) (hsy.trans hp.y2_eq)⟩
  | succ n ih =>
      intro k s hk hsum hprogress
      have hwide := UInt16.lt_iff_toNat_lt.mp hx2
      have hhigh := UInt16.lt_iff_toNat_lt.mp hy2
      have hbox := hprogress.inBox hp hk (by omega)
      have hok : (vbePutPixel dev s.fb s.x s.y color).1 = .ok :=
        vbePutPixel_ok hd s.fb (UInt16.lt_iff_toNat_lt.mpr (by omega))
          (UInt16.lt_iff_toNat_lt.mpr (by omega)) color
      obtain ⟨t, hbody, hfb, hnext, hadj⟩ := hprogress.step hp hk (by omega) hok
      obtain ⟨states, hplots⟩ := ih (show 0 ≤ k + 1 by omega) (by omega) hnext
      obtain ⟨rest, rfl⟩ := List.head?_eq_some_iff.mp hplots.trace.head
      have htrace := hplots.trace
      rw [hfb] at htrace
      refine ⟨s :: t :: rest, .next hbody htrace, by rw [List.length_cons, hplots.length], ?_, ?_, ?_⟩
      · rw [List.map_cons, List.map_cons, List.getLast?_cons_cons, ← List.map_cons]
        exact hplots.last
      · intro q hq
        rcases List.mem_cons.mp hq with rfl | hq
        · exact hbox
        · exact hplots.inBox q hq
      · exact List.isChain_cons_cons.mpr ⟨hadj, hplots.adjacent⟩

/-- `vbe_draw_line` succeeds after as many rounds as the line has pixels. It plots, in its
rounds, a chain of neighbouring pixels from the first to the second end point, inside their
bounding box and with one pixel for each coordinate of the longer axis. -/
theorem vbe_draw_line_spec (hd : Ready dev) (hx1 : x1 < dev.width) (hy1 : y1 < dev.height) (hx2 : x2 < dev.width)
    (hy2 : y2 < dev.height) (fb : Mem) (color : VbeColor) :
    ∃ states, Trace (lineBody dev color (lineParams x1 y1 x2 y2)) (lineStart fb x1 y1 x2 y2) states
        (.ok, plotAll dev color fb (states.map LineState.pixel)) ∧
      Line x1 y1 x2 y2 (states.map LineState.pixel) ∧
      ∀ rounds, vbeDrawLine dev fb x1 y1 x2 y2 color rounds =
        if states.length ≤ rounds then some (.ok, plotAll dev color fb (states.map LineState.pixel)) else none := by
  have hp := lineParams_spans x1 y1 x2 y2
  have hax := hp.absDx
  have hay := hp.absDy
  obtain ⟨states, hplots⟩ : ∃ states, Plots dev color x1 y1 x2 y2 (lineStart fb x1 y1 x2 y2)
      (max (dist x1 x2) (dist y1 y2)) states := by
    by_cases hpoint : max (dist x1 x2) (dist y1 y2) = 0
    · rw [hpoint]
      have hx : x1 = x2 := UInt16.toNat_inj.mp (by unfold dist at hpoint; omega)
      have hy : y1 = y2 := UInt16.toNat_inj.mp (by unfold dist at hpoint; omega)
      exact ⟨_, plots_last hd hx2 hy2 hx hy⟩
    · refine plots_of_progress hd hx1 hy1 hx2 hy2 color _ le_rfl (by unfold LineParams.long; omega) ?_
      have hon : OnLine (lineParams x1 y1 x2 y2) x1 y1 0 0 (lineStart fb x1 y1 x2 y2) :=
        ⟨by simp [lineStart], by simp [lineStart]⟩
      rcases lt_or_ge (lineParams x1 y1 x2 y2).absDy (lineParams x1 y1 x2 y2).absDx with hflat | hsteep
      · have hbal := @Balanced.start _ (lineParams x1 y1 x2 y2).absDy
          (show 0 < (lineParams x1 y1 x2 y2).absDx by omega)
        rw [← firstErr_flat (by omega) hflat] at hbal
        exact .flat 0 hflat hbal hon
      · have hbal := @Balanced.start _ (lineParams x1 y1 x2 y2).absDx
          (show 0 < (lineParams x1 y1 x2 y2).absDy by omega)
        rw [← firstErr_steep (by omega) hsteep] at hbal
        exact .steep 0 hsteep hbal hon
  refine ⟨states, hplots.trace, ⟨by rw [List.length_map, hplots.length], ?_, hplots.last, hplots.inBox,
    hplots.adjacent⟩, fun rounds => ?_⟩
  · rw [List.head?_map, hplots.trace.head]
    rfl
  · split_ifs with hrounds
    · obtain ⟨extra, rfl⟩ := Nat.exists_eq_add_of_le hrounds
      exact hplots.trace.iterate_eq extra
    · exact hplots.trace.iterate_none rounds (not_le.mp hrounds)

end Run

/-- From one corner of an empty screen to the one across. -/
theorem vbe_draw_line_diagonal :
    ∃ states, Trace (lineBody (screenOf 32 2560) vbeColorWhite (lineParams 0 0 639 479))
        (lineStart (fun _ => 0#8) 0 0 639 479) states
        (.ok, plotAll (screenOf 32 2560) vbeColorWhite (fun _ => 0#8) (states.map LineState.pixel)) ∧
      Line 0 0 639 479 (states.map LineState.pixel) ∧
      ∀ rounds, vbeDrawLine (screenOf 32 2560) (fun _ => 0#8) 0 0 639 479 vbeColorWhite rounds =
        if states.length ≤ rounds then
          some (.ok, plotAll (screenOf 32 2560) vbeColorWhite (fun _ => 0#8) (states.map LineState.pixel))
        else none :=
  vbe_draw_line_spec ⟨rfl, by decide⟩ (by decide) (by decide) (by decide) (by decide) _ _

end Frostix.Drivers
