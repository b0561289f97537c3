import BasicMachine.Machine.Scripted
import Mathlib.Tactic.Ring

/-!
# Straight lines

A line is drawn by a loop without a counter, which ends when both coordinates are those of the last point. The slack of a
point is its distance from the line, up to a constant. No turn of the loop lets it grow beyond half the longer side, so
each turn goes on along the longer side, and where that side ends the other one does too.
-/
namespace BasicMachine.Raster

theorem Point.eq {p q : Point} (x : p.x = q.x) (y : p.y = q.y) : p = q := by
  cases p
  cases q
  simp_all

/-- The two ends of a line. -/
structure Line where
  start : Point
  finish : Point

/-- Where the loop is: the point to be set and its slack. -/
structure Pen where
  point : Point
  slack : Int

namespace Line

def width (l : Line) : Int := (l.finish.x - l.start.x).natAbs

def height (l : Line) : Int := (l.finish.y - l.start.y).natAbs

/-- The length of the longer side. -/
def span (l : Line) : Nat := max (l.finish.x - l.start.x).natAbs (l.finish.y - l.start.y).natAbs

def stepX (l : Line) : Int := direction l.start.x l.finish.x

def stepY (l : Line) : Int := direction l.start.y l.finish.y

/-- One turn of the loop. -/
def turn (l : Line) (pen : Pen) : Pen where
  point :=
    ⟨if -l.height ≤ 2 * pen.slack then pen.point.x + l.stepX else pen.point.x,
      if 2 * pen.slack ≤ l.width then pen.point.y + l.stepY else pen.point.y⟩
  slack :=
    pen.slack + (if -l.height ≤ 2 * pen.slack then -l.height else 0) + (if 2 * pen.slack ≤ l.width then l.width else 0)

/-- The pen after a number of turns. -/
def pen (l : Line) : Nat → Pen
  | 0 => ⟨l.start, l.width - l.height⟩
  | k + 1 => l.turn (l.pen k)

/-- How far the point lies off the line, times the length of the line and with a sign. -/
def deviation (l : Line) (p : Point) : Int :=
  (l.finish.x - l.start.x) * (p.y - l.start.y) - (l.finish.y - l.start.y) * (p.x - l.start.x)

/-- The point lies in the rectangle that has the ends of the line as corners. -/
def Spans (l : Line) (p : Point) : Prop :=
  (min l.start.x l.finish.x ≤ p.x ∧ p.x ≤ max l.start.x l.finish.x) ∧
    min l.start.y l.finish.y ≤ p.y ∧ p.y ≤ max l.start.y l.finish.y

/-- The pen after `k` turns, `u` of them along x and `v` along y. -/
structure Near (l : Line) (k : Nat) (u v : Int) (pen : Pen) : Prop where
  x : pen.point.x = l.start.x + l.stepX * u
  y : pen.point.y = l.start.y + l.stepY * v
  slack : pen.slack = l.width * v - l.height * u + l.width - l.height
  longer : l.height ≤ l.width ∧ u = k ∧ 0 ≤ v ∧ v ≤ k ∨ l.width < l.height ∧ v = k ∧ 0 ≤ u ∧ u ≤ k
  above : -(l.span : Int) ≤ 2 * (l.width * v - l.height * u)
  below : 2 * (l.width * v - l.height * u) ≤ l.span

section
variable (l : Line)

theorem span_cases : l.height ≤ l.width ∧ (l.span : Int) = l.width ∨ l.width < l.height ∧ (l.span : Int) = l.height := by
  simp only [span, width, height]
  omega

theorem width_nonneg : 0 ≤ l.width := Int.natCast_nonneg _

theorem height_nonneg : 0 ≤ l.height := Int.natCast_nonneg _

theorem stepX_cases : l.stepX = 1 ∧ l.width = l.finish.x - l.start.x ∨ l.stepX = -1 ∧ l.width = l.start.x - l.finish.x := by
  unfold stepX direction width
  split <;> omega

theorem stepY_cases :
    l.stepY = 1 ∧ l.height = l.finish.y - l.start.y ∨ l.stepY = -1 ∧ l.height = l.start.y - l.finish.y := by
  unfold stepY direction height
  split <;> omega

theorem near_zero : l.Near 0 0 0 (l.pen 0) where
  x := by simp only [pen]; omega
  y := by simp only [pen]; omega
  slack := by simp only [pen]; omega
  longer := by omega
  above := by omega
  below := by omega

end

section
variable {l : Line} {k : Nat} {u v : Int} {pen : Pen}

/-- Each turn goes along the longer side, and along the shorter one where the point would lie too far off otherwise. -/
theorem Near.turn (h : l.Near k u v pen) : ∃ u' v', l.Near (k + 1) u' v' (l.turn pen) := by
  obtain ⟨x, y, slack, longer, above, below⟩ := h
  have right : l.width * (v + 1) = l.width * v + l.width := by rw [Int.mul_add, Int.mul_one]
  have down : l.height * (u + 1) = l.height * u + l.height := by rw [Int.mul_add, Int.mul_one]
  have alongX : l.stepX * (u + 1) = l.stepX * u + l.stepX := by rw [Int.mul_add, Int.mul_one]
  have alongY : l.stepY * (v + 1) = l.stepY * v + l.stepY := by rw [Int.mul_add, Int.mul_one]
  have := l.width_nonneg
  have := l.height_nonneg
  rcases longer with ⟨wide, turns, positive⟩ | ⟨tall, turns, positive⟩
  · have span : (l.span : Int) = l.width := by have := l.span_cases; omega
    have goes : -l.height ≤ 2 * pen.slack := by omega
    by_cases also : 2 * pen.slack ≤ l.width
    · refine ⟨u + 1, v + 1, ?_, ?_, ?_, .inl ⟨wide, by omega⟩, by omega, by omega⟩
      all_goals simp only [Line.turn, if_pos goes, if_pos also]; omega
    · refine ⟨u + 1, v, ?_, ?_, ?_, .inl ⟨wide, by omega⟩, by omega, by omega⟩
      all_goals simp only [Line.turn, if_pos goes, if_neg also]; omega
  · have span : (l.span : Int) = l.height := by have := l.span_cases; omega
    have goes : 2 * pen.slack ≤ l.width := by omega
    by_cases also : -l.height ≤ 2 * pen.slack
    · refine ⟨u + 1, v + 1, ?_, ?_, ?_, .inr ⟨tall, by omega⟩, by omega, by omega⟩
      all_goals simp only [Line.turn, if_pos goes, if_pos also]; omega
    · refine ⟨u, v + 1, ?_, ?_, ?_, .inr ⟨tall, by omega⟩, by omega, by omega⟩
      all_goals simp only [Line.turn, if_pos goes, if_neg also]; omega

theorem near_pen (l : Line) (k : Nat) : ∃ u v, l.Near k u v (l.pen k) := by
  induction k with
  | zero => exact ⟨0, 0, l.near_zero⟩
  | succ k ih =>
    obtain ⟨u, v, near⟩ := ih
    exact near.turn

/-- A product of sides that is half a side off another one is equal to it. -/
theorem eq_of_mul_near {side m n : Int} (positive : 0 < side) (above : -side ≤ 2 * (side * m - side * n))
    (below : 2 * (side * m - side * n) ≤ side) : m = n := by
  rcases Int.lt_trichotomy m n with less | same | more
  · have : side * (m + 1) ≤ side * n := Int.mul_le_mul_of_nonneg_left (by omega) (by omega)
    rw [Int.mul_add, Int.mul_one] at this
    omega
  · exact same
  · have : side * (n + 1) ≤ side * m := Int.mul_le_mul_of_nonneg_left (by omega) (by omega)
    rw [Int.mul_add, Int.mul_one] at this
    omega

/-- A multiple of a side that is half the side above a smaller product is no larger than that product allows. -/
theorem le_of_mul_near {side other m n : Int} (positive : 0 < side) (few : other * n ≤ other * side)
    (below : 2 * (side * m - other * n) ≤ side) : m ≤ other := by
  refine Int.not_lt.mp fun more => ?_
  have : side * (other + 1) ≤ side * m := Int.mul_le_mul_of_nonneg_left (by omega) (by omega)
  rw [Int.mul_add, Int.mul_one, Int.mul_comm side other] at this
  omega

/-- Up to the last turn neither side is left. -/
theorem Near.within (h : l.Near k u v pen) (early : k ≤ l.span) : (0 ≤ u ∧ u ≤ l.width) ∧ 0 ≤ v ∧ v ≤ l.height := by
  obtain ⟨-, -, -, longer, above, below⟩ := h
  have := l.width_nonneg
  have := l.height_nonneg
  rcases longer with ⟨wide, turns, least, most⟩ | ⟨tall, turns, least, most⟩
  · have span : (l.span : Int) = l.width := by have := l.span_cases; omega
    refine ⟨by omega, least, ?_⟩
    by_cases positive : 0 < l.width
    · have : l.height * u ≤ l.height * l.width := Int.mul_le_mul_of_nonneg_left (by omega) l.height_nonneg
      exact le_of_mul_near positive this (by omega)
    · omega
  · have span : (l.span : Int) = l.height := by have := l.span_cases; omega
    have : l.width * v ≤ l.width * l.height := Int.mul_le_mul_of_nonneg_left (by omega) l.width_nonneg
    exact ⟨⟨least, le_of_mul_near (by omega) this (by omega)⟩, by omega, by omega⟩

/-- At the last turn both sides end. -/
theorem Near.at_end (h : l.Near l.span u v pen) : pen.point = l.finish := by
  have within := h.within (Nat.le_refl _)
  obtain ⟨x, y, -, longer, above, below⟩ := h
  have ends : u = l.width ∧ v = l.height := by
    have := l.width_nonneg
    have := l.height_nonneg
    rcases longer with ⟨wide, turns, least, most⟩ | ⟨tall, turns, least, most⟩
    · have span : (l.span : Int) = l.width := by have := l.span_cases; omega
      have all : u = l.width := turns.trans span
      rw [all, Int.mul_comm l.height] at above below
      by_cases positive : 0 < l.width
      · exact ⟨all, eq_of_mul_near positive (by omega) (by omega)⟩
      · omega
    · have span : (l.span : Int) = l.height := by have := l.span_cases; omega
      have all : v = l.height := turns.trans span
      rw [all, Int.mul_comm l.width] at above below
      have positive : 0 < l.height := by omega
      exact ⟨eq_of_mul_near positive (by omega) (by omega), all⟩
  rw [ends.1] at x
  rw [ends.2] at y
  obtain ⟨⟨px, py⟩, slack⟩ := pen
  have endX : px = l.finish.x := by
    rcases l.stepX_cases with ⟨step, width⟩ | ⟨step, width⟩ <;> rw [step] at x <;> simp only at x <;> omega
  have endY : py = l.finish.y := by
    rcases l.stepY_cases with ⟨step, height⟩ | ⟨step, height⟩ <;> rw [step] at y <;> simp only at y <;> omega
  rw [endX, endY]

/-- Before the last turn the longer side has not come to its end. -/
theorem Near.ne_finish (h : l.Near k u v pen) (early : k < l.span) : pen.point ≠ l.finish := by
  obtain ⟨x, y, -, longer, -, -⟩ := h
  intro same
  rw [same] at x y
  rcases longer with ⟨wide, turns, -⟩ | ⟨tall, turns, -⟩
  · have span : (l.span : Int) = l.width := by have := l.span_cases; omega
    rcases l.stepX_cases with ⟨step, width⟩ | ⟨step, width⟩ <;> rw [step] at x <;> omega
  · have span : (l.span : Int) = l.height := by have := l.span_cases; omega
    rcases l.stepY_cases with ⟨step, height⟩ | ⟨step, height⟩ <;> rw [step] at y <;> omega

theorem Near.spans (h : l.Near k u v pen) (early : k ≤ l.span) : l.Spans pen.point := by
  obtain ⟨horizontal, vertical⟩ := h.within early
  have x := h.x
  have y := h.y
  unfold Spans
  constructor
  · rcases l.stepX_cases with ⟨step, width⟩ | ⟨step, width⟩ <;> rw [step] at x <;> omega
  · rcases l.stepY_cases with ⟨step, height⟩ | ⟨step, height⟩ <;> rw [step] at y <;> omega

/-- No point is further off the line than half a point along the shorter side. -/
theorem Near.deviation (h : l.Near k u v pen) : (2 * l.deviation pen.point).natAbs ≤ l.span := by
  have x : pen.point.x - l.start.x = l.stepX * u := by have := h.x; omega
  have y : pen.point.y - l.start.y = l.stepY * v := by have := h.y; omega
  have above := h.above
  have below := h.below
  have width : l.finish.x - l.start.x = l.stepX * l.width := by
    rcases l.stepX_cases with ⟨step, width⟩ | ⟨step, width⟩ <;> rw [step] <;> omega
  have height : l.finish.y - l.start.y = l.stepY * l.height := by
    rcases l.stepY_cases with ⟨step, height⟩ | ⟨step, height⟩ <;> rw [step] <;> omega
  have product : l.deviation pen.point = l.stepX * l.stepY * (l.width * v - l.height * u) := by
    rw [Line.deviation, x, y, width, height]
    ring
  have unit : (l.stepX * l.stepY).natAbs = 1 := by
    rcases l.stepX_cases with ⟨stepX, -⟩ | ⟨stepX, -⟩ <;> rcases l.stepY_cases with ⟨stepY, -⟩ | ⟨stepY, -⟩ <;>
      rw [stepX, stepY] <;> rfl
  rw [product, Int.natAbs_mul, Int.natAbs_mul, unit, Nat.one_mul]
  show 2 * (l.width * v - l.height * u).natAbs ≤ l.span
  omega

end

/-! ## The points of a line -/

section
variable (l : Line)

/-- The points from that of the `k`-th turn on. -/
def pointsFrom (k : Nat) : List Point := (List.range' k (l.span + 1 - k)).map fun i => (l.pen i).point

theorem pointsFrom_eq_cons {k : Nat} (early : k ≤ l.span) :
    l.pointsFrom k = (l.pen k).point :: l.pointsFrom (k + 1) := by
  rw [pointsFrom, show l.span + 1 - k = l.span + 1 - (k + 1) + 1 by omega, List.range'_succ]
  rfl

theorem pointsFrom_span : l.pointsFrom l.span = [(l.pen l.span).point] := by
  rw [pointsFrom_eq_cons l (Nat.le_refl _), pointsFrom, Nat.sub_self]
  rfl

/-- The loop of a line ends where its last point is, not where its fuel is spent. -/
theorem lineFrom_pen {k fuel : Nat} (early : k ≤ l.span) (enough : l.span - k ≤ fuel) (before : List Point) :
    lineFrom l.finish l.width (-l.height) l.stepX l.stepY fuel (l.pen k).point (l.pen k).slack before =
      before.reverse ++ l.pointsFrom k := by
  obtain ⟨u, v, near⟩ := l.near_pen k
  rcases Nat.lt_or_eq_of_le early with early | rfl
  · obtain ⟨fuel, rfl⟩ := Nat.exists_eq_add_of_lt (show 0 < fuel by omega)
    rw [Nat.zero_add, lineFrom, if_neg (near.ne_finish early)]
    have later := @lineFrom_pen (k + 1) fuel (by omega) (by omega) ((l.pen k).point :: before)
    rw [pointsFrom_eq_cons l (Nat.le_of_lt early), List.append_cons]
    rw [List.reverse_cons] at later
    exact later
  · rw [pointsFrom_span]
    cases fuel with
    | zero => rw [lineFrom, List.reverse_cons]
    | succ fuel => rw [lineFrom, if_pos near.at_end, List.reverse_cons]
termination_by l.span - k

theorem line_eq : line l.start l.finish = l.pointsFrom 0 := by
  have enough : l.span - 0 ≤ (l.finish.x - l.start.x).natAbs + (l.finish.y - l.start.y).natAbs := by
    rw [span]
    omega
  have := l.lineFrom_pen (Nat.zero_le _) enough []
  exact this

theorem length_line : (line l.start l.finish).length = l.span + 1 := by
  rw [line_eq, pointsFrom, List.length_map, List.length_range', Nat.sub_zero]

theorem line_getElem? {k : Nat} (early : k ≤ l.span) : (line l.start l.finish)[k]? = some (l.pen k).point := by
  rw [line_eq, pointsFrom, List.getElem?_map, List.getElem?_range' (by omega)]
  simp

theorem mem_line {p : Point} : p ∈ line l.start l.finish ↔ ∃ k ≤ l.span, (l.pen k).point = p := by
  rw [line_eq, pointsFrom, List.mem_map]
  simp [List.mem_range', Nat.lt_succ_iff]

theorem adjacent (k : Nat) :
    ((l.pen (k + 1)).point.x - (l.pen k).point.x).natAbs ≤ 1 ∧ ((l.pen (k + 1)).point.y - (l.pen k).point.y).natAbs ≤ 1 := by
  simp only [pen, turn]
  have := l.stepX_cases
  have := l.stepY_cases
  constructor <;> split <;> omega

/-- A line along one of the axes has all the points between its ends. -/
theorem mem_line_of_straight (straight : l.width = 0 ∨ l.height = 0) {p : Point} :
    p ∈ line l.start l.finish ↔ l.Spans p := by
  refine ⟨fun member => ?_, fun spans => ?_⟩
  · obtain ⟨k, early, rfl⟩ := l.mem_line.mp member
    obtain ⟨u, v, near⟩ := l.near_pen k
    exact near.spans early
  · obtain ⟨⟨left, right⟩, down, up⟩ := spans
    have turnsX : ((p.x - l.start.x).natAbs : Int) ≤ l.width := by have := l.stepX_cases; have := l.width_nonneg; omega
    have turnsY : ((p.y - l.start.y).natAbs : Int) ≤ l.height := by have := l.stepY_cases; have := l.height_nonneg; omega
    generalize turns : (p.x - l.start.x).natAbs + (p.y - l.start.y).natAbs = k
    have early : k ≤ l.span := by have := l.span_cases; omega
    obtain ⟨u, v, near⟩ := l.near_pen k
    have within := near.within early
    have counts : u = (p.x - l.start.x).natAbs ∧ v = (p.y - l.start.y).natAbs := by have := near.longer; omega
    have x := near.x
    have y := near.y
    refine l.mem_line.mpr ⟨k, early, Point.eq ?_ ?_⟩
    · rcases l.stepX_cases with ⟨step, width⟩ | ⟨step, width⟩ <;> rw [step] at x <;> omega
    · rcases l.stepY_cases with ⟨step, height⟩ | ⟨step, height⟩ <;> rw [step] at y <;> omega

end

end Line

/-! ## Boxes -/

/-- The point lies on one of the sides of the rectangle between two corners. -/
def OnBorder (first second p : Point) : Prop :=
  Line.Spans ⟨first, second⟩ p ∧ (p.x = first.x ∨ p.x = second.x ∨ p.y = first.y ∨ p.y = second.y)

theorem mem_box {first second p : Point} : p ∈ box first second ↔ OnBorder first second p := by
  have side (start finish : Point) (straight : start.x = finish.x ∨ start.y = finish.y) :
      p ∈ line start finish ↔ Line.Spans ⟨start, finish⟩ p :=
    Line.mem_line_of_straight ⟨start, finish⟩ (by simp only [Line.width, Line.height]; omega)
  simp only [box, List.mem_append]
  rw [side first ⟨second.x, first.y⟩ (.inr rfl), side ⟨second.x, first.y⟩ second (.inl rfl),
    side second ⟨first.x, second.y⟩ (.inr rfl), side ⟨first.x, second.y⟩ first (.inl rfl)]
  simp only [OnBorder, Line.Spans]
  omega

/-! ## The loop in words of 32 bits -/

/-- The number is one of 16 bits. -/
def IsShort (n : Int) : Prop := -32768 ≤ n ∧ n ≤ 32767

/-- The number is one of 32 bits. -/
def IsLong (n : Int) : Prop := -2147483648 ≤ n ∧ n ≤ 2147483647

namespace Line

/-- What is computed before the loop fits words of 32 bits. -/
structure Measured (l : Line) : Prop where
  distances : IsLong (l.finish.x - l.start.x) ∧ IsLong (l.finish.y - l.start.y)
  sides : IsLong l.width ∧ IsLong (-l.height)
  slack : IsLong (l.width - l.height)

/-- What one turn of the loop computes fits words of 32 bits. -/
structure Computed (l : Line) (pen : Pen) : Prop where
  double : IsLong (2 * pen.slack)
  between : IsLong (pen.slack + if -l.height ≤ 2 * pen.slack then -l.height else 0)
  slack : IsLong (l.turn pen).slack
  point : IsLong (l.turn pen).point.x ∧ IsLong (l.turn pen).point.y

/-- The loop itself, without any count of its turns: the points that it sets from a pen on, all of them of 16 bits. -/
inductive Draws (l : Line) : Pen → List Point → Prop
  | last {pen : Pen} (short : IsShort pen.point.x ∧ IsShort pen.point.y) (done : pen.point = l.finish) :
      Draws l pen [pen.point]
  | next {pen : Pen} {later : List Point} (short : IsShort pen.point.x ∧ IsShort pen.point.y)
      (going : pen.point ≠ l.finish) (computed : l.Computed pen) (draws : Draws l (l.turn pen) later) :
      Draws l pen (pen.point :: later)

section
variable {l : Line} (start : IsShort l.start.x ∧ IsShort l.start.y) (finish : IsShort l.finish.x ∧ IsShort l.finish.y)
include start finish

theorem measured : l.Measured := by
  obtain ⟨⟨_, _⟩, _, _⟩ := start
  obtain ⟨⟨_, _⟩, _, _⟩ := finish
  have := l.stepX_cases
  have := l.stepY_cases
  refine ⟨⟨?_, ?_⟩, ⟨?_, ?_⟩, ?_⟩ <;> rw [IsLong] <;> omega

theorem Spans.short {p : Point} (spans : l.Spans p) : IsShort p.x ∧ IsShort p.y := by
  simp only [Spans, IsShort] at *
  omega

theorem Near.computed {k : Nat} {u v : Int} {pen : Pen} (near : l.Near k u v pen) (early : k < l.span) : l.Computed pen := by
  obtain ⟨u', v', next⟩ := near.turn
  obtain ⟨shortX, shortY⟩ := (next.spans early).short start finish
  obtain ⟨-, ⟨_, _⟩, -⟩ := measured start finish
  have size : l.width ≤ 65535 ∧ l.height ≤ 65535 := by
    have := l.stepX_cases
    have := l.stepY_cases
    simp only [IsShort] at start finish
    omega
  have := l.width_nonneg
  have := l.height_nonneg
  have := l.span_cases
  have slack : -131070 ≤ pen.slack ∧ pen.slack ≤ 131070 := by
    have := near.slack
    have := near.above
    have := near.below
    omega
  refine ⟨?_, ?_, ?_, ?_⟩
  · rw [IsLong]
    omega
  · rw [IsLong]
    split <;> omega
  · rw [IsLong, Line.turn]
    split <;> split <;> simp only <;> omega
  · simp only [IsLong, IsShort] at shortX shortY ⊢
    omega

theorem draws_pen {k : Nat} (early : k ≤ l.span) : l.Draws (l.pen k) (l.pointsFrom k) := by
  obtain ⟨u, v, near⟩ := l.near_pen k
  have short := (near.spans early).short start finish
  rcases Nat.lt_or_eq_of_le early with early | rfl
  · rw [pointsFrom_eq_cons l (Nat.le_of_lt early)]
    exact .next short (near.ne_finish early) (near.computed start finish early) (draws_pen early)
  · rw [pointsFrom_span]
    exact .last short near.at_end
termination_by l.span - k

end

end Line

end BasicMachine.Raster

namespace BasicMachine.Session

open Raster

variable {σ : Type}

/-- What becomes of a host that is asked one thing after the other. -/
def told (host : Host σ) (calls : List HostCall) (t : σ) : σ := calls.foldl (fun t call => (host call t).2) t

/-- The call that sets a point. -/
def pixelCall (colour : UInt8) (p : Point) : HostCall := .setPixel (Int16.ofInt p.x) (Int16.ofInt p.y) colour

theorem plot_eq (host : Host σ) (colour : UInt8) (points : List Point) (m : Machine) (t : σ) :
    plot host colour points ⟨m, t⟩ = .ok () ⟨m, told host (points.map (pixelCall colour)) t⟩ := by
  induction points generalizing t with
  | nil => rfl
  | cons p rest ih => exact ih _

theorem serve_line {m m' : Machine} {first second : Point} {colour : UInt8} (host : Host σ) (r : Register) (room : Nat) (t : σ)
    (popped : popLine m = .ok (first, second, colour) m') :
    serve host r room .line ⟨m, t⟩ = .ok (.next 0) ⟨m', told host ((line first second).map (pixelCall colour)) t⟩ ∧
      serve host r room .box ⟨m, t⟩ = .ok (.next 0) ⟨m', told host ((box first second).map (pixelCall colour)) t⟩ := by
  have taken : act (σ := σ) popLine ⟨m, t⟩ = .ok (first, second, colour) ⟨m', t⟩ := by rw [act, popped]
  constructor <;> simp only [serve, bind, EStateM.bind, taken, plot_eq] <;> rfl

theorem isShort_toInt (n : Int16) : IsShort n.toInt := ⟨n.le_toInt, n.toInt_le⟩

/-- Between any two points of 16 bits the loop of a line comes to its end, and no number that it computes leaves 32 bits.
It sets one point for each step along the longer side, from the first end to the last. Neighbours touch, and no point lies
outside the rectangle between the ends or more than half a point off the line. So a box is the border of its rectangle. -/
theorem lines_run_straight (x₁ y₁ x₂ y₂ : Int16) (colour : UInt8) :
    let l : Line := ⟨⟨x₁.toInt, y₁.toInt⟩, ⟨x₂.toInt, y₂.toInt⟩⟩
    let points := line l.start l.finish
    let span := max (x₂.toInt - x₁.toInt).natAbs (y₂.toInt - y₁.toInt).natAbs
    (l.Measured ∧ l.Draws ⟨l.start, l.width - l.height⟩ points) ∧ points.length = span + 1 ∧
      points.head? = some l.start ∧ points.getLast? = some l.finish ∧
      (∀ k p q, points[k]? = some p → points[k + 1]? = some q → (q.x - p.x).natAbs ≤ 1 ∧ (q.y - p.y).natAbs ≤ 1) ∧
      (∀ p ∈ points, l.Spans p ∧
        (2 * ((x₂.toInt - x₁.toInt) * (p.y - y₁.toInt) - (y₂.toInt - y₁.toInt) * (p.x - x₁.toInt))).natAbs ≤ span) ∧
      ∀ {σ : Type} (host : Host σ) (r : Register) (room : Nat) (m m' : Machine) (t : σ),
        popLine m = .ok (l.start, l.finish, colour) m' →
        serve host r room .line ⟨m, t⟩ = .ok (.next 0) ⟨m', told host (points.map (pixelCall colour)) t⟩ ∧
          ∃ cells : List (Int16 × Int16),
            serve host r room .box ⟨m, t⟩ =
              .ok (.next 0) ⟨m', told host (cells.map fun cell => .setPixel cell.1 cell.2 colour) t⟩ ∧
              ∀ x y, (x, y) ∈ cells ↔ OnBorder l.start l.finish ⟨x.toInt, y.toInt⟩ := by
  intro l points span
  have start : IsShort l.start.x ∧ IsShort l.start.y := ⟨isShort_toInt x₁, isShort_toInt y₁⟩
  have finish : IsShort l.finish.x ∧ IsShort l.finish.y := ⟨isShort_toInt x₂, isShort_toInt y₂⟩
  have length : points.length = span + 1 := l.length_line
  have inside {k : Nat} {p : Point} (found : points[k]? = some p) : k ≤ l.span ∧ (l.pen k).point = p := by
    obtain ⟨early, -⟩ := List.getElem?_eq_some_iff.mp found
    have early : k ≤ l.span := by rw [length] at early; exact Nat.le_of_lt_succ early
    exact ⟨early, Option.some.inj ((l.line_getElem? early).symm.trans found)⟩
  refine ⟨⟨Line.measured start finish, ?_⟩, length, ?_, ?_, ?_, ?_, ?_⟩
  · show l.Draws (l.pen 0) (line l.start l.finish)
    rw [l.line_eq]
    exact Line.draws_pen start finish (Nat.zero_le _)
  · rw [List.head?_eq_getElem?]
    exact l.line_getElem? (Nat.zero_le _)
  · obtain ⟨u, v, near⟩ := l.near_pen l.span
    rw [List.getLast?_eq_getElem?, length]
    exact (l.line_getElem? (Nat.le_refl _)).trans (congrArg some near.at_end)
  · intro k p q first second
    obtain ⟨-, rfl⟩ := inside first
    obtain ⟨-, rfl⟩ := inside second
    exact l.adjacent k
  · intro p member
    obtain ⟨k, early, rfl⟩ := l.mem_line.mp member
    obtain ⟨u, v, near⟩ := l.near_pen k
    exact ⟨near.spans early, near.deviation⟩
  · intro σ host r room m m' t popped
    obtain ⟨lined, boxed⟩ := serve_line host r room t popped
    refine ⟨lined, (box l.start l.finish).map fun p => (Int16.ofInt p.x, Int16.ofInt p.y), ?_, fun x y => ?_⟩
    · rw [boxed, List.map_map]
      rfl
    · rw [List.mem_map]
      refine ⟨?_, fun border => ⟨_, mem_box.mpr border, by rw [Int16.ofInt_toInt, Int16.ofInt_toInt]⟩⟩
      rintro ⟨p, member, same⟩
      have border := mem_box.mp member
      obtain ⟨shortX, shortY⟩ := border.1.short start finish
      simp only [Prod.mk.injEq] at same
      obtain ⟨rfl, rfl⟩ := same
      rwa [Int16.toInt_ofInt_of_le shortX.1 (Int.lt_add_one_of_le shortX.2),
        Int16.toInt_ofInt_of_le shortY.1 (Int.lt_add_one_of_le shortY.2)]

theorem lines_run_straight_widest :
    let m := Machine.new { memorySize := 0 }
    let full := { m with
      stack.items := #[.integer (-32768), .integer 32767, .integer 32767, .integer (-32767), .integer 7] }
    popLine full = .ok (⟨-32768, 32767⟩, ⟨32767, -32767⟩, 7) m ∧
      (line ⟨-32768, 32767⟩ ⟨32767, -32767⟩).length = 65536 ∧
      (∀ p ∈ line ⟨-32768, 32767⟩ ⟨32767, -32767⟩, (2 * (65535 * (p.y - 32767) - -65534 * (p.x - -32768))).natAbs ≤ 65535) ∧
      ∃ cells : List (Int16 × Int16),
        serve Script.host .a 0 .box ⟨full, {}⟩ =
          .ok (.next 0) ⟨m, told Script.host (cells.map fun cell => .setPixel cell.1 cell.2 7) {}⟩ ∧
          ∀ x y, (x, y) ∈ cells ↔ OnBorder ⟨-32768, 32767⟩ ⟨32767, -32767⟩ ⟨x.toInt, y.toInt⟩ := by
  intro m full
  have popped : popLine full = .ok (⟨-32768, 32767⟩, ⟨32767, -32767⟩, 7) m := rfl
  obtain ⟨-, length, -, -, -, near, served⟩ := lines_run_straight (-32768) 32767 32767 (-32767) 7
  exact ⟨popped, length, fun p member => (near p member).2, (served Script.host .a 0 full m {} popped).2⟩

end BasicMachine.Session
