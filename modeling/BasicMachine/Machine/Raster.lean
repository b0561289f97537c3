/-!
# Lines on a raster

The points of a straight line between two points, both of them included, and those of the border of a box.
-/
namespace BasicMachine.Raster

structure Point where
  x : Int
  y : Int
  deriving DecidableEq, Repr

/-- One step from `from` towards `to`. -/
def direction (start finish : Int) : Int := if start < finish then 1 else -1

/-- The rest of a line to `finish`. `slack` is the error of the current point: a step along x adds `dy` to it, a step
along y adds `dx`, where `dx` is the width of the line and `dy` its height with a minus sign. `before` holds the points
before, the last first. -/
def lineFrom (finish : Point) (dx dy sx sy : Int) : (fuel : Nat) → (p : Point) → (slack : Int) →
    (before : List Point) → List Point
  | 0, p, _, before => (p :: before).reverse
  | fuel + 1, p, slack, before =>
    if p = finish then (p :: before).reverse
    else
      let alongX := dy ≤ 2 * slack
      let alongY := 2 * slack ≤ dx
      let next : Point := ⟨if alongX then p.x + sx else p.x, if alongY then p.y + sy else p.y⟩
      let slack := slack + (if alongX then dy else 0) + (if alongY then dx else 0)
      lineFrom finish dx dy sx sy fuel next slack (p :: before)

/-- The points from `start` to `finish`. Every step goes along an axis at least, so that the sum of width and height
bounds their number. -/
def line (start finish : Point) : List Point :=
  let dx := (finish.x - start.x).natAbs
  let dy := (finish.y - start.y).natAbs
  lineFrom finish dx (-dy) (direction start.x finish.x) (direction start.y finish.y) (dx + dy) start (dx - dy) []

/-- The border of the box between two corners, side by side. -/
def box (first second : Point) : List Point :=
  let right : Point := ⟨second.x, first.y⟩
  let left : Point := ⟨first.x, second.y⟩
  line first right ++ line right second ++ line second left ++ line left first

end BasicMachine.Raster
