import CodalMicrobit.Lib.Climb
import Mathlib.Analysis.Real.Sqrt

/-!
# Calibrating the compass

The samples that the user made by tilting the board around lie on an ellipsoid, more or less. Its centre is looked for by hill
climbing; then a scale for each axis is worked out that turns it into a sphere. All numbers are exact here: distances are integers
and square roots are real numbers.
-/

namespace CodalMicrobit

open Climb

/-- `Sample3D` -/
structure Sample3D where
  x : Int
  y : Int
  z : Int
  deriving DecidableEq, Repr

/-- `dSquared` -/
def Sample3D.dSquared (c s : Sample3D) : Int := (c.x - s.x) ^ 2 + (c.y - s.y) ^ 2 + (c.z - s.z) ^ 2

/-- `CompassCalibration` -/
structure CompassCalibration where
  centre : Sample3D
  scale : Sample3D
  radius : Int

namespace MicroBitCompassCalibrator

/-- `CALIBRATION_INCREMENT` -/
def CALIBRATION_INCREMENT : Int := 200

/-- `measureScore` -/
def measureScore (data : List Sample3D) (c : Sample3D) : Int :=
  match data with
  | [] => 0
  | s :: data =>
    let (minD, maxD) := data.foldl (fun (minD, maxD) s =>
      let d := c.dSquared s
      (if d < minD then d else minD, if d > maxD then d else maxD)) (c.dSquared s, c.dSquared s)
    maxD - minD

/-- The points that a turn of the loop of `approximateCentre` looks at, in order. -/
def neighbours (c : Sample3D) : List Sample3D :=
  let steps := [-CALIBRATION_INCREMENT, 0, CALIBRATION_INCREMENT]
  steps.flatMap fun x => steps.flatMap fun y => steps.map fun z => ⟨c.x + x, c.y + y, c.z + z⟩

/-- The centre of mass. -/
def centreOfMass (data : List Sample3D) : Sample3D :=
  let sum := data.foldl (fun centre s => ⟨centre.x + s.x, centre.y + s.y, centre.z + s.z⟩) (⟨0, 0, 0⟩ : Sample3D)
  ⟨sum.x.tdiv data.length, sum.y.tdiv data.length, sum.z.tdiv data.length⟩

/-- `approximateCentre`. Its best point is the origin at first. `fuel` bounds the turns of its loop. -/
def approximateCentre (data : List Sample3D) (fuel : Nat) : Option Sample3D :=
  let centre := centreOfMass data
  climb (measureScore data) neighbours centre (measureScore data centre, ⟨0, 0, 0⟩) fuel

/-! ## The scale of the axes -/

/-- A division, which needs a divisor that is not zero. -/
noncomputable def divide (a b : ℝ) : Option ℝ := if b = 0 then none else some (a / b)

/-- A number cut off to an integer. -/
noncomputable def truncate (r : ℝ) : Int := if 0 ≤ r then ⌊r⌋ else ⌈r⌉

/-- The distance of a sample from the centre. -/
noncomputable def distance (centre s : Sample3D) : ℝ := √(centre.dSquared s : ℝ)

/-- The largest distance, as an integer. -/
noncomputable def enclosingRadius (centre : Sample3D) (data : List Sample3D) : Int :=
  data.foldl (fun radius s =>
    let d := truncate (distance centre s)
    if d > radius then d else radius) 0

/-- The numbers that the second loop of `spherify` adds up. -/
structure Weights where
  scale : ℝ := 0
  x : ℝ := 0
  y : ℝ := 0
  z : ℝ := 0

/-- A turn of the second loop of `spherify`. -/
noncomputable def addWeight (centre : Sample3D) (radius : Int) (w : Weights) (s : Sample3D) : Option Weights := do
  let d := distance centre s
  let q ← divide radius d
  let s1 := q - 1
  let dx ← divide (s.x - centre.x : ℝ) d
  let dy ← divide (s.y - centre.y : ℝ) d
  let dz ← divide (s.z - centre.z : ℝ) d
  some { scale := max w.scale s1, x := w.x + s1 * |dx|, y := w.y + s1 * |dy|, z := w.z + s1 * |dz| }

/-- `spherify`, or none if it divides by zero. -/
noncomputable def spherify (centre : Sample3D) (data : List Sample3D) : Option CompassCalibration := do
  let radius := enclosingRadius centre data
  let w ← data.foldlM (addWeight centre radius) {}
  let wmag := √(w.x * w.x + w.y * w.y + w.z * w.z)
  let scaleX := 1 + w.scale * (← divide w.x wmag)
  let scaleY := 1 + w.scale * (← divide w.y wmag)
  let scaleZ := 1 + w.scale * (← divide w.z wmag)
  some { centre, radius, scale := ⟨truncate (1024 * scaleX), truncate (1024 * scaleY), truncate (1024 * scaleZ)⟩ }

/-- `calibrate`: the result of `spherify`, if the climb ends within `fuel` turns. -/
noncomputable def calibrate (data : List Sample3D) (fuel : Nat) : Option (Option CompassCalibration) :=
  (approximateCentre data fuel).map fun centre => spherify centre data

end MicroBitCompassCalibrator

end CodalMicrobit
