/-!
# Where two paths meet

A shortest script is a path through a grid. Walking from both ends at once, always as far as equal
elements carry, the two walks meet at a point that lies on a shortest path.
-/

namespace WireSchema.LineDiff

variable {α : Type} [BEq α]

/-- How far a walk has come on each diagonal, and how many diagonals at either side have left the
grid. -/
structure Walk where
  reach : Array Int
  low : Int := 0
  high : Int := 0

/-- A grid: the lengths of its sides, which cells are equal seen from the start of a walk, and where
the diagonal zero is stored. -/
structure Grid where
  width : Nat
  height : Nat
  same : Nat → Nat → Bool
  offset : Nat

namespace Walk

/-- How far the walk has come on a diagonal, or `-1`. -/
def on (w : Walk) (g : Grid) (k : Int) : Int :=
  let i := g.offset + k
  if i < 0 then -1 else w.reach.getD i.toNat (-1)

def put (w : Walk) (g : Grid) (k x : Int) : Walk :=
  { w with reach := w.reach.setIfInBounds (g.offset + k).toNat x }

end Walk

/-- Goes on along a diagonal as long as elements are equal. -/
def slide (g : Grid) : (fuel : Nat) → Int → Int → Int
  | 0, x, _ => x
  | fuel + 1, x, y =>
    if 0 ≤ x && 0 ≤ y && x < g.width && y < g.height && g.same x.toNat y.toNat then
      slide g fuel (x + 1) (y + 1)
    else x

/-- Takes one step on each diagonal from `k` on. If `other`, the walk from the far end, is met on
the way, the diagonal and the reach are given. -/
def advance (g : Grid) (d : Nat) (other : Option Walk) :
    (fuel : Nat) → (k : Int) → Walk → Except (Int × Int) Walk
  | 0, _, own => .ok own
  | fuel + 1, k, own =>
    if (d : Int) - own.high < k then .ok own
    else
      let below := own.on g (k - 1)
      let above := own.on g (k + 1)
      let start := if k == -(d : Int) || (k != d && below < above) then above else below + 1
      let x := slide g (g.width + 1) start (start - k)
      let own := own.put g k x
      -- a walk that has left the grid does not come back to this diagonal
      if (g.width : Int) < x then advance g d other fuel (k + 2) { own with high := own.high + 2 }
      else if (g.height : Int) < x - k then
        advance g d other fuel (k + 2) { own with low := own.low + 2 }
      else
        let met := match other with
          | none => false
          | some w =>
            let far := w.on g ((g.width : Int) - g.height - k)
            far != -1 && (g.width : Int) ≤ x + far
        if met then .error (k, x) else advance g d other fuel (k + 2) own

/-- Walks from both ends with `d` edits, then with more, until the walks meet. -/
def meetLoop (forth back : Grid) : (fuel : Nat) → (d : Nat) → Walk → Walk → Option (Nat × Nat)
  | 0, _, _, _ => none
  | fuel + 1, d, front, rear =>
    let delta : Int := (forth.width : Int) - forth.height
    let frontMeets := delta % 2 != 0
    match advance forth d (if frontMeets then some rear else none) (d + 1) (front.low - d) front with
    | .error (k, x) => some (x.toNat, (x - k).toNat)
    | .ok front =>
      match advance back d (if frontMeets then none else some front) (d + 1) (rear.low - d) rear with
      | .error (k, _) =>
        let x := front.on forth (delta - k)
        some (x.toNat, (x - (delta - k)).toNat)
      | .ok rear => meetLoop forth back fuel (d + 1) front rear

/-- A point at which two sequences can be divided so that the halves have short scripts; there is
none if they have nothing in common. -/
def meeting? (as bs : Array α) : Option (Nat × Nat) :=
  let n := as.size
  let m := bs.size
  let limit := (n + m + 1) / 2
  let forth : Grid :=
    { width := n, height := m, offset := limit, same := fun x y => as[x]? == bs[y]? }
  let back : Grid := { forth with same := fun x y => as[n - x - 1]? == bs[m - y - 1]? }
  let start : Walk := { reach := (Array.replicate (2 * limit) (-1)).setIfInBounds (limit + 1) 0 }
  meetLoop forth back limit 0 start start

end WireSchema.LineDiff
