/-!
# Cycle detection

A degenerate solve may run in circles.  Its bases are not kept, but a circle
shows in the variables that enter: some of them do so again and again.
-/

namespace DualSimplex

/-- The variables that entered the basis last, the oldest first. -/
structure EntryHistory where
  /-- How many of them are looked at. -/
  window : Nat
  /-- How often a variable may be among them. -/
  threshold : Nat
  recent : List Nat

namespace EntryHistory

def empty (window threshold : Nat) : EntryHistory :=
  { window := window, threshold := threshold, recent := [] }

/-- Append a variable and forget the oldest if the window is full.  If it is now
among the last ones too often the history starts anew. -/
def record (h : EntryHistory) (j : Nat) : EntryHistory × Bool :=
  let kept := if h.recent.length = h.window then h.recent.drop 1 else h.recent
  let recent := kept ++ [j]
  if h.threshold < recent.count j then ({ h with recent := [] }, true)
  else ({ h with recent := recent }, false)

end EntryHistory
end DualSimplex
