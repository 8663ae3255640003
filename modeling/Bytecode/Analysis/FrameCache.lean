import Bytecode.Analysis.Dataflow

/-!
# The frame cache

Analyses are kept as long as the revision of their method stays the same. Every entry carries the
number of the analysis that made it, by which two look-ups can tell whether they got the same one.
-/

namespace Bytecode.Analysis

/-- A cached analysis. -/
structure CacheEntry where
  revision : Nat
  stamp : Nat
  frames : Frames

/-- The analyses of methods. -/
structure FrameCache where
  entries : Std.HashMap MethodId CacheEntry := ∅
  analysed : Nat := 0

namespace FrameCache

/-- The number of cached analyses. -/
def size (c : FrameCache) : Nat :=
  c.entries.size

/-- Whether nothing is cached. -/
def isEmpty (c : FrameCache) : Bool :=
  c.entries.isEmpty

/-- Analyses a method and caches the result. -/
def renew (c : FrameCache) (owner : String) (m : Method) : Except Failure CacheEntry × FrameCache :=
  match analyze owner m with
  | .error e => (.error e, c)
  | .ok frames =>
    let entry : CacheEntry := { revision := m.revision, stamp := c.analysed, frames }
    (.ok entry, { entries := c.entries.insert m.id entry, analysed := c.analysed + 1 })

/-- The analysis of a method in its present revision: the cached one, or a new one that is then
cached. A body that has changed its length without being announced as modified is refused. -/
def lookup (c : FrameCache) (owner : String) (m : Method) :
    Except Failure CacheEntry × FrameCache :=
  match c.entries[m.id]? with
  | none => c.renew owner m
  | some entry =>
    if entry.revision ≠ m.revision then c.renew owner m
    else if entry.frames.frames.size ≠ m.body.size then
      (.error (.analysis owner m.signature
        (.unmarkedEdit entry.frames.frames.size m.body.size)), c)
    else (.ok entry, c)

/-- Forgets the analysis of a method. -/
def invalidate (c : FrameCache) (m : MethodId) : FrameCache :=
  { c with entries := c.entries.erase m }

/-- Forgets all analyses. -/
def clear (c : FrameCache) : FrameCache :=
  { c with entries := ∅ }

end FrameCache

end Bytecode.Analysis
