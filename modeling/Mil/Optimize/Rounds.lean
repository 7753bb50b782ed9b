import Mil.Optimize.Duplicates
import Mil.Optimize.Inline
import Mil.Optimize.Simplify
import Mil.Optimize.Unused

/-!
The optimiser: simplification, inlining, removal of unused parameters and merging of duplicates, in
rounds, until a round changes nothing or the limit of rounds is reached.
-/

namespace Mil.Optimize

structure Limits where
  rounds : Int
  inlineSize : Int
  tableSize : Int

namespace Limits

def standard : Limits := ⟨20, 8, 1024⟩

/-- Replaces a number of rounds or a table size that is not positive by the standard one. -/
def complete (l : Limits) : Limits :=
  { l with
    rounds := if l.rounds ≤ 0 then standard.rounds else l.rounds
    tableSize := if l.tableSize ≤ 0 then standard.tableSize else l.tableSize }

end Limits

/-- A pass over a program: whether it changed anything, and the program after it. -/
abbrev Pass := Program → Except Defect (Bool × Program)

def passes (wordSize : Int) (l : Limits) : List Pass :=
  [simplify wordSize]
    ++ (if 0 < l.inlineSize then [inline l.inlineSize] else [])
    ++ [removeUnused, mergeDuplicates l.tableSize]

/-- Runs passes one after the other; whether any of them changed anything. -/
def runPasses : List Pass → Bool → Pass
  | [], changed, p => .ok (changed, p)
  | f :: fs, changed, p => do
    let (c, p) ← f p
    runPasses fs (changed || c) p

/-- Repeats a round, at most the given number of times; the number of rounds run comes first. -/
def repeatRounds (round : Pass) : Nat → Nat → Program → Except Defect (Nat × Program)
  | 0, done, p => .ok (done, p)
  | more + 1, done, p => do
    let (changed, p) ← round p
    if changed then repeatRounds round more (done + 1) p else return (done + 1, p)

end Mil.Optimize

def Mil.Program.optimize (p : Mil.Program) (wordSize : Int) (limits : Mil.Optimize.Limits) :
    Except Mil.Defect (Nat × Mil.Program) :=
  let l := limits.complete
  Mil.Optimize.repeatRounds (Mil.Optimize.runPasses (Mil.Optimize.passes wordSize l) false)
    l.rounds.toNat 0 p
