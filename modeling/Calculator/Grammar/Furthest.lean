import Calculator.Grammar.Rule

/-!
# The furthest failure

A text that is no expression is reported at the furthest place where some rule was tried and
failed, with the rules that failed there.  If exactly one rule failed at a place since an enclosing
rule was begun there, that one says more than the enclosing rule and stands for it; if there were
several, the enclosing rule stands for them.
-/

namespace Calculator.Grammar

/-- The furthest place of a failure so far, and the rules that failed there. -/
structure Furthest where
  offset : Nat
  failed : List Rule

namespace Furthest

/-- Nothing has failed yet. -/
def start : Furthest := ⟨0, []⟩

/-- How many failures are known at a place. -/
def countAt (f : Furthest) (offset : Nat) : Nat :=
  if f.offset = offset then f.failed.length else 0

/-- Adds the failure of a rule that was begun at `offset` when `before` was known, to the failures
    known at its end. -/
def note (before after : Furthest) (r : Rule) (offset : Nat) : Furthest :=
  let known := before.countAt offset
  if after.countAt offset = known + 1 then after
  else if offset = after.offset then ⟨offset, after.failed.take known ++ [r]⟩
  else if after.offset < offset then ⟨offset, [r]⟩
  else after

end Furthest

end Calculator.Grammar
