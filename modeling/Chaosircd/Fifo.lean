import Mathlib.Algebra.Ring.Nat
import Mathlib.Data.List.Basic
import Mathlib.Logic.Function.Basic

/-!
# Independent queues of symbols

A family of first-in first-out queues, each a list of symbols that does not
depend on the others, with the operations of a line-oriented byte queue.  A line
ends with a delimiter.  An operation answers with a count and with the symbols
that it hands out.
-/

namespace Chaosircd

namespace Fifo

variable {ι α : Type*}

/-- Operations on a family of queues. -/
inductive Op (ι α : Type*) where
  | write (q : ι) (buf : List α)
  | read (q : ι) (n : Nat)
  | gets (q : ι) (n : Nat)
  | map (q : ι) (n : Nat)
  | cut (q : ι) (n : Nat)
  | link (source target : ι)
  | destroy (q : ι)

/-- The symbols up to the first delimiter, and nothing when there is none. -/
def line [DecidableEq α] (delimiter : α) (fifo : List α) : List α :=
  if delimiter ∈ fifo then fifo.take (fifo.idxOf delimiter + 1) else []

/-- One operation.  A buffer for `n` symbols receives at most `n - 1` symbols of
a line; the rest of the line is dropped. -/
def exec [DecidableEq ι] [DecidableEq α] (delimiter : α) (fifos : ι → List α) :
    Op ι α → (ι → List α) × Nat × List α
  | .write q buf =>
      (Function.update fifos q (fifos q ++ buf), buf.length, [])
  | .read q n =>
      (Function.update fifos q ((fifos q).drop n), ((fifos q).take n).length,
        (fifos q).take n)
  | .gets q n =>
      (Function.update fifos q
          ((fifos q).drop (line delimiter (fifos q)).length),
        (line delimiter (fifos q)).length,
        (line delimiter (fifos q)).take (n - 1))
  | .map q n => (fifos, ((fifos q).take n).length, (fifos q).take n)
  | .cut q n => (Function.update fifos q ((fifos q).drop n), 0, [])
  | .link source target =>
      (Function.update fifos target (fifos target ++ fifos source), 0, [])
  | .destroy q => (Function.update fifos q [], 0, [])

theorem line_cons [DecidableEq α] (delimiter symbol : α) (fifo : List α) :
    line delimiter (symbol :: fifo) =
      if symbol = delimiter then [symbol]
      else if delimiter ∈ fifo then symbol :: line delimiter fifo else [] := by
  by_cases isDelimiter : symbol = delimiter
  · simp [line, isDelimiter]
  · have notDelimiter : ¬ delimiter = symbol := fun h => isDelimiter h.symm
    by_cases member : delimiter ∈ fifo
    · simp [line, isDelimiter, notDelimiter, member,
        List.idxOf_cons_ne _ (Ne.intro isDelimiter)]
    · simp [line, isDelimiter, notDelimiter, member]

end Fifo

end Chaosircd
