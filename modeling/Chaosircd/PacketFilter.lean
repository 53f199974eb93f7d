import Mathlib.Data.List.Basic

/-!
# Classic packet filter programs

A filter program is a list of instructions on one accumulator.  Jumps only lead forward, so
that a program is run from its head: a jump leaves out some of the instructions that follow.
A load from outside of the packet ends the program with `0`.
-/

namespace Chaosircd

namespace PacketFilter

/-- The instructions, by their `code`; `jeq` has `jt`, `jf` and `k`.  A load names its place
in the packet, from the network header on. -/
inductive Insn where
  | ldAbsW (k : Nat)
  | ldAbsH (k : Nat)
  | andK (k : BitVec 32)
  | jeqK (jt jf : Nat) (k : BitVec 32)
  | retK (k : BitVec 32)
  | retA
  deriving DecidableEq, Repr

variable (packet : List (BitVec 8))

/-- A word of the packet, whose bytes are in network order. -/
def loadWord (k : Nat) : Option (BitVec 32) :=
  match packet.drop k with
  | c0 :: c1 :: c2 :: c3 :: _ => some (c0 ++ c1 ++ c2 ++ c3)
  | _ => none

/-- A half word of the packet. -/
def loadHalf (k : Nat) : Option (BitVec 32) :=
  match packet.drop k with
  | c0 :: c1 :: _ => some ((c0 ++ c1).setWidth 32)
  | _ => none

/-- What a program returns, when `skip` instructions are left out and the accumulator is `a`.
There is no result when it runs over its end. -/
def run : List Insn → Nat → BitVec 32 → Option (BitVec 32)
  | [], _, _ => none
  | _ :: prog, skip + 1, a => run prog skip a
  | .ldAbsW k :: prog, 0, _ =>
    match loadWord packet k with
    | none => some 0
    | some a => run prog 0 a
  | .ldAbsH k :: prog, 0, _ =>
    match loadHalf packet k with
    | none => some 0
    | some a => run prog 0 a
  | .andK k :: prog, 0, a => run prog 0 (a &&& k)
  | .jeqK jt jf k :: prog, 0, a => run prog (if a = k then jt else jf) a
  | .retK k :: _, 0, _ => some k
  | .retA :: _, 0, a => some a

/-- A program that tests one word and ends when the word is the wanted one. -/
theorem run_wordIs {k : Nat} {word wanted value a : BitVec 32} {prog : List Insn}
    (loaded : loadWord packet k = some word) :
    run packet (.ldAbsW k :: .jeqK 0 1 wanted :: .retK value :: prog) 0 a =
      if word = wanted then some value else run packet prog 0 word := by
  rw [run, loaded]
  dsimp only
  rw [run]
  split <;> rfl

/-- The same with a mask. -/
theorem run_maskedWordIs {k : Nat} {word mask wanted value a : BitVec 32} {prog : List Insn}
    (loaded : loadWord packet k = some word) :
    run packet (.ldAbsW k :: .andK mask :: .jeqK 0 1 wanted :: .retK value :: prog) 0 a =
      if word &&& mask = wanted then some value else run packet prog 0 (word &&& mask) := by
  rw [run, loaded]
  dsimp only
  rw [run, run]
  split <;> rfl

/-- A program that returns a half word. -/
theorem run_returnHalf {k : Nat} {half a : BitVec 32} (loaded : loadHalf packet k = some half) :
    run packet [.ldAbsH k, .retA] 0 a = some half := by
  rw [run, loaded]
  rfl

end PacketFilter

end Chaosircd
