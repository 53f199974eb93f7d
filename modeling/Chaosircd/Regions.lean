import Mathlib.Data.List.Basic

/-!
# Regions of memory

A region has as many cells as there are bytes in it, and a cell is empty until it is
written.  A program is stopped when it reads or writes behind the end, and when it reads a
cell that is empty.  It is stopped too when the turns are used up that it is given for a
loop, so that a run without a fault is one that ends.
-/

namespace Chaosircd

/-- What stops a program. -/
inductive Fault where
  | overread
  | unset
  | overrun
  | endless
  deriving DecidableEq

namespace Fault

variable {α β : Type}

theorem ok_bind (a : α) (f : α → Except Fault β) : (Except.ok a >>= f) = f a :=
  rfl

theorem error_bind (fault : Fault) (f : α → Except Fault β) :
    ((Except.error fault : Except Fault α) >>= f) = .error fault :=
  rfl

end Fault

/-- The cells of a piece of memory, with the bytes in those that were written. -/
abbrev Region : Type :=
  List (Option UInt8)

namespace Region

/-- A region that was just made. -/
def fresh (size : Nat) : Region :=
  List.replicate size none

/-- A region in which these bytes were written. -/
def ofBytes (bytes : List UInt8) : Region :=
  bytes.map some

def read (region : Region) (i : Nat) : Except Fault UInt8 :=
  match region[i]? with
  | none => .error .overread
  | some none => .error .unset
  | some (some byte) => .ok byte

def write (region : Region) (i : Nat) (byte : UInt8) : Except Fault Region :=
  if i < region.length then .ok (region.set i (some byte)) else .error .overrun

variable {bytes : List UInt8} {behind : Region} {i : Nat} {byte : UInt8}

@[simp]
theorem length_fresh (size : Nat) : (fresh size).length = size :=
  List.length_replicate

@[simp]
theorem length_ofBytes (bytes : List UInt8) : (ofBytes bytes).length = bytes.length :=
  List.length_map some

@[simp]
theorem ofBytes_append (front back : List UInt8) :
    ofBytes (front ++ back) = ofBytes front ++ ofBytes back :=
  List.map_append

theorem read_front (at_i : bytes[i]? = some byte) : read (ofBytes bytes ++ behind) i = .ok byte := by
  have inside : i < bytes.length := (List.getElem?_eq_some_iff.mp at_i).1
  rw [read, ofBytes, List.getElem?_append_left (by simpa using inside), List.getElem?_map, at_i]
  rfl

theorem read_ofBytes (at_i : bytes[i]? = some byte) : read (ofBytes bytes) i = .ok byte := by
  have read := @read_front bytes [] i byte at_i
  rwa [List.append_nil] at read

/-- Behind the bytes that were written nothing can be read. -/
theorem read_fresh_ne_ok {size : Nat} (beyond : bytes.length ≤ i) :
    read (ofBytes bytes ++ fresh size) i ≠ .ok byte := by
  rw [read, List.getElem?_append_right (by simpa using beyond), length_ofBytes, fresh,
    List.getElem?_replicate]
  by_cases inside : i - bytes.length < size
  · simp [inside]
  · simp [inside]

/-- The next cell behind those that were written is written. -/
theorem write_next (cell : Option UInt8) (byte : UInt8) :
    write (ofBytes bytes ++ cell :: behind) bytes.length byte =
      .ok (ofBytes (bytes ++ [byte]) ++ behind) := by
  rw [write, if_pos (by simp), List.set_append_right _ _ (by simp)]
  simp [ofBytes]

theorem write_again {region : Region} (there : region[i]? = some (some byte)) :
    write region i byte = .ok region := by
  obtain ⟨inside, same⟩ := List.getElem?_eq_some_iff.mp there
  rw [write, if_pos inside, ← same, List.set_getElem_self]

theorem length_write {region region' : Region} (written : write region i byte = .ok region') :
    region'.length = region.length := by
  rw [write] at written
  split at written
  · cases written
    exact List.length_set
  · cases written

end Region

end Chaosircd
