import Mathlib.Algebra.Ring.Nat
import Mathlib.Data.Finset.Card
import Mathlib.Logic.Function.Basic

/-!
# The poll table

With `poll`, every registered descriptor has an entry in a dense array, and the
descriptor table stores the index of the entry.  Removing an entry moves the
entries behind it down by one and writes their indices anew.  A descriptor that
is not registered has an index all the same: minus one after `io_shutup`, zero
after `io_destroy` and before its first use.
-/

namespace Chaosircd

namespace PollTable

/-- `IO_MAX_FDS`. -/
def ioMaxFds : Nat := 1024

/-! ## Event masks -/

def ioError : BitVec 32 := 0x01
def ioRead : BitVec 32 := 0x02
def ioWrite : BitVec 32 := 0x04

def pollIn : BitVec 16 := 0x001
def pollOut : BitVec 16 := 0x004
def pollErr : BitVec 16 := 0x008

/-- The three tests of `io_set_events`. -/
def raisePoll (poll : BitVec 16) (events : BitVec 32) : BitVec 16 :=
  let poll := if events &&& ioError ≠ 0 then poll ||| pollErr else poll
  let poll := if events &&& ioRead ≠ 0 then poll ||| pollIn else poll
  if events &&& ioWrite ≠ 0 then poll ||| pollOut else poll

/-- The three tests of `io_unset_events`. -/
def lowerPoll (poll : BitVec 16) (events : BitVec 32) : BitVec 16 :=
  let poll := if events &&& ioError ≠ 0 then poll &&& ~~~pollErr else poll
  let poll := if events &&& ioRead ≠ 0 then poll &&& ~~~pollIn else poll
  if events &&& ioWrite ≠ 0 then poll &&& ~~~pollOut else poll

/-- One of the three tests succeeds. -/
def HasPoll (events : BitVec 32) : Prop :=
  events &&& ioError ≠ 0 ∨ events &&& ioRead ≠ 0 ∨ events &&& ioWrite ≠ 0

instance (events : BitVec 32) : Decidable (HasPoll events) :=
  inferInstanceAs (Decidable (_ ∨ _ ∨ _))

/-- The poll events of a requested mask. -/
def pollMask (events : BitVec 5) : BitVec 16 :=
  raisePoll 0 (events.setWidth 32)

theorem and_ioError_ne (events : BitVec 32) :
    events &&& ioError ≠ 0 ↔ events.getLsbD 0 = true := by
  have single : ioError = BitVec.twoPow 32 0 := rfl
  rw [single, BitVec.and_twoPow]
  cases events.getLsbD 0 <;> decide

theorem and_ioRead_ne (events : BitVec 32) :
    events &&& ioRead ≠ 0 ↔ events.getLsbD 1 = true := by
  have single : ioRead = BitVec.twoPow 32 1 := rfl
  rw [single, BitVec.and_twoPow]
  cases events.getLsbD 1 <;> decide

theorem and_ioWrite_ne (events : BitVec 32) :
    events &&& ioWrite ≠ 0 ↔ events.getLsbD 2 = true := by
  have single : ioWrite = BitVec.twoPow 32 2 := rfl
  rw [single, BitVec.and_twoPow]
  cases events.getLsbD 2 <;> decide

theorem raisePoll_pollMask (mask : BitVec 5) (events : BitVec 32) :
    raisePoll (pollMask mask) events = pollMask (mask ||| events.setWidth 5) := by
  simp only [pollMask, raisePoll, and_ioError_ne, and_ioRead_ne, and_ioWrite_ne,
    BitVec.getLsbD_setWidth, BitVec.getLsbD_or]
  cases mask.getLsbD 0 <;> cases mask.getLsbD 1 <;> cases mask.getLsbD 2 <;>
    cases events.getLsbD 0 <;> cases events.getLsbD 1 <;> cases events.getLsbD 2 <;> rfl

theorem lowerPoll_pollMask (mask : BitVec 5) (events : BitVec 32) :
    lowerPoll (pollMask mask) events = pollMask (mask &&& ~~~events.setWidth 5) := by
  simp only [pollMask, raisePoll, lowerPoll, and_ioError_ne, and_ioRead_ne, and_ioWrite_ne,
    BitVec.getLsbD_setWidth, BitVec.getLsbD_and, BitVec.getLsbD_not]
  cases mask.getLsbD 0 <;> cases mask.getLsbD 1 <;> cases mask.getLsbD 2 <;>
    cases events.getLsbD 0 <;> cases events.getLsbD 1 <;> cases events.getLsbD 2 <;> rfl

/-! ## The two tables -/

/-- The types of `io_new`, `FD_NONE` apart. -/
inductive FdType where
  | file
  | socket
  | pipe
  deriving DecidableEq

/-- What `struct io` holds for the poll table; no type is `FD_NONE`. -/
structure Io where
  type : Option FdType
  events : BitVec 5
  closed : Bool
  dead : Bool
  index : Int
  deriving DecidableEq

/-- `struct pollfd`, the returned events apart. -/
structure Pollfd where
  fd : Int
  events : BitVec 16
  deriving DecidableEq

/-- The bytes of `struct io` after `memset`. -/
def Io.zero : Io :=
  ⟨none, 0, false, false, 0⟩

/-- `io_list`, `io_pfds` and `io_count`, with the descriptors that `io_new` has registered
and that were not shut or destroyed since. -/
structure State where
  ioList : Nat → Io
  ioPfds : Nat → Pollfd
  ioCount : Nat
  registered : Finset Nat

namespace State

/-- The tables at the start. -/
def boot : State :=
  ⟨fun _ => Io.zero, fun _ => ⟨0, 0⟩, 0, ∅⟩

def setIo (s : State) (fd : Nat) (io : Io) : State :=
  { s with ioList := Function.update s.ioList fd io }

def setPfd (s : State) (index : Nat) (pfd : Pollfd) : State :=
  { s with ioPfds := Function.update s.ioPfds index pfd }

/-- The poll events at the index of a descriptor are changed; no value means that the index
is not one of the array. -/
def modifyPoll (s : State) (fd : Nat) (change : BitVec 16 → BitVec 16) : Option State :=
  let index := (s.ioList fd).index
  if 0 ≤ index ∧ index < ioMaxFds then
    let pfd := s.ioPfds index.toNat
    some (s.setPfd index.toNat { pfd with events := change pfd.events })
  else none

/-- `io_add_fd`. -/
def ioAddFd (s : State) (fd : Nat) : Option State :=
  if s.ioCount < ioMaxFds then
    let indexed := s.setIo fd { s.ioList fd with index := s.ioCount }
    some { indexed.setPfd s.ioCount ⟨fd, 0⟩ with ioCount := s.ioCount + 1 }
  else none

/-- One turn of the loop of `io_remove_fd`. -/
def moveDown (s : State) (index : Nat) : State :=
  let pfd := s.ioPfds (index + 1)
  let moved := s.setPfd index pfd
  if 0 < pfd.fd then
    moved.setIo pfd.fd.toNat { moved.ioList pfd.fd.toNat with index := index }
  else moved

/-- The loop of `io_remove_fd`, for as many turns as there are entries behind. -/
def shiftDown : Nat → State → Nat → State
  | 0, s, _ => s
  | turns + 1, s, index => shiftDown turns (s.moveDown index) (index + 1)

/-- `io_remove_fd`. -/
def ioRemoveFd (s : State) (fd : Nat) : State :=
  let index := (s.ioList fd).index
  if 0 ≤ index ∧ index < s.ioCount then
    let cleared := s.setPfd index.toNat ⟨-1, 0⟩
    let moved := shiftDown (s.ioCount - 1 - index.toNat) cleared index.toNat
    { moved.setIo fd { moved.ioList fd with index := -1 } with ioCount := s.ioCount - 1 }
  else s

/-! ## Operations -/

/-- `io_new`. -/
def ioNew (s : State) (fd : Nat) (type : FdType) : Option State :=
  if ¬ fd < ioMaxFds then some s
  else (s.setIo fd { Io.zero with type := some type }).ioAddFd fd

/-- `io_set_events`. -/
def ioSetEvents (s : State) (fd : Nat) (events : BitVec 32) : Option State :=
  let io := s.ioList fd
  let requested := s.setIo fd { io with events := io.events ||| events.setWidth 5 }
  if HasPoll events then requested.modifyPoll fd fun poll => raisePoll poll events
  else some requested

/-- `io_unset_events`. -/
def ioUnsetEvents (s : State) (fd : Nat) (events : BitVec 32) : Option State :=
  let io := s.ioList fd
  let requested := s.setIo fd { io with events := io.events &&& ~~~events.setWidth 5 }
  if 0 ≤ io.index then requested.modifyPoll fd fun poll => lowerPoll poll events
  else some requested

/-- What `io_queued_write` does here: it takes the write event back when it has emptied the
send queue.  A descriptor without a type has nothing in its queue. -/
def ioQueuedWrite (s : State) (fd : Nat) (emptied : Bool) : Option State :=
  if emptied ∧ (s.ioList fd).type ≠ none then s.ioUnsetEvents fd ioWrite else some s

/-- The first half of `io_shutup`, for a descriptor that is not closed yet. -/
def closeFd (s : State) (fd : Nat) (emptied : Bool) : Option State :=
  if (s.ioList fd).closed then some s
  else
    (s.ioQueuedWrite fd emptied).map fun written =>
      let removed := written.ioRemoveFd fd
      removed.setIo fd { removed.ioList fd with closed := true }

/-- `io_shutup`. -/
def ioShutup (s : State) (fd : Nat) (emptied : Bool) : Option State :=
  (s.closeFd fd emptied).bind fun shut =>
    if (shut.ioList fd).events ≠ 0 then
      shut.ioUnsetEvents fd (ioRead ||| ioWrite ||| ioError)
    else some shut

/-- `io_push`. -/
def ioPush (s : State) (fd : Nat) (emptied : Bool) : Option State :=
  if fd < ioMaxFds then s.ioShutup fd emptied else some s

/-- `io_destroy`. -/
def ioDestroy (s : State) (fd : Nat) (emptied : Bool) : Option State :=
  if (s.ioList fd).dead then some s
  else if (s.ioList fd).type = none then some s
  else
    (s.ioShutup fd emptied).map fun shut =>
      (shut.ioRemoveFd fd).setIo fd { Io.zero with dead := true }

end State

/-- The operations, on descriptors that are not negative.  Whether a write empties the send
queue is part of the operation. -/
inductive Op where
  | new (fd : Nat) (type : FdType)
  | setEvents (fd : Nat) (events : BitVec 32)
  | unsetEvents (fd : Nat) (events : BitVec 32)
  | shutup (fd : Nat) (emptied : Bool)
  | push (fd : Nat) (emptied : Bool)
  | destroy (fd : Nat) (emptied : Bool)
  deriving DecidableEq

/-- The descriptor of an operation. -/
def Op.fd : Op → Nat
  | .new fd _ | .setEvents fd _ | .unsetEvents fd _ => fd
  | .shutup fd _ | .push fd _ | .destroy fd _ => fd

/-- The descriptors that are registered after an operation. -/
def Op.registers (registered : Finset Nat) : Op → Finset Nat
  | .new fd _ => if fd < ioMaxFds then insert fd registered else registered
  | .setEvents _ _ | .unsetEvents _ _ => registered
  | .shutup fd _ | .push fd _ | .destroy fd _ => registered.erase fd

/-- The effect of an operation on the tables.  Apart from `io_new` and `io_push`, which test
for it, an operation on a descriptor that is not one of the table leads outside of it. -/
def State.exec (s : State) : Op → Option State
  | .new fd type => s.ioNew fd type
  | .setEvents fd events => if fd < ioMaxFds then s.ioSetEvents fd events else none
  | .unsetEvents fd events => if fd < ioMaxFds then s.ioUnsetEvents fd events else none
  | .shutup fd emptied => if fd < ioMaxFds then s.ioShutup fd emptied else none
  | .push fd emptied => s.ioPush fd emptied
  | .destroy fd emptied => if fd < ioMaxFds then s.ioDestroy fd emptied else none

/-- One operation; no value means that it has left the tables. -/
def State.step (s : State) (op : Op) : Option State :=
  (s.exec op).map fun after => { after with registered := op.registers s.registered }

end PollTable

end Chaosircd
