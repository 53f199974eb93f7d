import Chaosircd.TransitionSystem
import Mathlib.Data.List.Basic

/-!
# Outgoing connections

A connect block looks up an address, opens a socket to it and hands the socket over.  It
has a field for the socket, one for a timer and one for the query, and a status that tells
which of them are in use.  What goes wrong on the way is followed by a retry, which is done
by a timer; `connect_retry` does nothing when a field is still set.
-/

namespace Chaosircd

namespace ConnectBlock

/-! ## Blocks and what they own -/

/-- `CONNECT_IDLE` and so on. -/
inductive Status where
  | idle
  | resolving
  | connecting
  | timeout
  | error
  | done
  deriving DecidableEq

/-- `struct connect`, without names and addresses. -/
structure Connect where
  status : Status
  timer : Option Nat
  fd : Option Nat
  active : Bool
  sauth : Option Nat
  resolve : Bool
  timeout : Nat
  interval : Nat
  autoconn : Bool
  ssl : Bool

/-- The callback of a timer: `connect_start` or `connect_timeout`. -/
inductive TimerCall where
  | start
  | timeout
  deriving DecidableEq

/-- A timer of the block; one that is not counted any more is removed by the next pass of
`timer_run`. -/
structure Timer where
  id : Nat
  call : TimerCall
  counted : Bool
  deriving DecidableEq

/-- A descriptor that is open.  While its handshake goes on, `connect_write` is called when it
gets readable; one that is shut is not polled any more. -/
structure Socket where
  id : Nat
  shaking : Bool
  shut : Bool
  deriving DecidableEq

/-- The block, its timers, sockets and queries, and how many there have been. -/
structure State where
  cnptr : Connect
  timers : List Timer
  sockets : List Socket
  sauths : List Nat
  serial : Nat

/-- What is decided elsewhere: whether a query or a socket can be had, whether the connection
does not fail at once, and whether a new timer gets the block of the one that has just been
removed. -/
structure Outside where
  query : Bool
  socket : Bool
  connects : Bool
  reused : Bool

/-- What `io_handle_fd` finds, and what the TLS library answers to `connect_write`:
`ssl_new` or `ssl_connect` fails, or the handshake goes on. -/
structure Found where
  handshakeFails : Bool
  err : Bool
  closed : Bool
  readable : Bool
  writable : Bool
  newFails : Bool
  connectFails : Bool
  shakes : Bool

namespace State

/-- `timer_remove`; there is no result when the timer is gone. -/
def timerRemove (s : State) (id : Nat) : Option State :=
  if id ∈ s.timers.map Timer.id then
    some { s with timers := s.timers.filter fun timer => timer.id ≠ id }
  else none

/-- `io_shutup`, which leaves the descriptor open; there is no result when it is closed. -/
def ioShutup (s : State) (fd : Nat) : Option State :=
  if fd ∈ s.sockets.map Socket.id then
    some { s with
      sockets := s.sockets.map fun socket =>
        if socket.id = fd then { socket with shut := true } else socket }
  else none

/-- `io_destroy`. -/
def ioDestroy (s : State) (fd : Nat) : State :=
  { s with sockets := s.sockets.filter fun socket => socket.id ≠ fd }

/-- `sauth_delete`; there is no result when the query is gone. -/
def sauthDelete (s : State) (id : Nat) : Option State :=
  if id ∈ s.sauths then some { s with sauths := s.sauths.filter fun other => other ≠ id } else none

/-- `timer_start`, for the timer of the block. -/
def timerStart (s : State) (call : TimerCall) : State :=
  { s with
    cnptr := { s.cnptr with timer := some s.serial }
    timers := s.timers ++ [⟨s.serial, call, true⟩]
    serial := s.serial + 1 }

/-- The timer of the block is removed, if there is one. -/
def dropTimer (s : State) : Option State :=
  match s.cnptr.timer with
  | none => some s
  | some id =>
    (s.timerRemove id).map fun s => { s with cnptr := { s.cnptr with timer := none } }

/-- The socket of the block is shut, if there is one. -/
def dropFd (s : State) : Option State :=
  match s.cnptr.fd with
  | none => some s
  | some fd => (s.ioShutup fd).map fun s => { s with cnptr := { s.cnptr with fd := none } }

/-- The query of the block is deleted, if there is one. -/
def dropSauth (s : State) : Option State :=
  match s.cnptr.sauth with
  | none => some s
  | some id =>
    (s.sauthDelete id).map fun s => { s with cnptr := { s.cnptr with sauth := none } }

def setStatus (s : State) (status : Status) : State :=
  { s with cnptr := { s.cnptr with status } }

/-! ## The functions -/

/-- `connect_add`. -/
def connectAdd (resolve : Bool) (timeout interval : Nat) (autoconn ssl : Bool) : State :=
  let s : State :=
    ⟨⟨.idle, none, none, true, none, resolve, timeout, interval, autoconn, ssl⟩, [], [], [], 0⟩
  if autoconn ∧ interval ≠ 0 then s.timerStart .start else s

/-- `connect_retry`. -/
def connectRetry (s : State) : State :=
  if s.cnptr.interval ≠ 0 ∧ s.cnptr.fd = none ∧ s.cnptr.timer = none ∧ s.cnptr.active then
    (s.setStatus .idle).timerStart .start
  else s

/-- The timer for the timeout, if there is a timeout and no timer yet. -/
def timeoutTimer (s : State) : State :=
  if s.cnptr.timeout ≠ 0 ∧ s.cnptr.timer = none then s.timerStart .timeout else s

/-- `net_socket`. -/
def netSocket (s : State) (outside : Outside) : State :=
  if outside.socket then
    { s with
      cnptr := { s.cnptr with fd := some s.serial }
      sockets := s.sockets ++ [⟨s.serial, false, false⟩]
      serial := s.serial + 1 }
  else s

/-- `net_connect`: whether it fails, and the block.  A descriptor that cannot be connected is
closed. -/
def netConnect (s : State) (outside : Outside) : Bool × State :=
  match s.cnptr.fd with
  | none => (true, s)
  | some fd => if outside.connects then (false, s) else (true, s.ioDestroy fd)

/-- `connect_initiate`: what it returns and the block. -/
def connectInitiate (s : State) (outside : Outside) : Option (Int × State) :=
  if s.cnptr.fd ≠ none then some (-1, s)
  else
    match (s.netSocket outside).netConnect outside with
    | (true, s) => s.dropFd.map fun s => (-1, (s.setStatus .error).connectRetry)
    | (false, s) => some (0, (s.setStatus .connecting).timeoutTimer)

/-- `connect_resolve`. -/
def connectResolve (s : State) (outside : Outside) : Option (Int × State) :=
  let asked :=
    if outside.query then
      { s with
        cnptr := { s.cnptr with sauth := some s.serial }
        sauths := s.sauths ++ [s.serial]
        serial := s.serial + 1 }
    else { s with cnptr := { s.cnptr with sauth := none } }
  some (0, (asked.setStatus .resolving).timeoutTimer)

/-- `connect_start`. -/
def connectStart (s : State) (outside : Outside) : Option (Int × State) :=
  if s.cnptr.status = .idle then
    ({ s with cnptr := { s.cnptr with active := true } }.dropTimer).bind fun s =>
      if s.cnptr.resolve then s.connectResolve outside else s.connectInitiate outside
  else some (0, s)

/-- `connect_cancel`. -/
def connectCancel (s : State) : Option State :=
  s.dropFd.bind fun s => s.dropTimer.bind fun s => s.dropSauth.map fun s =>
    { s with cnptr := { s.cnptr with active := false, status := .idle } }

/-- `connect_timeout`. -/
def connectTimeout (s : State) : Option State :=
  s.dropFd.bind fun s => s.dropSauth.bind fun s => s.dropTimer.map connectRetry

/-- `connect_read`, with whether the I/O code has found the socket closed. -/
def connectRead (s : State) (fd : Nat) (failed : Bool) : Option State :=
  if s.cnptr.fd = none then some s
  else if failed then
    (s.ioShutup fd).bind fun s =>
      ({ s with cnptr := { s.cnptr with fd := none, status := .error } }.dropTimer).map
        connectRetry
  else some s

/-- The connection is there: the socket goes over to the protocol handler. -/
def connected (s : State) (fd : Nat) : Option State :=
  s.dropTimer.map fun s =>
    { (s.setStatus .done).ioDestroy fd with
      cnptr := { s.cnptr with status := .done, fd := none } }

/-- `connect_write`. -/
def connectWrite (s : State) (socket : Socket) (found : Found) : Option State :=
  if s.cnptr.fd = none ∨ s.cnptr.status ≠ .connecting then some s
  else if found.closed then s.connectRead socket.id true
  else if s.cnptr.ssl ∧ socket.shaking = false then
    if found.newFails then some ((s.setStatus .error).ioDestroy socket.id).connectRetry
    else if found.connectFails then some (s.ioDestroy socket.id).connectRetry
    else if found.shakes then
      some { s with
        sockets := s.sockets.map fun other =>
          if other.id = socket.id then { other with shaking := true } else other }
    else s.connected socket.id
  else s.connected socket.id

/-- The entry of a descriptor that is polled. -/
def polled (s : State) (fd : Nat) : Option Socket :=
  s.sockets.find? fun socket => socket.id = fd ∧ socket.shut = false

/-- The callback for reading. -/
def readCallback (s : State) (fd : Nat) (found : Found) : Option State :=
  match s.polled fd with
  | none => some s
  | some socket =>
    if found.err ∨ found.closed ∨ found.readable then
      if socket.shaking then s.connectWrite socket found
      else s.connectRead fd (found.closed || found.err)
    else some s

/-- The end of `io_handle_fd`. -/
def handled (s : State) (fd : Nat) (found : Found) : State :=
  if found.closed ∨ found.err then s.ioDestroy fd else s

/-- `io_handle_fd`, for a descriptor of the block. -/
def ioHandleFd (s : State) (fd : Nat) (found : Found) : Option State :=
  match s.polled fd with
  | none => some s
  | some socket =>
    if socket.shaking ∧ found.handshakeFails then
      (s.connectWrite socket { found with closed := true, err := true }).map fun s =>
        s.ioDestroy fd
    else
      (if found.err = false ∧ found.writable then s.connectWrite socket found else some s).bind
        fun s => (s.readCallback fd found).map fun s => s.handled fd found

/-- `connect_sauth`; only an address that was found is used. -/
def connectSauth (s : State) (isDone : Bool) (outside : Outside) : Option State :=
  if isDone then (s.connectInitiate outside).map Prod.snd else some s

/-- What `timer_run` does with the timer after its callback.  Where the callback has removed
it, what is written goes to a timer that got its block. -/
def timerCalled (before : Nat) (id : Nat) (outside : Outside) (ret : Int) (s : State) : State :=
  if ret = 0 then s
  else if id ∈ s.timers.map Timer.id then
    { s with
      timers := s.timers.map fun timer =>
        if timer.id = id then { timer with counted := false } else timer }
  else if outside.reused then
    { s with
      timers := s.timers.map fun timer =>
        if before ≤ timer.id then { timer with counted := false } else timer }
  else s

end State

/-- What happens to a block.  A pass of `timer_run` removes timers that are not counted. -/
inductive Event where
  | start (outside : Outside)
  | retry
  | cancel
  | fire (id : Nat) (outside : Outside)
  | pass
  | answer (id : Nat) (isDone : Bool) (outside : Outside)
  | handle (fd : Nat) (found : Found)

namespace State

/-- One event; timers that are not counted do not fire, and queries that are gone are not
heard of. -/
def step (s : State) : Event → Option State
  | .start outside => (s.connectStart outside).map Prod.snd
  | .retry => some s.connectRetry
  | .cancel => s.connectCancel
  | .fire id outside =>
    match s.timers.find? fun timer => timer.id = id with
    | none => some s
    | some timer =>
      if timer.counted then
        match timer.call with
        | .start => (s.connectStart outside).map fun called =>
          timerCalled s.serial id outside called.1 called.2
        | .timeout => s.connectTimeout
      else some s
  | .pass => some { s with timers := s.timers.filter fun timer => timer.counted }
  | .answer id isDone outside =>
    if id ∈ s.sauths then s.connectSauth isDone outside else some s
  | .handle fd found => s.ioHandleFd fd found

/-! ## What is asked of a block -/

/-- A block owns what its fields show and nothing else, a field is set only where the status
uses it, and a block that has still to connect has a timer for that. -/
structure Kept (s : State) : Prop where
  timers : s.timers.map Timer.id = s.cnptr.timer.toList
  sockets : s.sockets.map Socket.id = s.cnptr.fd.toList
  polled : ∀ socket ∈ s.sockets, socket.shut = false
  sauths : s.sauths = s.cnptr.sauth.toList
  counted : ∀ timer ∈ s.timers, timer.counted = true
  timerUse : ∀ timer ∈ s.timers, match timer.call with
    | .start => s.cnptr.status = .idle
    | .timeout => s.cnptr.status = .resolving ∨ s.cnptr.status = .connecting
  fdUse : s.cnptr.fd ≠ none → s.cnptr.status = .connecting
  sauthUse : s.cnptr.sauth ≠ none → s.cnptr.status = .resolving
  next : s.cnptr.active = true → s.cnptr.interval ≠ 0 → s.cnptr.status ≠ .resolving →
    s.cnptr.status ≠ .connecting → s.cnptr.status ≠ .done → ∃ timer ∈ s.timers, timer.call = .start

def Sound (s : State) (event : Event) : Prop :=
  ∃ s', s.step event = some s' ∧ s'.Kept

/-! ## The condition -/

/-- The condition on an attempt: a socket that can be had does not fail to connect at once,
if the address is known. -/
def AttemptFits (s : State) (outside : Outside) : Prop :=
  s.cnptr.status = .idle → s.cnptr.resolve = false → outside.socket = true →
    outside.connects = true

/-- The condition on an event: a connection does not fail at once, a timer that cannot get a
socket is not followed by one in its block, nothing is cancelled and no timeout comes while a
socket is open, no query finds an address, no TLS handshake fails in its first step, and there
is no retry while a query without a timeout runs. -/
def Fits (s : State) : Event → Prop
  | .start outside => s.AttemptFits outside
  | .cancel => s.cnptr.fd = none
  | .pass => True
  | .retry => s.cnptr.status = .resolving → s.cnptr.sauth ≠ none → s.cnptr.timer = none →
    s.cnptr.active = true → s.cnptr.interval = 0
  | .fire id outside => ∀ timer ∈ s.timers, timer.id = id →
    match timer.call with
    | .start => s.AttemptFits outside ∧
      (s.cnptr.resolve = false → outside.socket = false → s.cnptr.interval ≠ 0 →
        outside.reused = false)
    | .timeout => s.cnptr.fd = none
  | .answer id isDone _ => id ∈ s.sauths → isDone = false
  | .handle fd found => ∀ socket ∈ s.sockets, socket.id = fd → s.cnptr.ssl = true →
    socket.shaking = false → found.writable = true → found.err = false → found.closed = false →
      found.newFails = false ∧ found.connectFails = false

/-! ## Releasing what is owned -/

/-- The invariant: besides, numbers are not given out twice. -/
structure Inv (s : State) : Prop extends Kept s where
  bound : ∀ timer ∈ s.timers, timer.id < s.serial

variable {s : State} {outside : Outside} {found : Found} {fd : Nat}

theorem dropTimer_eq (owns : s.timers.map Timer.id = s.cnptr.timer.toList) :
    s.dropTimer = some { s with cnptr := { s.cnptr with timer := none }, timers := [] } := by
  obtain ⟨cnptr, timers, sockets, sauths, serial⟩ := s
  obtain ⟨status, timer, fd, active, sauth, resolve, timeout, interval, autoconn, ssl⟩ := cnptr
  cases timer with
  | none =>
      cases List.map_eq_nil_iff.mp owns
      rfl
  | some id =>
      obtain ⟨timer, rfl, rfl⟩ := List.map_eq_singleton_iff.mp owns
      simp [dropTimer, timerRemove]

theorem dropFd_eq (owns : s.sockets.map Socket.id = s.cnptr.fd.toList) :
    s.dropFd = some { s with
      cnptr := { s.cnptr with fd := none }
      sockets := s.sockets.map fun socket => { socket with shut := true } } := by
  obtain ⟨cnptr, timers, sockets, sauths, serial⟩ := s
  obtain ⟨status, timer, fd, active, sauth, resolve, timeout, interval, autoconn, ssl⟩ := cnptr
  cases fd with
  | none =>
      cases List.map_eq_nil_iff.mp owns
      rfl
  | some id =>
      obtain ⟨socket, rfl, rfl⟩ := List.map_eq_singleton_iff.mp owns
      simp [dropFd, ioShutup]

theorem dropSauth_eq (owns : s.sauths = s.cnptr.sauth.toList) :
    s.dropSauth = some { s with cnptr := { s.cnptr with sauth := none }, sauths := [] } := by
  obtain ⟨cnptr, timers, sockets, sauths, serial⟩ := s
  obtain ⟨status, timer, fd, active, sauth, resolve, timeout, interval, autoconn, ssl⟩ := cnptr
  cases sauth with
  | none =>
      cases owns
      rfl
  | some id =>
      cases owns
      simp [dropSauth, sauthDelete]

/-- Nothing is owned. -/
structure Free (s : State) : Prop where
  timer : s.cnptr.timer = none
  timers : s.timers = []
  fd : s.cnptr.fd = none
  sockets : s.sockets = []
  sauth : s.cnptr.sauth = none
  sauths : s.sauths = []

theorem Free.setStatus (free : s.Free) (status : Status) : (s.setStatus status).Free :=
  ⟨free.timer, free.timers, free.fd, free.sockets, free.sauth, free.sauths⟩

/-- A block that owns nothing is all right if there is nothing for it to do. -/
theorem Free.inv (free : s.Free)
    (rests : s.cnptr.active = true → s.cnptr.interval ≠ 0 → s.cnptr.status ≠ .resolving →
      s.cnptr.status ≠ .connecting → s.cnptr.status = .done) : s.Inv where
  timers := by
    rw [free.timers, free.timer]
    rfl
  sockets := by
    rw [free.sockets, free.fd]
    rfl
  polled := by simp [free.sockets]
  sauths := by
    rw [free.sauths, free.sauth]
    rfl
  counted := by simp [free.timers]
  timerUse := by simp [free.timers]
  fdUse := fun set => absurd free.fd set
  sauthUse := fun set => absurd free.sauth set
  next := fun active interval resolving connecting done =>
    absurd (rests active interval resolving connecting) done
  bound := by simp [free.timers]

/-- A block that waits for its next attempt. -/
theorem Free.timerStart (free : s.Free) (idle : s.cnptr.status = .idle) :
    (s.timerStart .start).Inv where
  timers := by simp [State.timerStart, free.timers]
  sockets := by simp [State.timerStart, free.sockets, free.fd]
  polled := by simp [State.timerStart, free.sockets]
  sauths := by simp [State.timerStart, free.sauths, free.sauth]
  counted := by simp [State.timerStart, free.timers]
  timerUse := by simp [State.timerStart, free.timers, idle]
  fdUse := fun set => absurd free.fd set
  sauthUse := fun set => absurd free.sauth set
  next := by simp [State.timerStart, free.timers]
  bound := by simp [State.timerStart, free.timers]

/-- Then `connect_retry` does what it should. -/
theorem Free.retry (free : s.Free) : s.connectRetry.Inv := by
  rw [connectRetry]
  split
  · exact (free.setStatus .idle).timerStart rfl
  · rename_i guard
    refine free.inv fun active interval _ _ => ?_
    exact absurd ⟨interval, free.fd, free.timer, active⟩ guard

/-- An attempt, with the timer for its timeout. -/
theorem inv_timeoutTimer (timer : s.cnptr.timer = none) (timers : s.timers = [])
    (sockets : s.sockets.map Socket.id = s.cnptr.fd.toList)
    (polled : ∀ socket ∈ s.sockets, socket.shut = false)
    (sauths : s.sauths = s.cnptr.sauth.toList)
    (busy : s.cnptr.status = .resolving ∨ s.cnptr.status = .connecting)
    (fdUse : s.cnptr.fd ≠ none → s.cnptr.status = .connecting)
    (sauthUse : s.cnptr.sauth ≠ none → s.cnptr.status = .resolving) : s.timeoutTimer.Inv := by
  have waits : ∀ {goal : Prop}, s.cnptr.status ≠ .resolving → s.cnptr.status ≠ .connecting →
      goal := by
    intro goal notResolving notConnecting
    rcases busy with resolving | connecting
    · exact absurd resolving notResolving
    · exact absurd connecting notConnecting
  rw [timeoutTimer]
  split
  · exact {
      timers := by simp [State.timerStart, timers]
      sockets := sockets
      polled := polled
      sauths := sauths
      counted := by simp [State.timerStart, timers]
      timerUse := by simpa [State.timerStart, timers] using busy
      fdUse := fdUse
      sauthUse := sauthUse
      next := fun _ _ notResolving notConnecting _ => waits notResolving notConnecting
      bound := by simp [State.timerStart, timers] }
  · exact {
      timers := by simp [timers, timer]
      sockets := sockets
      polled := polled
      sauths := sauths
      counted := by simp [timers]
      timerUse := by simp [timers]
      fdUse := fdUse
      sauthUse := sauthUse
      next := fun _ _ notResolving notConnecting _ => waits notResolving notConnecting
      bound := by simp [timers] }

/-! ## Attempts -/

/-- An attempt to connect, for a block that owns nothing: where it fails there was no socket,
and a timer that is there is a new one. -/
theorem Free.initiate (free : s.Free) (fits : outside.socket = true → outside.connects = true) :
    ∃ called, s.connectInitiate outside = some called ∧ called.2.Inv ∧
      (called.1 ≠ 0 → outside.socket = false ∧
        called.2 = (s.setStatus .error).connectRetry) := by
  rw [connectInitiate, if_neg (by simp [free.fd])]
  cases socket : outside.socket with
  | true =>
      have connects := fits socket
      simp only [netSocket, socket, netConnect, connects, if_true]
      refine ⟨_, rfl, ?_, fun wrong => absurd rfl wrong⟩
      apply inv_timeoutTimer
      · exact free.timer
      · exact free.timers
      · simp [State.setStatus, free.sockets]
      · simp [State.setStatus, free.sockets]
      · simp [State.setStatus, free.sauths, free.sauth]
      · exact .inr rfl
      · exact fun _ => rfl
      · simp [State.setStatus, free.sauth]
  | false =>
      have failed : (s.netSocket outside).netConnect outside = (true, s) := by
        simp [netSocket, socket, netConnect, free.fd]
      rw [failed]
      simp only [dropFd, free.fd, Option.map_some]
      exact ⟨_, rfl, (free.setStatus .error).retry, fun _ => ⟨trivial, rfl⟩⟩

/-- `connect_resolve`, for a block that owns nothing. -/
theorem Free.resolve (free : s.Free) :
    ∃ s', s.connectResolve outside = some (0, s') ∧ s'.Inv := by
  rw [connectResolve]
  refine ⟨_, rfl, ?_⟩
  apply inv_timeoutTimer
  · cases query : outside.query <;> simp [State.setStatus, free.timer]
  · cases query : outside.query <;> simp [State.setStatus, free.timers]
  · cases query : outside.query <;> simp [State.setStatus, free.sockets, free.fd]
  · cases query : outside.query <;> simp [State.setStatus, free.sockets]
  · cases query : outside.query <;> simp [State.setStatus, free.sauths]
  · exact .inl rfl
  · cases query : outside.query <;> simp [State.setStatus, free.fd]
  · exact fun _ => rfl

/-- An idle block owns at most a timer. -/
theorem Inv.free (inv : s.Inv) (idle : s.cnptr.status = .idle) :
    ({ s with cnptr := { s.cnptr with active := true, timer := none }, timers := [] } :
      State).Free := by
  have fd : s.cnptr.fd = none := by
    by_contra set
    simpa [idle] using inv.fdUse set
  have sauth : s.cnptr.sauth = none := by
    by_contra set
    simpa [idle] using inv.sauthUse set
  have sockets := inv.sockets
  have sauths := inv.sauths
  rw [fd] at sockets
  rw [sauth] at sauths
  exact ⟨rfl, rfl, fd, List.map_eq_nil_iff.mp sockets, sauth, sauths⟩

/-- `connect_start`. -/
theorem Inv.start (inv : s.Inv) (fits : s.AttemptFits outside) :
    ∃ called, s.connectStart outside = some called ∧ called.2.Inv ∧
      (called.1 ≠ 0 → s.cnptr.resolve = false ∧ outside.socket = false ∧
        ∀ timer ∈ called.2.timers, s.cnptr.interval ≠ 0 ∧ s.serial ≤ timer.id) := by
  rw [connectStart]
  split
  · rename_i idle
    rw [dropTimer_eq (s := { s with cnptr := { s.cnptr with active := true } }) inv.timers,
      Option.bind_some]
    have free := inv.free idle
    cases resolve : s.cnptr.resolve with
    | true =>
        obtain ⟨s', resolved, inv'⟩ := @Free.resolve _ outside free
        exact ⟨(0, s'), by simpa using resolved, inv', fun wrong => absurd rfl wrong⟩
    | false =>
        obtain ⟨called, initiated, inv', failed⟩ := free.initiate (fits idle resolve)
        refine ⟨called, by simpa using initiated, inv', fun wrong => ?_⟩
        obtain ⟨socket, retried⟩ := failed wrong
        refine ⟨rfl, socket, fun timer listed => ?_⟩
        rw [retried, connectRetry] at listed
        split at listed
        · rename_i guard
          simp [State.setStatus, timerStart] at listed
          exact ⟨guard.1, by simp [listed]⟩
        · simp [State.setStatus] at listed
  · exact ⟨(0, s), rfl, inv, fun wrong => absurd rfl wrong⟩

/-! ## What is left alone -/

@[simp] theorem connectRetry_fd : s.connectRetry.cnptr.fd = s.cnptr.fd := by
  rw [connectRetry]
  split
  · rfl
  · rfl

@[simp] theorem connectRetry_sauth : s.connectRetry.cnptr.sauth = s.cnptr.sauth := by
  rw [connectRetry]
  split
  · rfl
  · rfl

@[simp] theorem connectRetry_sockets : s.connectRetry.sockets = s.sockets := by
  rw [connectRetry]
  split
  · rfl
  · rfl

theorem connectRetry_status_ne (notResolving : s.cnptr.status ≠ .resolving) :
    s.connectRetry.cnptr.status ≠ .resolving := by
  rw [connectRetry]
  split
  · exact nofun
  · exact notResolving

theorem ioDestroy_connectRetry : s.connectRetry.ioDestroy fd = (s.ioDestroy fd).connectRetry := by
  rw [connectRetry, apply_ite fun t : State => t.ioDestroy fd]
  rfl

@[simp] theorem timeoutTimer_sauth : s.timeoutTimer.cnptr.sauth = s.cnptr.sauth := by
  rw [timeoutTimer]
  split
  · rfl
  · rfl

@[simp] theorem timeoutTimer_status : s.timeoutTimer.cnptr.status = s.cnptr.status := by
  rw [timeoutTimer]
  split
  · rfl
  · rfl

/-! ## The end of an attempt -/

/-- Without its socket, its query and its timer; the socket is not closed. -/
def released (s : State) : State :=
  { s with
    cnptr := { s.cnptr with fd := none, sauth := none, timer := none }
    sockets := s.sockets.map fun socket => { socket with shut := true }
    sauths := []
    timers := [] }

/-- Nothing is left if there was no socket. -/
theorem Inv.released (inv : s.Inv) (unset : s.cnptr.fd = none) : s.released.Free := by
  have sockets := inv.sockets
  rw [unset] at sockets
  refine ⟨rfl, rfl, rfl, ?_, rfl, rfl⟩
  simpa [State.released] using sockets

/-- A socket that is left belongs to nobody. -/
theorem unset_of_kept {s' : State} (inv : s.Inv) (kept : s'.Kept) (unset : s'.cnptr.fd = none)
    (left : s'.sockets = s.released.sockets) : s.cnptr.fd = none := by
  have sockets := kept.sockets
  rw [unset, left] at sockets
  have owned := inv.sockets
  rw [List.map_eq_nil_iff.mp (List.map_eq_nil_iff.mp sockets)] at owned
  cases set : s.cnptr.fd with
  | none => rfl
  | some fd => simp [set] at owned

/-- `connect_timeout`. -/
theorem Inv.connectTimeout_eq (inv : s.Inv) :
    s.connectTimeout = some s.released.connectRetry := by
  rw [connectTimeout, dropFd_eq inv.sockets, Option.bind_some, dropSauth_eq, Option.bind_some,
    dropTimer_eq]
  · rfl
  · exact inv.timers
  · exact inv.sauths

theorem Inv.timeout (inv : s.Inv) (unset : s.cnptr.fd = none) :
    ∃ s', s.connectTimeout = some s' ∧ s'.Inv :=
  ⟨_, inv.connectTimeout_eq, (inv.released unset).retry⟩

theorem Inv.unset_of_timeout (inv : s.Inv) {s' : State} (called : s.connectTimeout = some s')
    (kept : s'.Kept) : s.cnptr.fd = none := by
  rw [inv.connectTimeout_eq] at called
  cases called
  exact unset_of_kept inv kept (by simp [State.released]) (by simp)

/-- `connect_cancel`. -/
theorem Inv.connectCancel_eq (inv : s.Inv) :
    s.connectCancel = some { s.released with
      cnptr := { s.released.cnptr with active := false, status := .idle } } := by
  rw [connectCancel, dropFd_eq inv.sockets, Option.bind_some, dropTimer_eq, Option.bind_some,
    dropSauth_eq]
  · rfl
  · exact inv.sauths
  · exact inv.timers

theorem Inv.cancel (inv : s.Inv) (unset : s.cnptr.fd = none) :
    ∃ s', s.connectCancel = some s' ∧ s'.Inv := by
  have free := inv.released unset
  refine ⟨_, inv.connectCancel_eq, Free.inv ?_ nofun⟩
  exact ⟨rfl, rfl, rfl, free.sockets, rfl, rfl⟩

theorem Inv.unset_of_cancel (inv : s.Inv) {s' : State} (called : s.connectCancel = some s')
    (kept : s'.Kept) : s.cnptr.fd = none := by
  rw [inv.connectCancel_eq] at called
  cases called
  exact unset_of_kept inv kept rfl rfl

/-- `connect_retry`. -/
theorem Inv.retry (inv : s.Inv) (fits : s.Fits .retry) : s.connectRetry.Inv := by
  by_cases guard : s.cnptr.interval ≠ 0 ∧ s.cnptr.fd = none ∧ s.cnptr.timer = none ∧
      s.cnptr.active
  · obtain ⟨interval, fd, timer, active⟩ := guard
    have sauth : s.cnptr.sauth = none := by
      by_contra set
      exact interval (fits (inv.sauthUse set) set timer active)
    have timers := inv.timers
    have sockets := inv.sockets
    have sauths := inv.sauths
    rw [timer] at timers
    rw [fd] at sockets
    rw [sauth] at sauths
    have free : s.Free :=
      ⟨timer, List.map_eq_nil_iff.mp timers, fd, List.map_eq_nil_iff.mp sockets, sauth, sauths⟩
    exact free.retry
  · rw [connectRetry, if_neg guard]
    exact inv

theorem Inv.fits_of_retry (inv : s.Inv) (kept : s.connectRetry.Kept) : s.Fits .retry := by
  intro resolving sauth timer active
  by_contra interval
  have fd : s.cnptr.fd = none := by
    by_contra set
    simpa [resolving] using inv.fdUse set
  have use := kept.sauthUse
  rw [connectRetry, if_pos ⟨interval, fd, timer, active⟩] at use
  exact absurd (use sauth) (by simp [timerStart, State.setStatus])

/-- A connection that fails at once: its socket is closed before it is shut. -/
theorem connectInitiate_eq_none (unset : s.cnptr.fd = none) (socket : outside.socket = true)
    (connects : outside.connects = false) : s.connectInitiate outside = none := by
  rw [connectInitiate, if_neg (by simp [unset])]
  simp [netSocket, socket, netConnect, connects, ioDestroy, dropFd, ioShutup]

theorem Inv.attemptFits_of_start (inv : s.Inv) {called : Int × State}
    (started : s.connectStart outside = some called) : s.AttemptFits outside := by
  intro idle resolve socket
  by_contra connects
  rw [Bool.not_eq_true] at connects
  rw [connectStart, if_pos idle, dropTimer_eq, Option.bind_some] at started
  · rw [resolve, if_neg Bool.false_ne_true,
      connectInitiate_eq_none (inv.free idle).fd socket connects] at started
    cases started
  · exact inv.timers

/-- `connect_sauth`: the query stays set. -/
theorem Inv.fits_of_answer (inv : s.Inv) {id : Nat} {isDone : Bool} {s' : State}
    (listed : id ∈ s.sauths) (called : s.connectSauth isDone outside = some s')
    (kept : s'.Kept) : isDone = false := by
  by_contra isDone'
  rw [Bool.not_eq_false] at isDone'
  have sauth : s.cnptr.sauth ≠ none := by
    intro unset
    simp [inv.sauths, unset] at listed
  have fd : s.cnptr.fd = none := by
    by_contra set
    simpa [inv.sauthUse sauth] using inv.fdUse set
  rw [connectSauth, if_pos isDone'] at called
  have use := kept.sauthUse
  cases socket : outside.socket with
  | true =>
      cases connects : outside.connects with
      | true =>
          rw [connectInitiate, if_neg (by simp [fd])] at called
          simp [netSocket, socket, netConnect, connects] at called
          rw [← called] at use
          simpa [State.setStatus] using use (by simpa [State.setStatus] using sauth)
      | false => simp [connectInitiate_eq_none fd socket connects] at called
  | false =>
      rw [connectInitiate, if_neg (by simp [fd])] at called
      simp [netSocket, socket, netConnect, fd, dropFd] at called
      rw [← called] at use
      refine connectRetry_status_ne ?_ (use (by simpa [State.setStatus] using sauth))
      simp [State.setStatus]

/-! ## A socket -/

/-- What is known of the block of a socket. -/
structure Busy (s : State) (socket : Socket) : Prop extends Inv s where
  listed : s.sockets = [socket]
  fd : s.cnptr.fd = some socket.id
  status : s.cnptr.status = .connecting
  sauth : s.cnptr.sauth = none
  shut : socket.shut = false

theorem Inv.busy (inv : s.Inv) {socket : Socket} (listed : socket ∈ s.sockets) :
    s.Busy socket := by
  have sockets := inv.sockets
  cases set : s.cnptr.fd with
  | none =>
      rw [set] at sockets
      simp [List.map_eq_nil_iff.mp sockets] at listed
  | some fd =>
      rw [set] at sockets
      obtain ⟨other, only, rfl⟩ := List.map_eq_singleton_iff.mp sockets
      obtain rfl : socket = other := by simpa [only] using listed
      have connecting := inv.fdUse (by simp [set])
      refine ⟨inv, only, set, connecting, ?_, inv.polled socket listed⟩
      by_contra sauth
      simpa [connecting] using inv.sauthUse sauth

theorem Busy.sauths_eq {socket : Socket} (busy : s.Busy socket) : s.sauths = [] := by
  rw [busy.sauths, busy.sauth]
  rfl

theorem Busy.polled_eq {socket : Socket} (busy : s.Busy socket) :
    s.polled socket.id = some socket := by
  simp [State.polled, busy.listed, busy.shut]

theorem Inv.polled_eq_some (inv : s.Inv) {socket : Socket} (found : s.polled fd = some socket) :
    s.Busy socket ∧ socket.id = fd := by
  have same := List.find?_some found
  simp at same
  exact ⟨inv.busy (List.mem_of_find?_eq_some found), same.1⟩

/-- The connection has failed. -/
theorem Busy.connectRead {socket : Socket} (busy : s.Busy socket) :
    ∃ s', s.connectRead socket.id true = some s' ∧ s'.polled socket.id = none ∧
      (s'.ioDestroy socket.id).Inv := by
  rw [State.connectRead, if_neg (by simp [busy.fd]), if_pos rfl, ioShutup,
    if_pos (by simp [busy.listed]), Option.bind_some, dropTimer_eq]
  · refine ⟨_, rfl, ?_, ?_⟩
    · simp [State.polled, busy.listed]
    · rw [ioDestroy_connectRetry]
      refine Free.retry ⟨rfl, rfl, rfl, ?_, busy.sauth, busy.sauths_eq⟩
      simp [ioDestroy, busy.listed]
  · exact busy.timers

/-- The connection is there. -/
theorem Busy.connected {socket : Socket} (busy : s.Busy socket) :
    ∃ s', s.connected socket.id = some s' ∧ s'.Inv ∧ s'.sockets = [] := by
  rw [State.connected, dropTimer_eq busy.timers]
  have left : s.sockets.filter (fun other => other.id ≠ socket.id) = [] := by
    simp [busy.listed]
  refine ⟨_, rfl, Free.inv ?_ fun _ _ _ _ => rfl, left⟩
  exact ⟨rfl, rfl, rfl, left, busy.sauth, busy.sauths_eq⟩

/-- `connect_write`, when its socket was not closed. -/
theorem Busy.connectWrite_eq {socket : Socket} (busy : s.Busy socket)
    (opened : found.closed = false) (plain : s.cnptr.ssl = true → socket.shaking = true) :
    s.connectWrite socket found = s.connected socket.id := by
  rw [connectWrite, if_neg (by simp [busy.fd, busy.status]), if_neg (by simp [opened]), if_neg]
  rintro ⟨ssl, still⟩
  simp [plain ssl] at still

theorem Busy.connectWrite_closed {socket : Socket} (busy : s.Busy socket)
    (closed : found.closed = true) :
    s.connectWrite socket found = s.connectRead socket.id true := by
  rw [connectWrite, if_neg (by simp [busy.fd, busy.status]), if_pos closed]

theorem Busy.connectWrite {socket : Socket} (busy : s.Busy socket) (opened : found.closed = false)
    (fits : s.cnptr.ssl = true → socket.shaking = false →
      found.newFails = false ∧ found.connectFails = false) :
    ∃ s', s.connectWrite socket found = some s' ∧ s'.Inv := by
  by_cases tls : s.cnptr.ssl = true ∧ socket.shaking = false
  · obtain ⟨news, connects⟩ := fits tls.1 tls.2
    rw [State.connectWrite, if_neg (by simp [busy.fd, busy.status]), if_neg (by simp [opened]),
      if_pos tls, if_neg (by simp [news]), if_neg (by simp [connects])]
    cases found.shakes with
    | true =>
        refine ⟨_, rfl, { busy.toInv with sockets := ?_, polled := ?_ }⟩
        · simp [busy.listed, busy.fd]
        · simp [busy.listed, busy.shut]
    | false =>
        obtain ⟨s', called, inv', -⟩ := busy.connected
        exact ⟨s', called, inv'⟩
  · obtain ⟨s', called, inv', -⟩ := busy.connected
    refine ⟨s', ?_, inv'⟩
    rw [busy.connectWrite_eq opened, called]
    intro ssl
    by_contra still
    exact tls ⟨ssl, by simpa using still⟩

theorem ioDestroy_eq_self (gone : ∀ socket ∈ s.sockets, socket.id ≠ fd) :
    s.ioDestroy fd = s := by
  have same : s.sockets.filter (fun socket => socket.id ≠ fd) = s.sockets := by
    simpa using gone
  rw [ioDestroy, same]

theorem handled_eq_self (gone : ∀ socket ∈ s.sockets, socket.id ≠ fd) :
    s.handled fd found = s := by
  rw [handled, ioDestroy_eq_self gone, ite_self]

/-- The callback for reading, and what follows it. -/
theorem Inv.readCallback (inv : s.Inv) :
    ∃ s', s.readCallback fd found = some s' ∧ (s'.handled fd found).Inv := by
  rw [State.readCallback]
  cases polled : s.polled fd with
  | none =>
      refine ⟨s, rfl, ?_⟩
      rw [handled_eq_self]
      · exact inv
      · intro socket listed same
        have unpolled := List.find?_eq_none.mp polled socket listed
        simp [same, inv.polled socket listed] at unpolled
  | some socket =>
      obtain ⟨busy, rfl⟩ := inv.polled_eq_some polled
      have fails : found.closed = true ∨ found.err = true →
          ∃ s', s.connectRead socket.id true = some s' ∧ (s'.handled socket.id found).Inv := by
        intro failed
        obtain ⟨s', called, -, inv'⟩ := busy.connectRead
        refine ⟨s', called, ?_⟩
        rw [handled, if_pos failed]
        exact inv'
      by_cases heard : found.err = true ∨ found.closed = true ∨ found.readable = true
      · simp only [if_pos heard]
        cases shaking : socket.shaking with
        | true =>
            rw [if_pos rfl]
            cases closed : found.closed with
            | true =>
                rw [busy.connectWrite_closed closed]
                exact fails (.inl closed)
            | false =>
                rw [busy.connectWrite_eq closed fun _ => shaking]
                obtain ⟨s', called, inv', none⟩ := busy.connected
                refine ⟨s', called, ?_⟩
                rw [handled_eq_self (by simp [none])]
                exact inv'
        | false =>
            rw [if_neg Bool.false_ne_true]
            cases failed : found.closed || found.err with
            | true => exact fails (by simpa using failed)
            | false =>
                rw [Bool.or_eq_false_iff] at failed
                rw [State.connectRead, if_neg (by simp [busy.fd]), if_neg Bool.false_ne_true]
                refine ⟨s, rfl, ?_⟩
                rw [handled, if_neg (by simp [failed])]
                exact inv
      · simp only [if_neg heard]
        refine ⟨s, rfl, ?_⟩
        rw [handled, if_neg fun failed => heard (by tauto)]
        exact inv

/-- `io_handle_fd`. -/
theorem Inv.handle (inv : s.Inv) (fits : s.Fits (.handle fd found)) :
    ∃ s', s.ioHandleFd fd found = some s' ∧ s'.Inv := by
  rw [ioHandleFd]
  cases polled : s.polled fd with
  | none => exact ⟨s, rfl, inv⟩
  | some socket =>
      obtain ⟨busy, rfl⟩ := inv.polled_eq_some polled
      by_cases broken : socket.shaking = true ∧ found.handshakeFails = true
      · obtain ⟨s', called, -, inv'⟩ := busy.connectRead
        simp only [if_pos broken]
        rw [busy.connectWrite_closed rfl, called]
        exact ⟨_, rfl, inv'⟩
      · simp only [if_neg broken]
        by_cases writable : found.err = false ∧ found.writable = true
        · rw [if_pos writable]
          cases closed : found.closed with
          | true =>
              obtain ⟨s', called, gone, inv'⟩ := busy.connectRead
              rw [busy.connectWrite_closed closed, called]
              simp [State.readCallback, gone, handled, closed, inv']
          | false =>
              obtain ⟨s', called, inv'⟩ := busy.connectWrite closed fun ssl still =>
                fits socket (by simp [busy.listed]) rfl ssl still writable.2 writable.1 closed
              rw [called, Option.bind_some]
              have ended : ∃ s'', s'.readCallback socket.id found = some s'' ∧
                  (s''.handled socket.id found).Inv := inv'.readCallback
              obtain ⟨s'', read, inv''⟩ := ended
              rw [read]
              exact ⟨_, rfl, inv''⟩
        · rw [if_neg writable, Option.bind_some]
          have ended : ∃ s'', s.readCallback socket.id found = some s'' ∧
              (s''.handled socket.id found).Inv := inv.readCallback
          obtain ⟨s'', read, inv''⟩ := ended
          rw [read]
          exact ⟨_, rfl, inv''⟩

/-- A handshake that fails leaves the block with a socket that is closed. -/
theorem Inv.fits_of_handle (inv : s.Inv) {s' : State}
    (called : s.ioHandleFd fd found = some s') (kept : s'.Kept) : s.Fits (.handle fd found) := by
  rintro socket listed rfl ssl still writable err closed
  by_contra fails
  have busy := inv.busy listed
  have guard : ¬ (socket.shaking = true ∧ found.handshakeFails = true) := by simp [still]
  have failed : ∃ broken : State, s.connectWrite socket found = some broken ∧
      broken.cnptr.fd ≠ none ∧ broken.sockets = [] := by
    rw [connectWrite, if_neg (by simp [busy.fd, busy.status]), if_neg (by simp [closed]),
      if_pos ⟨ssl, still⟩]
    have gone : s.sockets.filter (fun other => other.id ≠ socket.id) = [] := by
      simp [busy.listed]
    cases newFails : found.newFails with
    | true =>
        refine ⟨_, rfl, ?_, ?_⟩
        · simp [ioDestroy, State.setStatus, busy.fd]
        · rw [connectRetry_sockets]
          exact gone
    | false =>
        have connectFails : found.connectFails = true := by
          by_contra connects
          exact fails ⟨newFails, by simpa using connects⟩
        rw [if_neg Bool.false_ne_true, if_pos connectFails]
        refine ⟨_, rfl, ?_, ?_⟩
        · simp [ioDestroy, busy.fd]
        · rw [connectRetry_sockets]
          exact gone
  obtain ⟨broken, written, set, gone⟩ := failed
  have unpolled : broken.polled socket.id = none := by simp [State.polled, gone]
  rw [ioHandleFd, busy.polled_eq] at called
  simp only [if_neg guard, if_pos (And.intro err writable), written, Option.bind_some,
    State.readCallback, unpolled, Option.map_some, Option.some.injEq] at called
  rw [handled_eq_self (by simp [gone])] at called
  cases called
  have sockets := kept.sockets
  rw [gone] at sockets
  cases unset : s'.cnptr.fd with
  | none => exact set unset
  | some fd => simp [unset] at sockets

/-! ## A timer -/

theorem Inv.find?_timers (inv : s.Inv) {timer : Timer} (listed : timer ∈ s.timers) :
    s.timers.find? (fun other => other.id = timer.id) = some timer := by
  have timers := inv.timers
  cases set : s.cnptr.timer with
  | none =>
      rw [set] at timers
      simp [List.map_eq_nil_iff.mp timers] at listed
  | some id =>
      rw [set] at timers
      obtain ⟨other, only, -⟩ := List.map_eq_singleton_iff.mp timers
      obtain rfl : timer = other := by simpa [only] using listed
      simp [only]

theorem timerCalled_eq_self {before id : Nat} {ret : Int}
    (gone : ∀ timer ∈ s.timers, timer.id ≠ id) (unused : outside.reused = true → s.timers = []) :
    timerCalled before id outside ret s = s := by
  have absent : id ∉ s.timers.map Timer.id := by
    rw [List.mem_map]
    rintro ⟨timer, listed, same⟩
    exact gone timer listed same
  obtain ⟨cnptr, timers, sockets, sauths, serial⟩ := s
  rw [timerCalled, if_neg absent]
  split
  · rfl
  · split
    · rename_i reused
      cases unused reused
      rfl
    · rfl

/-- Where the callback of a timer fails, no timer has got its block. -/
theorem Inv.fire (inv : s.Inv) {id : Nat} (fits : s.Fits (.fire id outside)) :
    ∃ s', s.step (.fire id outside) = some s' ∧ s'.Inv := by
  rw [step]
  cases found : s.timers.find? fun timer => timer.id = id with
  | none => exact ⟨s, rfl, inv⟩
  | some timer =>
      have listed := List.mem_of_find?_eq_some found
      have same : timer.id = id := by simpa using List.find?_some found
      have fits := fits timer listed same
      simp only [inv.counted timer listed, if_true]
      cases call : timer.call with
      | start =>
          rw [call] at fits
          obtain ⟨attempt, unused⟩ := fits
          obtain ⟨called, started, inv', fails⟩ := inv.start attempt
          simp only [started, Option.map_some]
          refine ⟨_, rfl, ?_⟩
          have unchanged : timerCalled s.serial id outside called.1 called.2 = called.2 := by
            by_cases ret : called.1 = 0
            · rw [timerCalled, if_pos ret]
            · obtain ⟨resolve, socket, fresh⟩ := fails ret
              have old : id < s.serial := same ▸ inv.bound timer listed
              apply timerCalled_eq_self
              · intro other new clash
                have later := (fresh other new).2
                omega
              · intro reused
                by_contra some
                obtain ⟨other, new⟩ := List.exists_mem_of_ne_nil _ some
                simp [unused resolve socket (fresh other new).1] at reused
          rw [unchanged]
          exact inv'
      | timeout =>
          rw [call] at fits
          exact inv.timeout fits

/-- An attempt that gets no socket. -/
theorem Inv.connectStart_eq (inv : s.Inv) (idle : s.cnptr.status = .idle)
    (resolve : s.cnptr.resolve = false) (socket : outside.socket = false)
    (interval : s.cnptr.interval ≠ 0) :
    s.connectStart outside = some (-1, State.timerStart { s with
      cnptr := { s.cnptr with active := true, timer := none, status := .idle }
      timers := [] } .start) := by
  have fd := (inv.free idle).fd
  rw [connectStart, if_pos idle, dropTimer_eq, Option.bind_some]
  · simp at fd
    simp [resolve, connectInitiate, fd, netSocket, socket, netConnect, dropFd, connectRetry,
      State.setStatus, interval]
  · exact inv.timers

theorem Inv.fits_of_fire (inv : s.Inv) {id : Nat} {s' : State}
    (called : s.step (.fire id outside) = some s') (kept : s'.Kept) :
    s.Fits (.fire id outside) := by
  rintro timer listed rfl
  rw [step, inv.find?_timers listed] at called
  simp only [inv.counted timer listed, if_true] at called
  have use := inv.timerUse timer listed
  cases call : timer.call with
  | start =>
      rw [call] at called use
      obtain ⟨result, started, ended⟩ := Option.map_eq_some_iff.mp called
      refine ⟨inv.attemptFits_of_start started, fun resolve socket interval => ?_⟩
      by_contra reused
      rw [Bool.not_eq_false] at reused
      have apart : timer.id ≠ s.serial := Nat.ne_of_lt (inv.bound timer listed)
      rw [inv.connectStart_eq use resolve socket interval] at started
      cases started
      have uncounted := kept.counted ⟨s.serial, .start, false⟩
      rw [← ended] at uncounted
      simp [timerCalled, State.timerStart, reused, apart] at uncounted
  | timeout =>
      rw [call] at called
      exact inv.unset_of_timeout called kept

/-! ## Runs -/

/-- What an event does to a block whose condition it meets. -/
theorem Inv.step (inv : s.Inv) (event : Event) (fits : s.Fits event) :
    ∃ s', s.step event = some s' ∧ s'.Inv := by
  cases event with
  | start outside =>
      obtain ⟨called, started, inv', -⟩ := inv.start fits
      exact ⟨called.2, by simp [State.step, started], inv'⟩
  | retry => exact ⟨_, rfl, inv.retry fits⟩
  | cancel => exact inv.cancel fits
  | fire id outside => exact inv.fire fits
  | pass =>
      refine ⟨s, ?_, inv⟩
      have all : s.timers.filter (fun timer => timer.counted) = s.timers :=
        List.filter_eq_self.mpr inv.counted
      rw [State.step, all]
  | answer id isDone outside =>
      refine ⟨s, ?_, inv⟩
      rw [State.step]
      split
      · rename_i listed
        simp [connectSauth, fits listed]
      · rfl
  | handle fd found => exact inv.handle fits

/-- The condition is necessary. -/
theorem Inv.fits_of_sound (inv : s.Inv) {event : Event} (sound : s.Sound event) :
    s.Fits event := by
  obtain ⟨s', stepped, kept⟩ := sound
  cases event with
  | start outside =>
      obtain ⟨called, started, -⟩ := Option.map_eq_some_iff.mp stepped
      exact inv.attemptFits_of_start started
  | retry =>
      cases stepped
      exact inv.fits_of_retry kept
  | cancel => exact inv.unset_of_cancel stepped kept
  | fire id outside => exact inv.fits_of_fire stepped kept
  | pass => trivial
  | answer id isDone outside =>
      intro listed
      rw [State.step, if_pos listed] at stepped
      exact inv.fits_of_answer listed stepped kept
  | handle fd found => exact inv.fits_of_handle stepped kept

theorem inv_connectAdd {resolve : Bool} {timeout interval : Nat} {autoconn ssl : Bool}
    (scheduled : autoconn = true ∨ interval = 0) :
    (connectAdd resolve timeout interval autoconn ssl).Inv := by
  rw [connectAdd]
  split
  · exact Free.timerStart ⟨rfl, rfl, rfl, rfl, rfl, rfl⟩ rfl
  · rename_i guard
    refine Free.inv ⟨rfl, rfl, rfl, rfl, rfl, rfl⟩ fun _ wanted _ _ => ?_
    rcases scheduled with auto | zero
    · exact absurd ⟨auto, wanted⟩ guard
    · exact absurd zero wanted

/-- A block that is added has to be scheduled if there is an interval. -/
theorem scheduled_of_kept {resolve : Bool} {timeout interval : Nat} {autoconn ssl : Bool}
    (kept : (connectAdd resolve timeout interval autoconn ssl).Kept) :
    autoconn = true ∨ interval = 0 := by
  by_contra neither
  obtain ⟨manual, wanted⟩ := not_or.mp neither
  rw [connectAdd, if_neg fun both => manual both.1] at kept
  obtain ⟨timer, listed, -⟩ := kept.next rfl wanted nofun nofun nofun
  cases listed

/-- In a run that starts with a block that has been added, every state is as it should be
exactly if each event meets the condition, and a block with an interval connects on its
own. -/
theorem connect_run_iff (resolve : Bool) (timeout interval : Nat) (autoconn ssl : Bool)
    (events : List Event) :
    (Kept (connectAdd resolve timeout interval autoconn ssl) ∧
      TransitionSystem.GuardedRun State.step Sound
        (connectAdd resolve timeout interval autoconn ssl) events) ↔
    (autoconn = true ∨ interval = 0) ∧
      TransitionSystem.GuardedRun State.step Fits
        (connectAdd resolve timeout interval autoconn ssl) events := by
  have runs (scheduled : autoconn = true ∨ interval = 0) :
      TransitionSystem.GuardedRun State.step Sound
        (connectAdd resolve timeout interval autoconn ssl) events ↔
      TransitionSystem.GuardedRun State.step Fits
        (connectAdd resolve timeout interval autoconn ssl) events := by
    have promised : TransitionSystem.GuardedRun State.step (fun _ _ => True)
        (connectAdd resolve timeout interval autoconn ssl) events :=
      TransitionSystem.guardedRun_of_forall (fun _ _ => trivial) _ _
    refine TransitionSystem.guardedRun_congr ?_ ?_ (inv_connectAdd scheduled) promised
    · intro s event inv _
      refine ⟨inv.fits_of_sound, fun fits => ?_⟩
      obtain ⟨s', stepped, inv'⟩ := inv.step event fits
      exact ⟨s', stepped, inv'.toKept⟩
    · intro s event next inv _ fits stepped
      obtain ⟨s', stepped', inv'⟩ := inv.step event fits
      cases stepped.symm.trans stepped'
      exact inv'
  constructor
  · rintro ⟨kept, sound⟩
    have scheduled := scheduled_of_kept kept
    exact ⟨scheduled, (runs scheduled).mp sound⟩
  · rintro ⟨scheduled, fits⟩
    exact ⟨(inv_connectAdd scheduled).toKept, (runs scheduled).mpr fits⟩

/-- The query of a block stays set when its address has been found and it connects. -/
theorem answered_query_stays_set :
    ¬ TransitionSystem.GuardedRun State.step Sound (connectAdd true 30000 60000 true false)
      [.fire 0 ⟨true, true, true, false⟩, .answer 1 true ⟨true, true, true, false⟩] := by
  rintro ⟨-, ⟨s', stepped, kept⟩, -⟩
  cases stepped
  exact absurd (kept.sauthUse nofun) nofun

end State

end ConnectBlock

end Chaosircd
