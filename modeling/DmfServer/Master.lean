/-
DmfServer/Master.lean

The supervising process of dm_master.c: `master_start_multi_process_server`,
`master_check_and_restart` and `signal_SIGUSR1`, with the process table they
work on.

The main program goes from one call of the kernel or store into `worker[]` to
the next, so anything can happen between two of them: a worker dies, other
processes of the machine come and go, and the signal handler runs, which keeps
the main program from going on until it returns.  A worker is `fork`ed with
the `cpu_bind` of its slot.  Once dead it stays in the process table, and
keeps its pid, until `waitpid` reaps it; then any process can get the pid.

`waitpid` and `kill` give the pid 0 a meaning of their own: all children, and
all processes, of the caller's group.  The group is the master, which has
called `setsid`, and the workers.
-/
import DmfServer.Table
import DmfServer.Threads

namespace DmfServer

open Imperative Prog

abbrev Pid : Type := Nat

/-- What a process is. -/
inductive ProcKind where
  | master
  /-- A worker, with the argument of its `cpu_bind`. -/
  | worker (cpu : Nat)
  /-- A process of somebody else. -/
  | foreign
  deriving DecidableEq

/-- An entry of the process table.  `termed`: it was sent SIGTERM. -/
structure Process where
  kind : ProcKind
  alive : Bool
  termed : Bool

def ProcKind.isWorker : ProcKind → Bool
  | .worker _ => true
  | .master => false
  | .foreign => false

def ProcKind.inGroup : ProcKind → Bool
  | .worker _ => true
  | .master => true
  | .foreign => false

/-- Why the master called `exit(1)`. -/
inductive ExitCause where
  | forkFailed
  | waitpidFailed
  deriving DecidableEq

/-- Where the main program stands. -/
inductive MasterControl where
  /-- The loop that starts the workers, before its turn for the slot. -/
  | starting (i : Nat)
  /-- There, after the `fork`. -/
  | forked (i : Nat) (pid : Pid)
  /-- The test of `server_running_flag`. -/
  | testing
  /-- The supervising loop, before its turn for the slot. -/
  | polling (i : Nat)
  /-- There, after the `waitpid` that reaped the worker. -/
  | reaped (i : Nat)
  /-- There, after the `fork`. -/
  | reforked (i : Nat) (pid : Pid)
  /-- The supervising loop has ended. -/
  | ended
  | exited (cause : ExitCause)
  /-- Killed by a signal. -/
  | terminated
  deriving DecidableEq

/-- The master and the process table.  `handler` is the next slot of
`signal_SIGUSR1` while that runs.  The last three are history: the workers
started for a slot, the processes reaped in its turns, and what had been
started when the handler first returned. -/
structure Master where
  serverRunningFlag : Bool
  worker : Nat → Pid
  procs : Table Process
  control : MasterControl
  handler : Option Nat
  started : Nat → List Pid
  reaped : Nat → List Pid
  stoppedAt : Option (Nat → List Pid)

/-- What happens next. -/
inductive MasterEvent where
  /-- The main program goes on.  A `fork` answers `fork`; if any child can be
  reaped, `who` is. -/
  | main (fork : Option Pid) (who : Pid)
  | sigusr1
  /-- The handler goes on. -/
  | handler
  /-- A worker dies. -/
  | die (pid : Pid)
  /-- A process of somebody else comes. -/
  | appear (pid : Pid)
  | vanish (pid : Pid)

namespace Master

def setControl (s : Master) (c : MasterControl) : Master := { s with control := c }

def setWorker (s : Master) (i : Nat) (pid : Pid) : Master :=
  { s with worker := Function.update s.worker i pid }

def setProc (s : Master) (pid : Pid) (proc : Process) : Master :=
  { s with procs := s.procs.set pid proc }

/-- The process `pid` was sent SIGTERM, if it exists. -/
def term (s : Master) (pid : Pid) : Master :=
  { s with procs := s.procs.modify pid fun proc => { proc with termed := true } }

/-- Every process of the group was sent SIGTERM.  The master does not survive
its own signal. -/
def termGroup (s : Master) : Master :=
  { s with
    procs := s.procs.map fun proc =>
      if proc.kind.inGroup then { proc with termed := true } else proc
    control := .terminated
    handler := none }

def removeProc (s : Master) (pid : Pid) : Master := { s with procs := s.procs.erase pid }

def logStart (s : Master) (i : Nat) (pid : Pid) : Master :=
  { s with started := Function.update s.started i (s.started i ++ [pid]) }

def logReap (s : Master) (i : Nat) (pid : Pid) : Master :=
  { s with reaped := Function.update s.reaped i (s.reaped i ++ [pid]) }

/-- A child that can be reaped. -/
def isZombie (s : Master) (pid : Pid) : Bool :=
  (s.procs.get pid).any fun proc => proc.kind.isWorker && !proc.alive

def isChild (s : Master) (pid : Pid) : Bool := (s.procs.get pid).any fun proc => proc.kind.isWorker

/-- A child of the group to reap: `who`, or any other one. -/
def zombie (s : Master) (who : Pid) : Option Pid :=
  if s.isZombie who then some who else (List.range s.procs.bound).find? s.isZombie

end Master

/-! ### The system calls -/

/-- `fork` for the slot `i`.  The parent goes on at `parent pid`, or at
`failed`; the child is a worker from here on. -/
def forkWorker (i : Nat) (parent : Pid → MasterControl) (failed : MasterControl) :
    Option Pid → Prog Master Unit
  | some pid => do
      await fun s => decide (0 < pid) && (s.procs.get pid).isNone
      store (·.setProc pid ⟨.worker i, true, false⟩)
      store (·.logStart i pid)
      store (·.setControl (parent pid))
  | none => store (·.setControl failed)

/-- Reap the child that was found, if any. -/
def reapFound (i : Nat) (children : Bool) : Option Pid → Prog Master Int
  | some zombie => do
      store (·.removeProc zombie)
      store (·.logReap i zombie)
      pure zombie
  | none => pure (if children then 0 else -1)

/-- `waitpid(pid, &status, WNOHANG)` in the turn for the slot `i`. -/
def waitpid (i : Nat) (pid : Pid) (who : Pid) : Prog Master Int := do
  let found ← load fun s =>
    if pid = 0 then s.zombie who else if s.isZombie pid then some pid else none
  let children ← load fun s =>
    if pid = 0 then (List.range s.procs.bound).any s.isChild else s.isChild pid
  reapFound i children found

/-- `kill(pid, SIGTERM)`. -/
def killTerm (pid : Pid) : Prog Master Unit :=
  if pid = 0 then store (·.termGroup) else store (·.term pid)

/-! ### The program -/

/-- The main program, up to its next call or store. -/
def mainStep (n : Nat) (fork : Option Pid) (who : Pid) : MasterControl → Prog Master Unit
  | .starting i =>
      if i < n then
        -- where it fails the slot keeps its 0
        forkWorker i (.forked i) (.starting (i + 1)) fork
      else
        store (·.setControl .testing)
  | .forked i pid => do
      store (·.setWorker i pid)
      store (·.setControl (.starting (i + 1)))
  | .testing =>
      store fun s => s.setControl (if s.serverRunningFlag then .polling 0 else .ended)
  | .polling i =>
      if i < n then do
        let worker ← load (·.worker i)
        let pid ← waitpid i worker who
        if pid = 0 then
          store (·.setControl (.polling (i + 1)))
        else if pid = worker then
          store (·.setControl (.reaped i))
        else
          store (·.setControl (.exited .waitpidFailed))
      else
        store (·.setControl .testing)
  | .reaped i => forkWorker i (.reforked i) (.exited .forkFailed) fork
  | .reforked i pid => do
      store (·.setWorker i pid)
      store (·.setControl (.polling (i + 1)))
  | .ended => await fun _ => false
  | .exited _ => await fun _ => false
  | .terminated => await fun _ => false

/-- The master is still there. -/
def MasterControl.active : MasterControl → Bool
  | .starting _ => true
  | .forked _ _ => true
  | .testing => true
  | .polling _ => true
  | .reaped _ => true
  | .reforked _ _ => true
  | .ended => false
  | .exited _ => false
  | .terminated => false

/-- `signal_SIGUSR1`, from one slot to the next. -/
def handlerStep (n j : Nat) : Prog Master Unit :=
  if j < n then do
    store fun s => { s with handler := some (j + 1) }
    let pid ← load (·.worker j)
    killTerm pid
  else
    store fun s => { s with handler := none, stoppedAt := some (s.stoppedAt.getD s.started) }

/-- One event, for a master with `n` slots. -/
def masterStep (n : Nat) : MasterEvent → Prog Master Unit
  | .main fork who => do
      await (·.handler.isNone)
      let control ← load (·.control)
      mainStep n fork who control
  | .sigusr1 => do
      await fun s => s.handler.isNone && s.control.active
      store fun s => { s with serverRunningFlag := false, handler := some 0 }
  | .handler => do
      let handler ← load (·.handler)
      await fun _ => handler.isSome
      let j ← deref handler
      handlerStep n j
  | .die pid => do
      let proc ← load (·.procs.get pid)
      await fun _ => proc.any fun proc => proc.kind.isWorker && proc.alive
      let proc ← deref proc
      store (·.setProc pid { proc with alive := false })
  | .appear pid => do
      await fun s => decide (0 < pid) && (s.procs.get pid).isNone
      store (·.setProc pid ⟨.foreign, true, false⟩)
  | .vanish pid => do
      await fun s => (s.procs.get pid).any fun proc => decide (proc.kind = .foreign)
      store (·.removeProc pid)

/-! None of it has a loop. -/

instance (i : Nat) (parent : Pid → MasterControl) (failed : MasterControl) (fork : Option Pid) :
    Loopless (forkWorker i parent failed fork) := by
  cases fork <;> unfold forkWorker <;> infer_instance

instance (i : Nat) (children : Bool) (found : Option Pid) :
    Loopless (reapFound i children found) := by
  cases found <;> unfold reapFound <;> infer_instance

instance (i : Nat) (pid who : Pid) : Loopless (waitpid i pid who) := by
  unfold waitpid; infer_instance

instance (pid : Pid) : Loopless (killTerm pid) := by unfold killTerm; infer_instance

instance (n : Nat) (fork : Option Pid) (who : Pid) (control : MasterControl) :
    Loopless (mainStep n fork who control) := by
  cases control <;> unfold mainStep <;> infer_instance

instance (n j : Nat) : Loopless (handlerStep n j) := by unfold handlerStep; infer_instance

instance (n : Nat) (e : MasterEvent) : Loopless (masterStep n e) := by
  cases e <;> unfold masterStep <;> infer_instance

/-- The daemon, with the pid `self`, before it starts its workers. -/
def masterInit (self : Pid) : Master where
  serverRunningFlag := true
  worker _ := 0
  procs := Table.empty.set self ⟨.master, true, false⟩
  control := .starting 0
  handler := none
  started _ := []
  reaped _ := []
  stoppedAt := none

end DmfServer
