-- The semaphore of `sem.c` with the wait queue, `wakeup_proc` and `schedule`: kernel threads that
-- go up and down on it while they are switched, and killed, at any point.
import Mathlib.Data.Finset.Card
import Mathlib.Logic.Function.Basic
import Nehcpu.Cpu.Defines

namespace nehcpu.kernel.semaphore

open cpu Function

/-! ## Threads -/

abbrev WT_INTERRUPTED : Word := 0x80000000#32
abbrev WT_KSEM : Word := 0x00000100#32

inductive ProcState
  | PROC_SLEEPING
  | PROC_RUNNABLE
deriving DecidableEq, Repr

/-- Where a thread is: outside of `__down`, between `wait_current_set` and the call of
`schedule`, or in that call and after it. -/
inductive Place
  | outside
  | waits
  | scheduled
deriving DecidableEq, Repr

/-- `struct proc_struct`, and the `wakeup_flags` of the `wait_t` on the stack of the thread. -/
structure Proc where
  state : ProcState
  wait_state : Word
  exiting : Bool
  place : Place
  wakeup_flags : Word
deriving DecidableEq, Repr

abbrev Pid := Nat

/-- What has happened at the semaphore, for the proofs only. -/
inductive Obs
  | up (pid : Pid)
  | wait (pid : Pid)
  | handoff (pid : Pid)
  | down (pid : Pid)
deriving DecidableEq, Repr

/-- The semaphore, the run queue and the threads. Without a current thread the idle process
runs. A thread has one `wait_t` at most, so the wait queue holds the threads themselves. -/
structure Sys where
  value : Int
  wait_queue : List Pid
  run_list : List Pid
  current : Option Pid
  threads : Finset Pid
  procs : Pid → Proc
  log : List Obs

def Sys.setProc (s : Sys) (pid : Pid) (p : Proc) : Sys :=
  { s with procs := update s.procs pid p }

def Sys.logged (s : Sys) (o : Obs) : Sys := { s with log := s.log ++ [o] }

/-- `sem_init`, before there are threads. -/
def sem_init (value : Int) (procs : Pid → Proc) : Sys := ⟨value, [], [], none, ∅, procs, []⟩

/-! ## The run queue -/

/-- `RR_enqueue`, whose assertion fails for a thread that is in the queue. -/
def enqueue (s : Sys) (pid : Pid) : Option Sys :=
  if pid ∈ s.run_list then none else some { s with run_list := s.run_list ++ [pid] }

/-- `wakeup_proc`. No thread here is a zombie. -/
def wakeup_proc (s : Sys) (pid : Pid) : Option Sys :=
  let p := s.procs pid
  if p.state ≠ .PROC_RUNNABLE then
    let s := s.setProc pid { p with state := .PROC_RUNNABLE, wait_state := 0#32 }
    if s.current ≠ some pid then enqueue s pid else some s
  else some s

/-- The idle process never stands in the run queue. -/
def schedule (s : Sys) : Option Sys :=
  let queued : Option Sys :=
    match s.current with
    | none => some s
    | some pid => if (s.procs pid).state = .PROC_RUNNABLE then enqueue s pid else some s
  queued.map fun s => { s with current := s.run_list.head?, run_list := s.run_list.tail }

/-! ## The semaphore -/

/-- `wakeup_wait` with `del`. -/
def wakeup_wait (s : Sys) (pid : Pid) (wakeup_flags : Word) : Option Sys :=
  let s := { s with wait_queue := s.wait_queue.erase pid }
  wakeup_proc (s.setProc pid { s.procs pid with wakeup_flags := wakeup_flags }) pid

/-- `up` by the thread `pid`. -/
def up (s : Sys) (pid : Pid) : Option Sys :=
  match s.wait_queue with
  | [] => some ({ s with value := s.value + 1 }.logged (.up pid))
  | wait :: _ =>
    if (s.procs wait).wait_state = WT_KSEM then
      (wakeup_wait s wait WT_KSEM).map fun s => (s.logged (.up pid)).logged (.handoff wait)
    else none

/-- `wait_current_set` for the current thread `pid`. -/
def wait_current_set (s : Sys) (pid : Pid) (wait_state : Word) : Option Sys :=
  if pid ∈ s.wait_queue then none
  else
    let s := s.setProc pid { s.procs pid with
      wakeup_flags := WT_INTERRUPTED, state := .PROC_SLEEPING, wait_state := wait_state,
      place := .waits }
    some ({ s with wait_queue := s.wait_queue ++ [pid] }.logged (.wait pid))

/-- `down` by the thread `pid`, up to its return or its call of `schedule`. -/
def down (s : Sys) (pid : Pid) : Option Sys :=
  if s.value > 0 then some ({ s with value := s.value - 1 }.logged (.down pid))
  else wait_current_set s pid WT_KSEM

/-- `try_down` by the thread `pid`. -/
def try_down (s : Sys) (pid : Pid) : Sys :=
  if s.value > 0 then { s with value := s.value - 1 }.logged (.down pid) else s

/-- The call of `schedule` in `__down`. -/
def downSchedule (s : Sys) (pid : Pid) : Option Sys :=
  schedule (s.setProc pid { s.procs pid with place := .scheduled })

/-- The rest of `down` after `schedule`: `wait_current_del`, and the assertion on the flags. -/
def downReturn (s : Sys) (pid : Pid) : Option Sys :=
  let s := { s with wait_queue := s.wait_queue.erase pid }
  let flags := if (s.procs pid).wakeup_flags ≠ WT_KSEM then (s.procs pid).wakeup_flags else 0#32
  if flags = 0#32 then
    some ((s.setProc pid { s.procs pid with place := .outside }).logged (.down pid))
  else none

/-- `do_kill` -/
def do_kill (s : Sys) (pid : Pid) : Option Sys :=
  let p := s.procs pid
  if p.exiting = false then
    let s := s.setProc pid { p with exiting := true }
    if p.wait_state &&& WT_INTERRUPTED ≠ 0#32 then wakeup_proc s pid else some s
  else some s

/-- `do_fork` of a kernel thread: a new process is `PROC_UNINIT` until `wakeup_proc`. -/
def kernel_thread (s : Sys) (pid : Pid) : Option Sys :=
  enqueue ({ s with threads := insert pid s.threads }.setProc pid
    ⟨.PROC_RUNNABLE, 0#32, false, .outside, 0#32⟩) pid

/-! ## Steps -/

/-- What happens next. Each is a stretch of code with the interrupts off; `schedule` is one that
the thread is forced to, or does for a reason of its own. -/
inductive Event
  | kernel_thread (pid : Pid)
  | up
  | down
  | try_down
  | downSchedule
  | downReturn
  | schedule
  | do_kill (pid : Pid)
deriving DecidableEq, Repr

/-- The current thread is at the place. -/
def Sys.At (s : Sys) (place : Place) : Prop := ∃ pid ∈ s.current, (s.procs pid).place = place

instance (s : Sys) (place : Place) : Decidable (s.At place) :=
  inferInstanceAs (Decidable (∃ pid ∈ s.current, _))

/-- The code allows the event now. -/
def Event.Allowed (s : Sys) : Event → Prop
  | .kernel_thread pid => pid ∉ s.threads
  | .up | .down | .try_down => s.At .outside
  | .downSchedule => s.At .waits
  | .downReturn => s.At .scheduled
  | .schedule => True
  | .do_kill pid => pid ∈ s.threads

instance (s : Sys) (e : Event) : Decidable (e.Allowed s) := by
  cases e <;> unfold Event.Allowed <;> infer_instance

/-- The step, where an assertion of the code that fails gives none. -/
def Event.step (s : Sys) : Event → Option Sys
  | .kernel_thread pid => semaphore.kernel_thread s pid
  | .up => s.current.bind (semaphore.up s)
  | .down => s.current.bind (semaphore.down s)
  | .try_down => s.current.map (semaphore.try_down s)
  | .downSchedule => s.current.bind (semaphore.downSchedule s)
  | .downReturn => s.current.bind (semaphore.downReturn s)
  | .schedule => semaphore.schedule s
  | .do_kill pid => semaphore.do_kill s pid

/-- A state that some order of allowed events leads to. -/
inductive Reachable (value : Int) (procs : Pid → Proc) : Sys → Prop
  | start : Reachable value procs (sem_init value procs)
  | step {s s' : Sys} (e : Event) : Reachable value procs s → e.Allowed s → e.step s = some s' →
      Reachable value procs s'

/-! ## What the log says -/

def ups (log : List Obs) : List Pid := log.filterMap fun | .up pid => some pid | _ => none

def downs (log : List Obs) : List Pid := log.filterMap fun | .down pid => some pid | _ => none

def waits (log : List Obs) : List Pid := log.filterMap fun | .wait pid => some pid | _ => none

def handoffs (log : List Obs) : List Pid :=
  log.filterMap fun | .handoff pid => some pid | _ => none

/-- An `up` woke the thread, and it has not returned from `down` yet. -/
def Proc.HandedOff (p : Proc) : Prop := p.place ≠ .outside ∧ p.state = .PROC_RUNNABLE

instance (p : Proc) : Decidable p.HandedOff := inferInstanceAs (Decidable (_ ∧ _))

/-- The threads with a hand-off in flight. -/
def Sys.inFlight (s : Sys) : Finset Pid := s.threads.filter fun pid => (s.procs pid).HandedOff

end nehcpu.kernel.semaphore
