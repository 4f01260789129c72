/-
DmfServer/ThreadPool.lean

The thread pool of dm_threading_pool.c: `thread_pool_init`, `add_task`,
`execute_task` and `thread_pool_destroy`.

The worker `i` dequeues from the queue `i`.  `add_task` draws a queue and then
always takes queue 0.  `thread_pool_destroy` goes over the queues: it puts a
stop message, signals, joins the worker, and destroys the queue; it is called
once, when no call of `add_task` is under way, and none is made afterwards.

* `no_lost_wakeup` — a worker that waits un-signalled has an empty queue;
* `pool_drains_iff` — the pool dispatches every task before it is destroyed
  if and only if no task looks like the stop message: one that does ends its
  worker, and what lies behind it is lost.
-/
import DmfServer.QueueRuns

namespace DmfServer

open Imperative Prog

/-- A worker thread: inside `dequeue` or just back from it, or ended by a
task. -/
inductive PoolWorker where
  | running (d : Dequeue)
  | ended (task : TaskT)
  deriving DecidableEq

/-- `pthread_join` returns. -/
def PoolWorker.hasEnded : PoolWorker → Bool
  | .running _ => false
  | .ended _ => true

/-- Where `thread_pool_destroy` stands in a turn of its loop. -/
inductive DestroyPhase where
  | make
  | enter (call : EnqueueCall)
  | signal
  | join
  | destroy

/-- Where `thread_pool_destroy` stands. -/
inductive Destroyer where
  | idle
  | turn (i : Nat) (phase : DestroyPhase)
  | done

def Destroyer.isIdle : Destroyer → Bool
  | .idle => true
  | .turn _ _ => false
  | .done => false

/-- `thread_pool_t` and its threads.  `added` and `dispatched` are history: the
tasks given to `add_task`, and the tasks each worker has brought to its
switch. -/
structure ThreadPoolT where
  numThreads : Nat
  stop : Bool
  mem : Memory
  adding : List EnqueueCall
  worker : Nat → PoolWorker
  destroyer : Destroyer
  added : List TaskT
  dispatched : Nat → List TaskT

/-- What happens next. -/
inductive PoolAction where
  /-- A thread calls `add_task`. -/
  | addTask (rand : Nat) (num1 : Option Addr) (num2 readOrWrite : Int) (hint : Addr)
  /-- The `k`-th call of `add_task` runs its critical section. -/
  | enter (k who : Nat)
  /-- The worker `i` goes on. -/
  | worker (i : Nat)
  | spurious (i : Nat)
  /-- `thread_pool_destroy` is called, or goes on. -/
  | destroy (hint : Addr) (who : Nat)

namespace ThreadPoolT

def setMem (m : Memory) (s : ThreadPoolT) : ThreadPoolT := { s with mem := m }

def setWorker (s : ThreadPoolT) (i : Nat) (w : PoolWorker) : ThreadPoolT :=
  { s with worker := Function.update s.worker i w }

def setDestroyer (s : ThreadPoolT) (d : Destroyer) : ThreadPoolT := { s with destroyer := d }

def logDispatch (s : ThreadPoolT) (i : Nat) (task : TaskT) : ThreadPoolT :=
  { s with dispatched := Function.update s.dispatched i (s.dispatched i ++ [task]) }

/-- `thread_pool_init`: the queues are fresh, and every thread starts. -/
def threadPoolInit (n : Nat) : ThreadPoolT where
  numThreads := n
  stop := false
  mem := freshMemory n
  adding := []
  worker _ := .running .lock
  destroyer := .idle
  added := []
  dispatched _ := []

end ThreadPoolT

open ThreadPoolT

/-- The test that ends `execute_task`. -/
def TaskT.isExit (task : TaskT) : Bool := task.num1.isNone && task.num2 == -1

/-- `(task_t){NULL, -1}`. -/
def stopTask : TaskT := ⟨none, -1, 0⟩

/-- `add_task` up to the lock in its `enqueue`. -/
def addTask (rand : Nat) (num1 : Option Addr) (num2 readOrWrite : Int) (hint : Addr) :
    Prog ThreadPoolT Unit := do
  let n ← load (·.numThreads)
  -- the index is drawn, which needs a thread, and never used
  let _index ← if n = 0 then fault else pure (rand % n)
  let task : TaskT := ⟨num1, num2, readOrWrite⟩
  let call ← zoom ThreadPoolT.mem setMem (enqueueNode hint 0 task)
  store fun s => { s with adding := call :: s.adding, added := s.added ++ [task] }

/-- `execute_task` by the thread `i`. -/
def executeTask (i : Nat) : PoolWorker → Prog ThreadPoolT Unit
  | .running d => do
      if let some task := d.result then
        if task.isExit then
          store (·.setWorker i (.ended task))
        else do
          -- the calls in the branches of the switch are commented out
          store (·.logDispatch i task)
          store (·.setWorker i (.running .lock))
      else do
        let d' ← zoom ThreadPoolT.mem setMem (dequeueStep i i d)
        store (·.setWorker i (.running d'))
  | .ended _ => await fun _ => false

/-- `thread_pool_destroy`, one step. -/
def threadPoolDestroy (hint : Addr) (who : Nat) : Destroyer → Prog ThreadPoolT Unit
  | .idle => do
      await (·.adding.isEmpty)
      -- nobody reads the flag
      store fun s => { s with stop := true, destroyer := .turn 0 .make }
  | .turn i .make => do
      let n ← load (·.numThreads)
      if i < n then do
        let call ← zoom ThreadPoolT.mem setMem (enqueueNode hint i stopTask)
        store (·.setDestroyer (.turn i (.enter call)))
      else
        store (·.setDestroyer .done)
  | .turn i (.enter call) => do
      zoom ThreadPoolT.mem setMem (enqueueSection call who)
      store (·.setDestroyer (.turn i .signal))
  | .turn i .signal => do
      zoom ThreadPoolT.mem setMem (condSignal i who)
      store (·.setDestroyer (.turn i .join))
  | .turn i .join => do
      await fun s => (s.worker i).hasEnded
      store (·.setDestroyer (.turn i .destroy))
  | .turn i .destroy => do
      zoom ThreadPoolT.mem setMem (queueDestroy i)
      store (·.setDestroyer (.turn (i + 1) .make))
  | .done => await fun _ => false

/-- One action of the threads. -/
def poolStep : PoolAction → Prog ThreadPoolT Unit
  | .addTask rand num1 num2 readOrWrite hint => do
      await (·.destroyer.isIdle)
      addTask rand num1 num2 readOrWrite hint
  | .enter k who => do
      let call ← load fun s => s.adding[k]?
      await fun _ => call.isSome
      let call ← deref call
      zoom ThreadPoolT.mem setMem (enqueueSection call who)
      store fun s => { s with adding := s.adding.eraseIdx k }
  | .worker i => do
      let worker ← load fun s => s.worker i
      await fun s => decide (i < s.numThreads)
      executeTask i worker
  | .spurious i => do
      -- only a thread that sleeps can wake
      await fun s => decide (i < s.numThreads) && decide (s.worker i = .running .asleep)
      zoom ThreadPoolT.mem setMem (spuriousWake i i)
  | .destroy hint who => do
      let destroyer ← load (·.destroyer)
      threadPoolDestroy hint who destroyer

/-! ### The invariant -/

/-- Where a worker stands in its queue; after its last task, behind it. -/
def PoolWorker.place : PoolWorker → Dequeue
  | .running d => d
  | .ended task => .done task

/-- The call of `enqueue` by `thread_pool_destroy`. -/
def Destroyer.calls : Destroyer → List EnqueueCall
  | .turn _ (.enter call) => [call]
  | _ => []

/-- The queues `thread_pool_destroy` has put its stop message into are those
below. -/
def Destroyer.stopped (n : Nat) : Destroyer → Nat
  | .idle => 0
  | .turn i .make => i
  | .turn i (.enter _) => i
  | .turn i .signal => i + 1
  | .turn i .join => i + 1
  | .turn i .destroy => i + 1
  | .done => n

/-- The workers it has joined are those below. -/
def Destroyer.joined (n : Nat) : Destroyer → Nat
  | .idle => 0
  | .turn i .destroy => i + 1
  | .turn i _ => i
  | .done => n

/-- The queues it has destroyed are those below. -/
def Destroyer.destroyed (n : Nat) : Destroyer → Nat
  | .idle => 0
  | .turn i _ => i
  | .done => n

/-- What `thread_pool_destroy` knows where it stands. -/
def Destroyer.Knows (n : Nat) : Destroyer → Prop
  | .idle => True
  | .turn i .make => i ≤ n
  | .turn i (.enter call) => i < n ∧ call.queue = i ∧ call.task = stopTask
  | .turn i _ => i < n
  | .done => True

/-- The worker `i` and its queue: it has dispatched what it took, but for the
task it has just taken or that has ended it. -/
structure AtWork (i : Nat) (w : PoolWorker) (log : List TaskT) (v : Monitor TaskT) : Prop where
  place : At i v w.place
  alert : Alert i v w.place
  taken : v.taken = log ++ w.place.result.toList
  log : ∀ task ∈ log, task.isExit = false
  ended : ∀ task, w = .ended task → task.isExit = true

/-- What is put into the queue `i` while `tasks` come from `add_task`. -/
def putInto (tasks : List TaskT) (stopped i : Nat) : List TaskT :=
  (if i = 0 then tasks else []) ++ if i < stopped then [stopTask] else []

/-- The invariant of a pool with `n` threads: `tasks` have come through
`add_task`. -/
structure ThreadPoolT.Sound (n : Nat) (s : ThreadPoolT) (A : Nat → Monitor TaskT)
    (tasks : List TaskT) : Prop where
  threads : s.numThreads = n
  rep : Rep s.mem A (s.adding ++ s.destroyer.calls)
  live : ∀ i < n, (A i).destroyed = decide (i < s.destroyer.destroyed n)
  adding : ∀ call ∈ s.adding, call.queue = 0
  quiet : s.destroyer.isIdle = false → s.adding = []
  knows : s.destroyer.Knows n
  joined : ∀ i < n, i < s.destroyer.joined n → (s.worker i).hasEnded = true
  work : ∀ i < n, AtWork i (s.worker i) (s.dispatched i) (A i)
  put : ∀ i < n, (A i).put = putInto tasks (s.destroyer.stopped n) i
  added : s.added.Perm (tasks ++ s.adding.map (·.task))

variable {n i k who : Nat} {s s' : ThreadPoolT} {A : Nat → Monitor TaskT} {tasks : List TaskT}
  {w : PoolWorker} {log : List TaskT} {v v' : Monitor TaskT} {d d' : Dequeue} {task : TaskT}

theorem ThreadPoolT.init_sound (n : Nat) :
    (threadPoolInit n).Sound n
      (fun q => { Monitor.init with destroyed := decide (n ≤ q) }) [] where
  threads := rfl
  rep := freshMemory_rep n
  live i hi := by simp [threadPoolInit, Destroyer.destroyed, hi]
  adding call hc := absurd hc List.not_mem_nil
  quiet _ := rfl
  knows := trivial
  joined i _ hi := absurd hi (Nat.not_lt_zero i)
  work i _ :=
    ⟨trivial, .of_nil rfl, rfl, fun _ ht => absurd ht List.not_mem_nil, fun _ hw => nomatch hw⟩
  put i _ := by simp [Monitor.init, putInto, threadPoolInit, Destroyer.stopped]
  added := List.Perm.refl []

/-- One queue changed. -/
theorem forall_update {P : Nat → Monitor TaskT → Prop} (h : ∀ j < n, P j (A j)) (hv : P i v) :
    ∀ j < n, P j (Function.update A i v j) := by
  intro j hj
  rcases eq_or_ne j i with rfl | hne
  · rwa [Function.update_self]
  · rw [Function.update_of_ne hne]
    exact h j hj

/-! ### A worker and its queue -/

theorem AtWork.append (h : AtWork i w log v) (hfree : v.holder = none) :
    AtWork i w log (v.append task who) :=
  { h with place := h.place.frame (by simp [hfree]), alert := h.alert.append }

/-- A signal, or a wake-up for no reason. -/
theorem AtWork.fewer (h : AtWork i w log v) (hw : v'.waiting.Sublist v.waiting)
    (hh : v'.holder = v.holder) (hi : v'.items = v.items) (ht : v'.taken = v.taken) :
    AtWork i w log v' :=
  { h with
    place := h.place.congr hh hi
    alert := h.alert.fewer hw hi
    taken := ht.trans h.taken }

theorem AtWork.moves (h : AtWork i (.running d) log v) (hd : d.result = none)
    (hm : Moves i d v d' v') : AtWork i (.running d') log v' where
  place := h.place.moves hm
  alert := h.alert.moves h.place hm
  taken := by
    rw [hm.taken hd, h.taken, PoolWorker.place, hd, Option.toList_none, List.append_nil]
    rfl
  log := h.log
  ended _ hw := nomatch hw

theorem AtWork.exit (h : AtWork i (.running (.done task)) log v) (ht : task.isExit = true) :
    AtWork i (.ended task) log v :=
  { h with
    ended := fun _ hw => by
      obtain rfl := PoolWorker.ended.inj hw
      exact ht }

theorem AtWork.dispatch (h : AtWork i (.running (.done task)) log v) (ht : task.isExit = false) :
    AtWork i (.running .lock) (log ++ [task]) v where
  place := trivial
  alert := .of_nil (h.alert.not_mem (by simp [PoolWorker.place]))
  taken := h.taken.trans (List.append_nil _).symm
  log := List.forall_mem_append.mpr ⟨h.log, List.forall_mem_singleton.mpr ht⟩
  ended _ hw := nomatch hw

/-! ### Every action keeps the invariant -/

/-- How the tasks go through `add_task`: an action makes a call, or runs the
critical section of one, or leaves them alone. -/
def PoolAction.Passes (s : ThreadPoolT) (tasks : List TaskT) (s' : ThreadPoolT)
    (tasks' : List TaskT) : PoolAction → Prop
  | .addTask _ num1 num2 readOrWrite _ => ∃ call : EnqueueCall,
      call.task = ⟨num1, num2, readOrWrite⟩ ∧ s'.adding = call :: s.adding ∧
      s'.added = s.added ++ [⟨num1, num2, readOrWrite⟩] ∧ tasks' = tasks
  | .enter k _ => ∃ call, s.adding[k]? = some call ∧ s'.adding = s.adding.eraseIdx k ∧
      s'.added = s.added ∧ tasks' = tasks ++ [call.task]
  | .worker _ => s'.adding = s.adding ∧ s'.added = s.added ∧ tasks' = tasks
  | .spurious _ => s'.adding = s.adding ∧ s'.added = s.added ∧ tasks' = tasks
  | .destroy _ _ => s'.adding = s.adding ∧ s'.added = s.added ∧ tasks' = tasks

/-- What a step does to the invariant: it holds again, with the tasks passed
on by `a`. -/
def ThreadPoolT.Onward (n : Nat) (a : PoolAction) (s : ThreadPoolT) (tasks : List TaskT)
    (s' : ThreadPoolT) : Prop :=
  ∃ A' tasks', s'.Sound n A' tasks' ∧ a.Passes s tasks s' tasks'

theorem Destroyer.joined_of_destroyed {d : Destroyer} (hi : i < d.destroyed n) :
    i < d.joined n := by
  match d with
  | .idle => exact hi
  | .turn j .make => exact hi
  | .turn j (.enter _) => exact hi
  | .turn j .signal => exact hi
  | .turn j .join => exact hi
  | .turn j .destroy => exact Nat.lt_succ_of_lt hi
  | .done => exact hi

namespace ThreadPoolT

/-- A queue is in use as long as its worker is. -/
theorem Sound.running (h : s.Sound n A tasks) (hi : i < n)
    (hw : (s.worker i).hasEnded = false) : (A i).destroyed = false := by
  rw [h.live i hi, decide_eq_false_iff_not]
  intro hd
  rw [h.joined i hi (Destroyer.joined_of_destroyed hd)] at hw
  cases hw

/-- While `add_task` may be called, every queue is in use. -/
theorem Sound.idle (h : s.Sound n A tasks) (hi : i < n) (hd : s.destroyer.isIdle = true) :
    (A i).destroyed = false := by
  rw [h.live i hi]
  cases hs : s.destroyer with
  | idle => exact decide_eq_false (Nat.not_lt_zero i)
  | turn j phase => rw [hs] at hd; cases hd
  | done => rw [hs] at hd; cases hd

theorem addTask_sound (h : s.Sound n A tasks) (hn : 0 < n) (rand : Nat) (num1 : Option Addr)
    (num2 readOrWrite : Int) (hint : Addr) :
    Safe (poolStep (.addTask rand num1 num2 readOrWrite hint)) s fun _ =>
      Onward n (.addTask rand num1 num2 readOrWrite hint) s tasks := by
  rw [poolStep, safe_await_bind]
  intro hidle
  rw [addTask, safe_load_bind, h.threads, if_neg hn.ne', safe_pure_bind]
  apply Safe.zoom_bind
  apply (enqueueNode_spec hint 0 _ h.rep).mono
  rintro call m ⟨hcall, htask, hrep⟩
  rw [safe_store]
  refine ⟨A, tasks, { h with rep := hrep, adding := ?_, quiet := ?_, added := ?_ },
    call, htask, rfl, rfl, rfl⟩
  · intro call' hc
    rcases List.mem_cons.mp hc with rfl | hc
    · exact hcall
    · exact h.adding call' hc
  · intro hbusy
    exact absurd hidle (hbusy.symm ▸ Bool.false_ne_true)
  · rw [List.map_cons, htask]
    exact (h.added.append_right _).trans (by
      rw [List.append_assoc]
      exact (List.perm_append_singleton _ _).append_left tasks)

theorem enter_sound (h : s.Sound n A tasks) (hn : 0 < n) (k who : Nat) :
    Safe (poolStep (.enter k who)) s fun _ => Onward n (.enter k who) s tasks := by
  rw [poolStep, safe_load_bind, safe_await_bind]
  intro hk
  obtain ⟨call, hcall⟩ := Option.isSome_iff_exists.mp hk
  obtain ⟨hlt, rfl⟩ := List.getElem?_eq_some_iff.mp hcall
  rw [hcall, safe_deref_bind]
  have hidle : s.destroyer.isIdle = true := by
    by_contra hbusy
    rw [h.quiet (Bool.eq_false_iff.mpr hbusy)] at hlt
    exact Nat.not_lt_zero _ hlt
  have hq : s.adding[k].queue = 0 := h.adding _ (List.getElem_mem hlt)
  have hperm := List.getElem_cons_eraseIdx_perm hlt
  have hrep : Rep s.mem A (s.adding[k] :: (s.adding.eraseIdx k ++ s.destroyer.calls)) :=
    h.rep.perm (hperm.symm.append_right s.destroyer.calls)
  have hlive := h.idle hn hidle
  apply Safe.zoom_bind
  apply (enqueueSection_spec who hrep (hq ▸ hlive)).mono
  rw [hq]
  rintro ⟨⟩ m ⟨hfree, hrep⟩
  rw [safe_store]
  refine ⟨_, tasks ++ [s.adding[k].task], { h with
    rep := hrep, live := ?_, adding := ?_, quiet := ?_, work := ?_, put := ?_, added := ?_ },
    _, hcall, rfl, rfl, rfl⟩
  · exact forall_update (P := fun j v => v.destroyed = decide (j < s.destroyer.destroyed n)) h.live
      (h.live 0 hn)
  · exact fun call hc => h.adding call (List.mem_of_mem_eraseIdx hc)
  · intro hbusy
    exact absurd hidle (hbusy.symm ▸ Bool.false_ne_true)
  · exact forall_update (P := fun j v => AtWork j (s.worker j) (s.dispatched j) v) h.work
      ((h.work 0 hn).append hfree)
  · -- nothing was stopped yet, so the task is put last
    have hstop : s.destroyer.stopped n = 0 := by
      cases hs : s.destroyer with
      | idle => rfl
      | turn j phase => rw [hs] at hidle; cases hidle
      | done => rw [hs] at hidle; cases hidle
    have hput : ∀ j < n, (A j).put = putInto tasks 0 j := fun j hj => hstop ▸ h.put j hj
    show ∀ j < n, _ = putInto _ (s.destroyer.stopped n) j
    rw [hstop]
    intro j hj
    rcases eq_or_ne j 0 with rfl | hne
    · rw [Function.update_self, Monitor.append_put, hput 0 hj]
      simp [putInto]
    · rw [Function.update_of_ne hne, hput j hj, putInto, putInto, if_neg hne, if_neg hne]
  · refine h.added.trans ?_
    rw [List.append_assoc]
    exact (hperm.symm.map (·.task)).append_left tasks

/-- The worker `i` went on. -/
theorem Sound.setWorker {m : Memory} (h : s.Sound n A tasks) (hw : (s.worker i).hasEnded = false)
    (hrep : Rep m (Function.update A i v) (s.adding ++ s.destroyer.calls))
    (hput : v.put = (A i).put) (hd : v.destroyed = (A i).destroyed) (hwork : AtWork i w log v) :
    ThreadPoolT.Sound n
      { s with
        mem := m, worker := Function.update s.worker i w
        dispatched := Function.update s.dispatched i log }
      (Function.update A i v) tasks where
  threads := h.threads
  rep := hrep
  live j hj := by
    rcases eq_or_ne j i with rfl | hne
    · rw [Function.update_self, hd, h.live j hj]
    · rw [Function.update_of_ne hne, h.live j hj]
  adding := h.adding
  quiet := h.quiet
  knows := h.knows
  joined j hj hjoined := by
    have hend := h.joined j hj hjoined
    rcases eq_or_ne j i with rfl | hne
    · rw [hw] at hend
      cases hend
    · simp only [Function.update_of_ne hne]
      exact hend
  work j hj := by
    rcases eq_or_ne j i with rfl | hne
    · simp only [Function.update_self]
      exact hwork
    · simp only [Function.update_of_ne hne]
      exact h.work j hj
  put j hj := by
    rcases eq_or_ne j i with rfl | hne
    · rw [Function.update_self, hput, h.put j hj]
    · rw [Function.update_of_ne hne, h.put j hj]
  added := h.added

theorem worker_sound (h : s.Sound n A tasks) (i : Nat) :
    Safe (poolStep (.worker i)) s fun _ => Onward n (.worker i) s tasks := by
  rw [poolStep, safe_load_bind, safe_await_bind, h.threads]
  intro hi
  have hi := of_decide_eq_true hi
  have hwork := h.work i hi
  cases hw : s.worker i with
  | ended task =>
      rw [executeTask, safe_await]
      exact fun hf => nomatch hf
  | running d =>
      have hrun : (s.worker i).hasEnded = false := by rw [hw]; rfl
      have hself := Function.update_eq_self i A
      rw [hw] at hwork
      rw [executeTask]
      cases hd : d.result with
      | some task =>
          obtain rfl := Consumer.result_eq_some.mp hd
          have hrep : Rep s.mem (Function.update A i (A i)) _ := hself.symm ▸ h.rep
          dsimp only
          split_ifs with ht
          · rw [safe_store]
            have hs := h.setWorker hrun hrep rfl rfl (hwork.exit ht)
            rw [Function.update_eq_self i s.dispatched] at hs
            exact ⟨_, tasks, hs, rfl, rfl, rfl⟩
          · rw [safe_store_bind, safe_store]
            exact ⟨_, tasks,
              h.setWorker hrun hrep rfl rfl (hwork.dispatch (Bool.eq_false_iff.mpr ht)),
              rfl, rfl, rfl⟩
      | none =>
          apply Safe.zoom_bind
          apply (dequeueStep_spec h.rep (h.running hi hrun) hwork.place).mono
          rintro d' m ⟨v, hmoves, hrep⟩
          rw [safe_store]
          have hs := h.setWorker hrun hrep hmoves.put hmoves.destroyed (hwork.moves hd hmoves)
          rw [Function.update_eq_self i s.dispatched] at hs
          exact ⟨_, tasks, hs, rfl, rfl, rfl⟩

theorem spurious_sound (h : s.Sound n A tasks) (i : Nat) :
    Safe (poolStep (.spurious i)) s fun _ => Onward n (.spurious i) s tasks := by
  rw [poolStep, safe_await_bind, h.threads, Bool.and_eq_true]
  rintro ⟨hi, hw⟩
  have hi := of_decide_eq_true hi
  have hw : s.worker i = .running .asleep := of_decide_eq_true hw
  have hrun : (s.worker i).hasEnded = false := by rw [hw]; rfl
  apply (spuriousWake_spec i h.rep (h.running hi hrun)).zoom.mono
  rintro ⟨⟩ s' ⟨m, hrep, rfl⟩
  have hwork : AtWork i (s.worker i) (s.dispatched i) ((A i).wake i) :=
    (h.work i hi).fewer List.erase_sublist rfl rfl rfl
  have hs := h.setWorker hrun hrep rfl rfl hwork
  rw [Function.update_eq_self i s.worker, Function.update_eq_self i s.dispatched] at hs
  exact ⟨_, tasks, hs, rfl, rfl, rfl⟩

/-! ### `thread_pool_destroy` -/

/-- `thread_pool_destroy` went on. -/
theorem Sound.setDestroyer {A' : Nat → Monitor TaskT} {m : Memory} {d : Destroyer} {b : Bool}
    (h : s.Sound n A tasks) (hadding : s.adding = []) (hrep : Rep m A' d.calls)
    (hknows : d.Knows n) (hlive : ∀ j < n, (A' j).destroyed = decide (j < d.destroyed n))
    (hjoined : ∀ j < n, j < d.joined n → (s.worker j).hasEnded = true)
    (hwork : ∀ j < n, AtWork j (s.worker j) (s.dispatched j) (A' j))
    (hput : ∀ j < n, (A' j).put = putInto tasks (d.stopped n) j) :
    ThreadPoolT.Sound n { s with mem := m, stop := b, destroyer := d } A' tasks where
  threads := h.threads
  rep := by rwa [hadding]
  live := hlive
  adding := h.adding
  quiet _ := hadding
  knows := hknows
  joined := hjoined
  work := hwork
  put := hput
  added := h.added

theorem putInto_succ (tasks : List TaskT) (i j : Nat) :
    putInto tasks (i + 1) j =
      if j = i then putInto tasks i j ++ [stopTask] else putInto tasks i j := by
  rcases Nat.lt_trichotomy j i with hlt | rfl | hlt
  · rw [if_neg hlt.ne, putInto, putInto, if_pos hlt, if_pos (Nat.lt_succ_of_lt hlt)]
  · rw [if_pos rfl, putInto, putInto, if_pos (Nat.lt_succ_self j), if_neg (Nat.lt_irrefl j),
      List.append_nil]
  · rw [if_neg hlt.ne', putInto, putInto, if_neg hlt.not_gt,
      if_neg (show ¬ j < i + 1 by omega)]

/-- Beyond the loop of `thread_pool_destroy`, all queues are behind it. -/
theorem putInto_all {j : Nat} (hj : j < n) (hi : n ≤ i) :
    putInto tasks n j = putInto tasks i j := by
  rw [putInto, putInto, if_pos hj, if_pos (Nat.lt_of_lt_of_le hj hi)]

theorem destroy_sound (h : s.Sound n A tasks) (hint : Addr) (who : Nat) :
    Safe (poolStep (.destroy hint who)) s fun _ => Onward n (.destroy hint who) s tasks := by
  rw [poolStep, safe_load_bind]
  have hrep := h.rep
  have hknows := h.knows
  have hlive := h.live
  have hjoined := h.joined
  have hput := h.put
  have hquiet := h.quiet
  match hs : s.destroyer with
  | .idle =>
      rw [hs] at hrep hlive hput
      rw [threadPoolDestroy, safe_await_bind, safe_store]
      intro hempty
      have hadding : s.adding = [] := List.isEmpty_iff.mp hempty
      rw [hadding] at hrep
      exact ⟨A, tasks, h.setDestroyer hadding hrep (Nat.zero_le n) hlive
        (fun j _ hj => absurd hj (Nat.not_lt_zero j)) h.work hput, rfl, rfl, rfl⟩
  | .turn i .make =>
      rw [hs] at hrep hlive hput hjoined hknows hquiet
      have hadding := hquiet rfl
      rw [hadding] at hrep
      rw [threadPoolDestroy, safe_load_bind, h.threads]
      split_ifs with hi
      · apply Safe.zoom_bind
        apply (enqueueNode_spec hint i stopTask hrep).mono
        rintro call m ⟨hcall, htask, hrep⟩
        rw [safe_store]
        exact ⟨A, tasks,
          h.setDestroyer hadding hrep ⟨hi, hcall, htask⟩ hlive hjoined h.work hput, rfl, rfl, rfl⟩
      · -- the loop has ended, and all queues are behind it
        rw [safe_store]
        have hle : n ≤ i := Nat.le_of_not_lt hi
        have hlt : ∀ j < n, j < i := fun j hj => Nat.lt_of_lt_of_le hj hle
        refine ⟨A, tasks, h.setDestroyer hadding hrep trivial ?_ ?_ h.work ?_, rfl, rfl, rfl⟩
        · intro j hj
          rw [hlive j hj]
          exact decide_eq_decide.mpr (iff_of_true (hlt j hj) hj)
        · exact fun j hj _ => hjoined j hj (hlt j hj)
        · intro j hj
          rw [hput j hj]
          exact (putInto_all hj hle).symm
  | .turn i (.enter call) =>
      rw [hs] at hrep hlive hput hjoined hknows hquiet
      obtain ⟨hi, rfl, htask⟩ := hknows
      have hadding := hquiet rfl
      rw [hadding] at hrep
      have hd : (A call.queue).destroyed = false :=
        (hlive _ hi).trans (decide_eq_false (Nat.lt_irrefl _))
      rw [threadPoolDestroy]
      apply Safe.zoom_bind
      apply (enqueueSection_spec who hrep hd).mono
      rintro ⟨⟩ m ⟨hfree, hrep⟩
      rw [safe_store]
      refine ⟨_, tasks, h.setDestroyer hadding hrep hi ?_ hjoined ?_ ?_, rfl, rfl, rfl⟩
      · exact forall_update (P := fun j v => v.destroyed = decide (j < call.queue)) hlive
          (hlive _ hi)
      · exact forall_update (P := fun j v => AtWork j (s.worker j) (s.dispatched j) v) h.work
          ((h.work _ hi).append hfree)
      · intro j hj
        have hbefore : (A j).put = putInto tasks call.queue j := hput j hj
        show _ = putInto tasks (call.queue + 1) j
        rw [putInto_succ, ← hbefore]
        split_ifs with hj
        · rw [hj, Function.update_self, Monitor.append_put, htask]
        · rw [Function.update_of_ne hj]
  | .turn i .signal =>
      rw [hs] at hrep hlive hput hjoined hknows hquiet
      have hi : i < n := hknows
      have hadding := hquiet rfl
      rw [hadding] at hrep
      have hd : (A i).destroyed = false := (hlive i hi).trans (decide_eq_false (Nat.lt_irrefl i))
      rw [threadPoolDestroy]
      apply Safe.zoom_bind
      apply (condSignal_spec who hrep hd).mono
      intro _ m hrep
      rw [safe_store]
      refine ⟨_, tasks, h.setDestroyer hadding hrep hi ?_ hjoined ?_ ?_, rfl, rfl, rfl⟩
      · exact forall_update (P := fun j v => v.destroyed = decide (j < i)) hlive (hlive i hi)
      · exact forall_update (P := fun j v => AtWork j (s.worker j) (s.dispatched j) v) h.work
          ((h.work i hi).fewer (signal_sublist who _) rfl rfl rfl)
      · exact forall_update (P := fun j v => v.put = putInto tasks (i + 1) j) hput (hput i hi)
  | .turn i .join =>
      rw [hs] at hrep hlive hput hjoined hknows hquiet
      have hadding := hquiet rfl
      rw [hadding] at hrep
      rw [threadPoolDestroy, safe_await_bind]
      intro hend
      rw [safe_store]
      refine ⟨A, tasks, h.setDestroyer hadding hrep hknows hlive ?_ h.work hput, rfl, rfl, rfl⟩
      intro j hj hle
      rcases Nat.lt_succ_iff_lt_or_eq.mp hle with hlt | rfl
      · exact hjoined j hj hlt
      · exact hend
  | .turn i .destroy =>
      rw [hs] at hrep hlive hput hjoined hknows hquiet
      have hi : i < n := hknows
      have hadding := hquiet rfl
      rw [hadding] at hrep
      have hd : (A i).destroyed = false := (hlive i hi).trans (decide_eq_false (Nat.lt_irrefl i))
      rw [threadPoolDestroy]
      apply Safe.zoom_bind
      apply (queueDestroy_spec hrep hd).mono
      intro _ m hrep
      rw [safe_store]
      refine ⟨_, tasks, h.setDestroyer hadding hrep hi ?_ hjoined ?_ ?_, rfl, rfl, rfl⟩
      · intro j hj
        show _ = decide (j < i + 1)
        rcases eq_or_ne j i with rfl | hne
        · rw [Function.update_self, Monitor.destroy_destroyed, decide_eq_true (Nat.lt_succ_self j)]
        · have hbefore : (A j).destroyed = decide (j < i) := hlive j hj
          rw [Function.update_of_ne hne, hbefore]
          exact decide_eq_decide.mpr ⟨Nat.lt_succ_of_lt, fun hlt => by omega⟩
      · exact forall_update (P := fun j v => AtWork j (s.worker j) (s.dispatched j) v) h.work
          ((h.work i hi).fewer (List.Sublist.refl _) rfl rfl rfl)
      · exact forall_update (P := fun j v => v.put = putInto tasks (i + 1) j) hput (hput i hi)
  | .done =>
      rw [threadPoolDestroy, safe_await]
      exact fun hf => nomatch hf

theorem poolStep_sound (hn : 0 < n) (a : PoolAction) (h : s.Sound n A tasks) :
    Safe (poolStep a) s fun _ => Onward n a s tasks := by
  cases a with
  | addTask rand num1 num2 readOrWrite hint =>
      exact addTask_sound h hn rand num1 num2 readOrWrite hint
  | enter k who => exact enter_sound h hn k who
  | worker i => exact worker_sound h i
  | spurious i => exact spurious_sound h i
  | destroy hint who => exact destroy_sound h hint who

theorem pool_sound {as : List PoolAction} (hn : 0 < n)
    (h : Runs poolStep (threadPoolInit n) as s) : ∃ A tasks, s.Sound n A tasks := by
  refine h.invariant (fun s => ∃ A tasks, s.Sound n A tasks) ⟨_, [], init_sound n⟩ ?_
  rintro a s ⟨A, tasks, h⟩
  refine (poolStep_sound hn a h).mono ?_
  rintro - s' ⟨A', tasks', h', -⟩
  exact ⟨A', tasks', h'⟩

end ThreadPoolT

instance (a : PoolAction) : Loopless (poolStep a) := by
  cases a with
  | addTask rand num1 num2 readOrWrite hint => unfold poolStep addTask; infer_instance
  | enter k who => unfold poolStep; infer_instance
  | worker i =>
      have hexecute : ∀ w, Loopless (executeTask i w) := by
        intro w
        cases w with
        | running d =>
            simp only [executeTask]
            cases d.result <;> infer_instance
        | ended task => unfold executeTask; infer_instance
      unfold poolStep
      infer_instance
  | spurious i => unfold poolStep; infer_instance
  | destroy hint who =>
      have hdestroy : ∀ d, Loopless (threadPoolDestroy hint who d) := by
        intro d
        match d with
        | .idle => unfold threadPoolDestroy; infer_instance
        | .turn i .make => unfold threadPoolDestroy; infer_instance
        | .turn i (.enter call) => unfold threadPoolDestroy; infer_instance
        | .turn i .signal => unfold threadPoolDestroy; infer_instance
        | .turn i .join => unfold threadPoolDestroy; infer_instance
        | .turn i .destroy => unfold threadPoolDestroy; infer_instance
        | .done => unfold threadPoolDestroy; infer_instance
      unfold poolStep
      infer_instance

/-! ### Wake-ups -/

/-- **No wake-up is lost.**  A worker that waits un-signalled on its condition
has an empty queue, although only the first task of a queue is signalled. -/
theorem no_lost_wakeup {as : List PoolAction} (h : Runs poolStep (threadPoolInit n) as s)
    (hi : i < n) {x : QueueT} (hx : s.mem.queues.get i = some x) :
    ¬ (s.worker i = .running .asleep ∧ i ∈ x.cond ∧ x.head ≠ none) := by
  rintro ⟨-, hwait, hhead⟩
  obtain ⟨A, tasks, hs⟩ := ThreadPoolT.pool_sound (Nat.zero_lt_of_lt hi) h
  obtain ⟨L, hL⟩ := hs.rep
  rw [hL.cond i x hx] at hwait
  have hempty := ((hs.work i hi).alert.empty hwait).2
  have hnone := hL.isNone hx
  rw [hempty] at hnone
  exact hhead (Option.isNone_iff_eq_none.mp hnone)

/-- The worker has found its queue empty and sleeps; the task that comes then
wakes it. -/
def sleepingWorker : List PoolAction :=
  [.worker 0, .worker 0, .worker 0, .addTask 3 (some 7) 1 2 5, .enter 0 1]

theorem no_lost_wakeup_sleeping :
    ∃ s x, Runs poolStep (threadPoolInit 1) sleepingWorker s ∧ s.mem.queues.get 0 = some x ∧
      s.worker 0 = .running .asleep ∧ x.head = some 5 ∧ x.cond = [] ∧
      ¬ (s.worker 0 = .running .asleep ∧ 0 ∈ x.cond ∧ x.head ≠ none) := by
  have hrun : Runs poolStep (threadPoolInit 1) sleepingWorker _ := Runs.of_exec rfl
  exact ⟨_, _, hrun, rfl, rfl, rfl, rfl, no_lost_wakeup hrun Nat.one_pos rfl⟩

/-! ### Shutdown -/

/-- The tasks the workers brought to their switch. -/
def ThreadPoolT.allDispatched (s : ThreadPoolT) : List TaskT :=
  (List.range s.numThreads).flatMap s.dispatched

/-- When `thread_pool_destroy` returns every task was dispatched, and a worker
ends by the stop message, which is the last task of its queue. -/
structure LosesNoTask (s : ThreadPoolT) : Prop where
  dispatched : s.destroyer = .done → s.allDispatched.Perm s.added
  ended : ∀ i < s.numThreads, (s.worker i).hasEnded = true →
    i < s.destroyer.stopped s.numThreads ∧ s.mem.dequeued i = s.mem.enqueued i

theorem TaskT.isExit_eq_false : task.isExit = false ↔ ¬ (task.num1 = none ∧ task.num2 = -1) := by
  rw [isExit, Bool.and_eq_false_iff, not_and_or, Option.isNone_eq_false_iff,
    Option.isSome_iff_ne_none, beq_eq_false_iff_ne]

namespace ThreadPoolT

/-- With no exit task from `add_task`, a worker that ended has taken all that
was put into its queue, the stop message last. -/
theorem Sound.ended (h : s.Sound n A tasks) (htasks : ∀ task ∈ tasks, task.isExit = false)
    (hi : i < n) (hend : (s.worker i).hasEnded = true) :
    i < s.destroyer.stopped n ∧ s.dispatched i = (if i = 0 then tasks else []) ∧
      s.mem.dequeued i = s.mem.enqueued i := by
  obtain ⟨L, hL⟩ := h.rep
  have hwork := h.work i hi
  have hput := h.put i hi
  cases hw : s.worker i with
  | running d => rw [hw] at hend; cases hend
  | ended task =>
      rw [hw] at hwork
      have hexit := hwork.ended task rfl
      have htaken : (A i).taken = s.dispatched i ++ [task] := hwork.taken
      have hpre : s.dispatched i ++ [task] <+: putInto tasks (s.destroyer.stopped n) i := by
        rw [← htaken, ← hput]
        exact (A i).taken_isPrefix
      -- the task that ended the worker does not come from `add_task`
      have hno : ¬ s.dispatched i ++ [task] <+: if i = 0 then tasks else [] := by
        intro hp
        have hm : task ∈ if i = 0 then tasks else [] := hp.mem (by simp)
        split_ifs at hm with h0
        · rw [htasks task hm] at hexit
          cases hexit
        · cases hm
      rw [putInto] at hpre
      by_cases hstop : i < s.destroyer.stopped n
      · rw [if_pos hstop] at hpre
        rcases List.prefix_concat_iff.mp hpre with he | hp
        · refine ⟨hstop, (List.append_inj' he rfl).1, ?_⟩
          rw [hL.dequeued, hL.enqueued, htaken, hput, putInto, if_pos hstop, he]
        · exact absurd hp hno
      · rw [if_neg hstop, List.append_nil] at hpre
        exact absurd hpre hno

theorem Sound.losesNoTask (h : s.Sound n A tasks) (hn : 0 < n)
    (hadded : ∀ task ∈ s.added, task.isExit = false) : LosesNoTask s := by
  have htasks : ∀ task ∈ tasks, task.isExit = false := fun task ht =>
    hadded task (h.added.mem_iff.mpr (List.mem_append_left _ ht))
  refine ⟨fun hdone => ?_, fun i hi hend => ?_⟩
  · have hadding : s.adding = [] := h.quiet (by rw [hdone]; rfl)
    have hall : ∀ i < n, s.dispatched i = if i = 0 then tasks else [] := by
      intro i hi
      exact (h.ended htasks hi (h.joined i hi (by rw [hdone]; exact hi))).2.1
    have hflat : s.allDispatched = tasks := by
      obtain ⟨m, rfl⟩ := Nat.exists_eq_add_one_of_ne_zero hn.ne'
      rw [allDispatched, h.threads, List.range_succ_eq_map, List.flatMap_cons, hall 0 hn,
        if_pos rfl]
      have hrest : (List.map Nat.succ (List.range m)).flatMap s.dispatched = [] := by
        rw [List.flatMap_eq_nil_iff]
        intro i hi
        obtain ⟨j, hj, rfl⟩ := List.mem_map.mp hi
        rw [hall _ (Nat.succ_lt_succ (List.mem_range.mp hj)), if_neg (Nat.succ_ne_zero j)]
      rw [hrest, List.append_nil]
    have hperm := h.added
    rw [hadding, List.map_nil, List.append_nil] at hperm
    rw [hflat]
    exact hperm.symm
  · rw [h.threads] at hi ⊢
    obtain ⟨hstop, -, he⟩ := h.ended htasks hi hend
    exact ⟨hstop, he⟩

end ThreadPoolT

/-- **Shutdown.**  If no task looks like the stop message the pool loses none
of them, and no worker ends before its stop message.  That is exact: a pool
that was destroyed after such a task has lost it. -/
theorem pool_drains_iff {as : List PoolAction} (hn : 0 < n)
    (h : Runs poolStep (threadPoolInit n) as s) :
    ((∀ task ∈ s.added, ¬ (task.num1 = none ∧ task.num2 = -1)) → LosesNoTask s) ∧
    (s.destroyer = .done →
      (LosesNoTask s ↔ ∀ task ∈ s.added, ¬ (task.num1 = none ∧ task.num2 = -1))) := by
  obtain ⟨A, tasks, hs⟩ := ThreadPoolT.pool_sound hn h
  have hkept : (∀ task ∈ s.added, ¬ (task.num1 = none ∧ task.num2 = -1)) → LosesNoTask s :=
    fun hadded => hs.losesNoTask hn fun task ht => TaskT.isExit_eq_false.mpr (hadded task ht)
  refine ⟨hkept, fun hdone => ⟨fun hd task ht => ?_, hkept⟩⟩
  -- what was dispatched has passed the exit test
  have hm : task ∈ s.allDispatched := (hd.dispatched hdone).mem_iff.mpr ht
  obtain ⟨i, hi, hlog⟩ := List.mem_flatMap.mp hm
  rw [List.mem_range, hs.threads] at hi
  exact TaskT.isExit_eq_false.mp ((hs.work i hi).log task hlog)

/-- One task is dispatched while the pool runs, the other one after its
shutdown has begun. -/
def orderlyShutdown : List PoolAction :=
  [.addTask 3 (some 7) 1 2 5, .addTask 4 none 6 3 9, .enter 1 0, .worker 0, .worker 0, .worker 0,
    .worker 0, .enter 0 0, .destroy 0 0, .destroy 5 0, .worker 0, .worker 0, .worker 0, .worker 0,
    .destroy 0 0, .worker 0, .worker 0, .worker 0, .worker 0, .destroy 0 0, .destroy 0 0,
    .destroy 0 0, .destroy 0 0]

theorem pool_drains_orderly :
    ∃ s, Runs poolStep (threadPoolInit 1) orderlyShutdown s ∧ s.destroyer = .done ∧
      s.added = [⟨some 7, 1, 2⟩, ⟨none, 6, 3⟩] ∧ LosesNoTask s := by
  have hrun : Runs poolStep (threadPoolInit 1) orderlyShutdown _ := Runs.of_exec rfl
  refine ⟨_, hrun, rfl, rfl, ((pool_drains_iff Nat.one_pos hrun).2 rfl).mpr ?_⟩
  show ∀ task ∈ ([⟨some 7, 1, 2⟩, ⟨none, 6, 3⟩] : List TaskT), _
  decide

/-- A task that looks like the stop message, and one behind it. -/
def exitTaskAdded : List PoolAction :=
  [.addTask 3 none (-1) 2 5, .enter 0 0, .addTask 4 (some 7) 1 2 9, .enter 0 0, .worker 0,
    .worker 0, .worker 0, .worker 0, .destroy 0 0, .destroy 5 0, .destroy 0 0, .destroy 0 0,
    .destroy 0 0, .destroy 0 0, .destroy 0 0]

/-- It ends the worker before the shutdown begins, and neither task is
dispatched. -/
theorem exit_task_loses_tasks :
    ∃ s, Runs poolStep (threadPoolInit 1) exitTaskAdded s ∧ s.destroyer = .done ∧
      s.added = [⟨none, -1, 2⟩, ⟨some 7, 1, 2⟩] ∧ s.allDispatched = [] ∧
      s.worker 0 = .ended ⟨none, -1, 2⟩ ∧ ¬ LosesNoTask s := by
  have hrun : Runs poolStep (threadPoolInit 1) exitTaskAdded _ := Runs.of_exec rfl
  refine ⟨_, hrun, rfl, rfl, rfl, rfl, fun hd => ?_⟩
  exact absurd (hd.dispatched rfl).length_eq (by decide)

end DmfServer
