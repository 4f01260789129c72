/-
DmfServer/TaskQueue.lean

The task queue of dm_threading_pool.c, at pointer level: `queue_t`, `node_t`,
`enqueue` and `dequeue`.

Any number of queues lie in one memory.  A queue is a singly linked list with
a pointer to each end; its mutex records the consumer that holds it, and its
condition variable the consumers that wait there un-signalled.  `enqueue` is
two steps, one that makes the node and one that is its critical section.
`dequeue` is a step for each of lock, test, wait, wake and take, so another
thread can come between any two of them.  malloc may give a freed address
again.

`Rep` relates a memory to a `Monitor` for each queue.  The two main results
are that the programs are the operations of the monitor
(`enqueueSection_spec`, `dequeueStep_spec`): each keeps `Rep`, and none
follows a null or dangling pointer.
-/
import DmfServer.Chain
import DmfServer.Table
import DmfServer.Monitor
import DmfServer.Kernel

namespace DmfServer

open Imperative Prog

/-- `task_t`. -/
structure TaskT where
  num1 : Option Addr
  num2 : Int
  readOrWrite : Int
  deriving DecidableEq

/-- `node_t`. -/
structure NodeT where
  task : TaskT
  next : Option Addr

/-- `queue_t`. -/
structure QueueT where
  head : Option Addr
  tail : Option Addr
  mutex : Option Nat
  cond : List Nat

/-- The queues, and the nodes.  `enqueued` and `dequeued` are history: no
step reads them. -/
structure Memory where
  queues : Table QueueT
  nodes : Table NodeT
  enqueued : Nat → List TaskT
  dequeued : Nat → List TaskT

namespace Memory

def setQueue (m : Memory) (q : Nat) (x : QueueT) : Memory := { m with queues := m.queues.set q x }

def setNode (m : Memory) (a : Addr) (node : NodeT) : Memory :=
  { m with nodes := m.nodes.set a node }

def freeNode (m : Memory) (a : Addr) : Memory := { m with nodes := m.nodes.erase a }

def logEnqueue (m : Memory) (q : Nat) (task : TaskT) : Memory :=
  { m with enqueued := Function.update m.enqueued q (m.enqueued q ++ [task]) }

def logDequeue (m : Memory) (q : Nat) (task : TaskT) : Memory :=
  { m with dequeued := Function.update m.dequeued q (m.dequeued q ++ [task]) }

/-- The node behind `a`. -/
def next (m : Memory) (a : Addr) : Option Addr := (m.nodes.get a).bind (·.next)

/-- The task at `a`; `none` where no node is allocated. -/
def taskAt (m : Memory) (a : Addr) : Option TaskT := (m.nodes.get a).map (·.task)

end Memory

/-! ### The programs -/

def queueAt (q : Nat) : Prog Memory QueueT := do
  let x ← load (·.queues.get q)
  deref x

def nodeAt (a : Addr) : Prog Memory NodeT := do
  let x ← load (·.nodes.get a)
  deref x

def queueInit : QueueT := ⟨none, none, none, []⟩

/-- A call of `enqueue` whose node is made and whose critical section is not
entered yet. -/
structure EnqueueCall where
  queue : Nat
  task : TaskT
  newNode : Addr

/-- `enqueue` up to its lock.  `hint` is the address malloc would like to
give. -/
def enqueueNode (hint : Addr) (q : Nat) (task : TaskT) : Prog Memory EnqueueCall := do
  let newNode ← load (·.nodes.pick 0 hint)
  store (·.setNode newNode ⟨task, none⟩)
  pure ⟨q, task, newNode⟩

/-- The critical section of `enqueue`.  It needs the mutex and has given it
back where it ends; `who` is the thread the signal would wake. -/
def enqueueSection (call : EnqueueCall) (who : Nat) : Prog Memory Unit := do
  let queue ← queueAt call.queue
  await fun _ => queue.mutex.isNone
  if queue.head.isNone then do
    store (·.setQueue call.queue
      { queue with
        head := some call.newNode, tail := some call.newNode, cond := signal who queue.cond })
  else do
    let tail ← deref queue.tail
    let node ← nodeAt tail
    store (·.setNode tail { node with next := some call.newNode })
    store (·.setQueue call.queue { queue with tail := some call.newNode })
  store (·.logEnqueue call.queue call.task)

/-- A call of `dequeue`, step by step. -/
abbrev Dequeue : Type := Consumer TaskT

/-- The next step of `dequeue` by the thread `me`. -/
def dequeueStep (me q : Nat) : Dequeue → Prog Memory Dequeue
  | .lock => do
      let queue ← queueAt q
      await fun _ => queue.mutex.isNone
      store (·.setQueue q { queue with mutex := some me })
      pure .test
  | .test => do
      let queue ← queueAt q
      pure (if queue.head.isNone then .wait else .take)
  | .wait => do
      let queue ← queueAt q
      -- pthread_cond_wait enters the condition and releases the mutex as one step
      store (·.setQueue q { queue with cond := me :: queue.cond, mutex := none })
      pure .asleep
  | .asleep => do
      let queue ← queueAt q
      -- once woken, it takes the mutex again before it returns
      await fun _ => !queue.cond.contains me && queue.mutex.isNone
      store (·.setQueue q { queue with mutex := some me })
      pure .test
  | .take => do
      let queue ← queueAt q
      let temp ← deref queue.head
      let node ← nodeAt temp
      store (·.setQueue q
        { queue with
          head := node.next, tail := if node.next.isNone then none else queue.tail, mutex := none })
      store (·.freeNode temp)
      store (·.logDequeue q node.task)
      pure (.done node.task)
  | .done task => pure (.done task)

/-- `pthread_cond_signal`, outside the critical sections. -/
def condSignal (q who : Nat) : Prog Memory Unit := do
  let queue ← queueAt q
  store (·.setQueue q { queue with cond := signal who queue.cond })

/-- The thread `c` wakes up though nobody signalled. -/
def spuriousWake (q c : Nat) : Prog Memory Unit := do
  let queue ← queueAt q
  store (·.setQueue q { queue with cond := queue.cond.erase c })

/-- `pthread_mutex_destroy` and `pthread_cond_destroy`: whoever uses the queue
afterwards faults. -/
def queueDestroy (q : Nat) : Prog Memory Unit := do
  let _ ← queueAt q
  store fun m => { m with queues := m.queues.erase q }

/-! None of them has a loop. -/

instance (q : Nat) : Loopless (queueAt q) := by unfold queueAt; infer_instance

instance (a : Addr) : Loopless (nodeAt a) := by unfold nodeAt; infer_instance

instance (hint : Addr) (q : Nat) (task : TaskT) : Loopless (enqueueNode hint q task) := by
  unfold enqueueNode; infer_instance

instance (call : EnqueueCall) (who : Nat) : Loopless (enqueueSection call who) := by
  unfold enqueueSection; infer_instance

instance (me q : Nat) (d : Dequeue) : Loopless (dequeueStep me q d) := by
  cases d <;> unfold dequeueStep <;> infer_instance

instance (q who : Nat) : Loopless (condSignal q who) := by unfold condSignal; infer_instance

instance (q c : Nat) : Loopless (spuriousWake q c) := by unfold spuriousWake; infer_instance

instance (q : Nat) : Loopless (queueDestroy q) := by unfold queueDestroy; infer_instance

/-! ### The lists -/

/-- In `m` the queue `q` shows the monitor `A q`, and its nodes are `L q`.  No
node is in two queues, and the nodes of the calls that have not entered their
section are in none. -/
structure Lists (m : Memory) (A : Nat → Monitor TaskT) (L : Nat → List Addr)
    (calls : List EnqueueCall) : Prop where
  live : ∀ q, (A q).destroyed = (m.queues.get q).isNone
  mutex : ∀ q x, m.queues.get q = some x → x.mutex = (A q).holder
  cond : ∀ q x, m.queues.get q = some x → x.cond = (A q).waiting
  chain : ∀ q x, m.queues.get q = some x → Chain m.next x.head (L q)
  tail : ∀ q x, m.queues.get q = some x → x.tail = (L q).getLast?
  cells : ∀ q, (L q).map m.taskAt = (A q).items.map some
  apart : ∀ q q' a, a ∈ L q → a ∈ L q' → q = q'
  enqueued : ∀ q, m.enqueued q = (A q).put
  dequeued : ∀ q, m.dequeued q = (A q).taken
  calls_nodup : (calls.map (·.newNode)).Nodup
  fresh : ∀ c ∈ calls, m.nodes.get c.newNode = some ⟨c.task, none⟩
  calls_apart : ∀ c ∈ calls, ∀ q, c.newNode ∉ L q

/-- The memory `m` represents the monitors `A`, while `calls` are under way. -/
def Rep (m : Memory) (A : Nat → Monitor TaskT) (calls : List EnqueueCall) : Prop :=
  ∃ L, Lists m A L calls

variable {m m' : Memory} {A : Nat → Monitor TaskT} {L : Nat → List Addr} {v : Monitor TaskT}
  {calls calls' : List EnqueueCall} {call : EnqueueCall} {q q' me c who : Nat} {x x' : QueueT}
  {a b : Addr} {l : List Addr} {node : NodeT} {task : TaskT}

namespace Memory

@[simp] theorem queues_setNode : (m.setNode a node).queues = m.queues := rfl

@[simp] theorem queues_freeNode : (m.freeNode a).queues = m.queues := rfl

@[simp] theorem queues_logEnqueue : (m.logEnqueue q task).queues = m.queues := rfl

@[simp] theorem queues_logDequeue : (m.logDequeue q task).queues = m.queues := rfl

@[simp] theorem nodes_setQueue : (m.setQueue q x).nodes = m.nodes := rfl

theorem next_setNode : (m.setNode a node).next = Function.update m.next a node.next := by
  funext b
  rcases eq_or_ne b a with rfl | hb
  · simp [next, setNode]
  · simp [next, setNode, hb]

theorem taskAt_setNode :
    (m.setNode a node).taskAt = Function.update m.taskAt a (some node.task) := by
  funext b
  rcases eq_or_ne b a with rfl | hb
  · simp [taskAt, setNode]
  · simp [taskAt, setNode, hb]

/-- Hanging a node behind `a` leaves the tasks as they are. -/
theorem taskAt_link (h : m.nodes.get a = some node) (p : Option Addr) :
    (m.setNode a { node with next := p }).taskAt = m.taskAt := by
  have ht : m.taskAt a = some node.task := by rw [taskAt, h, Option.map_some]
  rw [taskAt_setNode, ← ht, Function.update_eq_self]

theorem next_freeNode (hb : b ≠ a) : (m.freeNode a).next b = m.next b := by
  simp [next, freeNode, hb]

theorem taskAt_freeNode (hb : b ≠ a) : (m.freeNode a).taskAt b = m.taskAt b := by
  simp [taskAt, freeNode, hb]

end Memory

theorem Lists.get_eq (h : Lists m A L calls) (hd : (A q).destroyed = false) :
    ∃ x, m.queues.get q = some x := by
  have hl := h.live q
  rw [hd] at hl
  exact Option.isSome_iff_exists.mp (Option.isNone_eq_false_iff.mp hl.symm)

/-- A node of a queue is allocated. -/
theorem Lists.allocated (h : Lists m A L calls) (ha : a ∈ L q) :
    ∃ node, m.nodes.get a = some node := by
  have hm : m.taskAt a ∈ (A q).items.map some := h.cells q ▸ List.mem_map_of_mem ha
  obtain ⟨task, -, ht⟩ := List.mem_map.mp hm
  exact (Option.map_eq_some_iff.mp ht.symm).imp fun _ => And.left

/-- The null test of the head tells whether there is an item. -/
theorem Lists.isNone (h : Lists m A L calls) (hx : m.queues.get q = some x) :
    x.head.isNone = (A q).items.isEmpty := by
  have hc := h.chain q x hx
  have hlen := congrArg List.length (h.cells q)
  rw [List.length_map, List.length_map] at hlen
  cases hl : L q with
  | nil =>
      rw [hl] at hc hlen
      rw [chain_nil.mp hc, List.length_eq_zero_iff.mp hlen.symm]
      rfl
  | cons a l =>
      rw [hl] at hc hlen
      have hne : (A q).items ≠ [] := List.ne_nil_of_length_eq_add_one hlen.symm
      rw [(chain_cons.mp hc).1, List.isEmpty_eq_false_iff.mpr hne]
      rfl

/-- **One queue changes.**  Its nodes become `l`; the nodes of the other
queues and of the calls that remain keep their contents. -/
theorem Lists.replace (h : Lists m A L calls) (hqueues : m'.queues = m.queues.set q x')
    (hput : m'.enqueued = Function.update m.enqueued q v.put)
    (htaken : m'.dequeued = Function.update m.dequeued q v.taken)
    (hothers : ∀ q' ≠ q, ∀ a ∈ L q', m'.nodes.get a = m.nodes.get a)
    (hcalls : ∀ c ∈ calls', m'.nodes.get c.newNode = m.nodes.get c.newNode)
    (hsub : calls'.Sublist calls)
    (hapart : ∀ q' ≠ q, ∀ a ∈ l, a ∉ L q')
    (hfresh : ∀ c ∈ calls', c.newNode ∉ l) (hd : v.destroyed = false)
    (hmutex : x'.mutex = v.holder) (hcond : x'.cond = v.waiting)
    (hchain : Chain m'.next x'.head l) (htail : x'.tail = l.getLast?)
    (hcells : l.map m'.taskAt = v.items.map some) :
    Lists m' (Function.update A q v) (Function.update L q l) calls' where
  live q' := by
    rcases eq_or_ne q' q with rfl | hq
    · simp [hqueues, hd]
    · simp [hqueues, hq, h.live]
  mutex q' y hy := by
    rcases eq_or_ne q' q with rfl | hq
    · rw [hqueues, Table.get_set_self, Option.some.injEq] at hy
      rw [Function.update_self, ← hy, hmutex]
    · rw [hqueues, Table.get_set_of_ne hq] at hy
      rw [Function.update_of_ne hq, h.mutex q' y hy]
  cond q' y hy := by
    rcases eq_or_ne q' q with rfl | hq
    · rw [hqueues, Table.get_set_self, Option.some.injEq] at hy
      rw [Function.update_self, ← hy, hcond]
    · rw [hqueues, Table.get_set_of_ne hq] at hy
      rw [Function.update_of_ne hq, h.cond q' y hy]
  chain q' y hy := by
    rcases eq_or_ne q' q with rfl | hq
    · rw [hqueues, Table.get_set_self, Option.some.injEq] at hy
      rw [Function.update_self, ← hy]
      exact hchain
    · rw [hqueues, Table.get_set_of_ne hq] at hy
      rw [Function.update_of_ne hq]
      apply (h.chain q' y hy).congr
      intro a ha
      rw [Memory.next, Memory.next, hothers q' hq a ha]
  tail q' y hy := by
    rcases eq_or_ne q' q with rfl | hq
    · rw [hqueues, Table.get_set_self, Option.some.injEq] at hy
      rw [Function.update_self, ← hy, htail]
    · rw [hqueues, Table.get_set_of_ne hq] at hy
      rw [Function.update_of_ne hq, h.tail q' y hy]
  cells q' := by
    rcases eq_or_ne q' q with rfl | hq
    · rw [Function.update_self, Function.update_self, hcells]
    · rw [Function.update_of_ne hq, Function.update_of_ne hq, ← h.cells q']
      apply List.map_congr_left
      intro a ha
      rw [Memory.taskAt, Memory.taskAt, hothers q' hq a ha]
  apart q₁ q₂ a h₁ h₂ := by
    by_cases hq₁ : q₁ = q <;> by_cases hq₂ : q₂ = q
    · rw [hq₁, hq₂]
    · rw [hq₁, Function.update_self] at h₁
      rw [Function.update_of_ne hq₂] at h₂
      exact absurd h₂ (hapart q₂ hq₂ a h₁)
    · rw [hq₂, Function.update_self] at h₂
      rw [Function.update_of_ne hq₁] at h₁
      exact absurd h₁ (hapart q₁ hq₁ a h₂)
    · rw [Function.update_of_ne hq₁] at h₁
      rw [Function.update_of_ne hq₂] at h₂
      exact h.apart q₁ q₂ a h₁ h₂
  enqueued q' := by
    rcases eq_or_ne q' q with rfl | hq
    · rw [hput, Function.update_self, Function.update_self]
    · rw [hput, Function.update_of_ne hq, Function.update_of_ne hq, h.enqueued]
  dequeued q' := by
    rcases eq_or_ne q' q with rfl | hq
    · rw [htaken, Function.update_self, Function.update_self]
    · rw [htaken, Function.update_of_ne hq, Function.update_of_ne hq, h.dequeued]
  calls_nodup := h.calls_nodup.sublist (hsub.map _)
  fresh c hc := (hcalls c hc).trans (h.fresh c (hsub.mem hc))
  calls_apart c hc q' := by
    rcases eq_or_ne q' q with rfl | hq
    · rw [Function.update_self]
      exact hfresh c hc
    · rw [Function.update_of_ne hq]
      exact h.calls_apart c (hsub.mem hc) q'

/-- Only the mutex and the condition variable of a queue change. -/
theorem Lists.retouch (h : Lists m A L calls) (hx : m.queues.get q = some x)
    (hhead : x'.head = x.head) (htail : x'.tail = x.tail) (hitems : v.items = (A q).items)
    (hput : v.put = (A q).put) (htaken : v.taken = (A q).taken) (hd : v.destroyed = false)
    (hmutex : x'.mutex = v.holder) (hcond : x'.cond = v.waiting) :
    Rep (m.setQueue q x') (Function.update A q v) calls := by
  refine ⟨Function.update L q (L q), h.replace rfl ?_ ?_ (fun _ _ _ _ => rfl) (fun _ _ => rfl)
    (List.Sublist.refl calls) ?_ (fun c hc => h.calls_apart c hc q) hd hmutex hcond ?_ ?_ ?_⟩
  · rw [hput, ← h.enqueued, Function.update_eq_self]
    rfl
  · rw [htaken, ← h.dequeued, Function.update_eq_self]
    rfl
  · exact fun q' hq a ha ha' => hq (h.apart q' q a ha' ha)
  · rw [hhead]
    exact h.chain q x hx
  · rw [htail, h.tail q x hx]
  · rw [hitems]
    exact h.cells q

/-- The order of the calls under way does not matter. -/
theorem Rep.perm (h : Rep m A calls) (hp : calls.Perm calls') : Rep m A calls' := by
  obtain ⟨L, h⟩ := h
  exact ⟨L, { h with
    calls_nodup := (hp.map _).nodup_iff.mp h.calls_nodup
    fresh := fun c hc => h.fresh c (hp.mem_iff.mpr hc)
    calls_apart := fun c hc => h.calls_apart c (hp.mem_iff.mpr hc) }⟩

theorem Rep.get_eq (h : Rep m A calls) (hd : (A q).destroyed = false) :
    ∃ x, m.queues.get q = some x := by
  obtain ⟨L, h⟩ := h
  exact h.get_eq hd

/-! ### The programs are the operations of the monitor -/

section

variable {β : Type} {R : β → Memory → Prop}

theorem queueAt_bind_run {k : QueueT → Prog Memory β} (hx : m.queues.get q = some x) :
    (queueAt q >>= k) m = k x m := by
  funext n
  rw [bind_run, queueAt, bind_run]
  simp only [load, hx, deref, pure_run]

theorem nodeAt_bind_run {k : NodeT → Prog Memory β} (hnode : m.nodes.get a = some node) :
    (nodeAt a >>= k) m = k node m := by
  funext n
  rw [bind_run, nodeAt, bind_run]
  simp only [load, hnode, deref, pure_run]

theorem safe_queueAt_bind {k : QueueT → Prog Memory β} (hx : m.queues.get q = some x) :
    Safe (queueAt q >>= k) m R ↔ Safe (k x) m R :=
  safe_congr (queueAt_bind_run hx)

theorem safe_nodeAt_bind {k : NodeT → Prog Memory β} (hnode : m.nodes.get a = some node) :
    Safe (nodeAt a >>= k) m R ↔ Safe (k node) m R :=
  safe_congr (nodeAt_bind_run hnode)

end

/-- The node malloc gives is in no queue and belongs to no other call. -/
theorem enqueueNode_spec (hint : Addr) (q : Nat) (task : TaskT) (h : Rep m A calls) :
    Safe (enqueueNode hint q task) m fun call m' =>
      call.queue = q ∧ call.task = task ∧ Rep m' A (call :: calls) := by
  obtain ⟨L, h⟩ := h
  simp only [enqueueNode, safe_load_bind, safe_store_bind, safe_pure, true_and]
  set new := m.nodes.pick 0 hint with hnew
  have hfree : m.nodes.get new = none := Table.get_pick
  have hL : ∀ q', new ∉ L q' := by
    intro q' hm
    obtain ⟨node, hnode⟩ := h.allocated hm
    rw [hfree] at hnode
    cases hnode
  have hcalls : ∀ c ∈ calls, c.newNode ≠ new := by
    intro c hc e
    have hf := h.fresh c hc
    rw [e, hfree] at hf
    cases hf
  have hnode : ∀ a, a ≠ new → (m.setNode new ⟨task, none⟩).nodes.get a = m.nodes.get a :=
    fun a ha => Table.get_set_of_ne ha
  refine ⟨L, { h with chain := ?_, cells := ?_, calls_nodup := ?_, fresh := ?_, calls_apart := ?_ }⟩
  · intro q' x hx
    rw [Memory.next_setNode]
    exact (h.chain q' x hx).update (hL q')
  · intro q'
    rw [← h.cells q', Memory.taskAt_setNode]
    apply List.map_congr_left
    intro a ha
    exact Function.update_of_ne (ne_of_mem_of_not_mem ha (hL q')) _ _
  · refine List.nodup_cons.mpr ⟨fun hm => ?_, h.calls_nodup⟩
    obtain ⟨c, hc, e⟩ := List.mem_map.mp hm
    exact hcalls c hc e
  · intro c hc
    rcases List.mem_cons.mp hc with rfl | hc
    · exact Table.get_set_self
    · rw [hnode _ (hcalls c hc)]
      exact h.fresh c hc
  · intro c hc
    rcases List.mem_cons.mp hc with rfl | hc
    · exact hL
    · exact h.calls_apart c hc

/-- **The critical section of `enqueue` puts the task**, into an empty and
into a non-empty list. -/
theorem enqueueSection_spec (who : Nat) (h : Rep m A (call :: calls))
    (hd : (A call.queue).destroyed = false) :
    Safe (enqueueSection call who) m fun _ m' => (A call.queue).holder = none ∧
      Rep m' (Function.update A call.queue ((A call.queue).append call.task who)) calls := by
  obtain ⟨L, h⟩ := h
  obtain ⟨x, hx⟩ := h.get_eq hd
  have hmem : call ∈ call :: calls := List.mem_cons_self
  have hnew := h.fresh call hmem
  have hno := h.calls_apart call hmem
  have hrest : ∀ c ∈ calls, c.newNode ≠ call.newNode := by
    intro c hc e
    exact (List.nodup_cons.mp h.calls_nodup).1 (List.mem_map.mpr ⟨c, hc, e⟩)
  have hsub : calls.Sublist (call :: calls) := List.sublist_cons_self call calls
  have hcells := h.cells call.queue
  have hnewTask : m.taskAt call.newNode = some call.task := by rw [Memory.taskAt, hnew]; rfl
  rw [enqueueSection, safe_queueAt_bind hx, safe_await_bind]
  intro hfree
  have hholder : (A call.queue).holder = none :=
    (h.mutex _ x hx).symm.trans (Option.isNone_iff_eq_none.mp hfree)
  have hmutex : x.mutex = ((A call.queue).append call.task who).holder := h.mutex _ x hx
  have hcond := h.cond _ x hx
  have hempty := h.isNone hx
  have hchain := h.chain _ x hx
  have htail := h.tail _ x hx
  have happ : ∀ a ∈ L call.queue ++ [call.newNode], ∀ q' ≠ call.queue, a ∉ L q' := by
    intro a ha q' hq ha'
    rcases List.mem_append.mp ha with ha | ha
    · exact hq (h.apart q' _ a ha' ha)
    · exact hno q' (List.mem_singleton.mp ha ▸ ha')
  have hcallsApart : ∀ c ∈ calls, c.newNode ∉ L call.queue ++ [call.newNode] := by
    intro c hc hm
    rcases List.mem_append.mp hm with hm | hm
    · exact h.calls_apart c (hsub.mem hc) _ hm
    · exact hrest c hc (List.mem_singleton.mp hm)
  split_ifs with hhead
  · -- the first node of the list: the branch that signals
    rw [safe_store_bind, safe_store]
    have hnil : (A call.queue).items = [] := List.isEmpty_iff.mp (hempty ▸ hhead)
    have hL : L call.queue = [] := by
      rw [hnil, List.map_nil, List.map_eq_nil_iff] at hcells
      exact hcells
    refine ⟨hholder, _, h.replace (l := [call.newNode]) rfl ?_ ?_ (fun _ _ _ _ => rfl)
      (fun _ _ => rfl) hsub ?_ ?_ hd hmutex ?_ ?_ rfl ?_⟩
    · rw [Monitor.append_put, ← h.enqueued]
      rfl
    · rw [Monitor.append_taken, ← h.dequeued, Function.update_eq_self]
      rfl
    · simpa only [hL, List.nil_append] using fun q' hq a ha => happ a ha q' hq
    · simpa only [hL, List.nil_append] using hcallsApart
    · simp only [Monitor.append_waiting, hnil, List.isEmpty_nil, if_true, hcond]
    · refine ⟨rfl, ?_⟩
      show Memory.next m call.newNode = none
      rw [Memory.next, hnew]
      rfl
    · rw [Monitor.append_items, hnil]
      exact congrArg (· :: []) hnewTask
  · -- the tail is a node of this list, and the new node is hung behind it
    have hne : L call.queue ≠ [] := by
      intro hL
      rw [hL] at hchain
      rw [chain_nil.mp hchain] at hhead
      exact hhead rfl
    obtain ⟨l, b, hL⟩ := (List.eq_nil_or_concat (L call.queue)).resolve_left hne
    rw [List.concat_eq_append] at hL
    have hb : b ∈ L call.queue := by simp [hL]
    obtain ⟨node, hnode⟩ := h.allocated hb
    rw [hL, List.getLast?_concat] at htail
    rw [htail, safe_deref_bind, safe_nodeAt_bind hnode, safe_store_bind, safe_store_bind,
      safe_store]
    refine ⟨hholder, _, h.replace (l := L call.queue ++ [call.newNode]) rfl ?_ ?_ ?_ ?_ hsub
      (fun q' hq a ha => happ a ha q' hq) hcallsApart hd hmutex ?_ ?_ ?_ ?_⟩
    · rw [Monitor.append_put, ← h.enqueued]
      rfl
    · rw [Monitor.append_taken, ← h.dequeued, Function.update_eq_self]
      rfl
    · intro q' hq a ha
      exact Table.get_set_of_ne (ne_of_mem_of_not_mem ha fun hm => hq (h.apart q' _ b hm hb))
    · intro c hc
      exact Table.get_set_of_ne fun e => h.calls_apart c (hsub.mem hc) call.queue (e ▸ hb)
    · rw [Monitor.append_waiting, ← hempty, if_neg hhead]
      exact hcond
    · show Chain (m.setNode b { node with next := some call.newNode }).next x.head _
      rw [Memory.next_setNode, hL]
      rw [hL] at hchain
      exact hchain.link (hL ▸ hno call.queue) hchain.nodup (by rw [Memory.next, hnew]; rfl)
    · rw [List.getLast?_concat]
    · show List.map (m.setNode b { node with next := some call.newNode }).taskAt _ = _
      rw [Memory.taskAt_link hnode, List.map_append, hcells, Monitor.append_items,
        List.map_append]
      exact congrArg (_ ++ [·]) hnewTask

/-- What `dequeue` does with the first node: the task is taken, and the tail
is reset with the last one. -/
theorem take_spec (h : Rep m A calls) (hd : (A q).destroyed = false) (hitems : (A q).items ≠ []) :
    Safe (dequeueStep me q .take) m fun d' m' =>
      ∃ v, Moves me .take (A q) d' v ∧ Rep m' (Function.update A q v) calls := by
  obtain ⟨L, h⟩ := h
  obtain ⟨x, hx⟩ := h.get_eq hd
  have hcells := h.cells q
  have hchain := h.chain q x hx
  have htail := h.tail q x hx
  obtain ⟨task, tasks, htasks⟩ := List.exists_cons_of_ne_nil hitems
  cases hL : L q with
  | nil =>
      rw [hL, htasks] at hcells
      cases hcells
  | cons a l =>
      rw [hL] at hchain htail
      rw [hL, htasks, List.map_cons, List.map_cons, List.cons.injEq] at hcells
      obtain ⟨hhead, hrest⟩ := chain_cons.mp hchain
      have ha : a ∉ l := (List.nodup_cons.mp hchain.nodup).1
      have haL : a ∈ L q := hL ▸ List.mem_cons_self
      obtain ⟨node, hnode⟩ := h.allocated haL
      obtain rfl : node.task = task := by
        simpa only [Memory.taskAt, hnode, Option.map_some, Option.some.injEq] using hcells.1
      have hnext : m.next a = node.next := by rw [Memory.next, hnode, Option.bind_some]
      rw [hnext] at hrest
      rw [dequeueStep, safe_queueAt_bind hx, hhead, safe_deref_bind, safe_nodeAt_bind hnode,
        safe_store_bind, safe_store_bind, safe_store_bind, safe_pure]
      refine ⟨_, .take htasks, _, h.replace (l := l) rfl ?_ ?_ ?_ ?_ (List.Sublist.refl calls) ?_ ?_
        hd rfl (h.cond q x hx) ?_ ?_ ?_⟩
      · rw [Monitor.take_put, ← h.enqueued, Function.update_eq_self]
        rfl
      · rw [Monitor.take_taken, ← h.dequeued]
        rfl
      · intro q' hq b hb
        exact Table.get_erase_of_ne (ne_of_mem_of_not_mem hb fun hm => hq (h.apart q' q a hm haL))
      · intro c hc
        exact Table.get_erase_of_ne fun e => h.calls_apart c hc q (e ▸ haL)
      · intro q' hq b hb hb'
        exact hq (h.apart q' q b hb' (hL ▸ List.mem_cons_of_mem a hb))
      · intro c hc hm
        exact h.calls_apart c hc q (hL ▸ List.mem_cons_of_mem a hm)
      · apply hrest.congr
        exact fun b hb => Memory.next_freeNode (ne_of_mem_of_not_mem hb ha)
      · -- the tail stays the last node, or goes with it
        cases l with
        | nil => rw [chain_nil.mp hrest]; rfl
        | cons b l =>
            rw [(chain_cons.mp hrest).1, htail, List.getLast?_cons_cons]
            rfl
      · rw [Monitor.take_items, ← hcells.2]
        apply List.map_congr_left
        exact fun b hb => Memory.taskAt_freeNode (ne_of_mem_of_not_mem hb ha)

/-- **The steps of `dequeue` are those of a consumer of the monitor.** -/
theorem dequeueStep_spec {d : Dequeue} (h : Rep m A calls) (hd : (A q).destroyed = false)
    (hat : At me (A q) d) :
    Safe (dequeueStep me q d) m fun d' m' =>
      ∃ v, Moves me d (A q) d' v ∧ Rep m' (Function.update A q v) calls := by
  have hrep := h
  obtain ⟨L, h⟩ := h
  obtain ⟨x, hx⟩ := h.get_eq hd
  have hmutex := h.mutex q x hx
  have hcond := h.cond q x hx
  cases d with
  | lock =>
      rw [dequeueStep, safe_queueAt_bind hx, safe_await_bind]
      intro hfree
      rw [safe_store_bind, safe_pure]
      refine ⟨_, .lock (hmutex.symm.trans (Option.isNone_iff_eq_none.mp hfree)), ?_⟩
      exact h.retouch hx rfl rfl rfl rfl rfl hd rfl hcond
  | test =>
      rw [dequeueStep, safe_queueAt_bind hx, safe_pure, h.isNone hx]
      refine ⟨A q, ?_, (Function.update_eq_self q A).symm ▸ hrep⟩
      split_ifs with hitems
      · exact .empty (List.isEmpty_iff.mp hitems)
      · exact .nonempty fun e => hitems (List.isEmpty_iff.mpr e)
  | wait =>
      rw [dequeueStep, safe_queueAt_bind hx, safe_store_bind, safe_pure]
      refine ⟨_, .wait, h.retouch hx rfl rfl rfl rfl rfl hd rfl ?_⟩
      exact congrArg (me :: ·) hcond
  | asleep =>
      rw [dequeueStep, safe_queueAt_bind hx, safe_await_bind]
      intro hw
      rw [Bool.and_eq_true, hcond, hmutex] at hw
      rw [safe_store_bind, safe_pure]
      refine ⟨_, .woken (by simpa using hw.1) (Option.isNone_iff_eq_none.mp hw.2), ?_⟩
      exact h.retouch hx rfl rfl rfl rfl rfl hd rfl hcond
  | take => exact take_spec hrep hd hat.2
  | done task =>
      rw [dequeueStep, safe_pure]
      exact ⟨A q, .done, (Function.update_eq_self q A).symm ▸ hrep⟩

theorem condSignal_spec (who : Nat) (h : Rep m A calls) (hd : (A q).destroyed = false) :
    Safe (condSignal q who) m fun _ m' =>
      Rep m' (Function.update A q ((A q).notify who)) calls := by
  obtain ⟨L, h⟩ := h
  obtain ⟨x, hx⟩ := h.get_eq hd
  rw [condSignal, safe_queueAt_bind hx, safe_store]
  exact h.retouch hx rfl rfl rfl rfl rfl hd (h.mutex q x hx) (congrArg (signal who) (h.cond q x hx))

theorem spuriousWake_spec (c : Nat) (h : Rep m A calls) (hd : (A q).destroyed = false) :
    Safe (spuriousWake q c) m fun _ m' => Rep m' (Function.update A q ((A q).wake c)) calls := by
  obtain ⟨L, h⟩ := h
  obtain ⟨x, hx⟩ := h.get_eq hd
  rw [spuriousWake, safe_queueAt_bind hx, safe_store]
  exact h.retouch hx rfl rfl rfl rfl rfl hd (h.mutex q x hx)
    (congrArg (List.erase · c) (h.cond q x hx))

theorem queueDestroy_spec (h : Rep m A calls) (hd : (A q).destroyed = false) :
    Safe (queueDestroy q) m fun _ m' => Rep m' (Function.update A q (A q).destroy) calls := by
  obtain ⟨L, h⟩ := h
  obtain ⟨x, hx⟩ := h.get_eq hd
  rw [queueDestroy, safe_queueAt_bind hx, safe_store]
  have hget : ∀ q' x, (m.queues.erase q).get q' = some x → m.queues.get q' = some x :=
    fun q' x hx => (Table.get_erase_eq_some.mp hx).2
  have hsame : ∀ {β : Type} (f : Monitor TaskT → β), f (A q).destroy = f (A q) →
      ∀ q', f (Function.update A q (A q).destroy q') = f (A q') := by
    intro β f hf q'
    rcases eq_or_ne q' q with rfl | hq
    · rw [Function.update_self, hf]
    · rw [Function.update_of_ne hq]
  refine ⟨L, { h with
    live := ?_
    mutex := fun q' x hx => (h.mutex q' x (hget q' x hx)).trans (hsame _ rfl q').symm
    cond := fun q' x hx => (h.cond q' x (hget q' x hx)).trans (hsame _ rfl q').symm
    chain := fun q' x hx => h.chain q' x (hget q' x hx)
    tail := fun q' x hx => h.tail q' x (hget q' x hx)
    cells := fun q' => (h.cells q').trans (congrArg (List.map some) (hsame _ rfl q').symm)
    enqueued := fun q' => (h.enqueued q').trans (hsame _ rfl q').symm
    dequeued := fun q' => (h.dequeued q').trans (hsame _ rfl q').symm }⟩
  intro q'
  rcases eq_or_ne q' q with rfl | hq
  · simp
  · simp [hq, h.live]

/-! ### What a reader of the memory finds -/

/-- The queue `q` is the list `l` with the tasks `tasks`: it ends at the tail,
passes no node twice, and has lost, doubled or reordered no task. -/
structure IsFifo (m : Memory) (q : Nat) (x : QueueT) (l : List Addr)
    (tasks : List TaskT) : Prop where
  chain : Chain m.next x.head l
  acyclic : l.Nodup
  ends : x.head = none ↔ x.tail = none
  last : x.tail = l.getLast?
  last_next : ∀ a, x.tail = some a → m.next a = none
  cells : l.map m.taskAt = tasks.map some
  fifo : m.dequeued q ++ tasks = m.enqueued q

theorem Rep.isFifo (h : Rep m A calls) (hx : m.queues.get q = some x) :
    ∃ l, IsFifo m q x l (A q).items := by
  obtain ⟨L, h⟩ := h
  have hchain := h.chain q x hx
  have htail := h.tail q x hx
  refine ⟨L q, hchain, hchain.nodup, ?_, htail, ?_, h.cells q, ?_⟩
  · rw [htail, List.getLast?_eq_none_iff]
    cases hL : L q with
    | nil =>
        rw [hL] at hchain
        exact iff_of_true (chain_nil.mp hchain) rfl
    | cons a l =>
        rw [hL] at hchain
        rw [(chain_cons.mp hchain).1]
        simp
  · intro a ha
    rw [htail] at ha
    obtain ⟨l, hl⟩ := List.getLast?_eq_some_iff.mp ha
    rw [hl] at hchain
    exact (seg_concat.mp hchain).2
  · rw [h.dequeued, h.enqueued]
    exact (A q).fifo

end DmfServer
