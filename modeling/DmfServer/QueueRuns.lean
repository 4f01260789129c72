/-
DmfServer/QueueRuns.lean

Producers and consumers on the task queues, in any order.

A state is the memory, the calls of `enqueue` that wait for their lock, and
for each consumer the queue it dequeues from and where it stands in
`dequeue`.  An action starts a call, runs the critical section of an
`enqueue`, runs one step of a `dequeue`, or wakes a consumer for no reason.
Any number of producers and consumers may be at work, on any of the `n`
queues.

`queue_fifo`: whatever the schedule, every queue is a proper list from its
head to its tail, and what was dequeued, followed by what is still linked, is
what was enqueued.  `queue_no_fault` adds that no pointer met on the way is
null or dangling.
-/
import DmfServer.TaskQueue

namespace DmfServer

open Imperative Prog

/-- The threads that share the queues. -/
structure Clients where
  mem : Memory
  adding : List EnqueueCall
  consumer : Nat → Option (Nat × Dequeue)

/-- What happens next. -/
inductive ClientAction where
  /-- A thread calls `enqueue`. -/
  | enqueue (q : Nat) (task : TaskT) (hint : Addr)
  /-- The `k`-th call of `enqueue` runs its critical section. -/
  | enter (k who : Nat)
  /-- The consumer `c` calls `dequeue`. -/
  | dequeue (c q : Nat)
  /-- The consumer `c` goes on. -/
  | step (c : Nat)
  | spurious (q c : Nat)

def Clients.setMem (m : Memory) (s : Clients) : Clients := { s with mem := m }

/-- The memory with `n` queues, just after `queue_init`. -/
def freshMemory (n : Nat) : Memory where
  queues := ⟨fun q => if q < n then some queueInit else none, n, fun _ hq => if_neg (by omega)⟩
  nodes := Table.empty
  enqueued _ := []
  dequeued _ := []

def Clients.init (n : Nat) : Clients := ⟨freshMemory n, [], fun _ => none⟩

/-- One action of the threads on `n` queues. -/
def clientStep (n : Nat) : ClientAction → Prog Clients Unit
  | .enqueue q task hint => do
      await fun _ => decide (q < n)
      let call ← zoom Clients.mem Clients.setMem (enqueueNode hint q task)
      store fun s => { s with adding := call :: s.adding }
  | .enter k who => do
      let call ← load fun s => s.adding[k]?
      await fun _ => call.isSome
      let call ← deref call
      zoom Clients.mem Clients.setMem (enqueueSection call who)
      store fun s => { s with adding := s.adding.eraseIdx k }
  | .dequeue c q => do
      await fun s => decide (q < n) && (s.consumer c).isNone
      store fun s => { s with consumer := Function.update s.consumer c (some (q, .lock)) }
  | .step c => do
      let place ← load fun s => s.consumer c
      await fun _ => place.isSome
      let place ← deref place
      let d' ← zoom Clients.mem Clients.setMem (dequeueStep c place.1 place.2)
      -- `dequeue` returns with its task
      store fun s => { s with
        consumer :=
          Function.update s.consumer c (if d'.result.isSome then none else some (place.1, d')) }
  | .spurious q c => do
      await fun _ => decide (q < n)
      zoom Clients.mem Clients.setMem (spuriousWake q c)

/-! ### The invariant -/

variable {n q c k who : Nat} {s s' : Clients} {A : Nat → Monitor TaskT} {d d' : Dequeue}
  {v : Monitor TaskT} {m : Memory} {calls : List EnqueueCall}

/-- The memory represents the monitors `A`, and every thread stands where its
knowledge is right. -/
structure Clients.Sound (n : Nat) (s : Clients) (A : Nat → Monitor TaskT) : Prop where
  rep : Rep s.mem A s.adding
  live : ∀ q < n, (A q).destroyed = false
  adding : ∀ call ∈ s.adding, call.queue < n
  consumer : ∀ c q d, s.consumer c = some (q, d) → q < n ∧ At c (A q) d

/-- Fresh queues represent monitors nobody has used. -/
theorem freshMemory_rep (n : Nat) :
    Rep (freshMemory n) (fun q => { Monitor.init with destroyed := decide (n ≤ q) }) [] := by
  have hx : ∀ q x, (freshMemory n).queues.get q = some x → x = queueInit := by
    intro q x hx
    simp only [freshMemory, Option.ite_none_right_eq_some, Option.some.injEq] at hx
    exact hx.2.symm
  refine ⟨fun _ => [], ?_, ?_, ?_, ?_, ?_, ?_, ?_, ?_, ?_, ?_, ?_, ?_⟩
  · intro q
    by_cases hq : q < n
    · simp [freshMemory, hq]
    · simp [freshMemory, hq, Nat.le_of_not_lt hq]
  · exact fun q x h => by rw [hx q x h]; rfl
  · exact fun q x h => by rw [hx q x h]; rfl
  · exact fun q x h => by rw [hx q x h]; rfl
  · exact fun q x h => by rw [hx q x h]; rfl
  · exact fun q => rfl
  · exact fun q q' a ha => absurd ha List.not_mem_nil
  · exact fun q => rfl
  · exact fun q => rfl
  · exact List.nodup_nil
  · exact fun c hc => absurd hc List.not_mem_nil
  · exact fun c hc => absurd hc List.not_mem_nil

/-- A queue changed, and the consumers still know what they knew. -/
theorem Clients.Sound.update (h : s.Sound n A) (hq : q < n)
    (hrep : Rep m (Function.update A q v) calls) (hd : v.destroyed = false)
    (hcalls : ∀ call ∈ calls, call.queue < n) {consumer : Nat → Option (Nat × Dequeue)}
    (hcons : ∀ c q' d, consumer c = some (q', d) → q' ≠ q → s.consumer c = some (q', d))
    (hat : ∀ c d, consumer c = some (q, d) → At c v d) :
    Clients.Sound n ⟨m, calls, consumer⟩ (Function.update A q v) where
  rep := hrep
  live q' hq' := by
    rcases eq_or_ne q' q with rfl | hne
    · rw [Function.update_self, hd]
    · rw [Function.update_of_ne hne, h.live q' hq']
  adding := hcalls
  consumer c q' d hc := by
    rcases eq_or_ne q' q with rfl | hne
    · rw [Function.update_self]
      exact ⟨hq, hat c d hc⟩
    · rw [Function.update_of_ne hne]
      exact h.consumer c q' d (hcons c q' d hc hne)

instance (n : Nat) (a : ClientAction) : Loopless (clientStep n a) := by
  cases a <;> unfold clientStep <;> infer_instance

/-! ### Every action keeps it -/

theorem enqueue_sound (h : s.Sound n A) (q : Nat) (task : TaskT) (hint : Addr) :
    Safe (clientStep n (.enqueue q task hint)) s fun _ s' => ∃ A', s'.Sound n A' := by
  rw [clientStep, safe_await_bind]
  intro hq
  apply Safe.zoom_bind
  apply (enqueueNode_spec hint q task h.rep).mono
  rintro call m ⟨hcall, -, hrep⟩
  rw [safe_store]
  refine ⟨A, hrep, h.live, fun call' hc => ?_, h.consumer⟩
  rcases List.mem_cons.mp hc with rfl | hc
  · rw [hcall]
    exact of_decide_eq_true hq
  · exact h.adding call' hc

theorem enter_sound (h : s.Sound n A) (k who : Nat) :
    Safe (clientStep n (.enter k who)) s fun _ s' => ∃ A', s'.Sound n A' := by
  rw [clientStep, safe_load_bind, safe_await_bind]
  intro hk
  obtain ⟨call, hcall⟩ := Option.isSome_iff_exists.mp hk
  obtain ⟨hlt, rfl⟩ := List.getElem?_eq_some_iff.mp hcall
  rw [hcall, safe_deref_bind]
  have hq := h.adding _ (List.getElem_mem hlt)
  have hperm := List.getElem_cons_eraseIdx_perm hlt
  apply Safe.zoom_bind
  apply (enqueueSection_spec who (h.rep.perm hperm.symm) (h.live _ hq)).mono
  rintro ⟨⟩ m ⟨hfree, hrep⟩
  rw [safe_store]
  refine ⟨_, h.update hq hrep (h.live _ hq) ?_ (fun _ _ _ hc _ => hc) ?_⟩
  · exact fun call hc => h.adding call (List.mem_of_mem_eraseIdx hc)
  · -- the mutex was free, so no consumer relied on the queue
    exact fun c d hc => (h.consumer c _ d hc).2.frame (by simp [hfree])

theorem dequeue_sound (h : s.Sound n A) (c q : Nat) :
    Safe (clientStep n (.dequeue c q)) s fun _ s' => ∃ A', s'.Sound n A' := by
  rw [clientStep, safe_await_bind]
  intro hq
  rw [Bool.and_eq_true] at hq
  rw [safe_store]
  refine ⟨A, h.rep, h.live, h.adding, fun c' q' d hc => ?_⟩
  rcases eq_or_ne c' c with rfl | hne
  · simp only [Function.update_self, Option.some.injEq, Prod.mk.injEq] at hc
    obtain ⟨rfl, rfl⟩ := hc
    exact ⟨of_decide_eq_true hq.1, trivial⟩
  · simp only [Function.update_of_ne hne] at hc
    exact h.consumer c' q' d hc

theorem step_sound (h : s.Sound n A) (c : Nat) :
    Safe (clientStep n (.step c)) s fun _ s' => ∃ A', s'.Sound n A' := by
  rw [clientStep, safe_load_bind, safe_await_bind]
  intro hc
  obtain ⟨⟨q, d⟩, hplace⟩ := Option.isSome_iff_exists.mp hc
  rw [hplace, safe_deref_bind]
  obtain ⟨hq, hat⟩ := h.consumer c q d hplace
  apply Safe.zoom_bind
  apply (dequeueStep_spec h.rep (h.live q hq) hat).mono
  rintro d' m ⟨v, hmoves, hrep⟩
  rw [safe_store]
  refine ⟨_, h.update hq hrep (hmoves.destroyed.trans (h.live q hq)) h.adding ?_ ?_⟩
  · intro c' q' e he hne
    rcases eq_or_ne c' c with rfl | hcc
    · simp only [Function.update_self] at he
      split_ifs at he with hdone
      simp only [Option.some.injEq, Prod.mk.injEq] at he
      exact absurd he.1.symm hne
    · simp only [Function.update_of_ne hcc] at he
      exact he
  · intro c' e he
    rcases eq_or_ne c' c with rfl | hcc
    · simp only [Function.update_self] at he
      split_ifs at he with hdone
      simp only [Option.some.injEq, Prod.mk.injEq, true_and] at he
      exact he ▸ hat.moves hmoves
    · simp only [Function.update_of_ne hcc] at he
      exact (h.consumer c' q e he).2.others hat hmoves hcc

theorem spurious_sound (h : s.Sound n A) (q c : Nat) :
    Safe (clientStep n (.spurious q c)) s fun _ s' => ∃ A', s'.Sound n A' := by
  rw [clientStep, safe_await_bind]
  intro hq
  have hq := of_decide_eq_true hq
  apply (spuriousWake_spec c h.rep (h.live q hq)).zoom.mono
  rintro ⟨⟩ s' ⟨m, hrep, rfl⟩
  refine ⟨_, h.update hq hrep (h.live q hq) h.adding (fun _ _ _ hc _ => hc) ?_⟩
  exact fun c' d hc => (h.consumer c' q d hc).2.congr rfl rfl

theorem clientStep_sound (a : ClientAction) (s : Clients) (h : ∃ A, s.Sound n A) :
    Safe (clientStep n a) s fun _ s' => ∃ A, s'.Sound n A := by
  obtain ⟨A, h⟩ := h
  cases a with
  | enqueue q task hint => exact enqueue_sound h q task hint
  | enter k who => exact enter_sound h k who
  | dequeue c q => exact dequeue_sound h c q
  | step c => exact step_sound h c
  | spurious q c => exact spurious_sound h q c

theorem Clients.init_sound (n : Nat) : ∃ A, (Clients.init n).Sound n A :=
  ⟨_, freshMemory_rep n, fun q hq => by simpa using hq, fun _ hc => absurd hc List.not_mem_nil,
    fun _ _ _ hc => nomatch hc⟩

theorem clients_sound {as : List ClientAction} (h : Runs (clientStep n) (Clients.init n) as s) :
    ∃ A, s.Sound n A :=
  h.invariant (fun s => ∃ A, s.Sound n A) (Clients.init_sound n) fun a s => clientStep_sound a s

/-- **The task queue is first-in first-out.**  Whatever the producers and the
consumers do, in any order, every queue is a list from its head to its tail
that holds what was enqueued and not dequeued, in order. -/
theorem queue_fifo {as : List ClientAction} (h : Runs (clientStep n) (Clients.init n) as s)
    (hq : q < n) :
    ∃ x l tasks, s.mem.queues.get q = some x ∧ IsFifo s.mem q x l tasks := by
  obtain ⟨A, hs⟩ := clients_sound h
  obtain ⟨x, hx⟩ := hs.rep.get_eq (hs.live q hq)
  obtain ⟨l, hl⟩ := hs.rep.isFifo hx
  exact ⟨x, l, _, hx, hl⟩

/-- The first consumer goes to sleep, and the second one takes the task whose
signal wakes it; the task made second is put last. -/
def overtakenConsumer : List ClientAction :=
  [.dequeue 0 0, .dequeue 1 0, .step 0, .step 0, .step 0, .enqueue 0 ⟨some 7, 1, 2⟩ 5,
    .enqueue 0 ⟨none, 4, 3⟩ 9, .enter 1 0, .step 1, .step 1, .step 1, .enter 0 1]

theorem queue_fifo_overtaken :
    ∃ s, Runs (clientStep 1) (Clients.init 1) overtakenConsumer s ∧
      s.mem.dequeued 0 = [⟨some 7, 1, 2⟩] ∧ s.mem.enqueued 0 = [⟨some 7, 1, 2⟩, ⟨none, 4, 3⟩] ∧
      ∃ x l tasks, s.mem.queues.get 0 = some x ∧ IsFifo s.mem 0 x l tasks := by
  have hrun : Runs (clientStep 1) (Clients.init 1) overtakenConsumer _ := Runs.of_exec rfl
  exact ⟨_, hrun, rfl, rfl, queue_fifo hrun Nat.one_pos⟩

/-- No thread ever follows a null or dangling pointer. -/
theorem queue_no_fault {as : List ClientAction} (h : Runs (clientStep n) (Clients.init n) as s)
    (a : ClientAction) (fuel : Nat) : clientStep n a s fuel ≠ .fault :=
  (clientStep_sound a s (clients_sound h)).no_fault fuel

end DmfServer
