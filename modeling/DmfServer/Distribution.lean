/-
DmfServer/Distribution.lean

How the thread pool distributes its tasks.

`add_task` draws an index and then takes queue 0, so the worker 0 gets all
the tasks, in the order in which they are added if there is one producer
(`Produced`) and is the only one that can receive work (`receives_iff`).  So
the pool distributes its tasks as it should only if it has one thread; in a
larger one a run is as the draws say only when every one of them is a multiple
of the number of threads (`distribution_iff`).

The duty of a worker ends at a task that looks like the stop message, as the
worker does.
-/
import DmfServer.ThreadPool

namespace DmfServer

open Imperative Prog ThreadPoolT

variable {n i : Nat} {s s' : ThreadPoolT} {A : Nat → Monitor TaskT} {tasks : List TaskT}
variable {as : List PoolAction} {a : PoolAction}

/-! ### One producer -/

/-- There is one producer: it does not call `add_task` before the last call has
put its task into a queue. -/
def OneProducer : PoolAction → ThreadPoolT → Bool
  | .addTask _ _ _ _ _, s => s.adding.isEmpty
  | .enter _ _, _ => true
  | .worker _, _ => true
  | .spurious _, _ => true
  | .destroy _ _, _ => true

/-- What `rand` answers in a call of `add_task`. -/
def PoolAction.draw : PoolAction → Option Nat
  | .addTask rand _ _ _ _ => some rand
  | .enter _ _ => none
  | .worker _ => none
  | .spurious _ => none
  | .destroy _ _ => none

/-- What `rand` has answered, call by call. -/
def draws (as : List PoolAction) : List Nat := as.filterMap PoolAction.draw

theorem draws_concat : draws (as ++ [a]) = draws as ++ a.draw.toList := by
  rw [draws, List.filterMap_append]
  cases h : a.draw with
  | none => rw [List.filterMap_cons_none h]; rfl
  | some rand => rw [List.filterMap_cons_some h]; rfl

/-- The tasks have been put into queue 0 in the order in which they were added,
except for the one that is being added. -/
structure Produced (n : Nat) (as : List PoolAction) (s : ThreadPoolT)
    (A : Nat → Monitor TaskT) (tasks : List TaskT) : Prop where
  sound : s.Sound n A tasks
  inOrder : s.added = tasks ++ s.adding.map EnqueueCall.task
  one : s.adding.length ≤ 1
  drawn : (draws as).length = s.added.length

theorem Produced.step {tasks' : List TaskT} {A' : Nat → Monitor TaskT}
    (h : Produced n as s A tasks) (hone : OneProducer a s) (hs : s'.Sound n A' tasks')
    (hp : a.Passes s tasks s' tasks') : Produced n (as ++ [a]) s' A' tasks' := by
  have hkeep : a.draw = none → s'.adding = s.adding ∧ s'.added = s.added ∧ tasks' = tasks →
      Produced n (as ++ [a]) s' A' tasks' := by
    rintro hdraw ⟨hadding, hadded, rfl⟩
    refine ⟨hs, ?_, hadding ▸ h.one, ?_⟩
    · rw [hadded, hadding, h.inOrder]
    · rw [draws_concat, hdraw, hadded, Option.toList_none, List.append_nil]
      exact h.drawn
  cases a with
  | addTask rand num1 num2 readOrWrite hint =>
      obtain ⟨call, htask, hadding, hadded, rfl⟩ := hp
      have hnone : s.adding = [] := List.isEmpty_iff.mp hone
      rw [hnone] at hadding
      refine ⟨hs, ?_, ?_, ?_⟩
      · rw [hadded, hadding, h.inOrder, hnone, ← htask, List.map_nil, List.append_nil]
        rfl
      · rw [hadding]
        exact Nat.le_refl 1
      · rw [draws_concat, hadded, List.length_append, List.length_append, h.drawn]
        rfl
  | enter k who =>
      obtain ⟨call, hcall, hadding, hadded, rfl⟩ := hp
      -- there is one call, so it is the one that goes on
      obtain ⟨hk, hget⟩ := List.getElem?_eq_some_iff.mp hcall
      have hone := h.one
      obtain ⟨c, hc⟩ := List.length_eq_one_iff.mp (show s.adding.length = 1 by omega)
      obtain rfl : k = 0 := by omega
      obtain rfl : c = call := by
        rw [hc] at hcall
        exact Option.some.inj hcall
      rw [hc] at hadding
      refine ⟨hs, ?_, ?_, ?_⟩
      · rw [hadded, hadding, h.inOrder, hc]
        exact (List.append_nil _).symm
      · rw [hadding]
        exact Nat.zero_le 1
      · rw [draws_concat, hadded]
        exact (congrArg List.length (List.append_nil _)).trans h.drawn
  | worker i => exact hkeep rfl hp
  | spurious i => exact hkeep rfl hp
  | destroy hint who => exact hkeep rfl hp

theorem produced (hn : 0 < n) (h : Runs (Under OneProducer poolStep) (threadPoolInit n) as s) :
    ∃ A tasks, Produced n as s A tasks := by
  induction h with
  | nil => exact ⟨_, [], init_sound n, rfl, Nat.zero_le 1, rfl⟩
  | concat _ hret ih =>
      obtain ⟨A, tasks, h⟩ := ih
      obtain ⟨hone, hret⟩ := returns_under.mp hret
      obtain ⟨A', tasks', hs, hp⟩ := (poolStep_sound hn _ h.sound).of_returns hret
      exact ⟨A', tasks', h.step hone hs hp⟩

/-! ### What a worker does -/

section lists

variable {α : Type} {p : α → Bool} {l T : List α} {x : α}

theorem prefix_takeWhile (h : l <+: T) (hl : ∀ y ∈ l, p y) : l <+: T.takeWhile p := by
  obtain ⟨m, rfl⟩ := h
  rw [List.takeWhile_append_of_pos hl]
  exact List.prefix_append l _

theorem takeWhile_of_append (h : l ++ [x] <+: T) (hl : ∀ y ∈ l, p y) (hx : ¬ p x) :
    T.takeWhile p = l := by
  obtain ⟨m, rfl⟩ := h
  rw [List.append_assoc, List.takeWhile_append_of_pos hl, List.singleton_append,
    List.takeWhile_cons_of_neg hx, List.append_nil]

end lists

/-- What comes to the worker `i`: all the tasks, or none, up to one that looks
like the stop message. -/
def share (s : ThreadPoolT) (i : Nat) : List TaskT :=
  (if i = 0 then s.added else []).takeWhile (!·.isExit)

/-- The stop message is put behind all tasks. -/
theorem Produced.put (h : Produced n as s A tasks) (hi : i < n) :
    (A i).put <+: (if i = 0 then s.added else []) ∨
      (A i).put = (if i = 0 then s.added else []) ++ [stopTask] := by
  rw [h.sound.put i hi, putInto]
  by_cases hstop : i < s.destroyer.stopped n
  · have hadding : s.adding = [] := by
      refine h.sound.quiet ?_
      cases hd : s.destroyer with
      | idle =>
          rw [hd] at hstop
          exact absurd hstop (Nat.not_lt_zero i)
      | turn j phase => rfl
      | done => rfl
    rw [if_pos hstop, h.inOrder, hadding, List.map_nil, List.append_nil]
    exact .inr rfl
  · rw [if_neg hstop, List.append_nil]
    refine .inl ?_
    split_ifs
    · exact ⟨_, h.inOrder.symm⟩
    · exact List.prefix_refl []

/-- **What a worker does.**  It dispatches its share in order, and the whole of
it before it ends. -/
theorem Produced.dispatched (h : Produced n as s A tasks) (hi : i < n) :
    s.dispatched i <+: share s i ∧
      ((s.worker i).hasEnded = true → s.dispatched i = share s i) := by
  have hwork := h.sound.work i hi
  have htaken : s.dispatched i ++ (s.worker i).place.result.toList <+: (A i).put :=
    hwork.taken ▸ (A i).taken_isPrefix
  have hlog : ∀ task ∈ s.dispatched i, (!task.isExit) = true := fun task ht => by
    rw [hwork.log task ht, Bool.not_false]
  have hstop : ¬ (!stopTask.isExit) = true := by decide
  constructor
  · refine prefix_takeWhile ?_ hlog
    have hpre : s.dispatched i <+: (A i).put := (List.prefix_append _ _).trans htaken
    obtain hput | hput := h.put hi
    · exact hpre.trans hput
    · rw [hput, List.prefix_concat_iff] at hpre
      refine hpre.resolve_left fun heq => hstop (hlog stopTask ?_)
      rw [heq]
      exact List.mem_concat_self
  · intro hend
    cases hw : s.worker i with
    | running d => rw [hw] at hend; cases hend
    | ended task =>
        rw [hw] at htaken hwork
        have hexit : ¬ (!task.isExit) = true := by
          rw [hwork.ended task rfl]
          decide
        have htaken : s.dispatched i ++ [task] <+: (A i).put := htaken
        obtain hput | hput := h.put hi
        · exact (takeWhile_of_append (htaken.trans hput) hlog hexit).symm
        · rw [hput, List.prefix_concat_iff] at htaken
          obtain heq | hpre := htaken
          · -- the stop message itself
            have hall := (List.append_inj' heq rfl).1
            rw [share, ← hall]
            exact (List.takeWhile_eq_self_iff.mpr hlog).symm
          · exact (takeWhile_of_append hpre hlog hexit).symm

/-! ### What a worker has to do -/

/-- The tasks of the calls whose draw is for the worker `i`, up to one that looks
like the stop message. -/
def duty (n : Nat) (as : List PoolAction) (s : ThreadPoolT) (i : Nat) : List TaskT :=
  ((((draws as).zip s.added).filter fun z => z.1 % n == i).map Prod.snd).takeWhile (!·.isExit)

/-- Each worker dispatches what it has to do, in that order, and all of it
before it ends. -/
def Distributed (n : Nat) (as : List PoolAction) (s : ThreadPoolT) : Prop :=
  ∀ i < n, s.dispatched i <+: duty n as s i ∧
    ((s.worker i).hasEnded = true → s.dispatched i = duty n as s i)

/-- If every draw is for the worker 0, its duty is what comes to it. -/
theorem duty_eq_share (hdrawn : (draws as).length = s.added.length)
    (hzero : ∀ r ∈ draws as, r % n = 0) (i : Nat) : duty n as s i = share s i := by
  have hdraw : ∀ z ∈ (draws as).zip s.added, z.1 % n = 0 := fun z hz =>
    hzero z.1 (List.of_mem_zip hz).1
  rw [duty, share]
  split_ifs with hi
  · have hall : ((draws as).zip s.added).filter (fun z => z.1 % n == i) = (draws as).zip s.added :=
      List.filter_eq_self.mpr fun z hz => by rw [hdraw z hz, hi]; rfl
    rw [hall, List.map_snd_zip (le_of_eq hdrawn.symm)]
  · have hnone : ((draws as).zip s.added).filter (fun z => z.1 % n == i) = [] := by
      refine List.filter_eq_nil_iff.mpr fun z hz hz' => hi ?_
      rw [← beq_iff_eq.mp hz', hdraw z hz]
    rw [hnone, List.map_nil]

/-- A worker that is drawn has something to do, if no task looks like the stop
message. -/
theorem duty_ne_nil {r : Nat} (hdrawn : (draws as).length = s.added.length)
    (hadded : ∀ task ∈ s.added, task.isExit = false) (hr : r ∈ draws as) :
    duty n as s (r % n) ≠ [] := by
  obtain ⟨j, hj, rfl⟩ := List.getElem_of_mem hr
  have hj' : j < s.added.length := hdrawn ▸ hj
  have hzip : ((draws as)[j], s.added[j]) ∈ (draws as).zip s.added := by
    have hlt : j < ((draws as).zip s.added).length := by
      rw [List.length_zip, ← hdrawn, Nat.min_self]
      exact hj
    rw [← List.getElem_zip (h := hlt)]
    exact List.getElem_mem hlt
  have hmem : s.added[j] ∈
      (((draws as).zip s.added).filter fun z => z.1 % n == (draws as)[j] % n).map Prod.snd :=
    List.mem_map.mpr ⟨_, List.mem_filter.mpr ⟨hzip, beq_self_eq_true _⟩, rfl⟩
  have hall : duty n as s ((draws as)[j] % n) =
      (((draws as).zip s.added).filter fun z => z.1 % n == (draws as)[j] % n).map Prod.snd := by
    refine List.takeWhile_eq_self_iff.mpr fun task ht => ?_
    obtain ⟨z, hz, rfl⟩ := List.mem_map.mp ht
    rw [hadded z.2 (List.of_mem_zip (List.mem_filter.mp hz).1).2, Bool.not_false]
  rw [hall]
  exact List.ne_nil_of_mem hmem

/-- A run of the one producer is as the draws say if they are all multiples
of the number of threads; and if the pool was destroyed and no task looks like
the stop message, only then. -/
theorem Produced.distributed_iff (h : Produced n as s A tasks) (hn : 0 < n) :
    ((∀ r ∈ draws as, r % n = 0) → Distributed n as s) ∧
    (s.destroyer = .done → (∀ task ∈ s.added, ¬ (task.num1 = none ∧ task.num2 = -1)) →
      (Distributed n as s ↔ ∀ r ∈ draws as, r % n = 0)) := by
  have hdone : (∀ r ∈ draws as, r % n = 0) → Distributed n as s := by
    intro hzero i hi
    rw [duty_eq_share h.drawn hzero i]
    exact h.dispatched hi
  refine ⟨hdone, fun hdest hadded => ⟨fun hdist r hr => ?_, hdone⟩⟩
  by_contra hne
  -- the worker that was drawn has ended, and got nothing
  have hi : r % n < n := Nat.mod_lt r hn
  have hend : (s.worker (r % n)).hasEnded = true :=
    h.sound.joined _ hi (by rw [hdest]; exact hi)
  have hnone : s.dispatched (r % n) = [] := by
    rw [(h.dispatched hi).2 hend, share, if_neg hne, List.takeWhile_nil]
  refine duty_ne_nil h.drawn (fun task ht => ?_) hr (hnone ▸ ((hdist _ hi).2 hend).symm)
  exact TaskT.isExit_eq_false.mpr (hadded task ht)

/-! ### Who can receive work -/

/-- The worker `i` of a pool of `n` threads can receive work: in some run it
dispatches a task. -/
def Receives (n i : Nat) : Prop :=
  ∃ as s, Runs (Under OneProducer poolStep) (threadPoolInit n) as s ∧ s.dispatched i ≠ []

/-- One call of `add_task`, and the worker 0 up to the task. -/
def firstTask (rand : Nat) : List PoolAction :=
  [.addTask rand (some 7) 1 2 5, .enter 0 0, .worker 0, .worker 0, .worker 0, .worker 0]

/-- The first worker is the only one that can receive work. -/
theorem receives_iff (hi : i < n) : Receives n i ↔ i = 0 := by
  have hn : 0 < n := Nat.zero_lt_of_lt hi
  constructor
  · rintro ⟨as, s, hrun, hne⟩
    obtain ⟨A, tasks, h⟩ := produced hn hrun
    by_contra hzero
    have hpre := (h.dispatched hi).1
    rw [share, if_neg hzero, List.takeWhile_nil] at hpre
    exact hne (List.prefix_nil.mp hpre)
  · rintro rfl
    obtain ⟨m, rfl⟩ := Nat.exists_eq_add_one.mpr hn
    have hrun : Runs (Under OneProducer poolStep) (threadPoolInit (m + 1)) (firstTask 0) _ :=
      Runs.of_exec rfl
    exact ⟨_, _, hrun, List.cons_ne_nil _ _⟩

/-- **Distribution.**  The tasks are distributed as they should be, in every
run each worker doing what the draws give it, and every worker being able to
receive work, if and only if the pool has one thread.  In a larger pool a run
is as the draws say if every draw of the one producer is a multiple of the
number of threads; and if the pool was destroyed, and no task looks like the
stop message, only then. -/
theorem distribution_iff (hn : 0 < n) :
    ((∀ as s, Runs (Under OneProducer poolStep) (threadPoolInit n) as s → Distributed n as s) ∧
      (∀ i < n, Receives n i) ↔ n = 1) ∧
    ∀ as s, Runs (Under OneProducer poolStep) (threadPoolInit n) as s →
      ((∀ r ∈ draws as, r % n = 0) → Distributed n as s) ∧
      (s.destroyer = .done → (∀ task ∈ s.added, ¬ (task.num1 = none ∧ task.num2 = -1)) →
        (Distributed n as s ↔ ∀ r ∈ draws as, r % n = 0)) := by
  have hexact : ∀ as s, Runs (Under OneProducer poolStep) (threadPoolInit n) as s →
      ((∀ r ∈ draws as, r % n = 0) → Distributed n as s) ∧
      (s.destroyer = .done → (∀ task ∈ s.added, ¬ (task.num1 = none ∧ task.num2 = -1)) →
        (Distributed n as s ↔ ∀ r ∈ draws as, r % n = 0)) := by
    intro as s h
    obtain ⟨A, tasks, hp⟩ := produced hn h
    exact hp.distributed_iff hn
  refine ⟨⟨fun ⟨_, hall⟩ => ?_, ?_⟩, hexact⟩
  · -- the worker 1, if there is one, gets nothing
    by_contra hne
    have hone : 1 < n := by omega
    exact Nat.one_ne_zero ((receives_iff hone).mp (hall 1 hone))
  · rintro rfl
    refine ⟨fun as s h => (hexact as s h).1 fun r _ => Nat.mod_one r, fun i hi => ?_⟩
    exact (receives_iff hi).mpr (Nat.lt_one_iff.mp hi)

/-- One task for two threads, with the draw `rand`, and the shutdown. -/
def oneTask (rand : Nat) : List PoolAction :=
  [.addTask rand (some 7) 1 2 5, .enter 0 0, .worker 0, .worker 0, .worker 0, .worker 0,
    .destroy 0 0, .destroy 5 0, .destroy 0 0, .worker 0, .worker 0, .worker 0, .worker 0,
    .destroy 0 0, .destroy 0 0, .destroy 0 0, .destroy 5 0, .destroy 0 0, .worker 1, .worker 1,
    .worker 1, .worker 1, .destroy 0 0, .destroy 0 0, .destroy 0 0, .destroy 0 0]

theorem distribution_even :
    (∃ s, Runs (Under OneProducer poolStep) (threadPoolInit 2) (oneTask 4) s ∧
      s.destroyer = .done ∧ Distributed 2 (oneTask 4) s) ∧
    (∀ as s, Runs (Under OneProducer poolStep) (threadPoolInit 1) as s → Distributed 1 as s) ∧
    ∀ i < 1, Receives 1 i := by
  have hrun : Runs (Under OneProducer poolStep) (threadPoolInit 2) (oneTask 4) _ :=
    Runs.of_exec rfl
  exact ⟨⟨_, hrun, rfl, ((distribution_iff Nat.two_pos).2 _ _ hrun).1 (by decide)⟩,
    (distribution_iff Nat.one_pos).1.mpr rfl⟩

/-- The draw is for the worker 1, but the worker 0 gets the task. -/
theorem odd_draw_is_ignored :
    ∃ s, Runs (Under OneProducer poolStep) (threadPoolInit 2) (oneTask 3) s ∧
      s.destroyer = .done ∧ duty 2 (oneTask 3) s 1 = [⟨some 7, 1, 2⟩] ∧ s.dispatched 1 = [] ∧
      s.dispatched 0 = [⟨some 7, 1, 2⟩] ∧ ¬ Distributed 2 (oneTask 3) s ∧ ¬ Receives 2 1 := by
  have hrun : Runs (Under OneProducer poolStep) (threadPoolInit 2) (oneTask 3) _ :=
    Runs.of_exec rfl
  refine ⟨_, hrun, rfl, rfl, rfl, rfl, fun hdist => ?_, fun hrec => ?_⟩
  · have hall := (hdist 1 Nat.one_lt_two).2 rfl
    exact absurd (congrArg List.length hall) (by decide)
  · exact Nat.one_ne_zero ((receives_iff Nat.one_lt_two).mp hrec)

end DmfServer
