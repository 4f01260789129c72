/-
DmfServer/Timer.lean

The timer list of `dm_timer.c`, at pointer level.

A `Timer` is an intrusive node; the static variable `heap` points to the
first one.  Memory is a total map from addresses to nodes, so that a node
which is not linked keeps its stale `next`, as in the source.  The four
functions are programs over that memory: `heapify` re-links nodes while it
walks, `deleteTimer` and `addTimer` walk to a node or to the tail, and
`executeTimers` takes due nodes off the head and calls back.

A call back is a function pointer; what it does is a parameter (`call`), a
program over the same memory, so that it may add and delete timers itself.
`calls` records which node was called back with which pointer.  Addresses
`τ` and function pointers `κ` are arbitrary; `time(NULL)` is the argument
`now` of the functions that read the clock.

The specification lemmas relate each function to one on lists, by way of
`Queue s l` (the list from `heap` is `l`):

* `heapify_returns` — the move-to-front pass, `Imperative.pass`;
* `deleteTimer_returns` — `deleteList`;
* `addTimer_returns` — append, then the pass;
* `executeTimers_returns` — the due nodes at the front are called back.
-/
import DmfServer.Prog
import DmfServer.Chain
import DmfServer.MoveFront

namespace DmfServer

open Imperative Imperative.Prog

/-- `struct Timer`. -/
structure Timer (τ κ : Type) where
  expire : Int
  callback : κ
  next : Option τ

/-- The static `heap`, the nodes in memory, and the call backs made so far. -/
structure Timers (τ κ : Type) where
  heap : Option τ
  node : τ → Timer τ κ
  calls : List (τ × κ)

variable {τ κ : Type}

namespace Timers

/-- The successor map of the nodes. -/
def next (s : Timers τ κ) (t : τ) : Option τ := (s.node t).next

/-- The expiry times of the nodes. -/
def expire (s : Timers τ κ) (t : τ) : Int := (s.node t).expire

/-- The function pointers of the nodes. -/
def callback (s : Timers τ κ) (t : τ) : κ := (s.node t).callback

/-- `heap = p`. -/
def setHeap (p : Option τ) (s : Timers τ κ) : Timers τ κ := { s with heap := p }

/-- `t->next = p`. -/
def setNext [DecidableEq τ] (t : τ) (p : Option τ) (s : Timers τ κ) : Timers τ κ :=
  { s with node := Function.update s.node t { s.node t with next := p } }

/-- The three assignments `addTimer` starts with. -/
def arm [DecidableEq τ] (t : τ) (expire : Int) (callback : κ) (s : Timers τ κ) : Timers τ κ :=
  { s with node := Function.update s.node t ⟨expire, callback, none⟩ }

/-- Record that node `t` is called back with `c`. -/
def logCall (t : τ) (c : κ) (s : Timers τ κ) : Timers τ κ :=
  { s with calls := s.calls ++ [(t, c)] }

end Timers

open Timers

/-! ### The functions of `dm_timer.c` -/

/-- A turn of the loop of `heapify`, at `parent` and `current`. -/
def heapifyBody [DecidableEq τ] : τ × Option τ → Prog (Timers τ κ) ((τ × Option τ) ⊕ Unit)
  | (_, none) => pure (Sum.inr ())
  | (parent, some current) => do
      if (← load (expire · current)) < (← load (expire · parent)) then
        let temp := current
        store (setNext parent (← load (next · current)))
        let current ← load (next · parent)
        store (setNext temp (← load heap))
        store (setHeap (some temp))
        pure (Sum.inl (parent, current))
      else
        pure (Sum.inl (current, ← load (next · current)))

/-- `heapify`: `heap->next` is read first, so an empty list faults. -/
def heapify [DecidableEq τ] : Prog (Timers τ κ) Unit := do
  let parent ← deref (← load heap)
  loop heapifyBody (parent, ← load (next · parent))

/-- A turn of the search loop of `deleteTimer`. -/
def deleteTimerBody [DecidableEq τ] (target : τ) :
    τ × Option τ → Prog (Timers τ κ) ((τ × Option τ) ⊕ (τ × Option τ))
  | (parent, none) => pure (Sum.inr (parent, none))
  | (parent, some current) => do
      if current = target then pure (Sum.inr (parent, some current))
      else pure (Sum.inl (current, ← load (next · current)))

/-- `deleteTimer`.  The node keeps its own `next`. -/
def deleteTimer [DecidableEq τ] (target : Option τ) : Prog (Timers τ κ) Unit := do
  match ← load heap, target with
  | none, _ => pure ()
  | some _, none => pure ()
  | some first, some target =>
      if first = target then
        store (setHeap (← load (next · first)))
      else
        match ← loop (deleteTimerBody target) (first, ← load (next · first)) with
        | (_, none) => pure ()
        | (parent, some current) => do
            store (setNext parent (← load (next · current)))
            heapify

/-- A turn of the walk to the tail in `addTimer`. -/
def addTimerBody (temp : τ) : Prog (Timers τ κ) (τ ⊕ τ) := do
  match ← load (next · temp) with
  | none => pure (Sum.inr temp)
  | some succ => pure (Sum.inl succ)

/-- `addTimer`, the clock at `now`. -/
def addTimer [DecidableEq τ] (now : Int) (newTimer : τ) (expire : Int) (callback : κ) :
    Prog (Timers τ κ) Unit := do
  store (arm newTimer (now + expire) callback)
  match ← load heap with
  | none => store (setHeap (some newTimer))
  | some first => do
      let temp ← loop addTimerBody first
      store (setNext temp (some newTimer))
  heapify

/-- A turn of the loop of `executeTimers`: `container_of` and `timer_event`
lead from the node back to itself. -/
def executeTimersBody (call : κ → Prog (Timers τ κ) Unit) (now : Int) :
    Unit → Prog (Timers τ κ) (Unit ⊕ Unit) := fun _ => do
  match ← load heap with
  | none => pure (Sum.inr ())
  | some timer =>
      if (← load (expire · timer)) ≤ now then do
        store (setHeap (← load (next · timer)))
        let callback ← load (callback · timer)
        store (logCall timer callback)
        call callback
        pure (Sum.inl ())
      else pure (Sum.inr ())

/-- `executeTimers`, the clock at `now`. -/
def executeTimers (call : κ → Prog (Timers τ κ) Unit) (now : Int) : Prog (Timers τ κ) Unit :=
  loop (executeTimersBody call now) ()

/-- A call back that does not touch the list. -/
def idle : κ → Prog (Timers τ κ) Unit := fun _ => pure ()

/-! ### Pointer updates -/

section updates

variable (s : Timers τ κ) (t u : τ) (p : Option τ) (e : Int) (c : κ)

@[simp] theorem heap_setHeap : (s.setHeap p).heap = p := rfl
@[simp] theorem next_setHeap : (s.setHeap p).next = s.next := rfl
@[simp] theorem expire_setHeap : (s.setHeap p).expire = s.expire := rfl
@[simp] theorem callback_setHeap : (s.setHeap p).callback = s.callback := rfl
@[simp] theorem calls_setHeap : (s.setHeap p).calls = s.calls := rfl

@[simp] theorem heap_logCall : (s.logCall t c).heap = s.heap := rfl
@[simp] theorem next_logCall : (s.logCall t c).next = s.next := rfl
@[simp] theorem expire_logCall : (s.logCall t c).expire = s.expire := rfl
@[simp] theorem callback_logCall : (s.logCall t c).callback = s.callback := rfl
@[simp] theorem calls_logCall : (s.logCall t c).calls = s.calls ++ [(t, c)] := rfl

variable [DecidableEq τ]

@[simp] theorem heap_setNext : (s.setNext t p).heap = s.heap := rfl
@[simp] theorem calls_setNext : (s.setNext t p).calls = s.calls := rfl

@[simp] theorem next_setNext : (s.setNext t p).next = Function.update s.next t p := by
  funext u
  by_cases h : u = t
  · subst h; simp [next, setNext]
  · simp [next, setNext, h]

@[simp] theorem expire_setNext : (s.setNext t p).expire = s.expire := by
  funext u
  by_cases h : u = t
  · subst h; simp [expire, setNext]
  · simp [expire, setNext, h]

@[simp] theorem callback_setNext : (s.setNext t p).callback = s.callback := by
  funext u
  by_cases h : u = t
  · subst h; simp [callback, setNext]
  · simp [callback, setNext, h]

@[simp] theorem heap_arm : (s.arm t e c).heap = s.heap := rfl
@[simp] theorem calls_arm : (s.arm t e c).calls = s.calls := rfl

@[simp] theorem next_arm : (s.arm t e c).next = Function.update s.next t none := by
  funext u
  by_cases h : u = t
  · subst h; simp [next, arm]
  · simp [next, arm, h]

@[simp] theorem expire_arm : (s.arm t e c).expire = Function.update s.expire t e := by
  funext u
  by_cases h : u = t
  · subst h; simp [expire, arm]
  · simp [expire, arm, h]

@[simp] theorem callback_arm : (s.arm t e c).callback = Function.update s.callback t c := by
  funext u
  by_cases h : u = t
  · subst h; simp [callback, arm]
  · simp [callback, arm, h]

end updates

/-! ### The list from `heap` -/

/-- The list from `heap` is `l`: it is finite and, by `Chain.nodup`, acyclic. -/
def Queue (s : Timers τ κ) (l : List τ) : Prop := Chain s.next s.heap l

/-- `s'` differs from `s` in how the nodes are linked only. -/
structure Relinked (s s' : Timers τ κ) : Prop where
  expire : s'.expire = s.expire
  callback : s'.callback = s.callback
  calls : s'.calls = s.calls

theorem Relinked.refl (s : Timers τ κ) : Relinked s s := ⟨rfl, rfl, rfl⟩

theorem Relinked.trans {s s' s'' : Timers τ κ} (h : Relinked s s') (h' : Relinked s' s'') :
    Relinked s s'' :=
  ⟨h'.expire.trans h.expire, h'.callback.trans h.callback, h'.calls.trans h.calls⟩

variable {s : Timers τ κ} {l : List τ}

section surgery

variable [DecidableEq τ]

/-! ### `heapify` -/

/-- A turn that finds `current` expiring before `parent` unlinks it and
pushes it in front of the head. -/
theorem heapifyBody_move {parent current : τ}
    (hlt : s.expire current < s.expire parent) :
    Returns (heapifyBody (parent, some current)) s (Sum.inl (parent, s.next current))
      (((s.setNext parent (s.next current)).setNext current s.heap).setHeap (some current)) := by
  simp [heapifyBody, hlt]

/-- Otherwise the walk goes on. -/
theorem heapifyBody_keep {parent current : τ} (hge : ¬ s.expire current < s.expire parent) :
    Returns (heapifyBody (parent, some current)) s (Sum.inl (current, s.next current)) s := by
  simp [heapifyBody, hge]

/-- The loop of `heapify` computes the pass.  The invariant: from `heap` the
nodes of `front` lead to `parent`, and the nodes of `rest` follow it. -/
theorem heapify_loop {front rest : List τ} {parent : τ}
    (hf : Seg s.next s.heap front (some parent)) (hr : Chain s.next (s.next parent) rest)
    (hnd : (front ++ parent :: rest).Nodup) :
    ∃ s', Returns (loop heapifyBody (parent, s.next parent)) s () s' ∧
      Queue s' (moveFront s.expire front parent rest) ∧ Relinked s s' := by
  induction rest generalizing s front parent with
  | nil =>
      have hn : s.next parent = none := hr
      refine ⟨s, Returns.loop_exit (by simp [heapifyBody, hn]), ?_, Relinked.refl s⟩
      exact chain_append.mpr ⟨some parent, hf, rfl, hn⟩
  | cons current rest ih =>
      obtain ⟨hn, hr⟩ := chain_cons.mp hr
      rw [hn, moveFront]
      have hnd' := List.nodup_append.mp hnd
      have hcp : current ≠ parent := by
        rintro rfl
        simp at hnd'
      have hcf : current ∉ front := fun h => hnd'.2.2 _ h current (by simp) rfl
      have hpf : parent ∉ front := fun h => hnd'.2.2 _ h parent (by simp) rfl
      have hcr : current ∉ rest := by
        have := hnd'.2.1
        simp_all
      have hpr : parent ∉ rest := by
        have := hnd'.2.1
        simp_all
      split
      · next hlt =>
          set s₁ := ((s.setNext parent (s.next current)).setNext current s.heap).setHeap
            (some current) with hs₁
          have hstep := heapifyBody_move hlt
          have hnp : s₁.next parent = s.next current := by
            simp [hs₁, Ne.symm hcp]
          have hf₁ : Seg s₁.next s₁.heap (current :: front) (some parent) := by
            refine ⟨rfl, ?_⟩
            have hc₁ : s₁.next current = s.heap := by simp [hs₁]
            rw [hc₁]
            simpa [hs₁] using (hf.update hpf).update hcf
          have hr₁ : Chain s₁.next (s₁.next parent) rest := by
            rw [hnp]
            simpa [hs₁] using (hr.update hpr).update hcr
          have hnd₁ : (current :: front ++ parent :: rest).Nodup := by
            refine List.Perm.nodup ?_ hnd
            have h : (parent :: current :: rest).Perm (current :: parent :: rest) :=
              List.Perm.swap _ _ _
            exact (h.append_left front).trans List.perm_middle
          obtain ⟨s', hret, hq, hrel⟩ := ih hf₁ hr₁ hnd₁
          have he : s₁.expire = s.expire := by simp [hs₁]
          rw [hnp] at hret
          rw [he] at hq
          refine ⟨s', hstep.loop_next hret, hq, Relinked.trans ⟨he, ?_, ?_⟩ hrel⟩ <;> simp [hs₁]
      · next hge =>
          have hf₁ : Seg s.next s.heap (front ++ [parent]) (some current) :=
            seg_concat.mpr ⟨hf, hn⟩
          obtain ⟨s', hret, hq, hrel⟩ := ih hf₁ hr (by simpa using hnd)
          exact ⟨s', (heapifyBody_keep hge).loop_next hret, hq, hrel⟩

/-- **`heapify`** is the pass over the list from `heap`. -/
theorem heapify_returns (hq : Queue s l) (hl : l ≠ []) :
    ∃ s', Returns heapify s () s' ∧ Queue s' (pass s.expire l) ∧ Relinked s s' := by
  have hnd := Chain.nodup hq
  cases l with
  | nil => exact absurd rfl hl
  | cons first rest =>
      obtain ⟨hh, hr⟩ := hq
      have hf : Seg s.next s.heap [] (some first) := hh
      obtain ⟨s', hret, hq', hrel⟩ := heapify_loop hf hr hnd
      refine ⟨s', ?_, hq', hrel⟩
      simpa only [heapify, hh, returns_load_bind, returns_deref_bind] using hret

/-! ### `deleteTimer` -/

/-- What `deleteTimer` does to the list: a head is dropped; from further
down the node is taken out and the pass follows. -/
def deleteList (key : τ → Int) (target : τ) : List τ → List τ
  | [] => []
  | first :: rest =>
      if first = target then rest
      else if target ∈ rest then pass key (first :: rest.erase target)
      else first :: rest

theorem deleteList_perm {key : τ → Int} {target : τ} :
    (deleteList key target l).Perm (l.erase target) := by
  cases l with
  | nil => exact List.Perm.refl _
  | cons first rest =>
      rw [deleteList]
      split
      · next h => subst h; simp
      · next h =>
          rw [List.erase_cons_tail (by simpa using h)]
          split
          · exact pass_perm
          · next hm => rw [List.erase_of_not_mem hm]

/-- The search loop stops at the node before `target`. -/
theorem deleteTimer_loop_found {target parent : τ} {skip rest : List τ}
    (h : Chain s.next (s.next parent) (skip ++ target :: rest)) (ht : target ∉ skip) :
    ∃ pre before, parent :: skip = pre ++ [before] ∧
      Returns (loop (deleteTimerBody target) (parent, s.next parent)) s
        (before, some target) s := by
  induction skip generalizing parent with
  | nil =>
      obtain ⟨hn, -⟩ := chain_cons.mp h
      exact ⟨[], parent, rfl, Returns.loop_exit (by simp [deleteTimerBody, hn])⟩
  | cons current skip ih =>
      obtain ⟨hn, h⟩ := chain_cons.mp h
      have hct : current ≠ target := fun e => ht (by simp [e])
      obtain ⟨pre, before, hpre, hret⟩ := ih h fun hm => ht (List.mem_cons_of_mem _ hm)
      refine ⟨parent :: pre, before, by rw [hpre, List.cons_append], ?_⟩
      have hstep : Returns (deleteTimerBody target (parent, some current)) s
          (Sum.inl (current, s.next current)) s := by
        simp [deleteTimerBody, hct]
      rw [hn]
      exact hstep.loop_next hret

/-- A node that is not in the list is not found. -/
theorem deleteTimer_loop_absent {target parent : τ} {rest : List τ}
    (h : Chain s.next (s.next parent) rest) (ht : target ∉ rest) :
    ∃ before, Returns (loop (deleteTimerBody target) (parent, s.next parent)) s
      (before, none) s := by
  induction rest generalizing parent with
  | nil =>
      have hn : s.next parent = none := h
      exact ⟨parent, Returns.loop_exit (by simp [deleteTimerBody, hn])⟩
  | cons current rest ih =>
      obtain ⟨hn, h⟩ := chain_cons.mp h
      have hct : current ≠ target := fun e => ht (by simp [e])
      obtain ⟨before, hret⟩ := ih h fun hm => ht (List.mem_cons_of_mem _ hm)
      have hstep : Returns (deleteTimerBody target (parent, some current)) s
          (Sum.inl (current, s.next current)) s := by
        simp [deleteTimerBody, hct]
      rw [hn]
      exact ⟨before, hstep.loop_next hret⟩

/-- **`deleteTimer`** is `deleteList` on the list from `heap`. -/
theorem deleteTimer_returns (hq : Queue s l) (target : τ) :
    ∃ s', Returns (deleteTimer (some target)) s () s' ∧
      Queue s' (deleteList s.expire target l) ∧ Relinked s s' := by
  cases l with
  | nil =>
      have hh : s.heap = none := hq
      exact ⟨s, by simp [deleteTimer, hh], hq, Relinked.refl s⟩
  | cons first rest =>
      have hnd := Chain.nodup hq
      obtain ⟨hh, hr⟩ := chain_cons.mp hq
      rw [deleteList]
      split
      · next h =>
          -- the head: no search, no pass
          refine ⟨s.setHeap (s.next first), by simp [deleteTimer, hh, h], ?_, ⟨rfl, rfl, rfl⟩⟩
          exact hr
      · next h =>
          split
          · next hm =>
              obtain ⟨skip, rest', rfl, hskip⟩ := List.eq_append_cons_of_mem hm
              obtain ⟨pre, before, hpre, hloop⟩ := deleteTimer_loop_found hr hskip
              have hl : first :: (skip ++ target :: rest') = pre ++ before :: target :: rest' := by
                rw [← List.cons_append, hpre, List.append_assoc, List.singleton_append]
              have hl' : first :: (skip ++ target :: rest').erase target
                  = pre ++ before :: rest' := by
                rw [List.erase_append_right _ hskip, List.erase_cons_head, ← List.cons_append,
                  hpre, List.append_assoc, List.singleton_append]
              have hq₁ : Queue (s.setNext before (s.next target)) (pre ++ before :: rest') := by
                rw [hl] at hq hnd
                simpa [Queue] using hq.unlink hnd
              obtain ⟨s', hheap, hq', hrel⟩ := heapify_returns hq₁ (by simp)
              rw [expire_setNext] at hq'
              refine ⟨s', ?_, by rw [hl']; exact hq', Relinked.trans ⟨?_, ?_, ?_⟩ hrel⟩
              · simp only [deleteTimer, hh, h, returns_load_bind, if_false,
                  returns_bind_iff hloop, returns_store_bind]
                exact hheap
              all_goals simp
          · next hm =>
              obtain ⟨before, hloop⟩ := deleteTimer_loop_absent hr hm
              refine ⟨s, ?_, hq, Relinked.refl s⟩
              simp only [deleteTimer, hh, h, returns_load_bind, if_false, returns_bind_iff hloop,
                returns_pure, and_self]

theorem deleteTimer_null : Returns (deleteTimer none) s () s := by
  cases h : s.heap <;> simp [deleteTimer, h]

/-! ### `addTimer` -/

omit [DecidableEq τ] in
/-- The walk of `addTimer` stops at the tail. -/
theorem addTimer_loop {first : τ} {rest : List τ} (h : Chain s.next (s.next first) rest) :
    ∃ pre last, first :: rest = pre ++ [last] ∧ Returns (loop addTimerBody first) s last s := by
  induction rest generalizing first with
  | nil =>
      have hn : s.next first = none := h
      exact ⟨[], first, rfl, Returns.loop_exit (by simp [addTimerBody, hn])⟩
  | cons succ rest ih =>
      obtain ⟨hn, h⟩ := chain_cons.mp h
      obtain ⟨pre, last, hpre, hret⟩ := ih h
      have hstep : Returns (addTimerBody first) s (Sum.inl succ) s := by
        simp [addTimerBody, hn]
      exact ⟨first :: pre, last, by rw [hpre, List.cons_append], hstep.loop_next hret⟩

/-- **`addTimer`** of a node outside the list appends it and runs the pass. -/
theorem addTimer_returns (hq : Queue s l) {t : τ} (ht : t ∉ l) (now delay : Int) (c : κ) :
    ∃ s', Returns (addTimer now t delay c) s () s' ∧
      Queue s' (pass (Function.update s.expire t (now + delay)) (l ++ [t])) ∧
      Relinked (s.arm t (now + delay) c) s' := by
  set s₁ := s.arm t (now + delay) c with hs₁
  have hq₁ : Chain s₁.next s₁.heap l := by
    rw [hs₁, next_arm]
    exact hq.update ht
  have hn : s₁.next t = none := by simp [hs₁]
  -- the list with `t` hung behind its last node, before the pass
  suffices h : ∃ s₂, Queue s₂ (l ++ [t]) ∧ Relinked s₁ s₂ ∧
      ∀ s', Returns heapify s₂ () s' → Returns (addTimer now t delay c) s () s' by
    obtain ⟨s₂, hq₂, hrel₂, hcall⟩ := h
    obtain ⟨s', hheap, hq', hrel⟩ := heapify_returns hq₂ (by simp)
    rw [hrel₂.expire, hs₁, expire_arm] at hq'
    exact ⟨s', hcall s' hheap, hq', hrel₂.trans hrel⟩
  rcases l with - | ⟨first, rest⟩
  · have hh : s₁.heap = none := hq₁
    refine ⟨s₁.setHeap (some t), ⟨rfl, hn⟩, ⟨rfl, rfl, rfl⟩, fun s' hheap => ?_⟩
    simp only [addTimer, returns_store_bind, returns_load_bind, ← hs₁, hh]
    exact hheap
  · obtain ⟨hh, hr⟩ := chain_cons.mp hq₁
    obtain ⟨pre, last, hpre, hloop⟩ := addTimer_loop hr
    have hnd := Chain.nodup hq₁
    refine ⟨s₁.setNext last (some t), ?_, ⟨by simp, by simp, by simp⟩, fun s' hheap => ?_⟩
    · rw [hpre] at hq₁ ht hnd ⊢
      simpa [Queue] using hq₁.link ht hnd hn
    · simp only [addTimer, returns_store_bind, returns_load_bind, ← hs₁, hh]
      rw [returns_bind_iff hloop, returns_store_bind]
      exact hheap

end surgery

/-! ### `executeTimers` -/

/-- The due nodes at the front of the list are taken off and called back,
in list order; the first node that is not due ends the loop. -/
theorem executeTimers_returns (hq : Queue s l) (now : Int) :
    ∃ s', Returns (executeTimers idle now) s () s' ∧
      Queue s' (l.dropWhile (s.expire · ≤ now)) ∧
      s'.expire = s.expire ∧ s'.callback = s.callback ∧
      s'.calls = s.calls ++ (l.takeWhile (s.expire · ≤ now)).map fun t => (t, s.callback t) := by
  induction l generalizing s with
  | nil =>
      have hh : s.heap = none := hq
      exact ⟨s, Returns.loop_exit (by simp [executeTimersBody, hh]), hq, rfl, rfl, by simp⟩
  | cons timer l ih =>
      obtain ⟨hh, hr⟩ := chain_cons.mp hq
      by_cases hdue : s.expire timer ≤ now
      · set s₁ := (s.setHeap (s.next timer)).logCall timer (s.callback timer) with hs₁
        obtain ⟨s', hret, hq', he, hc, hcalls⟩ := ih (s := s₁) hr
        have hstep : Returns (executeTimersBody idle now ()) s (Sum.inl ()) s₁ := by
          simp [executeTimersBody, hh, hdue, idle, hs₁]
        refine ⟨s', hstep.loop_next hret, ?_, he, hc, ?_⟩
        · rw [List.dropWhile_cons_of_pos (by simpa using hdue)]
          exact hq'
        · rw [hcalls, List.takeWhile_cons_of_pos (by simpa using hdue)]
          simp [hs₁]
      · refine ⟨s, Returns.loop_exit (by simp [executeTimersBody, hh, hdue]), ?_, rfl, rfl, ?_⟩
        · rw [List.dropWhile_cons_of_neg (by simpa using hdue)]
          exact hq
        · rw [List.takeWhile_cons_of_neg (by simpa using hdue)]
          simp

end DmfServer
