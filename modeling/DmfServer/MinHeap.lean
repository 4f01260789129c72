/-
DmfServer/MinHeap.lean

The timers of `test/timer/timer.c`: a binary heap of pointers to events, in an
array of 1024.

`min_heap_push` and `min_heap_pop` do not swap.  They copy pointers into a
hole that moves, and fill it at the end, so within their loops one pointer is
in the array twice.  The invariant of the loops is about the array with the
hole filled (`Hole`): its entries stay the same up to order, and it is a heap
but for the hole, in the sense of `HoleHeap.Rising` or `HoleHeap.Sinking`.

A call back works on an environment of its own, a component of the state that
the timers do not use.  `time(NULL)` is the argument `now` of the functions
that read the clock, and need not be monotone.  malloc may give the address of
a freed event again.

What the queue is for is said on lists of events, by `Fires`: `handle_events`
calls back what is due, in order of time, and keeps the rest.
-/
import DmfServer.HoleHeap
import DmfServer.Kernel
import DmfServer.Table
import DmfServer.Threads

namespace DmfServer

open Imperative Imperative.Prog HoleHeap

/-- `Event`. -/
structure MinHeap.Event (κ : Type) where
  timeout : Int
  callback : κ

/-- `MinHeap`, and with it the events in memory, the events called back so far,
and what the call backs work on. -/
structure MinHeap (κ ε : Type) where
  events : Nat → Addr
  size : Nat
  mem : Table (MinHeap.Event κ)
  calls : List (MinHeap.Event κ)
  env : ε

namespace MinHeap

variable {κ ε : Type}

def setSize (s : MinHeap κ ε) (n : Nat) : MinHeap κ ε := { s with size := n }

def setEvents (s : MinHeap κ ε) (b : Nat → Addr) : MinHeap κ ε := { s with events := b }

def setEvent (s : MinHeap κ ε) (p : Addr) (e : Event κ) : MinHeap κ ε :=
  { s with mem := s.mem.set p e }

def freeEvent (s : MinHeap κ ε) (p : Addr) : MinHeap κ ε := { s with mem := s.mem.erase p }

def logCall (s : MinHeap κ ε) (e : Event κ) : MinHeap κ ε := { s with calls := s.calls ++ [e] }

def setEnv (s : MinHeap κ ε) (x : ε) : MinHeap κ ε := { s with env := x }

/-! ### The functions of `timer.c` -/

/-- `heap->events[i]`.  The array has 1024 slots. -/
def slot (i : Nat) : Prog (MinHeap κ ε) Addr := do
  if i < 1024 then load (·.events i) else fault

/-- `heap->events[i] = p`. -/
def setSlot (i : Nat) (p : Addr) : Prog (MinHeap κ ε) Unit := do
  if i < 1024 then store fun s => s.setEvents (fill s.events i p) else fault

/-- `*p`. -/
def eventAt (p : Addr) : Prog (MinHeap κ ε) (Event κ) := do
  let e ← load (·.mem.get p)
  deref e

/-- `free(p)`, of an event that is allocated. -/
def free (p : Addr) : Prog (MinHeap κ ε) Unit := do
  let _ ← eventAt p
  store (·.freeEvent p)

/-- A turn of the loop of `min_heap_push`, the hole at `i`. -/
def pushTurn (event : Addr) (i : Nat) : Prog (MinHeap κ ε) (Nat ⊕ Nat) := do
  if 0 < i then
    let p := (i - 1) / 2
    if (← eventAt (← slot p)).timeout ≤ (← eventAt event).timeout then pure (Sum.inr i)
    else
      setSlot i (← slot p)
      pure (Sum.inl p)
  else pure (Sum.inr i)

/-- `min_heap_push`. -/
def push (event : Addr) : Prog (MinHeap κ ε) Unit := do
  let i ← load (·.size)
  store (·.setSize (i + 1))
  let i ← loop (pushTurn event) i
  setSlot i event

/-- `min_heap_top`. -/
def top : Prog (MinHeap κ ε) Addr := slot 0

/-- The child that `min_heap_pop` compares with. -/
def child (i : Nat) : Prog (MinHeap κ ε) Nat := do
  let a := i * 2 + 1
  let b := i * 2 + 2
  if b < (← load (·.size)) then
    if (← eventAt (← slot b)).timeout < (← eventAt (← slot a)).timeout then pure b else pure a
  else pure a

/-- A turn of the loop of `min_heap_pop`, the hole at `i`. -/
def popTurn (event : Addr) (i : Nat) : Prog (MinHeap κ ε) (Nat ⊕ Nat) := do
  if i * 2 + 1 < (← load (·.size)) then
    let a ← child i
    if (← eventAt (← slot a)).timeout ≥ (← eventAt event).timeout then pure (Sum.inr i)
    else
      setSlot i (← slot a)
      pure (Sum.inl a)
  else pure (Sum.inr i)

/-- `min_heap_pop`.  Of an empty heap it would read before the array. -/
def pop : Prog (MinHeap κ ε) Unit := do
  match ← load (·.size) with
  | 0 => fault
  | size + 1 =>
      store (·.setSize size)
      let event ← slot size
      let i ← loop (popTurn event) 0
      setSlot i event

/-- A turn of the loop of `handle_events`. -/
def handleEventsTurn (call : κ → Prog ε Unit) (now : Int) :
    Unit → Prog (MinHeap κ ε) (Unit ⊕ Unit) := fun _ => do
  if 0 < (← load (·.size)) then
    if (← eventAt (← slot 0)).timeout ≤ now then
      let event ← top
      pop
      let e ← eventAt event
      -- `event->callback()`
      store (·.logCall e)
      zoom env (fun x s => s.setEnv x) (call e.callback)
      free event
      pure (Sum.inl ())
    else pure (Sum.inr ())
  else pure (Sum.inr ())

/-- `handle_events`, the clock at `now`. -/
def handleEvents (call : κ → Prog ε Unit) (now : Int) : Prog (MinHeap κ ε) Unit :=
  loop (handleEventsTurn call now) ()

/-- `add_timer`, the clock at `now`.  `hint` is the address malloc would like
to give. -/
def addTimer (now timeout : Int) (callback : κ) (hint : Addr) : Prog (MinHeap κ ε) Unit := do
  let event ← load (·.mem.pick 0 hint)
  store (·.setEvent event ⟨now + timeout, callback⟩)
  push event

/-! ### Symbolic execution -/

variable {s s' t : MinHeap κ ε} {i n : Nat} {p : Addr} {e : Event κ} {α : Type} {a : α}
variable {l : List Addr}

theorem returns_slot_bind {k : Addr → Prog (MinHeap κ ε) α} (hi : i < 1024) :
    Returns (slot i >>= k) s a s' ↔ Returns (k (s.events i)) s a s' := by
  rw [slot, if_pos hi, returns_load_bind]

theorem returns_setSlot (hi : i < 1024) :
    Returns (setSlot i p) s () s' ↔ s.setEvents (fill s.events i p) = s' := by
  rw [setSlot, if_pos hi, returns_store]

theorem returns_setSlot_bind {k : Unit → Prog (MinHeap κ ε) α} (hi : i < 1024) :
    Returns (setSlot i p >>= k) s a s' ↔ Returns (k ()) (s.setEvents (fill s.events i p)) a s' :=
  returns_bind_iff ((returns_setSlot hi).mpr rfl)

theorem returns_eventAt_bind {k : Event κ → Prog (MinHeap κ ε) α} (hp : s.mem.get p = some e) :
    Returns (eventAt p >>= k) s a s' ↔ Returns (k e) s a s' := by
  rw [eventAt, Prog.bind_assoc, returns_load_bind, hp, returns_deref_bind]

theorem returns_free_bind {k : Unit → Prog (MinHeap κ ε) α} (hp : s.mem.get p = some e) :
    Returns (free p >>= k) s a s' ↔ Returns (k ()) (s.freeEvent p) a s' := by
  rw [free, Prog.bind_assoc, returns_eventAt_bind hp, returns_store_bind]

/-- A turn of the loop of `min_heap_push`: `e` is the new event, and `u` the one
above the hole. -/
theorem pushTurn_returns {u : Event κ} (hpos : 0 < i) (hi : i < 1024)
    (hu : s.mem.get (s.events (parent i)) = some u) (he : s.mem.get p = some e) :
    if u.timeout ≤ e.timeout then Returns (pushTurn p i) s (Sum.inr i) s
    else Returns (pushTurn p i) s (Sum.inl (parent i))
      (s.setEvents (fill s.events i (s.events (parent i)))) := by
  have hslot : parent i < 1024 := (parent_lt hpos).trans hi
  rw [pushTurn, if_pos hpos]
  split_ifs with hle
  · show Returns (slot (parent i) >>= _) _ _ _
    rw [returns_slot_bind hslot, returns_eventAt_bind hu, returns_eventAt_bind he, if_pos hle,
      returns_pure]
    exact ⟨rfl, rfl⟩
  · show Returns (slot (parent i) >>= _) _ _ _
    rw [returns_slot_bind hslot, returns_eventAt_bind hu, returns_eventAt_bind he, if_neg hle]
    show Returns (slot (parent i) >>= _) _ _ _
    rw [returns_slot_bind hslot, returns_setSlot_bind hi, returns_pure]
    exact ⟨rfl, rfl⟩

/-- The timeout of the event at `p`. -/
def timeout (s : MinHeap κ ε) (p : Addr) : Int := (s.mem.get p).elim 0 (·.timeout)

theorem timeout_of_get (hp : s.mem.get p = some e) : s.timeout p = e.timeout := by
  rw [timeout, hp, Option.elim_some]

/-- Of two children it is the one that is due first. -/
theorem child_both {u v : Event κ} (hcap : s.size ≤ 1024) (hb : i * 2 + 2 < s.size)
    (hu : s.mem.get (s.events (i * 2 + 1)) = some u)
    (hv : s.mem.get (s.events (i * 2 + 2)) = some v) :
    Returns (child i) s (if v.timeout < u.timeout then i * 2 + 2 else i * 2 + 1) s := by
  rw [child, returns_load_bind, if_pos hb, returns_slot_bind (by omega), returns_eventAt_bind hv,
    returns_slot_bind (by omega), returns_eventAt_bind hu]
  split_ifs <;> exact returns_pure.mpr ⟨rfl, rfl⟩

/-- No child is due before the one that is chosen. -/
theorem child_returns (hcap : s.size ≤ 1024) (hi : i * 2 + 1 < s.size)
    (hl : ∀ j, 0 < j → j < s.size → parent j = i → ∃ u, s.mem.get (s.events j) = some u) :
    ∃ c, Returns (child i) s c s ∧ 0 < c ∧ c < s.size ∧ parent c = i ∧
      ∀ j, 0 < j → j < s.size → parent j = i →
        s.timeout (s.events c) ≤ s.timeout (s.events j) := by
  have hpa : parent (i * 2 + 1) = i := (parent_eq_iff (Nat.succ_pos _)).mpr (by omega)
  have hpb : parent (i * 2 + 2) = i := (parent_eq_iff (Nat.succ_pos _)).mpr (by omega)
  have hor : ∀ j, 0 < j → parent j = i → j = i * 2 + 1 ∨ j = i * 2 + 2 := by
    intro j hpos hj
    have := (parent_eq_iff hpos).mp hj
    omega
  obtain ⟨u, hu⟩ := hl _ (Nat.succ_pos _) hi hpa
  by_cases hb : i * 2 + 2 < s.size
  · obtain ⟨v, hv⟩ := hl _ (Nat.succ_pos _) hb hpb
    have hret := child_both hcap hb hu hv
    by_cases hlt : v.timeout < u.timeout
    · rw [if_pos hlt] at hret
      refine ⟨_, hret, Nat.succ_pos _, hb, hpb, fun j hpos _ hj => ?_⟩
      obtain rfl | rfl := hor j hpos hj
      · rw [timeout_of_get hu, timeout_of_get hv]
        exact hlt.le
      · exact le_refl _
    · rw [if_neg hlt] at hret
      refine ⟨_, hret, Nat.succ_pos _, hi, hpa, fun j hpos _ hj => ?_⟩
      obtain rfl | rfl := hor j hpos hj
      · exact le_refl _
      · rw [timeout_of_get hu, timeout_of_get hv]
        exact le_of_not_gt hlt
  · -- the last slot, without a sibling
    refine ⟨i * 2 + 1, ?_, Nat.succ_pos _, hi, hpa, fun j hpos hj hp => ?_⟩
    · rw [child, returns_load_bind, if_neg hb, returns_pure]
      exact ⟨rfl, rfl⟩
    · obtain rfl | rfl := hor j hpos hp
      · exact le_refl _
      · exact absurd hj hb

/-- A turn of the loop of `min_heap_pop`: `e` is the last event, and `u` the one
of the child. -/
theorem popTurn_returns {c : Nat} {u : Event κ} (hi : i * 2 + 1 < s.size) (hcap : s.size ≤ 1024)
    (hchild : Returns (child i) s c s) (hc : c < s.size)
    (hu : s.mem.get (s.events c) = some u) (he : s.mem.get p = some e) :
    if u.timeout ≥ e.timeout then Returns (popTurn p i) s (Sum.inr i) s
    else Returns (popTurn p i) s (Sum.inl c) (s.setEvents (fill s.events i (s.events c))) := by
  have hslot : c < 1024 := hc.trans_le hcap
  rw [popTurn, returns_load_bind, returns_load_bind, if_pos hi, returns_bind_iff hchild,
    returns_bind_iff hchild, returns_slot_bind hslot, returns_slot_bind hslot,
    returns_eventAt_bind hu, returns_eventAt_bind hu, returns_eventAt_bind he,
    returns_eventAt_bind he]
  split_ifs with hge
  · rw [returns_pure]
    exact ⟨rfl, rfl⟩
  · rw [returns_slot_bind hslot, returns_setSlot_bind (by omega), returns_pure]
    exact ⟨rfl, rfl⟩

/-! ### The loops -/

/-- Each pointer in `l` is that of an event. -/
def Live (s : MinHeap κ ε) (l : List Addr) : Prop := ∀ p ∈ l, ∃ e, s.mem.get p = some e

theorem Live.concat (h : s.Live l) (he : s.mem.get p = some e) : s.Live (l ++ [p]) :=
  List.forall_mem_append.mpr ⟨h, List.forall_mem_singleton.mpr ⟨e, he⟩⟩

/-- Within a loop that was entered from `s`: nothing but the array has changed,
and its entries with `p` in the hole at `i` are those of `l`. -/
structure Hole (s : MinHeap κ ε) (p : Addr) (l : List Addr) (i : Nat) (t : MinHeap κ ε) :
    Prop where
  bound : i < 1024
  eq : t = s.setEvents t.events
  perm : (entries (fill t.events i p) s.size).Perm l

/-- What a slot beside the hole holds. -/
theorem Hole.get (h : Hole s p l i t) (hl : s.Live l) (hn : n < s.size) (hne : n ≠ i) :
    ∃ e, t.mem.get (t.events n) = some e ∧ e.timeout = s.timeout (fill t.events i p n) := by
  have hmem : t.events n ∈ l := by
    refine h.perm.mem_iff.mp (mem_entries.mpr ⟨n, hn, ?_⟩)
    rw [fill_of_ne hne]
  obtain ⟨e, he⟩ := hl _ hmem
  have hm : t.mem = s.mem := by rw [h.eq]; rfl
  refine ⟨e, hm ▸ he, ?_⟩
  rw [fill_of_ne hne, timeout_of_get he]

/-- The pointer at `n` is copied into the hole. -/
theorem Hole.move (h : Hole s p l i t) (hi : i < s.size) (hn : n < s.size) (hne : n ≠ i)
    (hcap : s.size ≤ 1024) : Hole s p l n (t.setEvents (fill t.events i (t.events n))) where
  bound := hn.trans_le hcap
  eq := congrArg (fun u => u.setEvents (fill t.events i (t.events n))) h.eq
  perm := by
    show (entries (fill (fill t.events i (t.events n)) n p) s.size).Perm l
    rw [fill_move hne]
    exact (entries_swap hi hn).trans h.perm

/-- The hole is filled. -/
theorem Hole.filled (h : Hole s p l i t) :
    Returns (setSlot i p) t () (s.setEvents (fill t.events i p)) := by
  refine (returns_setSlot h.bound).mpr ?_
  exact congrArg (fun u => u.setEvents (fill t.events i p)) h.eq

/-- The loop of `min_heap_push`. -/
theorem pushLoop_returns (hcap : s.size ≤ 1024) (hl : s.Live l) (he : s.mem.get p = some e)
    (h : Hole s p l i t) (hi : i < s.size)
    (hr : Rising s.timeout (fill t.events i p) s.size i) :
    ∃ j t', Returns (loop (pushTurn p) i) t j t' ∧ Hole s p l j t' ∧
      Heaped s.timeout (fill t'.events j p) s.size := by
  refine Returns.loop_rule
    (fun i t => Hole s p l i t ∧ i < s.size ∧ Rising s.timeout (fill t.events i p) s.size i)
    (fun i _ => i) ?_ ⟨h, hi, hr⟩
  rintro i t ⟨h, hi, hr⟩
  by_cases hpos : 0 < i
  · have hlt := parent_lt hpos
    have hne : parent i ≠ i := Nat.ne_of_lt hlt
    obtain ⟨u, hu, hut⟩ := h.get hl (hlt.trans hi) hne
    have he' : t.mem.get p = some e := by rw [h.eq]; exact he
    have hself : s.timeout (fill t.events i p i) = e.timeout := by
      rw [fill_self, timeout_of_get he]
    have hturn := pushTurn_returns hpos h.bound hu he'
    by_cases hle : u.timeout ≤ e.timeout
    · -- the new event is not due before the one above the hole
      rw [if_pos hle] at hturn
      refine .inr ⟨i, t, hturn, h, hr.heaped fun _ => ?_⟩
      rw [hself, ← hut]
      exact hle
    · -- the hole moves up, which is a swap of the filled array
      rw [if_neg hle] at hturn
      refine .inl ⟨parent i, _, hturn, ⟨h.move hi (hlt.trans hi) hne hcap, hlt.trans hi, ?_⟩, hlt⟩
      show Rising _ (fill (fill t.events i (t.events (parent i))) (parent i) p) _ _
      rw [fill_move hne]
      refine hr.swap hpos hi ?_
      rw [hself, ← hut]
      exact lt_of_not_ge hle
  · -- the hole is at the root
    refine .inr ⟨i, t, ?_, h, hr.heaped fun hpos' => absurd hpos' hpos⟩
    rw [pushTurn, if_neg hpos, returns_pure]
    exact ⟨rfl, rfl⟩

/-- The loop of `min_heap_pop`. -/
theorem popLoop_returns (hcap : s.size ≤ 1024) (hl : s.Live l) (he : s.mem.get p = some e)
    (h : Hole s p l i t) (hr : Sinking s.timeout (fill t.events i p) s.size i) :
    ∃ j t', Returns (loop (popTurn p) i) t j t' ∧ Hole s p l j t' ∧
      Heaped s.timeout (fill t'.events j p) s.size := by
  refine Returns.loop_rule
    (fun i t => Hole s p l i t ∧ Sinking s.timeout (fill t.events i p) s.size i)
    (fun i _ => s.size - i) ?_ ⟨h, hr⟩
  rintro i t ⟨h, hr⟩
  have hsize : t.size = s.size := by rw [h.eq]; rfl
  have htime : t.timeout = s.timeout := by rw [h.eq]; rfl
  have he' : t.mem.get p = some e := by rw [h.eq]; exact he
  by_cases hi : i * 2 + 1 < s.size
  · have hbelow : ∀ j, 0 < j → parent j = i → j ≠ i := fun j hpos hj =>
      Nat.ne_of_gt (hj ▸ parent_lt hpos)
    obtain ⟨c, hchild, hpos, hc, hpc, hmin⟩ := child_returns (s := t) (hsize ▸ hcap) (hsize ▸ hi)
      fun j hpos hj hp => by
        obtain ⟨u, hu, -⟩ := h.get hl (hsize ▸ hj) (hbelow j hpos hp)
        exact ⟨u, hu⟩
    rw [hsize] at hc hmin
    rw [htime] at hmin
    have hne : c ≠ i := hbelow c hpos hpc
    obtain ⟨u, hu, hut⟩ := h.get hl hc hne
    have hself : s.timeout (fill t.events i p i) = e.timeout := by
      rw [fill_self, timeout_of_get he]
    have hmin' : ∀ j, 0 < j → j < s.size → parent j = i →
        s.timeout (fill t.events i p c) ≤ s.timeout (fill t.events i p j) := by
      intro j hpos' hj hp
      rw [fill_of_ne hne, fill_of_ne (hbelow j hpos' hp)]
      exact hmin j hpos' hj hp
    have hturn := popTurn_returns (hsize ▸ hi) (hsize ▸ hcap) hchild (hsize ▸ hc) hu he'
    by_cases hge : u.timeout ≥ e.timeout
    · rw [if_pos hge] at hturn
      refine .inr ⟨i, t, hturn, h, hr.heaped fun j hpos' hj hp => ?_⟩
      refine le_trans ?_ (hmin' j hpos' hj hp)
      rw [hself, ← hut]
      exact hge
    · -- the hole moves down to the child
      rw [if_neg hge] at hturn
      have hlt : i < c := hpc ▸ parent_lt hpos
      refine .inl ⟨c, _, hturn, ⟨h.move (by omega) hc hne hcap, ?_⟩, by omega⟩
      show Sinking _ (fill (fill t.events i (t.events c)) c p) _ _
      rw [fill_move hne]
      refine hr.swap hpos hc hpc hmin' ?_
      rw [hself, ← hut]
      exact lt_of_not_ge hge
  · refine .inr ⟨i, t, ?_, h, hr.heaped fun j hpos hj hp => ?_⟩
    · rw [popTurn, returns_load_bind, if_neg (hsize ▸ hi), returns_pure]
      exact ⟨rfl, rfl⟩
    · -- the hole has no children
      have := (parent_eq_iff hpos).mp hp
      omega

/-! ### The queue -/

/-- The pointers in the heap. -/
def pointers (s : MinHeap κ ε) : List Addr := entries s.events s.size

/-- The events that are queued. -/
def queue (s : MinHeap κ ε) : List (Event κ) := s.pointers.filterMap s.mem.get

/-- The heap is in order, and has one pointer to each of its events. -/
structure Sound (s : MinHeap κ ε) : Prop where
  bound : s.size ≤ 1024
  live : s.Live s.pointers
  nodup : s.pointers.Nodup
  order : Heaped s.timeout s.events s.size

/-- `min_heap_push` puts the new pointer where it fits. -/
theorem push_returns (hcap : s.size < 1024) (hl : s.Live s.pointers)
    (ho : Heaped s.timeout s.events s.size) (he : s.mem.get p = some e) :
    ∃ b, Returns (push p) s () ((s.setSize (s.size + 1)).setEvents b) ∧
      (entries b (s.size + 1)).Perm (s.pointers ++ [p]) ∧ Heaped s.timeout b (s.size + 1) := by
  -- the hole is the new last slot
  let s₁ := s.setSize (s.size + 1)
  have hl₁ : s₁.Live (s.pointers ++ [p]) := hl.concat he
  have hole : Hole s₁ p (s.pointers ++ [p]) s.size s₁ :=
    ⟨hcap, rfl, List.Perm.of_eq entries_fill_last⟩
  obtain ⟨j, t, hloop, hj, ht⟩ := pushLoop_returns (s := s₁) (Nat.succ_le_of_lt hcap) hl₁ he hole
    (Nat.lt_succ_self _) ho.rising
  refine ⟨fill t.events j p, ?_, hj.perm, ht⟩
  rw [push, returns_load_bind, returns_store_bind]
  exact hloop.bind hj.filled

/-- `min_heap_pop` takes out the first pointer. -/
theorem pop_returns (hcap : s.size ≤ 1024) (hn : s.size = n + 1) (hl : s.Live s.pointers)
    (ho : Heaped s.timeout s.events s.size) :
    ∃ b, Returns pop s () ((s.setSize n).setEvents b) ∧
      (s.events 0 :: entries b n).Perm s.pointers ∧ Heaped s.timeout b n := by
  -- the hole is the root, and the last pointer is to go there; with `n = 0` it is the
  -- one that is taken out
  let s₁ := s.setSize n
  let l := entries (fill s.events 0 (s.events n)) n
  have hperm : (s.events 0 :: l).Perm s.pointers := by
    rw [pointers, hn]
    exact entries_fill_first
  have hl₁ : s₁.Live l := fun q hq => hl q (hperm.mem_iff.mp (List.mem_cons_of_mem _ hq))
  have hlast : s.events n ∈ s.pointers := mem_entries.mpr ⟨n, by omega, rfl⟩
  obtain ⟨e, he⟩ := hl _ hlast
  have hole : Hole s₁ (s.events n) l 0 s₁ := ⟨by decide, rfl, .refl _⟩
  rw [hn] at ho
  obtain ⟨j, t, hloop, hj, ht⟩ :=
    popLoop_returns (s := s₁) (show n ≤ 1024 by omega) hl₁ he hole ho.sinking
  refine ⟨fill t.events j (s.events n), ?_, (hj.perm.cons _).trans hperm, ht⟩
  rw [pop, returns_load_bind, hn]
  show Returns (store _ >>= fun _ => slot n >>= _) _ _ _
  rw [returns_store_bind, returns_slot_bind (by omega)]
  exact hloop.bind hj.filled

/-- `add_timer` adds its event to the queue. -/
theorem addTimer_returns (h : s.Sound) (hcap : s.size < 1024) (now timeout : Int) (callback : κ)
    (hint : Addr) :
    ∃ s', Returns (addTimer now timeout callback hint) s () s' ∧ s'.Sound ∧
      s'.queue.Perm (s.queue ++ [⟨now + timeout, callback⟩]) ∧ s'.calls = s.calls := by
  let p := s.mem.pick 0 hint
  let e : Event κ := ⟨now + timeout, callback⟩
  let s₁ := s.setEvent p e
  -- malloc gives an address that is free, so not one that is queued
  have hnew : ∀ q ∈ s.pointers, q ≠ p := by
    rintro q hq rfl
    obtain ⟨u, hu⟩ := h.live _ hq
    rw [Table.get_pick] at hu
    cases hu
  have hget : ∀ q ∈ s.pointers, s₁.mem.get q = s.mem.get q := fun q hq =>
    Table.get_set_of_ne (hnew q hq)
  have he : s₁.mem.get p = some e := Table.get_set_self
  have htime : ∀ q ∈ s.pointers, s₁.timeout q = s.timeout q := fun q hq => by
    rw [MinHeap.timeout, MinHeap.timeout, hget q hq]
  have hl₁ : s₁.Live s.pointers := fun q hq => by
    rw [hget q hq]
    exact h.live q hq
  obtain ⟨b, hret, hperm, ho⟩ := push_returns (s := s₁) hcap hl₁ (h.order.congr htime) he
  refine ⟨(s₁.setSize (s.size + 1)).setEvents b, ?_, ⟨Nat.succ_le_of_lt hcap, ?_, ?_, ho⟩, ?_, rfl⟩
  · rw [addTimer, returns_load_bind, returns_store_bind]
    exact hret
  · exact fun q hq => hl₁.concat he q (hperm.mem_iff.mp hq)
  · refine hperm.nodup_iff.mpr (List.nodup_append.mpr ⟨h.nodup, List.nodup_singleton p, ?_⟩)
    intro q hq r hr
    rw [List.mem_singleton.mp hr]
    exact hnew q hq
  · refine (hperm.filterMap s₁.mem.get).trans (List.Perm.of_eq ?_)
    rw [List.filterMap_append, List.filterMap_cons_some he, List.filterMap_nil]
    exact congrArg (· ++ [e]) (List.filterMap_congr hget)

/-! ### `handle_events` -/

/-- The call backs come back. -/
def Answers (call : κ → Prog ε Unit) : Prop := ∀ c x, ∃ x', Returns (call c) x () x'

variable {call : κ → Prog ε Unit} {now : Int}

/-- What is due at `now` is called back, `batch` in this order, and the rest is
kept. -/
structure Fires (now : Int) (s s' : MinHeap κ ε) (batch : List (Event κ)) : Prop where
  calls : s'.calls = s.calls ++ batch
  due : batch.Perm (s.queue.filter (·.timeout ≤ now))
  inOrder : batch.Pairwise (·.timeout ≤ ·.timeout)
  kept : s'.queue.Perm (s.queue.filter (now < ·.timeout))

/-- A turn of `handle_events` that calls back. -/
theorem handleEventsTurn_returns (hcall : Answers call) (h : s.Sound) (hpos : 0 < s.size)
    (he : s.mem.get (s.events 0) = some e) (hdue : e.timeout ≤ now) :
    ∃ s', Returns (handleEventsTurn call now ()) s (Sum.inl ()) s' ∧ s'.Sound ∧
      s'.size < s.size ∧ s'.calls = s.calls ++ [e] ∧ (e :: s'.queue).Perm s.queue := by
  obtain ⟨n, hn⟩ : ∃ n, s.size = n + 1 := ⟨s.size - 1, by omega⟩
  obtain ⟨b, hpop, hperm, ho⟩ := pop_returns h.bound hn h.live h.order
  obtain ⟨x, hx⟩ := hcall e.callback s.env
  let s₁ := (s.setSize n).setEvents b
  let s' := ((s₁.logCall e).setEnv x).freeEvent (s.events 0)
  -- no other slot has the pointer, so that `free` leaves the queue alone
  obtain ⟨hfresh, hnodup⟩ := List.nodup_cons.mp (hperm.nodup_iff.mpr h.nodup)
  have hget : ∀ q ∈ entries b n, s'.mem.get q = s.mem.get q := fun q hq =>
    Table.get_erase_of_ne (ne_of_mem_of_not_mem hq hfresh)
  have htime : ∀ q ∈ entries b n, s'.timeout q = s.timeout q := fun q hq => by
    rw [timeout, timeout, hget q hq]
  refine ⟨s', ?_, ⟨?_, fun q hq => ?_, hnodup, ho.congr htime⟩, ?_, rfl, ?_⟩
  · rw [handleEventsTurn, returns_load_bind, if_pos hpos, returns_slot_bind (by decide),
      returns_eventAt_bind he, if_pos hdue, top, returns_slot_bind (by decide)]
    refine hpop.bind ?_
    have he₁ : s₁.mem.get (s.events 0) = some e := he
    have hx₁ : Returns (zoom env (fun x s => s.setEnv x) (call e.callback)) (s₁.logCall e) ()
        ((s₁.logCall e).setEnv x) := Returns.zoom (r := s₁.logCall e) hx
    have he₂ : ((s₁.logCall e).setEnv x).mem.get (s.events 0) = some e := he
    rw [returns_eventAt_bind he₁, returns_store_bind, returns_bind_iff hx₁,
      returns_free_bind he₂, returns_pure]
    exact ⟨rfl, rfl⟩
  · show n ≤ 1024
    have := h.bound
    omega
  · rw [hget q hq]
    exact h.live q (hperm.mem_iff.mp (List.mem_cons_of_mem _ hq))
  · show n < s.size
    omega
  · have hq : s'.queue = (entries b n).filterMap s.mem.get := List.filterMap_congr hget
    have hcons := hperm.filterMap s.mem.get
    rw [List.filterMap_cons_some he, ← hq] at hcons
    exact hcons

/-- The first event is due no later than any other. -/
theorem Sound.first_le (h : s.Sound) (he : s.mem.get (s.events 0) = some e) {u : Event κ}
    (hu : u ∈ s.queue) : e.timeout ≤ u.timeout := by
  obtain ⟨q, hq, hget⟩ := List.mem_filterMap.mp hu
  obtain ⟨i, hi, rfl⟩ := mem_entries.mp hq
  rw [← timeout_of_get he, ← timeout_of_get hget]
  exact h.order.first_le hi

/-- Within a loop of `handle_events` that was entered from `s`: `batch` was
called back so far, and is due before what is left. -/
structure Firing (now : Int) (s t : MinHeap κ ε) (batch : List (Event κ)) : Prop where
  sound : t.Sound
  calls : t.calls = s.calls ++ batch
  perm : (batch ++ t.queue).Perm s.queue
  due : ∀ e ∈ batch, e.timeout ≤ now
  first : ∀ e ∈ batch, ∀ u ∈ t.queue, e.timeout ≤ u.timeout
  inOrder : batch.Pairwise (·.timeout ≤ ·.timeout)

variable {batch : List (Event κ)}

/-- One more event is called back. -/
theorem Firing.next (h : Firing now s t batch) (he : t.mem.get (t.events 0) = some e)
    (hdue : e.timeout ≤ now) (hs : s'.Sound) (hcalls : s'.calls = t.calls ++ [e])
    (hperm : (e :: s'.queue).Perm t.queue) : Firing now s s' (batch ++ [e]) := by
  have hmem : ∀ u ∈ s'.queue, u ∈ t.queue := fun u hu =>
    hperm.mem_iff.mp (List.mem_cons_of_mem e hu)
  have hlast : e ∈ t.queue := hperm.mem_iff.mp List.mem_cons_self
  refine ⟨hs, ?_, ?_, ?_, ?_, ?_⟩
  · rw [hcalls, h.calls, List.append_assoc]
  · rw [List.append_assoc]
    exact (hperm.append_left batch).trans h.perm
  · exact List.forall_mem_append.mpr ⟨h.due, List.forall_mem_singleton.mpr hdue⟩
  · refine List.forall_mem_append.mpr ⟨fun u hu v hv => ?_, List.forall_mem_singleton.mpr ?_⟩
    · exact h.first u hu v (hmem v hv)
    · exact fun v hv => h.sound.first_le he (hmem v hv)
  · refine List.pairwise_append.mpr ⟨h.inOrder, List.pairwise_singleton _ _, fun u hu v hv => ?_⟩
    rw [List.mem_singleton.mp hv]
    exact h.first u hu e hlast

/-- Nothing that is left is due. -/
theorem Firing.fires (h : Firing now s t batch) (hrest : ∀ u ∈ t.queue, now < u.timeout) :
    Fires now s t batch := by
  refine ⟨h.calls, ?_, h.inOrder, ?_⟩
  · have hp := h.perm.filter (·.timeout ≤ now)
    have hnone : t.queue.filter (·.timeout ≤ now) = [] :=
      List.filter_eq_nil_iff.mpr fun u hu => by simpa using hrest u hu
    rw [List.filter_append, hnone, List.append_nil,
      List.filter_eq_self.mpr fun u hu => decide_eq_true (h.due u hu)] at hp
    exact hp
  · have hp := h.perm.filter (now < ·.timeout)
    have hnone : batch.filter (now < ·.timeout) = [] :=
      List.filter_eq_nil_iff.mpr fun u hu => by simpa using h.due u hu
    rw [List.filter_append, hnone, List.nil_append,
      List.filter_eq_self.mpr fun u hu => decide_eq_true (hrest u hu)] at hp
    exact hp

/-- `handle_events` calls back what is due, in order. -/
theorem handleEvents_returns (hcall : Answers call) (h : s.Sound) (now : Int) :
    ∃ batch s', Returns (handleEvents call now) s () s' ∧ s'.Sound ∧ Fires now s s' batch := by
  have hstart : Firing now s s [] :=
    ⟨h, (List.append_nil _).symm, .refl _, fun e he => absurd he List.not_mem_nil,
      fun e he => absurd he List.not_mem_nil, .nil⟩
  have hloop : ∃ a s', Returns (handleEvents call now) s a s' ∧
      ∃ batch, s'.Sound ∧ Fires now s s' batch := by
    refine Returns.loop_rule (fun _ t => ∃ batch, Firing now s t batch) (fun _ t => t.size)
      ?_ ⟨[], hstart⟩
    rintro ⟨⟩ t ⟨batch, ht⟩
    rcases Nat.eq_zero_or_pos t.size with hz | hpos
    · -- nothing is queued
      refine .inr ⟨(), t, ?_, batch, ht.sound, ht.fires fun u hu => ?_⟩
      · rw [handleEventsTurn, returns_load_bind, hz, if_neg (Nat.lt_irrefl 0), returns_pure]
        exact ⟨rfl, rfl⟩
      · rw [queue, pointers, hz] at hu
        exact absurd hu List.not_mem_nil
    obtain ⟨e, he⟩ := ht.sound.live _ (mem_entries.mpr ⟨0, hpos, rfl⟩)
    by_cases hdue : e.timeout ≤ now
    · obtain ⟨t', hturn, ht', hlt, hcalls, hperm⟩ :=
        handleEventsTurn_returns hcall ht.sound hpos he hdue
      exact .inl ⟨(), t', hturn, ⟨batch ++ [e], ht.next he hdue ht' hcalls hperm⟩, hlt⟩
    · -- the first event is not due, so none is
      refine .inr ⟨(), t, ?_, batch, ht.sound, ht.fires fun u hu => ?_⟩
      · rw [handleEventsTurn, returns_load_bind, if_pos hpos, returns_slot_bind (by decide),
          returns_eventAt_bind he, if_neg hdue, returns_pure]
        exact ⟨rfl, rfl⟩
      · exact (lt_of_not_ge hdue).trans_le (ht.sound.first_le he hu)
  obtain ⟨⟨⟩, s', hret, batch, hs, hf⟩ := hloop
  exact ⟨batch, s', hret, hs, hf⟩

/-! ### Runs -/

/-- A call on the heap, with the clock it reads. -/
inductive Op (κ : Type) where
  | addTimer (now timeout : Int) (callback : κ) (hint : Addr)
  | handleEvents (now : Int)

/-- The function called. -/
def Op.prog (call : κ → Prog ε Unit) : Op κ → Prog (MinHeap κ ε) Unit
  | .addTimer now timeout callback hint => MinHeap.addTimer now timeout callback hint
  | .handleEvents now => MinHeap.handleEvents call now

/-- An event is added only if there is room. -/
def Op.fits : Op κ → MinHeap κ ε → Bool
  | .addTimer _ _ _ _, s => s.size < 1024
  | .handleEvents _, _ => true

/-- The event that the call adds. -/
def Op.event : Op κ → Option (Event κ)
  | .addTimer now timeout callback _ => some ⟨now + timeout, callback⟩
  | .handleEvents _ => none

/-- The events that the calls add. -/
def added (ops : List (Op κ)) : List (Event κ) := ops.filterMap Op.event

/-- `MinHeap heap = { .size = 0 }`. -/
def init (events : Nat → Addr) (mem : Table (Event κ)) (env : ε) : MinHeap κ ε :=
  ⟨events, 0, mem, [], env⟩

variable {ops : List (Op κ)} {events : Nat → Addr} {mem : Table (Event κ)} {x : ε}

/-- The heap is sound, and what was added was called back or is queued. -/
structure Accounted (ops : List (Op κ)) (s : MinHeap κ ε) : Prop where
  sound : s.Sound
  perm : (added ops).Perm (s.calls ++ s.queue)

theorem init_accounted : Accounted [] (init events mem x) where
  sound := by
    refine ⟨Nat.zero_le _, fun p hp => absurd hp List.not_mem_nil, List.nodup_nil, ?_⟩
    exact fun j _ hj => absurd hj (Nat.not_lt_zero j)
  perm := .refl _

/-- What is not called back is kept. -/
theorem Fires.perm (h : Fires now s s' batch) :
    (s'.calls ++ s'.queue).Perm (s.calls ++ s.queue) := by
  rw [h.calls, List.append_assoc]
  refine List.Perm.append_left _ ((h.due.append h.kept).trans ?_)
  have hnot : ∀ e : Event κ, decide (now < e.timeout) = !decide (e.timeout ≤ now) := by
    intro e
    rw [← decide_not, decide_eq_decide, not_le]
  simp only [hnot]
  exact List.filter_append_perm _ _

theorem Accounted.step (hcall : Answers call) (h : Accounted ops s) {op : Op κ} (hfits : op.fits s)
    (hret : Returns (op.prog call) s () s') : Accounted (ops ++ [op]) s' := by
  cases op with
  | addTimer now timeout callback hint =>
      obtain ⟨s₁, hret₁, hs, hq, hcalls⟩ := addTimer_returns h.sound (of_decide_eq_true hfits)
        now timeout callback hint
      obtain ⟨-, rfl⟩ := hret₁.unique hret
      refine ⟨hs, ?_⟩
      rw [added, List.filterMap_append, hcalls]
      refine (h.perm.append_right _).trans ?_
      rw [List.append_assoc]
      exact hq.symm.append_left _
  | handleEvents now =>
      obtain ⟨batch, s₁, hret₁, hs, hf⟩ := handleEvents_returns hcall h.sound now
      obtain ⟨-, rfl⟩ := hret₁.unique hret
      refine ⟨hs, ?_⟩
      rw [added, List.filterMap_append]
      exact (List.Perm.of_eq (List.append_nil _)).trans (h.perm.trans hf.perm.symm)

theorem accounted (hcall : Answers call)
    (h : Runs (Under Op.fits (Op.prog call)) (init events mem x) ops s) : Accounted ops s := by
  induction h with
  | nil => exact init_accounted
  | concat _ hret ih =>
      obtain ⟨hfits, hret⟩ := returns_under.mp hret
      exact ih.step hcall hfits hret

/-- **The timers.**  After any calls, whatever the clock shows, no event is due
before the one in its parent slot, and what was added and not called back is
queued.  Each further call comes back: `add_timer`, while there is room, adds
its event, and `handle_events` calls back exactly what is due, in order. -/
theorem min_heap_timers (hcall : Answers call)
    (h : Runs (Under Op.fits (Op.prog call)) (init events mem x) ops s) :
    (∀ i, 0 < i → i < s.size → ∃ e u, s.mem.get (s.events ((i - 1) / 2)) = some e ∧
      s.mem.get (s.events i) = some u ∧ e.timeout ≤ u.timeout) ∧
    s.queue.length = s.size ∧ (added ops).Perm (s.calls ++ s.queue) ∧
    (s.size < 1024 → ∀ now timeout callback hint, ∃ s',
      Returns (addTimer now timeout callback hint) s () s' ∧
      s'.queue.Perm (s.queue ++ [⟨now + timeout, callback⟩]) ∧ s'.calls = s.calls) ∧
    ∀ now, ∃ batch s', Returns (handleEvents call now) s () s' ∧ Fires now s s' batch := by
  obtain ⟨hs, hperm⟩ := accounted hcall h
  have hlive : ∀ i < s.size, ∃ e, s.mem.get (s.events i) = some e := fun i hi =>
    hs.live _ (mem_entries.mpr ⟨i, hi, rfl⟩)
  refine ⟨fun i hpos hi => ?_, ?_, hperm, fun hcap now timeout callback hint => ?_, fun now => ?_⟩
  · obtain ⟨u, hu⟩ := hlive i hi
    obtain ⟨e, he⟩ := hlive (parent i) ((parent_lt hpos).trans hi)
    refine ⟨e, u, he, hu, ?_⟩
    rw [← timeout_of_get he, ← timeout_of_get hu]
    exact hs.order i hpos hi
  · have hlength : s.pointers.length = s.size := by
      rw [pointers, entries, List.length_map, List.length_range]
    refine (List.filterMap_length_eq_length.mpr fun p hp => ?_).trans hlength
    obtain ⟨e, he⟩ := hs.live p hp
    rw [he, Option.isSome_some]
  · obtain ⟨s', hret, -, hq, hcalls⟩ := addTimer_returns hs hcap now timeout callback hint
    exact ⟨s', hret, hq, hcalls⟩
  · obtain ⟨batch, s', hret, -, hf⟩ := handleEvents_returns hcall hs now
    exact ⟨batch, s', hret, hf⟩

/-- Of two events the second is due first. -/
theorem min_heap_timers_two :
    ∃ s : MinHeap Nat Unit, Runs (Under Op.fits (Op.prog fun _ => pure ()))
        (init (fun _ => 0) Table.empty ())
        [.addTimer 0 5 10 7, .addTimer 1 3 11 8, .handleEvents 4] s ∧
      s.calls = [⟨4, 11⟩] ∧ s.queue = [⟨5, 10⟩] ∧
      ∃ batch s', Returns (handleEvents (fun _ => pure ()) 9) s () s' ∧ Fires 9 s s' batch := by
  have hcall : Answers fun _ : Nat => (pure () : Prog Unit Unit) := fun _ x =>
    ⟨x, returns_pure.mpr ⟨rfl, rfl⟩⟩
  have hrun : Runs (Under Op.fits (Op.prog fun _ => pure ())) (init (fun _ => 0) Table.empty ())
      [.addTimer 0 5 10 7, .addTimer 1 3 11 8, .handleEvents 4] _ :=
    ((Runs.nil.concat (returns_under.mpr ⟨rfl, Returns.of_run 3 fun m => rfl⟩)).concat
      (returns_under.mpr ⟨rfl, Returns.of_run 3 fun m => rfl⟩)).concat
      (returns_under.mpr ⟨rfl, Returns.of_run 3 fun m => rfl⟩)
  exact ⟨_, hrun, rfl, rfl, (min_heap_timers hcall hrun).2.2.2.2 9⟩

end MinHeap

end DmfServer
