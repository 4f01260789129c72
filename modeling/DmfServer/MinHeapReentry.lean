/-
DmfServer/MinHeapReentry.lean

Call backs of `test/timer/timer.c` that add timers.

`handle_events` takes the first event off the heap before it calls back, and
frees it after, so a call back may call `add_timer`: a periodic timer adds
itself again.  Here a call back is a function of the environment it works on,
that answers the calls of `add_timer` it makes (`Script`).  The event that is
called back is allocated all the while and out of the heap, so that no new event
gets its address.

`min_heap_reentrant` is about every state that is reached so.  Nothing is lost
and nothing is called twice, also of what call backs have added.  If no call back
adds an event that is due already, a call of `handle_events` calls back exactly
what was due before, in order of time; it comes back iff the heap never holds more
than 1024 events, and writes behind the array otherwise.  But a call back that
adds itself again for at once keeps it from coming back at all.
-/
import DmfServer.MinHeap
import Mathlib.Data.List.Perm.Subperm

namespace DmfServer.MinHeap.Reentry

open Imperative Imperative.Prog HoleHeap

variable {κ ε : Type}

/-- A call of `add_timer`, the clock at `now`.  `hint` is the address malloc would
like to give. -/
structure Add (κ : Type) where
  now : Int
  timeout : Int
  callback : κ
  hint : Addr

/-- The event it adds. -/
def Add.event (a : Add κ) : Event κ := ⟨a.now + a.timeout, a.callback⟩

/-- What the call backs do: the calls of `add_timer` they make, and what they make
of the environment. -/
abbrev Script (κ ε : Type) : Type := κ → ε → List (Add κ) × ε

/-! ### The functions of `timer.c` -/

/-- The calls of `add_timer` of a call back. -/
def addAll : List (Add κ) → Prog (MinHeap κ ε) Unit
  | [] => pure ()
  | a :: as => do
      addTimer a.now a.timeout a.callback a.hint
      addAll as

/-- `event->callback()`. -/
def runCallback (script : Script κ ε) (c : κ) : Prog (MinHeap κ ε) Unit := do
  let x ← load env
  store (·.setEnv (script c x).2)
  addAll (script c x).1

/-- A turn of the loop of `handle_events`. -/
def handleEventsTurn (script : Script κ ε) (now : Int) :
    Unit → Prog (MinHeap κ ε) (Unit ⊕ Unit) := fun _ => do
  if 0 < (← load (·.size)) then
    if (← eventAt (← slot 0)).timeout ≤ now then
      let event ← top
      pop
      let e ← eventAt event
      store (·.logCall e)
      runCallback script e.callback
      free event
      pure (Sum.inl ())
    else pure (Sum.inr ())
  else pure (Sum.inr ())

/-- `handle_events`, the clock at `now`. -/
def handleEvents (script : Script κ ε) (now : Int) : Prog (MinHeap κ ε) Unit :=
  loop (handleEventsTurn script now) ()

/-- Call backs that add nothing are those of `DmfServer.MinHeap`. -/
theorem handleEvents_quiet (g : κ → ε → ε) (now : Int) :
    handleEvents (fun c x => ([], g c x)) now
      = MinHeap.handleEvents (fun c => store (g c)) now := rfl

/-- The events that the call backs of `batch` add, one call back after the other,
and the environment after them. -/
def replay (script : Script κ ε) : List (Event κ) → ε → List (Event κ) × ε
  | [], x => ([], x)
  | e :: es, x =>
      ((script e.callback x).1.map Add.event ++ (replay script es (script e.callback x).2).1,
        (replay script es (script e.callback x).2).2)

variable {script : Script κ ε} {s s' t : MinHeap κ ε} {p q : Addr} {e : Event κ} {now : Int}
variable {as : List (Add κ)} {batch out : List (Event κ)} {x : ε}

theorem replay_append (es : List (Event κ)) : replay script (batch ++ es) x =
    ((replay script batch x).1 ++ (replay script es (replay script batch x).2).1,
      (replay script es (replay script batch x).2).2) := by
  induction batch generalizing x with
  | nil => rfl
  | cons e batch ih =>
      rw [List.cons_append, replay, ih, replay, List.append_assoc]

theorem returns_slot {i : Nat} (hi : i < 1024) : Returns (slot i) s (s.events i) s := by
  rw [slot, if_pos hi]
  exact returns_load.mpr ⟨rfl, rfl⟩

theorem returns_eventAt (hp : s.mem.get p = some e) : Returns (eventAt p) s e s := by
  rw [eventAt, returns_load_bind, hp]
  exact returns_pure.mpr ⟨rfl, rfl⟩

/-! ### `add_timer` -/

/-- An address that is free is not queued. -/
theorem ne_of_free (h : s.Sound) (hfree : s.mem.get p = none) (hq : q ∈ s.pointers) : q ≠ p := by
  rintro rfl
  obtain ⟨u, hu⟩ := h.live _ hq
  rw [hfree] at hu
  cases hu

/-- `add_timer`, while there is room: the pointer is a new one. -/
theorem addTimer_adds (h : s.Sound) (hcap : s.size < 1024) (a : Add κ) :
    ∃ s' p, Returns (addTimer a.now a.timeout a.callback a.hint) s () s' ∧ s'.Sound ∧
      s.mem.get p = none ∧ s'.mem = s.mem.set p a.event ∧
      s'.pointers.Perm (s.pointers ++ [p]) ∧ s'.size = s.size + 1 ∧ s'.calls = s.calls ∧
      s'.env = s.env := by
  let p := s.mem.pick 0 a.hint
  let s₁ := s.setEvent p a.event
  have hfree : s.mem.get p = none := Table.get_pick
  have hnew : ∀ q ∈ s.pointers, q ≠ p := fun q hq => ne_of_free h hfree hq
  have hget : ∀ q ∈ s.pointers, s₁.mem.get q = s.mem.get q := fun q hq =>
    Table.get_set_of_ne (hnew q hq)
  have he : s₁.mem.get p = some a.event := Table.get_set_self
  have htime : ∀ q ∈ s.pointers, s₁.timeout q = s.timeout q := fun q hq => by
    rw [MinHeap.timeout, MinHeap.timeout, hget q hq]
  have hl₁ : s₁.Live s.pointers := fun q hq => by
    rw [hget q hq]
    exact h.live q hq
  obtain ⟨b, hret, hperm, ho⟩ := push_returns (s := s₁) hcap hl₁ (h.order.congr htime) he
  refine ⟨(s₁.setSize (s.size + 1)).setEvents b, p, ?_, ⟨Nat.succ_le_of_lt hcap, ?_, ?_, ho⟩,
    hfree, rfl, hperm, rfl, rfl, rfl⟩
  · rw [addTimer, returns_load_bind, returns_store_bind]
    exact hret
  · exact fun q hq => hl₁.concat he q (hperm.mem_iff.mp hq)
  · refine hperm.nodup_iff.mpr (List.nodup_append.mpr ⟨h.nodup, List.nodup_singleton p, ?_⟩)
    intro q hq r hr
    rw [List.mem_singleton.mp hr]
    exact hnew q hq

/-- The new event is queued. -/
theorem queue_adds (h : s.Sound) (hfree : s.mem.get p = none) (hmem : s'.mem = s.mem.set p e)
    (hperm : s'.pointers.Perm (s.pointers ++ [p])) : s'.queue.Perm (s.queue ++ [e]) := by
  have hself : s'.mem.get p = some e := by rw [hmem, Table.get_set_self]
  have hget : ∀ r ∈ s.pointers, s'.mem.get r = s.mem.get r := fun r hr => by
    rw [hmem, Table.get_set_of_ne (ne_of_free h hfree hr)]
  refine (hperm.filterMap s'.mem.get).trans (List.Perm.of_eq ?_)
  rw [List.filterMap_append, List.filterMap_cons_some hself, List.filterMap_nil]
  exact congrArg (· ++ [e]) (List.filterMap_congr hget)

theorem faults_setSlot {i : Nat} (hi : 1024 ≤ i) :
    Faults (setSlot i p : Prog (MinHeap κ ε) Unit) s := by
  rw [setSlot, if_neg (Nat.not_lt.mpr hi)]
  exact faults_fault

/-- `min_heap_push` behind the last slot: the first turn compares with the parent
in the array, and whatever the outcome the slot is written next. -/
theorem pushLoop_faults {u : Event κ} (hu : s.mem.get (s.events (parent 1024)) = some u)
    (he : s.mem.get p = some e) : Faults (loop (pushTurn p) 1024 >>= fun i => setSlot i p) s := by
  have hslot : parent 1024 < 1024 := by decide
  by_cases hle : u.timeout ≤ e.timeout
  · have hturn : Returns (pushTurn p 1024) s (Sum.inr 1024) s := by
      rw [pushTurn, if_pos (by decide)]
      show Returns (slot (parent 1024) >>= _) _ _ _
      rw [returns_slot_bind hslot, returns_eventAt_bind hu, returns_eventAt_bind he, if_pos hle]
      exact returns_pure.mpr ⟨rfl, rfl⟩
    exact hturn.loop_exit.faults_bind (faults_setSlot (Nat.le_refl 1024))
  · refine Faults.bind (Faults.loop ?_)
    rw [pushTurn, if_pos (by decide)]
    refine (returns_slot hslot).faults_bind ?_
    refine (returns_eventAt hu).faults_bind ?_
    refine (returns_eventAt he).faults_bind ?_
    rw [if_neg hle]
    exact (returns_slot hslot).faults_bind (Faults.bind (faults_setSlot (Nat.le_refl 1024)))

/-- A full heap: the new pointer is written behind the array. -/
theorem addTimer_faults (h : s.Sound) (hfull : s.size = 1024) (a : Add κ) :
    Faults (addTimer a.now a.timeout a.callback a.hint) s := by
  let p := s.mem.pick 0 a.hint
  let s₁ := (s.setEvent p a.event).setSize 1025
  have he : s₁.mem.get p = some a.event := Table.get_set_self
  have hparent : s.events (parent 1024) ∈ s.pointers :=
    mem_entries.mpr ⟨parent 1024, by rw [hfull]; decide, rfl⟩
  have hne : s.events (parent 1024) ≠ p := ne_of_free h Table.get_pick hparent
  obtain ⟨u, hu⟩ := h.live _ hparent
  have hu₁ : s₁.mem.get (s₁.events (parent 1024)) = some u := (Table.get_set_of_ne hne).trans hu
  have hpush : Faults (push p) (s.setEvent p a.event) := by
    have hsize : (s.setEvent p a.event).size = 1024 := hfull
    rw [push, faults_load_bind, hsize, faults_store_bind]
    exact pushLoop_faults hu₁ he
  rw [addTimer, faults_load_bind, faults_store_bind]
  exact hpush

/-! ### A call back -/

/-- The calls of `add_timer` of a call back, while there is room.  The event at `q`,
which is off the heap, stays as it is. -/
theorem addAll_returns (h : s.Sound) (hroom : s.size + as.length ≤ 1024)
    (hq : s.mem.get q = some e) (hout : q ∉ s.pointers) :
    ∃ s', Returns (addAll as) s () s' ∧ s'.Sound ∧ s'.mem.get q = some e ∧ q ∉ s'.pointers ∧
      s'.queue.Perm (s.queue ++ as.map Add.event) ∧ s'.size = s.size + as.length ∧
      s'.calls = s.calls ∧ s'.env = s.env := by
  induction as generalizing s with
  | nil =>
      refine ⟨s, returns_pure.mpr ⟨rfl, rfl⟩, h, hq, hout, ?_, rfl, rfl, rfl⟩
      rw [List.map_nil, List.append_nil]
  | cons a as ih =>
      rw [List.length_cons] at hroom
      obtain ⟨s₁, p, hret, h₁, hfree, hmem, hperm, hsize, hcalls, henv⟩ :=
        addTimer_adds h (by omega) a
      -- the event that is called back is still allocated, so its address is not the new one
      have hne : q ≠ p := by
        rintro rfl
        rw [hfree] at hq
        cases hq
      have hq₁ : s₁.mem.get q = some e := by
        rw [hmem, Table.get_set_of_ne hne]
        exact hq
      have hout₁ : q ∉ s₁.pointers := fun hm => by
        rcases List.mem_append.mp (hperm.mem_iff.mp hm) with hm | hm
        · exact hout hm
        · exact hne (List.mem_singleton.mp hm)
      have hqueue := queue_adds h hfree hmem hperm
      obtain ⟨s', hret', h', hq', hout', hqueue', hsize', hcalls', henv'⟩ :=
        ih h₁ (by omega) hq₁ hout₁
      refine ⟨s', hret.bind hret', h', hq', hout', ?_, ?_, hcalls'.trans hcalls,
        henv'.trans henv⟩
      · refine hqueue'.trans ((hqueue.append_right _).trans (List.Perm.of_eq ?_))
        rw [List.map_cons, List.append_assoc, List.singleton_append]
      · rw [hsize', hsize, List.length_cons]
        omega

/-- The first call that finds the heap full faults. -/
theorem addAll_faults (h : s.Sound) (hroom : 1024 < s.size + as.length) :
    Faults (addAll as) s := by
  induction as generalizing s with
  | nil =>
      have := h.bound
      rw [List.length_nil] at hroom
      omega
  | cons a as ih =>
      rw [List.length_cons] at hroom
      have hbound := h.bound
      rcases Nat.lt_or_ge s.size 1024 with hcap | hcap
      · obtain ⟨s₁, p, hret, h₁, -, -, -, hsize, -, -⟩ := addTimer_adds h hcap a
        exact hret.faults_bind (ih h₁ (by omega))
      · exact Faults.bind (addTimer_faults h (by omega) a)

/-! ### A turn of `handle_events` -/

/-- The state in which a call back makes its calls of `add_timer`: its event is off
the heap, but allocated. -/
structure Calling (s : MinHeap κ ε) (e : Event κ) (x : ε) (s₁ : MinHeap κ ε) : Prop where
  sound : s₁.Sound
  event : s₁.mem.get (s.events 0) = some e
  out : s.events 0 ∉ s₁.pointers
  perm : (e :: s₁.queue).Perm s.queue
  size : s.size = s₁.size + 1
  calls : s₁.calls = s.calls ++ [e]
  env : s₁.env = x

/-- An event that is due is taken off, and its call back is left with its calls of
`add_timer`. -/
theorem handleEventsTurn_calls (h : s.Sound) (hpos : 0 < s.size)
    (he : s.mem.get (s.events 0) = some e) (hdue : e.timeout ≤ now) (script : Script κ ε) :
    ∃ s₁, Calling s e (script e.callback s.env).2 s₁ ∧
      (Faults (addAll (script e.callback s.env).1) s₁ → Faults (handleEventsTurn script now ()) s) ∧
      ∀ s₂ u, Returns (addAll (script e.callback s.env).1) s₁ () s₂ →
        s₂.mem.get (s.events 0) = some u →
        Returns (handleEventsTurn script now ()) s (Sum.inl ()) (s₂.freeEvent (s.events 0)) := by
  obtain ⟨n, hn⟩ : ∃ n, s.size = n + 1 := ⟨s.size - 1, by omega⟩
  obtain ⟨b, hpop, hperm, ho⟩ := pop_returns h.bound hn h.live h.order
  -- behind the pop, and behind what the call back does to the environment
  let s₀ := (s.setSize n).setEvents b
  let s₁ := (s₀.logCall e).setEnv (script e.callback s.env).2
  obtain ⟨hfresh, hnodup⟩ := List.nodup_cons.mp (hperm.nodup_iff.mpr h.nodup)
  have he₀ : s₀.mem.get (s.events 0) = some e := he
  have hcalling : Calling s e (script e.callback s.env).2 s₁ := by
    refine ⟨⟨?_, fun q hq => ?_, hnodup, ho⟩, he, hfresh, ?_, hn, rfl, rfl⟩
    · show n ≤ 1024
      have := h.bound
      omega
    · exact h.live q (hperm.mem_iff.mp (List.mem_cons_of_mem _ hq))
    · have hcons := hperm.filterMap s.mem.get
      rwa [List.filterMap_cons_some he] at hcons
  refine ⟨s₁, hcalling, fun hfault => ?_, fun s₂ u hret hu => ?_⟩
  · have hcall : Faults (runCallback script e.callback) (s₀.logCall e) := by
      rw [runCallback, faults_load_bind, faults_store_bind]
      exact hfault
    rw [handleEventsTurn, faults_load_bind, if_pos hpos]
    refine (returns_slot (by decide)).faults_bind ((returns_eventAt he).faults_bind ?_)
    rw [if_pos hdue]
    refine (returns_slot (by decide)).faults_bind (hpop.faults_bind ?_)
    refine (returns_eventAt he₀).faults_bind ?_
    rw [faults_store_bind]
    exact Faults.bind hcall
  · have hcall : Returns (runCallback script e.callback) (s₀.logCall e) () s₂ := by
      rw [runCallback, returns_load_bind, returns_store_bind]
      exact hret
    rw [handleEventsTurn, returns_load_bind, if_pos hpos, returns_slot_bind (by decide),
      returns_eventAt_bind he, if_pos hdue, top, returns_slot_bind (by decide)]
    refine hpop.bind ?_
    rw [returns_eventAt_bind he₀, returns_store_bind, returns_bind_iff hcall,
      returns_free_bind hu, returns_pure]
    exact ⟨rfl, rfl⟩

/-- An event that is not in the heap is freed. -/
theorem sound_freeEvent (h : s.Sound) (hout : q ∉ s.pointers) :
    (s.freeEvent q).Sound ∧ (s.freeEvent q).queue = s.queue := by
  have hget : ∀ r ∈ s.pointers, (s.freeEvent q).mem.get r = s.mem.get r := fun r hr =>
    Table.get_erase_of_ne (ne_of_mem_of_not_mem hr hout)
  have htime : ∀ r ∈ s.pointers, (s.freeEvent q).timeout r = s.timeout r := fun r hr => by
    rw [MinHeap.timeout, MinHeap.timeout, hget r hr]
  refine ⟨⟨h.bound, fun r hr => ?_, h.nodup, h.order.congr htime⟩, List.filterMap_congr hget⟩
  rw [hget r hr]
  exact h.live r hr

/-- A turn that calls back, while there is room for what the call back adds. -/
theorem handleEventsTurn_returns (h : s.Sound) (hpos : 0 < s.size)
    (he : s.mem.get (s.events 0) = some e) (hdue : e.timeout ≤ now)
    (hroom : s.size + (script e.callback s.env).1.length ≤ 1025) :
    ∃ s', Returns (handleEventsTurn script now ()) s (Sum.inl ()) s' ∧ s'.Sound ∧
      (e :: s'.queue).Perm (s.queue ++ (script e.callback s.env).1.map Add.event) ∧
      s'.size + 1 = s.size + (script e.callback s.env).1.length ∧
      s'.calls = s.calls ++ [e] ∧ s'.env = (script e.callback s.env).2 := by
  obtain ⟨s₁, hc, -, hturn⟩ := handleEventsTurn_calls h hpos he hdue script
  have hsize := hc.size
  have hfits : s₁.size + (script e.callback s.env).1.length ≤ 1024 := by omega
  obtain ⟨s₂, hret, h₂, hq₂, hout₂, hqueue, hsize₂, hcalls, henv⟩ :=
    addAll_returns hc.sound hfits hc.event hc.out
  obtain ⟨hsound, hsame⟩ := sound_freeEvent h₂ hout₂
  refine ⟨_, hturn s₂ e hret hq₂, hsound, ?_, ?_, hcalls.trans hc.calls, henv.trans hc.env⟩
  · rw [hsame]
    refine (hqueue.cons e).trans ?_
    rw [← List.cons_append]
    exact hc.perm.append_right _
  · show s₂.size + 1 = _
    omega

/-- A turn that calls back, where there is no room. -/
theorem handleEventsTurn_faults (h : s.Sound) (hpos : 0 < s.size)
    (he : s.mem.get (s.events 0) = some e) (hdue : e.timeout ≤ now)
    (hroom : 1025 < s.size + (script e.callback s.env).1.length) :
    Faults (handleEventsTurn script now ()) s := by
  obtain ⟨s₁, hc, hfault, -⟩ := handleEventsTurn_calls h hpos he hdue script
  have hsize := hc.size
  exact hfault (addAll_faults hc.sound (by omega))

/-- `e` was called back, and its call back has added its events. -/
structure Called (script : Script κ ε) (s : MinHeap κ ε) (e : Event κ) (s' : MinHeap κ ε) :
    Prop where
  perm : (e :: s'.queue).Perm (s.queue ++ (script e.callback s.env).1.map Add.event)
  size : s'.size + 1 = s.size + (script e.callback s.env).1.length
  calls : s'.calls = s.calls ++ [e]
  env : s'.env = (script e.callback s.env).2

/-- What a turn does: it ends the loop, calls back the first event, or faults. -/
theorem handleEventsTurn_cases (h : s.Sound) (script : Script κ ε) (now : Int) :
    ((∀ u ∈ s.queue, now < u.timeout) ∧ Returns (handleEventsTurn script now ()) s (Sum.inr ()) s) ∨
    ∃ e ∈ s.queue, e.timeout ≤ now ∧ (∀ u ∈ s.queue, e.timeout ≤ u.timeout) ∧
      ((s.size + (script e.callback s.env).1.length ≤ 1025 ∧ ∃ s', s'.Sound ∧ Called script s e s' ∧
          Returns (handleEventsTurn script now ()) s (Sum.inl ()) s') ∨
        1025 < s.size + (script e.callback s.env).1.length ∧
          Faults (handleEventsTurn script now ()) s) := by
  rcases Nat.eq_zero_or_pos s.size with hz | hpos
  · -- nothing is queued
    refine .inl ⟨fun u hu => ?_, ?_⟩
    · rw [queue, pointers, hz] at hu
      exact absurd hu List.not_mem_nil
    · rw [handleEventsTurn, returns_load_bind, hz, if_neg (Nat.lt_irrefl 0), returns_pure]
      exact ⟨rfl, rfl⟩
  have hfirst : s.events 0 ∈ s.pointers := mem_entries.mpr ⟨0, hpos, rfl⟩
  obtain ⟨e, he⟩ := h.live _ hfirst
  by_cases hdue : e.timeout ≤ now
  · refine .inr ⟨e, List.mem_filterMap.mpr ⟨_, hfirst, he⟩, hdue, fun u hu => h.first_le he hu, ?_⟩
    rcases Nat.lt_or_ge 1025 (s.size + (script e.callback s.env).1.length) with hover | hroom
    · exact .inr ⟨hover, handleEventsTurn_faults h hpos he hdue hover⟩
    · obtain ⟨s', hret, h', hperm, hsize, hcalls, henv⟩ :=
        handleEventsTurn_returns h hpos he hdue hroom
      exact .inl ⟨hroom, s', h', ⟨hperm, hsize, hcalls, henv⟩, hret⟩
  · -- the first event is not due, so none is
    refine .inl ⟨fun u hu => (lt_of_not_ge hdue).trans_le (h.first_le he hu), ?_⟩
    rw [handleEventsTurn, returns_load_bind, if_pos hpos, returns_slot_bind (by decide),
      returns_eventAt_bind he, if_neg hdue, returns_pure]
    exact ⟨rfl, rfl⟩

/-! ### What is accounted for -/

/-- The heap is sound, the environment is that of the call backs, and what was
added, by the program in `out` or by a call back, was called back or is queued. -/
structure Ledger (script : Script κ ε) (x : ε) (out : List (Event κ)) (s : MinHeap κ ε) :
    Prop where
  sound : s.Sound
  env : s.env = (replay script s.calls x).2
  perm : (out ++ (replay script s.calls x).1).Perm (s.calls ++ s.queue)

theorem Ledger.called (h : Ledger script x out s) (h' : s'.Sound) (hc : Called script s e s') :
    Ledger script x out s' := by
  have hreplay : replay script s'.calls x =
      ((replay script s.calls x).1 ++ (script e.callback s.env).1.map Add.event,
        (script e.callback s.env).2) := by
    rw [hc.calls, replay_append, ← h.env, replay, replay, List.append_nil]
  refine ⟨h', ?_, ?_⟩
  · rw [hreplay]
    exact hc.env
  · rw [hreplay, hc.calls, List.append_assoc, List.singleton_append, ← List.append_assoc]
    refine (h.perm.append_right _).trans ?_
    rw [List.append_assoc]
    exact hc.perm.symm.append_left _

/-! ### Runs -/

section lasting

variable {i : Nat}

instance : Lasting (slot i : Prog (MinHeap κ ε) Addr) := by
  unfold slot
  infer_instance

instance : Lasting (setSlot i p : Prog (MinHeap κ ε) Unit) := by
  unfold setSlot
  infer_instance

instance : Lasting (eventAt p : Prog (MinHeap κ ε) (Event κ)) := by
  unfold eventAt
  infer_instance

instance : Lasting (free p : Prog (MinHeap κ ε) Unit) := by
  unfold free
  infer_instance

instance : Lasting (top : Prog (MinHeap κ ε) Addr) := by
  unfold top
  infer_instance

instance : Lasting (child i : Prog (MinHeap κ ε) Nat) := by
  unfold child
  infer_instance

instance : Lasting (pushTurn p i : Prog (MinHeap κ ε) (Nat ⊕ Nat)) := by
  unfold pushTurn
  infer_instance

instance : Lasting (popTurn p i : Prog (MinHeap κ ε) (Nat ⊕ Nat)) := by
  unfold popTurn
  infer_instance

instance : Lasting (push p : Prog (MinHeap κ ε) Unit) := by
  unfold push
  infer_instance

instance : Lasting (pop : Prog (MinHeap κ ε) Unit) := by
  unfold pop
  refine Lasting.seq inferInstance fun n => ?_
  cases n <;> infer_instance

instance {a : Add κ} :
    Lasting (addTimer a.now a.timeout a.callback a.hint : Prog (MinHeap κ ε) Unit) := by
  unfold addTimer
  infer_instance

instance : Lasting (addAll as : Prog (MinHeap κ ε) Unit) := by
  induction as with
  | nil => exact inferInstanceAs (Lasting (pure ()))
  | cons a as ih => exact Lasting.bind

instance {c : κ} : Lasting (runCallback script c) := by
  unfold runCallback
  infer_instance

instance : Lasting (handleEventsTurn script now ()) := by
  unfold handleEventsTurn
  refine Lasting.seq inferInstance fun n => ?_
  split_ifs
  · refine Lasting.seq inferInstance fun q => Lasting.seq inferInstance fun e => ?_
    split_ifs <;> infer_instance
  · infer_instance

end lasting

/-- An invariant of the turns that call back holds when `handle_events` returns,
and nothing is due then. -/
theorem handleEvents_keeps (Inv : MinHeap κ ε → Prop) (hsound : ∀ t, Inv t → t.Sound)
    (hstep : ∀ t t' e, Inv t → e ∈ t.queue → e.timeout ≤ now → t'.Sound → Called script t e t' →
      Inv t')
    (h : Inv s) (hret : Returns (handleEvents script now) s () s') :
    Inv s' ∧ ∀ u ∈ s'.queue, now < u.timeout := by
  refine Partially.of_returns (Q := fun _ t => Inv t ∧ ∀ u ∈ t.queue, now < u.timeout) ?_ hret
  refine Partially.loop (fun _ t => Inv t) (fun _ t ht => ?_) h
  rcases handleEventsTurn_cases (hsound t ht) script now with ⟨hrest, hstop⟩ | ⟨e, he, hdue, -, hc⟩
  · exact hstop.partially ⟨ht, hrest⟩
  · rcases hc with ⟨-, t', ht', hcalled, hturn⟩ | ⟨-, hfault⟩
    · exact hturn.partially (hstep t t' e ht he hdue ht' hcalled)
    · exact hfault.partially

/-- The function called. -/
def perform (script : Script κ ε) : Op κ → Prog (MinHeap κ ε) Unit
  | .addTimer now timeout callback hint => addTimer now timeout callback hint
  | .handleEvents now => handleEvents script now

variable {ops : List (Op κ)} {events : Nat → Addr} {mem : Table (Event κ)}

theorem Ledger.perform {op : Op κ} (h : Ledger script x (added ops) s)
    (hret : Returns (perform script op) s () s') : Ledger script x (added (ops ++ [op])) s' := by
  cases op with
  | addTimer now timeout callback hint =>
      let a : Add κ := ⟨now, timeout, callback, hint⟩
      rcases Nat.lt_or_ge s.size 1024 with hcap | hcap
      · obtain ⟨s₁, p, hret₁, h₁, hfree, hmem, hperm, -, hcalls, henv⟩ :=
          addTimer_adds h.sound hcap a
        obtain ⟨-, rfl⟩ := hret₁.unique hret
        have hqueue := queue_adds h.sound hfree hmem hperm
        refine ⟨h₁, ?_, ?_⟩
        · rw [henv, hcalls]
          exact h.env
        · rw [added, List.filterMap_append, hcalls, List.append_assoc]
          refine (List.perm_append_comm.append_left _).trans ?_
          rw [← List.append_assoc]
          refine (h.perm.append_right _).trans ?_
          rw [List.append_assoc]
          exact hqueue.symm.append_left _
      · -- the call does not return
        have hfull : s.size = 1024 := Nat.le_antisymm h.sound.bound hcap
        exact absurd hret (addTimer_faults h.sound hfull a).not_returns
  | handleEvents now =>
      rw [added, List.filterMap_append, List.filterMap_cons_none rfl, List.filterMap_nil,
        List.append_nil]
      exact (handleEvents_keeps (fun t => Ledger script x (added ops) t) (fun _ ht => ht.sound)
        (fun _ _ _ ht _ _ ht' hc => ht.called ht' hc) h hret).1

theorem ledger (h : Runs (perform script) (init events mem x) ops s) :
    Ledger script x (added ops) s := by
  induction h with
  | nil => exact ⟨init_accounted.sound, rfl, .refl _⟩
  | concat _ hret ih => exact ih.perform hret

/-! ### A batch -/

/-- No call back of what is due adds an event that is due, whatever was called
back before it. -/
def Deferring (script : Script κ ε) (now : Int) (s : MinHeap κ ε) : Prop :=
  ∀ es : List (Event κ), es.Subperm (s.queue.filter (·.timeout ≤ now)) →
    ∀ u ∈ (replay script es s.env).1, now < u.timeout

/-- The heap never holds more than 1024 events while `batch` is called back. -/
def Room (script : Script κ ε) (s : MinHeap κ ε) (batch : List (Event κ)) : Prop :=
  ∀ k ≤ batch.length, s.size + (replay script (batch.take k) s.env).1.length ≤ 1024 + k

/-- `batch` was called back, and what was not due is kept, with what the call backs
have added. -/
structure Served (script : Script κ ε) (now : Int) (s s' : MinHeap κ ε)
    (batch : List (Event κ)) : Prop where
  calls : s'.calls = s.calls ++ batch
  env : s'.env = (replay script batch s.env).2
  queue : s'.queue.Perm (s.queue.filter (now < ·.timeout) ++ (replay script batch s.env).1)

/-- `handle_events` calls back `batch`, if there is room. -/
structure Serves (script : Script κ ε) (now : Int) (s : MinHeap κ ε) (batch : List (Event κ)) :
    Prop where
  due : batch.Perm (s.queue.filter (·.timeout ≤ now))
  inOrder : batch.Pairwise (·.timeout ≤ ·.timeout)
  returns : Room script s batch →
    ∃ s', Returns (handleEvents script now) s () s' ∧ Served script now s s' batch
  faults : ¬ Room script s batch → Faults (handleEvents script now) s

theorem Deferring.head (h : Deferring script now s) (he : e ∈ s.queue) (hdue : e.timeout ≤ now) :
    ∀ u ∈ (script e.callback s.env).1.map Add.event, now < u.timeout := by
  have hmem : e ∈ s.queue.filter (·.timeout ≤ now) :=
    List.mem_filter.mpr ⟨he, decide_eq_true hdue⟩
  have hone := h [e] (List.singleton_subperm_iff.mpr hmem)
  rwa [replay, replay, List.append_nil] at hone

/-- What is due is called back, or due still. -/
theorem Called.due (hc : Called script s e s') (hdue : e.timeout ≤ now)
    (hnew : ∀ u ∈ (script e.callback s.env).1.map Add.event, now < u.timeout) :
    (e :: s'.queue.filter (·.timeout ≤ now)).Perm (s.queue.filter (·.timeout ≤ now)) := by
  have hp := hc.perm.filter (·.timeout ≤ now)
  have hnone : ((script e.callback s.env).1.map Add.event).filter (·.timeout ≤ now) = [] :=
    List.filter_eq_nil_iff.mpr fun u hu => by simpa using hnew u hu
  have hcons : (e :: s'.queue).filter (·.timeout ≤ now) = e :: s'.queue.filter (·.timeout ≤ now) :=
    List.filter_cons_of_pos (decide_eq_true hdue)
  rwa [List.filter_append, hnone, List.append_nil, hcons] at hp

theorem Called.later (hc : Called script s e s') (hdue : e.timeout ≤ now)
    (hnew : ∀ u ∈ (script e.callback s.env).1.map Add.event, now < u.timeout) :
    (s'.queue.filter (now < ·.timeout)).Perm
      (s.queue.filter (now < ·.timeout) ++ (script e.callback s.env).1.map Add.event) := by
  have hp := hc.perm.filter (now < ·.timeout)
  have hall : ((script e.callback s.env).1.map Add.event).filter (now < ·.timeout)
      = (script e.callback s.env).1.map Add.event :=
    List.filter_eq_self.mpr fun u hu => decide_eq_true (hnew u hu)
  have hcons : (e :: s'.queue).filter (now < ·.timeout) = s'.queue.filter (now < ·.timeout) :=
    List.filter_cons_of_neg (by simpa using hdue)
  rwa [List.filter_append, hall, hcons] at hp

theorem Deferring.called (h : Deferring script now s) (he : e ∈ s.queue) (hdue : e.timeout ≤ now)
    (hc : Called script s e s') : Deferring script now s' := by
  intro es hes u hu
  refine h (e :: es) ?_ u ?_
  · exact ((List.subperm_cons e).mpr hes).trans (hc.due hdue (h.head he hdue)).subperm
  · rw [replay, ← hc.env]
    exact List.mem_append_right _ hu

theorem room_cons (h : s.Sound) (hc : Called script s e s') :
    Room script s (e :: batch) ↔ Room script s' batch := by
  have hsize := hc.size
  constructor
  · intro hroom k hk
    have hstep := hroom (k + 1) (Nat.succ_le_succ hk)
    rw [List.take_succ_cons, replay, ← hc.env, List.length_append, List.length_map] at hstep
    omega
  · intro hroom k hk
    cases k with
    | zero =>
        show s.size + 0 ≤ 1024 + 0
        have := h.bound
        omega
    | succ k =>
        have hstep := hroom k (Nat.le_of_succ_le_succ hk)
        rw [List.take_succ_cons, replay, ← hc.env, List.length_append, List.length_map]
        omega

/-- Nothing is due. -/
theorem serves_nil (h : s.Sound) (hrest : ∀ u ∈ s.queue, now < u.timeout)
    (hstop : Returns (handleEventsTurn script now ()) s (Sum.inr ()) s) :
    Serves script now s [] := by
  have hnone : s.queue.filter (·.timeout ≤ now) = [] :=
    List.filter_eq_nil_iff.mpr fun u hu => by simpa using hrest u hu
  have hall : s.queue.filter (now < ·.timeout) = s.queue :=
    List.filter_eq_self.mpr fun u hu => decide_eq_true (hrest u hu)
  refine ⟨hnone ▸ .nil, .nil, fun _ => ⟨s, hstop.loop_exit, ?_, rfl, ?_⟩, fun hroom => ?_⟩
  · rw [List.append_nil]
  · rw [hall, replay, List.append_nil]
  · refine absurd (fun k hk => ?_) hroom
    obtain rfl := Nat.le_zero.mp hk
    exact h.bound

/-- The first event is called back, and then a batch. -/
theorem Serves.cons (h : s.Sound) (hd : Deferring script now s) (he : e ∈ s.queue)
    (hdue : e.timeout ≤ now) (hfirst : ∀ u ∈ s.queue, e.timeout ≤ u.timeout)
    (hc : Called script s e s') (hturn : Returns (handleEventsTurn script now ()) s (Sum.inl ()) s')
    (hs : Serves script now s' batch) : Serves script now s (e :: batch) := by
  have hnew := hd.head he hdue
  have hperm := (hs.due.cons e).trans (hc.due hdue hnew)
  refine ⟨hperm, List.pairwise_cons.mpr ⟨fun u hu => ?_, hs.inOrder⟩, fun hroom => ?_,
    fun hroom => ?_⟩
  · exact hfirst u (List.mem_filter.mp (hperm.mem_iff.mp (List.mem_cons_of_mem e hu))).1
  · obtain ⟨t, hret, hserved⟩ := hs.returns ((room_cons h hc).mp hroom)
    refine ⟨t, hturn.loop_next hret, ?_, ?_, ?_⟩
    · rw [hserved.calls, hc.calls, List.append_assoc, List.singleton_append]
    · rw [hserved.env, hc.env, replay]
    · rw [replay, ← hc.env, ← List.append_assoc]
      exact hserved.queue.trans ((hc.later hdue hnew).append_right _)
  · exact hturn.faults_loop (hs.faults fun hroom' => hroom ((room_cons h hc).mpr hroom'))

/-- The first call back has no room. -/
theorem serves_overflow (he : e ∈ s.queue) (hdue : e.timeout ≤ now)
    (hfirst : ∀ u ∈ s.queue, e.timeout ≤ u.timeout)
    (hover : 1025 < s.size + (script e.callback s.env).1.length)
    (hfault : Faults (handleEventsTurn script now ()) s) : ∃ batch, Serves script now s batch := by
  have hmem : e ∈ s.queue.filter (·.timeout ≤ now) :=
    List.mem_filter.mpr ⟨he, decide_eq_true hdue⟩
  obtain ⟨l, r, hlr⟩ := List.append_of_mem hmem
  let rest := (l ++ r).mergeSort fun u v => u.timeout ≤ v.timeout
  have hperm : (e :: rest).Perm (s.queue.filter (·.timeout ≤ now)) := by
    rw [hlr]
    exact ((List.mergeSort_perm _ _).cons e).trans List.perm_middle.symm
  have hsorted : rest.Pairwise (·.timeout ≤ ·.timeout) := by
    refine (List.pairwise_mergeSort (fun u v w => ?_) (fun u v => ?_) _).imp of_decide_eq_true
    · simpa using le_trans
    · simpa using le_total u.timeout v.timeout
  refine ⟨e :: rest, hperm, List.pairwise_cons.mpr ⟨fun u hu => ?_, hsorted⟩, fun hroom => ?_,
    fun _ => hfault.loop⟩
  · exact hfirst u (List.mem_filter.mp (hperm.mem_iff.mp (List.mem_cons_of_mem e hu))).1
  · -- behind the first event, where it is not met
    have hone := hroom 1 (Nat.succ_le_succ (Nat.zero_le _))
    rw [List.take_succ_cons, List.take_zero, replay, replay, List.append_nil, List.length_map]
      at hone
    omega

/-- By induction on the number of the events that are due. -/
theorem handleEvents_serves (h : s.Sound) (hd : Deferring script now s) :
    ∃ batch, Serves script now s batch := by
  induction hn : (s.queue.filter (·.timeout ≤ now)).length using Nat.strong_induction_on
    generalizing s with
  | _ n ih =>
      rcases handleEventsTurn_cases h script now with ⟨hrest, hstop⟩ | ⟨e, he, hdue, hfirst, hc⟩
      · exact ⟨[], serves_nil h hrest hstop⟩
      · rcases hc with ⟨-, s', h', hcalled, hturn⟩ | ⟨hover, hfault⟩
        · have hlt : (s'.queue.filter (·.timeout ≤ now)).length < n := by
            have hlen := (hcalled.due hdue (hd.head he hdue)).length_eq
            rw [List.length_cons] at hlen
            omega
          obtain ⟨batch, hs⟩ := ih _ hlt h' (hd.called he hdue hcalled) rfl
          exact ⟨e :: batch, hs.cons h hd he hdue hfirst hcalled hturn⟩
        · exact serves_overflow he hdue hfirst hover hfault

/-- The call back adds itself again, due at once. -/
def Rearming (script : Script κ ε) (now : Int) (c : κ) : Prop :=
  ∀ x, ∃ a ∈ (script c x).1, a.callback = c ∧ a.now + a.timeout ≤ now

/-- An event whose call back adds itself again is queued still. -/
theorem Called.rearmed {c : κ} (hc : Called script s e s') (harm : Rearming script now c)
    (he : ∃ u ∈ s.queue, u.timeout ≤ now ∧ u.callback = c) :
    ∃ u ∈ s'.queue, u.timeout ≤ now ∧ u.callback = c := by
  obtain ⟨u, hu, hdue, hcall⟩ := he
  have hmem : u ∈ e :: s'.queue := hc.perm.mem_iff.mpr (List.mem_append_left _ hu)
  rcases List.mem_cons.mp hmem with rfl | hmem
  · -- it is the one that was called back: its successor is another entry of the queue
    obtain ⟨a, ha, hac, hat⟩ := harm s.env
    obtain ⟨l, r, hlr⟩ := List.append_of_mem hu
    have hperm : s'.queue.Perm (l ++ r ++ (script u.callback s.env).1.map Add.event) := by
      refine (hc.perm.trans ?_).cons_inv
      rw [hlr, ← List.cons_append]
      exact List.perm_middle.append_right _
    rw [hcall] at hperm
    refine ⟨a.event, hperm.mem_iff.mpr (List.mem_append_right _ ?_), hat, hac⟩
    exact List.mem_map_of_mem ha
  · exact ⟨u, hmem, hdue, hcall⟩

/-- Nothing is due when `handle_events` comes back, but such an event is due for ever. -/
theorem handleEvents_spins {c : κ} (h : s.Sound) (harm : Rearming script now c)
    (he : ∃ u ∈ s.queue, u.timeout ≤ now ∧ u.callback = c) :
    ¬ Returns (handleEvents script now) s () s' := by
  intro hret
  obtain ⟨⟨-, u, hu, hdue, -⟩, hrest⟩ := handleEvents_keeps
    (fun t => t.Sound ∧ ∃ u ∈ t.queue, u.timeout ≤ now ∧ u.callback = c) (fun _ ht => ht.1)
    (fun _ _ _ ht _ _ ht' hc => ⟨ht', hc.rearmed harm ht.2⟩) ⟨h, he⟩ hret
  exact absurd hdue (not_le_of_gt (hrest u hu))

theorem Sound.queue_length (h : s.Sound) : s.queue.length = s.size := by
  have hlength : s.pointers.length = s.size := by
    rw [pointers, entries, List.length_map, List.length_range]
  refine (List.filterMap_length_eq_length.mpr fun p hp => ?_).trans hlength
  obtain ⟨e, he⟩ := h.live p hp
  rw [he, Option.isSome_some]

/-- **Call backs that add timers.**  After any calls that have come back, what was
added and not called back is queued, and the environment is that of the call
backs in their order.  On a full heap `add_timer` writes behind the array.  If no
call back of what is due adds an event that is due, `handle_events` calls back
exactly what is due, in order, and comes back iff the heap never holds more than
1024 events.  If a call back that is due adds itself again for at once, it does
not come back. -/
theorem min_heap_reentrant (h : Runs (perform script) (init events mem x) ops s) :
    s.queue.length = s.size ∧ s.env = (replay script s.calls x).2 ∧
    (added ops ++ (replay script s.calls x).1).Perm (s.calls ++ s.queue) ∧
    (∀ a : Add κ, s.size = 1024 → Faults (addTimer a.now a.timeout a.callback a.hint) s) ∧
    (∀ now, Deferring script now s → ∃ batch, Serves script now s batch) ∧
    ∀ now c, Rearming script now c → (∃ u ∈ s.queue, u.timeout ≤ now ∧ u.callback = c) →
      ∀ s', ¬ Returns (handleEvents script now) s () s' := by
  have hl := ledger h
  refine ⟨Sound.queue_length hl.sound, hl.env, hl.perm, fun a hfull => ?_, fun now hd => ?_,
    fun now c harm hu s' => ?_⟩
  · exact addTimer_faults hl.sound hfull a
  · exact handleEvents_serves hl.sound hd
  · exact handleEvents_spins hl.sound harm hu

/-- The call back 0 adds itself again, 5 later; the environment is its clock. -/
def periodic : Script Nat Int := fun c x => (if c = 0 then [⟨x, 5, 0, 9⟩] else [], x + 10)

/-- The periodic timer was called back, and is due next at 15. -/
theorem min_heap_reentrant_periodic :
    ∃ s : MinHeap Nat Int, Runs (perform periodic) (init (fun _ => 0) Table.empty 10)
        [.addTimer 0 5 0 7, .addTimer 0 20 1 8, .handleEvents 10] s ∧
      s.calls = [⟨5, 0⟩] ∧ s.queue = [⟨15, 0⟩, ⟨20, 1⟩] ∧ ∃ batch, Serves periodic 17 s batch := by
  have hrun : Runs (perform periodic) (init (fun _ => 0) Table.empty 10)
      [.addTimer 0 5 0 7, .addTimer 0 20 1 8, .handleEvents 10] _ :=
    ((Runs.nil.concat (Returns.of_run 4 fun m => rfl)).concat
      (Returns.of_run 4 fun m => rfl)).concat (Returns.of_run 4 fun m => rfl)
  refine ⟨_, hrun, rfl, rfl, (min_heap_reentrant hrun).2.2.2.2.1 17 ?_⟩
  intro es hes u hu
  have hsub : es.Subperm [⟨15, 0⟩] := hes
  rcases es with _ | ⟨e, es⟩
  · cases hu
  · obtain rfl := List.mem_singleton.mp (hsub.subset List.mem_cons_self)
    obtain rfl := List.subperm_nil.mp ((List.subperm_cons _).mp hsub)
    obtain rfl := List.mem_singleton.mp hu
    exact (by decide : (17 : Int) < 20 + 5)

end DmfServer.MinHeap.Reentry
