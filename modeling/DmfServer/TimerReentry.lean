/-
DmfServer/TimerReentry.lean

`executeTimers` with call backs that add and delete timers themselves.

A call back is a tree (`Callback`): it looks at the memory, calls `addTimer`
or `deleteTimer`, and goes on.  `Course` is a part of a call of
`executeTimers` with the events in order: a timer fires, and what its call
back did follows.  What is asked of the call backs (`Allowed`) is asked at
that moment only: a timer that is added is not queued then, its delay is not
zero, and the clock has not gone back.

The clock is read once, before the loop.  So a timer that is added during the
call is not due in it, and the timers that are (`DueNow`) only become fewer: a
timer that fires or is deleted is not due again.  Termination, and that no
timer fires twice or after it was deleted, both come from that
(`executeTimers_reentrant`).
-/
import DmfServer.TimerRuns

namespace DmfServer

open Imperative Imperative.Prog

variable {τ κ : Type}

/-! ### Call backs -/

/-- What a call back does.  `clock` is what `time(NULL)` answers in it. -/
inductive Callback (τ κ : Type) where
  | ret
  | look (k : Timers τ κ → Callback τ κ)
  | call (clock : Int) (op : Op τ κ) (k : Callback τ κ)

/-- A timer fires, or a call back calls a function of `dm_timer.c`. -/
inductive Event (τ κ : Type) where
  | fire (t : τ)
  | call (op : Op τ κ)

/-- A call back may delete any timer and add one that is not queued, to expire
later than `now`. -/
def Op.Allowed (now clock : Int) (s : Timers τ κ) : Op τ κ → Prop
  | .add t delay _ => now ≤ clock ∧ 1 ≤ delay ∧ ∀ l, Queue s l → t ∉ l
  | .delete _ => True
  | .execute => False

variable [DecidableEq τ]

namespace Callback

/-- The program. -/
def prog : Callback τ κ → Prog (Timers τ κ) Unit
  | .ret => pure ()
  | .look k => do (k (← load id)).prog
  | .call clock op k => do
      op.prog clock
      k.prog

/-- From `s`, the call back does `events` and leaves `s'`. -/
inductive Performs : Callback τ κ → Timers τ κ → List (Event τ κ) → Timers τ κ → Prop
  | ret {s : Timers τ κ} : Performs .ret s [] s
  | look {k : Timers τ κ → Callback τ κ} {s s' : Timers τ κ} {events : List (Event τ κ)} :
      Performs (k s) s events s' → Performs (.look k) s events s'
  | call {clock : Int} {op : Op τ κ} {k : Callback τ κ} {s s₁ s' : Timers τ κ}
      {events : List (Event τ κ)} :
      Returns (op.prog clock) s () s₁ → Performs k s₁ events s' →
      Performs (.call clock op k) s (.call op :: events) s'

/-- Whatever the call back does from `s` is allowed when it does it. -/
def Behaves (now : Int) : Callback τ κ → Timers τ κ → Prop
  | .ret, _ => True
  | .look k, s => (k s).Behaves now s
  | .call clock op k, s =>
      op.Allowed now clock s ∧ ∀ s', Returns (op.prog clock) s () s' → k.Behaves now s'

end Callback

/-- The head `timer` is taken off, to be called back. -/
def Timers.pop (timer : τ) (s : Timers τ κ) : Timers τ κ :=
  (s.setHeap (s.next timer)).logCall timer (s.callback timer)

variable {script : κ → Callback τ κ} {now clock : Int}

/-- Turns of the loop of `executeTimers`, with the clock at `now` and the call
backs of `script`. -/
inductive Course (script : κ → Callback τ κ) (now : Int) :
    Timers τ κ → List (Event τ κ) → Timers τ κ → Prop
  | start {s : Timers τ κ} : Course script now s [] s
  | turn {s s₁ s' : Timers τ κ} {timer : τ} {acts events : List (Event τ κ)} :
      s.heap = some timer → s.expire timer ≤ now →
      (script (s.callback timer)).Performs (s.pop timer) acts s₁ →
      Course script now s₁ events s' →
      Course script now s (.fire timer :: (acts ++ events)) s'

/-- In a call of `executeTimers` from `s`, every call back behaves when it is
made. -/
def WellBehaved (script : κ → Callback τ κ) (now : Int) (s : Timers τ κ) : Prop :=
  ∀ events s₁ l timer, Course script now s events s₁ → Queue s₁ l → s₁.heap = some timer →
    s₁.expire timer ≤ now → (script (s₁.callback timer)).Behaves now (s₁.pop timer)

variable {s s' s₁ : Timers τ κ} {l l' : List τ} {t u : τ} {events acts : List (Event τ κ)}

/-! ### The timers that are due -/

/-- `t` is in the list `l` of `s`, and due. -/
def DueNow (now : Int) (s : Timers τ κ) (l : List τ) (t : τ) : Prop := t ∈ l ∧ s.expire t ≤ now

/-- What is allowed makes no timer due. -/
theorem Op.Allowed.returns {op : Op τ κ} (hq : Queue s l) (h : op.Allowed now clock s) :
    ∃ s' l', Returns (op.prog clock) s () s' ∧ Queue s' l' ∧ s'.calls = s.calls ∧
      (∀ t, DueNow now s' l' t → DueNow now s l t) ∧
      ∀ t, op = .delete (some t) → ¬ DueNow now s' l' t := by
  cases op with
  | execute => exact h.elim
  | add t delay c =>
      obtain ⟨hclock, hdelay, hno⟩ := h
      obtain ⟨s', hret, hq', hexp, -, hcalls⟩ := op_returns hq clock (.add t delay c) hno
      refine ⟨s', _, hret, hq', by simpa [Op.fires] using hcalls, ?_, fun _ hop => by cases hop⟩
      rintro u ⟨hu, hdue⟩
      rw [hexp] at hdue
      simp only [Op.expire] at hdue
      rcases eq_or_ne u t with rfl | hne
      · -- the new timer
        rw [Function.update_self] at hdue
        omega
      · rw [Function.update_of_ne hne] at hdue
        simp only [Op.onList, mem_pass, List.mem_append, List.mem_singleton, hne, or_false] at hu
        exact ⟨hu, hdue⟩
  | delete target =>
      obtain ⟨s', hret, hq', hexp, -, hcalls⟩ := op_returns hq clock (.delete target) trivial
      refine ⟨s', _, hret, hq', by simpa [Op.fires] using hcalls, ?_, ?_⟩
      · rintro u ⟨hu, hdue⟩
        rw [hexp] at hdue
        refine ⟨?_, hdue⟩
        cases target with
        | none => exact hu
        | some t => exact List.mem_of_mem_erase (deleteList_perm.mem_iff.mp hu)
      · rintro t hop ⟨hu, -⟩
        cases hop
        exact (Chain.nodup hq).not_mem_erase (deleteList_perm.mem_iff.mp hu)

/-- A call back that behaves returns.  Afterwards what it has deleted is not
due, and nothing is due that was not before. -/
theorem Callback.Behaves.returns {c : Callback τ κ} (hq : Queue s l) (h : c.Behaves now s) :
    ∃ acts s' l', c.Performs s acts s' ∧ Returns c.prog s () s' ∧ Queue s' l' ∧
      s'.calls = s.calls ∧ (∀ t, Event.fire t ∉ acts) ∧
      (∀ t, DueNow now s' l' t → DueNow now s l t) ∧
      ∀ t, Event.call (.delete (some t)) ∈ acts → ¬ DueNow now s' l' t := by
  induction c generalizing s l with
  | ret =>
      have hret : Returns (Callback.ret : Callback τ κ).prog s () s := returns_pure.mpr ⟨rfl, rfl⟩
      exact ⟨[], s, l, .ret, hret, hq, rfl, by simp, fun _ hd => hd, by simp⟩
  | look k ih =>
      obtain ⟨acts, s', l', hperf, hret, hrest⟩ := ih s hq h
      refine ⟨acts, s', l', .look hperf, ?_, hrest⟩
      rw [prog, returns_load_bind]
      exact hret
  | call clock op k ih =>
      obtain ⟨hallowed, hk⟩ := h
      obtain ⟨s₁, l₁, hop, hq₁, hcalls₁, hdue₁, hdel₁⟩ := hallowed.returns hq
      obtain ⟨acts, s', l', hperf, hret, hq', hcalls, hfire, hdue, hdel⟩ := ih hq₁ (hk s₁ hop)
      refine ⟨.call op :: acts, s', l', .call hop hperf, hop.bind hret, hq',
        hcalls.trans hcalls₁, ?_, fun t hd => hdue₁ t (hdue t hd), ?_⟩
      · intro t ht
        rcases List.mem_cons.mp ht with hf | hf
        · cases hf
        · exact hfire t hf
      · intro t ht hd
        rcases List.mem_cons.mp ht with hf | hf
        · exact hdel₁ t (Event.call.inj hf).symm (hdue t hd)
        · exact hdel t hf hd

/-! ### A call of `executeTimers` -/

/-- The timer that fires. -/
def Event.fired : Event τ κ → Option τ
  | .fire t => some t
  | .call _ => none

/-- After `e` the timer `t` is out of the list, or not due. -/
def Event.Retires (e : Event τ κ) (t : τ) : Prop := e = .fire t ∨ e = .call (.delete (some t))

/-- A timer that has fired or was deleted does not fire later. -/
def FiresOnce (events : List (Event τ κ)) : Prop :=
  events.Pairwise fun e e' => ∀ t, e.Retires t → e' ≠ .fire t

theorem WellBehaved.turn {timer : τ} (h : WellBehaved script now s) (hh : s.heap = some timer)
    (hdue : s.expire timer ≤ now)
    (hperf : (script (s.callback timer)).Performs (s.pop timer) acts s₁) :
    WellBehaved script now s₁ := by
  intro events s₂ l timer' hses hq
  exact h _ s₂ l timer' (.turn hh hdue hperf hses) hq

/-- One turn of the loop, on a timer that is due. -/
theorem executeTimersBody_turn {timer : τ} (hh : s.heap = some timer) (hdue : s.expire timer ≤ now)
    (hret : Returns (script (s.callback timer)).prog (s.pop timer) () s₁) :
    Returns (executeTimersBody (fun c => (script c).prog) now ()) s (Sum.inl ()) s₁ := by
  rw [executeTimersBody, returns_load_bind, hh]
  show Returns (load (fun u : Timers τ κ => u.expire timer) >>= _) _ _ _
  rw [returns_load_bind, if_pos hdue, returns_load_bind, returns_store_bind, returns_load_bind,
    returns_store_bind]
  exact hret.bind (returns_pure.mpr ⟨rfl, rfl⟩)

/-- The last turn, when the first timer is not due. -/
theorem executeTimersBody_exit (hno : ∀ timer, s.heap = some timer → ¬ s.expire timer ≤ now) :
    Returns (executeTimersBody (fun c => (script c).prog) now ()) s (Sum.inr ()) s := by
  rw [executeTimersBody, returns_load_bind]
  cases hh : s.heap with
  | none => exact returns_pure.mpr ⟨rfl, rfl⟩
  | some timer =>
      show Returns (load (fun u : Timers τ κ => u.expire timer) >>= _) _ _ _
      rw [returns_load_bind, if_neg (hno timer hh)]
      exact returns_pure.mpr ⟨rfl, rfl⟩

/-- A whole call of `executeTimers`: it returns, having done `events`, and the
list ends again. -/
structure Executed (script : κ → Callback τ κ) (now : Int) (s : Timers τ κ) (l : List τ)
    (events : List (Event τ κ)) (s' : Timers τ κ) (l' : List τ) : Prop where
  course : Course script now s events s'
  returns : Returns (executeTimers (fun c => (script c).prog) now) s () s'
  queue : Queue s' l'
  calls : s'.calls.map Prod.fst = s.calls.map Prod.fst ++ events.filterMap Event.fired
  fired : ∀ t, Event.fire t ∈ events → DueNow now s l t
  once : FiresOnce events

theorem executed_nil (hq : Queue s l)
    (hno : ∀ timer, s.heap = some timer → ¬ s.expire timer ≤ now) :
    Executed script now s l [] s l where
  course := .start
  returns := Returns.loop_exit (executeTimersBody_exit hno)
  queue := hq
  calls := by simp
  fired := by simp
  once := List.Pairwise.nil

/-- One more turn, before the others. -/
theorem Executed.turn {timer : τ} {rest l₁ : List τ} (hq : Queue s (timer :: rest))
    (hdue : s.expire timer ≤ now)
    (hperf : (script (s.callback timer)).Performs (s.pop timer) acts s₁)
    (hret : Returns (script (s.callback timer)).prog (s.pop timer) () s₁)
    (hcalls : s₁.calls = (s.pop timer).calls) (hfire : ∀ t, Event.fire t ∉ acts)
    (hless : ∀ t, DueNow now s₁ l₁ t → DueNow now (s.pop timer) rest t)
    (hdel : ∀ t, Event.call (.delete (some t)) ∈ acts → ¬ DueNow now s₁ l₁ t)
    (h : Executed script now s₁ l₁ events s' l') :
    Executed script now s (timer :: rest) (.fire timer :: (acts ++ events)) s' l' where
  course := .turn (chain_cons.mp hq).1 hdue hperf h.course
  returns := Returns.loop_next (executeTimersBody_turn (chain_cons.mp hq).1 hdue hret) h.returns
  queue := h.queue
  calls := by
    have hnone : acts.filterMap Event.fired = [] := by
      refine List.filterMap_eq_nil_iff.mpr fun e he => ?_
      cases e with
      | fire t => exact absurd he (hfire t)
      | call op => rfl
    have hfired : (Event.fire timer :: (acts ++ events)).filterMap Event.fired
        = timer :: events.filterMap Event.fired := by
      rw [List.filterMap_cons_some (f := Event.fired) rfl, List.filterMap_append, hnone]
      rfl
    rw [h.calls, hcalls, hfired]
    simp [Timers.pop]
  fired := by
    intro t ht
    rcases List.mem_cons.mp ht with hf | hf
    · rw [Event.fire.inj hf]
      exact ⟨List.mem_cons_self, hdue⟩
    · obtain ⟨hm, hd⟩ := hless t (h.fired t ((List.mem_append.mp hf).resolve_left (hfire t)))
      exact ⟨List.mem_cons_of_mem _ hm, hd⟩
  once := by
    refine List.pairwise_cons.mpr ⟨?_, List.pairwise_append.mpr ⟨?_, h.once, ?_⟩⟩
    · -- the timer is out of the list from here on
      rintro e' he' t (ht | ht) rfl
      · obtain rfl := Event.fire.inj ht
        have hm := (hless _ (h.fired _ ((List.mem_append.mp he').resolve_left (hfire _)))).1
        exact (List.nodup_cons.mp (Chain.nodup hq)).1 hm
      · cases ht
    · refine List.pairwise_of_forall_mem_list fun e _ e' he' t _ hf => ?_
      exact hfire t (hf ▸ he')
    · rintro e he e' he' t (rfl | rfl) rfl
      · exact hfire t he
      · exact hdel t he (h.fired t he')

/-- The loop, by induction on the timers that may be due. -/
theorem executeTimers_executed {S : Finset τ} (hq : Queue s l) (h : WellBehaved script now s)
    (hS : ∀ t, DueNow now s l t → t ∈ S) :
    ∃ events s' l', Executed script now s l events s' l' := by
  induction S using Finset.strongInduction generalizing s l with
  | H S ih =>
  cases l with
  | nil =>
      have hh : s.heap = none := hq
      exact ⟨[], s, [], executed_nil hq fun timer ht => by rw [hh] at ht; cases ht⟩
  | cons timer rest =>
      obtain ⟨hh, hrest⟩ := chain_cons.mp hq
      by_cases hdue : s.expire timer ≤ now
      · have hbeh := h [] s (timer :: rest) timer .start hq hh hdue
        have hq₀ : Queue (s.pop timer) rest := hrest
        obtain ⟨acts, s₁, l₁, hperf, hret, hq₁, hcalls, hfire, hless, hdel⟩ := hbeh.returns hq₀
        have htimer : timer ∈ S := hS timer ⟨List.mem_cons_self, hdue⟩
        have hS₁ : ∀ t, DueNow now s₁ l₁ t → t ∈ S.erase timer := by
          intro t ht
          obtain ⟨htr, htd⟩ := hless t ht
          refine Finset.mem_erase.mpr ⟨?_, hS t ⟨List.mem_cons_of_mem _ htr, htd⟩⟩
          exact ne_of_mem_of_not_mem htr (List.nodup_cons.mp (Chain.nodup hq)).1
        obtain ⟨events, s', l', hexec⟩ :=
          ih (S.erase timer) (Finset.erase_ssubset htimer) hq₁ (h.turn hh hdue hperf) hS₁
        exact ⟨_, s', l', hexec.turn hq hdue hperf hret hcalls hfire hless hdel⟩
      · refine ⟨[], s, timer :: rest, executed_nil hq fun timer' ht => ?_⟩
        rwa [← Option.some.inj (hh.symm.trans ht)]

/-- **Re-entrant call backs.**  From a list that ends, with call backs that
delete any timers and add timers that are not queued, `executeTimers` returns
and leaves a list that ends, in which no timer is twice.  Only timers that
were queued and due fire, and none fires that has fired or was deleted before
in the same call. -/
theorem executeTimers_reentrant (hq : Queue s l) (h : WellBehaved script now s) :
    ∃ events s' l', Course script now s events s' ∧
      Returns (executeTimers (fun c => (script c).prog) now) s () s' ∧ Queue s' l' ∧ l'.Nodup ∧
      s'.calls.map Prod.fst = s.calls.map Prod.fst ++ events.filterMap Event.fired ∧
      (∀ t, Event.fire t ∈ events → t ∈ l ∧ s.expire t ≤ now) ∧
      ∀ before e after t, events = before ++ e :: after →
        e = .fire t ∨ e = .call (.delete (some t)) → Event.fire t ∉ after := by
  obtain ⟨events, s', l', hexec⟩ :=
    executeTimers_executed (S := l.toFinset) hq h fun t ht => List.mem_toFinset.mpr ht.1
  refine ⟨events, s', l', hexec.course, hexec.returns, hexec.queue, Chain.nodup hexec.queue,
    hexec.calls, hexec.fired, ?_⟩
  rintro before e after t rfl he ht
  exact (List.pairwise_cons.mp (List.pairwise_append.mp hexec.once).2.1).1 _ ht t he rfl

/-- A call back that deletes timer 0 and re-arms timer 2. -/
def rearmsTwo : Callback Nat Unit :=
  .call 2 (.delete (some 0)) (.call 2 (.delete (some 2)) (.call 2 (.add 2 1 ()) .ret))

theorem rearmsTwo_behaves {s : Timers Nat Unit} {l : List Nat} (hq : Queue s l) :
    rearmsTwo.Behaves 2 s := by
  refine ⟨trivial, fun s₁ h₁ => ⟨trivial, fun s₂ h₂ => ⟨⟨le_rfl, le_rfl, ?_⟩, fun _ _ => trivial⟩⟩⟩
  have hlegal : ∀ u s, (Op.delete (some u) : Op Nat Unit).Legal s := fun _ _ => trivial
  have hq₁ := (op_effect hq (hlegal 0 s) h₁).1
  have hq₂ := (op_effect hq₁ (hlegal 2 s₁) h₂).1
  intro l' hq' hm
  rw [Chain.unique hq' hq₂] at hm
  exact (Chain.nodup hq₁).not_mem_erase (deleteList_perm.mem_iff.mp hm)

/-- Timer 2 fires first and deletes timer 0, which was due as well. -/
theorem executeTimers_reentrant_three :
    ∃ (s s' : Timers Nat Unit) (l' : List Nat), Queue s [2, 0, 1] ∧
      Returns (executeTimers (fun _ => rearmsTwo.prog) 2) s () s' ∧ Queue s' l' ∧ l'.Nodup := by
  obtain ⟨s, -, hq, -⟩ := three_timers
  have hwell : WellBehaved (fun _ => rearmsTwo) 2 s := by
    intro events s₁ l timer _ hq₁ hh _
    cases l with
    | nil => exact absurd (hh.symm.trans hq₁) (by simp)
    | cons a l =>
        obtain ⟨ha, hl⟩ := chain_cons.mp hq₁
        obtain rfl := Option.some.inj (hh.symm.trans ha)
        exact rearmsTwo_behaves (l := l) hl
  obtain ⟨events, s', l', -, hret, hq', hnd, -⟩ := executeTimers_reentrant hq hwell
  exact ⟨s, s', l', hq, hret, hq', hnd⟩

end DmfServer
