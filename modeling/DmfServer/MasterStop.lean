/-
DmfServer/MasterStop.lean

The graceful stop: what `signal_SIGUSR1` leaves behind.

The handler sends SIGTERM to the pids in `worker[]` at that moment, and clears
a flag that the supervising loop tests once for all slots.  So it stops the
workers for good (`graceful_stop`) if it comes between two turns of the loop
and the rest of the pass finds no dead worker.  Otherwise the pass starts a
new worker behind its back (`stop_restarts_worker`), or the handler misses one
that is forked and not stored.
-/
import DmfServer.MasterRuns

namespace DmfServer

open Imperative Prog

variable {n i j k : Nat} {s s' : Master} {e : MasterEvent} {fork : Option Pid} {pid who self : Pid}
  {proc : Process}

/-- The slot whose turn is next. -/
def MasterControl.polled : MasterControl → Option Nat
  | .polling i => some i
  | .starting _ => none
  | .forked _ _ => none
  | .testing => none
  | .reaped _ => none
  | .reforked _ _ => none
  | .ended => none
  | .exited _ => none
  | .terminated => none

/-- SIGUSR1 comes in the supervising loop, between two turns; and once the
handler has returned, no turn finds its worker dead. -/
def stopsBetweenTurns : MasterEvent → Master → Bool
  | .main _ _, s => s.stoppedAt.isNone || s.control.polled.all fun i => !s.isZombie (s.worker i)
  | .sigusr1, s => s.control.settled
  | .handler, _ => true
  | .die _, _ => true
  | .appear _, _ => true
  | .vanish _, _ => true

/-- Every worker alive was sent SIGTERM. -/
def AllTermed (s : Master) : Prop :=
  ∀ pid proc, s.procs.get pid = some proc → proc.kind.isWorker = true → proc.alive = true →
    proc.termed = true

/-- Once the handler has returned, no worker was started and all were sent
SIGTERM; and so it is when the supervising loop ends. -/
structure StoppedForGood (s : Master) : Prop where
  no_start : ∀ started, s.stoppedAt = some started → s.started = started
  termed : s.stoppedAt ≠ none → AllTermed s
  ended : s.control = .ended → AllTermed s

/-- The process `pid` was sent SIGTERM. -/
def Master.Termed (s : Master) (pid : Pid) : Prop :=
  ∀ proc, s.procs.get pid = some proc → proc.termed = true

/-- The stop under way: the handler has sent SIGTERM to the slots behind it,
and has found the main program between two turns. -/
structure Stopping (n : Nat) (s : Master) : Prop where
  zero : s.procs.get 0 = none
  owned : s.control.active = true → Owned n s
  handler : s.handler ≠ none → s.control.settled = true
  after : s.stoppedAt ≠ none → s.control.active = true → s.control.settled = true
  sent : ∀ j, s.handler = some j → ∀ pid k, s.IsWorker pid k → k < j → s.Termed pid
  termed : s.stoppedAt ≠ none → ∀ pid k, s.IsWorker pid k → s.Termed pid
  no_start : ∀ started, s.stoppedAt = some started → s.started = started
  flag : s.control.active = true → s.serverRunningFlag = false →
    s.handler ≠ none ∨ s.stoppedAt ≠ none
  ended : s.control = .ended → s.stoppedAt ≠ none

/-! ### The signals that were sent -/

theorem Master.Termed.erase (h : s.Termed who) : (s.removeProc pid).Termed who :=
  fun proc hp => h proc (Table.get_erase_eq_some.mp hp).2

/-- A signal stays sent. -/
theorem Master.Termed.term (h : s.Termed who) : (s.term pid).Termed who := by
  intro proc hp
  by_cases hwho : who = pid
  · rw [Master.term, hwho, Table.get_modify_self, Option.map_eq_some_iff] at hp
    obtain ⟨old, -, rfl⟩ := hp
    rfl
  · rw [Master.term, Table.get_modify_of_ne hwho] at hp
    exact h proc hp

/-- So it does where a process dies. -/
theorem Master.Termed.set (h : s.Termed who) (hp : who = pid → proc.termed = true) :
    (s.setProc pid proc).Termed who := by
  intro proc' hget
  obtain ⟨he, rfl⟩ | ⟨-, hold⟩ := Table.get_set_eq_some.mp hget
  · exact hp he
  · exact h proc' hold

theorem Master.termed_term : (s.term pid).Termed pid := by
  intro proc hp
  rw [Master.term, Table.get_modify_self, Option.map_eq_some_iff] at hp
  obtain ⟨old, -, rfl⟩ := hp
  rfl

/-- Between two turns the worker of a slot is the one in the table. -/
theorem Owned.worker_eq (h : Owned n s) (hc : s.control.settled = true) (hw : s.IsWorker pid k) :
    k < n ∧ s.worker k = pid := by
  obtain ⟨hk, hcur⟩ := (h.owns pid k).mp hw
  refine ⟨hk, ?_⟩
  rw [Master.current] at hcur
  cases hs : s.control <;> rw [hs] at hc hcur <;>
    first
    | exact Option.some.inj ((Option.ite_none_left_eq_some.mp hcur).2)
    | cases hc

/-! ### Every move keeps it -/

/-- The main program does not touch the signal's data. -/
theorem MainMoves.frame (hm : MainMoves n fork s s') :
    s'.handler = s.handler ∧ s'.stoppedAt = s.stoppedAt ∧
      s'.serverRunningFlag = s.serverRunningFlag := by
  cases hm <;> exact ⟨rfl, rfl, rfl⟩

/-- The loop ends by its test of the flag. -/
theorem MainMoves.ended (hm : MainMoves n fork s s') (he : s'.control = .ended) :
    s.serverRunningFlag = false := by
  cases hm with
  | finish _ hflag => exact hflag
  | start _ _ _ _ _ => cases he
  | startFails _ _ _ => cases he
  | started _ _ => cases he
  | enter _ => cases he
  | pass _ _ => cases he
  | runs _ _ _ => cases he
  | reap _ _ _ _ => cases he
  | reapOther _ _ _ _ => cases he
  | noChild _ _ _ => cases he
  | passed _ _ => cases he
  | restart _ _ _ _ => cases he
  | restartFails _ _ => cases he
  | reenter _ => cases he

/-- A turn that finds no dead worker, once the handler has returned, starts
none. -/
theorem MainMoves.stopped (hm : MainMoves n fork s s') (hc : s.control.settled = true)
    (hz : ∀ i, s.control = .polling i → s.isZombie (s.worker i) = false)
    (ht : ∀ pid k, s.IsWorker pid k → s.Termed pid) :
    s'.started = s.started ∧ (s'.control.active = true → s'.control.settled = true) ∧
      ∀ pid k, s'.IsWorker pid k → s'.Termed pid := by
  cases hm with
  | pass _ _ => exact ⟨rfl, fun _ => rfl, ht⟩
  | finish _ _ => exact ⟨rfl, nofun, ht⟩
  | runs _ _ _ => exact ⟨rfl, fun _ => rfl, ht⟩
  | reap hp _ _ hzombie =>
      rw [hz _ hp] at hzombie
      cases hzombie
  | reapOther _ _ _ _ =>
      refine ⟨rfl, nofun, fun who k hw => ?_⟩
      exact (ht who k (Master.isWorker_remove.mp hw).2).erase
  | noChild _ _ _ => exact ⟨rfl, nofun, ht⟩
  | passed _ _ => exact ⟨rfl, fun _ => rfl, ht⟩
  | start hp _ _ _ _ => rw [hp] at hc; cases hc
  | startFails hp _ _ => rw [hp] at hc; cases hc
  | started hp _ => rw [hp] at hc; cases hc
  | enter hp => rw [hp] at hc; cases hc
  | restart hp _ _ _ => rw [hp] at hc; cases hc
  | restartFails hp _ => rw [hp] at hc; cases hc
  | reenter hp => rw [hp] at hc; cases hc

theorem Stopping.main (h : Stopping n s) (hh : s.handler = none)
    (hC : stopsBetweenTurns (.main fork who) s = true) (hm : MainMoves n fork s s') :
    Stopping n s' := by
  obtain ⟨hhandler, hstop, hflag⟩ := hm.frame
  have hnone : s'.handler = none := hhandler.trans hh
  have hstopped : s.stoppedAt ≠ none → s'.started = s.started ∧
      (s'.control.active = true → s'.control.settled = true) ∧
      ∀ pid k, s'.IsWorker pid k → s'.Termed pid := by
    intro hne
    refine hm.stopped (h.after hne hm.active) (fun i hi => ?_) (h.termed hne)
    rw [stopsBetweenTurns, hi, Bool.or_eq_true, Option.isNone_iff_eq_none] at hC
    simpa [MasterControl.polled] using hC.resolve_left hne
  refine ⟨hm.get_zero h.zero, fun ha => (h.owned hm.active).main h.zero hm ha,
    fun hne => absurd hnone hne, fun hne => ?_, fun j hj => ?_, fun hne => ?_, fun t ht => ?_,
    fun _ hf => ?_, fun he => ?_⟩
  · exact (hstopped (hstop ▸ hne)).2.1
  · rw [hnone] at hj
    cases hj
  · exact (hstopped (hstop ▸ hne)).2.2
  · rw [hstop] at ht
    rw [(hstopped (by rw [ht]; nofun)).1]
    exact h.no_start t ht
  · rw [hhandler, hstop]
    exact h.flag hm.active (hflag ▸ hf)
  · rw [hstop]
    exact (h.flag hm.active (hm.ended he)).resolve_left (not_not_intro hh)

theorem Stopping.moves (h : Stopping n s) (hC : stopsBetweenTurns e s = true)
    (hm : MasterMoves n s e s') : Stopping n s' := by
  have hzero := hm.get_zero h.zero
  have howned : s'.control.active = true → Owned n s' :=
    fun ha => (h.owned (hm.active ha)).moves h.zero hm ha
  cases hm with
  | main hh hm => exact h.main hh hC hm
  | sigusr1 hh ha =>
      refine ⟨hzero, howned, fun _ => hC, h.after, fun j hj pid k _ hk => ?_, h.termed, h.no_start,
        fun _ _ => .inl nofun, h.ended⟩
      cases hj
      exact absurd hk (Nat.not_lt_zero k)
  | @kill j hh hj hw =>
      have hc := h.handler (by rw [hh]; nofun)
      have ho := h.owned (MasterControl.active_of_settled hc)
      refine ⟨hzero, howned, fun _ => hc, h.after, fun i hi pid k hworker hk => ?_,
        fun hne pid k hworker => ?_, h.no_start, fun _ _ => .inl nofun, h.ended⟩
      · have hold : s.IsWorker pid k := Master.isWorker_term.mp hworker
        obtain rfl := Option.some.inj hi
        rcases Nat.lt_succ_iff_lt_or_eq.mp hk with hlt | rfl
        · exact Master.Termed.term (h.sent j hh pid k hold hlt)
        · -- the worker of this slot is the one that was sent the signal
          rw [← (ho.worker_eq hc hold).2]
          exact Master.termed_term
      · exact Master.Termed.term (h.termed hne pid k (Master.isWorker_term.mp hworker))
  | killGroup _ _ _ =>
      refine ⟨hzero, nofun, fun hne => absurd rfl hne, fun _ ha => (nomatch ha), nofun,
        fun _ pid k hworker proc hp => ?_, h.no_start, nofun, nofun⟩
      obtain ⟨proc', hp', hk⟩ := hworker
      rw [hp, Option.some.injEq] at hp'
      subst hp'
      -- a worker is in the group
      obtain ⟨old, -, rfl⟩ := Option.map_eq_some_iff.mp hp
      split_ifs at hk ⊢ with hgroup
      · rfl
      · rw [hk] at hgroup
        exact absurd rfl hgroup
  | @handled j hh hj =>
      have hc := h.handler (by rw [hh]; nofun)
      have ho := h.owned (MasterControl.active_of_settled hc)
      refine ⟨hzero, howned, nofun, fun _ _ => hc, nofun, fun _ pid k hworker => ?_, fun t ht => ?_,
        fun _ _ => .inr nofun, fun _ => nofun⟩
      · exact h.sent j hh pid k hworker (Nat.lt_of_lt_of_le (ho.worker_eq hc hworker).1 hj)
      · obtain rfl := Option.some.inj ht
        cases hs : s.stoppedAt with
        | none => rfl
        | some t => exact h.no_start t hs
  | @die pid proc hp =>
      have hkeep : ∀ {who}, s.Termed who →
          (s.setProc pid { proc with alive := false }).Termed who :=
        fun ht => ht.set fun he => ht proc (he ▸ hp)
      have hold : ∀ {who k}, (s.setProc pid { proc with alive := false }).IsWorker who k ↔
          s.IsWorker who k := Master.isWorker_keep hp rfl
      refine ⟨hzero, howned, h.handler, h.after, fun j hj who k hw hk => ?_, fun hne who k hw => ?_,
        h.no_start, h.flag, h.ended⟩
      · exact hkeep (h.sent j hj who k (hold.mp hw) hk)
      · exact hkeep (h.termed hne who k (hold.mp hw))
  | @appear pid _ _ =>
      have hold : ∀ {who k}, (s.setProc pid ⟨.foreign, true, false⟩).IsWorker who k →
          who ≠ pid ∧ s.IsWorker who k := by
        intro who k hw
        rcases Master.isWorker_set.mp hw with ⟨-, he⟩ | hw
        · cases he
        · exact hw
      refine ⟨hzero, howned, h.handler, h.after, fun j hj who k hw hk => ?_, fun hne who k hw => ?_,
        h.no_start, h.flag, h.ended⟩
      · obtain ⟨hne, hw⟩ := hold hw
        exact (h.sent j hj who k hw hk).set fun he => absurd he hne
      · obtain ⟨hwho, hw⟩ := hold hw
        exact (h.termed hne who k hw).set fun he => absurd he hwho
  | vanish _ _ =>
      refine ⟨hzero, howned, h.handler, h.after, fun j hj who k hw hk => ?_, fun hne who k hw => ?_,
        h.no_start, h.flag, h.ended⟩
      · exact (h.sent j hj who k (Master.isWorker_remove.mp hw).2 hk).erase
      · exact (h.termed hne who k (Master.isWorker_remove.mp hw).2).erase

theorem Stopping.init (hself : 0 < self) : Stopping n (masterInit self) where
  zero := masterInit_get_zero hself
  owned _ := Owned.init
  handler hh := absurd rfl hh
  after hne := absurd rfl hne
  sent _ hj := nomatch hj
  termed hne := absurd rfl hne
  no_start _ ht := nomatch ht
  flag _ hf := nomatch hf
  ended he := nomatch he

/-- **The graceful stop.**  If SIGUSR1 comes between two turns of the loop, and
no turn after it finds its worker dead, then no worker is started after the
handler has returned, and every worker alive was sent SIGTERM. -/
theorem graceful_stop {es : List MasterEvent} (hself : 0 < self)
    (h : Runs (Under stopsBetweenTurns (masterStep n)) (masterInit self) es s) :
    StoppedForGood s := by
  have hs : Stopping n s := by
    refine h.invariant (Stopping n) (Stopping.init hself) fun e s hs => ?_
    rw [safe_under]
    intro hC
    exact (masterStep_moves hs.zero n e).mono fun _ s' hm => hs.moves hC hm
  have hall : s.stoppedAt ≠ none → AllTermed s := by
    intro hne pid proc hp hworker _
    cases hk : proc.kind with
    | worker k => exact hs.termed hne pid k ⟨proc, hp, hk⟩ proc hp
    | master => rw [hk] at hworker; cases hworker
    | foreign => rw [hk] at hworker; cases hworker
  exact ⟨hs.no_start, hall, fun he => hall (hs.ended he)⟩

/-- The signal comes in a pass, after which no worker has died. -/
def quietStop : List MasterEvent :=
  [.main (some 2) 0, .main none 0, .main (some 3) 0, .main none 0, .main none 0, .main none 0,
    .main none 0, .sigusr1, .handler, .handler, .handler, .main none 0, .main none 0, .main none 0]

theorem graceful_stop_quiet :
    ∃ s, Runs (Under stopsBetweenTurns (masterStep 2)) (masterInit 1) quietStop s ∧
      s.control = .ended ∧ s.started 0 = [2] ∧ s.started 1 = [3] ∧ StoppedForGood s := by
  have hrun : Runs (Under stopsBetweenTurns (masterStep 2)) (masterInit 1) quietStop _ :=
    Runs.of_exec rfl
  exact ⟨_, hrun, rfl, rfl, rfl, graceful_stop Nat.one_pos hrun⟩

/-- The worker dies of the signal while the pass is under way. -/
def stopInPass : List MasterEvent :=
  [.main (some 2) 0, .main none 0, .main none 0, .main none 0, .sigusr1, .handler, .handler, .die 2,
    .main none 0, .main (some 3) 0, .main none 0, .main none 0, .main none 0]

/-- The pass replaces the worker it was meant to stop, and the loop ends with
the new one alive. -/
theorem stop_restarts_worker :
    ∃ s, Runs (masterStep 1) (masterInit 1) stopInPass s ∧ s.control = .ended ∧
      s.stoppedAt.map (· 0) = some [2] ∧ s.started 0 = [2, 3] ∧ ¬ StoppedForGood s := by
  have hrun : Runs (masterStep 1) (masterInit 1) stopInPass _ := Runs.of_exec rfl
  refine ⟨_, hrun, rfl, rfl, rfl, fun hs => ?_⟩
  have hterm := hs.ended rfl 3 ⟨.worker 0, true, false⟩ rfl rfl rfl
  cases hterm

end DmfServer
