/-
DmfServer/MasterRuns.lean

Which worker belongs to which slot.

`current s j` is the worker that the master has for the slot `j`, be it in
`worker[]` or still in hand between a `fork` and the store; between a
`waitpid` that reaps and the next `fork` there is none.  The invariant `Owned`
says that the workers in the process table are exactly these, each with the
`cpu_bind` of its slot, and that what was started for a slot is what was
reaped in its turns, followed by its current worker.  It holds in every run,
whatever forks fail and signals arrive, until the master leaves its loops.

`Staffed` adds what holds while every slot gets its first worker.
`supervision_invariant`: with no failed `fork` and no signal the table is right
after every turn, and the master never exits.
-/
import DmfServer.MasterMoves
import Mathlib.Data.Finset.Basic

namespace DmfServer

open Imperative Prog

/-- The worker for the slot `j` where `x` is the one in the table. -/
def MasterControl.override (j : Nat) (x : Option Pid) : MasterControl → Option Pid
  | .forked i pid => if j = i then some pid else x
  | .reaped i => if j = i then none else x
  | .reforked i pid => if j = i then some pid else x
  | .starting _ => x
  | .testing => x
  | .polling _ => x
  | .ended => x
  | .exited _ => x
  | .terminated => x

namespace Master

/-- The worker for the slot `j`. -/
def current (s : Master) (j : Nat) : Option Pid :=
  s.control.override j (if s.worker j = 0 then none else some (s.worker j))

/-- `pid` is a worker, dead or alive, with the `cpu_bind` of the slot `j`. -/
def IsWorker (s : Master) (pid : Pid) (j : Nat) : Prop :=
  ∃ proc, s.procs.get pid = some proc ∧ proc.kind = .worker j

end Master

/-- What the main program knows where it stands. -/
def MasterControl.Knows (n : Nat) (worker : Nat → Pid) : MasterControl → Prop
  | .starting i => ∀ j, i ≤ j → worker j = 0
  | .forked i _ => i < n ∧ ∀ j, i ≤ j → worker j = 0
  | .reaped i => i < n
  | .reforked i _ => i < n
  | .testing => True
  | .polling _ => True
  | .ended => True
  | .exited _ => True
  | .terminated => True

/-- The workers are the current ones of the `n` slots. -/
structure Owned (n : Nat) (s : Master) : Prop where
  owns : ∀ pid j, s.IsWorker pid j ↔ j < n ∧ s.current j = some pid
  history : ∀ j < n, s.started j = s.reaped j ++ (s.current j).toList
  knows : s.control.Knows n s.worker

variable {n i j : Nat} {s s' : Master} {fork : Option Pid} {pid who self : Pid} {proc : Process}
  {c : MasterControl} {e : MasterEvent}

/-! ### What the updates do to the workers -/

namespace Master

theorem isWorker_set : (s.setProc pid proc).IsWorker who j ↔
    (who = pid ∧ proc.kind = .worker j) ∨ (who ≠ pid ∧ s.IsWorker who j) := by
  rcases eq_or_ne who pid with rfl | hne
  · simp [IsWorker, setProc]
  · simp [IsWorker, setProc, hne]

/-- A process that keeps its kind stays what it is. -/
theorem isWorker_keep (hp : s.procs.get pid = some proc) {proc' : Process}
    (hk : proc'.kind = proc.kind) : (s.setProc pid proc').IsWorker who j ↔ s.IsWorker who j := by
  rw [isWorker_set, hk]
  rcases eq_or_ne who pid with rfl | hne
  · simp [IsWorker, hp]
  · simp [hne]

theorem isWorker_remove : (s.removeProc pid).IsWorker who j ↔ who ≠ pid ∧ s.IsWorker who j := by
  rcases eq_or_ne who pid with rfl | hne
  · simp [IsWorker, removeProc]
  · simp [IsWorker, removeProc, hne]

theorem IsWorker.isChild (h : s.IsWorker pid j) : s.isChild pid = true := by
  obtain ⟨proc, hp, hk⟩ := h
  rw [Master.isChild, hp, Option.any_some, hk]
  rfl

/-- A signal does not change what a process is. -/
theorem isWorker_term : (s.term pid).IsWorker who j ↔ s.IsWorker who j := by
  rcases eq_or_ne who pid with rfl | hne
  · simp [IsWorker, term]
  · simp [IsWorker, term, hne]

/-- A process is a worker of one slot at most. -/
theorem IsWorker.unique (h : s.IsWorker pid i) (h' : s.IsWorker pid j) : i = j := by
  obtain ⟨proc, hp, hk⟩ := h
  obtain ⟨proc', hp', hk'⟩ := h'
  rw [hp, Option.some.injEq] at hp'
  subst hp'
  rw [hk, ProcKind.worker.injEq] at hk'
  exact hk'

theorem not_isWorker (h : s.procs.get pid = none) : ¬ s.IsWorker pid j := by
  rintro ⟨proc, hp, -⟩
  rw [h] at hp
  cases hp

end Master

/-! ### Ownership -/

/-- The workers and the slots stay as they are. -/
theorem Owned.of_eq (h : Owned n s) (hw : ∀ pid j, s'.IsWorker pid j ↔ s.IsWorker pid j)
    (hcurrent : ∀ j, s'.current j = s.current j) (hstarted : s'.started = s.started)
    (hreaped : s'.reaped = s.reaped) (hk : s'.control.Knows n s'.worker) : Owned n s' where
  owns pid j := by rw [hw, h.owns, hcurrent]
  history j hj := by rw [hstarted, hreaped, hcurrent, h.history j hj]
  knows := hk

/-- The main program goes to where it has the same worker for every slot. -/
theorem Owned.goto (h : Owned n s) (hc : ∀ j x, c.override j x = s.control.override j x)
    (hk : c.Knows n s.worker) : Owned n (s.setControl c) :=
  h.of_eq (fun _ _ => Iff.rfl) (fun _ => hc _ _) rfl rfl hk

/-- A worker has a pid. -/
theorem Owned.ne_zero (h : Owned n s) (h0 : s.procs.get 0 = none) (hi : i < n)
    (hc : s.current i = some pid) : pid ≠ 0 := by
  rintro rfl
  exact Master.not_isWorker h0 ((h.owns 0 i).mpr ⟨hi, hc⟩)

/-- The worker in hand is stored into its slot. -/
theorem Owned.store (h : Owned n s) (hc : ∀ x, s.control.override i x = some pid)
    (hother : ∀ j x, j ≠ i → s.control.override j x = x) (hplain : ∀ j x, c.override j x = x)
    (hi : i < n) (h0 : s.procs.get 0 = none) (hk : c.Knows n (Function.update s.worker i pid)) :
    Owned n ((s.setWorker i pid).setControl c) := by
  have hne : pid ≠ 0 := h.ne_zero h0 hi (hc _)
  refine h.of_eq (fun _ _ => Iff.rfl) (fun j => ?_) rfl rfl hk
  show c.override j (if Function.update s.worker i pid j = 0 then none
    else some (Function.update s.worker i pid j)) = s.current j
  rw [hplain, Master.current]
  rcases eq_or_ne j i with rfl | hj
  · rw [hc, Function.update_self, if_neg hne]
  · rw [hother j _ hj, Function.update_of_ne hj]

/-- A worker is forked for a slot that has none. -/
theorem Owned.forkFor (h : Owned n s) (hi : i < n) (hnone : s.current i = none)
    (hfree : s.procs.get pid = none) (hc : ∀ x, c.override i x = some pid)
    (hother : ∀ j x, j ≠ i → c.override j x = s.control.override j x)
    (hk : c.Knows n s.worker) : Owned n ((s.forkFor i pid).setControl c) := by
  have hcurrent : ∀ j, ((s.forkFor i pid).setControl c).current j =
      if j = i then some pid else s.current j := by
    intro j
    show c.override j (if s.worker j = 0 then none else some (s.worker j)) = _
    rcases eq_or_ne j i with rfl | hj
    · rw [hc, if_pos rfl]
    · rw [hother j _ hj, if_neg hj, Master.current]
  refine ⟨fun who j => ?_, fun j hj => ?_, hk⟩
  · have hw : ((s.forkFor i pid).setControl c).IsWorker who j ↔
        (who = pid ∧ ProcKind.worker i = .worker j) ∨ (who ≠ pid ∧ s.IsWorker who j) :=
      Master.isWorker_set
    rw [hw, hcurrent, h.owns, ProcKind.worker.injEq]
    split_ifs with hj
    · subst hj
      rw [hnone]
      simp [hi, eq_comm]
    · -- the new pid was nobody's
      have hno : s.current j ≠ some pid ∨ ¬ j < n := by
        by_contra hcon
        push Not at hcon
        exact Master.not_isWorker hfree ((h.owns pid j).mpr ⟨hcon.2, hcon.1⟩)
      constructor
      · rintro (⟨-, he⟩ | ⟨-, hold⟩)
        · exact absurd he.symm hj
        · exact hold
      · rintro ⟨hjn, hcur⟩
        refine .inr ⟨?_, hjn, hcur⟩
        rintro rfl
        exact hno.elim (fun hne => hne hcur) (fun hle => hle hjn)
  · have hhist := h.history j hj
    show Function.update s.started i (s.started i ++ [pid]) j = s.reaped j ++ _
    rw [hcurrent]
    rcases eq_or_ne j i with rfl | hne
    · rw [hnone, Option.toList_none, List.append_nil] at hhist
      rw [Function.update_self, if_pos rfl, hhist]
      rfl
    · rw [Function.update_of_ne hne, if_neg hne, hhist]

/-- The turn for a slot reaps its worker. -/
theorem Owned.reap (h : Owned n s) (hc : s.control = .polling i) (hi : i < n)
    (hne : s.worker i ≠ 0) :
    Owned n ((s.reap i (s.worker i)).setControl (.reaped i)) := by
  have hcur : s.current i = some (s.worker i) := by
    rw [Master.current, hc]
    exact if_neg hne
  have hown : s.IsWorker (s.worker i) i := (h.owns _ i).mpr ⟨hi, hcur⟩
  have hcurrent : ∀ j, ((s.reap i (s.worker i)).setControl (.reaped i)).current j =
      if j = i then none else s.current j := by
    intro j
    show MasterControl.override j (if s.worker j = 0 then none else some (s.worker j))
      (.reaped i) = _
    rw [Master.current, hc]
    rfl
  refine ⟨fun who j => ?_, fun j hj => ?_, hi⟩
  · have hw : ((s.reap i (s.worker i)).setControl (.reaped i)).IsWorker who j ↔
        who ≠ s.worker i ∧ s.IsWorker who j := Master.isWorker_remove
    rw [hw, hcurrent, h.owns]
    split_ifs with hj
    · subst hj
      rw [hcur, Option.some.injEq]
      exact iff_of_false (fun hf => hf.1 hf.2.2.symm) (fun hf => nomatch hf.2)
    · refine and_iff_right_of_imp ?_
      rintro hjc rfl
      exact hj (((h.owns _ j).mpr hjc).unique hown)
  · have hhist := h.history j hj
    show s.started j = Function.update s.reaped i (s.reaped i ++ [s.worker i]) j ++ _
    rw [hcurrent]
    rcases eq_or_ne j i with rfl | hne
    · rw [hcur] at hhist
      rw [Function.update_self, if_pos rfl, hhist, Option.toList_none, List.append_nil]
      rfl
    · rw [Function.update_of_ne hne, if_neg hne, hhist]

/-! ### Every move keeps it -/

theorem Master.get_zero_set (h0 : s.procs.get 0 = none) (hpid : pid ≠ 0) (proc : Process) :
    (s.procs.set pid proc).get 0 = none :=
  (Table.get_set_of_ne hpid.symm).trans h0

theorem Master.get_zero_erase (h0 : s.procs.get 0 = none) (pid : Pid) :
    (s.procs.erase pid).get 0 = none := by
  rcases eq_or_ne 0 pid with rfl | hne
  · exact Table.get_erase_self
  · exact (Table.get_erase_of_ne hne).trans h0

theorem MainMoves.get_zero (h0 : s.procs.get 0 = none) (hm : MainMoves n fork s s') :
    s'.procs.get 0 = none := by
  cases hm with
  | start _ _ _ hpos _ => exact Master.get_zero_set h0 (Nat.ne_of_gt hpos) _
  | restart _ _ hpos _ => exact Master.get_zero_set h0 (Nat.ne_of_gt hpos) _
  | reap _ _ _ _ => exact Master.get_zero_erase h0 _
  | reapOther _ _ _ _ => exact Master.get_zero_erase h0 _
  | startFails _ _ _ => exact h0
  | started _ _ => exact h0
  | enter _ => exact h0
  | pass _ _ => exact h0
  | finish _ _ => exact h0
  | runs _ _ _ => exact h0
  | noChild _ _ _ => exact h0
  | passed _ _ => exact h0
  | restartFails _ _ => exact h0
  | reenter _ => exact h0

/-- No process has the pid 0. -/
theorem MasterMoves.get_zero (h0 : s.procs.get 0 = none) (hm : MasterMoves n s e s') :
    s'.procs.get 0 = none := by
  cases hm with
  | main _ hm => exact hm.get_zero h0
  | sigusr1 _ _ => exact h0
  | kill _ _ hw => exact (Table.get_modify_of_ne hw.symm).trans h0
  | killGroup _ _ _ => exact congrArg (Option.map _) h0
  | handled _ _ => exact h0
  | die hp =>
      refine Master.get_zero_set h0 ?_ _
      rintro rfl
      rw [h0] at hp
      cases hp
  | appear hpos _ => exact Master.get_zero_set h0 (Nat.ne_of_gt hpos) _
  | vanish _ _ => exact Master.get_zero_erase h0 _

theorem Owned.main (h : Owned n s) (h0 : s.procs.get 0 = none) (hm : MainMoves n fork s s')
    (ha : s'.control.active = true) : Owned n s' := by
  have hk := h.knows
  cases hm with
  | @start i pid hc hi _ _ hfree =>
      rw [hc] at hk
      refine h.forkFor hi ?_ hfree (fun _ => if_pos rfl) (fun j x hj => ?_) ⟨hi, hk⟩
      · rw [Master.current, hc, hk i (Nat.le_refl i)]
        rfl
      · rw [hc]
        exact if_neg hj
  | @startFails i hc _ _ =>
      rw [hc] at hk
      exact h.goto (fun _ _ => by rw [hc]; rfl) fun j hj => hk j (Nat.le_of_succ_le hj)
  | started hc _ => exact h.goto (fun _ _ => by rw [hc]; rfl) trivial
  | @enter i pid hc =>
      rw [hc] at hk
      refine h.store (fun _ => by rw [hc]; exact if_pos rfl)
        (fun j x hj => by rw [hc]; exact if_neg hj) (fun _ _ => rfl) hk.1 h0 fun j hj => ?_
      rw [Function.update_of_ne (Nat.ne_of_gt hj)]
      exact hk.2 j (Nat.le_of_succ_le hj)
  | pass hc _ => exact h.goto (fun _ _ => by rw [hc]; rfl) trivial
  | finish _ _ => cases ha
  | runs hc _ _ => exact h.goto (fun _ _ => by rw [hc]; rfl) trivial
  | reap hc hi hw _ => exact h.reap hc hi hw
  | reapOther _ _ _ _ => cases ha
  | noChild _ _ _ => cases ha
  | passed hc _ => exact h.goto (fun _ _ => by rw [hc]; rfl) trivial
  | @restart i pid hc _ _ hfree =>
      rw [hc] at hk
      refine h.forkFor hk ?_ hfree (fun _ => if_pos rfl) (fun j x hj => ?_) hk
      · rw [Master.current, hc]
        exact if_pos rfl
      · rw [hc]
        exact (if_neg hj).trans (if_neg hj).symm
  | restartFails _ _ => cases ha
  | @reenter i pid hc =>
      rw [hc] at hk
      exact h.store (fun _ => by rw [hc]; exact if_pos rfl)
        (fun j x hj => by rw [hc]; exact if_neg hj) (fun _ _ => rfl) hk h0 trivial

/-- **Ownership is kept by every move**, as long as the master is in its
loops. -/
theorem Owned.moves (h : Owned n s) (h0 : s.procs.get 0 = none) (hm : MasterMoves n s e s')
    (ha : s'.control.active = true) : Owned n s' := by
  have hk := h.knows
  cases hm with
  | main _ hm => exact h.main h0 hm ha
  | sigusr1 _ _ => exact h.of_eq (fun _ _ => Iff.rfl) (fun _ => rfl) rfl rfl hk
  | kill _ _ _ => exact h.of_eq (fun _ _ => Master.isWorker_term) (fun _ => rfl) rfl rfl hk
  | killGroup _ _ _ => cases ha
  | handled _ _ => exact h.of_eq (fun _ _ => Iff.rfl) (fun _ => rfl) rfl rfl hk
  | die hp =>
      exact h.of_eq (fun _ _ => Master.isWorker_keep hp rfl) (fun _ => rfl) rfl rfl hk
  | appear _ hfree =>
      refine h.of_eq (fun who j => ?_) (fun _ => rfl) rfl rfl hk
      rw [Master.isWorker_set]
      constructor
      · rintro (⟨-, he⟩ | ⟨-, hw⟩)
        · cases he
        · exact hw
      · intro hw
        refine .inr ⟨?_, hw⟩
        rintro rfl
        exact Master.not_isWorker hfree hw
  | vanish hp hkind =>
      refine h.of_eq (fun who j => ?_) (fun _ => rfl) rfl rfl hk
      rw [Master.isWorker_remove]
      refine and_iff_right_of_imp ?_
      rintro ⟨proc, hproc, hworker⟩ rfl
      rw [hp, Option.some.injEq] at hproc
      rw [← hproc, hkind] at hworker
      cases hworker

theorem MainMoves.active (hm : MainMoves n fork s s') : s.control.active = true := by
  cases hm with
  | start hc _ _ _ _ => rw [hc]; rfl
  | startFails hc _ _ => rw [hc]; rfl
  | started hc _ => rw [hc]; rfl
  | enter hc => rw [hc]; rfl
  | pass hc _ => rw [hc]; rfl
  | finish hc _ => rw [hc]; rfl
  | runs hc _ _ => rw [hc]; rfl
  | reap hc _ _ _ => rw [hc]; rfl
  | reapOther hc _ _ _ => rw [hc]; rfl
  | noChild hc _ _ => rw [hc]; rfl
  | passed hc _ => rw [hc]; rfl
  | restart hc _ _ _ => rw [hc]; rfl
  | restartFails hc _ => rw [hc]; rfl
  | reenter hc => rw [hc]; rfl

/-- A master that has left its loops does not come back. -/
theorem MasterMoves.active (hm : MasterMoves n s e s') (ha : s'.control.active = true) :
    s.control.active = true := by
  cases hm with
  | main _ hm => exact hm.active
  | sigusr1 _ _ => exact ha
  | kill _ _ _ => exact ha
  | killGroup _ _ _ => cases ha
  | handled _ _ => exact ha
  | die _ => exact ha
  | appear _ _ => exact ha
  | vanish _ _ => exact ha

/-- The daemon has no worker yet. -/
theorem Owned.init : Owned n (masterInit self) := by
  refine ⟨fun pid j => iff_of_false ?_ ?_, fun j _ => rfl, fun j _ => rfl⟩
  · rintro ⟨proc, hp, hk⟩
    obtain ⟨-, rfl⟩ | ⟨-, hno⟩ := Table.get_set_eq_some.mp hp
    · cases hk
    · cases hno
  · rintro ⟨-, hcur⟩
    cases hcur

theorem masterInit_get_zero (hself : 0 < self) : (masterInit self).procs.get 0 = none :=
  (Table.get_set_of_ne (Nat.ne_of_lt hself)).trans rfl

/-- **Ownership holds in every run**, while the master is in its loops. -/
theorem owned_of_runs {es : List MasterEvent} (hself : 0 < self)
    (h : Runs (masterStep n) (masterInit self) es s) :
    s.procs.get 0 = none ∧ (s.control.active = true → Owned n s) := by
  refine h.invariant (fun s => s.procs.get 0 = none ∧ (s.control.active = true → Owned n s))
    ⟨masterInit_get_zero hself, fun _ => Owned.init⟩ fun e s hs => ?_
  apply (masterStep_moves hs.1 n e).mono
  intro _ s' hm
  exact ⟨hm.get_zero hs.1, fun ha => (hs.2 (hm.active ha)).moves hs.1 hm ha⟩

/-! ### Runs in which every slot gets a worker -/

/-- The supervising loop is at the test of the flag, or between two turns. -/
def MasterControl.settled : MasterControl → Bool
  | .testing => true
  | .polling _ => true
  | .starting _ => false
  | .forked _ _ => false
  | .reaped _ => false
  | .reforked _ _ => false
  | .ended => false
  | .exited _ => false
  | .terminated => false

/-- The slots that have had their first turn are those below. -/
def MasterControl.filled (n : Nat) : MasterControl → Nat
  | .starting i => i
  | .forked i _ => i
  | .testing => n
  | .polling _ => n
  | .reaped _ => n
  | .reforked _ _ => n
  | .ended => n
  | .exited _ => n
  | .terminated => n

/-- The slot whose first `fork` comes next. -/
def MasterControl.first : MasterControl → Option Nat
  | .starting i => some i
  | .forked _ _ => none
  | .testing => none
  | .polling _ => none
  | .reaped _ => none
  | .reforked _ _ => none
  | .ended => none
  | .exited _ => none
  | .terminated => none

/-- The first `fork` fails for the slots in `F` and for no other, and SIGUSR1
comes in the supervising loop, between two turns. -/
def startsBut (n : Nat) (F : Finset Nat) : MasterEvent → Master → Bool
  | .main fork _, s => s.control.first.all fun i => decide (i < n → (fork = none ↔ i ∈ F))
  | .sigusr1, s => s.control.settled
  | .handler, _ => true
  | .die _, _ => true
  | .appear _, _ => true
  | .vanish _, _ => true

/-- SIGTERM went to workers only. -/
def Master.Targets (s : Master) : Prop :=
  ∀ pid proc, s.procs.get pid = some proc → proc.termed = true → proc.kind.isWorker = true

/-- Every slot has had a worker, and every SIGTERM went to a worker. -/
structure Staffed (n : Nat) (s : Master) : Prop where
  zero : s.procs.get 0 = none
  owned : s.control.active = true → Owned n s
  filled : s.control.active = true → ∀ j < s.control.filled n, s.worker j ≠ 0
  no_exit : s.control ≠ .exited .waitpidFailed
  handler : s.handler ≠ none → s.control.settled = true
  targets : s.Targets

theorem MasterControl.active_of_settled (hc : c.settled = true) : c.active = true := by
  cases c <;> first | rfl | cases hc

/-- Between two turns the master has the workers that are in the table. -/
theorem Master.current_settled (hc : s.control.settled = true) (i : Nat) :
    s.current i = if s.worker i = 0 then none else some (s.worker i) := by
  rw [Master.current]
  cases hs : s.control <;> rw [hs] at hc <;> first | rfl | cases hc

theorem Owned.isWorker (h : Owned n s) (hc : s.control.settled = true) (hi : i < n)
    (hne : s.worker i ≠ 0) : s.IsWorker (s.worker i) i := by
  refine (h.owns _ i).mpr ⟨hi, ?_⟩
  rw [Master.current_settled hc, if_neg hne]

/-- Between two turns the table holds the worker of every slot. -/
theorem Staffed.current (h : Staffed n s) (hc : s.control.settled = true) (hi : i < n) :
    s.worker i ≠ 0 ∧ s.current i = some (s.worker i) := by
  have hfill := h.filled (MasterControl.active_of_settled hc)
  have hne : s.worker i ≠ 0 := by
    cases hs : s.control <;> rw [hs] at hc hfill <;> first | exact hfill i hi | cases hc
  rw [Master.current_settled hc]
  exact ⟨hne, if_neg hne⟩

theorem Staffed.isWorker (h : Staffed n s) (hc : s.control.settled = true) (hi : i < n) :
    s.IsWorker (s.worker i) i :=
  (h.owned (MasterControl.active_of_settled hc)).isWorker hc hi (h.current hc hi).1

/-- A process whose SIGTERM is not news. -/
theorem Master.Targets.set (h : s.Targets) (hp : proc.termed = true → proc.kind.isWorker = true) :
    ∀ who proc', (s.procs.set pid proc).get who = some proc' → proc'.termed = true →
      proc'.kind.isWorker = true := by
  intro who proc' hget ht
  obtain ⟨rfl, rfl⟩ | ⟨-, hold⟩ := Table.get_set_eq_some.mp hget
  · exact hp ht
  · exact h who proc' hold ht

theorem Master.Targets.erase (h : s.Targets) :
    ∀ who proc', (s.procs.erase pid).get who = some proc' → proc'.termed = true →
      proc'.kind.isWorker = true :=
  fun who proc' hget ht => h who proc' (Table.get_erase_eq_some.mp hget).2 ht

/-- The handler signals the worker of a slot. -/
theorem Master.Targets.term (h : s.Targets) (hw : s.IsWorker (s.worker j) j) :
    ∀ who proc, ((s.procs.modify (s.worker j) fun proc => { proc with termed := true }).get who) =
      some proc → proc.termed = true → proc.kind.isWorker = true := by
  intro who proc hget ht
  by_cases hwho : who = s.worker j
  · obtain ⟨old, hold, hk⟩ := hw
    rw [hwho, Table.get_modify_self, hold, Option.map_some, Option.some.injEq] at hget
    rw [← hget]
    show old.kind.isWorker = true
    rw [hk]
    rfl
  · rw [Table.get_modify_of_ne hwho] at hget
    exact h who proc hget ht

theorem Staffed.main (h : Staffed n s) (hh : s.handler = none)
    (hC : startsBut n ∅ (.main fork who) s = true) (hm : MainMoves n fork s s') : Staffed n s' := by
  have hzero := hm.get_zero h.zero
  have howned : s'.control.active = true → Owned n s' :=
    fun ha => (h.owned hm.active).main h.zero hm ha
  have hfill := h.filled hm.active
  have hnone : ∀ c : Master, c.handler = s.handler → c.handler ≠ none → c.control.settled = true :=
    fun c he hne => absurd (he.trans hh) hne
  have hsettled : ∀ {i}, s.control = .polling i → s.control.settled = true :=
    fun hc => by rw [hc]; rfl
  cases hm with
  | @start i pid hc hi _ _ _ =>
      rw [hc] at hfill
      exact ⟨hzero, howned, fun _ => hfill, nofun, hnone _ rfl, h.targets.set nofun⟩
  | @startFails i hc hi hf =>
      -- the condition excludes it
      rw [startsBut, hc, hf] at hC
      have hC : n ≤ i := by simpa [MasterControl.first] using hC
      exact absurd hi (Nat.not_lt_of_le hC)
  | @started i hc hi =>
      rw [hc] at hfill
      exact ⟨hzero, howned, fun _ j hj => hfill j (Nat.lt_of_lt_of_le hj hi), nofun,
        hnone _ rfl, h.targets⟩
  | @enter i pid hc =>
      have ho := h.owned (by rw [hc]; rfl)
      have hk := ho.knows
      rw [hc] at hfill hk
      have hpid : pid ≠ 0 := ho.ne_zero h.zero hk.1 (by rw [Master.current, hc]; exact if_pos rfl)
      refine ⟨hzero, howned, fun _ j hj => ?_, nofun, hnone _ rfl, h.targets⟩
      show Function.update s.worker i pid j ≠ 0
      rcases Nat.lt_succ_iff_lt_or_eq.mp hj with hlt | rfl
      · rw [Function.update_of_ne (Nat.ne_of_lt hlt)]
        exact hfill j hlt
      · rwa [Function.update_self]
  | pass hc _ =>
      rw [hc] at hfill
      exact ⟨hzero, howned, fun _ => hfill, nofun, hnone _ rfl, h.targets⟩
  | finish hc _ => exact ⟨hzero, howned, nofun, nofun, hnone _ rfl, h.targets⟩
  | runs hc _ _ =>
      rw [hc] at hfill
      exact ⟨hzero, howned, fun _ => hfill, nofun, hnone _ rfl, h.targets⟩
  | reap hc _ _ _ =>
      rw [hc] at hfill
      exact ⟨hzero, howned, fun _ => hfill, nofun, hnone _ rfl, h.targets.erase⟩
  | reapOther hc hi hw _ => exact absurd hw (h.current (hsettled hc) hi).1
  | noChild hc hi hw =>
      rcases hw with ⟨hw, -⟩ | ⟨-, hw⟩
      · exact absurd hw (h.current (hsettled hc) hi).1
      · rw [(h.isWorker (hsettled hc) hi).isChild] at hw
        cases hw
  | passed hc _ =>
      rw [hc] at hfill
      exact ⟨hzero, howned, fun _ => hfill, nofun, hnone _ rfl, h.targets⟩
  | restart hc _ _ _ =>
      rw [hc] at hfill
      exact ⟨hzero, howned, fun _ => hfill, nofun, hnone _ rfl, h.targets.set nofun⟩
  | restartFails hc _ => exact ⟨hzero, howned, nofun, nofun, hnone _ rfl, h.targets⟩
  | @reenter i pid hc =>
      have ho := h.owned (by rw [hc]; rfl)
      have hk := ho.knows
      rw [hc] at hfill hk
      have hpid : pid ≠ 0 := ho.ne_zero h.zero hk (by rw [Master.current, hc]; exact if_pos rfl)
      refine ⟨hzero, howned, fun _ j hj => ?_, nofun, hnone _ rfl, h.targets⟩
      show Function.update s.worker i pid j ≠ 0
      rcases eq_or_ne j i with rfl | hne
      · rwa [Function.update_self]
      · rw [Function.update_of_ne hne]
        exact hfill j hj

theorem Staffed.moves (h : Staffed n s) (hC : startsBut n ∅ e s = true)
    (hm : MasterMoves n s e s') : Staffed n s' := by
  have hzero := hm.get_zero h.zero
  have howned : s'.control.active = true → Owned n s' :=
    fun ha => (h.owned (hm.active ha)).moves h.zero hm ha
  cases hm with
  | main hh hm => exact h.main hh hC hm
  | sigusr1 _ _ => exact ⟨hzero, howned, h.filled, h.no_exit, fun _ => hC, h.targets⟩
  | @kill j hh hj hw =>
      have hc := h.handler (by rw [hh]; nofun)
      exact ⟨hzero, howned, h.filled, h.no_exit, fun _ => hc, h.targets.term (h.isWorker hc hj)⟩
  | @killGroup j hh hj hw =>
      exact absurd hw (h.current (h.handler (by rw [hh]; nofun)) hj).1
  | handled _ _ => exact ⟨hzero, howned, h.filled, h.no_exit, nofun, h.targets⟩
  | @die pid proc hp =>
      refine ⟨hzero, howned, h.filled, h.no_exit, h.handler, h.targets.set ?_⟩
      exact h.targets pid proc hp
  | appear _ _ => exact ⟨hzero, howned, h.filled, h.no_exit, h.handler, h.targets.set nofun⟩
  | vanish _ _ => exact ⟨hzero, howned, h.filled, h.no_exit, h.handler, h.targets.erase⟩

theorem Staffed.init (hself : 0 < self) : Staffed n (masterInit self) where
  zero := masterInit_get_zero hself
  owned _ := Owned.init
  filled _ j hj := absurd hj (Nat.not_lt_zero j)
  no_exit := nofun
  handler hh := absurd rfl hh
  targets pid proc hp ht := by
    obtain ⟨-, rfl⟩ | ⟨-, hno⟩ := Table.get_set_eq_some.mp hp
    · cases ht
    · cases hno

theorem staffed_of_runs {es : List MasterEvent} (hself : 0 < self)
    (h : Runs (Under (startsBut n ∅) (masterStep n)) (masterInit self) es s) : Staffed n s := by
  refine h.invariant (Staffed n) (Staffed.init hself) fun e s hs => ?_
  rw [safe_under]
  intro hC
  exact (masterStep_moves hs.zero n e).mono fun _ s' hm => hs.moves hC hm

/-! ### The supervision invariant -/

/-- Every `fork` succeeds, and no signal comes. -/
def calm : MasterEvent → Master → Bool
  | .main fork _, _ => fork.isSome
  | .sigusr1, _ => false
  | .handler, _ => true
  | .die _, _ => true
  | .appear _, _ => true
  | .vanish _, _ => true

/-- The table of `n` slots is right: it holds the pids of distinct children
that are not reaped, every worker is in its slot and in no other, and whatever
was reaped for a slot was replaced once. -/
structure TableRight (n : Nat) (s : Master) : Prop where
  child : ∀ i < n, s.IsWorker (s.worker i) i
  distinct : ∀ i < n, ∀ j < n, s.worker i = s.worker j → i = j
  one_slot : ∀ pid k, s.IsWorker pid k → k < n ∧ ∀ i < n, s.worker i = pid ↔ i = k
  replaced : ∀ i < n, s.started i = s.reaped i ++ [s.worker i]

theorem Staffed.tableRight (h : Staffed n s) (hc : s.control.settled = true) : TableRight n s where
  child i hi := h.isWorker hc hi
  distinct i hi j hj he := (h.isWorker hc hi).unique (he ▸ h.isWorker hc hj)
  one_slot pid k hw := by
    obtain ⟨hk, hcur⟩ := ((h.owned (MasterControl.active_of_settled hc)).owns pid k).mp hw
    rw [(h.current hc hk).2, Option.some.injEq] at hcur
    refine ⟨hk, fun i hi => ⟨?_, ?_⟩⟩
    · rintro rfl
      exact (h.isWorker hc hi).unique hw
    · rintro rfl
      exact hcur
  replaced i hi := by
    rw [(h.owned (MasterControl.active_of_settled hc)).history i hi, (h.current hc hi).2]
    rfl

/-- With no failed `fork` and no signal the master stays in its loops. -/
structure Calm (n : Nat) (s : Master) : Prop extends Staffed n s where
  active : s.control.active = true
  flag : s.serverRunningFlag = true
  quiet : s.handler = none

theorem startsBut_of_calm (hC : calm e s = true) : startsBut n ∅ e s = true := by
  cases e with
  | main fork who =>
      have hf : fork ≠ none := Option.isSome_iff_ne_none.mp hC
      simp [startsBut, hf]
  | sigusr1 => cases hC
  | handler => rfl
  | die pid => rfl
  | appear pid => rfl
  | vanish pid => rfl

theorem Calm.moves (h : Calm n s) (hC : calm e s = true) (hm : MasterMoves n s e s') :
    Calm n s' := by
  have hs := h.toStaffed.moves (startsBut_of_calm hC) hm
  cases hm with
  | main hh hm =>
      have hex := hs.no_exit
      cases hm with
      | start _ _ _ _ _ => exact ⟨hs, rfl, h.flag, hh⟩
      | startFails _ _ _ => exact ⟨hs, rfl, h.flag, hh⟩
      | started _ _ => exact ⟨hs, rfl, h.flag, hh⟩
      | enter _ => exact ⟨hs, rfl, h.flag, hh⟩
      | pass _ _ => exact ⟨hs, rfl, h.flag, hh⟩
      | finish _ hflag =>
          rw [h.flag] at hflag
          cases hflag
      | runs _ _ _ => exact ⟨hs, rfl, h.flag, hh⟩
      | reap _ _ _ _ => exact ⟨hs, rfl, h.flag, hh⟩
      | reapOther _ _ _ _ => exact absurd rfl hex
      | noChild _ _ _ => exact absurd rfl hex
      | passed _ _ => exact ⟨hs, rfl, h.flag, hh⟩
      | restart _ _ _ _ => exact ⟨hs, rfl, h.flag, hh⟩
      | restartFails _ hf =>
          rw [hf] at hC
          cases hC
      | reenter _ => exact ⟨hs, rfl, h.flag, hh⟩
  | sigusr1 _ _ => cases hC
  | kill hh _ _ =>
      rw [h.quiet] at hh
      cases hh
  | killGroup hh _ _ =>
      rw [h.quiet] at hh
      cases hh
  | handled hh _ =>
      rw [h.quiet] at hh
      cases hh
  | die _ => exact ⟨hs, h.active, h.flag, h.quiet⟩
  | appear _ _ => exact ⟨hs, h.active, h.flag, h.quiet⟩
  | vanish _ _ => exact ⟨hs, h.active, h.flag, h.quiet⟩

/-- **Supervision.**  Whatever workers die, in any order, and whichever
processes get their pids: after every turn the table is right, and the master
never exits. -/
theorem supervision_invariant {es : List MasterEvent} (hself : 0 < self)
    (h : Runs (Under calm (masterStep n)) (masterInit self) es s) :
    (∀ cause, s.control ≠ .exited cause) ∧ (s.control.settled = true → TableRight n s) := by
  have hcalm : Calm n s := by
    refine h.invariant (Calm n) ⟨Staffed.init hself, rfl, rfl, rfl⟩ fun e s hs => ?_
    rw [safe_under]
    intro hC
    exact (masterStep_moves hs.zero n e).mono fun _ s' hm => hs.moves hC hm
  refine ⟨fun cause hc => ?_, hcalm.tableRight⟩
  have ha := hcalm.active
  rw [hc] at ha
  cases ha

/-- One worker dies and its pid goes to somebody else before the next `fork`,
the other one dies and its pid goes to its successor. -/
def twoDeaths : List MasterEvent :=
  [.main (some 2) 0, .main (some 1) 0, .main (some 3) 0, .main (some 1) 0, .main (some 1) 0,
    .die 2, .main (some 1) 0, .main (some 1) 0, .appear 2, .main (some 4) 0, .main (some 1) 0,
    .die 3, .main (some 1) 0, .main (some 3) 0, .main (some 1) 0]

theorem supervision_invariant_two :
    ∃ s, Runs (Under calm (masterStep 2)) (masterInit 1) twoDeaths s ∧
      s.started 0 = [2, 4] ∧ s.started 1 = [3, 3] ∧ s.control = .polling 2 ∧
      (∀ cause, s.control ≠ .exited cause) ∧ (s.control.settled = true → TableRight 2 s) := by
  have hrun : Runs (Under calm (masterStep 2)) (masterInit 1) twoDeaths _ := Runs.of_exec rfl
  exact ⟨_, hrun, rfl, rfl, rfl, supervision_invariant Nat.one_pos hrun⟩

end DmfServer
