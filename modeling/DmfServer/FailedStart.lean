/-
DmfServer/FailedStart.lean

Slots whose first `fork` fails.

Such a slot keeps the value 0.  Its turn in the supervising loop then waits
for any child and takes the worker of another slot for an error, and its turn
in the handler signals the whole group, the master too.

`failed_start_iff`: with the first `fork` failing for the slots in `F`, the
supervision is as it should be in all runs if and only if `F` is empty.  For
one direction, `startedBut` is a run up to the supervising loop for any `F`,
and a signal there kills the master.  The other one is about single runs:
whatever forks failed, no harm comes of it in a run where a turn for a slot
without a worker finds some child and no dead one, and where no signal is
handled while there is such a slot (`Tended`).
-/
import DmfServer.MasterRuns
import Mathlib.Data.Finset.Max

namespace DmfServer

open Imperative Prog

variable {n i j : Nat} {s s' : Master} {e : MasterEvent} {pid self : Pid} {F : Finset Nat}

/-- The supervision and the handler are as they should be: a turn reaps what
was started for its slot, the master does not take a missing worker for an
error, the dead are replaced in their own slots, and SIGTERM goes to workers
only. -/
structure Supervised (n : Nat) (s : Master) : Prop where
  own : ∀ i < n, s.reaped i <+: s.started i
  no_exit : s.control ≠ .exited .waitpidFailed
  kept : s.control.settled = true → ∀ pid k, s.IsWorker pid k → k < n ∧ s.worker k = pid
  replaced : s.control.settled = true → ∀ i < n, s.started i ≠ [] →
    s.IsWorker (s.worker i) i ∧ s.started i = s.reaped i ++ [s.worker i]
  targets : ∀ pid proc, s.procs.get pid = some proc → proc.termed = true → proc.kind.isWorker = true

/-! ### Runs that do no harm -/

/-- The slot whose turn in the supervising loop comes next. -/
def MasterControl.turn : MasterControl → Option Nat
  | .polling i => some i
  | .starting _ => none
  | .forked _ _ => none
  | .testing => none
  | .reaped _ => none
  | .reforked _ _ => none
  | .ended => none
  | .exited _ => none
  | .terminated => none

/-- A turn for a slot without a worker finds some child and no dead one, and
SIGUSR1 comes in the supervising loop, between two turns, when all slots have
a worker. -/
def spared (n : Nat) : MasterEvent → Master → Bool
  | .main _ _, s => s.control.turn.all fun i => decide (i < n → s.worker i = 0 →
      (List.range s.procs.bound).any s.isChild = true ∧
        (List.range s.procs.bound).any s.isZombie = false)
  | .sigusr1, s => s.control.settled && (List.range n).all fun i => decide (s.worker i ≠ 0)
  | .handler, _ => true
  | .die _, _ => true
  | .appear _, _ => true
  | .vanish _, _ => true

/-- What holds although slots may be without a worker. -/
structure Tended (n : Nat) (s : Master) : Prop where
  own : ∀ i < n, s.reaped i <+: s.started i
  /-- for a slot without a worker none was started, but one that is in hand -/
  entered : ∀ j, s.worker j = 0 → s.started j = [] ∨ ∃ pid, s.control = .forked j pid
  held : ∀ i, s.control = .reaped i → s.worker i ≠ 0
  no_exit : s.control ≠ .exited .waitpidFailed
  handler : s.handler ≠ none → s.control.settled = true ∧ ∀ i < n, s.worker i ≠ 0
  targets : s.Targets

theorem Tended.init : Tended n (masterInit self) where
  own _ _ := List.prefix_refl _
  entered _ _ := .inl rfl
  held _ h := by cases h
  no_exit h := by cases h
  handler h := absurd rfl h
  targets pid proc hp ht := by
    obtain ⟨-, rfl⟩ | ⟨-, hno⟩ := Table.get_set_eq_some.mp hp
    · cases ht
    · cases hno

/-- What a turn for a slot without a worker finds. -/
theorem spared_turn {fork : Option Pid} {who : Pid} (hC : spared n (.main fork who) s = true)
    (hc : s.control = .polling i) (hi : i < n) (hw : s.worker i = 0) :
    (List.range s.procs.bound).any s.isChild = true ∧ ∀ pid, s.isZombie pid = false := by
  rw [spared, hc] at hC
  obtain ⟨hchild, hdead⟩ := of_decide_eq_true hC hi hw
  refine ⟨hchild, fun pid => ?_⟩
  by_contra hz
  rw [List.any_eq_false] at hdead
  obtain ⟨proc, hproc, -⟩ := (Option.any_eq_true _ _).mp (Bool.eq_true_of_not_eq_false hz)
  exact hdead pid (List.mem_range.mpr (Table.lt_bound hproc)) (Bool.eq_true_of_not_eq_false hz)

/-- No turn takes the master out of its loop by mistake. -/
theorem spared_no_exit {fork : Option Pid} {who : Pid}
    (ho : s.control.active = true → Owned n s) (hC : spared n (.main fork who) s = true)
    (hm : MainMoves n fork s s') : s'.control ≠ .exited .waitpidFailed := by
  intro he
  cases hm with
  | reapOther hc hi hw hz =>
      -- there is no dead child to be taken for the slot's
      rw [(spared_turn hC hc hi hw).2] at hz
      cases hz
  | @noChild i hc hi hw =>
      rcases hw with ⟨hw, hno⟩ | ⟨hw, hno⟩
      · rw [(spared_turn hC hc hi hw).1] at hno
        cases hno
      · have hworker := (ho (by rw [hc]; rfl)).isWorker (by rw [hc]; rfl) hi hw
        rw [hworker.isChild] at hno
        cases hno
  | start _ _ _ _ _ => cases he
  | startFails _ _ _ => cases he
  | started _ _ => cases he
  | enter _ => cases he
  | pass _ _ => cases he
  | finish _ _ => cases he
  | runs _ _ _ => cases he
  | reap _ _ _ _ => cases he
  | passed _ _ => cases he
  | restart _ _ _ _ => cases he
  | restartFails _ _ => cases he
  | reenter _ => cases he

/-- A turn reaps what was started for its slot. -/
theorem own_moves (hown : ∀ i < n, s.reaped i <+: s.started i) (hm : MasterMoves n s e s')
    (ho : s'.control.active = true → Owned n s') (hex : s'.control ≠ .exited .waitpidFailed) :
    ∀ i < n, s'.reaped i <+: s'.started i := by
  by_cases ha : s'.control.active = true
  · -- in the loops a slot's last worker is not reaped yet
    intro i hi
    rw [(ho ha).history i hi]
    exact List.prefix_append _ _
  · -- a move out of the loops reaps nothing
    cases hm with
    | main _ hm =>
        cases hm with
        | finish _ _ => exact hown
        | restartFails _ _ => exact hown
        | reapOther _ _ _ _ => exact absurd rfl hex
        | noChild _ _ _ => exact hown
        | start _ _ _ _ _ => exact absurd rfl ha
        | startFails _ _ _ => exact absurd rfl ha
        | started _ _ => exact absurd rfl ha
        | enter _ => exact absurd rfl ha
        | pass _ _ => exact absurd rfl ha
        | runs _ _ _ => exact absurd rfl ha
        | reap _ _ _ _ => exact absurd rfl ha
        | passed _ _ => exact absurd rfl ha
        | restart _ _ _ _ => exact absurd rfl ha
        | reenter _ => exact absurd rfl ha
    | sigusr1 _ _ => exact hown
    | kill _ _ _ => exact hown
    | killGroup _ _ _ => exact hown
    | handled _ _ => exact hown
    | die _ => exact hown
    | appear _ _ => exact hown
    | vanish _ _ => exact hown

/-- With no worker in hand none was started for a slot that is without. -/
theorem Tended.idle {c : MasterControl} (h : Tended n s) (hc : s.control = c)
    (hidle : ∀ j pid, c ≠ .forked j pid) (j : Nat) (hj : s.worker j = 0) : s.started j = [] := by
  refine (h.entered j hj).resolve_right ?_
  rintro ⟨pid, he⟩
  exact hidle j pid (hc.symm.trans he)

/-- The main program goes on, with no worker in hand. -/
theorem Tended.goto {c c' : MasterControl} (h : Tended n s) (hh : s.handler = none)
    (hc : s.control = c) (hidle : ∀ j pid, c ≠ .forked j pid) (hreaped : ∀ i, c' ≠ .reaped i)
    (hex : c' ≠ .exited .waitpidFailed) : Tended n (s.setControl c') where
  own := h.own
  entered j hj := .inl (h.idle hc hidle j hj)
  held i hr := absurd hr (hreaped i)
  no_exit := hex
  handler hne := absurd hh hne
  targets := h.targets

/-- A worker is forked for a slot, which is in hand now or has had one. -/
theorem Tended.forkFor {c : MasterControl} (h : Tended n s) (hh : s.handler = none)
    (hidle : ∀ j pid, s.control ≠ .forked j pid) (hc : c = .forked i pid ∨ s.worker i ≠ 0)
    (hreaped : ∀ j, c ≠ .reaped j) (hex : c ≠ .exited .waitpidFailed) :
    Tended n ((s.forkFor i pid).setControl c) where
  own j hj := by
    show s.reaped j <+: Function.update s.started i (s.started i ++ [pid]) j
    rcases eq_or_ne j i with rfl | hne
    · rw [Function.update_self]
      exact (h.own j hj).trans (List.prefix_append _ _)
    · rw [Function.update_of_ne hne]
      exact h.own j hj
  entered j hj := by
    show Function.update s.started i (s.started i ++ [pid]) j = [] ∨ ∃ pid, c = .forked j pid
    rcases eq_or_ne j i with rfl | hne
    · exact .inr ⟨pid, hc.resolve_right fun hw => hw hj⟩
    · rw [Function.update_of_ne hne]
      exact .inl (h.idle rfl hidle j hj)
  held j hr := absurd hr (hreaped j)
  no_exit := hex
  handler hne := absurd hh hne
  targets := h.targets.set nofun

/-- The worker in hand is stored into its slot. -/
theorem Tended.store {c : MasterControl} (h : Tended n s) (hh : s.handler = none) (hpid : pid ≠ 0)
    (hhand : ∀ j who, s.control = .forked j who → j = i) (hreaped : ∀ j, c ≠ .reaped j)
    (hex : c ≠ .exited .waitpidFailed) : Tended n ((s.setWorker i pid).setControl c) where
  own := h.own
  entered j hj := by
    replace hj : Function.update s.worker i pid j = 0 := hj
    have hne : j ≠ i := by
      rintro rfl
      rw [Function.update_self] at hj
      exact hpid hj
    rw [Function.update_of_ne hne] at hj
    -- another slot without a worker has none in hand
    refine .inl ((h.entered j hj).resolve_right ?_)
    rintro ⟨who, he⟩
    exact hne (hhand j who he)
  held j hr := absurd hr (hreaped j)
  no_exit := hex
  handler hne := absurd hh hne
  targets := h.targets

theorem Tended.main {fork : Option Pid} (h : Tended n s) (h0 : s.procs.get 0 = none)
    (ho : s.control.active = true → Owned n s) (hh : s.handler = none)
    (hex : s'.control ≠ .exited .waitpidFailed) (hown : ∀ i < n, s'.reaped i <+: s'.started i)
    (hm : MainMoves n fork s s') : Tended n s' := by
  cases hm with
  | start hc _ _ _ _ =>
      exact h.forkFor hh (by rw [hc]; exact fun _ _ => MasterControl.noConfusion) (.inl rfl)
        (fun _ => MasterControl.noConfusion) hex
  | startFails hc _ _ =>
      exact h.goto hh hc (fun _ _ => MasterControl.noConfusion)
        (fun _ => MasterControl.noConfusion) hex
  | started hc _ =>
      exact h.goto hh hc (fun _ _ => MasterControl.noConfusion)
        (fun _ => MasterControl.noConfusion) hex
  | @enter i pid hc =>
      have ho := ho (by rw [hc]; rfl)
      have hk := ho.knows
      rw [hc] at hk
      refine h.store hh (ho.ne_zero h0 hk.1 ?_) (fun j who he => ?_)
        (fun _ => MasterControl.noConfusion) hex
      · rw [Master.current, hc]
        exact if_pos rfl
      · exact (MasterControl.forked.inj (he.symm.trans hc)).1
  | pass hc _ =>
      exact h.goto hh hc (fun _ _ => MasterControl.noConfusion)
        (fun _ => MasterControl.noConfusion) hex
  | finish hc _ =>
      exact h.goto hh hc (fun _ _ => MasterControl.noConfusion)
        (fun _ => MasterControl.noConfusion) hex
  | runs hc _ _ =>
      exact h.goto hh hc (fun _ _ => MasterControl.noConfusion)
        (fun _ => MasterControl.noConfusion) hex
  | @reap i hc _ hw _ =>
      refine ⟨hown, fun j hj => .inl (h.idle hc (fun _ _ => MasterControl.noConfusion) j hj),
        fun j hr => ?_, hex, fun hne => absurd hh hne, h.targets.erase⟩
      obtain rfl := MasterControl.reaped.inj hr
      exact hw
  | reapOther _ _ _ _ => exact absurd rfl hex
  | noChild _ _ _ => exact absurd rfl hex
  | passed hc _ =>
      exact h.goto hh hc (fun _ _ => MasterControl.noConfusion)
        (fun _ => MasterControl.noConfusion) hex
  | @restart i pid hc _ _ _ =>
      exact h.forkFor hh (by rw [hc]; exact fun _ _ => MasterControl.noConfusion)
        (.inr (h.held i hc)) (fun _ => MasterControl.noConfusion) hex
  | restartFails hc _ =>
      exact h.goto hh hc (fun _ _ => MasterControl.noConfusion)
        (fun _ => MasterControl.noConfusion) hex
  | @reenter i pid hc =>
      have ho := ho (by rw [hc]; rfl)
      have hk := ho.knows
      rw [hc] at hk
      refine h.store hh (ho.ne_zero h0 hk ?_) (fun j who he => ?_)
        (fun _ => MasterControl.noConfusion) hex
      · rw [Master.current, hc]
        exact if_pos rfl
      · rw [hc] at he
        cases he

theorem Tended.moves (h : Tended n s) (h0 : s.procs.get 0 = none)
    (ho : s.control.active = true → Owned n s) (ho' : s'.control.active = true → Owned n s')
    (hC : spared n e s = true) (hm : MasterMoves n s e s') : Tended n s' := by
  have hex : s'.control ≠ .exited .waitpidFailed := by
    cases hm with
    | main _ hm => exact spared_no_exit ho hC hm
    | sigusr1 _ _ => exact h.no_exit
    | kill _ _ _ => exact h.no_exit
    | killGroup _ _ _ => exact MasterControl.noConfusion
    | handled _ _ => exact h.no_exit
    | die _ => exact h.no_exit
    | appear _ _ => exact h.no_exit
    | vanish _ _ => exact h.no_exit
  have hown := own_moves h.own hm ho' hex
  cases hm with
  | main hh hm => exact h.main h0 ho hh hex hown hm
  | sigusr1 _ _ =>
      rw [spared, Bool.and_eq_true, List.all_eq_true] at hC
      refine ⟨hown, h.entered, h.held, hex, fun _ => ⟨hC.1, fun i hi => ?_⟩, h.targets⟩
      exact of_decide_eq_true (hC.2 i (List.mem_range.mpr hi))
  | @kill j hh hj hw =>
      have hc := h.handler (by rw [hh]; exact Option.some_ne_none j)
      have ho := ho (MasterControl.active_of_settled hc.1)
      exact ⟨hown, h.entered, h.held, hex, fun _ => hc, h.targets.term (ho.isWorker hc.1 hj hw)⟩
  | @killGroup j hh hj hw =>
      -- the handler has found a slot without a worker
      exact absurd hw ((h.handler (by rw [hh]; exact Option.some_ne_none j)).2 j hj)
  | handled _ _ => exact ⟨hown, h.entered, h.held, hex, fun hne => absurd rfl hne, h.targets⟩
  | @die pid proc hp =>
      exact ⟨hown, h.entered, h.held, hex, h.handler, h.targets.set (h.targets pid proc hp)⟩
  | appear _ _ => exact ⟨hown, h.entered, h.held, hex, h.handler, h.targets.set nofun⟩
  | vanish _ _ => exact ⟨hown, h.entered, h.held, hex, h.handler, h.targets.erase⟩

/-- **Single runs.**  In a run that does no harm the supervision is as it should
be, whatever forks have failed. -/
theorem supervised_of_spared {es : List MasterEvent} (hself : 0 < self)
    (h : Runs (Under (spared n) (masterStep n)) (masterInit self) es s) : Supervised n s := by
  have ht : Tended n s := by
    induction h with
    | nil => exact Tended.init
    | concat hr hi ih =>
        obtain ⟨h0, ho⟩ := owned_of_runs hself hr.of_under
        obtain ⟨-, ho'⟩ := owned_of_runs hself (hr.concat hi).of_under
        obtain ⟨hC, hi⟩ := returns_under.mp hi
        exact ih.moves h0 ho ho' hC ((masterStep_moves h0 n _).of_returns hi)
  have ho : s.control.settled = true → Owned n s := fun hc =>
    (owned_of_runs hself h.of_under).2 (MasterControl.active_of_settled hc)
  refine ⟨ht.own, ht.no_exit, fun hc pid k hw => ?_, fun hc i hi hne => ?_, ht.targets⟩
  · obtain ⟨hk, hcur⟩ := ((ho hc).owns pid k).mp hw
    rw [Master.current_settled hc] at hcur
    split_ifs at hcur
    exact ⟨hk, Option.some.inj hcur⟩
  · have hw : s.worker i ≠ 0 := by
      intro hw
      rcases ht.entered i hw with hnil | ⟨pid, hf⟩
      · exact hne hnil
      · rw [hf] at hc
        cases hc
    refine ⟨(ho hc).isWorker hc hi hw, ?_⟩
    rw [(ho hc).history i hi, Master.current_settled hc, if_neg hw]
    rfl

/-- Where every slot gets its first worker no harm can be done. -/
theorem spared_of_runs {es : List MasterEvent} (hself : 0 < self)
    (h : Runs (Under (startsBut n ∅) (masterStep n)) (masterInit self) es s) :
    Runs (Under (spared n) (masterStep n)) (masterInit self) es s := by
  induction h with
  | nil => exact .nil
  | @concat es e s s' hr hi ih =>
      have hs := staffed_of_runs hself hr
      obtain ⟨hC, hi⟩ := returns_under.mp hi
      refine ih.concat (returns_under.mpr ⟨?_, hi⟩)
      cases e with
      | main fork who =>
          cases hc : s.control with
          | polling i =>
              rw [spared, hc]
              exact decide_eq_true fun hi hw => absurd hw (hs.current (by rw [hc]; rfl) hi).1
          | starting _ => rw [spared, hc]; rfl
          | forked _ _ => rw [spared, hc]; rfl
          | testing => rw [spared, hc]; rfl
          | reaped _ => rw [spared, hc]; rfl
          | reforked _ _ => rw [spared, hc]; rfl
          | ended => rw [spared, hc]; rfl
          | exited _ => rw [spared, hc]; rfl
          | terminated => rw [spared, hc]; rfl
      | sigusr1 =>
          have hsettled : s.control.settled = true := hC
          rw [spared, hsettled, Bool.true_and, List.all_eq_true]
          exact fun i hi => decide_eq_true (hs.current hsettled (List.mem_range.mp hi)).1
      | handler => rfl
      | die _ => rfl
      | appear _ => rfl
      | vanish _ => rfl

/-! ### A run for every set of failed slots -/

/-- A run leads to `s`. -/
def Reached (n : Nat) (F : Finset Nat) (self : Pid) (s : Master) : Prop :=
  ∃ es, Runs (Under (startsBut n F) (masterStep n)) (masterInit self) es s

theorem Reached.step (h : Reached n F self s) (hC : startsBut n F e s = true)
    (he : Returns (masterStep n e) s () s') : Reached n F self s' := by
  obtain ⟨es, h⟩ := h
  exact ⟨es ++ [e], h.concat (returns_under.mpr ⟨hC, he⟩)⟩

/-- The master, or what is left of it. -/
def Master.HasMaster (s : Master) (self : Pid) : Prop :=
  ∃ proc, s.procs.get self = some proc ∧ proc.kind = .master

/-- The first `i` slots have had their turn, and those in `F` got no worker. -/
structure StartedBut (F : Finset Nat) (pid : Pid) (i : Nat) (s : Master) : Prop where
  control : s.control = .starting i
  handler : s.handler = none
  slot : ∀ j < i, s.worker j = 0 ↔ j ∈ F
  master : s.HasMaster pid

theorem main_returns {fork : Option Pid} {c : MasterControl} (hh : s.handler = none)
    (hc : s.control = c) (hm : Returns (mainStep n fork 0 c) s () s') :
    Returns (masterStep n (.main fork 0)) s () s' := by
  rw [masterStep, returns_await_bind, returns_load_bind, hc]
  exact ⟨Option.isNone_iff_eq_none.mpr hh, hm⟩

/-- The turn for a slot whose `fork` fails. -/
theorem StartedBut.fails (h : StartedBut F self i s) (hr : Reached n F self s) (hi : i < n)
    (hF : i ∈ F) (hzero : s.worker i = 0) :
    ∃ s', StartedBut F self (i + 1) s' ∧ Reached n F self s' ∧ s'.worker = s.worker := by
  refine ⟨s.setControl (.starting (i + 1)), ⟨rfl, h.handler, fun j hj => ?_, h.master⟩,
    hr.step (e := .main none 0) ?_ (main_returns h.handler h.control ?_), rfl⟩
  · show s.worker j = 0 ↔ j ∈ F
    rcases Nat.lt_succ_iff_lt_or_eq.mp hj with hlt | rfl
    · exact h.slot j hlt
    · exact iff_of_true hzero hF
  · rw [startsBut, h.control]
    simp [MasterControl.first, hF]
  · rw [mainStep, if_pos hi, forkWorker, returns_store]

/-- The turn for a slot that gets its worker. -/
theorem StartedBut.succeeds (h : StartedBut F self i s) (hr : Reached n F self s) (hi : i < n)
    (hF : i ∉ F) :
    ∃ s', StartedBut F self (i + 1) s' ∧ Reached n F self s' ∧
      ∀ j ≠ i, s'.worker j = s.worker j := by
  obtain ⟨proc, hproc, hkind⟩ := h.master
  have hlt := Table.lt_bound hproc
  -- a pid nobody has
  let pid := s.procs.bound + 1
  have hfree : s.procs.get pid = none := s.procs.get_of_le _ (Nat.le_succ _)
  let s₁ := (s.forkFor i pid).setControl (.forked i pid)
  have hfork : Returns (masterStep n (.main (some pid) 0)) s () s₁ := by
    apply main_returns h.handler h.control
    rw [mainStep, if_pos hi, forkWorker, returns_await_bind, Bool.and_eq_true]
    refine ⟨⟨decide_eq_true (Nat.succ_pos _), Option.isNone_iff_eq_none.mpr hfree⟩, ?_⟩
    rw [returns_store_bind, returns_store_bind, returns_store]
    rfl
  have hr₁ : Reached n F self s₁ := by
    refine hr.step ?_ hfork
    rw [startsBut, h.control]
    simp [MasterControl.first, hF]
  have henter : Returns (masterStep n (.main none 0)) s₁ ()
      ((s₁.setWorker i pid).setControl (.starting (i + 1))) := by
    have hh : s₁.handler = none := h.handler
    apply main_returns (c := .forked i pid) hh rfl
    rw [mainStep, returns_store_bind, returns_store]
  refine ⟨(s₁.setWorker i pid).setControl (.starting (i + 1)),
    ⟨rfl, h.handler, fun j hj => ?_, proc, ?_, hkind⟩, hr₁.step rfl henter, fun j hj => ?_⟩
  · show Function.update s.worker i pid j = 0 ↔ j ∈ F
    rcases Nat.lt_succ_iff_lt_or_eq.mp hj with hlt | rfl
    · rw [Function.update_of_ne (Nat.ne_of_lt hlt)]
      exact h.slot j hlt
    · rw [Function.update_self]
      exact iff_of_false (Nat.succ_ne_zero _) hF
  · exact (Table.get_set_of_ne (Nat.ne_of_lt (Nat.lt_succ_of_lt hlt))).trans hproc
  · exact Function.update_of_ne hj _ _

/-- **The loop that starts the workers**, for any set of failures. -/
theorem startedBut (self : Pid) (hi : i ≤ n) :
    ∃ s, StartedBut F self i s ∧ Reached n F self s ∧ ∀ j, i ≤ j → s.worker j = 0 := by
  induction i with
  | zero =>
      exact ⟨masterInit self, ⟨rfl, rfl, fun j hj => absurd hj (Nat.not_lt_zero j), _,
        Table.get_set_self, rfl⟩, ⟨[], Runs.nil⟩, fun _ _ => rfl⟩
  | succ i ih =>
      obtain ⟨s, h, hr, hzero⟩ := ih (Nat.le_of_succ_le hi)
      by_cases hF : i ∈ F
      · obtain ⟨s', h', hr', hw⟩ := h.fails hr hi hF (hzero i (Nat.le_refl i))
        exact ⟨s', h', hr', fun j hj => hw ▸ hzero j (Nat.le_of_succ_le hj)⟩
      · obtain ⟨s', h', hr', hw⟩ := h.succeeds hr hi hF
        refine ⟨s', h', hr', fun j hj => ?_⟩
        rw [hw j (Nat.ne_of_gt hj)]
        exact hzero j (Nat.le_of_succ_le hj)

/-- The handler gets to the first slot without a worker. -/
theorem handler_reaches (hr : Reached n F self s) (hh : s.handler = some 0)
    (hm : s.HasMaster self) (hi : i ≤ n) (hw : ∀ j < i, s.worker j ≠ 0) :
    ∃ s', Reached n F self s' ∧ s'.handler = some i ∧ s'.HasMaster self ∧
      s'.worker = s.worker := by
  induction i with
  | zero => exact ⟨s, hr, hh, hm, rfl⟩
  | succ i ih =>
      obtain ⟨t, ht, hti, ⟨proc, hproc, hkind⟩, hworker⟩ :=
        ih (Nat.le_of_succ_le hi) fun j hj => hw j (Nat.lt_succ_of_lt hj)
      have hne : t.worker i ≠ 0 := hworker ▸ hw i (Nat.lt_succ_self i)
      refine ⟨{ t with handler := some (i + 1) }.term (t.worker i), ht.step (e := .handler) rfl ?_,
        rfl, ?_, hworker⟩
      · rw [masterStep, returns_load_bind, returns_await_bind, hti, returns_deref_bind, handlerStep,
          if_pos (Nat.lt_of_succ_le hi), returns_store_bind, returns_load_bind, killTerm,
          if_neg hne, returns_store]
        exact ⟨rfl, rfl⟩
      · rcases eq_or_ne self (t.worker i) with he | he
        · refine ⟨{ proc with termed := true }, ?_, hkind⟩
          rw [Master.term, ← he, Table.get_modify_self, hproc, Option.map_some]
        · exact ⟨proc, (Table.get_modify_of_ne he).trans hproc, hkind⟩

/-- **A slot without a worker lets the handler kill the master.** -/
theorem failed_start_unsupervised (self : Pid) (hF : ∀ i ∈ F, i < n) (hne : F.Nonempty) :
    ∃ s, Reached n F self s ∧ ¬ Supervised n s := by
  obtain ⟨s, h, hr, -⟩ := startedBut (F := F) self (Nat.le_refl n)
  set i := F.min' hne with hmin
  have hiF : i ∈ F := F.min'_mem hne
  have hi : i < n := hF i hiF
  -- the supervising loop begins
  have hr₁ : Reached n F self (s.setControl .testing) := by
    refine hr.step (e := .main none 0) ?_ (main_returns h.handler h.control ?_)
    · rw [startsBut, h.control]
      simp [MasterControl.first]
    · rw [mainStep, if_neg (Nat.lt_irrefl n), returns_store]
  -- and the signal comes
  have hr₂ : Reached n F self
      { s.setControl .testing with serverRunningFlag := false, handler := some 0 } := by
    refine hr₁.step (e := .sigusr1) rfl ?_
    rw [masterStep, returns_await_bind, Bool.and_eq_true, returns_store]
    exact ⟨⟨Option.isNone_iff_eq_none.mpr h.handler, rfl⟩, rfl⟩
  obtain ⟨t, ht, hti, ⟨proc, hproc, hkind⟩, hworker⟩ :=
    handler_reaches (i := i) hr₂ rfl h.master (Nat.le_of_lt hi) fun j hj => by
      show s.worker j ≠ 0
      rw [Ne, h.slot j (Nat.lt_trans hj hi)]
      exact fun hm => absurd (F.min'_le j hm) (Nat.not_le_of_lt hj)
  have hzero : t.worker i = 0 := by
    rw [hworker]
    exact (h.slot i hi).mpr hiF
  refine ⟨{ t with handler := some (i + 1) }.termGroup, ht.step (e := .handler) rfl ?_, ?_⟩
  · rw [masterStep, returns_load_bind, returns_await_bind, hti, returns_deref_bind, handlerStep,
      if_pos hi, returns_store_bind, returns_load_bind, killTerm, if_pos hzero, returns_store]
    exact ⟨rfl, rfl⟩
  · intro hsup
    have hget : (t.procs.map fun proc =>
        if proc.kind.inGroup then { proc with termed := true } else proc).get self =
        some { proc with termed := true } := by
      rw [Table.get_map, hproc, Option.map_some, hkind]
      rfl
    have hw := hsup.targets self _ hget rfl
    rw [show ({ proc with termed := true } : Process).kind = proc.kind from rfl, hkind] at hw
    cases hw

/-- **Failed starts.**  The supervision is as it should be in every run if and
only if no first `fork` fails; and, whatever forks fail, it is as it should be
in a run where no turn for a slot without a worker finds a dead child, or no
child at all, and no signal is handled while there is such a slot. -/
theorem failed_start_iff (hself : 0 < self) (hF : ∀ i ∈ F, i < n) :
    ((∀ es s, Runs (Under (startsBut n F) (masterStep n)) (masterInit self) es s →
      Supervised n s) ↔ F = ∅) ∧
    ∀ es s, Runs (Under (spared n) (masterStep n)) (masterInit self) es s → Supervised n s := by
  refine ⟨⟨fun hall => ?_, ?_⟩, fun es s h => supervised_of_spared hself h⟩
  · by_contra hne
    obtain ⟨s, ⟨es, hr⟩, hs⟩ :=
      failed_start_unsupervised self hF (Finset.nonempty_iff_ne_empty.mpr hne)
    exact hs (hall es s hr)
  · rintro rfl es s h
    exact supervised_of_spared hself (spared_of_runs hself h)

/-- The first `fork` for slot 0 fails.  Its turn finds the worker of slot 1
alive, which dies then and is replaced. -/
def workerReplaced : List MasterEvent :=
  [.main none 0, .main (some 2) 0, .main none 0, .main none 0, .main none 0, .main none 0, .die 2,
    .main none 0, .main (some 3) 0, .main none 0]

/-- Both workers are started, and the handler signals them. -/
def bothSignalled : List MasterEvent :=
  [.main (some 2) 0, .main (some 2) 0, .main (some 3) 0, .main (some 2) 0, .main none 0, .sigusr1,
    .handler, .handler, .handler]

theorem failed_start_two :
    (¬ ∀ es s, Runs (Under (startsBut 2 {0}) (masterStep 2)) (masterInit 1) es s →
      Supervised 2 s) ∧
    (∃ s, Runs (Under (startsBut 2 ∅) (masterStep 2)) (masterInit 1) bothSignalled s ∧
      s.serverRunningFlag = false ∧ s.control = .testing ∧ Supervised 2 s) ∧
    ∃ s, Runs (Under (spared 2) (masterStep 2)) (masterInit 1) workerReplaced s ∧
      s.started 0 = [] ∧ s.started 1 = [2, 3] ∧ s.reaped 1 = [2] ∧ Supervised 2 s := by
  have hF : ∀ i ∈ ({0} : Finset Nat), i < 2 := by decide
  have hnone : ∀ i ∈ (∅ : Finset Nat), i < 2 := by decide
  have hboth : Runs (Under (startsBut 2 ∅) (masterStep 2)) (masterInit 1) bothSignalled _ :=
    Runs.of_exec rfl
  have hrun : Runs (Under (spared 2) (masterStep 2)) (masterInit 1) workerReplaced _ :=
    Runs.of_exec rfl
  refine ⟨fun hall => ?_, ⟨_, hboth, rfl, rfl, ?_⟩, _, hrun, rfl, rfl, rfl, ?_⟩
  · exact Finset.singleton_ne_empty 0 ((failed_start_iff Nat.one_pos hF).1.mp hall)
  · exact (failed_start_iff Nat.one_pos hnone).1.mpr rfl _ _ hboth
  · exact (failed_start_iff Nat.one_pos hF).2 _ _ hrun

/-- The first `fork` for slot 0 fails, and the worker of slot 1 dies before
the turn for slot 0. -/
def workerLost : List MasterEvent :=
  [.main none 0, .main (some 2) 0, .main none 0, .main none 0, .main none 0, .die 2, .main none 2]

/-- The turn for slot 0 reaps the worker of slot 1, and the master exits. -/
theorem failed_start_loses_worker :
    ∃ s, Runs (Under (startsBut 2 {0}) (masterStep 2)) (masterInit 1) workerLost s ∧
      s.started 0 = [] ∧ s.started 1 = [2] ∧ s.reaped 0 = [2] ∧
      s.control = .exited .waitpidFailed ∧ ¬ Supervised 2 s := by
  have hrun : Runs (Under (startsBut 2 {0}) (masterStep 2)) (masterInit 1) workerLost _ :=
    Runs.of_exec rfl
  exact ⟨_, hrun, rfl, rfl, rfl, rfl, fun hs => hs.no_exit rfl⟩

end DmfServer
