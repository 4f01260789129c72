/-
DmfServer/MasterMoves.lean

What one event does to the master: every move there is, with what was tested
on the way to it.  `masterStep_moves` reads them off the program once, so that
an invariant is a case analysis over `Moves`, with no program in it.
-/
import DmfServer.Master

namespace DmfServer

open Imperative Prog

namespace Master

/-- A worker was forked for the slot `i`. -/
def forkFor (s : Master) (i : Nat) (pid : Pid) : Master :=
  (s.setProc pid ⟨.worker i, true, false⟩).logStart i pid

/-- The turn for the slot `i` reaped `pid`. -/
def reap (s : Master) (i : Nat) (pid : Pid) : Master := (s.removeProc pid).logReap i pid

end Master

/-- The moves of the main program, by what its `fork` answers. -/
inductive MainMoves (n : Nat) (fork : Option Pid) (s : Master) : Master → Prop
  | start {i : Nat} {pid : Pid} : s.control = .starting i → i < n → fork = some pid →
      0 < pid → s.procs.get pid = none →
      MainMoves n fork s ((s.forkFor i pid).setControl (.forked i pid))
  | startFails {i : Nat} : s.control = .starting i → i < n → fork = none →
      MainMoves n fork s (s.setControl (.starting (i + 1)))
  | started {i : Nat} : s.control = .starting i → n ≤ i → MainMoves n fork s (s.setControl .testing)
  | enter {i : Nat} {pid : Pid} : s.control = .forked i pid →
      MainMoves n fork s ((s.setWorker i pid).setControl (.starting (i + 1)))
  | pass : s.control = .testing → s.serverRunningFlag = true →
      MainMoves n fork s (s.setControl (.polling 0))
  | finish : s.control = .testing → s.serverRunningFlag = false →
      MainMoves n fork s (s.setControl .ended)
  | runs {i : Nat} : s.control = .polling i → i < n → s.isZombie (s.worker i) = false →
      MainMoves n fork s (s.setControl (.polling (i + 1)))
  | reap {i : Nat} : s.control = .polling i → i < n → s.worker i ≠ 0 →
      s.isZombie (s.worker i) = true →
      MainMoves n fork s ((s.reap i (s.worker i)).setControl (.reaped i))
  | reapOther {i : Nat} {pid : Pid} : s.control = .polling i → i < n → s.worker i = 0 →
      s.isZombie pid = true →
      MainMoves n fork s ((s.reap i pid).setControl (.exited .waitpidFailed))
  | noChild {i : Nat} : s.control = .polling i → i < n →
      s.worker i = 0 ∧ (List.range s.procs.bound).any s.isChild = false ∨
        s.worker i ≠ 0 ∧ s.isChild (s.worker i) = false →
      MainMoves n fork s (s.setControl (.exited .waitpidFailed))
  | passed {i : Nat} : s.control = .polling i → n ≤ i → MainMoves n fork s (s.setControl .testing)
  | restart {i : Nat} {pid : Pid} : s.control = .reaped i → fork = some pid → 0 < pid →
      s.procs.get pid = none → MainMoves n fork s ((s.forkFor i pid).setControl (.reforked i pid))
  | restartFails {i : Nat} : s.control = .reaped i → fork = none →
      MainMoves n fork s (s.setControl (.exited .forkFailed))
  | reenter {i : Nat} {pid : Pid} : s.control = .reforked i pid →
      MainMoves n fork s ((s.setWorker i pid).setControl (.polling (i + 1)))

/-- The moves of the master and of its surroundings. -/
inductive MasterMoves (n : Nat) (s : Master) : MasterEvent → Master → Prop
  | main {fork : Option Pid} {who : Pid} {s' : Master} : s.handler = none →
      MainMoves n fork s s' → MasterMoves n s (.main fork who) s'
  | sigusr1 : s.handler = none → s.control.active = true →
      MasterMoves n s .sigusr1 { s with serverRunningFlag := false, handler := some 0 }
  | kill {j : Nat} : s.handler = some j → j < n → s.worker j ≠ 0 →
      MasterMoves n s .handler ({ s with handler := some (j + 1) }.term (s.worker j))
  | killGroup {j : Nat} : s.handler = some j → j < n → s.worker j = 0 →
      MasterMoves n s .handler { s with handler := some (j + 1) }.termGroup
  | handled {j : Nat} : s.handler = some j → n ≤ j →
      MasterMoves n s .handler
        { s with handler := none, stoppedAt := some (s.stoppedAt.getD s.started) }
  | die {pid : Pid} {proc : Process} : s.procs.get pid = some proc →
      MasterMoves n s (.die pid) (s.setProc pid { proc with alive := false })
  | appear {pid : Pid} : 0 < pid → s.procs.get pid = none →
      MasterMoves n s (.appear pid) (s.setProc pid ⟨.foreign, true, false⟩)
  | vanish {pid : Pid} {proc : Process} : s.procs.get pid = some proc → proc.kind = .foreign →
      MasterMoves n s (.vanish pid) (s.removeProc pid)

variable {n i : Nat} {s s' : Master} {fork : Option Pid} {who pid : Pid}

theorem zombie_spec (h : s.zombie who = some pid) : s.isZombie pid = true := by
  rw [Master.zombie] at h
  split_ifs at h with hw
  · exact Option.some.inj h ▸ hw
  · exact List.find?_some h

theorem forkWorker_spec {parent : Pid → MasterControl} {failed : MasterControl}
    (i : Nat) (fork : Option Pid) (s : Master) :
    Safe (forkWorker i parent failed fork) s fun _ s' =>
      (fork = none ∧ s' = s.setControl failed) ∨
      ∃ pid, fork = some pid ∧ 0 < pid ∧ s.procs.get pid = none ∧
        s' = (s.forkFor i pid).setControl (parent pid) := by
  cases fork with
  | none =>
      rw [forkWorker, safe_store]
      exact .inl ⟨rfl, rfl⟩
  | some pid =>
      rw [forkWorker, safe_await_bind, Bool.and_eq_true]
      rintro ⟨hpos, hfree⟩
      rw [safe_store_bind, safe_store_bind, safe_store]
      exact .inr ⟨pid, rfl, of_decide_eq_true hpos, Option.isNone_iff_eq_none.mp hfree, rfl⟩

/-- What `waitpid` answers, and does. -/
theorem waitpid_spec (i : Nat) (pid who : Pid) (s : Master) :
    Safe (waitpid i pid who) s fun r s' =>
      (∃ z : Pid, r = z ∧ s' = s.reap i z ∧ s.isZombie z = true ∧ (pid ≠ 0 → z = pid)) ∨
      (s = s' ∧ (pid ≠ 0 → s.isZombie pid = false) ∧
        (r = 0 ∨ r = -1 ∧ (pid = 0 ∧ (List.range s.procs.bound).any s.isChild = false ∨
          pid ≠ 0 ∧ s.isChild pid = false))) := by
  rw [waitpid, safe_load_bind, safe_load_bind]
  cases hfound : if pid = 0 then s.zombie who else if s.isZombie pid then some pid else none with
  | some z =>
      rw [reapFound, safe_store_bind, safe_store_bind, safe_pure]
      refine .inl ⟨z, rfl, rfl, ?_⟩
      split_ifs at hfound with h0 hpid
      · exact ⟨zombie_spec hfound, fun h => absurd h0 h⟩
      · obtain rfl := Option.some.inj hfound
        exact ⟨hpid, fun _ => rfl⟩
  | none =>
      rw [reapFound, safe_pure]
      refine .inr ⟨rfl, fun h0 => ?_, ?_⟩
      · rw [if_neg h0] at hfound
        split_ifs at hfound with hpid
        exact Bool.eq_false_iff.mpr hpid
      · split_ifs with h0 hany hchild
        · exact .inl rfl
        · exact .inr ⟨rfl, .inl ⟨h0, Bool.eq_false_iff.mpr hany⟩⟩
        · exact .inl rfl
        · exact .inr ⟨rfl, .inr ⟨h0, Bool.eq_false_iff.mpr hchild⟩⟩

theorem isZombie_pos (h0 : s.procs.get 0 = none) (h : s.isZombie pid = true) : pid ≠ 0 := by
  rintro rfl
  rw [Master.isZombie, h0] at h
  cases h

/-- A turn of the supervising loop that has a slot to poll. -/
theorem polling_moves (h0 : s.procs.get 0 = none) (hc : s.control = .polling i) (hi : i < n) :
    Safe (mainStep n fork who (.polling i)) s fun _ s' => MainMoves n fork s s' := by
  rw [mainStep, if_pos hi, safe_load_bind]
  apply Safe.bind
  apply (waitpid_spec i (s.worker i) who s).mono
  rintro r s' (⟨z, rfl, rfl, hz, hself⟩ | ⟨rfl, hz, rfl | ⟨rfl, hchild⟩⟩)
  · have hpos := isZombie_pos h0 hz
    rw [if_neg (by exact_mod_cast hpos)]
    split_ifs with hw
    · obtain rfl : z = s.worker i := by exact_mod_cast hw
      rw [safe_store]
      exact .reap hc hi hpos hz
    · rw [safe_store]
      refine .reapOther hc hi ?_ hz
      by_contra hne
      exact hw (by exact_mod_cast hself hne)
  · rw [if_pos rfl, safe_store]
    refine .runs hc hi ?_
    by_cases hw : s.worker i = 0
    · rw [hw, Master.isZombie, h0, Option.any_none]
    · exact hz hw
  · rw [if_neg (by decide), if_neg (by omega), safe_store]
    exact .noChild hc hi hchild

theorem mainStep_moves (h0 : s.procs.get 0 = none) (n : Nat) (fork : Option Pid) (who : Pid) :
    Safe (mainStep n fork who s.control) s fun _ s' => MainMoves n fork s s' := by
  cases hc : s.control with
  | starting i =>
      rw [mainStep]
      split_ifs with hi
      · apply (forkWorker_spec i fork s).mono
        rintro ⟨⟩ s' (⟨hf, rfl⟩ | ⟨pid, hf, hpos, hfree, rfl⟩)
        · exact .startFails hc hi hf
        · exact .start hc hi hf hpos hfree
      · rw [safe_store]
        exact .started hc (Nat.le_of_not_lt hi)
  | forked i pid =>
      rw [mainStep, safe_store_bind, safe_store]
      exact .enter hc
  | testing =>
      rw [mainStep, safe_store]
      split_ifs with hr
      · exact .pass hc hr
      · exact .finish hc (Bool.eq_false_iff.mpr hr)
  | polling i =>
      by_cases hi : i < n
      · exact polling_moves h0 hc hi
      · rw [mainStep, if_neg hi, safe_store]
        exact .passed hc (Nat.le_of_not_lt hi)
  | reaped i =>
      rw [mainStep]
      apply (forkWorker_spec i fork s).mono
      rintro ⟨⟩ s' (⟨hf, rfl⟩ | ⟨pid, hf, hpos, hfree, rfl⟩)
      · exact .restartFails hc hf
      · exact .restart hc hf hpos hfree
  | reforked i pid =>
      rw [mainStep, safe_store_bind, safe_store]
      exact .reenter hc
  | ended =>
      rw [mainStep, safe_await]
      exact fun hf => nomatch hf
  | exited cause =>
      rw [mainStep, safe_await]
      exact fun hf => nomatch hf
  | terminated =>
      rw [mainStep, safe_await]
      exact fun hf => nomatch hf

theorem handlerStep_moves {j : Nat} (hh : s.handler = some j) :
    Safe (handlerStep n j) s fun _ s' => MasterMoves n s .handler s' := by
  rw [handlerStep]
  split_ifs with hj
  · rw [safe_store_bind, safe_load_bind, killTerm]
    split_ifs with h0
    · rw [safe_store]
      exact .killGroup hh hj h0
    · rw [safe_store]
      exact .kill hh hj h0
  · rw [safe_store]
    exact .handled hh (Nat.le_of_not_lt hj)

/-- **Every move there is.** -/
theorem masterStep_moves (h0 : s.procs.get 0 = none) (n : Nat) (e : MasterEvent) :
    Safe (masterStep n e) s fun _ s' => MasterMoves n s e s' := by
  cases e with
  | main fork who =>
      rw [masterStep, safe_await_bind, safe_load_bind]
      intro hh
      apply (mainStep_moves h0 n fork who).mono
      exact fun _ s' hm => .main (Option.isNone_iff_eq_none.mp hh) hm
  | sigusr1 =>
      rw [masterStep, safe_await_bind, Bool.and_eq_true, safe_store]
      rintro ⟨hh, hc⟩
      exact .sigusr1 (Option.isNone_iff_eq_none.mp hh) hc
  | handler =>
      rw [masterStep, safe_load_bind, safe_await_bind]
      intro hh
      obtain ⟨j, hj⟩ := Option.isSome_iff_exists.mp hh
      rw [hj, safe_deref_bind]
      exact handlerStep_moves hj
  | die pid =>
      rw [masterStep, safe_load_bind, safe_await_bind]
      intro hp
      obtain ⟨proc, hproc, -⟩ := (Option.any_eq_true _ _).mp hp
      rw [hproc, safe_deref_bind, safe_store]
      exact .die hproc
  | appear pid =>
      rw [masterStep, safe_await_bind, Bool.and_eq_true, safe_store]
      rintro ⟨hpos, hfree⟩
      exact .appear (of_decide_eq_true hpos) (Option.isNone_iff_eq_none.mp hfree)
  | vanish pid =>
      rw [masterStep, safe_await_bind, safe_store]
      intro hp
      obtain ⟨proc, hproc, hkind⟩ := (Option.any_eq_true _ _).mp hp
      exact .vanish hproc (of_decide_eq_true hkind)

end DmfServer
