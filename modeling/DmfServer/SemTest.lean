/-
DmfServer/SemTest.lean

Processes that print in turn, `test/sem_test.c`.

Any number of processes share one System V semaphore.  A process takes it,
prints its letter, sleeps, prints the letter again and gives it back, ten
times.  A process that was started with an argument sets the semaphore to 1
first, and removes it at its end.  The semaphore operations are called with
`SEM_UNDO`, so the kernel keeps for every process what it has to add when the
process ends; `SETVAL` makes it forget that.

Setting the semaphore lets one process in, whoever is in already: processes
exclude each other in all schedules iff no more than one of them sets it
(`sem_exclusive_iff`).  With one, the semaphore is free whenever nobody is
inside, also when a process was killed there, and letters come in pairs,
except for a process that was killed between them (`sem_output`).
-/
import DmfServer.Threads
import Mathlib.Logic.Function.Basic
import Mathlib.Data.List.Nodup
import Mathlib.Tactic.ByContra

namespace DmfServer.SemTest

open Imperative Imperative.Prog

/-- Where a process is. -/
inductive Pc where
  /-- before `semget` -/
  | start
  /-- before `semaphore_p` -/
  | top
  /-- it has the semaphore, and has printed so many letters -/
  | inside (printed : Nat)
  /-- behind the loop -/
  | finished
  /-- it has exited, or was killed -/
  | over
  deriving DecidableEq

structure Proc where
  pc : Pc
  /-- the rounds behind it, `i` -/
  round : Nat
  /-- what the kernel adds to the semaphore when the process ends -/
  semadj : Int

/-- The semaphore, the processes, and the letters on the terminal by the process that
printed them. -/
structure State where
  val : Int
  /-- the semaphore has not been removed -/
  live : Bool
  procs : Nat → Proc
  out : List Nat

/-- `semget` makes a semaphore with the value 0. -/
def State.init : State := ⟨0, true, fun _ => ⟨.start, 0, 0⟩, []⟩

def State.setProc (p : Nat) (x : Proc) (s : State) : State :=
  { s with procs := Function.update s.procs p x }

/-- A process ends: the kernel undoes its operations. -/
def State.exit (p : Nat) (s : State) : State :=
  { s with
    val := if s.live then max 0 (s.val + (s.procs p).semadj) else s.val
    procs := Function.update s.procs p ⟨.over, (s.procs p).round, 0⟩ }

/-- `set_semvalue`: the value is 1, and nothing is left to undo. -/
def State.setSemvalue (s : State) : State :=
  { s with val := 1, procs := fun p => { s.procs p with semadj := 0 } }

/-- `semop` with -1. -/
def State.take (p : Nat) (s : State) : State :=
  { s with
    val := s.val - 1
    procs := Function.update s.procs p
      ⟨.inside 0, (s.procs p).round, (s.procs p).semadj + 1⟩ }

/-- `semop` with 1; the loop ends after ten rounds. -/
def State.give (p : Nat) (s : State) : State :=
  { s with
    val := s.val + 1
    procs := Function.update s.procs p
      ⟨if (s.procs p).round + 1 < 10 then .top else .finished, (s.procs p).round + 1,
        (s.procs p).semadj - 1⟩ }

/-- `printf("%c", message)`. -/
def State.print (p printed : Nat) (s : State) : State :=
  { s with
    procs := Function.update s.procs p
      ⟨.inside (printed + 1), (s.procs p).round, (s.procs p).semadj⟩
    out := s.out ++ [p] }

/-- What happens next. -/
inductive Act where
  | begin (p : Nat)
  | semaphoreP (p : Nat)
  | printf (p : Nat)
  | semaphoreV (p : Nat)
  | finish (p : Nat)
  | kill (p : Nat)

/-- The letter is printed twice. -/
def printMessage (p : Nat) : Pc → Prog State Unit
  | .inside 0 => store (State.print p 0)
  | .inside 1 => store (State.print p 1)
  | _ => await fun _ => false

/-- One step, where `setter` are the processes with an argument.  An operation
on a removed semaphore fails, and the process exits. -/
def step (setter : Nat → Bool) : Act → Prog State Unit
  | .begin p => do
      await fun s => decide ((s.procs p).pc = .start) && s.live
      if setter p then store State.setSemvalue
      store fun s => s.setProc p { s.procs p with pc := .top }
  | .semaphoreP p => do
      await fun s => decide ((s.procs p).pc = .top)
      if ← load State.live then do
        await fun s => decide (0 < s.val)
        store (State.take p)
      else store (State.exit p)
  | .printf p => do
      let pc ← load fun s => (s.procs p).pc
      printMessage p pc
  | .semaphoreV p => do
      await fun s => decide ((s.procs p).pc = .inside 2)
      if ← load State.live then store (State.give p) else store (State.exit p)
  | .finish p => do
      await fun s => decide ((s.procs p).pc = .finished)
      if setter p then store fun s => { s with live := false }
      store (State.exit p)
  | .kill p => do
      await fun s => decide ((s.procs p).pc ≠ .start ∧ (s.procs p).pc ≠ .over)
      store (State.exit p)

/-- The process is between its two operations. -/
def State.Inside (s : State) (p : Nat) : Prop := ∃ k, (s.procs p).pc = .inside k

/-! ### The invariant -/

variable {setter : Nat → Bool} {s : State} {h : Option Nat} {p q k : Nat} {x : Proc}

/-- Nobody has set the semaphore yet. -/
def Unset (setter : Nat → Bool) (s : State) : Prop := ∀ p, setter p → (s.procs p).pc = .start

/-- `blocks` are what processes printed that are not inside any more, `part` is
what the one inside has printed. -/
structure Written (s : State) (blocks : List (Nat × Nat)) (part : List Nat) : Prop where
  out : s.out = blocks.flatMap (fun b => List.replicate b.2 b.1) ++ part
  closed : ∀ b ∈ blocks, b.2 = 2 ∨ b.2 < 2 ∧ (s.procs b.1).pc = .over
  once : ((blocks.filter fun b => b.2 < 2).map Prod.fst).Nodup
  current : ∀ p k, (s.procs p).pc = .inside k → part = List.replicate k p ∧ k ≤ 2
  nobody : (∀ p, ¬ s.Inside p) → part = []

/-- The process `h`, if any, has the semaphore. -/
structure Sound (setter : Nat → Bool) (s : State) (h : Option Nat) : Prop where
  inside : ∀ p, s.Inside p ↔ h = some p
  adj : ∀ p, (s.procs p).semadj = if h = some p then 1 else 0
  unset : s.live → Unset setter s → s.val = 0 ∧ h = none
  set : s.live → ¬ Unset setter s → s.val = if h.isSome then 0 else 1
  written : ∃ blocks part, Written s blocks part

theorem init_sound (setter : Nat → Bool) : Sound setter State.init none where
  inside p := by
    constructor
    · rintro ⟨k, hk⟩
      cases hk
    · exact fun hp => by cases hp
  adj p := rfl
  unset _ _ := ⟨rfl, rfl⟩
  set _ hset := absurd (fun _ _ => rfl) hset
  written := ⟨[], [], rfl, by simp, List.nodup_nil, fun p k hk => (by cases hk), fun _ => rfl⟩

/-- Who is inside after one process moved. -/
theorem inside_update {t : State} (ht : t.procs = Function.update s.procs p x) :
    t.Inside q ↔ if q = p then ∃ k, x.pc = .inside k else s.Inside q := by
  rw [State.Inside, ht]
  split_ifs with hq
  · rw [hq, Function.update_self]
  · rw [Function.update_of_ne hq]
    rfl

/-- Who has not started, after one process moved that has. -/
theorem unset_update {t : State} (ht : t.procs = Function.update s.procs p x)
    (hp : (s.procs p).pc ≠ .start) (hx : x.pc ≠ .start) : Unset setter t ↔ Unset setter s := by
  have hsame : ∀ q, (t.procs q).pc = .start ↔ (s.procs q).pc = .start := by
    intro q
    rw [ht]
    rcases eq_or_ne q p with rfl | hq
    · rw [Function.update_self]
      exact ⟨fun hf => absurd hf hx, fun hf => absurd hf hp⟩
    · rw [Function.update_of_ne hq]
  simp only [Unset, hsame]

/-- The holder is what the processes say. -/
theorem Sound.holder (hs : Sound setter s h) (hp : (s.procs p).pc = .inside k) : h = some p :=
  (hs.inside p).mp ⟨k, hp⟩

/-! ### The steps -/

/-- A process that is not inside moves and is not inside then. -/
theorem Written.move {t : State} {blocks : List (Nat × Nat)} {part : List Nat}
    (hw : Written s blocks part) (ht : t.procs = Function.update s.procs p x)
    (hout : t.out = s.out) (hp : ∀ k, (s.procs p).pc ≠ .inside k) (hx : ∀ k, x.pc ≠ .inside k)
    (hover : (s.procs p).pc = .over → x.pc = .over) : Written t blocks part := by
  have hother : ∀ q k, (t.procs q).pc = .inside k ↔ (s.procs q).pc = .inside k := by
    intro q k
    rw [ht]
    rcases eq_or_ne q p with rfl | hq
    · rw [Function.update_self]
      exact ⟨fun hf => absurd hf (hx k), fun hf => absurd hf (hp k)⟩
    · rw [Function.update_of_ne hq]
  refine ⟨hout.trans hw.out, fun b hb => (hw.closed b hb).imp_right ?_, hw.once,
    fun q k hq => ?_, ?_⟩
  · rintro ⟨hlt, hb⟩
    refine ⟨hlt, ?_⟩
    rw [ht]
    rcases eq_or_ne b.1 p with hp | hq
    · rw [hp, Function.update_self]
      exact hover (hp ▸ hb)
    · rw [Function.update_of_ne hq]
      exact hb
  · exact hw.current q k ((hother q k).mp hq)
  · intro hno
    refine hw.nobody fun q => ?_
    rintro ⟨k, hk⟩
    exact hno q ⟨k, (hother q k).mpr hk⟩

/-- The process that is inside leaves, and its letters become a block. -/
theorem Written.leave {t : State} {blocks : List (Nat × Nat)} {part : List Nat}
    (hw : Written s blocks part) (ht : t.procs = Function.update s.procs p x)
    (hout : t.out = s.out) (hp : (s.procs p).pc = .inside k) (hin : ∀ q, ¬ t.Inside q)
    (hx : k = 2 ∨ x.pc = .over) : Written t (blocks ++ [(p, k)]) [] := by
  obtain ⟨hpart, hle⟩ := hw.current p k hp
  have hfirst : ∀ b ∈ blocks, b.2 < 2 → b.1 ≠ p := by
    rintro b hb hlt rfl
    rcases hw.closed b hb with htwo | ⟨-, hover⟩
    · omega
    · rw [hp] at hover
      cases hover
  refine ⟨?_, ?_, ?_, fun q j hj => absurd ⟨j, hj⟩ (hin q), fun _ => rfl⟩
  · rw [hout, hw.out, hpart]
    simp
  · intro b hb
    rcases List.mem_append.mp hb with hb | hb
    · refine (hw.closed b hb).imp_right ?_
      rintro ⟨hlt, hover⟩
      refine ⟨hlt, ?_⟩
      rw [ht, Function.update_of_ne (hfirst b hb hlt)]
      exact hover
    · obtain rfl := List.mem_singleton.mp hb
      rcases hx with rfl | hx
      · exact .inl rfl
      · rw [ht, Function.update_self]
        rcases Nat.lt_or_ge k 2 with hlt | hge
        · exact .inr ⟨hlt, hx⟩
        · exact .inl (Nat.le_antisymm hle hge)
  · rw [List.filter_append, List.map_append]
    refine List.Nodup.append hw.once ?_ ?_
    · rw [List.filter_singleton]
      cases decide ((p, k).2 < 2)
      · exact List.nodup_nil
      · exact List.nodup_singleton p
    · intro q hq hq'
      obtain ⟨b, hb, rfl⟩ := List.mem_map.mp hq
      obtain ⟨hb, hlt⟩ := List.mem_filter.mp hb
      obtain ⟨b', hb', he⟩ := List.mem_map.mp hq'
      obtain rfl := List.mem_singleton.mp (List.mem_filter.mp hb').1
      exact hfirst b hb (of_decide_eq_true hlt) he.symm

/-- Who has the semaphore when one process is not inside any more. -/
theorem Sound.leaves {t : State} (hs : Sound setter s h)
    (ht : t.procs = Function.update s.procs p x) (hx : ∀ k, x.pc ≠ .inside k)
    (hadj : x.semadj = 0) : (∀ q, t.Inside q ↔ (if h = some p then none else h) = some q) ∧
      ∀ q, (t.procs q).semadj = if (if h = some p then none else h) = some q then 1 else 0 := by
  have hiff : ∀ q, (if h = some p then none else h) = some q ↔ q ≠ p ∧ h = some q := by
    intro q
    split_ifs with hh
    · refine ⟨fun hf => (by cases hf), fun hq => ?_⟩
      rw [hh] at hq
      exact absurd (Option.some.inj hq.2).symm hq.1
    · exact ⟨fun hq => ⟨fun he => hh (he ▸ hq), hq⟩, fun hq => hq.2⟩
  constructor
  · intro q
    rw [inside_update ht, hiff]
    split_ifs with hq
    · exact ⟨fun ⟨k, hk⟩ => absurd hk (hx k), fun hf => absurd hq hf.1⟩
    · exact (hs.inside q).trans ⟨fun hh => ⟨hq, hh⟩, fun hh => hh.2⟩
  · intro q
    simp only [hiff]
    rw [ht]
    rcases eq_or_ne q p with rfl | hq
    · rw [Function.update_self, hadj, if_neg fun hf => hf.1 rfl]
    · rw [Function.update_of_ne hq, hs.adj]
      simp [hq]

/-- A process ends, wherever it is. -/
theorem Sound.exit (hs : Sound setter s h) (hp : (s.procs p).pc ≠ .start) :
    Sound setter (s.exit p) (if h = some p then none else h) := by
  have ht : (s.exit p).procs = Function.update s.procs p ⟨.over, (s.procs p).round, 0⟩ := rfl
  have hunset : Unset setter (s.exit p) ↔ Unset setter s := unset_update ht hp Pc.noConfusion
  obtain ⟨hin, hadj⟩ := hs.leaves ht (fun _ => Pc.noConfusion) rfl
  refine ⟨hin, hadj, ?_, ?_, ?_⟩
  · intro hlive hu
    replace hlive : s.live = true := hlive
    obtain ⟨hval, hnone⟩ := hs.unset hlive (hunset.mp hu)
    refine ⟨?_, by rw [hnone]; rfl⟩
    show (if s.live then max 0 (s.val + (s.procs p).semadj) else s.val) = 0
    rw [if_pos hlive, hval, hs.adj, hnone]
    rfl
  · -- the kernel gives back what the process had
    intro hlive hu
    replace hlive : s.live = true := hlive
    have hval := hs.set hlive (fun hf => hu (hunset.mpr hf))
    show (if s.live then max 0 (s.val + (s.procs p).semadj) else s.val) = _
    rw [if_pos hlive, hs.adj, hval]
    by_cases hh : h = some p
    · rw [if_pos hh, if_pos hh, hh]
      rfl
    · rw [if_neg hh, if_neg hh]
      split_ifs <;> rfl
  · obtain ⟨blocks, part, hw⟩ := hs.written
    by_cases hinside : s.Inside p
    · obtain ⟨k, hk⟩ := hinside
      refine ⟨_, _, hw.leave ht rfl hk (fun q hq => ?_) (.inr rfl)⟩
      rw [hin, if_pos (hs.holder hk)] at hq
      cases hq
    · refine ⟨blocks, part, hw.move ht rfl (fun k hk => hinside ⟨k, hk⟩) (fun k => ?_) fun _ => rfl⟩
      exact Pc.noConfusion

/-- The semaphore is given back by the process inside. -/
theorem Sound.give (hs : Sound setter s h) (hp : (s.procs p).pc = .inside 2) (hlive : s.live) :
    Sound setter (s.give p) none := by
  have ht : (s.give p).procs = Function.update s.procs p
    ⟨if (s.procs p).round + 1 < 10 then .top else .finished, (s.procs p).round + 1,
      (s.procs p).semadj - 1⟩ := rfl
  have hpc : ∀ c : Pc, c ≠ .top → c ≠ .finished →
      (if (s.procs p).round + 1 < 10 then Pc.top else .finished) ≠ c := by
    intro c htop hfin
    split_ifs
    · exact htop.symm
    · exact hfin.symm
  have hholder := hs.holder hp
  have hset : ¬ Unset setter s := fun hu => by
    have hnone := (hs.unset hlive hu).2
    rw [hholder] at hnone
    cases hnone
  have hunset : Unset setter (s.give p) ↔ Unset setter s :=
    unset_update ht (by rw [hp]; exact Pc.noConfusion)
      (hpc _ Pc.noConfusion Pc.noConfusion)
  have hzero : (s.procs p).semadj - 1 = 0 := by
    rw [hs.adj, if_pos hholder]
    rfl
  obtain ⟨hin, hadj⟩ := hs.leaves ht (fun k => hpc (.inside k) Pc.noConfusion Pc.noConfusion) hzero
  rw [if_pos hholder] at hin hadj
  refine ⟨hin, hadj, fun _ hu => absurd (hunset.mp hu) hset, fun _ _ => ?_, ?_⟩
  · show s.val + 1 = 1
    rw [hs.set hlive hset, hholder]
    rfl
  · obtain ⟨blocks, part, hw⟩ := hs.written
    refine ⟨_, _, hw.leave ht rfl hp (fun q hq => ?_) (.inl rfl)⟩
    rw [hin] at hq
    cases hq

/-- The semaphore is taken by a process that found it free. -/
theorem Sound.take (hs : Sound setter s h) (hp : (s.procs p).pc = .top) (hlive : s.live)
    (hval : 0 < s.val) : Sound setter (s.take p) (some p) := by
  have ht : (s.take p).procs = Function.update s.procs p
    ⟨.inside 0, (s.procs p).round, (s.procs p).semadj + 1⟩ := rfl
  have hset : ¬ Unset setter s := fun hu => by
    rw [(hs.unset hlive hu).1] at hval
    exact absurd hval (by decide)
  have hnone : h = none := by
    rcases h with - | q
    · rfl
    · rw [hs.set hlive hset] at hval
      exact absurd hval (by simp)
  have hunset : Unset setter (s.take p) ↔ Unset setter s :=
    unset_update ht (by rw [hp]; exact Pc.noConfusion) Pc.noConfusion
  have hout : ∀ q, ¬ s.Inside q := fun q hq => by
    have hh := (hs.inside q).mp hq
    rw [hnone] at hh
    cases hh
  refine ⟨fun q => ?_, fun q => ?_, fun _ hu => absurd (hunset.mp hu) hset, fun _ _ => ?_, ?_⟩
  · rw [inside_update ht]
    split_ifs with hq
    · simp [hq]
    · rw [hs.inside, hnone]
      simp [Ne.symm hq]
  · rw [ht]
    rcases eq_or_ne q p with rfl | hq
    · rw [Function.update_self, if_pos rfl]
      show (s.procs q).semadj + 1 = 1
      rw [hs.adj, hnone]
      rfl
    · rw [Function.update_of_ne hq, hs.adj, hnone]
      simp [Ne.symm hq]
  · show s.val - 1 = 0
    rw [hs.set hlive hset, hnone]
    rfl
  · obtain ⟨blocks, part, hw⟩ := hs.written
    have hnil := hw.nobody hout
    refine ⟨blocks, [], hw.out.trans (by rw [hnil]), fun b hb => ?_, hw.once, fun q k hk => ?_,
      fun _ => rfl⟩
    · refine (hw.closed b hb).imp_right ?_
      rintro ⟨hlt, hover⟩
      refine ⟨hlt, ?_⟩
      rw [ht, Function.update_of_ne ?_]
      · exact hover
      · rintro rfl
        rw [hp] at hover
        cases hover
    · rw [ht] at hk
      rcases eq_or_ne q p with rfl | hq
      · rw [Function.update_self] at hk
        obtain rfl := Pc.inside.inj hk
        exact ⟨rfl, Nat.zero_le 2⟩
      · rw [Function.update_of_ne hq] at hk
        exact absurd ⟨k, hk⟩ (hout q)

/-- A letter is printed by the process inside. -/
theorem Sound.print (hs : Sound setter s h) (hp : (s.procs p).pc = .inside k) (hk : k < 2) :
    Sound setter (s.print p k) h := by
  have ht : (s.print p k).procs = Function.update s.procs p
    ⟨.inside (k + 1), (s.procs p).round, (s.procs p).semadj⟩ := rfl
  have hunset : Unset setter (s.print p k) ↔ Unset setter s :=
    unset_update ht (by rw [hp]; exact Pc.noConfusion) Pc.noConfusion
  have hholder := hs.holder hp
  refine ⟨fun q => ?_, fun q => ?_, fun hlive hu => hs.unset hlive (hunset.mp hu),
    fun hlive hu => hs.set hlive fun hf => hu (hunset.mpr hf), ?_⟩
  · rw [inside_update ht]
    split_ifs with hq
    · simp [hq, hholder]
    · exact hs.inside q
  · rw [ht]
    rcases eq_or_ne q p with rfl | hq
    · rw [Function.update_self]
      exact hs.adj q
    · rw [Function.update_of_ne hq]
      exact hs.adj q
  · obtain ⟨blocks, part, hw⟩ := hs.written
    obtain ⟨hpart, -⟩ := hw.current p k hp
    refine ⟨blocks, List.replicate (k + 1) p, ?_, fun b hb => ?_, hw.once, fun q j hj => ?_,
      fun hno => ?_⟩
    · show s.out ++ [p] = _
      rw [hw.out, hpart, List.append_assoc, List.replicate_succ']
    · refine (hw.closed b hb).imp_right ?_
      rintro ⟨hlt, hover⟩
      refine ⟨hlt, ?_⟩
      rw [ht, Function.update_of_ne ?_]
      · exact hover
      · rintro rfl
        rw [hp] at hover
        cases hover
    · rw [ht] at hj
      rcases eq_or_ne q p with rfl | hq
      · rw [Function.update_self] at hj
        obtain rfl := Pc.inside.inj hj
        exact ⟨rfl, hk⟩
      · rw [Function.update_of_ne hq] at hj
        have hh := hs.holder hj
        rw [hholder] at hh
        exact absurd (Option.some.inj hh).symm hq
    · exact absurd ((inside_update ht).mpr (by rw [if_pos rfl]; exact ⟨k + 1, rfl⟩)) (hno p)

/-! ### The other steps -/

/-- `semget`, and `set_semvalue` where there is an argument. -/
theorem Sound.begin (honly : ∀ p q, setter p → setter q → p = q) (hs : Sound setter s h)
    (hp : (s.procs p).pc = .start) (hlive : s.live) :
    Sound setter ((if setter p then s.setSemvalue else s).setProc p
      { (if setter p then s.setSemvalue else s).procs p with pc := .top }) h := by
  have hout : ¬ s.Inside p := by
    rintro ⟨k, hk⟩
    rw [hp] at hk
    cases hk
  have hne : h ≠ some p := fun hh => hout ((hs.inside p).mpr hh)
  -- nobody has anything to undo when the semaphore is set
  have hpre : setter p = true → h = none ∧ s.setSemvalue = { s with val := 1 } := by
    intro hset
    have hnone : h = none := (hs.unset hlive fun q hq => honly p q hset hq ▸ hp).2
    refine ⟨hnone, ?_⟩
    have hprocs : s.setSemvalue.procs = s.procs := by
      funext q
      have hq := hs.adj q
      rw [hnone, if_neg (by simp)] at hq
      show ({ s.procs q with semadj := 0 } : Proc) = s.procs q
      rw [← hq]
    show ({ s with val := 1, procs := s.setSemvalue.procs } : State) = _
    rw [hprocs]
  have hstate : (if setter p then s.setSemvalue else s)
      = { s with val := if setter p then 1 else s.val } := by
    by_cases hset : setter p = true
    · rw [if_pos hset, if_pos hset, (hpre hset).2]
    · rw [if_neg hset, if_neg hset]
  rw [hstate]
  have ht : (State.setProc p { s.procs p with pc := .top }
      { s with val := if setter p then 1 else s.val }).procs
      = Function.update s.procs p { s.procs p with pc := .top } := rfl
  have hunset : ∀ t : State, t.procs = Function.update s.procs p { s.procs p with pc := .top } →
      Unset setter t → setter p = false ∧ Unset setter s := by
    intro t ht hu
    constructor
    · rcases e : setter p with _ | _
      · rfl
      · have hpc := hu p e
        rw [ht, Function.update_self] at hpc
        cases hpc
    · intro q hq
      rcases eq_or_ne q p with rfl | hqp
      · exact hp
      · have hpc := hu q hq
        rwa [ht, Function.update_of_ne hqp] at hpc
  refine ⟨fun q => ?_, fun q => ?_, fun _ hu => ?_, fun _ hu => ?_, ?_⟩
  · rw [inside_update ht, ← hs.inside]
    split_ifs with hq
    · exact ⟨fun ⟨k, hk⟩ => (by cases hk), fun hf => absurd (hq ▸ hf) hout⟩
    · exact Iff.rfl
  · rw [ht]
    rcases eq_or_ne q p with rfl | hq
    · rw [Function.update_self]
      exact hs.adj q
    · rw [Function.update_of_ne hq]
      exact hs.adj q
  · obtain ⟨hset, hu⟩ := hunset _ ht hu
    obtain ⟨hval, hnone⟩ := hs.unset hlive hu
    refine ⟨?_, hnone⟩
    show (if setter p then 1 else s.val) = 0
    rw [if_neg (by rw [hset]; exact Bool.false_ne_true), hval]
  · show (if setter p then 1 else s.val) = _
    by_cases hset : setter p = true
    · rw [if_pos hset, (hpre hset).1]
      rfl
    · rw [if_neg hset]
      refine hs.set hlive fun hu' => hu fun q hq => ?_
      have hqp : q ≠ p := fun he => hset (he ▸ hq)
      rw [ht, Function.update_of_ne hqp]
      exact hu' q hq
  · obtain ⟨blocks, part, hw⟩ := hs.written
    refine ⟨blocks, part, hw.move ht rfl (fun k hk => hout ⟨k, hk⟩) (fun k => Pc.noConfusion) ?_⟩
    intro hover
    rw [hp] at hover
    cases hover

/-- `del_semvalue`. -/
theorem Sound.remove (hs : Sound setter s h) : Sound setter { s with live := false } h where
  inside := hs.inside
  adj := hs.adj
  unset hf := absurd hf Bool.false_ne_true
  set hf := absurd hf Bool.false_ne_true
  written := by
    obtain ⟨blocks, part, hw⟩ := hs.written
    exact ⟨blocks, part, hw.out, hw.closed, hw.once, hw.current, hw.nobody⟩

/-- **Every step.** -/
theorem step_sound (honly : ∀ p q, setter p → setter q → p = q) (act : Act)
    (hs : ∃ h, Sound setter s h) :
    Safe (step setter act) s fun _ s' => ∃ h, Sound setter s' h := by
  obtain ⟨h, hs⟩ := hs
  rcases act with p | p | p | p | p | p
  · -- begin
    simp only [step, safe_await_bind, Bool.and_eq_true, decide_eq_true_eq]
    rintro ⟨hp, hlive⟩
    have hbegin := hs.begin honly hp hlive
    split_ifs with hset
    · rw [if_pos hset] at hbegin
      simp only [safe_store_bind, safe_store]
      exact ⟨h, hbegin⟩
    · rw [if_neg hset] at hbegin
      exact safe_store.mpr ⟨h, hbegin⟩
  · -- semaphoreP
    simp only [step, safe_await_bind, safe_load_bind, decide_eq_true_eq]
    intro hp
    split_ifs with hlive
    · simp only [safe_await_bind, safe_store, decide_eq_true_eq]
      exact fun hval => ⟨some p, hs.take hp hlive hval⟩
    · exact safe_store.mpr ⟨_, hs.exit (by rw [hp]; exact Pc.noConfusion)⟩
  · -- printf
    simp only [step, safe_load_bind, printMessage]
    split
    · next hp => exact safe_store.mpr ⟨h, hs.print hp (by decide)⟩
    · next hp => exact safe_store.mpr ⟨h, hs.print hp (by decide)⟩
    · exact safe_await.mpr fun hf => absurd hf Bool.false_ne_true
  · -- semaphoreV
    simp only [step, safe_await_bind, safe_load_bind, decide_eq_true_eq]
    intro hp
    split_ifs with hlive
    · exact safe_store.mpr ⟨none, hs.give hp hlive⟩
    · exact safe_store.mpr ⟨_, hs.exit (by rw [hp]; exact Pc.noConfusion)⟩
  · -- finish
    simp only [step, safe_await_bind, decide_eq_true_eq]
    intro hp
    have hstart : (s.procs p).pc ≠ .start := by rw [hp]; exact Pc.noConfusion
    split_ifs
    · simp only [safe_store_bind, safe_store]
      exact ⟨_, hs.remove.exit hstart⟩
    · exact safe_store.mpr ⟨_, hs.exit hstart⟩
  · -- kill
    simp only [step, safe_await_bind, safe_store, decide_eq_true_eq]
    exact fun hp => ⟨_, hs.exit hp.1⟩

theorem sound_of_runs (honly : ∀ p q, setter p → setter q → p = q) {acts : List Act}
    (hr : Runs (step setter) State.init acts s) : ∃ h, Sound setter s h :=
  hr.invariant (fun s => ∃ h, Sound setter s h) ⟨none, init_sound setter⟩
    fun act _ hs => step_sound honly act hs

/-! ### How many letters -/

/-- What a process has printed, `n` letters, is what its place in the loop says. -/
def Tally (x : Proc) (n : Nat) : Prop :=
  match x.pc with
  | .start => x.round = 0 ∧ n = 0
  | .top => x.round < 10 ∧ n = 2 * x.round
  | .inside k => x.round < 10 ∧ n = 2 * x.round + k
  | .finished => n = 20
  | .over => True

def Counted (s : State) : Prop := ∀ p, Tally (s.procs p) (s.out.count p)

theorem Counted.update {t : State} (hc : Counted s) (ht : t.procs = Function.update s.procs p x)
    (hout : ∀ q, q ≠ p → t.out.count q = s.out.count q) (hx : Tally x (t.out.count p)) :
    Counted t := by
  intro q
  rw [ht]
  rcases eq_or_ne q p with rfl | hq
  · rw [Function.update_self]
    exact hx
  · rw [Function.update_of_ne hq, hout q hq]
    exact hc q

theorem Counted.exit (hc : Counted s) (p : Nat) : Counted (s.exit p) :=
  hc.update (x := ⟨.over, (s.procs p).round, 0⟩) rfl (fun _ _ => rfl) trivial

theorem Counted.give (hc : Counted s) (hp : (s.procs p).pc = .inside 2) : Counted (s.give p) := by
  refine hc.update rfl (fun _ _ => rfl) ?_
  have htally := hc p
  simp only [Tally, hp] at htally
  show Tally ⟨_, _, _⟩ (s.out.count p)
  rw [htally.2]
  split_ifs with hlast
  · exact ⟨hlast, rfl⟩
  · show 2 * (s.procs p).round + 2 = 20
    omega

theorem Counted.print (hc : Counted s) (hp : (s.procs p).pc = .inside k) :
    Counted (s.print p k) := by
  have hother : ∀ q, q ≠ p → (s.print p k).out.count q = s.out.count q := by
    intro q hq
    show (s.out ++ [p]).count q = _
    rw [List.count_append, List.count_singleton, if_neg (by simpa using hq.symm)]
    rfl
  refine hc.update rfl hother ?_
  have htally := hc p
  simp only [Tally, hp] at htally
  refine ⟨htally.1, ?_⟩
  show (s.out ++ [p]).count p = 2 * (s.procs p).round + (k + 1)
  rw [List.count_append, List.count_singleton_self, htally.2]
  rfl

theorem Counted.begin (hc : Counted s) (hp : (s.procs p).pc = .start) :
    Counted (s.setProc p { s.procs p with pc := .top }) := by
  refine hc.update rfl (fun _ _ => rfl) ?_
  have htally := hc p
  simp only [Tally, hp] at htally
  obtain ⟨hround, hn⟩ := htally
  show Tally { s.procs p with pc := .top } (s.out.count p)
  rw [hn]
  show (s.procs p).round < 10 ∧ 0 = 2 * (s.procs p).round
  rw [hround]
  exact ⟨by decide, rfl⟩

theorem step_counted (act : Act) (hc : Counted s) :
    Safe (step setter act) s fun _ s' => Counted s' := by
  rcases act with p | p | p | p | p | p
  · -- begin
    simp only [step, safe_await_bind, Bool.and_eq_true, decide_eq_true_eq]
    rintro ⟨hp, -⟩
    split_ifs
    · simp only [safe_store_bind, safe_store]
      have hset : Counted s.setSemvalue := hc
      exact hset.begin hp
    · exact safe_store.mpr (hc.begin hp)
  · -- semaphoreP
    simp only [step, safe_await_bind, safe_load_bind, decide_eq_true_eq]
    intro hp
    have htally := hc p
    simp only [Tally, hp] at htally
    split_ifs
    · simp only [safe_await_bind, safe_store]
      exact fun _ => hc.update rfl (fun _ _ => rfl) htally
    · exact safe_store.mpr (hc.exit p)
  · -- printf
    simp only [step, safe_load_bind, printMessage]
    split
    · next hp => exact safe_store.mpr (hc.print hp)
    · next hp => exact safe_store.mpr (hc.print hp)
    · exact safe_await.mpr fun hf => absurd hf Bool.false_ne_true
  · -- semaphoreV
    simp only [step, safe_await_bind, safe_load_bind, decide_eq_true_eq]
    intro hp
    split_ifs
    · exact safe_store.mpr (hc.give hp)
    · exact safe_store.mpr (hc.exit p)
  · -- finish
    simp only [step, safe_await_bind, decide_eq_true_eq]
    intro _
    split_ifs
    · simp only [safe_store_bind, safe_store]
      have hremove : Counted { s with live := false } := hc
      exact hremove.exit p
    · exact safe_store.mpr (hc.exit p)
  · -- kill
    simp only [step, safe_await_bind, safe_store]
    exact fun _ => hc.exit p

/-! ### The results -/

/-- A process with an argument starts, and takes the semaphore it has set. -/
theorem runs_enter {acts : List Act} (hr : Runs (step setter) State.init acts s)
    (hset : setter p) (hp : (s.procs p).pc = .start) (hlive : s.live) :
    ∃ acts' s', Runs (step setter) State.init acts' s' ∧ s'.live ∧
      ∀ q, (s'.procs q).pc = if q = p then .inside 0 else (s.procs q).pc := by
  have hbegin : Returns (step setter (.begin p)) s ()
      (s.setSemvalue.setProc p { s.setSemvalue.procs p with pc := .top }) := by
    simp [step, hset, hp, hlive]
  have hone := hr.concat hbegin
  have htake : Returns (step setter (.semaphoreP p))
      (s.setSemvalue.setProc p { s.setSemvalue.procs p with pc := .top }) ()
      ((s.setSemvalue.setProc p { s.setSemvalue.procs p with pc := .top }).take p) := by
    have htop : ((s.setSemvalue.setProc p { s.setSemvalue.procs p with pc := .top }).procs p).pc
        = .top := by
      show (Function.update s.setSemvalue.procs p _ p).pc = _
      rw [Function.update_self]
    have hlive' : (s.setSemvalue.setProc p { s.setSemvalue.procs p with pc := .top }).live
        = true := hlive
    have hval : 0 < (s.setSemvalue.setProc p { s.setSemvalue.procs p with pc := .top }).val :=
      Int.one_pos
    simp [step, htop, hlive', hval]
  refine ⟨_, _, hone.concat htake, hlive, fun q => ?_⟩
  show (Function.update (Function.update s.setSemvalue.procs p _) p _ q).pc = _
  split_ifs with hq
  · rw [hq, Function.update_self]
  · rw [Function.update_of_ne hq, Function.update_of_ne hq]
    rfl

/-- **Mutual exclusion.**  No schedule lets two processes between `semaphore_p`
and `semaphore_v` iff no two processes were started with an argument. -/
theorem sem_exclusive_iff (setter : Nat → Bool) :
    (∀ acts s, Runs (step setter) State.init acts s →
      ∀ p q, s.Inside p → s.Inside q → p = q) ↔
      ∀ p q, setter p → setter q → p = q := by
  constructor
  · intro hall p q hp hq
    by_contra hne
    -- both set the semaphore, and both take it
    obtain ⟨_, s₁, hr₁, hlive₁, hpc₁⟩ := runs_enter .nil hp rfl rfl
    have hstart : (s₁.procs q).pc = .start := by
      rw [hpc₁, if_neg (Ne.symm hne)]
      rfl
    obtain ⟨acts, s₂, hr₂, -, hpc₂⟩ := runs_enter hr₁ hq hstart hlive₁
    refine hne (hall acts s₂ hr₂ p q ⟨0, ?_⟩ ⟨0, ?_⟩)
    · rw [hpc₂, if_neg hne, hpc₁, if_pos rfl]
    · rw [hpc₂, if_pos rfl]
  · intro honly acts s hr p q hp hq
    obtain ⟨h, hs⟩ := sound_of_runs honly hr
    have hh := (hs.inside p).mp hp
    rw [(hs.inside q).mp hq] at hh
    exact (Option.some.inj hh).symm

/-- **What they print.**  Where at most one process was started with an
argument, the letters on the terminal are blocks of two, but for one shorter block of
each process killed between its letters, and what the process inside has
printed so far; a process that has finished its loop printed its letter twenty
times; and the semaphore can be taken whenever it has been set and nobody is
inside. -/
theorem sem_output (honly : ∀ p q, setter p → setter q → p = q) {acts : List Act}
    (hr : Runs (step setter) State.init acts s) :
    (∃ blocks part, Written s blocks part) ∧
      (∀ p, (s.procs p).pc = .finished → s.out.count p = 20) ∧
      (s.live → ¬ Unset setter s → (∀ p, ¬ s.Inside p) → s.val = 1) := by
  obtain ⟨h, hs⟩ := sound_of_runs honly hr
  have hinit : Counted State.init := fun _ => show _ = 0 ∧ _ = 0 from ⟨rfl, rfl⟩
  have hc : Counted s := hr.invariant Counted hinit fun act _ hc => step_counted act hc
  refine ⟨hs.written, fun p hp => ?_, fun hlive hset hno => ?_⟩
  · have htally := hc p
    simp only [Tally, hp] at htally
    exact htally
  · have hnone : h = none := by
      rcases h with - | p
      · rfl
      · exact absurd ((hs.inside p).mpr rfl) (hno p)
    rw [hs.set hlive hset, hnone]
    rfl

instance (p : Nat) (pc : Pc) : Loopless (printMessage p pc) := by
  unfold printMessage
  split <;> infer_instance

instance (act : Act) : Loopless (step setter act) := by
  cases act <;> unfold step <;> infer_instance

/-- The second process is killed between its letters. -/
theorem sem_output_killed : ∃ s, s.out = [1, 0, 0] ∧ ∃ blocks part, Written s blocks part := by
  have hrun : ∃ s, exec (step fun p => p == 0)
      [.begin 0, .begin 1, .semaphoreP 1, .printf 1, .kill 1, .semaphoreP 0, .printf 0, .printf 0]
      State.init = some s ∧ s.out = [1, 0, 0] := ⟨_, rfl, rfl⟩
  obtain ⟨s, hexec, hout⟩ := hrun
  have honly : ∀ p q : Nat, (p == 0) = true → (q == 0) = true → p = q := fun p q hp hq =>
    (beq_iff_eq.mp hp).trans (beq_iff_eq.mp hq).symm
  exact ⟨s, hout, (sem_output honly (Runs.of_exec hexec)).1⟩

end DmfServer.SemTest
