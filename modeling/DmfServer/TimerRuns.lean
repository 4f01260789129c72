/-
DmfServer/TimerRuns.lean

Whole runs of the timer list: calls of `addTimer`, `deleteTimer` and
`executeTimers` in any order, with call backs that do not touch the list.

`Trace s₀ calls s` says that the calls, made one after the other from `s₀`,
lead to `s`; each call carries the clock it reads and the call backs it
makes.  The only thing asked of a caller is that `addTimer` is given a timer
that is not in the list.

Every operation is first reduced to one on lists (`op_returns`); a run then
is a run of lists.  Two results come of it.

* `timer_conservation` — no timer is lost, duplicated or fired twice.  The
  list holds exactly the timers whose last call was the `addTimer`
  (`Outstanding`), and a timer is called back only while it is outstanding
  and due.
* `executeTimers_in_order_iff` — the list is a priority queue exactly as
  long as every `addTimer` comes with an expiry at one of the two ends of
  the expiries queued.  The pass of `heapify` restores no other order: see
  `addTimer_breaks_order`.
-/
import DmfServer.Timer

namespace DmfServer

open Imperative Imperative.Prog

variable {τ κ : Type}

/-- A call of the program on the timer list. -/
inductive Op (τ κ : Type) where
  | add (t : τ) (delay : Int) (callback : κ)
  | delete (target : Option τ)
  | execute

/-- A call in a run: the clock it reads and the call backs it makes. -/
structure Call (τ κ : Type) where
  now : Int
  op : Op τ κ
  fired : List (τ × κ)

/-- The call deals with `t`: it adds it, deletes it or calls it back. -/
def Call.Touches (c : Call τ κ) (t : τ) : Prop :=
  (∃ delay callback, c.op = .add t delay callback) ∨ c.op = .delete (some t) ∨
    t ∈ c.fired.map Prod.fst

/-- After the calls `calls`, the timer `t` is waiting for `expire`: the last
call that dealt with it is the `addTimer` that asked for it. -/
def Outstanding (calls : List (Call τ κ)) (t : τ) (expire : Int) (callback : κ) : Prop :=
  ∃ before a after delay, calls = before ++ a :: after ∧ a.op = .add t delay callback ∧
    expire = a.now + delay ∧ ∀ c ∈ after, ¬ c.Touches t

/-- Only a timer that is not in the list is added. -/
def Op.Legal (s : Timers τ κ) : Op τ κ → Prop
  | .add t _ _ => ∀ l, Queue s l → t ∉ l
  | _ => True

variable [DecidableEq τ]

/-- The function called. -/
def Op.prog (now : Int) : Op τ κ → Prog (Timers τ κ) Unit
  | .add t delay callback => addTimer now t delay callback
  | .delete target => deleteTimer target
  | .execute => executeTimers idle now

/-- A run of calls from `s₀`. -/
inductive Trace (s₀ : Timers τ κ) : List (Call τ κ) → Timers τ κ → Prop
  | start : Trace s₀ [] s₀
  | call {calls s s'} (now : Int) (op : Op τ κ) :
      Trace s₀ calls s → op.Legal s → Returns (op.prog now) s () s' →
      Trace s₀ (calls ++ [⟨now, op, s'.calls.drop s.calls.length⟩]) s'

/-! ### The operations on lists -/

namespace Op

/-- The expiry times after the operation. -/
def expire (now : Int) (key : τ → Int) : Op τ κ → τ → Int
  | .add t delay _ => Function.update key t (now + delay)
  | _ => key

/-- The function pointers after the operation. -/
def callback (cb : τ → κ) : Op τ κ → τ → κ
  | .add t _ c => Function.update cb t c
  | _ => cb

/-- The list after the operation. -/
def onList (now : Int) (key : τ → Int) (l : List τ) : Op τ κ → List τ
  | .add t delay _ => pass (Function.update key t (now + delay)) (l ++ [t])
  | .delete none => l
  | .delete (some t) => deleteList key t l
  | .execute => l.dropWhile (key · ≤ now)

omit [DecidableEq τ] in
/-- The timers the operation calls back, in order. -/
def fires (now : Int) (key : τ → Int) (l : List τ) : Op τ κ → List τ
  | .execute => l.takeWhile (key · ≤ now)
  | _ => []

end Op

variable {s s' s₀ : Timers τ κ} {l : List τ} {calls : List (Call τ κ)}

/-- **Every operation terminates**, and does to the list what its function on
lists says. -/
theorem op_returns (hq : Queue s l) (now : Int) (op : Op τ κ) (hlegal : op.Legal s) :
    ∃ s', Returns (op.prog now) s () s' ∧ Queue s' (op.onList now s.expire l) ∧
      s'.expire = op.expire now s.expire ∧ s'.callback = op.callback s.callback ∧
      s'.calls = s.calls ++ (op.fires now s.expire l).map fun t => (t, s.callback t) := by
  cases op with
  | add t delay callback =>
      obtain ⟨s', hret, hq', hrel⟩ := addTimer_returns hq (hlegal l hq) now delay callback
      refine ⟨s', hret, hq', ?_, ?_, ?_⟩
      · rw [hrel.expire, expire_arm]; rfl
      · rw [hrel.callback, callback_arm]; rfl
      · rw [hrel.calls, calls_arm]; simp [Op.fires]
  | delete target =>
      cases target with
      | none => exact ⟨s, deleteTimer_null, hq, rfl, rfl, by simp [Op.fires]⟩
      | some t =>
          obtain ⟨s', hret, hq', hrel⟩ := deleteTimer_returns hq t
          exact ⟨s', hret, hq', hrel.expire, hrel.callback, by simp [hrel.calls, Op.fires]⟩
  | execute => exact executeTimers_returns hq now

/-- The same, for a call that did return. -/
theorem op_effect (hq : Queue s l) {now : Int} {op : Op τ κ} (hlegal : op.Legal s)
    (hret : Returns (op.prog now) s () s') :
    Queue s' (op.onList now s.expire l) ∧
      s'.expire = op.expire now s.expire ∧ s'.callback = op.callback s.callback ∧
      s'.calls.drop s.calls.length
        = (op.fires now s.expire l).map fun t => (t, s.callback t) := by
  obtain ⟨s'', hret', hq', he, hc, hcalls⟩ := op_returns hq now op hlegal
  obtain ⟨-, rfl⟩ := hret.unique hret'
  exact ⟨hq', he, hc, by rw [hcalls, List.drop_left]⟩

/-! ### Conservation -/

omit [DecidableEq τ] in
/-- Nothing is outstanding before the first call. -/
theorem not_outstanding_nil {t : τ} {e : Int} {c : κ} : ¬ Outstanding [] t e c := by
  rintro ⟨before, a, after, -, h, -⟩
  simp at h

omit [DecidableEq τ] in
/-- What one more call does to what is outstanding. -/
theorem outstanding_concat {c : Call τ κ} {t : τ} {e : Int} {cb : κ} :
    Outstanding (calls ++ [c]) t e cb ↔
      (∃ delay, c.op = .add t delay cb ∧ e = c.now + delay) ∨
        (¬ c.Touches t ∧ Outstanding calls t e cb) := by
  constructor
  · rintro ⟨before, a, after, delay, heq, hop, he, hafter⟩
    rcases List.eq_nil_or_concat after with rfl | ⟨after', c', rfl⟩
    · obtain ⟨-, rfl⟩ := List.append_inj' (heq.trans rfl) rfl |>.imp_right List.singleton_inj.mp
      exact Or.inl ⟨delay, hop, he⟩
    · rw [List.concat_eq_append, ← List.cons_append, ← List.append_assoc] at heq
      obtain ⟨rfl, hc⟩ := List.append_inj' heq rfl
      obtain rfl := List.singleton_inj.mp hc
      refine Or.inr ⟨hafter _ (by simp), before, a, after', delay, rfl, hop, he, ?_⟩
      intro c' hc'
      exact hafter c' (by simp [hc'])
  · rintro (⟨delay, hop, he⟩ | ⟨hc, before, a, after, delay, rfl, hop, he, hafter⟩)
    · exact ⟨calls, c, [], delay, rfl, hop, he, by simp⟩
    · refine ⟨before, a, after ++ [c], delay, by simp, hop, he, ?_⟩
      intro c' hc'
      rcases List.mem_append.mp hc' with h | h
      · exact hafter c' h
      · rw [List.mem_singleton.mp h]
        exact hc

/-- The list `l` of `s` holds what is outstanding after `calls`, and the nodes
carry what was asked for. -/
structure Represents (calls : List (Call τ κ)) (s : Timers τ κ) (l : List τ) : Prop where
  queue : Queue s l
  outstanding : ∀ t e c, Outstanding calls t e c ↔ t ∈ l ∧ e = s.expire t ∧ c = s.callback t

omit [DecidableEq τ] in
/-- The timers a call of `executeTimers` takes off, and those it leaves. -/
theorem mem_dropWhile_iff {p : τ → Bool} (hnd : l.Nodup) {t : τ} :
    t ∈ l.dropWhile p ↔ t ∈ l ∧ t ∉ l.takeWhile p := by
  have h := List.takeWhile_append_dropWhile (p := p) (l := l)
  rw [← h] at hnd
  have hd := (List.nodup_append.mp hnd).2.2
  constructor
  · intro ht
    exact ⟨(List.dropWhile_suffix p).subset ht, fun hm => hd t hm t ht rfl⟩
  · rintro ⟨ht, hm⟩
    rw [← h] at ht
    exact (List.mem_append.mp ht).resolve_left hm

/-- **One call keeps the representation.** -/
theorem Represents.call (hr : Represents calls s l) {now : Int} {op : Op τ κ}
    (hlegal : op.Legal s) (hret : Returns (op.prog now) s () s') :
    Represents (calls ++ [⟨now, op, s'.calls.drop s.calls.length⟩]) s'
      (op.onList now s.expire l) := by
  obtain ⟨hq', he, hc, hfired⟩ := op_effect hr.queue hlegal hret
  have hnd := Chain.nodup hr.queue
  refine ⟨hq', fun t e c => ?_⟩
  rw [outstanding_concat, hr.outstanding, he, hc, hfired]
  cases op with
  | add u delay cb =>
      have hu : u ∉ l := hlegal l hr.queue
      by_cases htu : t = u
      · subst htu
        simp [Call.Touches, Op.fires, Op.onList, Op.expire, Op.callback, and_comm, eq_comm]
      · have hut : u ≠ t := Ne.symm htu
        simp [Call.Touches, Op.fires, Op.onList, Op.expire, Op.callback, htu, hut]
  | delete target =>
      cases target with
      | none => simp [Call.Touches, Op.fires, Op.onList, Op.expire, Op.callback]
      | some u =>
          have hm : t ∈ deleteList s.expire u l ↔ t ≠ u ∧ t ∈ l :=
            deleteList_perm.mem_iff.trans hnd.mem_erase_iff
          simp [Call.Touches, Op.fires, Op.onList, Op.expire, Op.callback, hm, eq_comm,
            and_assoc]
  | execute =>
      simp only [Call.Touches, Op.fires, Op.onList, Op.expire, Op.callback,
        mem_dropWhile_iff hnd]
      simp [Function.comp_def]
      tauto

/-- Every run from an empty list is represented by a list. -/
theorem Trace.represents (h₀ : s₀.heap = none) (h : Trace s₀ calls s) :
    ∃ l, Represents calls s l := by
  induction h with
  | start => exact ⟨[], h₀, fun t e c => by simp [not_outstanding_nil]⟩
  | call now op _ hlegal hret ih =>
      obtain ⟨l, hr⟩ := ih
      exact ⟨_, hr.call hlegal hret⟩

/-- The last call of a run, with the states before and after it. -/
theorem Trace.concat_inv {c : Call τ κ} (h : Trace s₀ (calls ++ [c]) s) :
    ∃ s₁, Trace s₀ calls s₁ ∧ c.op.Legal s₁ ∧ Returns (c.op.prog c.now) s₁ () s ∧
      c.fired = s.calls.drop s₁.calls.length := by
  generalize heq : calls ++ [c] = calls' at h
  cases h with
  | start => simp at heq
  | @call calls₁ s₁ _ now op htr hlegal hret =>
      obtain ⟨rfl, hc⟩ := List.append_inj' heq rfl
      obtain rfl := List.singleton_inj.mp hc
      exact ⟨s₁, htr, hlegal, hret, rfl⟩

/-- The first calls of a run are a run. -/
theorem Trace.of_append {after : List (Call τ κ)} (h : Trace s₀ (calls ++ after) s) :
    ∃ s₁, Trace s₀ calls s₁ := by
  induction after using List.reverseRecOn generalizing s with
  | nil => exact ⟨s, by simpa using h⟩
  | append_singleton after c ih =>
      rw [← List.append_assoc] at h
      obtain ⟨s₁, htr, -⟩ := h.concat_inv
      exact ih htr

/-- The calls determine the state. -/
theorem Trace.unique (h : Trace s₀ calls s) (h' : Trace s₀ calls s') : s = s' := by
  induction calls using List.reverseRecOn generalizing s s' with
  | nil =>
      have hstart : ∀ u, Trace s₀ [] u → u = s₀ := by
        intro u hu
        generalize heq : ([] : List (Call τ κ)) = calls' at hu
        cases hu with
        | start => rfl
        | call => simp at heq
      rw [hstart s h, hstart s' h']
  | append_singleton calls c ih =>
      obtain ⟨s₁, htr, -, hret, -⟩ := h.concat_inv
      obtain ⟨s₁', htr', -, hret', -⟩ := h'.concat_inv
      obtain rfl := ih htr htr'
      exact (hret.unique hret').2

/-- A call back is for a timer that is outstanding and due, and a call makes
at most one for each. -/
theorem Trace.fired (h₀ : s₀.heap = none) (h : Trace s₀ calls s)
    {before after : List (Call τ κ)} {c : Call τ κ} (heq : calls = before ++ c :: after) :
    (c.fired.map Prod.fst).Nodup ∧
      ∀ t cb, (t, cb) ∈ c.fired → ∃ e, Outstanding before t e cb ∧ e ≤ c.now := by
  rw [heq, ← List.singleton_append, ← List.append_assoc] at h
  obtain ⟨s₂, h₂⟩ := h.of_append
  obtain ⟨s₁, htr, hlegal, hret, hfired⟩ := h₂.concat_inv
  obtain ⟨l, hr⟩ := htr.represents h₀
  rw [hfired, (op_effect hr.queue hlegal hret).2.2.2]
  cases hop : c.op with
  | add | delete => simp [Op.fires]
  | execute =>
      refine ⟨?_, ?_⟩
      · simp only [Op.fires, List.map_map, Function.comp_def, List.map_id']
        exact (Chain.nodup hr.queue).sublist (List.takeWhile_sublist _)
      · intro t cb hm
        obtain ⟨u, hu, heq⟩ := List.mem_map.mp hm
        obtain ⟨rfl, rfl⟩ := Prod.mk.inj heq
        refine ⟨s₁.expire u, (hr.outstanding _ _ _).mpr ⟨?_, rfl, rfl⟩, ?_⟩
        · exact (List.takeWhile_sublist _).subset hu
        · simpa using List.mem_takeWhile_imp hu

/-- **Conservation of timers.**  After any run from an empty list:

* the list from `heap` is finite and acyclic, and holds once each timer that
  was added and has since been neither deleted nor called back;
* every further operation terminates;
* `heapify` permutes the list, `deleteTimer` takes out its target and
  nothing else;
* every call back was for a timer that was outstanding, with the function
  pointer it was added with, at or after its expiry, once in a call. -/
theorem timer_conservation (h₀ : s₀.heap = none) (h : Trace s₀ calls s) :
    (∃ l, Queue s l ∧ l.Nodup ∧ ∀ t, t ∈ l ↔ ∃ e c, Outstanding calls t e c) ∧
    (∀ now (op : Op τ κ), op.Legal s → ∃ s', Returns (op.prog now) s () s') ∧
    (∀ (u : Timers τ κ) l, Queue u l → l ≠ [] →
      ∃ u' l', Returns heapify u () u' ∧ Queue u' l' ∧ l'.Perm l) ∧
    (∀ l t, Queue s l →
      ∃ s' l', Returns (deleteTimer (some t)) s () s' ∧ Queue s' l' ∧ l'.Perm (l.erase t)) ∧
    (∀ before c after, calls = before ++ c :: after →
      (c.fired.map Prod.fst).Nodup ∧
        ∀ t cb, (t, cb) ∈ c.fired → ∃ e, Outstanding before t e cb ∧ e ≤ c.now) := by
  obtain ⟨l, hr⟩ := h.represents h₀
  refine ⟨⟨l, hr.queue, Chain.nodup hr.queue, fun t => ?_⟩, ?_, ?_, ?_, ?_⟩
  · constructor
    · intro ht
      exact ⟨_, _, (hr.outstanding t _ _).mpr ⟨ht, rfl, rfl⟩⟩
    · rintro ⟨e, c, ho⟩
      exact ((hr.outstanding t e c).mp ho).1
  · intro now op hlegal
    obtain ⟨s', hret, -⟩ := op_returns hr.queue now op hlegal
    exact ⟨s', hret⟩
  · intro u l hq hl
    obtain ⟨u', hret, hq', -⟩ := heapify_returns hq hl
    exact ⟨u', _, hret, hq', pass_perm⟩
  · intro l t hq
    obtain ⟨s', hret, hq', -⟩ := deleteTimer_returns hq t
    exact ⟨s', _, hret, hq', deleteList_perm⟩
  · intro before c after heq
    exact h.fired h₀ heq

/-! ### A run of three timers -/

/-- The empty list, in a memory whose nodes hold `c`. -/
def emptyTimers (c : κ) : Timers τ κ := ⟨none, fun _ => ⟨0, c, none⟩, []⟩

/-- A run goes on with any operation that is legal for the list it has. -/
theorem Trace.extend (h : Trace s₀ calls s) (hq : Queue s l) (now : Int) (op : Op τ κ)
    (hlegal : ∀ t delay c, op = .add t delay c → t ∉ l) :
    ∃ s', Trace s₀ (calls ++ [⟨now, op, (op.fires now s.expire l).map
        fun t => (t, s.callback t)⟩]) s' ∧
      Queue s' (op.onList now s.expire l) ∧ s'.expire = op.expire now s.expire := by
  have hl : op.Legal s := by
    cases op with
    | add t delay c =>
        intro l' hq'
        rw [Chain.unique hq' hq]
        exact hlegal t delay c rfl
    | delete | execute => trivial
  obtain ⟨s', hret, hq', he, -, hcalls⟩ := op_returns hq now op hl
  have htr := Trace.call now op h hl hret
  rw [hcalls, List.drop_left] at htr
  exact ⟨s', htr, hq', he⟩

/-- Three timers added at time 0, due at 1, 3 and 2: the third is put in
front of the first, which is due before it. -/
theorem three_timers :
    ∃ s, Trace (emptyTimers ()) [⟨0, .add 0 1 (), []⟩, ⟨0, .add 1 3 (), []⟩,
        ⟨0, .add 2 2 (), []⟩] s ∧ Queue s [2, 0, 1] ∧
      s.expire 0 = 1 ∧ s.expire 1 = 3 ∧ s.expire 2 = 2 := by
  have h₀ : Trace (emptyTimers ()) [] (emptyTimers () : Timers Nat Unit) := .start
  obtain ⟨s₁, h₁, hq₁, he₁⟩ := h₀.extend (l := []) rfl 0 (.add 0 1 ()) (by simp)
  obtain ⟨s₂, h₂, hq₂, he₂⟩ := h₁.extend (l := [0]) hq₁ 0 (.add 1 3 ()) (by simp)
  rw [he₁] at hq₂ he₂
  obtain ⟨s₃, h₃, hq₃, he₃⟩ := h₂.extend (l := [0, 1]) hq₂ 0 (.add 2 2 ()) (by simp)
  rw [he₂] at hq₃ he₃
  refine ⟨s₃, h₃, hq₃, ?_⟩
  rw [he₃]
  decide

theorem timer_conservation_three :
    ∃ (s : Timers Nat Unit) (l : List Nat), Queue s l ∧ l.Nodup ∧ ∀ t, t ∈ l ↔ ∃ e c, Outstanding
      [⟨0, .add 0 1 (), []⟩, ⟨0, .add 1 3 (), []⟩, ⟨0, .add 2 2 (), []⟩,
        ⟨2, .execute, [(2, ()), (0, ())]⟩] t e c := by
  obtain ⟨s₃, h₃, hq₃, e₀, e₁, e₂⟩ := three_timers
  obtain ⟨s, h, -⟩ := h₃.extend hq₃ 2 .execute (by simp)
  have hf : (Op.execute (τ := Nat) (κ := Unit)).fires 2 s₃.expire [2, 0, 1] = [2, 0] := by
    simp [Op.fires, e₀, e₁, e₂]
  rw [hf] at h
  exact ⟨s, (timer_conservation rfl h).1⟩

/-! ### Order -/

/-- What a priority queue does when `executeTimers` is called at `now`: it
calls back exactly the timers due, in non-decreasing order of expiry, and
keeps exactly the others. -/
def FiresDue (s : Timers τ κ) (now : Int) : Prop :=
  ∃ l s' l' fired, Queue s l ∧ Returns (executeTimers idle now) s () s' ∧ Queue s' l' ∧
    s'.calls = s.calls ++ fired.map (fun t => (t, s.callback t)) ∧
    fired.Perm (l.filter (s.expire · ≤ now)) ∧ Ordered s.expire fired ∧
    l'.Perm (l.filter (now < s.expire ·))

/-- An `addTimer` in state `s` whose expiry is no later than every expiry
queued, or no earlier than every one. -/
def AtAnEnd (s : Timers τ κ) (c : Call τ κ) : Prop :=
  match c.op with
  | .add _ delay _ => ∀ l, Queue s l →
      (∀ u ∈ l, c.now + delay ≤ s.expire u) ∨ ∀ u ∈ l, s.expire u ≤ c.now + delay
  | _ => True

omit [DecidableEq τ] in
/-- In an ordered list the due timers are at the front. -/
theorem takeWhile_due {key : τ → Int} (h : Ordered key l) (now : Int) :
    l.takeWhile (key · ≤ now) = l.filter (key · ≤ now) ∧
      l.dropWhile (key · ≤ now) = l.filter (now < key ·) := by
  induction l with
  | nil => exact ⟨rfl, rfl⟩
  | cons t l ih =>
      obtain ⟨ht, hl⟩ := List.pairwise_cons.mp h
      obtain ⟨ih₁, ih₂⟩ := ih hl
      by_cases hdue : key t ≤ now
      · simp [hdue, ih₁, ih₂]
      · have hlate : ∀ u ∈ l, now < key u := fun u hu =>
          lt_of_lt_of_le (not_le.mp hdue) (ht u hu)
        have hnone : l.filter (key · ≤ now) = [] :=
          List.filter_eq_nil_iff.mpr fun u hu => by simpa using hlate u hu
        have hall : l.filter (now < key ·) = l :=
          List.filter_eq_self.mpr fun u hu => by simpa using hlate u hu
        simp [hdue, not_le.mp hdue, hnone, hall]

omit [DecidableEq τ] in
/-- An ordered list is a priority queue. -/
theorem firesDue_of_ordered (hq : Queue s l) (ho : Ordered s.expire l) (now : Int) :
    FiresDue s now := by
  obtain ⟨s', hret, hq', -, -, hcalls⟩ := executeTimers_returns hq now
  obtain ⟨htake, hdrop⟩ := takeWhile_due ho now
  refine ⟨l, s', _, _, hq, hret, hq', hcalls, ?_, ?_, ?_⟩
  · rw [htake]
  · exact ho.sublist (List.takeWhile_sublist _)
  · rw [hdrop]

omit [DecidableEq τ] in
/-- Conversely, a list all of which is due is called back in its own order,
so a priority queue is ordered. -/
theorem ordered_of_firesDue (hq : Queue s l) {now : Int} (hdue : ∀ t ∈ l, s.expire t ≤ now)
    (h : FiresDue s now) : Ordered s.expire l := by
  obtain ⟨l₁, s₁, l', fired, hq₁, hret₁, -, hcalls₁, -, ho, -⟩ := h
  obtain rfl := Chain.unique hq₁ hq
  obtain ⟨s₂, hret₂, -, -, -, hcalls₂⟩ := executeTimers_returns hq now
  obtain ⟨-, rfl⟩ := hret₁.unique hret₂
  have htake : l₁.takeWhile (s.expire · ≤ now) = l₁ :=
    List.takeWhile_eq_self_iff.mpr fun t ht => by simpa using hdue t ht
  rw [htake] at hcalls₂
  have hmap := List.append_cancel_left (hcalls₁.symm.trans hcalls₂)
  have hfst := congrArg (List.map Prod.fst) hmap
  simp only [List.map_map, Function.comp_def, List.map_id'] at hfst
  rw [← hfst]
  exact ho

/-- A legal call keeps the list ordered exactly if it is not an `addTimer`
between two expiries. -/
theorem ordered_onList_iff (hq : Queue s l) (ho : Ordered s.expire l) {c : Call τ κ}
    (hlegal : c.op.Legal s) :
    Ordered (c.op.expire c.now s.expire) (c.op.onList c.now s.expire l) ↔ AtAnEnd s c := by
  obtain ⟨now, op, fired⟩ := c
  cases op with
  | add t delay cb =>
      have ht : t ∉ l := hlegal l hq
      have hne : ∀ u ∈ l, Function.update s.expire t (now + delay) u = s.expire u := by
        intro u hu
        exact Function.update_of_ne (ne_of_mem_of_not_mem hu ht) _ _
      have ho' : Ordered (Function.update s.expire t (now + delay)) l :=
        ho.imp_of_mem fun ha hb hab => by rw [hne _ ha, hne _ hb]; exact hab
      show Ordered (Function.update s.expire t (now + delay)) (pass _ (l ++ [t])) ↔ _
      rw [pass_concat_ordered_iff ho', Function.update_self]
      constructor
      · rintro h l' hq'
        rw [Chain.unique hq' hq]
        exact h.imp (fun h u hu => hne u hu ▸ h u hu) (fun h u hu => hne u hu ▸ h u hu)
      · intro h
        exact (h l hq).imp (fun h u hu => (hne u hu).symm ▸ h u hu)
          (fun h u hu => (hne u hu).symm ▸ h u hu)
  | delete target =>
      refine iff_of_true ?_ trivial
      cases target with
      | none => exact ho
      | some t =>
          show Ordered s.expire (deleteList s.expire t l)
          cases l with
          | nil => exact ho
          | cons first rest =>
              obtain ⟨-, hrest⟩ := List.pairwise_cons.mp ho
              rw [deleteList]
              split
              · exact hrest
              · split
                · have hsub : Ordered s.expire (first :: rest.erase t) :=
                    ho.sublist (List.erase_sublist.cons_cons first)
                  rw [pass_eq_self hsub]
                  exact hsub
                · exact ho
  | execute =>
      refine iff_of_true ?_ trivial
      exact ho.sublist (List.dropWhile_sublist _)

/-- **When the list is a priority queue.**  Along a run from an empty list,
`executeTimers` would at every point and every later time call back exactly
the timers due, in order of expiry, if and only if every `addTimer` of the
run comes with an expiry at one of the two ends of those queued. -/
theorem executeTimers_in_order_iff (h₀ : s₀.heap = none) (h : Trace s₀ calls s) :
    (∀ before s₁, before <+: calls → Trace s₀ before s₁ →
      ∀ now, (∀ c ∈ before, c.now ≤ now) → FiresDue s₁ now) ↔
    (∀ before c s₁, before ++ [c] <+: calls → Trace s₀ before s₁ → AtAnEnd s₁ c) := by
  constructor
  · intro hfire before c s₁ hpre htr
    -- a priority queue before the call and after it: ordered before and after
    have hord : ∀ pre s₂ l₂, pre <+: calls → Trace s₀ pre s₂ → Queue s₂ l₂ →
        Ordered s₂.expire l₂ := by
      intro pre s₂ l₂ hp ht hq
      obtain ⟨now, hnow⟩ := Finset.exists_le (l₂.map s₂.expire ++ pre.map (·.now)).toFinset
      have hle : ∀ x ∈ l₂.map s₂.expire ++ pre.map (·.now), x ≤ now := fun x hx =>
        hnow x (List.mem_toFinset.mpr hx)
      refine ordered_of_firesDue hq (fun t ht => ?_) (hfire pre s₂ hp ht now fun c hc => ?_)
      · exact hle _ (List.mem_append_left _ (List.mem_map_of_mem ht))
      · exact hle _ (List.mem_append_right _ (List.mem_map_of_mem hc))
    obtain ⟨after, rfl⟩ := hpre
    obtain ⟨s₂, htr₂⟩ := h.of_append
    obtain ⟨s₁', htr', hlegal, hret, -⟩ := htr₂.concat_inv
    obtain rfl := htr.unique htr'
    obtain ⟨l, hr⟩ := htr.represents h₀
    have hpre₁ : before <+: before ++ [c] ++ after := ⟨[c] ++ after, by simp⟩
    have ho := hord before s₁ l hpre₁ htr hr.queue
    obtain ⟨hq₂, he₂, -⟩ := op_effect hr.queue hlegal hret
    have ho₂ := hord _ s₂ _ (List.prefix_append _ after) htr₂ hq₂
    rw [he₂] at ho₂
    exact (ordered_onList_iff hr.queue ho hlegal).mp ho₂
  · intro hends before s₁ hpre htr now hnow
    clear hnow
    suffices hord : ∃ l, Queue s₁ l ∧ Ordered s₁.expire l by
      obtain ⟨l, hq, ho⟩ := hord
      exact firesDue_of_ordered hq ho now
    -- along the run, one call after the other
    induction before using List.reverseRecOn generalizing s₁ with
    | nil =>
        obtain rfl := htr.unique .start
        exact ⟨[], h₀, List.Pairwise.nil⟩
    | append_singleton before c ih =>
        obtain ⟨s₂, htr₂, hlegal, hret, -⟩ := htr.concat_inv
        obtain ⟨l, hq, ho⟩ := ih s₂ ((List.prefix_append _ _).trans hpre) htr₂
        obtain ⟨hq₁, he₁, -⟩ := op_effect hq hlegal hret
        refine ⟨_, hq₁, ?_⟩
        rw [he₁]
        exact (ordered_onList_iff hq ho hlegal).mpr (hends before c s₂ hpre htr₂)

/-- The run of `three_timers`, at time 1: the first timer is due and is not
called back, the third one stands in front of it. -/
theorem addTimer_breaks_order :
    ¬ ∀ (calls : List (Call Nat Unit)) (s : Timers Nat Unit), Trace (emptyTimers ()) calls s →
      calls.Pairwise (fun c d => c.now ≤ d.now) →
      ∀ now, (∀ c ∈ calls, c.now ≤ now) → FiresDue s now := by
  intro hall
  obtain ⟨s, h, hq, e₀, e₁, e₂⟩ := three_timers
  obtain ⟨l, s', l', fired, hq₁, hret, -, hcalls, hperm, -⟩ :=
    hall _ s h (by simp) 1 (by simp)
  obtain rfl := Chain.unique hq₁ hq
  obtain ⟨s'', hret'', -, -, -, hcalls''⟩ := executeTimers_returns hq 1
  obtain ⟨-, rfl⟩ := hret.unique hret''
  rw [hcalls] at hcalls''
  have hnone : fired = [] := by
    simpa [e₀, e₁, e₂] using hcalls''
  rw [hnone] at hperm
  simpa [e₀, e₁, e₂] using hperm.length_eq

/-- Timers 0 and 1 of `three_timers` are added in the order of expiry: their
run is one of a priority queue. -/
theorem executeTimers_in_order_two :
    ∃ s : Timers Nat Unit, Trace (emptyTimers ()) [⟨0, .add 0 1 (), []⟩, ⟨0, .add 1 3 (), []⟩] s ∧
      ∀ before s₁, before <+: [⟨0, .add 0 1 (), []⟩, ⟨0, .add 1 3 (), []⟩] →
        Trace (emptyTimers ()) before s₁ →
        ∀ now, (∀ c ∈ before, c.now ≤ now) → FiresDue s₁ now := by
  have h₀ : Trace (emptyTimers ()) [] (emptyTimers () : Timers Nat Unit) := .start
  obtain ⟨s₁, h₁, hq₁, he₁⟩ := h₀.extend (l := []) rfl 0 (.add 0 1 ()) (by simp)
  obtain ⟨s₂, h₂, -⟩ := h₁.extend (l := [0]) hq₁ 0 (.add 1 3 ()) (by simp)
  refine ⟨s₂, h₂, (executeTimers_in_order_iff rfl h₂).mpr ?_⟩
  intro before c s' hpre htr
  rcases before with - | ⟨a, - | ⟨b, rest⟩⟩
  · obtain rfl := htr.unique h₀
    obtain ⟨rfl, -⟩ := List.cons_prefix_cons.mp hpre
    intro l hq
    have hnil : Queue (emptyTimers () : Timers Nat Unit) [] := rfl
    obtain rfl := Chain.unique hq hnil
    exact Or.inl fun u hu => absurd hu List.not_mem_nil
  · obtain ⟨rfl, hc⟩ := List.cons_prefix_cons.mp hpre
    obtain ⟨rfl, -⟩ := List.cons_prefix_cons.mp hc
    obtain rfl := htr.unique h₁
    intro l hq
    obtain rfl := Chain.unique hq hq₁
    refine Or.inr fun u hu => ?_
    obtain rfl : u = 0 := by simpa [Op.onList, Imperative.pass, moveFront] using hu
    rw [he₁]
    show Function.update (fun _ => (0 : Int)) 0 (0 + 1) 0 ≤ 0 + 3
    decide
  · have hlen := hpre.length_le
    simp at hlen

end DmfServer
