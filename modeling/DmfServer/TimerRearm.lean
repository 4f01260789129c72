/-
DmfServer/TimerRearm.lean

`addTimer` on a timer that may already be in the list.

For a timer outside the list it makes no difference to delete it first.  A
queued timer is cut off from those behind it and then found as the tail, so
it is linked to itself.  From there no null pointer can be reached: the nodes
before it and itself are closed under `next`, and `heapify` keeps them so
(`Endless`).

So a timer can be re-armed exactly if it is not queued
(`addTimer_rearms_iff`).
-/
import DmfServer.TimerRuns

namespace DmfServer

open Imperative Imperative.Prog

variable {τ κ : Type} {s s' : Timers τ κ} {l pre post : List τ} {t : τ} {D : Set τ}

/-! ### Lists without an end -/

/-- The list from `heap` stays among the nodes of `D`, and never ends. -/
structure Endless (D : Set τ) (s : Timers τ κ) : Prop where
  heap : ∃ h ∈ D, s.heap = some h
  next : ∀ x ∈ D, ∃ y ∈ D, s.next x = some y

variable [DecidableEq τ]

/-- A turn of `heapify` keeps the list endless, and goes on. -/
theorem Endless.heapifyBody (h : Endless D s) {parent current : τ} (hp : parent ∈ D)
    (hn : s.next parent = some current) (hc : current ∈ D) :
    Partially (heapifyBody (parent, some current)) s fun r s' => ∃ parent' current',
      r = Sum.inl (parent', some current') ∧ Endless D s' ∧ parent' ∈ D ∧
        s'.next parent' = some current' ∧ current' ∈ D := by
  obtain ⟨after, hafter, hnext⟩ := h.next current hc
  rw [DmfServer.heapifyBody, partially_load_bind, partially_load_bind]
  split_ifs with hlt
  · -- `current` moves to the front, and `parent` points past it
    have hne : parent ≠ current := by
      rintro rfl
      exact lt_irrefl _ hlt
    have hnext₁ : (s.setNext parent (s.next current)).next parent = some after := by
      rw [next_setNext, Function.update_self, hnext]
    rw [partially_load_bind, partially_store_bind, partially_load_bind, partially_load_bind,
      partially_store_bind, partially_store_bind, hnext₁]
    refine partially_pure.mpr ⟨parent, after, rfl, ⟨⟨current, hc, rfl⟩, ?_⟩, hp, ?_, hafter⟩
    · intro x hx
      rw [next_setHeap, next_setNext, next_setNext]
      by_cases hxc : x = current
      · rw [hxc, Function.update_self]
        exact h.heap
      rw [Function.update_of_ne hxc]
      by_cases hxp : x = parent
      · rw [hxp, Function.update_self]
        exact ⟨after, hafter, hnext⟩
      · rw [Function.update_of_ne hxp]
        exact h.next x hx
    · rw [next_setHeap, next_setNext, Function.update_of_ne hne]
      exact hnext₁
  · rw [partially_load_bind, hnext]
    exact partially_pure.mpr ⟨current, after, rfl, h, hc, hnext, hafter⟩

/-- `heapify` never ends on an endless list. -/
theorem Endless.heapify (h : Endless D s) : ¬ Returns heapify s () s' := by
  intro hret
  obtain ⟨parent, hp, hh⟩ := h.heap
  obtain ⟨current, hc, hn⟩ := h.next parent hp
  rw [DmfServer.heapify, returns_load_bind, hh, returns_deref_bind, returns_load_bind, hn] at hret
  refine Partially.of_returns (Q := fun _ _ => False) (Partially.loop (fun b u =>
    ∃ parent current, b = (parent, some current) ∧ Endless D u ∧ parent ∈ D ∧
      u.next parent = some current ∧ current ∈ D) ?_ ⟨parent, current, rfl, h, hp, hn, hc⟩) hret
  rintro b u ⟨parent, current, rfl, hu, hp, hn, hc⟩
  refine (hu.heapifyBody hp hn hc).mono ?_
  rintro r u' ⟨parent', current', rfl, hrest⟩
  exact ⟨parent', current', rfl, hrest⟩

/-! ### A queued timer -/

omit [DecidableEq τ] in
/-- In a list that ends, each node before the last one points to a node of the
list. -/
theorem Seg.next_mem {next : τ → Option τ} {p : Option τ} (h : Seg next p pre (some t)) :
    (∃ y, p = some y ∧ (y ∈ pre ∨ y = t)) ∧
      ∀ x ∈ pre, ∃ y, next x = some y ∧ (y ∈ pre ∨ y = t) := by
  induction pre generalizing p with
  | nil => exact ⟨⟨t, h, .inr rfl⟩, fun x hx => absurd hx List.not_mem_nil⟩
  | cons a pre ih =>
      obtain ⟨rfl, hrest⟩ := seg_cons.mp h
      obtain ⟨⟨y, hy, hyD⟩, hall⟩ := ih hrest
      refine ⟨⟨a, rfl, .inl List.mem_cons_self⟩, fun x hx => ?_⟩
      rcases List.mem_cons.mp hx with rfl | hx
      · exact ⟨y, hy, hyD.imp_left (List.mem_cons_of_mem _)⟩
      · obtain ⟨z, hz, hzD⟩ := hall x hx
        exact ⟨z, hz, hzD.imp_left (List.mem_cons_of_mem _)⟩

/-- **`addTimer`** of a queued timer never returns. -/
theorem addTimer_queued (hq : Queue s l) (ht : t ∈ l) (now delay : Int) (c : κ) :
    ¬ Returns (addTimer now t delay c) s () s' := by
  obtain ⟨pre, post, rfl⟩ := List.append_of_mem ht
  have hnd := List.nodup_append.mp (Chain.nodup hq)
  have htpre : t ∉ pre := fun hm => hnd.2.2 t hm t List.mem_cons_self rfl
  obtain ⟨p, hpre, rfl, -⟩ := chain_append.mp hq
  set s₁ := s.arm t (now + delay) c with hs₁
  have hn : s₁.next t = none := by
    rw [hs₁, next_arm, Function.update_self]
  have hpre₁ : Seg s₁.next s₁.heap pre (some t) := by
    rw [hs₁, next_arm]
    exact hpre.update htpre
  -- what is left of the list ends with `t`
  have hcut : Chain s₁.next s₁.heap (pre ++ [t]) := chain_append.mpr ⟨some t, hpre₁, rfl, hn⟩
  obtain ⟨first, rest, hl⟩ : ∃ first rest, pre ++ [t] = first :: rest :=
    List.exists_cons_of_ne_nil (by simp)
  rw [hl] at hcut
  obtain ⟨hh, hr⟩ := chain_cons.mp hcut
  obtain ⟨pre', last, hlast, hloop⟩ := addTimer_loop hr
  obtain ⟨-, hlt⟩ := List.append_inj' (hl.trans hlast) rfl
  obtain rfl := List.singleton_inj.mp hlt
  rw [addTimer, returns_store_bind, returns_load_bind, ← hs₁, hh]
  intro hret
  rw [returns_bind_iff hloop, returns_store_bind] at hret
  -- `t` is hung behind itself
  refine Endless.heapify (D := {x | x ∈ pre ∨ x = t}) ⟨?_, ?_⟩ hret
  · obtain ⟨⟨y, hy, hyD⟩, -⟩ := Seg.next_mem hpre₁
    exact ⟨y, hyD, hy⟩
  · intro x hx
    rw [next_setNext]
    by_cases hxt : x = t
    · rw [hxt, Function.update_self]
      exact ⟨t, .inr rfl, rfl⟩
    · rw [Function.update_of_ne hxt]
      obtain ⟨y, hy, hyD⟩ := (Seg.next_mem hpre₁).2 x (hx.resolve_right hxt)
      exact ⟨y, hyD, hy⟩

/-! ### Re-arming -/

/-- `addTimer` re-arms `t` in the list `l`: it returns, `t` is queued once with
the new expiry, the other queued timers are kept, and up to the order the
same comes of deleting `t` first. -/
def Rearms (s : Timers τ κ) (l : List τ) (now : Int) (t : τ) (delay : Int) (c : κ) : Prop :=
  ∃ s' l' s'' l'', Returns (addTimer now t delay c) s () s' ∧ Queue s' l' ∧
    l'.Perm (t :: l.erase t) ∧ Relinked (s.arm t (now + delay) c) s' ∧
    Returns (do deleteTimer (some t); addTimer now t delay c) s () s'' ∧ Queue s'' l'' ∧
    l''.Perm l' ∧ Relinked (s.arm t (now + delay) c) s''

/-- `deleteTimer` first: then any timer can be added. -/
theorem deleteTimer_addTimer_returns (hq : Queue s l) (now : Int) (t : τ) (delay : Int) (c : κ) :
    ∃ s' l', Returns (do deleteTimer (some t); addTimer now t delay c) s () s' ∧ Queue s' l' ∧
      l'.Perm (t :: l.erase t) ∧ Relinked (s.arm t (now + delay) c) s' := by
  obtain ⟨s₁, hdel, hq₁, hrel₁⟩ := deleteTimer_returns hq t
  have ht : t ∉ deleteList s.expire t l := by
    rw [deleteList_perm.mem_iff]
    exact (Chain.nodup hq).not_mem_erase
  obtain ⟨s', hadd, hq', hrel'⟩ := addTimer_returns hq₁ ht now delay c
  refine ⟨s', _, hdel.bind hadd, hq', ?_, ?_⟩
  · apply pass_perm.trans
    exact (deleteList_perm.append_right [t]).trans (List.perm_append_singleton t _)
  · refine Relinked.trans ⟨?_, ?_, ?_⟩ hrel'
    · rw [expire_arm, expire_arm, hrel₁.expire]
    · rw [callback_arm, callback_arm, hrel₁.callback]
    · exact hrel₁.calls

/-- **Re-arming.**  `addTimer` re-arms a timer exactly if it is not queued;
otherwise it does not return. -/
theorem addTimer_rearms_iff (hq : Queue s l) (now : Int) (t : τ) (delay : Int) (c : κ) :
    Rearms s l now t delay c ↔ t ∉ l := by
  constructor
  · rintro ⟨s', l', s'', l'', hret, -⟩ ht
    exact addTimer_queued hq ht now delay c hret
  · intro ht
    obtain ⟨s', hret, hq', hrel⟩ := addTimer_returns hq ht now delay c
    obtain ⟨s'', l'', hret'', hq'', hperm, hrel''⟩ := deleteTimer_addTimer_returns hq now t delay c
    have hperm' : (pass (Function.update s.expire t (now + delay)) (l ++ [t])).Perm
        (t :: l.erase t) := by
      rw [List.erase_of_not_mem ht]
      exact pass_perm.trans (List.perm_append_singleton t l)
    exact ⟨s', _, s'', l'', hret, hq', hperm', hrel, hret'', hq'', hperm.trans hperm'.symm, hrel''⟩

theorem addTimer_rearms_fourth :
    ∃ s : Timers Nat Unit, Queue s [2, 0, 1] ∧ Rearms s [2, 0, 1] 1 3 5 () := by
  obtain ⟨s, -, hq, -⟩ := three_timers
  exact ⟨s, hq, (addTimer_rearms_iff hq 1 3 5 ()).mpr (by simp)⟩

/-- No timer of `three_timers` can be re-armed, not the first, not the one in
the middle, not the last. -/
theorem addTimer_hangs :
    ∃ s : Timers Nat Unit, Queue s [2, 0, 1] ∧ ∀ t ∈ [2, 0, 1],
      (∀ s', ¬ Returns (addTimer 1 t 5 ()) s () s') ∧ ¬ Rearms s [2, 0, 1] 1 t 5 () := by
  obtain ⟨s, -, hq, -⟩ := three_timers
  refine ⟨s, hq, fun t ht => ⟨fun s' => addTimer_queued hq ht 1 5 (), ?_⟩⟩
  rintro ⟨s', l', s'', l'', hret, -⟩
  exact addTimer_queued hq ht 1 5 () hret

end DmfServer
