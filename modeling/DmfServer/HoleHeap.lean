/-
DmfServer/HoleHeap.lean

Binary heaps in arrays, as a library.

The slots of an array are numbered level by level, so the parent of the slot
`i` is `(i - 1) / 2`.  The first `n` entries are a heap if no entry has a
smaller key than the one in its parent slot (`Heaped`).

An entry finds its slot by moving a hole: the neighbours of the hole are
copied into it until the entry fits there.  The array with the hole filled by
the entry is the same up to a swap in each turn (`fill_move`), so its entries
are a permutation of what they were.  It is a heap but for the edge above the
hole when the hole rises (`Rising`), and but for the edges below it when it
sinks (`Sinking`).
-/
import Mathlib.Data.List.Perm.Lattice
import Mathlib.Data.List.Range
import Mathlib.Logic.Equiv.Basic
import Mathlib.Order.Lattice
import Mathlib.Tactic.Common

namespace HoleHeap

/-- The slot above. -/
def parent (i : Nat) : Nat := (i - 1) / 2

variable {α β : Type} {a : Nat → α} {x : α} {n i j c : Nat}

theorem parent_lt (h : 0 < i) : parent i < i := by
  rw [parent]
  omega

/-- The slots below `i`. -/
theorem parent_eq_iff (h : 0 < j) : parent j = i ↔ j = 2 * i + 1 ∨ j = 2 * i + 2 := by
  rw [parent]
  omega

/-! ### The entries -/

/-- The first `n` entries. -/
def entries (a : Nat → α) (n : Nat) : List α := (List.range n).map a

theorem mem_entries : x ∈ entries a n ↔ ∃ i < n, a i = x := by
  simp [entries]

theorem entries_succ : entries a (n + 1) = entries a n ++ [a n] := by
  rw [entries, List.range_succ, List.map_append]
  rfl

theorem entries_congr {b : Nat → α} (h : ∀ i < n, a i = b i) : entries a n = entries b n :=
  List.map_congr_left fun i hi => h i (List.mem_range.mp hi)

theorem entries_swap (hi : i < n) (hj : j < n) :
    (entries (a ∘ Equiv.swap i j) n).Perm (entries a n) := by
  rw [entries, ← List.map_map]
  refine List.Perm.map a ?_
  have hnodup : ((List.range n).map (Equiv.swap i j)).Nodup :=
    List.nodup_range.map (Equiv.swap i j).injective
  refine (List.perm_ext_iff_of_nodup hnodup List.nodup_range).mpr fun k => ?_
  rw [List.mem_map, List.mem_range]
  constructor
  · rintro ⟨l, hl, rfl⟩
    rw [List.mem_range] at hl
    rw [Equiv.swap_apply_def]
    split_ifs
    · exact hj
    · exact hi
    · exact hl
  · intro hk
    refine ⟨Equiv.swap i j k, ?_, Equiv.swap_apply_self i j k⟩
    rw [List.mem_range, Equiv.swap_apply_def]
    split_ifs
    · exact hj
    · exact hi
    · exact hk

/-! ### The hole -/

/-- The entry `x` in the hole at `i`. -/
def fill (a : Nat → α) (i : Nat) (x : α) : Nat → α := Function.update a i x

@[simp] theorem fill_self : fill a i x i = x := Function.update_self ..

theorem fill_of_ne (h : j ≠ i) : fill a i x j = a j := Function.update_of_ne h ..

/-- Copying the entry at `j` into the hole, and going on with the hole at `j`,
is a swap. -/
theorem fill_move (h : j ≠ i) : fill (fill a i (a j)) j x = fill a i x ∘ Equiv.swap i j := by
  funext k
  rw [Function.comp_apply]
  by_cases hkj : k = j
  · rw [hkj, Equiv.swap_apply_right, fill_self, fill_self]
  by_cases hki : k = i
  · rw [hki, Equiv.swap_apply_left, fill_of_ne h.symm, fill_self, fill_of_ne h]
  · rw [Equiv.swap_apply_of_ne_of_ne hki hkj, fill_of_ne hkj, fill_of_ne hki, fill_of_ne hki]

/-- Filling the last of `n + 1` slots. -/
theorem entries_fill_last : entries (fill a n x) (n + 1) = entries a n ++ [x] := by
  rw [entries_succ, fill_self, entries_congr fun i hi => fill_of_ne (Nat.ne_of_lt hi)]

/-- The first entry is taken out, and the last one put in its place. -/
theorem entries_fill_first : (a 0 :: entries (fill a 0 (a n)) n).Perm (entries a (n + 1)) := by
  cases n with
  | zero => exact .refl _
  | succ n =>
      have hcons : ∀ b : Nat → α, entries b (n + 1) = b 0 :: entries (fun i => b (i + 1)) n := by
        intro b
        rw [entries, entries, List.range_succ_eq_map, List.map_cons, List.map_map]
        rfl
      have htail : entries (fun i => fill a 0 (a (n + 1)) (i + 1)) n
          = entries (fun i => a (i + 1)) n :=
        entries_congr fun i _ => fill_of_ne (Nat.succ_ne_zero i)
      rw [entries_succ (n := n + 1), hcons, hcons, fill_self, htail, List.cons_append]
      exact (List.perm_append_singleton _ _).symm.cons _

/-! ### The order -/

variable [LinearOrder β] {key : α → β}

/-- No entry has a smaller key than the one above it. -/
def Heaped (key : α → β) (a : Nat → α) (n : Nat) : Prop :=
  ∀ j, 0 < j → j < n → key (a (parent j)) ≤ key (a j)

theorem Heaped.congr {key' : α → β} (h : Heaped key a n)
    (hkey : ∀ y ∈ entries a n, key' y = key y) : Heaped key' a n := by
  intro j hpos hj
  have hlt := parent_lt hpos
  rw [hkey _ (mem_entries.mpr ⟨_, hlt.trans hj, rfl⟩), hkey _ (mem_entries.mpr ⟨j, hj, rfl⟩)]
  exact h j hpos hj

/-- The first entry has the smallest key. -/
theorem Heaped.first_le (h : Heaped key a n) (hi : i < n) : key (a 0) ≤ key (a i) := by
  induction i using Nat.strongRecOn with
  | ind i ih =>
      rcases Nat.eq_zero_or_pos i with rfl | hpos
      · exact le_refl _
      · have hlt := parent_lt hpos
        exact (ih (parent i) hlt (hlt.trans hi)).trans (h i hpos hi)

/-- A heap but for the edge above the hole at `i`; what is below the hole fits
below its parent. -/
structure Rising (key : α → β) (a : Nat → α) (n i : Nat) : Prop where
  order : ∀ j, 0 < j → j < n → j ≠ i → key (a (parent j)) ≤ key (a j)
  above : 0 < i → ∀ j, 0 < j → j < n → parent j = i → key (a (parent i)) ≤ key (a j)

/-- A new last entry. -/
theorem Heaped.rising (h : Heaped key a n) : Rising key (fill a n x) (n + 1) n where
  order := by
    intro j hpos hj hne
    have hlt := parent_lt hpos
    rw [fill_of_ne hne, fill_of_ne (by omega)]
    exact h j hpos (by omega)
  above := by
    intro hn j hpos hj hp
    have hlt := parent_lt hpos
    omega

/-- The hole moves up. -/
theorem Rising.swap (h : Rising key a n i) (hpos : 0 < i) (hi : i < n)
    (hlt : key (a i) < key (a (parent i))) :
    Rising key (a ∘ Equiv.swap i (parent i)) n (parent i) := by
  have hp := parent_lt hpos
  have hother : ∀ k, k ≠ i → k ≠ parent i → (a ∘ Equiv.swap i (parent i)) k = a k :=
    fun k hki hkp => congrArg a (Equiv.swap_apply_of_ne_of_ne hki hkp)
  have hhole : (a ∘ Equiv.swap i (parent i)) i = a (parent i) :=
    congrArg a (Equiv.swap_apply_left i (parent i))
  have hnew : (a ∘ Equiv.swap i (parent i)) (parent i) = a i :=
    congrArg a (Equiv.swap_apply_right i (parent i))
  constructor
  · intro j hj hjn hne
    by_cases hji : j = i
    · rw [hji, hhole, hnew]
      exact hlt.le
    rw [hother j hji hne]
    by_cases hjp : parent j = parent i
    · -- the entry beside the hole
      rw [hjp, hnew]
      have hle := h.order j hj hjn hji
      rw [hjp] at hle
      exact hlt.le.trans hle
    by_cases hjc : parent j = i
    · -- below the old place of the hole
      rw [hjc, hhole]
      exact h.above hpos j hj hjn hjc
    · rw [hother _ hjc hjp]
      exact h.order j hj hjn hji
  · intro hpp j hj hjn hjp
    have hplt := parent_lt hpp
    have hle := h.order (parent i) hpp (hp.trans hi) (Nat.ne_of_lt hp)
    rw [hother _ (by omega) (by omega)]
    by_cases hji : j = i
    · rw [hji, hhole]
      exact hle
    · rw [hother j hji (by have := parent_lt hj; omega)]
      have hle' := h.order j hj hjn hji
      rw [hjp] at hle'
      exact hle.trans hle'

/-- The entry fits. -/
theorem Rising.heaped (h : Rising key a n i) (hstop : 0 < i → key (a (parent i)) ≤ key (a i)) :
    Heaped key a n := by
  intro j hpos hj
  by_cases hji : j = i
  · rw [hji] at hpos ⊢
    exact hstop hpos
  · exact h.order j hpos hj hji

/-- A heap but for the edges below the hole at `i`; what is below the hole
fits below its parent. -/
structure Sinking (key : α → β) (a : Nat → α) (n i : Nat) : Prop where
  order : ∀ j, 0 < j → j < n → parent j ≠ i → key (a (parent j)) ≤ key (a j)
  above : 0 < i → ∀ j, 0 < j → j < n → parent j = i → key (a (parent i)) ≤ key (a j)

/-- A new first entry, in a heap that has lost its last one. -/
theorem Heaped.sinking (h : Heaped key a (n + 1)) : Sinking key (fill a 0 x) n 0 where
  order := by
    intro j hpos hj hne
    rw [fill_of_ne hne, fill_of_ne (Nat.ne_of_gt hpos)]
    exact h j hpos (by omega)
  above := fun hpos => absurd hpos (Nat.lt_irrefl 0)

/-- The hole moves down to the smaller child `c`. -/
theorem Sinking.swap (h : Sinking key a n i) (hpos : 0 < c) (hc : c < n) (hp : parent c = i)
    (hmin : ∀ j, 0 < j → j < n → parent j = i → key (a c) ≤ key (a j))
    (hlt : key (a c) < key (a i)) : Sinking key (a ∘ Equiv.swap i c) n c := by
  have hic : i < c := hp ▸ parent_lt hpos
  have hother : ∀ k, k ≠ i → k ≠ c → (a ∘ Equiv.swap i c) k = a k :=
    fun k hki hkc => congrArg a (Equiv.swap_apply_of_ne_of_ne hki hkc)
  have hhole : (a ∘ Equiv.swap i c) i = a c := congrArg a (Equiv.swap_apply_left i c)
  have hnew : (a ∘ Equiv.swap i c) c = a i := congrArg a (Equiv.swap_apply_right i c)
  constructor
  · intro j hj hjn hjc
    by_cases hji : parent j = i
    · -- the child itself, or its sibling
      rw [hji, hhole]
      by_cases heq : j = c
      · rw [heq, hnew]
        exact hlt.le
      · rw [hother j (by have := parent_lt hj; omega) heq]
        exact hmin j hj hjn hji
    rw [hother _ hji hjc]
    by_cases hji' : j = i
    · -- the edge above the old place of the hole
      rw [hji', hhole]
      exact h.above (hji' ▸ hj) c hpos hc hp
    · rw [hother j hji' (by rintro rfl; exact hji hp)]
      exact h.order j hj hjn hji
  · intro _ j hj hjn hjc
    have hlt' := parent_lt hj
    rw [hp, hhole, hother j (by omega) (by omega)]
    have hle := h.order j hj hjn (by omega)
    rwa [hjc] at hle

/-- The entry fits. -/
theorem Sinking.heaped (h : Sinking key a n i)
    (hstop : ∀ j, 0 < j → j < n → parent j = i → key (a i) ≤ key (a j)) : Heaped key a n := by
  intro j hpos hj
  by_cases hji : parent j = i
  · rw [hji]
    exact hstop j hpos hj hji
  · exact h.order j hpos hj hji

end HoleHeap
