/-
DmfServer/Strings.lean

Byte strings in the manner of Go's package `strings`, as a library.

Searching and splitting are over any alphabet: `cut` divides a string at the
first occurrence of a separator, and `splitN`, `split`, `index` and
`contains` are iterations or readings of it.  Trimming and case are over
bytes, with white space as in Go, that is by the UTF-8 encodings of the
Unicode white space runes.

The rules about `split` need that two occurrences of the separator cannot
overlap (`Borderless`); a one-letter separator and CRLF are borderless.
Under it

    split sep (l₁ ++ sep ++ … ++ lₙ ++ sep ++ t)  =  [l₁, …, lₙ] ++ split sep t

whenever `sep` occurs in no `lᵢ` (`split_flatMap`), every string is of this
form (`split_eq_append`), and cutting a prefix of a string agrees with
cutting the string (`cut_of_prefix`).
-/
import Mathlib

namespace Strings

/-- A byte string. -/
abbrev Bytes : Type := List UInt8

/-- The bytes of an ASCII text. -/
def bytes (s : String) : Bytes := s.toList.map fun c => UInt8.ofNat c.toNat

variable {α : Type} [DecidableEq α]

/-! ### Searching and splitting -/

/-- `strings.Cut`: what stands before and after the first occurrence of
`sep`. -/
def cut (sep : List α) : List α → Option (List α × List α)
  | [] => if sep = [] then some ([], []) else none
  | c :: s =>
      if sep <+: c :: s then some ([], (c :: s).drop sep.length)
      else (cut sep s).map fun ab => (c :: ab.1, ab.2)

/-- `strings.SplitN`: at most `n` pieces, the last one uncut. -/
def splitN (sep : List α) : Nat → List α → List (List α)
  | 0, _ => []
  | 1, s => [s]
  | n + 2, s =>
      match cut sep s with
      | none => [s]
      | some (a, b) => a :: splitN sep (n + 1) b

/-- `strings.Split`, for a separator that is not empty. -/
def split (sep s : List α) : List (List α) := splitN sep (s.length + 1) s

/-- `strings.Index`. -/
def index (s sub : List α) : Int :=
  match cut sub s with
  | none => -1
  | some (a, _) => a.length

/-- `strings.Contains`. -/
def contains (s sub : List α) : Bool := (cut sub s).isSome

/-- Two occurrences of `sep` do not overlap. -/
def Borderless (sep : List α) : Prop :=
  sep ≠ [] ∧ ∀ k, 0 < k → k < sep.length → ¬ sep.drop k <+: sep

variable {sep s p w a b t t' : List α} {c d : α} {ls rest : List (List α)} {n : Nat}

omit [DecidableEq α] in
theorem borderless_singleton : Borderless [c] :=
  ⟨List.cons_ne_nil _ _, fun k h₁ h₂ => by simp at h₂; omega⟩

omit [DecidableEq α] in
theorem borderless_pair (h : c ≠ d) : Borderless [c, d] := by
  refine ⟨List.cons_ne_nil _ _, fun k h₁ h₂ => ?_⟩
  obtain rfl : k = 1 := by simp at h₂; omega
  intro hp
  exact h (List.cons_prefix_cons.mp hp).1.symm

/-! ### `cut` -/

theorem eq_of_cut (h : cut sep s = some (a, b)) : s = a ++ sep ++ b := by
  induction s generalizing a with
  | nil =>
      rw [cut] at h
      split at h
      · next hs => subst hs; cases h; rfl
      · cases h
  | cons c s ih =>
      rw [cut] at h
      split at h
      · next hp =>
          cases h
          obtain ⟨t, ht⟩ := hp
          rw [← ht, List.nil_append, List.drop_left]
      · obtain ⟨⟨a', b'⟩, hc, he⟩ := Option.map_eq_some_iff.mp h
        cases he
        rw [ih hc, List.cons_append, List.cons_append]

theorem cut_eq_none_iff : cut sep s = none ↔ ¬ sep <:+: s := by
  induction s with
  | nil => by_cases h : sep = [] <;> simp [cut, h]
  | cons c s ih =>
      rw [cut, List.infix_cons_iff, not_or]
      split
      · next hp => simp [hp]
      · next hp => simp [hp, ih]

/-- `sep` does not occur before its first occurrence. -/
theorem not_infix_of_cut (hsep : sep ≠ []) (h : cut sep s = some (a, b)) : ¬ sep <:+: a := by
  induction s generalizing a with
  | nil => simp [cut, hsep] at h
  | cons c s ih =>
      rw [cut] at h
      split at h
      · cases h
        simpa using hsep
      · next hp =>
          obtain ⟨⟨a', b'⟩, hc, he⟩ := Option.map_eq_some_iff.mp h
          cases he
          rw [List.infix_cons_iff, not_or]
          refine ⟨fun hpa => hp (hpa.trans ?_), ih hc⟩
          rw [eq_of_cut hc, List.append_assoc, ← List.cons_append]
          exact List.prefix_append _ _

omit [DecidableEq α] in
/-- A borderless separator that starts before another occurrence ends before
it. -/
theorem Borderless.prefix_append (hsep : Borderless sep) (ha : a ≠ []) :
    sep <+: a ++ (sep ++ b) ↔ sep <+: a := by
  refine ⟨fun hp => ?_, fun hp => hp.trans (List.prefix_append _ _)⟩
  rcases List.prefix_or_prefix_of_prefix hp (List.prefix_append a _) with h | ⟨t, rfl⟩
  · exact h
  · -- `sep = a ++ t`, and `t` starts the second occurrence
    have ht : t <+: a ++ t := by
      refine List.prefix_of_prefix_length_le ((List.prefix_append_right_inj a).mp hp)
        (List.prefix_append _ b) ?_
      simp
    rcases eq_or_ne t [] with rfl | hne
    · simp
    · refine absurd ?_ (hsep.2 a.length (List.length_pos_iff.mpr ha) ?_)
      · rw [List.drop_left]
        exact ht
      · rw [List.length_append]
        exact Nat.lt_add_of_pos_right (List.length_pos_iff.mpr hne)

/-- The first occurrence of a borderless separator is the one behind a text
it does not occur in. -/
theorem cut_append (hsep : Borderless sep) (ha : ¬ sep <:+: a) :
    cut sep (a ++ sep ++ b) = some (a, b) := by
  induction a with
  | nil =>
      obtain ⟨c, t, rfl⟩ := List.exists_cons_of_ne_nil hsep.1
      show cut (c :: t) (c :: (t ++ b)) = some ([], b)
      have hp : c :: t <+: c :: (t ++ b) := List.prefix_append (c :: t) b
      rw [cut, if_pos hp, ← List.cons_append, List.drop_left]
  | cons c a ih =>
      rw [List.infix_cons_iff, not_or] at ha
      have hp : ¬ sep <+: c :: (a ++ sep ++ b) := by
        rw [List.append_assoc, ← List.cons_append, hsep.prefix_append (List.cons_ne_nil _ _)]
        exact ha.1
      rw [List.cons_append, List.cons_append, cut, if_neg hp, ih ha.2]
      rfl

theorem cut_eq_some_iff (hsep : Borderless sep) :
    cut sep s = some (a, b) ↔ s = a ++ sep ++ b ∧ ¬ sep <:+: a := by
  constructor
  · intro h
    exact ⟨eq_of_cut h, not_infix_of_cut hsep.1 h⟩
  · rintro ⟨rfl, ha⟩
    exact cut_append hsep ha

/-- Cutting a prefix agrees with cutting the whole. -/
theorem cut_of_prefix (hsep : Borderless sep) (hp : p <+: w) (h : cut sep p = some (a, t)) :
    ∃ t', cut sep w = some (a, t') ∧ t <+: t' := by
  obtain ⟨u, rfl⟩ := hp
  obtain ⟨rfl, ha⟩ := (cut_eq_some_iff hsep).mp h
  refine ⟨t ++ u, ?_, List.prefix_append _ _⟩
  rw [List.append_assoc]
  exact cut_append hsep ha

theorem length_of_cut (hsep : sep ≠ []) (h : cut sep s = some (a, b)) : b.length < s.length := by
  rw [eq_of_cut h]
  have := List.length_pos_iff.mpr hsep
  simp
  omega

/-! ### `split` -/

/-- More pieces than there are letters make no difference. -/
theorem splitN_eq_split (hsep : sep ≠ []) (hn : s.length < n) : splitN sep n s = split sep s := by
  suffices h : ∀ m s, s.length < n → s.length < m → splitN sep n s = splitN sep m s from
    h _ s hn (Nat.lt_succ_self _)
  clear hn
  induction n with
  | zero => intro m s hn; exact absurd hn (Nat.not_lt_zero _)
  | succ n ih =>
      intro m s hn hm
      obtain ⟨m, rfl⟩ : ∃ k, m = k + 1 := ⟨m - 1, by omega⟩
      rcases n with - | n
      · obtain rfl : s = [] := List.length_eq_zero_iff.mp (by omega)
        rcases m with - | m
        · rfl
        · simp [splitN, cut, hsep]
      · rcases m with - | m
        · obtain rfl : s = [] := List.length_eq_zero_iff.mp (by omega)
          simp [splitN, cut, hsep]
        · rw [splitN, splitN]
          rcases hc : cut sep s with - | ⟨a, b⟩
          · rfl
          · have hb := length_of_cut hsep hc
            simp only
            rw [ih (m + 1) b (by omega) (by omega)]

/-- `split` cuts off one piece after the other. -/
theorem split_eq (hsep : sep ≠ []) : split sep s = match cut sep s with
    | none => [s]
    | some (a, b) => a :: split sep b := by
  rcases s with - | ⟨c, s⟩
  · simp [split, splitN, cut, hsep]
  · show splitN sep (s.length + 2) (c :: s) = _
    rw [splitN]
    rcases hc : cut sep (c :: s) with - | ⟨a, b⟩
    · rfl
    · have hb := length_of_cut hsep hc
      simp only [List.length_cons] at hb
      simp only
      rw [splitN_eq_split hsep (by omega)]

theorem split_of_cut (hsep : sep ≠ []) (h : cut sep s = some (a, b)) :
    split sep s = a :: split sep b := by
  rw [split_eq hsep, h]

theorem split_of_absent (hsep : sep ≠ []) (h : ¬ sep <:+: s) : split sep s = [s] := by
  rw [split_eq hsep, cut_eq_none_iff.mpr h]

theorem split_ne_nil (hsep : sep ≠ []) : split sep s ≠ [] := by
  rw [split_eq hsep]
  rcases cut sep s with - | ⟨a, b⟩ <;> simp

/-- Pieces in which the separator does not occur come out as they are. -/
theorem split_flatMap (hsep : Borderless sep) (hls : ∀ l ∈ ls, ¬ sep <:+: l) :
    split sep (ls.flatMap (· ++ sep) ++ t) = ls ++ split sep t := by
  induction ls with
  | nil => rfl
  | cons l ls ih =>
      have hc : cut sep (l ++ sep ++ (ls.flatMap (· ++ sep) ++ t)) = some (l, _) :=
        cut_append hsep (hls l List.mem_cons_self)
      rw [List.flatMap_cons, List.append_assoc, split_of_cut hsep.1 hc,
        ih fun l' hl' => hls l' (List.mem_cons_of_mem _ hl'), List.cons_append]

/-- The first pieces of a string, and what stands behind them. -/
theorem split_eq_append (hsep : sep ≠ []) (h : split sep s = ls ++ rest) (hr : rest ≠ []) :
    ∃ t, s = ls.flatMap (· ++ sep) ++ t ∧ split sep t = rest ∧ ∀ l ∈ ls, ¬ sep <:+: l := by
  induction ls generalizing s with
  | nil => exact ⟨s, rfl, h, by simp⟩
  | cons l ls ih =>
      rw [split_eq hsep] at h
      rcases hc : cut sep s with - | ⟨a, b⟩
      · rw [hc] at h
        -- one piece only, but `l` and `rest` are two
        obtain ⟨-, h⟩ := List.cons.inj h
        exact absurd (List.append_eq_nil_iff.mp h.symm).2 hr
      · rw [hc] at h
        obtain ⟨rfl, hb⟩ := List.cons.inj h
        obtain ⟨t, ht, hrest, hls⟩ := ih hb
        refine ⟨t, ?_, hrest, ?_⟩
        · rw [List.flatMap_cons, List.append_assoc, ← ht]
          exact eq_of_cut hc
        · intro l' hl'
          rcases List.mem_cons.mp hl' with rfl | hl'
          · exact not_infix_of_cut hsep hc
          · exact hls l' hl'

/-- A string with one piece is that piece. -/
theorem split_eq_singleton (hsep : sep ≠ []) (h : split sep s = [a]) : s = a := by
  rw [split_eq hsep] at h
  rcases hc : cut sep s with - | ⟨x, y⟩
  · rw [hc] at h
    exact List.singleton_inj.mp h
  · rw [hc] at h
    exact absurd (List.cons.inj h).2 (split_ne_nil hsep)

/-- No piece contains the separator. -/
theorem not_infix_of_mem_split (hsep : sep ≠ []) : ∀ l ∈ split sep s, ¬ sep <:+: l := by
  obtain ⟨ls, last, hs⟩ : ∃ ls last, split sep s = ls ++ [last] :=
    ⟨_, _, (List.dropLast_concat_getLast (split_ne_nil hsep)).symm⟩
  obtain ⟨t, -, ht, hls⟩ := split_eq_append hsep hs (List.cons_ne_nil _ _)
  intro l hl
  rw [hs, List.mem_append, List.mem_singleton] at hl
  rcases hl with hl | rfl
  · exact hls l hl
  · -- what is left behind the others is the last piece, and it is uncut
    obtain rfl := split_eq_singleton hsep ht
    intro hi
    rcases hc : cut sep t with - | ⟨x, y⟩
    · exact cut_eq_none_iff.mp hc hi
    · rw [split_of_cut hsep hc] at ht
      exact split_ne_nil hsep (List.cons.inj ht).2

/-- Splitting at a known separator. -/
theorem split_append (hsep : Borderless sep) :
    split sep (a ++ sep ++ b) = split sep a ++ split sep b := by
  obtain ⟨ls, last, hs⟩ : ∃ ls last, split sep a = ls ++ [last] :=
    ⟨_, _, (List.dropLast_concat_getLast (split_ne_nil hsep.1)).symm⟩
  obtain ⟨t, ha, ht, hls⟩ := split_eq_append hsep.1 hs (List.cons_ne_nil _ _)
  obtain rfl := split_eq_singleton hsep.1 ht
  have ht' : ¬ sep <:+: t := not_infix_of_mem_split hsep.1 t (ht ▸ List.mem_singleton_self t)
  calc split sep (a ++ sep ++ b)
      = split sep ((ls ++ [t]).flatMap (· ++ sep) ++ b) := by rw [ha]; simp
    _ = (ls ++ [t]) ++ split sep b :=
        split_flatMap hsep (List.forall_mem_append.mpr ⟨hls, by simpa using ht'⟩)
    _ = split sep a ++ split sep b := by rw [hs]

/-- Joining the pieces gives the string back. -/
theorem intercalate_split (hsep : sep ≠ []) : sep.intercalate (split sep s) = s := by
  induction h : s.length using Nat.strongRecOn generalizing s with
  | ind n ih =>
      rw [split_eq hsep]
      rcases hc : cut sep s with - | ⟨a, b⟩
      · exact List.intercalate_singleton
      · have hb := length_of_cut hsep hc
        rw [eq_of_cut hc]
        show sep.intercalate (a :: split sep b) = _
        rw [List.intercalate_cons_of_ne_nil (split_ne_nil hsep), ih b.length (h ▸ hb) rfl,
          List.append_assoc]

omit [DecidableEq α] in
/-- Joining two lists of pieces. -/
theorem intercalate_append (hl : ls ≠ []) (hr : rest ≠ []) :
    sep.intercalate (ls ++ rest) = sep.intercalate ls ++ sep ++ sep.intercalate rest := by
  induction ls with
  | nil => exact absurd rfl hl
  | cons l ls ih =>
      rcases eq_or_ne ls [] with rfl | hne
      · rw [List.intercalate_singleton]
        exact List.intercalate_cons_of_ne_nil hr
      · have hne' : ls ++ rest ≠ [] := List.append_ne_nil_of_left_ne_nil hne _
        rw [List.cons_append, List.intercalate_cons_of_ne_nil hne', ih hne,
          List.intercalate_cons_of_ne_nil hne]
        simp only [List.append_assoc]

/-- A separator that occurs has a last occurrence. -/
theorem exists_last_cut (hsep : sep ≠ []) (h : sep <:+: s) :
    ∃ a b, s = a ++ sep ++ b ∧ ¬ sep <:+: b := by
  obtain ⟨ls, last, hs⟩ : ∃ ls last, split sep s = ls ++ [last] :=
    ⟨_, _, (List.dropLast_concat_getLast (split_ne_nil hsep)).symm⟩
  obtain ⟨t, rfl, ht, -⟩ := split_eq_append hsep hs (List.cons_ne_nil _ _)
  obtain rfl := split_eq_singleton hsep ht
  have ht' : ¬ sep <:+: t := not_infix_of_mem_split hsep t (ht ▸ List.mem_singleton_self t)
  rcases List.eq_nil_or_concat ls with rfl | ⟨ls, l, rfl⟩
  · exact absurd h ht'
  · exact ⟨ls.flatMap (· ++ sep) ++ l, t, by simp, ht'⟩

/-- The first piece is what the string starts with. -/
theorem head_prefix_of_split (hsep : sep ≠ []) (h : split sep s = a :: rest) : a <+: s := by
  rw [split_eq hsep] at h
  rcases hc : cut sep s with - | ⟨x, y⟩
  · rw [hc] at h
    exact (List.cons.inj h).1 ▸ List.prefix_rfl
  · rw [hc] at h
    obtain ⟨rfl, -⟩ := List.cons.inj h
    rw [eq_of_cut hc, List.append_assoc]
    exact List.prefix_append _ _

omit [DecidableEq α] in
/-- A one-letter separator occurs in a string iff it is one of its letters. -/
theorem singleton_infix_iff : [c] <:+: s ↔ c ∈ s := by
  constructor
  · rintro ⟨a, b, rfl⟩
    simp
  · intro h
    obtain ⟨a, b, rfl⟩ := List.append_of_mem h
    exact ⟨a, b, by simp⟩

omit [DecidableEq α] in
/-- A string without the letter `c` cannot lie across a `c`. -/
theorem infix_append_cons_iff (hc : c ∉ sep) : sep <:+: a ++ c :: b ↔ sep <:+: a ∨ sep <:+: b := by
  rw [List.infix_append_iff, List.infix_cons_iff]
  constructor
  · rintro (h | (h | h) | ⟨l₁, l₂, rfl, h₁, h₂⟩)
    · exact .inl h
    · rcases sep with - | ⟨d, sep⟩
      · exact .inl (List.nil_infix)
      · exact absurd ((List.cons_prefix_cons.mp h).1 ▸ List.mem_cons_self) hc
    · exact .inr h
    · rcases l₂ with - | ⟨d, l₂⟩
      · rw [List.append_nil]
        exact .inl h₁.isInfix
      · obtain rfl := (List.cons_prefix_cons.mp h₂).1
        simp at hc
  · rintro (h | h)
    · exact .inl h
    · exact .inr (.inl (.inr h))

theorem contains_iff : contains s sep = true ↔ sep <:+: s := by
  rw [contains, ← not_iff_not, ← cut_eq_none_iff, Option.not_isSome_iff_eq_none]

/-! ### Repeated letters -/

variable {m : Nat}

omit [DecidableEq α] in
/-- A string that can change places with letters `d` has only these. -/
theorem eq_replicate_of_comm (h : b ++ List.replicate (n + 1) d = List.replicate (n + 1) d ++ b) :
    b = List.replicate b.length d := by
  induction b with
  | nil => rfl
  | cons c b ih =>
      rw [List.replicate_succ, List.cons_append, List.cons_append] at h
      obtain ⟨rfl, h⟩ := List.cons.inj h
      rw [List.length_cons, List.replicate_succ, ← ih]
      rw [← List.replicate_succ] at h
      rw [h, List.append_cons, ← List.replicate_succ']

omit [DecidableEq α] in
/-- Then it can do so with fewer of them. -/
theorem comm_replicate_of_le (hm : m ≤ n)
    (h : b ++ List.replicate n d = List.replicate n d ++ b) :
    b ++ List.replicate m d = List.replicate m d ++ b := by
  rcases n with - | n
  · rw [Nat.le_zero.mp hm, List.replicate_zero, List.append_nil, List.nil_append]
  · rw [eq_replicate_of_comm h, List.replicate_append_replicate, List.replicate_append_replicate,
      Nat.add_comm]

/-- A string between `b` and `b` with `n` letters `d` in front of it, where `n`
of them follow, is `b` with some in front of it. -/
theorem eq_replicate_append
    (hle : t ++ List.replicate n d <:+: List.replicate n d ++ b ++ List.replicate n d)
    (hge : b ++ List.replicate n d <:+: t ++ List.replicate n d) :
    ∃ k ≤ n, t = List.replicate k d ++ b := by
  obtain ⟨x, y, hxy⟩ := hge
  obtain ⟨u, v, huv⟩ := hle
  rw [← hxy] at huv
  -- what is around `b` are letters `d`
  have hcount : ∀ c ≠ d, u.count c + x.count c + y.count c + v.count c = 0 := by
    intro c hc
    have h := congrArg (List.count c) huv
    have hzero : (List.replicate n d).count c = 0 :=
      List.count_eq_zero.mpr fun hm => hc (List.eq_of_mem_replicate hm)
    simp only [List.count_append, hzero] at h
    omega
  have hall : ∀ z : List α, (∀ c ≠ d, z.count c = 0) → ∃ l, z = List.replicate l d := by
    intro z hz
    refine ⟨z.length, List.eq_replicate_of_mem fun c hm => ?_⟩
    by_contra hc
    exact List.count_eq_zero.mp (hz c hc) hm
  obtain ⟨p, rfl⟩ := hall x fun c hc => by have := hcount c hc; omega
  obtain ⟨q, rfl⟩ := hall y fun c hc => by have := hcount c hc; omega
  obtain ⟨l, rfl⟩ := hall u fun c hc => by have := hcount c hc; omega
  obtain ⟨r, rfl⟩ := hall v fun c hc => by have := hcount c hc; omega
  have hlen := congrArg List.length huv
  simp only [List.length_append, List.length_replicate] at hlen
  have hswap : ∀ i, List.replicate n d ++ List.replicate i d =
      List.replicate i d ++ List.replicate n d := fun i => by
    rw [List.replicate_append_replicate, List.replicate_append_replicate, Nat.add_comm]
  -- those behind it could as well stand in front
  have hcomm : b ++ List.replicate (q + r) d = List.replicate (q + r) d ++ b := by
    have hn : n = (l + p) + (q + r) := by omega
    have h : List.replicate (l + p) d ++ (b ++ List.replicate (q + r) d) ++ List.replicate n d =
        List.replicate (l + p) d ++ (List.replicate (q + r) d ++ b) ++ List.replicate n d := by
      calc _ = List.replicate l d ++ (List.replicate p d ++ (b ++ List.replicate n d) ++
            List.replicate q d) ++ List.replicate r d := by
            simp only [← List.replicate_append_replicate, List.append_assoc, hswap]
        _ = List.replicate n d ++ b ++ List.replicate n d := huv
        _ = _ := by
            rw [← List.append_assoc, List.replicate_append_replicate, ← hn]
    exact List.append_cancel_left (List.append_cancel_right h)
  have ht : t ++ List.replicate n d = List.replicate (p + q) d ++ b ++ List.replicate n d := by
    rw [← hxy, List.append_assoc, List.append_assoc, hswap, ← List.append_assoc b,
      comm_replicate_of_le (Nat.le_add_right q r) hcomm, ← List.replicate_append_replicate]
    simp only [List.append_assoc]
  exact ⟨p + q, by omega, List.append_cancel_right ht⟩

/-! ### White space, case and numbers -/

/-- The UTF-8 encodings of the runes `unicode.IsSpace` accepts. -/
def whiteSpace : List Bytes :=
  [[0x09], [0x0A], [0x0B], [0x0C], [0x0D], [0x20], [0xC2, 0x85], [0xC2, 0xA0],
    [0xE1, 0x9A, 0x80], [0xE2, 0x80, 0x80], [0xE2, 0x80, 0x81], [0xE2, 0x80, 0x82],
    [0xE2, 0x80, 0x83], [0xE2, 0x80, 0x84], [0xE2, 0x80, 0x85], [0xE2, 0x80, 0x86],
    [0xE2, 0x80, 0x87], [0xE2, 0x80, 0x88], [0xE2, 0x80, 0x89], [0xE2, 0x80, 0x8A],
    [0xE2, 0x80, 0xA8], [0xE2, 0x80, 0xA9], [0xE2, 0x80, 0xAF], [0xE2, 0x81, 0x9F],
    [0xE3, 0x80, 0x80]]

/-- Strip words of the table off the front, at most `n` of them. -/
def trimWords (table : List (List α)) : Nat → List α → List α
  | 0, s => s
  | n + 1, s =>
      match table.find? (· <+: s) with
      | none => s
      | some word => trimWords table n (s.drop word.length)

/-- Strip white space off the front. -/
def trimLeft (s : Bytes) : Bytes := trimWords whiteSpace s.length s

/-- Strip white space off the end.  A white space rune at the end of a
string is found by the bytes of its encoding, so this is the front of the
reversed string. -/
def trimRight (s : Bytes) : Bytes :=
  (trimWords (whiteSpace.map List.reverse) s.length s.reverse).reverse

/-- `strings.TrimSpace`. -/
def trimSpace (s : Bytes) : Bytes := trimRight (trimLeft s)

/-- `strings.ToUpper` of the one-byte string `c`.  A byte that is not ASCII
is no valid UTF-8 by itself and becomes U+FFFD. -/
def toUpper (c : UInt8) : Bytes :=
  if 0x61 ≤ c ∧ c ≤ 0x7A then [c - 0x20]
  else if c < 0x80 then [c]
  else [0xEF, 0xBF, 0xBD]

/-- An ASCII capital in lower case. -/
def lower (c : UInt8) : UInt8 := if 0x41 ≤ c ∧ c ≤ 0x5A then c + 0x20 else c

/-- Equality up to ASCII letter case. -/
def SameFold (a b : Bytes) : Prop := a.map lower = b.map lower

instance : DecidableRel SameFold := fun a b =>
  inferInstanceAs (Decidable (a.map lower = b.map lower))

/-- The value of a string of decimal digits. -/
def digits : Nat → Bytes → Option Nat
  | n, [] => some n
  | n, c :: s => if 0x30 ≤ c ∧ c ≤ 0x39 then digits (10 * n + (c.toNat - 0x30)) s else none

/-- `strconv.Atoi`, for a 64-bit `int`; `none` is an error. -/
def atoi (s : Bytes) : Option Int :=
  let (sign, ds) : Int × Bytes := match s with
    | 0x2D :: ds => (-1, ds)
    | 0x2B :: ds => (1, ds)
    | ds => (1, ds)
  if ds = [] then none
  else match digits 0 ds with
    | none => none
    | some n =>
        let v := sign * n
        if -2 ^ 63 ≤ v ∧ v < 2 ^ 63 then some v else none

/-! ### Trimmed strings -/

/-- White space neither starts nor ends the string. -/
structure Trimmed (s : Bytes) : Prop where
  front : ∀ word ∈ whiteSpace, ¬ word <+: s
  back : ∀ word ∈ whiteSpace, ¬ word <:+ s

section trim

variable {table : List (List α)} {v : Bytes}

theorem trimWords_of_absent (h : ∀ word ∈ table, ¬ word <+: s) : trimWords table n s = s := by
  have hnone : table.find? (· <+: s) = none := by
    apply List.find?_eq_none.mpr
    intro word hw
    simpa using h word hw
  cases n with
  | zero => rfl
  | succ n => rw [trimWords, hnone]

/-- What is left is the end of the string, and no word of the table starts
it. -/
theorem trimWords_spec (ht : ∀ word ∈ table, word ≠ []) (hn : s.length ≤ n) :
    trimWords table n s <:+ s ∧ ∀ word ∈ table, ¬ word <+: trimWords table n s := by
  induction n generalizing s with
  | zero =>
      obtain rfl : s = [] := List.length_eq_zero_iff.mp (Nat.le_zero.mp hn)
      exact ⟨List.suffix_rfl, fun word hw hp => ht word hw (List.prefix_nil.mp hp)⟩
  | succ n ih =>
      rw [trimWords]
      rcases hf : table.find? (· <+: s) with - | word
      · refine ⟨List.suffix_rfl, ?_⟩
        intro word hw hp
        exact List.find?_eq_none.mp hf word hw (by simpa using hp)
      · have hw : word ∈ table := List.mem_of_find?_eq_some hf
        have hpos : 0 < word.length := List.length_pos_iff.mpr (ht word hw)
        obtain ⟨hs, hno⟩ := ih (s := s.drop word.length) (by rw [List.length_drop]; omega)
        exact ⟨hs.trans (List.drop_suffix _ _), hno⟩

theorem trimLeft_spec (v : Bytes) :
    trimLeft v <:+ v ∧ ∀ word ∈ whiteSpace, ¬ word <+: trimLeft v :=
  trimWords_spec (by decide) le_rfl

theorem trimRight_spec (v : Bytes) :
    trimRight v <+: v ∧ ∀ word ∈ whiteSpace, ¬ word <:+ trimRight v := by
  have hreversed : ∀ word ∈ whiteSpace.map List.reverse, word ≠ [] := by decide
  obtain ⟨hs, hno⟩ := trimWords_spec hreversed (Nat.le_refl v.reverse.length)
  rw [List.length_reverse] at hs hno
  constructor
  · rw [← List.reverse_suffix, trimRight, List.reverse_reverse]
    exact hs
  · intro word hw hp
    apply hno word.reverse (List.mem_map_of_mem hw)
    rw [← List.reverse_prefix, trimRight, List.reverse_reverse] at hp
    exact hp

theorem trimSpace_isInfix (v : Bytes) : trimSpace v <:+: v :=
  (trimRight_spec _).1.isInfix.trans (trimLeft_spec v).1.isInfix

theorem trimmed_trimSpace (v : Bytes) : Trimmed (trimSpace v) where
  front word hw hp := (trimLeft_spec v).2 word hw (hp.trans (trimRight_spec _).1)
  back := (trimRight_spec _).2

/-- Every word of white space has a byte that is not graphic. -/
theorem whiteSpace_head : ∀ word ∈ whiteSpace, ∃ b ∈ word, b ≤ 0x20 ∨ 0x80 ≤ b := by
  decide +kernel

/-- A string of graphic bytes is trimmed. -/
theorem trimmed_of_graphic (h : ∀ b ∈ v, 0x20 < b ∧ b < 0x80) : Trimmed v := by
  have hno : ∀ word ∈ whiteSpace, ¬ word <:+: v := by
    intro word hw hi
    obtain ⟨b, hb, hlow | hhigh⟩ := whiteSpace_head word hw
    · exact absurd (h b (hi.subset hb)).1 (UInt8.not_lt.mpr hlow)
    · exact absurd (h b (hi.subset hb)).2 (UInt8.not_lt.mpr hhigh)
  exact ⟨fun word hw hp => hno word hw hp.isInfix, fun word hw hp => hno word hw hp.isInfix⟩

theorem trimRight_of_trimmed (h : Trimmed v) : trimRight v = v := by
  have hno : ∀ word ∈ whiteSpace.map List.reverse, ¬ word <+: v.reverse := by
    intro word hmem hp
    obtain ⟨w, hw, rfl⟩ := List.mem_map.mp hmem
    exact h.back w hw (List.reverse_prefix.mp hp)
  rw [trimRight, trimWords_of_absent hno, List.reverse_reverse]

/-- There is nothing to trim. -/
theorem trimSpace_of_trimmed (h : Trimmed v) : trimSpace v = v := by
  rw [trimSpace, trimLeft, trimWords_of_absent h.front, trimRight_of_trimmed h]

/-- A space in front is trimmed. -/
theorem trimSpace_cons_space (v : Bytes) : trimSpace (0x20 :: v) = trimSpace v := by
  have hleft : trimLeft (0x20 :: v) = trimLeft v := by
    rw [trimLeft, List.length_cons, trimWords]
    rcases hf : whiteSpace.find? (· <+: 0x20 :: v) with - | word
    · have hno := List.find?_eq_none.mp hf [0x20] (by decide)
      exact absurd (by simp) hno
    · -- only one word of the table begins with a space
      have hw : word ∈ whiteSpace := List.mem_of_find?_eq_some hf
      have hp : word <+: 0x20 :: v := by simpa using List.find?_some hf
      have hone : ∀ word ∈ whiteSpace, word.head? = some 0x20 → word = [0x20] := by decide
      have hword : word = [0x20] := by
        rcases word with - | ⟨c, word⟩
        · exact absurd hw (by decide)
        · apply hone _ hw
          rw [(List.cons_prefix_cons.mp hp).1]
          rfl
      rw [hword]
      rfl
  rw [trimSpace, hleft, trimSpace]

theorem trimSpace_space_cons (h : Trimmed v) : trimSpace (0x20 :: v) = v :=
  (trimSpace_cons_space v).trans (trimSpace_of_trimmed h)

end trim

/-! ### Letter case -/

/-- The two letters that are a capital in lower case. -/
theorem lower_eq_iff {c k : UInt8} (hk : 0x41 ≤ k ∧ k ≤ 0x5A) :
    lower c = lower k ↔ c = k ∨ c = k + 0x20 := by
  have hlower : lower k = k + 0x20 := if_pos hk
  rw [hlower, lower]
  grind

/-- `strings.ToUpper` on the first letter of a word makes it the capital `k`
from either of these. -/
theorem toUpper_append_eq_iff {c k : UInt8} {key t : Bytes} (hk : 0x41 ≤ k ∧ k ≤ 0x5A) :
    toUpper c ++ key = k :: t ↔ lower c = lower k ∧ key = t := by
  rw [lower_eq_iff hk]
  by_cases hsmall : 0x61 ≤ c ∧ c ≤ 0x7A
  · rw [toUpper, if_pos hsmall]
    simp only [List.singleton_append, List.cons.injEq]
    grind
  · rw [toUpper, if_neg hsmall]
    grind

/-! ### Numbers in decimal -/

theorem digit_byte {n : Nat} : ∀ c ∈ Nat.toDigits 10 n, (0x2D : UInt8) ≤ UInt8.ofNat c.toNat := by
  intro c hc
  have hdigit := Nat.isDigit_of_mem_toDigits (by decide) (by decide) hc
  rw [Char.isDigit_iff_toNat] at hdigit
  have hlow : 48 ≤ c.toNat := hdigit.1
  have hhigh : c.toNat ≤ 57 := hdigit.2
  rw [UInt8.le_iff_toNat_le, UInt8.toNat_ofNat']
  show 45 ≤ _
  omega

/-- A number is written with digits and the minus sign. -/
theorem bytes_toString (n : Int) : ∀ b ∈ bytes (toString n), (0x2D : UInt8) ≤ b := by
  intro b hb
  rcases n with n | n
  · have he : (toString (Int.ofNat n)).toList = Nat.toDigits 10 n := String.toList_ofList
    rw [bytes, he] at hb
    obtain ⟨c, hc, rfl⟩ := List.mem_map.mp hb
    exact digit_byte c hc
  · have he : (toString (Int.negSucc n)).toList = ['-'] ++ Nat.toDigits 10 (n + 1) := by
      show ("-" ++ Nat.repr (n + 1)).toList = _
      rw [String.toList_append, Nat.repr, String.toList_ofList]
      simp
    rw [bytes, he, List.map_append] at hb
    rcases List.mem_append.mp hb with hb | hb
    · obtain rfl := List.mem_singleton.mp hb
      decide
    · obtain ⟨c, hc, rfl⟩ := List.mem_map.mp hb
      exact digit_byte c hc

/-- The byte of a digit. -/
theorem digit_range {c : Char} (h : c.isDigit) :
    0x30 ≤ UInt8.ofNat c.toNat ∧ UInt8.ofNat c.toNat ≤ 0x39 := by
  rw [Char.isDigit_iff_toNat] at h
  have hlow : 48 ≤ c.toNat := h.1
  have hhigh : c.toNat ≤ 57 := h.2
  simp only [UInt8.le_iff_toNat_le, UInt8.toNat_ofNat']
  show 48 ≤ _ ∧ _ ≤ 57
  omega

/-- The bytes of a text of digits. -/
theorem digits_chars {l : List Char} (h : ∀ c ∈ l, c.isDigit) (n : Nat) :
    digits n (l.map fun c => UInt8.ofNat c.toNat) = some (Nat.ofDigitChars 10 l n) := by
  induction l generalizing n with
  | nil => rfl
  | cons c l ih =>
      obtain ⟨hc, hl⟩ := List.forall_mem_cons.mp h
      have hbyte : (UInt8.ofNat c.toNat).toNat = c.toNat := by
        have hhigh : c.toNat ≤ 57 := (Char.isDigit_iff_toNat.mp hc).2
        rw [UInt8.toNat_ofNat']
        omega
      rw [List.map_cons, digits, if_pos (digit_range hc), hbyte, ih hl, Nat.ofDigitChars_cons]
      rfl

/-- A natural number is written with digits only. -/
theorem bytes_toString_nat (n : Nat) :
    ∀ b ∈ bytes (toString (n : Int)), (0x30 : UInt8) ≤ b ∧ b ≤ 0x39 := by
  have he : (toString (n : Int)).toList = Nat.toDigits 10 n := String.toList_ofList
  intro b hb
  rw [bytes, he] at hb
  obtain ⟨c, hc, rfl⟩ := List.mem_map.mp hb
  exact digit_range (Nat.isDigit_of_mem_toDigits (by decide) (by decide) hc)

/-- A number without a sign. -/
theorem atoi_digits {s : Bytes} {n : Nat} (hne : s ≠ []) (hhead : ∀ c ∈ s.head?, 0x30 ≤ c)
    (hd : digits 0 s = some n) (hn : n < 2 ^ 63) : atoi s = some (n : Int) := by
  have hminus : ∀ ds, s = 0x2D :: ds → False := by
    rintro ds rfl
    exact absurd (hhead 0x2D rfl) (by decide)
  have hplus : ∀ ds, s = 0x2B :: ds → False := by
    rintro ds rfl
    exact absurd (hhead 0x2B rfl) (by decide)
  rw [atoi]
  simp only [if_neg hne, hd, one_mul]
  · rw [if_pos (by omega)]
  · exact hminus
  · exact hplus

/-- `strconv.Atoi` reads what `strconv.Itoa` writes. -/
theorem atoi_toString {n : Nat} (h : n < 2 ^ 63) :
    atoi (bytes (toString (n : Int))) = some (n : Int) := by
  have he : (toString (n : Int)).toList = Nat.toDigits 10 n := String.toList_ofList
  refine atoi_digits ?_ (fun c hc => (bytes_toString_nat n c (List.mem_of_mem_head? hc)).1) ?_ h
  · rw [bytes, he, Ne, List.map_eq_nil_iff]
    exact Nat.toDigits_ne_nil
  · have hd := digits_chars (l := Nat.toDigits 10 n)
      (fun c hc => Nat.isDigit_of_mem_toDigits (by decide) (by decide) hc) 0
    rw [Nat.ofDigitChars_ten_toDigits] at hd
    rw [bytes, he]
    exact hd

example : trimSpace (bytes " \t Host  ") = bytes "Host" := by decide
example : atoi (bytes "-120") = some (-120) := by decide

end Strings
