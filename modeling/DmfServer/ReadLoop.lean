/-
DmfServer/ReadLoop.lean

The loops over `read` in `event_http_read` and `event_http_reverse`, at the
level of the buffer.

In `Events.lean` these loops collect a list of bytes, and ask `read` for what
is left of the buffer.  Here the buffer is memory, the bytes go to
`buf + total_read`, and the count is `size - total_read`, a signed number that
is converted to `size_t`.  The frame takes note of where each call stores and
how much it asks for.

A `Socket` is anything that answers `read` as a socket can: it gives no more
than it is asked for, and nothing if it is asked for nothing.  So a buffer that
is full is taken for the end of the input, and a loop that ends with `EAGAIN`
has left room for at least one zero (`accumulate_bounded`).  An open file of
the kernel is such a socket, and on it the loop is the one of `Events.lean`
(`accumulate_file`).
-/
import DmfServer.Calls

namespace DmfServer.ReadLoop

open Imperative Imperative.Prog Strings World

/-- What `read` can answer on a socket; the state `σ` is what it will answer. -/
structure Socket (σ : Type) where
  read : Nat → σ → Except Errno Bytes × σ
  read_zero : ∀ s, (read 0 s).1 = .ok []
  read_le : ∀ {count s piece}, (read count s).1 = .ok piece → piece.length ≤ count

/-- A call of `read`: where it stores, and how many bytes it asks for. -/
structure ReadCall where
  offset : Int
  count : Nat

/-- The socket, the memory around the buffer, which begins at 0, and the calls of
`read` so far. -/
structure Frame (σ : Type) where
  sock : σ
  mem : Int → UInt8
  calls : List ReadCall

variable {σ : Type}

/-- After a call of `read`: what is on the socket now, and in memory. -/
def Frame.noted (t : Frame σ) (s : σ) (mem : Int → UInt8) (offset : Int) (count : Nat) : Frame σ :=
  ⟨s, mem, t.calls ++ [⟨offset, count⟩]⟩

/-- The bytes `bs` are stored at `a`. -/
def poke (mem : Int → UInt8) (a : Int) (bs : Bytes) : Int → UInt8 := fun k =>
  if a ≤ k then bs.getD (k - a).toNat (mem k) else mem k

/-- The conversion to `size_t`. -/
def sizeT (n : Int) : Nat := (n % 2 ^ 64).toNat

/-! ### The loops -/

/-- `read(fd, buf + offset, count)`. -/
def readInto (sk : Socket σ) (offset : Int) (count : Nat) (t : Frame σ) :
    Except Errno Int × Frame σ :=
  match sk.read count t.sock with
  | (.error e, s) => (.error e, t.noted s t.mem offset count)
  | (.ok piece, s) => (.ok piece.length, t.noted s (poke t.mem offset piece) offset count)

/-- A turn of the loop, at `total_read`. -/
def accumTurn (sk : Socket σ) (size totalRead : Int) :
    Prog (Frame σ) (Int ⊕ (ReadEnd × Int)) := do
  match ← call (readInto sk totalRead (sizeT (size - totalRead))) with
  | .error e =>
      if e = .eagain ∨ e = .ewouldblock then pure (Sum.inr (.dry, totalRead))
      else pure (Sum.inr (.failed e, totalRead))
  | .ok bytesRead =>
      if bytesRead = 0 then pure (Sum.inr (.closed, totalRead))
      else pure (Sum.inl (totalRead + bytesRead))

/-- `char buf[size] = {0}`. -/
def zeroed (size : Int) (t : Frame σ) : Frame σ :=
  { t with mem := fun k => if 0 ≤ k ∧ k < size then 0 else t.mem k }

/-- The buffer, and the loop that fills it: how it ends, and `total_read`. -/
def accumulate (sk : Socket σ) (size : Int) : Prog (Frame σ) (ReadEnd × Int) := do
  store (zeroed size)
  loop (accumTurn sk size) 0

/-- The loop of `event_http_read`. -/
def httpReadLoop (sk : Socket σ) : Prog (Frame σ) (ReadEnd × Int) := accumulate sk 1024

/-- The loop of `event_http_reverse`. -/
def httpReverseLoop (sk : Socket σ) : Prog (Frame σ) (ReadEnd × Int) := accumulate sk 4096

/-! ### Memory -/

variable {mem : Int → UInt8} {a k : Int} {bs : Bytes} {size n : Nat}

theorem poke_outside (h : k < a ∨ a + bs.length ≤ k) : poke mem a bs k = mem k := by
  rw [poke]
  split_ifs with hle
  · rw [List.getD_eq_default]
    omega
  · rfl

theorem poke_inside (h : n < bs.length) : poke mem a bs (a + n) = bs[n] := by
  have hn : (a + n - a).toNat = n := by omega
  rw [poke, if_pos (by omega), hn, List.getD_eq_getElem _ _ h]

theorem sizeT_eq (hpos : 0 ≤ a) (hlt : a < 2 ^ 64) : sizeT a = a.toNat := by
  rw [sizeT, Int.emod_eq_of_lt hpos hlt]

/-- The first `n` bytes of the buffer. -/
def first (mem : Int → UInt8) (n : Nat) : Bytes := (List.range n).map fun k : Nat => mem k

/-- A piece is stored behind the first `n` bytes. -/
theorem first_poke : first (poke mem n bs) (n + bs.length) = first mem n ++ bs := by
  rw [first, List.range_add, List.map_append, List.map_map]
  congr 1
  · refine List.map_congr_left fun j hj => poke_outside (.inl ?_)
    have := List.mem_range.mp hj
    omega
  · refine List.ext_getElem ?_ fun j hj hj' => ?_
    · rw [List.length_map, List.length_range]
    · rw [List.getElem_map, List.getElem_range, Function.comp_apply, Nat.cast_add]
      exact poke_inside hj'

/-! ### A turn -/

variable {sk : Socket σ} {t : Frame σ} {totalRead : Int}

theorem accumTurn_error {e : Errno} {s : σ}
    (hr : sk.read (sizeT (size - totalRead)) t.sock = (.error e, s)) :
    Returns (accumTurn sk size totalRead) t
      (Sum.inr (if e = .eagain then .dry else .failed e, totalRead))
      (t.noted s t.mem totalRead (sizeT (size - totalRead))) := by
  have hread : readInto sk totalRead (sizeT (size - totalRead)) t
      = (.error e, t.noted s t.mem totalRead (sizeT (size - totalRead))) := by
    rw [readInto, hr]
  rw [accumTurn, returns_call_bind, hread]
  show Returns (if e = .eagain ∨ e = .eagain then _ else _) _ _ _
  by_cases he : e = .eagain
  · rw [if_pos (.inl he), if_pos he]
    exact returns_pure.mpr ⟨rfl, rfl⟩
  · rw [if_neg (not_or.mpr ⟨he, he⟩), if_neg he]
    exact returns_pure.mpr ⟨rfl, rfl⟩

theorem accumTurn_closed {s : σ}
    (hr : sk.read (sizeT (size - totalRead)) t.sock = (.ok [], s)) :
    Returns (accumTurn sk size totalRead) t (Sum.inr (.closed, totalRead))
      (t.noted s t.mem totalRead (sizeT (size - totalRead))) := by
  have hmem : poke t.mem totalRead [] = t.mem := by
    funext k
    refine poke_outside ?_
    rw [List.length_nil]
    omega
  have hread : readInto sk totalRead (sizeT (size - totalRead)) t
      = (.ok 0, t.noted s t.mem totalRead (sizeT (size - totalRead))) := by
    rw [readInto, hr]
    simp only [hmem]
    rfl
  rw [accumTurn, returns_call_bind, hread]
  exact returns_pure.mpr ⟨rfl, rfl⟩

theorem accumTurn_piece {piece : Bytes} {s : σ} (hne : piece ≠ [])
    (hr : sk.read (sizeT (size - totalRead)) t.sock = (.ok piece, s)) :
    Returns (accumTurn sk size totalRead) t (Sum.inl (totalRead + piece.length))
      (t.noted s (poke t.mem totalRead piece) totalRead (sizeT (size - totalRead))) := by
  have hread : readInto sk totalRead (sizeT (size - totalRead)) t
      = (.ok piece.length,
        t.noted s (poke t.mem totalRead piece) totalRead (sizeT (size - totalRead))) := by
    rw [readInto, hr]
  have hpos : ¬ (piece.length : Int) = 0 := by
    have := List.length_pos_iff.mpr hne
    omega
  rw [accumTurn, returns_call_bind, hread]
  show Returns (if (piece.length : Int) = 0 then _ else _) _ _ _
  rw [if_neg hpos]
  exact returns_pure.mpr ⟨rfl, rfl⟩

/-- In the loop: `total_read` bytes of the buffer are filled, the others are zero,
and nothing outside of it was asked for or changed. -/
structure Filled (size : Nat) (mem : Int → UInt8) (totalRead : Int) (t : Frame σ) : Prop where
  nonneg : 0 ≤ totalRead
  le : totalRead ≤ size
  calls : ∀ c ∈ t.calls, 0 ≤ c.offset ∧ c.offset + c.count ≤ size
  outside : ∀ k, k < 0 ∨ size ≤ k → t.mem k = mem k
  rest : ∀ k, totalRead ≤ k → k < size → t.mem k = 0

theorem Filled.count (h : Filled size mem totalRead t) (hsize : size < 2 ^ 64) :
    totalRead + sizeT (size - totalRead) = size := by
  have hnonneg := h.nonneg
  have hle := h.le
  rw [sizeT_eq (by omega) (by omega)]
  omega

/-- The count, in terms of the bytes that are there. -/
theorem Filled.room (h : Filled size mem totalRead t) (hsize : size < 2 ^ 64) :
    sizeT (size - totalRead) = size - (first t.mem totalRead.toNat).length := by
  have hcount := h.count hsize
  have hnonneg := h.nonneg
  rw [first, List.length_map, List.length_range]
  omega

/-- A call that stores nothing. -/
theorem Filled.quiet (h : Filled size mem totalRead t) (hsize : size < 2 ^ 64) (s : σ) :
    Filled size mem totalRead (t.noted s t.mem totalRead (sizeT (size - totalRead))) where
  nonneg := h.nonneg
  le := h.le
  calls := List.forall_mem_append.mpr
    ⟨h.calls, List.forall_mem_singleton.mpr ⟨h.nonneg, le_of_eq (h.count hsize)⟩⟩
  outside := h.outside
  rest := h.rest

/-- A call that stores a piece. -/
theorem Filled.stored (h : Filled size mem totalRead t) (hsize : size < 2 ^ 64) (s : σ)
    (hle : bs.length ≤ sizeT (size - totalRead)) :
    Filled size mem (totalRead + bs.length)
      (t.noted s (poke t.mem totalRead bs) totalRead (sizeT (size - totalRead))) := by
  have hcount := h.count hsize
  have hnonneg := h.nonneg
  refine ⟨by omega, by omega, (h.quiet hsize s).calls, fun k hk => ?_, fun k hk hlt => ?_⟩
  · show poke t.mem totalRead bs k = _
    rw [poke_outside (by omega)]
    exact h.outside k hk
  · show poke t.mem totalRead bs k = 0
    rw [poke_outside (.inr hk)]
    exact h.rest k (by omega) hlt

/-! ### The loop -/

/-- Whatever is on the socket: the loop ends, `total_read` is not beyond the
buffer, every call is within it, no byte outside of it is changed, and if it ends with
`EAGAIN` then the first byte that was not read into is in the buffer, and zero. -/
def Bounded (size : Nat) (p : Prog (Frame σ) (ReadEnd × Int)) : Prop :=
  ∀ sock mem, ∃ stop totalRead t, Returns p ⟨sock, mem, []⟩ (stop, totalRead) t ∧
    0 ≤ totalRead ∧ totalRead ≤ size ∧
    (∀ c ∈ t.calls, 0 ≤ c.offset ∧ c.offset + c.count ≤ size) ∧
    (∀ k, k < 0 ∨ size ≤ k → t.mem k = mem k) ∧
    (stop = .dry → totalRead < size ∧ t.mem totalRead = 0)

/-- **The rule for the loop.**  `J` is kept by each piece, and gives `Q` when the
loop ends. -/
theorem accumLoop_rule {Q : ReadEnd × Int → Frame σ → Prop} (hsize : size < 2 ^ 64)
    (J : Int → Frame σ → Prop)
    (hpiece : ∀ n t piece s, Filled size mem n t → J n t → piece ≠ [] →
      sk.read (sizeT (size - n)) t.sock = (.ok piece, s) →
      J (n + piece.length) (t.noted s (poke t.mem n piece) n (sizeT (size - n))))
    (herror : ∀ n t e s, Filled size mem n t → J n t → n < size →
      sk.read (sizeT (size - n)) t.sock = (.error e, s) →
      Q (if e = .eagain then .dry else .failed e, n) (t.noted s t.mem n (sizeT (size - n))))
    (hclosed : ∀ n t s, Filled size mem n t → J n t →
      sk.read (sizeT (size - n)) t.sock = (.ok [], s) →
      Q (.closed, n) (t.noted s t.mem n (sizeT (size - n))))
    (h : Filled size mem totalRead t) (hJ : J totalRead t) :
    ∃ x t', Returns (loop (accumTurn sk size) totalRead) t x t' ∧ Q x t' := by
  refine Returns.loop_rule (fun n t => Filled size mem n t ∧ J n t)
    (fun n _ => (size - n).toNat) ?_ ⟨h, hJ⟩
  rintro n t ⟨h, hJ⟩
  have hcount := h.count hsize
  -- the measure is the room that is left; every piece that is not empty takes some of it
  rcases hr : sk.read (sizeT (size - n)) t.sock with ⟨e | piece, s⟩
  · -- a full buffer is not asked for, so there is no error
    have hlt : n < size := by
      refine lt_of_le_of_ne h.le fun heq => ?_
      have hz := sk.read_zero t.sock
      rw [← show sizeT (size - n) = 0 by omega, hr] at hz
      cases hz
    exact .inr ⟨_, _, accumTurn_error hr, herror n t e s h hJ hlt hr⟩
  by_cases hnil : piece = []
  · rw [hnil] at hr
    exact .inr ⟨_, _, accumTurn_closed hr, hclosed n t s h hJ hr⟩
  · have hle : piece.length ≤ sizeT (size - n) := sk.read_le (congrArg Prod.fst hr)
    have hpos := List.length_pos_iff.mpr hnil
    exact .inl ⟨_, _, accumTurn_piece hnil hr,
      ⟨h.stored hsize s hle, hpiece n t piece s h hJ hnil hr⟩, by omega⟩

theorem zeroed_filled (size : Nat) (sock : σ) (mem : Int → UInt8) :
    Filled size mem 0 (zeroed size ⟨sock, mem, []⟩) where
  nonneg := le_refl 0
  le := by omega
  calls c hc := absurd hc List.not_mem_nil
  outside k hk := if_neg (by omega)
  rest k hk hlt := if_pos ⟨hk, hlt⟩

theorem accumulate_bounded (sk : Socket σ) (hsize : size < 2 ^ 64) :
    Bounded size (accumulate sk size) := by
  intro sock mem
  have hloop : ∃ x t, Returns (loop (accumTurn sk size) 0) (zeroed size ⟨sock, mem, []⟩) x t ∧
      Filled size mem x.2 t ∧ (x.1 = .dry → x.2 < size) := by
    refine accumLoop_rule hsize (fun _ _ => True) (fun _ _ _ _ _ _ _ _ => trivial) ?_ ?_
      (zeroed_filled size sock mem) trivial
    · intro n t e s h _ hlt _
      exact ⟨h.quiet hsize s, fun _ => hlt⟩
    · intro n t s h _ _
      exact ⟨h.quiet hsize s, fun hdry => by cases hdry⟩
  obtain ⟨⟨stop, totalRead⟩, t, hret, h, hdry⟩ := hloop
  refine ⟨stop, totalRead, t, ?_, h.nonneg, h.le, h.calls, h.outside, fun hstop => ?_⟩
  · rw [accumulate, returns_store_bind]
    exact hret
  · exact ⟨hdry hstop, h.rest totalRead (le_refl _) (hdry hstop)⟩

/-- **The loops over `read` stay within their buffers.** -/
theorem read_loops_bounded (sk : Socket σ) :
    Bounded 1024 (httpReadLoop sk) ∧ Bounded 4096 (httpReverseLoop sk) :=
  ⟨accumulate_bounded sk (by decide), accumulate_bounded sk (by decide)⟩

/-! ### Open files -/

/-- `read` on an open file. -/
def fileSocket : Socket File where
  read count f := f.receive count (.error .eagain)
  read_zero f := by rw [File.receive, if_pos rfl]
  read_le := by
    intro count f piece h
    rw [File.receive] at h
    split_ifs at h with hzero
    · rw [← Except.ok.inj h]
      exact Nat.zero_le count
    · split at h
      · cases h
      · split_ifs at h with hle
        · rw [← Except.ok.inj h]
          exact hle
        · rw [← Except.ok.inj h, List.length_take]
          exact Nat.min_le_left ..

variable {w w' : World} {fd : Fd} {i : FileId} {f : File}

/-- On an open file the loop is the one that collects a list of bytes: it ends
alike, and the list is what is in the buffer. -/
theorem accumulate_file (hsize : size < 2 ^ 64) (h : w.fileAt fd = some (i, f))
    (mem : Int → UInt8) :
    ∃ stop totalRead t, Returns (accumulate fileSocket size) ⟨f, mem, []⟩ (stop, totalRead) t ∧
      Returns (loop (readTurn fd size) []) w (stop, first t.mem totalRead.toNat)
        (w.setFile i t.sock) := by
  -- the rest of the loop, from the bytes in the buffer
  let J : Int → Frame File → Prop := fun n t => ∀ x w',
    Returns (loop (readTurn fd size) (first t.mem n.toNat)) (w.setFile i t.sock) x w' →
    Returns (loop (readTurn fd size) []) w x w'
  have hfile : ∀ g : File, (w.setFile i g).fileAt fd = some (i, g) := fun g => fileAt_setFile h
  have hloop : ∃ x t, Returns (loop (accumTurn fileSocket size) 0) (zeroed size ⟨f, mem, []⟩) x t ∧
      Returns (loop (readTurn fd size) []) w (x.1, first t.mem x.2.toNat)
        (w.setFile i t.sock) := by
    refine accumLoop_rule hsize J ?_ ?_ ?_ (zeroed_filled size f mem) ?_
    · intro n t piece s ht hJ hne hr x w' hx
      rw [ht.room hsize] at hr
      have hturn := readTurn_piece (hfile t.sock) hne hr
      rw [setFile_setFile] at hturn
      refine hJ x w' (Returns.loop_next hturn ?_)
      obtain ⟨m, rfl⟩ := Int.eq_ofNat_of_zero_le ht.nonneg
      have hm : ((m : Int) + piece.length).toNat = m + piece.length := by omega
      rw [hm] at hx
      rw [Int.toNat_natCast, ← first_poke]
      exact hx
    · intro n t e s ht hJ _ hr
      refine hJ _ _ (Returns.loop_exit ?_)
      rw [ht.room hsize] at hr
      have hturn := readTurn_error (hfile t.sock) hr
      rw [setFile_setFile] at hturn
      exact hturn
    · intro n t s ht hJ hr
      refine hJ _ _ (Returns.loop_exit ?_)
      rw [ht.room hsize] at hr
      have hturn := readTurn_closed (hfile t.sock) hr
      rw [setFile_setFile] at hturn
      exact hturn
    · intro x w' hx
      rw [show w = w.setFile i f from (setFile_self h).symm]
      exact hx
  obtain ⟨⟨stop, totalRead⟩, t, hret, hread⟩ := hloop
  refine ⟨stop, totalRead, t, ?_, hread⟩
  rw [accumulate, returns_store_bind]
  exact hret

end DmfServer.ReadLoop
