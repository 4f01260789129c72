/-
DmfServer/ShmTest.lean

Lines handed over in shared memory, `test/shm_test.c`.

The workers and their parent share a flag and a buffer.  A worker that finds
the flag 0 reads a line, copies it into the buffer and sets the flag to 1;
the parent prints the buffer when the flag is 1, and sets it to 0 again.  The
copy and the print go byte by byte, and anybody may move between two bytes.

While there is input the parent never reads behind the buffer, with any number
of workers: whoever set the flag has put a zero into the last byte, and
nothing else is written there.  But two workers can both find the flag 0, and
then a line is lost: what is printed is what was entered in all schedules iff
there is no more than one worker, and `WORKER_NUM` is 2.

No worker looks at the answer of `fgets`.  When it finds nothing, the worker
hands over what its own buffer holds: the line before, once more, or what was
on the stack, and if there was no zero in that, the parent reads on behind the
shared buffer (`shm_relays`).
-/
import DmfServer.CString
import DmfServer.Threads
import Mathlib.Logic.Function.Basic

namespace DmfServer.ShmTest

open Imperative Imperative.Prog Strings CString

/-- What `fgets(buffer, 1024, stdin)` reads. -/
def Line : Type := { t : Bytes // t ≠ [] ∧ (0 : UInt8) ∉ t ∧ t.length < 1024 }

def Line.text (line : Line) : Bytes := line.1

theorem Line.no_zero (line : Line) : (0 : UInt8) ∉ line.text := line.2.2.1

theorem Line.length_text (line : Line) : line.text.length < 1024 := line.2.2.2

/-- Where a worker is. -/
inductive WorkerPc where
  /-- before the test for 1 -/
  | top
  /-- before the test for 0 -/
  | test
  /-- before `fgets` -/
  | reading
  /-- in `strncpy` of `text`, before byte `k` -/
  | copying (text : Bytes) (k : Nat)

/-- Where the parent is. -/
inductive ParentPc where
  | top
  /-- in `printf`, which has read so much -/
  | printing (seen : Bytes)
  /-- behind `printf` -/
  | printed

/-- The shared memory and the processes, with the buffers of the workers, the
lines that were entered and the texts that were printed. -/
structure State where
  isReadable : Nat
  buf : Buffer UInt8 1024
  buffer : Nat → Buffer UInt8 1024
  workers : Nat → WorkerPc
  parent : ParentPc
  entered : List Line
  out : List Bytes

/-- The parent has set the flag to 0, the shared buffer is as it was found, and
the workers' own ones are as the stack left them. -/
def State.init (buf : Buffer UInt8 1024) (stack : Nat → Buffer UInt8 1024) : State :=
  ⟨0, buf, stack, fun _ => .top, .top, [], []⟩

def State.move (w : Nat) (pc : WorkerPc) (s : State) : State :=
  { s with workers := Function.update s.workers w pc }

/-- `fgets(buffer, 1024, stdin)` of the worker `w`: it finds a line, or nothing,
and then the buffer stays as it is. -/
def State.fgets (w : Nat) (input : Option Line) (s : State) : State :=
  match input with
  | some line =>
      { s with
        buffer := Function.update s.buffer w ((s.buffer w).fgets line.text line.length_text)
        entered := s.entered ++ [line] }
  | none => s

/-- The worker `w` begins to copy what is in its buffer. -/
def State.begin (w : Nat) (s : State) : State := s.move w (.copying (s.buffer w).letters 0)

/-- One byte of `strncpy(shared->buf, buffer, 1024)`: behind the text it writes
zeros. -/
def State.copy (w : Nat) (text : Bytes) (k : Nat) (s : State) : State :=
  { s.move w (.copying text (k + 1)) with buf := s.buf.set k (text.getD k 0) }

/-- The next step of a worker; `input` is what `fgets` finds. -/
def workerFunction (w : Nat) (input : Option Line) : WorkerPc → Prog State Unit
  | .top => store (State.move w .test)
  | .test => do
      if (← load State.isReadable) = 0 then store (State.move w .reading)
      else store (State.move w .top)
  | .reading => store fun s => (s.fgets w input).begin w
  | .copying text k =>
      if k < 1024 then store (State.copy w text k)
      else store fun s => { s.move w .top with isReadable := 1 }

/-- The next step of the parent. -/
def main : ParentPc → Prog State Unit
  | .top => do
      if (← load State.isReadable) = 1 then store fun s => { s with parent := .printing [] }
  | .printing seen => do
      let c ← load fun s => s.buf.1[seen.length]?
      let c ← deref c
      if c = 0 then store fun s => { s with out := s.out ++ [seen], parent := .printed }
      else store fun s => { s with parent := .printing (seen ++ [c]) }
  | .printed => store fun s => { s with isReadable := 0, parent := .top }

/-- Who moves. -/
inductive Act where
  | worker (w : Nat) (input : Option Line)
  | parent

/-- One step with `workerNum` workers. -/
def step (workerNum : Nat) : Act → Prog State Unit
  | .worker w input => do
      await fun _ => decide (w < workerNum)
      let pc ← load fun s => s.workers w
      workerFunction w input pc
  | .parent => do
      let pc ← load State.parent
      main pc

/-- What `fgets` finds meets `p`. -/
def answers (p : Option Line → Bool) : Act → State → Bool
  | .worker _ input, _ => p input
  | .parent, _ => true

/-- `fgets` always finds a line. -/
def inputLasts : Act → State → Bool := answers Option.isSome

/-- Nothing is under way. -/
structure State.Quiet (s : State) : Prop where
  flag : s.isReadable = 0
  parent : s.parent = .top
  workers : ∀ w text k, s.workers w ≠ .copying text k

/-- The buffers of the workers have a zero in them. -/
def Terminated (workerNum : Nat) (s : State) : Prop :=
  ∀ w < workerNum, (0 : UInt8) ∈ (s.buffer w).1

variable {workerNum w w' k : Nat} {buf : Buffer UInt8 1024} {stack : Nat → Buffer UInt8 1024}
variable {s s' : State} {line : Line} {text : Bytes} {acts : List Act}
variable {input : Option Line} {p : Option Line → Bool}

/-! ### What `fgets` leaves -/

theorem move_self (s : State) (w : Nat) (pc : WorkerPc) : (s.move w pc).workers w = pc :=
  Function.update_self ..

/-- A line that was found is what is copied. -/
theorem letters_fgets (s : State) (w : Nat) (line : Line) :
    ((s.fgets w (some line)).buffer w).letters = line.text := by
  show (Function.update s.buffer w _ w).letters = line.text
  rw [Function.update_self, Buffer.letters_fgets line.length_text line.no_zero]

/-- A buffer that has a zero in it keeps one. -/
theorem Terminated.fgets (hs : Terminated workerNum s) (w : Nat) (input : Option Line) :
    Terminated workerNum (s.fgets w input) := by
  rcases input with - | line
  · exact hs
  · intro w' hw'
    rcases eq_or_ne w' w with rfl | hne
    · rw [← Buffer.length_letters_lt_iff, letters_fgets]
      exact line.length_text
    · show 0 ∈ (Function.update s.buffer w _ w').1
      rw [Function.update_of_ne hne]
      exact hs w' hw'

/-! ### The end of the buffer -/

/-- The last byte is zero for whoever reads; and where `fgets` can find nothing,
every worker has a text to hand over. -/
structure Ended (p : Option Line → Bool) (workerNum : Nat) (s : State) : Prop where
  buffers : p none → Terminated workerNum s
  copying : ∀ w text k, s.workers w = .copying text k →
    text.length < 1024 ∧ k ≤ 1024 ∧ (k = 1024 → s.buf.1[1023]? = some 0)
  flag : s.isReadable = 1 → s.buf.1[1023]? = some 0
  printing : ∀ seen, s.parent = .printing seen → seen.length ≤ 1023 ∧ s.buf.1[1023]? = some 0

theorem init_ended (buf : Buffer UInt8 1024)
    (hstack : p none → ∀ w < workerNum, (0 : UInt8) ∈ (stack w).1) :
    Ended p workerNum (State.init buf stack) where
  buffers := hstack
  copying w text k h := by cases h
  flag h := by cases h
  printing seen h := by cases h

/-- A worker moves without writing. -/
theorem Ended.move {pc : WorkerPc} (hs : Ended p workerNum s)
    (hpc : ∀ text k, pc = .copying text k →
      text.length < 1024 ∧ k ≤ 1024 ∧ (k = 1024 → s.buf.1[1023]? = some 0)) :
    Ended p workerNum (s.move w pc) := by
  refine ⟨hs.buffers, fun w' text k h => ?_, hs.flag, hs.printing⟩
  replace h : Function.update s.workers w pc w' = .copying text k := h
  rcases eq_or_ne w' w with rfl | hw
  · rw [Function.update_self] at h
    exact hpc text k h
  · rw [Function.update_of_ne hw] at h
    exact hs.copying w' text k h

/-- What a worker begins to copy ends within its buffer. -/
theorem Ended.begin (hs : Ended p workerNum s) (hw : w < workerNum) (hp : p input) :
    Ended p workerNum ((s.fgets w input).begin w) := by
  have hread : Ended p workerNum (s.fgets w input) := by
    rcases input with - | line
    · exact hs
    · exact ⟨fun h => (hs.buffers h).fgets w (some line), hs.copying, hs.flag, hs.printing⟩
  refine hread.move fun text k h => ?_
  obtain ⟨rfl, rfl⟩ := WorkerPc.copying.inj h
  refine ⟨?_, by decide, fun h0 => by cases h0⟩
  rcases input with - | line
  · rw [Buffer.length_letters_lt_iff]
    exact hs.buffers hp w hw
  · rw [letters_fgets]
    exact line.length_text

/-- The last byte of a copy is a zero. -/
theorem Ended.copy (hs : Ended p workerNum s) (hlen : text.length < 1024) (hk : k < 1024) :
    Ended p workerNum (s.copy w text k) := by
  have hlast : text.getD 1023 0 = 0 := by
    rw [List.getD_eq_getElem?_getD, List.getElem?_eq_none (by omega)]
    rfl
  have hset : (s.copy w text k).buf.1[1023]? =
      if k = 1023 then some (text.getD k 0) else s.buf.1[1023]? := Buffer.set_getElem? hk _ _
  have hkeep : s.buf.1[1023]? = some 0 → (s.copy w text k).buf.1[1023]? = some 0 := by
    intro h
    rw [hset]
    split_ifs with he
    · rw [he, hlast]
    · exact h
  refine ⟨hs.buffers, fun w' text' k' h => ?_, fun h => hkeep (hs.flag h), fun seen h => ?_⟩
  · replace h : Function.update s.workers w (.copying text (k + 1)) w' = .copying text' k' := h
    rcases eq_or_ne w' w with rfl | hw
    · rw [Function.update_self, WorkerPc.copying.injEq] at h
      obtain ⟨rfl, rfl⟩ := h
      refine ⟨hlen, hk, fun he => ?_⟩
      obtain rfl : k = 1023 := by omega
      rw [hset, if_pos rfl, hlast]
    · rw [Function.update_of_ne hw] at h
      obtain ⟨hlen', hle, hend⟩ := hs.copying w' text' k' h
      exact ⟨hlen', hle, fun he => hkeep (hend he)⟩
  · obtain ⟨hle, hend⟩ := hs.printing seen h
    exact ⟨hle, hkeep hend⟩

theorem step_ended (act : Act) (hp : answers p act s) (hs : Ended p workerNum s) :
    Safe (step workerNum act) s fun _ s' => Ended p workerNum s' := by
  rcases act with ⟨w, input⟩ | -
  · simp only [step, safe_await_bind, safe_load_bind, decide_eq_true_eq]
    intro hlt
    rcases hw : s.workers w with - | - | - | ⟨text, k⟩
    · -- top
      exact safe_store.mpr (hs.move fun text k h => by cases h)
    · -- test
      simp only [workerFunction, safe_load_bind]
      split_ifs
      · exact safe_store.mpr (hs.move fun text k h => by cases h)
      · exact safe_store.mpr (hs.move fun text k h => by cases h)
    · -- reading
      exact safe_store.mpr (hs.begin hlt hp)
    · -- copying
      obtain ⟨hlen, hle, hend⟩ := hs.copying w text k hw
      rw [workerFunction]
      split_ifs with hk
      · exact safe_store.mpr (hs.copy hlen hk)
      · refine safe_store.mpr ?_
        have hmove : Ended p workerNum (s.move w .top) := hs.move fun text k h => by cases h
        exact ⟨hmove.buffers, hmove.copying, fun _ => hend (by omega), hmove.printing⟩
  · simp only [step, safe_load_bind]
    rcases hpc : s.parent with - | seen | -
    · -- top
      simp only [main, safe_load_bind]
      split_ifs with hflag
      · refine safe_store.mpr ⟨hs.buffers, hs.copying, hs.flag, fun seen h => ?_⟩
        obtain rfl := ParentPc.printing.inj h
        exact ⟨Nat.zero_le _, hs.flag hflag⟩
      · exact safe_pure.mpr hs
    · -- printing
      obtain ⟨hle, hend⟩ := hs.printing seen hpc
      have hlen : seen.length < s.buf.1.length := by
        rw [s.buf.2]
        omega
      simp only [main, safe_load_bind, List.getElem?_eq_getElem hlen, safe_deref_bind]
      split_ifs with hc
      · exact safe_store.mpr ⟨hs.buffers, hs.copying, hs.flag, fun seen h => by cases h⟩
      · refine safe_store.mpr ⟨hs.buffers, hs.copying, hs.flag, fun seen' h => ?_⟩
        obtain rfl := ParentPc.printing.inj h
        refine ⟨?_, hend⟩
        have hne : seen.length ≠ 1023 := by
          intro he
          rw [← he, List.getElem?_eq_getElem hlen] at hend
          exact hc (Option.some.inj hend)
        rw [List.length_append, List.length_singleton]
        omega
    · -- printed
      exact safe_store.mpr ⟨hs.buffers, hs.copying, fun h => (by cases h),
        fun seen h => by cases h⟩

/-! ### What was copied -/

/-- The first `k` bytes of the text are in the buffer, with zeros behind it. -/
def Copied (text : Bytes) (k : Nat) (buf : Buffer UInt8 1024) : Prop :=
  ∀ j, j < k → buf.1[j]? = some (text.getD j 0)

theorem Copied.zero (text : Bytes) (buf : Buffer UInt8 1024) : Copied text 0 buf :=
  fun j hj => absurd hj (Nat.not_lt_zero j)

theorem Copied.step (h : Copied text k buf) (hk : k < 1024) :
    Copied text (k + 1) (buf.set k (text.getD k 0)) := by
  intro j hj
  rw [Buffer.set_getElem? hk]
  split_ifs with he
  · rw [he]
  · exact h j (by omega)

/-- What the reader finds behind what it has read. -/
theorem Copied.next {seen rest : Bytes} (h : Copied text 1024 buf) (htext : text = seen ++ rest)
    (hseen : seen.length < 1024) : buf.1[seen.length]? = some (rest.headD 0) := by
  rw [h _ hseen, htext, List.getD_eq_getElem?_getD, List.getElem?_append_right (le_refl _)]
  rcases rest with - | ⟨c, rest⟩
  · rfl
  · simp

theorem head_ne {seen rest : Bytes} {c : UInt8} (hzero : (0 : UInt8) ∉ text)
    (htext : text = seen ++ c :: rest) : c ≠ 0 := by
  rintro rfl
  refine hzero ?_
  rw [htext]
  simp

/-! ### One worker, while there is input -/

/-- Where the worker and its parent are together. -/
inductive Phase (s : State) : Prop
  | waiting (flag : s.isReadable = 0) (parent : s.parent = .top)
      (worker : ∀ text k, s.workers 0 ≠ .copying text k) (out : s.out = s.entered.map Line.text)
  | copying (line : Line) (k : Nat) (flag : s.isReadable = 0) (parent : s.parent = .top)
      (worker : s.workers 0 = .copying line.text k) (le : k ≤ 1024)
      (copied : Copied line.text k s.buf) (out : s.out ++ [line.text] = s.entered.map Line.text)
  | full (line : Line) (flag : s.isReadable = 1)
      (parent : s.parent = .top ∨ ∃ seen rest, s.parent = .printing seen ∧ line.text = seen ++ rest)
      (worker : s.workers 0 = .top ∨ s.workers 0 = .test) (copied : Copied line.text 1024 s.buf)
      (out : s.out ++ [line.text] = s.entered.map Line.text)
  | printed (flag : s.isReadable = 1) (parent : s.parent = .printed)
      (worker : s.workers 0 = .top ∨ s.workers 0 = .test) (out : s.out = s.entered.map Line.text)

/-- No other worker has moved. -/
structure Sound (s : State) : Prop where
  others : ∀ w, w ≠ 0 → s.workers w = .top
  phase : Phase s

theorem init_sound (buf : Buffer UInt8 1024) (stack : Nat → Buffer UInt8 1024) :
    Sound (State.init buf stack) where
  others _ _ := rfl
  phase := .waiting rfl rfl (fun _ _ => WorkerPc.noConfusion) rfl

theorem others_move {pc : WorkerPc} (h : ∀ w, w ≠ 0 → s.workers w = .top) :
    ∀ w, w ≠ 0 → (s.move 0 pc).workers w = .top := by
  intro w hw
  show Function.update s.workers 0 pc w = .top
  rw [Function.update_of_ne hw]
  exact h w hw

/-- The worker's step. -/
theorem Sound.worker (hs : Sound s) (line : Line) :
    Safe (workerFunction 0 (some line) (s.workers 0)) s fun _ s' => Sound s' := by
  rcases hs.phase with ⟨hflag, hparent, hworker, hout⟩ | ⟨text, k, hflag, hparent, hworker, hle,
    hcopied, hout⟩ | ⟨text, hflag, hparent, hworker, hcopied, hout⟩ | ⟨hflag, hparent, hworker,
    hout⟩
  · -- waiting
    have hmove : ∀ pc, (∀ text k, pc ≠ .copying text k) → Sound (s.move 0 pc) := fun pc hpc =>
      ⟨others_move hs.others, .waiting hflag hparent (by rw [move_self]; exact hpc) hout⟩
    rcases hw : s.workers 0 with - | - | - | ⟨text, k⟩
    · exact safe_store.mpr (hmove _ fun _ _ => WorkerPc.noConfusion)
    · simp only [workerFunction, safe_load_bind, hflag]
      exact safe_store.mpr (hmove _ fun _ _ => WorkerPc.noConfusion)
    · have hentered : s.out ++ [line.text] = (s.entered ++ [line]).map Line.text := by
        rw [List.map_append, ← hout]
        rfl
      refine safe_store.mpr ⟨others_move hs.others, .copying line 0 hflag hparent ?_
        (Nat.zero_le _) (.zero _ _) hentered⟩
      rw [State.begin, move_self, letters_fgets]
    · exact absurd hw (hworker text k)
  · -- copying
    rw [hworker, workerFunction]
    split_ifs with hk
    · exact safe_store.mpr ⟨others_move hs.others,
        .copying text (k + 1) hflag hparent (move_self s 0 _) hk (hcopied.step hk) hout⟩
    · obtain rfl : k = 1024 := by omega
      exact safe_store.mpr ⟨others_move hs.others,
        .full text rfl (.inl hparent) (.inl (move_self s 0 _)) hcopied hout⟩
  · -- full: the worker goes round
    have hmove : ∀ pc, pc = .top ∨ pc = .test → Sound (s.move 0 pc) := fun pc hpc =>
      ⟨others_move hs.others, .full text hflag hparent (by rw [move_self]; exact hpc) hcopied hout⟩
    rcases hworker with hw | hw
    · rw [hw]
      exact safe_store.mpr (hmove _ (.inr rfl))
    · rw [hw]
      simp only [workerFunction, safe_load_bind, hflag]
      exact safe_store.mpr (hmove _ (.inl rfl))
  · -- printed: likewise
    have hmove : ∀ pc, pc = .top ∨ pc = .test → Sound (s.move 0 pc) := fun pc hpc =>
      ⟨others_move hs.others, .printed hflag hparent (by rw [move_self]; exact hpc) hout⟩
    rcases hworker with hw | hw
    · rw [hw]
      exact safe_store.mpr (hmove _ (.inr rfl))
    · rw [hw]
      simp only [workerFunction, safe_load_bind, hflag]
      exact safe_store.mpr (hmove _ (.inl rfl))

/-- The parent's step. -/
theorem Sound.parent (hs : Sound s) : Safe (main s.parent) s fun _ s' => Sound s' := by
  rcases hs.phase with ⟨hflag, hparent, hworker, hout⟩ | ⟨line, k, hflag, hparent, hworker, hle,
    hcopied, hout⟩ | ⟨line, hflag, hparent, hworker, hcopied, hout⟩ | ⟨hflag, hparent, hworker,
    hout⟩
  · -- waiting
    rw [hparent]
    simp only [main, safe_load_bind, hflag]
    exact safe_pure.mpr hs
  · -- copying
    rw [hparent]
    simp only [main, safe_load_bind, hflag]
    exact safe_pure.mpr hs
  · -- full
    rcases hparent with hp | ⟨seen, rest, hp, hline⟩
    · rw [hp]
      simp only [main, safe_load_bind, hflag]
      exact safe_store.mpr ⟨hs.others, .full line hflag (.inr ⟨[], line.text, rfl, rfl⟩) hworker
        hcopied hout⟩
    · have hseen : seen.length < 1024 := by
        have hlen := line.length_text
        rw [hline, List.length_append] at hlen
        omega
      have hnext := hcopied.next hline hseen
      rw [hp]
      rcases rest with - | ⟨c, rest⟩
      · -- the zero behind the line
        rw [List.append_nil] at hline
        rw [List.headD_nil] at hnext
        simp only [main, safe_load_bind, hnext, safe_deref_bind]
        exact safe_store.mpr ⟨hs.others, .printed hflag rfl hworker (hline ▸ hout)⟩
      · have hc : c ≠ 0 := head_ne line.no_zero hline
        rw [List.headD_cons] at hnext
        simp only [main, safe_load_bind, hnext, safe_deref_bind]
        rw [if_neg hc]
        have hline' : line.text = seen ++ [c] ++ rest := by
          rw [hline, List.append_assoc]
          rfl
        exact safe_store.mpr ⟨hs.others, .full line hflag (.inr ⟨_, rest, rfl, hline'⟩) hworker
          hcopied hout⟩
  · -- printed
    rw [hparent]
    refine safe_store.mpr ⟨hs.others, .waiting rfl rfl (fun line k hw => ?_) hout⟩
    rcases hworker with h | h
    · cases h.symm.trans hw
    · cases h.symm.trans hw

theorem step_sound (hone : workerNum ≤ 1) (act : Act) (hin : workerNum = 0 ∨ inputLasts act s)
    (hs : Sound s) : Safe (step workerNum act) s fun _ s' => Sound s' := by
  rcases act with ⟨w, input⟩ | -
  · simp only [step, safe_await_bind, safe_load_bind, decide_eq_true_eq]
    intro hw
    obtain rfl : w = 0 := by omega
    obtain ⟨line, rfl⟩ := Option.isSome_iff_exists.mp (hin.resolve_left (by omega))
    exact hs.worker line
  · exact safe_load_bind.mpr hs.parent

/-- What was printed was entered, in this order. -/
theorem Phase.out_le (h : Phase s) : s.out <+: s.entered.map Line.text := by
  rcases h with ⟨_, _, _, hout⟩ | ⟨_, _, _, _, _, _, _, hout⟩ | ⟨_, _, _, _, _, hout⟩ |
    ⟨_, _, _, hout⟩
  · rw [hout]
  · exact ⟨_, hout⟩
  · exact ⟨_, hout⟩
  · rw [hout]

/-- Nothing is missing when nothing is under way. -/
theorem Phase.out_eq (h : Phase s) (hq : s.Quiet) : s.out = s.entered.map Line.text := by
  rcases h with ⟨_, _, _, hout⟩ | ⟨line, k, _, _, hw, _, _, _⟩ | ⟨_, hflag, _, _, _, _⟩ |
    ⟨_, _, _, hout⟩
  · exact hout
  · exact absurd hw (hq.workers 0 line.text k)
  · cases hflag.symm.trans hq.flag
  · exact hout

/-! ### Schedules -/

/-- Some schedule in which `fgets` finds what meets `p` leads to `s`. -/
def Reached (p : Option Line → Bool) (workerNum : Nat) (buf : Buffer UInt8 1024)
    (stack : Nat → Buffer UInt8 1024) (s : State) : Prop :=
  ∃ acts, Runs (Under (answers p) (step workerNum)) (State.init buf stack) acts s

theorem reached_init (p : Option Line → Bool) (workerNum : Nat) (buf : Buffer UInt8 1024)
    (stack : Nat → Buffer UInt8 1024) : Reached p workerNum buf stack (State.init buf stack) :=
  ⟨[], .nil⟩

theorem Reached.worker (hr : Reached p workerNum buf stack s) (hw : w < workerNum)
    (hp : p input) (h : Returns (workerFunction w input (s.workers w)) s () s') :
    Reached p workerNum buf stack s' := by
  obtain ⟨acts, hr⟩ := hr
  have hstep : Returns (step workerNum (.worker w input)) s () s' := by
    simp only [step, returns_await_bind, returns_load_bind, decide_eq_true_eq]
    exact ⟨hw, h⟩
  have hans : answers p (.worker w input) s := hp
  exact ⟨_, hr.concat (returns_under.mpr ⟨hans, hstep⟩)⟩

theorem Reached.parent (hr : Reached p workerNum buf stack s)
    (h : Returns (main s.parent) s () s') : Reached p workerNum buf stack s' := by
  obtain ⟨acts, hr⟩ := hr
  have hstep : Returns (step workerNum .parent) s () s' := returns_load_bind.mpr h
  exact ⟨_, hr.concat (returns_under.mpr ⟨rfl, hstep⟩)⟩

theorem move_move (s : State) (w : Nat) (pc pc' : WorkerPc) :
    (s.move w pc).move w pc' = s.move w pc' := by
  show { s with workers := Function.update (Function.update s.workers w pc) w pc' } = _
  rw [Function.update_idem]
  rfl

/-- Any worker can find the flag 0. -/
theorem Reached.ready (hr : Reached p workerNum buf stack s) (hw : w < workerNum)
    (input : Option Line) (hp : p input) (htop : s.workers w = .top) (hflag : s.isReadable = 0) :
    Reached p workerNum buf stack (s.move w .reading) := by
  have hr₁ : Reached p workerNum buf stack (s.move w .test) := hr.worker hw hp (by
    rw [htop]
    exact returns_store.mpr rfl)
  rw [← move_move s w .test]
  refine hr₁.worker hw hp ?_
  have hflag' : (s.move w .test).isReadable = 0 := hflag
  rw [move_self]
  simp only [workerFunction, returns_load_bind, hflag', if_true, returns_store]

/-- The rest of a copy. -/
theorem Reached.copy (hr : Reached p workerNum buf stack s) (hw : w < workerNum) (hp : p input)
    (hpc : s.workers w = .copying text k) (hle : k ≤ 1024) (hcopied : Copied text k s.buf) :
    ∃ buf', Copied text 1024 buf' ∧
      Reached p workerNum buf stack { s.move w (.copying text 1024) with buf := buf' } := by
  -- by the number of bytes that are left
  obtain ⟨left, hleft⟩ : ∃ left, k + left = 1024 := ⟨1024 - k, by omega⟩
  induction left generalizing k s with
  | zero =>
      obtain rfl : k = 1024 := by omega
      refine ⟨s.buf, hcopied, ?_⟩
      have hsame : s.move w (.copying text 1024) = s := by
        rw [State.move, ← hpc, Function.update_eq_self]
      rw [hsame]
      exact hr
  | succ left ih =>
      have hr₁ : Reached p workerNum buf stack (s.copy w text k) := hr.worker hw hp (by
        rw [hpc, workerFunction, if_pos (by omega)]
        exact returns_store.mpr rfl)
      obtain ⟨buf', hcopied', hr'⟩ := ih hr₁ (move_self s w _) (by omega)
        (hcopied.step (by omega)) (by omega)
      refine ⟨buf', hcopied', ?_⟩
      rw [← move_move s w (.copying text (k + 1))]
      exact hr'

/-- A worker that is ready hands over what is in its buffer then, whatever the
flag is by then. -/
theorem Reached.deliver (hr : Reached p workerNum buf stack s) (hw : w < workerNum)
    (input : Option Line) (hp : p input) (hpc : s.workers w = .reading) :
    ∃ buf', Copied ((s.fgets w input).buffer w).letters 1024 buf' ∧ Reached p workerNum buf stack
      { (s.fgets w input).move w .top with isReadable := 1, buf := buf' } := by
  have hr₁ : Reached p workerNum buf stack ((s.fgets w input).begin w) := hr.worker hw hp (by
    rw [hpc]
    exact returns_store.mpr rfl)
  obtain ⟨buf', hcopied, hr₂⟩ := hr₁.copy hw hp (move_self _ w _) (Nat.zero_le _) (.zero _ _)
  refine ⟨buf', hcopied, hr₂.worker hw hp ?_⟩
  rw [show State.workers _ w = .copying _ 1024 from move_self _ w _]
  refine returns_store.mpr ?_
  simp only [State.begin, State.move, Function.update_idem]

/-- The parent reads what is in the buffer. -/
theorem Reached.read {seen rest : Bytes} (hr : Reached p workerNum buf stack s)
    (hparent : s.parent = .printing seen) (hcopied : Copied text 1024 s.buf)
    (htext : text = seen ++ rest) (hlen : text.length ≤ 1024) (hzero : (0 : UInt8) ∉ text) :
    Reached p workerNum buf stack { s with parent := .printing text } := by
  induction rest generalizing seen s with
  | nil =>
      rw [List.append_nil] at htext
      rw [htext, ← hparent]
      exact hr
  | cons c rest ih =>
      have hc : c ≠ 0 := head_ne hzero htext
      have hseen : seen.length < 1024 := by
        rw [htext, List.length_append, List.length_cons] at hlen
        omega
      have hnext := hcopied.next htext hseen
      have hr₁ : Reached p workerNum buf stack { s with parent := .printing (seen ++ [c]) } :=
        hr.parent (by
          rw [hparent]
          simp [main, hnext, hc])
      have htext' : text = seen ++ [c] ++ rest := by
        rw [htext, List.append_assoc]
        rfl
      have hr₂ := ih hr₁ rfl hcopied htext'
      exact hr₂

/-- The parent finds the flag 1, and a text in the buffer. -/
theorem Reached.print (hr : Reached p workerNum buf stack s) (hparent : s.parent = .top)
    (hflag : s.isReadable = 1) (hcopied : Copied text 1024 s.buf) (hlen : text.length < 1024)
    (hzero : (0 : UInt8) ∉ text) : Reached p workerNum buf stack
      { s with parent := .top, isReadable := 0, out := s.out ++ [text] } := by
  have hr₁ : Reached p workerNum buf stack { s with parent := .printing [] } := hr.parent (by
    rw [hparent]
    simp [main, hflag])
  have hr₂ := hr₁.read rfl hcopied rfl hlen.le hzero
  have hnext := hcopied.next (List.append_nil text).symm hlen
  have hr₃ : Reached p workerNum buf stack
      { s with out := s.out ++ [text], parent := .printed } := hr₂.parent (by
    simp [main, hnext])
  exact hr₃.parent (returns_store.mpr rfl)

/-- Two workers find the flag 0, and the line of the first is lost. -/
theorem reached_lost (htwo : 2 ≤ workerNum) (buf : Buffer UInt8 1024)
    (stack : Nat → Buffer UInt8 1024) (a b : Line) :
    ∃ s, Reached Option.isSome workerNum buf stack s ∧ s.Quiet ∧ s.entered = [a, b] ∧
      s.out = [b.text] := by
  have hzero : 0 < workerNum := by omega
  have hone : 1 < workerNum := by omega
  have hr := reached_init Option.isSome workerNum buf stack
  have hr₂ := (hr.ready hzero (some a) rfl rfl rfl).ready hone (some b) rfl rfl rfl
  obtain ⟨_, -, hr₃⟩ := hr₂.deliver hzero (some a) rfl rfl
  obtain ⟨_, hcopied, hr₄⟩ := hr₃.deliver hone (some b) rfl rfl
  rw [letters_fgets] at hcopied
  refine ⟨_, hr₄.print rfl rfl hcopied b.length_text b.no_zero, ⟨rfl, rfl, fun w line k h => ?_⟩,
    rfl, rfl⟩
  rcases w with - | w | w <;> cases h

/-- The input ends behind the first line, and the line is printed twice. -/
theorem reached_again (hpos : 0 < workerNum) (buf : Buffer UInt8 1024)
    (stack : Nat → Buffer UInt8 1024) (a : Line) :
    ∃ s, Reached (fun _ => true) workerNum buf stack s ∧ s.Quiet ∧ s.entered = [a] ∧
      s.out = [a.text, a.text] := by
  have hr := reached_init (fun _ => true) workerNum buf stack
  have hr₁ := hr.ready hpos none rfl rfl rfl
  obtain ⟨_, hcopied, hr₂⟩ := hr₁.deliver hpos (some a) rfl rfl
  rw [letters_fgets] at hcopied
  have hr₃ := hr₂.print rfl rfl hcopied a.length_text a.no_zero
  have hr₄ := hr₃.ready hpos none rfl rfl rfl
  obtain ⟨_, hcopied', hr₅⟩ := hr₄.deliver hpos none rfl rfl
  -- the buffer is as the line has left it
  have hagain : Copied a.text 1024 _ :=
    letters_fgets ((State.init buf stack).move 0 .reading) 0 a ▸ hcopied'
  refine ⟨_, hr₅.print rfl rfl hagain a.length_text a.no_zero, ⟨rfl, rfl, fun w text k h => ?_⟩,
    rfl, rfl⟩
  rcases w with - | w <;> cases h

/-- The parent has read the whole buffer and goes on. -/
theorem parent_faults {seen : Bytes} (hparent : s.parent = .printing seen)
    (hlen : seen.length = 1024) : Faults (step workerNum .parent) s := by
  have hnone : s.buf.1[seen.length]? = none := by
    rw [List.getElem?_eq_none_iff, s.buf.2, hlen]
  rw [step, faults_load_bind, hparent, main, faults_load_bind, hnone]
  exact faults_fault.bind

/-- The input ends at once, and what is handed over has no end. -/
theorem reached_behind (hw : w < workerNum) (buf : Buffer UInt8 1024)
    (hno : (0 : UInt8) ∉ (stack w).1) :
    ∃ s, Reached (fun _ => true) workerNum buf stack s ∧ Faults (step workerNum .parent) s := by
  have hr := reached_init (fun _ => true) workerNum buf stack
  have hr₁ := hr.ready hw none rfl rfl rfl
  obtain ⟨_, hcopied, hr₂⟩ := hr₁.deliver hw none rfl (move_self _ w _)
  have hlen : (stack w).letters.length = 1024 := by
    rw [Buffer.letters_eq_self hno, (stack w).2]
  have hr₃ := hr₂.parent (returns_load_bind.mpr (returns_store.mpr rfl))
  exact ⟨_, hr₃.read rfl hcopied rfl hlen.le Buffer.not_mem_letters, parent_faults rfl hlen⟩

/-- **The shared memory.**  While there is input the parent never reads behind
the buffer, whatever the workers do, and it prints the lines that were entered,
all of them and in their order, in all schedules iff there is no more than one
worker.  When the input ends it stays in the buffer in all schedules iff each
worker had a zero in its own one from the start, and prints what was entered
only if there is no worker. -/
theorem shm_relays (workerNum : Nat) (buf : Buffer UInt8 1024) (stack : Nat → Buffer UInt8 1024) :
    (∀ acts s, Runs (Under inputLasts (step workerNum)) (State.init buf stack) acts s →
      ∀ act n, Under inputLasts (step workerNum) act s n ≠ .fault) ∧
    (workerNum ≤ 1 → ∀ acts s,
      Runs (Under inputLasts (step workerNum)) (State.init buf stack) acts s →
      s.out <+: s.entered.map Line.text) ∧
    ((∀ acts s, Runs (Under inputLasts (step workerNum)) (State.init buf stack) acts s →
      s.Quiet → s.out = s.entered.map Line.text) ↔ workerNum ≤ 1) ∧
    ((∀ acts s, Runs (step workerNum) (State.init buf stack) acts s →
      ∀ act n, step workerNum act s n ≠ .fault) ↔ ∀ w < workerNum, (0 : UInt8) ∈ (stack w).1) ∧
    ((∀ acts s, Runs (step workerNum) (State.init buf stack) acts s →
      s.Quiet → s.out = s.entered.map Line.text) ↔ workerNum = 0) := by
  have hsound : workerNum ≤ 1 → ∀ acts s,
      Runs (Under inputLasts (step workerNum)) (State.init buf stack) acts s → Sound s :=
    fun hone acts s hr => hr.invariant Sound (init_sound buf stack) fun act _ hs =>
      safe_under.mpr fun hin => step_sound hone act (.inr hin) hs
  let line : Line := ⟨[0x0A], by decide, by decide, by decide⟩
  refine ⟨fun acts s hr act => ?_, fun hone acts s hr => (hsound hone acts s hr).phase.out_le,
    ⟨fun hall => ?_, fun hone acts s hr => (hsound hone acts s hr).phase.out_eq⟩,
    ⟨fun hall w hw => ?_, fun hstack acts s hr act => ?_⟩, ⟨fun hall => ?_, ?_⟩⟩
  · -- inside the buffer, while there is input
    have hstep : ∀ act s, Ended Option.isSome workerNum s →
        Safe (Under inputLasts (step workerNum) act) s
          fun _ s' => Ended Option.isSome workerNum s' := fun act _ hs =>
      safe_under.mpr fun hin => step_ended act hin hs
    have hinit : Ended Option.isSome workerNum (State.init buf stack) :=
      init_ended buf fun h => by cases h
    exact (hstep act s (hr.invariant _ hinit hstep)).no_fault
  · -- more than one worker, while there is input
    by_contra htwo
    obtain ⟨s, ⟨acts, hr⟩, hquiet, hentered, hout⟩ :=
      reached_lost (not_le.mp htwo) buf stack line line
    have heq := congrArg List.length (hall acts s hr hquiet)
    rw [hentered, hout] at heq
    cases heq
  · -- no zero on the stack of a worker
    by_contra hno
    obtain ⟨s, ⟨acts, hr⟩, N, hfault⟩ := reached_behind hw buf hno
    exact hall acts s hr.of_under .parent N (hfault N (le_refl N))
  · -- inside the buffer, also at the end of the input
    have hstep : ∀ act s, Ended (fun _ => true) workerNum s →
        Safe (step workerNum act) s fun _ s' => Ended (fun _ => true) workerNum s' :=
      fun act _ hs => step_ended act (by cases act <;> rfl) hs
    have hinit : Ended (fun _ => true) workerNum (State.init buf stack) :=
      init_ended buf fun _ => hstack
    exact (hstep act s (hr.invariant _ hinit hstep)).no_fault
  · -- a worker at the end of the input
    by_contra hpos
    obtain ⟨s, ⟨acts, hr⟩, hquiet, hentered, hout⟩ :=
      reached_again (Nat.pos_of_ne_zero hpos) buf stack line
    have heq := congrArg List.length (hall acts s hr.of_under hquiet)
    rw [hentered, hout] at heq
    cases heq
  · -- no worker
    rintro rfl acts s hr hquiet
    have hs : Sound s := hr.invariant Sound (init_sound buf stack) fun act _ hs =>
      step_sound (Nat.zero_le 1) act (.inl rfl) hs
    exact hs.phase.out_eq hquiet

end DmfServer.ShmTest
