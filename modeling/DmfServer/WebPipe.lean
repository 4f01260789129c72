/-
DmfServer/WebPipe.lean

The clients of the benchmark and their parent, `bench` of `webbench.c`.

The parent forks its clients, every client writes one line with its three
counters into a common pipe and exits, and the parent reads with `fscanf`
until it has as many lines as clients.  A line is written at once, when its
stream is closed, so the lines arrive whole, in any order.

Whatever the order is (`bench_collects`): the parent ends only when all
clients have reported, with the sums of what they counted, as `int`s, and
returns the `speed` of the last report; and when they have, it ends by reading
what is left.  It never sees the end of the pipe, though, since it holds a
writing end itself: the message that a client has died is not reached, and if
one dies, the parent waits for its line for good.
-/
import DmfServer.CString
import DmfServer.Threads

namespace DmfServer.Webbench

open Imperative Imperative.Prog Strings CString

/-- What a client counted: `speed`, `failed` and `bytes`. -/
@[ext] structure Report where
  speed : Int32
  failed : Int32
  bytes : Int32
  deriving DecidableEq

/-- `fprintf(f, "%d %d %d\n", speed, failed, bytes)`. -/
def reportLine (r : Report) : Bytes :=
  bytes (toString r.speed.toInt) ++ bytes " " ++ bytes (toString r.failed.toInt) ++ bytes " " ++
    bytes (toString r.bytes.toInt) ++ bytes "\n"

/-- What `fscanf(f, "%d %d %d", &i, &j, &k)` comes to on what is in the pipe:
it waits for more, some conversions fail, or there are three numbers. -/
inductive Fields where
  | blocked
  | short (values : List Int32)
  | all (report : Report) (rest : Bytes)

def fscanf (s : Bytes) : Fields :=
  match scanInt s with
  | .more => .blocked
  | .mismatch => .short []
  | .value i s =>
      match scanInt s with
      | .more => .blocked
      | .mismatch => .short [.ofInt i]
      | .value j s =>
          match scanInt s with
          | .more => .blocked
          | .mismatch => .short [.ofInt i, .ofInt j]
          | .value k s => .all ⟨.ofInt i, .ofInt j, .ofInt k⟩ s

/-! ### The processes -/

/-- Where the parent is. -/
inductive Phase where
  | forking
  | reading
  /-- all clients are read -/
  | done
  /-- "Some of our childrens died." -/
  | died
  /-- "problems forking worker" -/
  | failed
  deriving DecidableEq

inductive ChildState where
  | running
  | reported
  | dead
  deriving DecidableEq

/-- The parent, its children in the order of their forks, and the pipe. -/
structure Bench where
  phase : Phase
  children : List ChildState
  pipe : Bytes
  /-- the descriptors of the end that is written to -/
  writeEnds : Nat
  clients : Nat
  /-- the global counters of the parent -/
  total : Report
  /-- `i`, `j` and `k` -/
  last : Report
  deriving DecidableEq

/-- Behind `pipe`: the parent has both ends. -/
def Bench.init (n : Nat) : Bench := ⟨.forking, [], [], 1, n, ⟨0, 0, 0⟩, ⟨0, 0, 0⟩⟩

/-- What happens next. -/
inductive BenchAct where
  | fork
  | forkFails
  | forked
  /-- The client writes its line and exits. -/
  | report (c : Nat)
  /-- The client ends without. -/
  | die (c : Nat)
  | read

/-- A client is over. -/
def Bench.exit (c : Nat) (how : ChildState) (s : Bench) : Bench :=
  { s with children := s.children.set c how, writeEnds := s.writeEnds - 1 }

/-- The counters of a client are added. -/
def Bench.add (r : Report) (rest : Bytes) (s : Bench) : Bench :=
  { s with
    pipe := rest
    last := r
    total := ⟨s.total.speed + r.speed, s.total.failed + r.failed, s.total.bytes + r.bytes⟩
    clients := s.clients - 1
    phase := if s.clients - 1 = 0 then .done else .reading }

/-- `return i`. -/
def Bench.answer (s : Bench) : Int32 := s.last.speed

/-- What the parent makes of its input; with two numbers the third is what it
was. -/
def Bench.take (s : Bench) : Fields → Prog Bench Unit
  | .blocked => do
      await fun s => decide (s.writeEnds = 0)
      store fun s => { s with phase := .died }
  | .short [i, j] => store (Bench.add ⟨i, j, s.last.bytes⟩ s.pipe)
  | .short _ => store fun s => { s with phase := .died }
  | .all r rest => store (Bench.add r rest)

/-- One step of the benchmark with `n` clients, which count `result`. -/
def benchStep (n : Nat) (result : Nat → Report) : BenchAct → Prog Bench Unit
  | .fork => do
      await fun s => decide (s.phase = .forking ∧ s.children.length < n)
      store fun s => { s with
        children := s.children ++ [.running]
        writeEnds := s.writeEnds + 1 }
  | .forkFails => do
      await fun s => decide (s.phase = .forking ∧ s.children.length < n)
      store fun s => { s with phase := .failed }
  | .forked => do
      await fun s => decide (s.phase = .forking ∧ s.children.length = n)
      store fun s => { s with phase := .reading, total := ⟨0, 0, 0⟩ }
  | .report c => do
      await fun s => decide (s.children[c]? = some .running)
      store fun s => { s with pipe := s.pipe ++ reportLine (result c) }
      store (Bench.exit c .reported)
  | .die c => do
      await fun s => decide (s.children[c]? = some .running)
      store (Bench.exit c .dead)
  | .read => do
      await fun s => decide (s.phase = .reading)
      let s ← load id
      s.take (fscanf s.pipe)

instance (s : Bench) (f : Fields) : Loopless (s.take f) := by
  unfold Bench.take
  split <;> infer_instance

instance (n : Nat) (result : Nat → Report) (act : BenchAct) :
    Loopless (benchStep n result act) := by
  cases act <;> unfold benchStep <;> infer_instance

/-! ### The pipe -/

/-- What is in front of the lines: the parent leaves a line feed behind. -/
def Lead (lead : Bytes) : Prop := lead = [] ∨ lead = bytes "\n"

theorem Lead.blank {lead : Bytes} (h : Lead lead) : ∀ b ∈ lead, isSpace b = true := by
  rcases h with rfl | rfl
  · simp
  · decide +kernel

/-- A line that arrived is read, up to its line feed. -/
theorem fscanf_line {lead : Bytes} (h : Lead lead) (r : Report) (rest : Bytes) :
    fscanf (lead ++ reportLine r ++ rest) = .all r (bytes "\n" ++ rest) := by
  have hspace : isDigit 0x20 = false := by decide
  have hfeed : isDigit 0x0A = false := by decide
  have hblank : ∀ b ∈ ([0x20] : Bytes), isSpace b = true := by decide +kernel
  have htext : lead ++ reportLine r ++ rest = lead ++ bytes (toString r.speed.toInt) ++ 0x20 ::
      (bytes (toString r.failed.toInt) ++ 0x20 ::
        (bytes (toString r.bytes.toInt) ++ 0x0A :: rest)) := by
    have h₁ : bytes " " = [0x20] := rfl
    have h₂ : bytes "\n" = [0x0A] := rfl
    rw [reportLine, h₁, h₂]
    simp only [List.append_assoc, List.cons_append, List.nil_append]
  have hfailed := scanInt_toString r.failed.toInt (bytes (toString r.bytes.toInt) ++ 0x0A :: rest)
    hblank hspace
  have hbytes := scanInt_toString r.bytes.toInt rest hblank hfeed
  simp only [List.cons_append, List.nil_append] at hfailed hbytes
  rw [htext, fscanf]
  simp only [scanInt_toString r.speed.toInt _ h.blank hspace, hfailed, hbytes, Int32.ofInt_toInt]
  rfl

/-- In an empty pipe it waits. -/
theorem fscanf_lead {lead : Bytes} (h : Lead lead) : fscanf lead = .blocked := by
  rcases h with rfl | rfl
  · rfl
  · have hmore : scanInt (bytes "\n") = .more := by decide +kernel
    rw [fscanf, hmore]

/-! ### The invariant -/

/-- What these clients counted together. -/
def sumOf (result : Nat → Report) (cs : List Nat) : Report :=
  ⟨.ofInt (cs.map fun c => (result c).speed.toInt).sum,
    .ofInt (cs.map fun c => (result c).failed.toInt).sum,
    .ofInt (cs.map fun c => (result c).bytes.toInt).sum⟩

/-- The clients that report in a run, in this order. -/
def reports (acts : List BenchAct) : List Nat :=
  acts.filterMap fun
    | .report c => some c
    | _ => none

variable {n c : Nat} {result : Nat → Report} {s s' : Bench} {collected queued : List Nat}

theorem sumOf_concat (result : Nat → Report) (cs : List Nat) (c : Nat) :
    sumOf result (cs ++ [c]) = ⟨(sumOf result cs).speed + (result c).speed,
      (sumOf result cs).failed + (result c).failed,
      (sumOf result cs).bytes + (result c).bytes⟩ := by
  simp [sumOf]

/-- The clients in `collected` have been read, in this order, and the lines of
those in `queued` are in the pipe. -/
structure Bench.Sound (n : Nat) (result : Nat → Report) (s : Bench)
    (collected queued : List Nat) : Prop where
  size : s.children.length ≤ n
  full : s.phase = .reading ∨ s.phase = .done → s.children.length = n
  alive : s.phase ≠ .died
  ends : s.writeEnds = 1 + s.children.count .running
  nodup : (collected ++ queued).Nodup
  reported : ∀ c, c ∈ collected ++ queued ↔ s.children[c]? = some .reported
  pipe : ∃ lead, Lead lead ∧
    s.pipe = lead ++ (queued.map fun c => reportLine (result c)).flatten
  fresh : s.phase = .forking → collected = []
  total : s.phase = .reading ∨ s.phase = .done → s.total = sumOf result collected
  clients : s.clients + collected.length = n
  reading : s.phase = .reading → 0 < s.clients
  done : s.phase = .done → s.clients = 0 ∧ ∃ c, collected.getLast? = some c ∧ s.last = result c

theorem Bench.init_sound (n : Nat) (result : Nat → Report) :
    (Bench.init n).Sound n result [] [] where
  size := Nat.zero_le n
  full h := by rcases h with h | h <;> cases h
  alive := Phase.noConfusion
  ends := rfl
  nodup := List.nodup_nil
  reported c := by simp [Bench.init]
  pipe := ⟨[], .inl rfl, rfl⟩
  fresh _ := rfl
  total h := by rcases h with h | h <;> cases h
  clients := rfl
  reading h := by cases h
  done h := by cases h

/-! ### The steps -/

theorem Bench.Sound.fork (h : s.Sound n result collected queued) (hphase : s.phase = .forking)
    (hlt : s.children.length < n) : Bench.Sound n result
      { s with children := s.children ++ [.running], writeEnds := s.writeEnds + 1 }
      collected queued := by
  refine ⟨?_, ?_, h.alive, ?_, h.nodup, ?_, h.pipe, h.fresh, h.total, h.clients, h.reading, h.done⟩
  · show (s.children ++ [ChildState.running]).length ≤ n
    simpa using hlt
  · intro hp
    rcases hp with hp | hp <;> cases hphase.symm.trans hp
  · show s.writeEnds + 1 = 1 + (s.children ++ [ChildState.running]).count .running
    rw [List.count_append, h.ends]
    rfl
  · intro c
    rw [h.reported]
    show _ ↔ (s.children ++ [ChildState.running])[c]? = some .reported
    rw [List.getElem?_append]
    split_ifs with hc
    · rfl
    · -- the new child has not reported
      rw [List.getElem?_eq_none (not_lt.mp hc)]
      rcases hk : c - s.children.length with - | k <;> simp

/-- A client ends: its descriptor is closed, and no other client changes. -/
theorem exit_children {how : ChildState} (hrun : s.children[c]? = some .running)
    (hhow : how ≠ .running) (hends : s.writeEnds = 1 + s.children.count .running) :
    (s.exit c how).writeEnds = 1 + (s.exit c how).children.count .running ∧
      ∀ c', (s.exit c how).children[c']? = some .reported ↔
        s.children[c']? = some .reported ∨ c' = c ∧ how = .reported := by
  obtain ⟨hc, hget⟩ := List.getElem?_eq_some_iff.mp hrun
  constructor
  · -- there was one to be subtracted
    show s.writeEnds - 1 = 1 + (s.children.set c how).count .running
    have hpos : 0 < s.children.count .running :=
      List.count_pos_iff.mpr (hget ▸ List.getElem_mem hc)
    rw [List.count_set hc, hget]
    simp [hhow]
    omega
  · intro c'
    show (s.children.set c how)[c']? = _ ↔ _
    rw [List.getElem?_set]
    split_ifs with he
    · subst he
      simp [hrun]
    · simp [Ne.symm he]

theorem Bench.Sound.report (h : s.Sound n result collected queued)
    (hrun : s.children[c]? = some .running) :
    (Bench.exit c .reported { s with pipe := s.pipe ++ reportLine (result c) }).Sound n result
      collected (queued ++ [c]) := by
  obtain ⟨hends, hreported⟩ :=
    exit_children hrun (by decide : ChildState.reported ≠ .running) h.ends
  -- a client that runs has no line in the pipe, and none that was read
  have hnew : c ∉ collected ++ queued := by
    rw [h.reported, hrun]
    decide
  refine ⟨?_, fun hp => ?_, h.alive, hends, ?_, ?_, ?_, h.fresh, h.total, h.clients, h.reading,
    h.done⟩
  · show (s.children.set c .reported).length ≤ n
    rw [List.length_set]
    exact h.size
  · show (s.children.set c .reported).length = n
    rw [List.length_set]
    exact h.full hp
  · rw [← List.append_assoc]
    refine List.Nodup.append h.nodup (List.nodup_singleton c) ?_
    rw [List.disjoint_singleton]
    exact hnew
  · intro c'
    rw [← List.append_assoc, List.mem_append, h.reported]
    show _ ↔ (s.exit c .reported).children[c']? = _
    rw [hreported]
    simp
  · obtain ⟨lead, hlead, hpipe⟩ := h.pipe
    refine ⟨lead, hlead, ?_⟩
    show s.pipe ++ reportLine (result c) = _
    rw [hpipe]
    simp

theorem Bench.Sound.die (h : s.Sound n result collected queued)
    (hrun : s.children[c]? = some .running) :
    (s.exit c .dead).Sound n result collected queued := by
  obtain ⟨hends, hreported⟩ := exit_children hrun (by decide : ChildState.dead ≠ .running) h.ends
  refine ⟨?_, fun hp => ?_, h.alive, hends, h.nodup, ?_, h.pipe, h.fresh, h.total, h.clients,
    h.reading, h.done⟩
  · show (s.children.set c .dead).length ≤ n
    rw [List.length_set]
    exact h.size
  · show (s.children.set c .dead).length = n
    rw [List.length_set]
    exact h.full hp
  · intro c'
    rw [h.reported, hreported]
    simp

/-- The parent reads the line that arrived first. -/
theorem Bench.Sound.read (h : s.Sound n result collected (c :: queued))
    (hphase : s.phase = .reading) : ∃ rest, fscanf s.pipe = .all (result c) rest ∧
      (s.add (result c) rest).Sound n result (collected ++ [c]) queued := by
  obtain ⟨lead, hlead, hpipe⟩ := h.pipe
  have hscan : fscanf s.pipe = .all (result c)
      (bytes "\n" ++ (queued.map fun c => reportLine (result c)).flatten) := by
    rw [hpipe, List.map_cons, List.flatten_cons, ← List.append_assoc]
    exact fscanf_line hlead _ _
  have hclients := h.clients
  have hpos := h.reading hphase
  have hlen : (collected ++ [c]).length = collected.length + 1 := by simp
  have hphase' : (s.add (result c) (bytes "\n" ++ (queued.map fun c =>
      reportLine (result c)).flatten)).phase = if s.clients - 1 = 0 then .done else .reading := rfl
  refine ⟨_, hscan, h.size, fun _ => h.full (.inl hphase), ?_, h.ends, ?_, ?_, ?_, ?_, fun _ => ?_,
    ?_, ?_, ?_⟩
  · rw [hphase']
    split_ifs <;> decide
  · simpa using h.nodup
  · intro c'
    rw [List.append_assoc]
    exact h.reported c'
  · -- the line feed of this line stays in the pipe
    exact ⟨bytes "\n", .inr rfl, rfl⟩
  · rw [hphase']
    split_ifs <;> exact fun hf => by cases hf
  · rw [sumOf_concat, ← h.total (.inl hphase)]
    rfl
  · rw [hlen]
    show s.clients - 1 + (collected.length + 1) = n
    omega
  · rw [hphase']
    split_ifs with hzero
    · exact fun hf => by cases hf
    · exact fun _ => Nat.pos_of_ne_zero hzero
  · rw [hphase']
    split_ifs with hzero
    · exact fun _ => ⟨hzero, c, List.getLast?_concat, rfl⟩
    · exact fun hf => by cases hf

theorem Bench.Sound.forked (h : s.Sound n result collected queued) (hn : 0 < n)
    (hphase : s.phase = .forking) (hlen : s.children.length = n) :
    Bench.Sound n result { s with phase := .reading, total := ⟨0, 0, 0⟩ } collected queued := by
  -- nothing was read before, so the counters begin with what they should
  have hnil := h.fresh hphase
  have hclients := h.clients
  rw [hnil, List.length_nil] at hclients
  refine ⟨h.size, fun _ => hlen, Phase.noConfusion, h.ends, h.nodup, h.reported, h.pipe, ?_, ?_,
    h.clients, fun _ => ?_, ?_⟩
  · exact fun hf => Phase.noConfusion hf
  · rw [hnil]
    exact fun _ => rfl
  · show 0 < s.clients
    omega
  · exact fun hf => Phase.noConfusion hf

theorem Bench.Sound.failed (h : s.Sound n result collected queued) :
    Bench.Sound n result { s with phase := .failed } collected queued where
  size := h.size
  full hf := hf.elim Phase.noConfusion Phase.noConfusion
  alive := Phase.noConfusion
  ends := h.ends
  nodup := h.nodup
  reported := h.reported
  pipe := h.pipe
  fresh := Phase.noConfusion
  total hf := hf.elim Phase.noConfusion Phase.noConfusion
  clients := h.clients
  reading := Phase.noConfusion
  done := Phase.noConfusion

/-- Without a line the parent waits: it holds a writing end itself. -/
theorem Bench.Sound.blocked (h : s.Sound n result collected []) :
    fscanf s.pipe = .blocked ∧ s.writeEnds ≠ 0 := by
  obtain ⟨lead, hlead, hpipe⟩ := h.pipe
  constructor
  · rw [hpipe]
    simpa using fscanf_lead hlead
  · rw [h.ends]
    omega

/-- Every step keeps the invariant, and a report goes to the end of the queue. -/
theorem benchStep_sound (hn : 0 < n) (act : BenchAct) (h : s.Sound n result collected queued) :
    Safe (benchStep n result act) s fun _ s' => ∃ collected' queued',
      s'.Sound n result collected' queued' ∧
      collected' ++ queued' = collected ++ queued ++ reports [act] := by
  have hsame : collected ++ queued = collected ++ queued ++ [] := (List.append_nil _).symm
  cases act with
  | fork =>
      simp only [benchStep, safe_await_bind, safe_store, decide_eq_true_eq]
      rintro ⟨hphase, hlt⟩
      exact ⟨_, _, h.fork hphase hlt, hsame⟩
  | forkFails =>
      simp only [benchStep, safe_await_bind, safe_store, decide_eq_true_eq]
      exact fun _ => ⟨_, _, h.failed, hsame⟩
  | forked =>
      simp only [benchStep, safe_await_bind, safe_store, decide_eq_true_eq]
      rintro ⟨hphase, hlen⟩
      exact ⟨_, _, h.forked hn hphase hlen, hsame⟩
  | report c =>
      simp only [benchStep, safe_await_bind, safe_store_bind, safe_store, decide_eq_true_eq]
      exact fun hrun => ⟨_, _, h.report hrun, (List.append_assoc _ _ _).symm⟩
  | die c =>
      simp only [benchStep, safe_await_bind, safe_store, decide_eq_true_eq]
      exact fun hrun => ⟨_, _, h.die hrun, hsame⟩
  | read =>
      simp only [benchStep, safe_await_bind, safe_load_bind, decide_eq_true_eq, id]
      intro hphase
      rcases queued with - | ⟨c, queued⟩
      · obtain ⟨hscan, hends⟩ := h.blocked
        rw [hscan, Bench.take]
        simp [hends]
      · obtain ⟨rest, hscan, hadd⟩ := h.read hphase
        rw [hscan, Bench.take, safe_store]
        refine ⟨_, _, hadd, ?_⟩
        rw [List.append_assoc]
        exact hsame

theorem Bench.Sound.of_runs {acts : List BenchAct} (hn : 0 < n)
    (hr : Runs (benchStep n result) (Bench.init n) acts s) :
    ∃ collected queued, s.Sound n result collected queued ∧
      collected ++ queued = reports acts := by
  induction hr with
  | nil => exact ⟨[], [], Bench.init_sound n result, rfl⟩
  | @concat acts act s s' _ hact ih =>
      obtain ⟨collected, queued, h, horder⟩ := ih
      obtain ⟨collected', queued', h', horder'⟩ := (benchStep_sound hn act h).of_returns hact
      refine ⟨collected', queued', h', ?_⟩
      rw [horder', horder, reports, reports, reports, List.filterMap_append]

/-! ### What the parent has at its end -/

/-- Only clients are read. -/
theorem Bench.Sound.lt (h : s.Sound n result collected queued) (hc : c ∈ collected ++ queued) :
    c < n := by
  obtain ⟨hlt, -⟩ := List.getElem?_eq_some_iff.mp ((h.reported c).mp hc)
  exact hlt.trans_le h.size

/-- Once all have reported, the lines that are left are those of the clients
that are left. -/
theorem Bench.Sound.length_queued (h : s.Sound n result collected queued)
    (hall : ∀ c < n, s.children[c]? = some .reported) : queued.length = s.clients := by
  have hperm : (collected ++ queued).Perm (List.range n) := by
    refine (List.perm_ext_iff_of_nodup h.nodup List.nodup_range).mpr fun c => ?_
    rw [List.mem_range]
    exact ⟨h.lt, fun hc => (h.reported c).mpr (hall c hc)⟩
  have hlen := hperm.length_eq
  have hclients := h.clients
  rw [List.length_append, List.length_range] at hlen
  omega

/-- Once as many have been read as there are, all have reported, and nothing is
left to read. -/
theorem Bench.Sound.all_collected (h : s.Sound n result collected queued)
    (hphase : s.phase = .done) : queued = [] ∧ collected.Perm (List.range n) ∧
      ∀ c < n, s.children[c]? = some .reported := by
  obtain ⟨hzero, -⟩ := h.done hphase
  have hlen : collected.length = n := by
    have := h.clients
    omega
  have hsub : (collected ++ queued).Subperm (List.range n) :=
    h.nodup.subperm fun c hc => List.mem_range.mpr (h.lt hc)
  have hle := hsub.length_le
  rw [List.length_append, hlen, List.length_range] at hle
  obtain rfl : queued = [] := List.length_eq_zero_iff.mp (by omega)
  rw [List.append_nil] at hsub
  have hperm : collected.Perm (List.range n) :=
    hsub.perm_of_length_le (by rw [List.length_range, hlen])
  refine ⟨rfl, hperm, fun c hc => (h.reported c).mp (List.mem_append_left _ ?_)⟩
  exact hperm.mem_iff.mpr (List.mem_range.mpr hc)

/-- The order of the lines does not matter for the sums. -/
theorem sumOf_perm {cs cs' : List Nat} (h : cs.Perm cs') : sumOf result cs = sumOf result cs' := by
  simp only [sumOf]
  rw [(h.map _).sum_eq, (h.map _).sum_eq, (h.map _).sum_eq]

/-! ### How the parent gets there -/

/-- The parent reads all lines that are left. -/
theorem Bench.Sound.drain (h : s.Sound n result collected queued) (hphase : s.phase = .reading)
    (hlen : queued.length = s.clients) : ∃ s',
      Runs (benchStep n result) s (List.replicate s.clients .read) s' ∧ s'.phase = .done := by
  induction queued generalizing s collected with
  | nil => exact absurd hlen (Nat.ne_of_lt (h.reading hphase))
  | cons c queued ih =>
      obtain ⟨rest, hscan, hadd⟩ := h.read hphase
      have hread : Returns (benchStep n result .read) s () (s.add (result c) rest) := by
        simp [benchStep, hphase, hscan, Bench.take]
      have hr₁ : Runs (benchStep n result) s [.read] (s.add (result c) rest) :=
        Runs.nil.concat hread
      rw [← hlen, List.length_cons, List.replicate_succ]
      rw [List.length_cons] at hlen
      have hphase₁ : (s.add (result c) rest).phase =
          if s.clients - 1 = 0 then .done else .reading := rfl
      have hleft : s.clients - 1 = queued.length := by omega
      rw [hleft] at hphase₁
      split_ifs at hphase₁ with hlast
      · rw [hlast]
        exact ⟨_, hr₁, hphase₁⟩
      · obtain ⟨s', hr', hdone⟩ := ih hadd hphase₁ hleft.symm
        refine ⟨s', ?_, hdone⟩
        rw [show (s.add (result c) rest).clients = queued.length from hleft] at hr'
        exact hr₁.append hr'

/-- Those that have not reported do so, if none has died. -/
theorem Bench.Sound.report_all (h : s.Sound n result collected queued)
    (hphase : s.phase = .reading) (halive : ∀ c < n, s.children[c]? ≠ some .dead) :
    ∃ acts s' collected queued, Runs (benchStep n result) s acts s' ∧ s'.phase = .reading ∧
      s'.Sound n result collected queued ∧ ∀ c < n, s'.children[c]? = some .reported := by
  -- by the number of those that run
  obtain ⟨m, hm⟩ : ∃ m, s.children.count .running = m := ⟨_, rfl⟩
  induction m generalizing s collected queued with
  | zero =>
      refine ⟨[], s, collected, queued, .nil, hphase, h, fun c hc => ?_⟩
      have hlt : c < s.children.length := (h.full (.inl hphase)).symm ▸ hc
      have hget := List.getElem?_eq_getElem hlt
      have hno : ChildState.running ∉ s.children := List.count_eq_zero.mp hm
      rcases hstate : s.children[c] with - | - | -
      · exact absurd (hstate ▸ List.getElem_mem hlt) hno
      · rw [hget, hstate]
      · exact absurd (hget.trans (congrArg some hstate)) (halive c hc)
  | succ m ih =>
      have hmem : ChildState.running ∈ s.children := List.count_pos_iff.mp (by omega)
      obtain ⟨c, hc, hget⟩ := List.getElem_of_mem hmem
      have hrun : s.children[c]? = some .running := by rw [List.getElem?_eq_getElem hc, hget]
      have hreport : Returns (benchStep n result (.report c)) s ()
          (Bench.exit c .reported { s with pipe := s.pipe ++ reportLine (result c) }) := by
        simp [benchStep, hrun]
      have h₁ := h.report hrun
      have halive₁ : ∀ c' < n, (s.children.set c .reported)[c']? ≠ some .dead := by
        intro c' hc' hdead
        rw [List.getElem?_set] at hdead
        split_ifs at hdead
        · cases hdead
        · exact halive c' hc' hdead
      have hm₁ : (s.children.set c .reported).count .running = m := by
        rw [List.count_set hc, hget]
        simp
        omega
      obtain ⟨acts, s', collected', queued', hr', hrest⟩ := ih h₁ hphase halive₁ hm₁
      exact ⟨_, s', collected', queued', (Runs.nil.concat hreport).append hr', hrest⟩

/-- What is dead stays dead. -/
theorem benchStep_dead (act : BenchAct) (hdead : s.children[c]? = some .dead) :
    Safe (benchStep n result act) s fun _ s' => s'.children[c]? = some .dead := by
  have hexit : ∀ c' how, s.children[c']? = some .running →
      (s.exit c' how).children[c]? = some .dead := by
    intro c' how hrun
    have hne : c' ≠ c := by
      rintro rfl
      cases hrun.symm.trans hdead
    show (s.children.set c' how)[c]? = some .dead
    rw [List.getElem?_set_ne hne]
    exact hdead
  cases act with
  | fork =>
      simp only [benchStep, safe_await_bind, safe_store, decide_eq_true_eq]
      intro _
      obtain ⟨hlt, -⟩ := List.getElem?_eq_some_iff.mp hdead
      rw [List.getElem?_append_left hlt]
      exact hdead
  | forkFails =>
      simp only [benchStep, safe_await_bind, safe_store]
      exact fun _ => hdead
  | forked =>
      simp only [benchStep, safe_await_bind, safe_store]
      exact fun _ => hdead
  | report c' =>
      simp only [benchStep, safe_await_bind, safe_store_bind, safe_store, decide_eq_true_eq]
      exact hexit c' .reported
  | die c' =>
      simp only [benchStep, safe_await_bind, safe_store, decide_eq_true_eq]
      exact hexit c' .dead
  | read =>
      simp only [benchStep, safe_await_bind, safe_load_bind, id]
      intro _
      unfold Bench.take
      split
      · exact safe_await_bind.mpr fun _ => safe_store.mpr hdead
      · exact safe_store.mpr hdead
      · exact safe_store.mpr hdead
      · exact safe_store.mpr hdead

/-- **The benchmark collects what its clients counted.**  In every run with
`n` clients, in whatever order they report or die: the parent never finds
that a client died; if it ends, every client has reported, its totals are the
sums over all clients, as `int`s, and what it returns is the `speed` of the
last report.  Once every client has reported the parent ends by reading what
is left; and before, it can still end exactly if no client has died. -/
theorem bench_collects (n : Nat) (hn : 0 < n) (result : Nat → Report) (acts : List BenchAct)
    (s : Bench) (hr : Runs (benchStep n result) (Bench.init n) acts s) :
    s.phase ≠ .died ∧
    (s.phase = .done → (∀ c < n, s.children[c]? = some .reported) ∧
      s.total = sumOf result (List.range n) ∧
      ∃ c, (reports acts).getLast? = some c ∧ s.answer = (result c).speed) ∧
    (s.phase = .reading → (∀ c < n, s.children[c]? = some .reported) → ∃ s',
      Runs (benchStep n result) s (List.replicate s.clients .read) s' ∧ s'.phase = .done) ∧
    (s.phase = .reading →
      ((∃ acts' s', Runs (benchStep n result) s acts' s' ∧ s'.phase = .done) ↔
        ∀ c < n, s.children[c]? ≠ some .dead)) := by
  obtain ⟨collected, queued, h, horder⟩ := Bench.Sound.of_runs hn hr
  refine ⟨h.alive, fun hphase => ?_, fun hphase hall => h.drain hphase (h.length_queued hall),
    fun hphase => ⟨?_, fun halive => ?_⟩⟩
  · obtain ⟨rfl, hperm, hreported⟩ := h.all_collected hphase
    obtain ⟨-, c, hc, hlast⟩ := h.done hphase
    refine ⟨hreported, (h.total (.inr hphase)).trans (sumOf_perm hperm), c, ?_, ?_⟩
    · rw [← horder, List.append_nil]
      exact hc
    · rw [Bench.answer, hlast]
  · -- a client that died would still be dead
    rintro ⟨acts', s', hr', hdone⟩ c hc hdead
    obtain ⟨_, _, h', -⟩ := Bench.Sound.of_runs hn (hr.append hr')
    obtain ⟨-, -, hreported⟩ := h'.all_collected hdone
    have hdead' : s'.children[c]? = some .dead :=
      hr'.invariant (fun s => s.children[c]? = some .dead) hdead fun act _ hs =>
        benchStep_dead act hs
    cases (hreported c hc).symm.trans hdead'
  · obtain ⟨acts', s₁, collected₁, queued₁, hr₁, hphase₁, h₁, hall⟩ := h.report_all hphase halive
    obtain ⟨s', hr', hdone⟩ := h₁.drain hphase₁ (h₁.length_queued hall)
    exact ⟨_, s', hr₁.append hr', hdone⟩

/-- Two clients, of which the second is faster: what is returned is the speed of
the other one. -/
theorem bench_collects_two : ∃ s, Runs
    (benchStep 2 fun c => if c = 0 then ⟨12, 0, 345⟩ else ⟨7, 1, 89⟩) (Bench.init 2)
      [.fork, .fork, .report 1, .forked, .read, .report 0, .read] s ∧
    s.phase = .done ∧ s.total = ⟨19, 1, 434⟩ ∧ s.answer = 12 := by
  have hexec : exec (benchStep 2 fun c => if c = 0 then ⟨12, 0, 345⟩ else ⟨7, 1, 89⟩)
      [.fork, .fork, .report 1, .forked, .read, .report 0, .read] (Bench.init 2) =
        some ⟨.done, [.reported, .reported], bytes "\n", 1, 0, ⟨19, 1, 434⟩, ⟨12, 0, 345⟩⟩ := by
    decide +kernel
  have hruns := Runs.of_exec hexec
  obtain ⟨-, hdone, -⟩ := bench_collects 2 (by decide) _ _ _ hruns
  obtain ⟨-, htotal, c, hc, hanswer⟩ := hdone rfl
  obtain rfl : 0 = c := Option.some.inj hc
  exact ⟨_, hruns, rfl, htotal, hanswer⟩

end DmfServer.Webbench
