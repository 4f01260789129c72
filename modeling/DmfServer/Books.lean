/-
DmfServer/Books.lean

What the counters of the shared memory stand for.

The books of a worker are its own share of the counters together with the
descriptors they are about: the clients, which are the descriptors that were
accepted and are open; the live ones, which are registered with the epoll
set; and the armed ones, which are registered for `EPOLLOUT`.  A connection
goes through these sets in this order and leaves all of them when it is
closed.

`Books.Step` is the life of a connection with what is counted for it.  Two
steps have no counterpart in the other counters: a client can be refused by
the epoll set after it was counted, and it can be left open without being
counted.  Without these two the counters are balanced (`Balanced.step`); with
them and all others the counters keep their order (`Ordered.step`), as long
as an answer is only given where it was asked for.

The second part reads the books off the world, and says what each update of
the world does to them.
-/
import DmfServer.Stepwise
import Mathlib.Data.Finset.Card

namespace DmfServer

open Imperative Imperative.Prog Strings World

/-! ### The books -/

/-- A worker's counters, and the connections they are about. -/
@[ext] structure Books where
  shm : ShmData
  /-- The client descriptors that are open. -/
  clients : Finset Fd
  /-- Those of them that are registered. -/
  live : Finset Fd
  /-- Those that are registered for `EPOLLOUT`. -/
  armed : Finset Fd
  live_subset : live ⊆ clients
  armed_subset : armed ⊆ live

namespace Books

variable {b b' : Books} {fd : Fd} {d d' : ShmData}

/-- A client descriptor is opened. -/
def add (fd : Fd) (b : Books) : Books where
  shm := b.shm
  clients := insert fd b.clients
  live := b.live
  armed := b.armed
  live_subset := b.live_subset.trans (Finset.subset_insert _ _)
  armed_subset := b.armed_subset

/-- It is registered. -/
def register (fd : Fd) (b : Books) (h : fd ∈ b.clients) : Books where
  shm := b.shm
  clients := b.clients
  live := insert fd b.live
  armed := b.armed
  live_subset := Finset.insert_subset h b.live_subset
  armed_subset := b.armed_subset.trans (Finset.subset_insert _ _)

/-- It is registered for `EPOLLOUT`. -/
def arm (fd : Fd) (b : Books) (h : fd ∈ b.live) : Books where
  shm := b.shm
  clients := b.clients
  live := b.live
  armed := insert fd b.armed
  live_subset := b.live_subset
  armed_subset := Finset.insert_subset h b.armed_subset

/-- It is closed. -/
def drop (fd : Fd) (b : Books) : Books where
  shm := b.shm
  clients := b.clients.erase fd
  live := b.live.erase fd
  armed := b.armed.erase fd
  live_subset := Finset.erase_subset_erase fd b.live_subset
  armed_subset := Finset.erase_subset_erase fd b.armed_subset

/-- `d` is counted. -/
def count (d : ShmData) (b : Books) : Books := { b with shm := b.shm + d }

/-- `accept_num ++`. -/
def accepted : ShmData := ⟨1, 0, 0, 0⟩

/-- `read_num ++`. -/
def read : ShmData := ⟨0, 1, 0, 0⟩

/-- `write_num ++`. -/
def written : ShmData := ⟨0, 0, 1, 0⟩

/-- `close_num ++`. -/
def closed : ShmData := ⟨0, 0, 0, 1⟩

/-- What can happen to a connection.  `clean` excludes that a client is lost
on its way in; `asked`, that an answer is given to one that is not armed. -/
inductive Step (clean asked : Prop) : Books → Books → Prop
  /-- A client is accepted, counted and registered. -/
  | accept {b : Books} {fd : Fd} (h : fd ∉ b.clients) :
      Step clean asked b (((b.add fd).register fd (Finset.mem_insert_self _ _)).count accepted)
  /-- A client is accepted and counted; it cannot be registered, and is
  closed. -/
  | refuse {b : Books} (h : ¬ clean) : Step clean asked b (b.count accepted)
  /-- A client is accepted, and left alone. -/
  | strand {b : Books} {fd : Fd} (h : ¬ clean) : Step clean asked b (b.add fd)
  /-- A request is read. -/
  | read {b : Books} : Step clean asked b (b.count read)
  /-- A request is read, and the client is to be answered. -/
  | arm {b : Books} {fd : Fd} (h : fd ∈ b.live) : Step clean asked b ((b.arm fd h).count read)
  /-- A client is closed. -/
  | close {b : Books} {fd : Fd} (h : fd ∈ b.live) : Step clean asked b ((b.drop fd).count closed)
  /-- A client is answered and closed. -/
  | answer {b : Books} {fd : Fd} (h : fd ∈ b.live) (ha : asked → fd ∈ b.armed) :
      Step clean asked b ((b.drop fd).count (written + closed))

/-- Several steps. -/
abbrev Steps (clean asked : Prop) : Books → Books → Prop := Relation.ReflTransGen (Step clean asked)

/-! ### What the steps keep -/

/-- Every client was counted, and not closed. -/
def Balanced (b : Books) : Prop := b.shm.acceptNum = b.shm.closeNum + b.clients.card

/-- A connection is accepted before it is closed, and read before it is
written to; whoever is written to is closed. -/
structure Ordered (b : Books) : Prop where
  close : b.shm.closeNum + b.live.card ≤ b.shm.acceptNum
  read : b.shm.writeNum + b.armed.card ≤ b.shm.readNum
  write : b.shm.writeNum ≤ b.shm.closeNum

/-- Before the first client the books are in order. -/
theorem balanced_of_empty (hshm : b.shm = 0) (hcl : b.clients = ∅) : b.Balanced := by
  rw [Balanced, hshm, hcl]
  rfl

theorem ordered_of_empty (hshm : b.shm = 0) (hcl : b.clients = ∅) : b.Ordered := by
  have hlive : b.live = ∅ := Finset.subset_empty.mp (hcl ▸ b.live_subset)
  have harmed : b.armed = ∅ := Finset.subset_empty.mp (hlive ▸ b.armed_subset)
  refine ⟨?_, ?_, ?_⟩
  · rw [hshm, hlive]
    exact Nat.le.refl
  · rw [hshm, harmed]
    exact Nat.le.refl
  · rw [hshm]
    exact Nat.le.refl

theorem Balanced.step {asked : Prop} (h : b.Balanced) (hs : Step True asked b b') :
    b'.Balanced := by
  have hdrop : ∀ {fd}, fd ∈ b.live → (b.clients.erase fd).card + 1 = b.clients.card :=
    fun hfd => Finset.card_erase_add_one (b.live_subset hfd)
  rw [Balanced] at h
  cases hs with
  | accept hfd =>
      show b.shm.acceptNum + 1 = b.shm.closeNum + 0 + (insert _ b.clients).card
      rw [Finset.card_insert_of_notMem hfd]
      omega
  | refuse hno => exact absurd trivial hno
  | strand hno => exact absurd trivial hno
  | read => exact h
  | arm hfd => exact h
  | close hfd =>
      show b.shm.acceptNum + 0 = b.shm.closeNum + 1 + (b.clients.erase _).card
      have hcard := hdrop hfd
      omega
  | answer hfd ha =>
      show b.shm.acceptNum + 0 = b.shm.closeNum + (0 + 1) + (b.clients.erase _).card
      have hcard := hdrop hfd
      omega

theorem Ordered.step {clean : Prop} (h : b.Ordered) (hs : Step clean True b b') :
    b'.Ordered := by
  obtain ⟨hclose, hread, hwrite⟩ := h
  have hlive : ∀ {fd}, fd ∈ b.live → (b.live.erase fd).card + 1 = b.live.card :=
    fun hfd => Finset.card_erase_add_one hfd
  cases hs with
  | accept hfd =>
      refine ⟨?_, hread, hwrite⟩
      show b.shm.closeNum + 0 + (insert _ b.live).card ≤ b.shm.acceptNum + 1
      rw [Finset.card_insert_of_notMem fun hl => hfd (b.live_subset hl)]
      omega
  | refuse hno => exact ⟨Nat.le_succ_of_le hclose, hread, hwrite⟩
  | strand hno => exact ⟨hclose, hread, hwrite⟩
  | read => exact ⟨hclose, Nat.le_succ_of_le hread, hwrite⟩
  | @arm fd hfd =>
      -- one more was read, and at most one more is armed
      refine ⟨hclose, ?_, hwrite⟩
      show b.shm.writeNum + 0 + (insert fd b.armed).card ≤ b.shm.readNum + 1
      have hcard := Finset.card_insert_le fd b.armed
      omega
  | @close fd hfd =>
      refine ⟨?_, ?_, Nat.le_succ_of_le hwrite⟩
      · show b.shm.closeNum + 1 + (b.live.erase fd).card ≤ b.shm.acceptNum + 0
        have hcard := hlive hfd
        omega
      · show b.shm.writeNum + 0 + (b.armed.erase fd).card ≤ b.shm.readNum + 0
        have hcard := Finset.card_erase_le (s := b.armed) (a := fd)
        omega
  | @answer fd hfd ha =>
      refine ⟨?_, ?_, Nat.succ_le_succ hwrite⟩
      · show b.shm.closeNum + (0 + 1) + (b.live.erase fd).card ≤ b.shm.acceptNum + 0
        have hcard := hlive hfd
        omega
      · show b.shm.writeNum + (1 + 0) + (b.armed.erase fd).card ≤ b.shm.readNum + 0
        -- the answer was asked for, so a request was read for it
        have hcard := Finset.card_erase_add_one (ha trivial)
        omega

theorem Balanced.steps {asked : Prop} (h : b.Balanced) (hs : Steps True asked b b') :
    b'.Balanced := by
  induction hs with
  | refl => exact h
  | tail _ hs ih => exact ih.step hs

theorem Ordered.steps {clean : Prop} (h : b.Ordered) (hs : Steps clean True b b') :
    b'.Ordered := by
  induction hs with
  | refl => exact h
  | tail _ hs ih => exact ih.step hs

theorem count_count : (b.count d).count d' = b.count (d + d') :=
  Books.ext (add_assoc b.shm d d') rfl rfl rfl

theorem drop_count : (b.count d).drop fd = (b.drop fd).count d := rfl

theorem drop_of_notMem (h : fd ∉ b.clients) : b.drop fd = b := by
  have hl : fd ∉ b.live := fun hl => h (b.live_subset hl)
  ext1
  · rfl
  · exact Finset.erase_eq_of_notMem h
  · exact Finset.erase_eq_of_notMem hl
  · exact Finset.erase_eq_of_notMem fun ha => hl (b.armed_subset ha)

/-- A client that is closed at once leaves no trace. -/
theorem drop_add (h : fd ∉ b.clients) : (b.add fd).drop fd = b := by
  have hl : fd ∉ b.live := fun hl => h (b.live_subset hl)
  ext1
  · rfl
  · exact Finset.erase_insert h
  · exact Finset.erase_eq_of_notMem hl
  · exact Finset.erase_eq_of_notMem fun ha => hl (b.armed_subset ha)

end Books

/-! ### The books of a world -/

namespace World

variable {w w' : World} {fd : Fd} {i : FileId} {f f' : File} {ev : EpollEvent}

/-- `fd` is open, and was accepted. -/
def accepted (w : World) (fd : Fd) : Bool := (w.fileAt fd).any fun f => f.2.via.isSome

/-- The client descriptors that were accepted and not closed yet. -/
def clients (w : World) : Finset Fd := (Finset.range w.fds.bound).filter fun fd => w.accepted fd

theorem accepted_iff :
    w.accepted fd ↔ ∃ i f, w.fds.get fd = some i ∧ w.files.get i = some f ∧ f.via.isSome := by
  rw [accepted, Option.any_eq_true]
  constructor
  · rintro ⟨⟨i, f⟩, hf, hvia⟩
    obtain ⟨hi, hf⟩ := fileAt_eq_some.mp hf
    exact ⟨i, f, hi, hf, hvia⟩
  · rintro ⟨i, f, hi, hf, hvia⟩
    exact ⟨(i, f), fileAt_eq_some.mpr ⟨hi, hf⟩, hvia⟩

@[simp] theorem mem_clients : fd ∈ w.clients ↔ w.accepted fd := by
  rw [clients, Finset.mem_filter, Finset.mem_range, and_iff_right_iff_imp]
  intro h
  obtain ⟨i, f, hi, -⟩ := accepted_iff.mp h
  exact Table.lt_bound hi

/-- The books as they stand. -/
def books (w : World) : Books where
  shm := w.shm
  clients := w.clients
  live := w.clients.filter fun fd => (w.interest.get fd).isSome
  armed := w.clients.filter fun fd => (w.interest.get fd).any fun ev => ev.events.epollout
  live_subset := Finset.filter_subset _ _
  armed_subset := by
    apply Finset.monotone_filter_right
    intro fd _ h
    obtain ⟨ev, hev, -⟩ := (Option.any_eq_true _ _).mp h
    exact Option.isSome_iff_exists.mpr ⟨ev, hev⟩

theorem mem_live : fd ∈ w.books.live ↔ w.accepted fd ∧ (w.interest.get fd).isSome := by
  rw [books, Finset.mem_filter, mem_clients]

theorem mem_armed : fd ∈ w.books.armed ↔
    w.accepted fd ∧ (w.interest.get fd).any fun ev => ev.events.epollout := by
  rw [books, Finset.mem_filter, mem_clients]

/-- The books depend on these three things. -/
theorem books_congr (hshm : w'.shm = w.shm) (hacc : ∀ fd, w'.accepted fd = w.accepted fd)
    (hint : ∀ fd, w'.interest.get fd = w.interest.get fd) : w'.books = w.books := by
  refine Books.ext hshm (Finset.ext fun fd => ?_) (Finset.ext fun fd => ?_)
    (Finset.ext fun fd => ?_)
  · show fd ∈ w'.clients ↔ fd ∈ w.clients
    rw [mem_clients, mem_clients, hacc]
  · rw [mem_live, mem_live, hacc, hint]
  · rw [mem_armed, mem_armed, hacc, hint]

/-! ### What the updates do to the books -/

theorem accepted_setFile {a : Fd} (hf : w.files.get i = some f) (hvia : f'.via = f.via) :
    (w.setFile i f').accepted a = w.accepted a := by
  rw [Bool.eq_iff_iff, accepted_iff, accepted_iff]
  apply exists_congr
  intro j
  rcases eq_or_ne j i with rfl | hne
  · simp [hf, hvia]
  · simp [hne]

/-- A call on a file. -/
theorem books_onFile {α : Type} {bad : α} {call : File → α × File}
    (hc : ∀ f, (call f).2.via = f.via) : (onFile bad call fd w).2.books = w.books := by
  rcases onFile_cases bad call fd w with he | ⟨i, f, -, hf, he⟩
  · rw [he]
  · rw [he]
    exact books_congr rfl (fun _ => accepted_setFile hf (hc f)) fun _ => rfl

/-- A new file is opened. -/
theorem accepted_openFile (hfile : ∀ a i, w.fds.get a = some i → ∃ f, w.files.get i = some f)
    (a : Fd) : (w.openFile fd f).accepted a = if a = fd then f.via.isSome else w.accepted a := by
  rw [Bool.eq_iff_iff, accepted_iff]
  split_ifs with ha
  · subst ha
    simp
  · rw [accepted_iff]
    apply exists_congr
    intro i
    rw [openFile_fds, openFile_files, Table.get_set_of_ne ha]
    constructor
    · rintro ⟨g, hi, hg, hvia⟩
      obtain ⟨g', hg'⟩ := hfile a i hi
      -- the other descriptors do not lead to the new file
      rw [Table.get_push_of_ne (ne_of_lt (Table.lt_bound hg'))] at hg
      exact ⟨g, hi, hg, hvia⟩
    · rintro ⟨g, hi, hg, hvia⟩
      exact ⟨g, hi, (Table.get_push_of_ne (ne_of_lt (Table.lt_bound hg))).trans hg, hvia⟩

theorem not_accepted (hfree : w.fds.get fd = none) : w.accepted fd = false := by
  rw [accepted, fileAt, hfree]
  rfl

/-- The descriptor of an upstream is no client. -/
theorem books_openFile_upstream
    (hfile : ∀ a i, w.fds.get a = some i → ∃ f, w.files.get i = some f)
    (hfree : w.fds.get fd = none) (hvia : f.via = none) : (w.openFile fd f).books = w.books := by
  refine books_congr rfl (fun a => ?_) fun _ => rfl
  rw [accepted_openFile hfile]
  split_ifs with ha
  · rw [ha, not_accepted hfree, hvia]
    rfl
  · rfl

theorem books_openFile (hfile : ∀ a i, w.fds.get a = some i → ∃ f, w.files.get i = some f)
    (hnew : w.interest.get fd = none) (hvia : f.via.isSome) :
    (w.openFile fd f).books = w.books.add fd := by
  have hacc : ∀ a, (w.openFile fd f).accepted a = if a = fd then f.via.isSome else w.accepted a :=
    accepted_openFile hfile
  refine Books.ext rfl (Finset.ext fun a => ?_) (Finset.ext fun a => ?_) (Finset.ext fun a => ?_)
  · show a ∈ (w.openFile fd f).clients ↔ a ∈ insert fd w.clients
    rw [mem_clients, hacc, Finset.mem_insert, mem_clients]
    split_ifs with ha <;> simp [ha, hvia]
  · show a ∈ (w.openFile fd f).books.live ↔ a ∈ w.books.live
    rw [mem_live, mem_live, hacc, openFile_interest]
    split_ifs with ha <;> simp [ha, hnew]
  · show a ∈ (w.openFile fd f).books.armed ↔ a ∈ w.books.armed
    rw [mem_armed, mem_armed, hacc, openFile_interest]
    split_ifs with ha <;> simp [ha, hnew]

/-- A descriptor is closed, and its registration ends. -/
theorem books_closeFd : (w.closeFd fd).books = w.books.drop fd := by
  have hacc : ∀ a, (w.closeFd fd).accepted a ↔ a ≠ fd ∧ w.accepted a := by
    intro a
    rcases eq_or_ne a fd with rfl | hne
    · simp [accepted, fileAt]
    · simp [accepted, fileAt, hne]
  refine Books.ext rfl (Finset.ext fun a => ?_) (Finset.ext fun a => ?_) (Finset.ext fun a => ?_)
  · show a ∈ (w.closeFd fd).clients ↔ a ∈ w.clients.erase fd
    rw [mem_clients, hacc, Finset.mem_erase, mem_clients]
  · show a ∈ (w.closeFd fd).books.live ↔ a ∈ w.books.live.erase fd
    rw [mem_live, hacc, Finset.mem_erase, mem_live, and_assoc, closeFd_interest]
    apply and_congr_right
    intro hne
    rw [Table.get_erase_of_ne hne]
  · show a ∈ (w.closeFd fd).books.armed ↔ a ∈ w.books.armed.erase fd
    rw [mem_armed, hacc, Finset.mem_erase, mem_armed, and_assoc, closeFd_interest]
    apply and_congr_right
    intro hne
    rw [Table.get_erase_of_ne hne]

/-- Whether the registration was ended before makes no difference. -/
theorem books_unregister_closeFd :
    ((w.unregister fd).closeFd fd).books = w.books.drop fd := by
  rw [← books_closeFd]
  refine books_congr rfl (fun _ => rfl) fun a => ?_
  rcases eq_or_ne a fd with rfl | hne
  · simp
  · simp [hne]

/-- A registration says nothing about who is a client. -/
theorem accepted_register {a : Fd} : (w.register fd ev).accepted a = w.accepted a := rfl

/-- A client is registered for input. -/
theorem books_register (h : fd ∈ w.books.clients) (hnew : w.interest.get fd = none)
    (hin : ev.events.epollout = false) : (w.register fd ev).books = w.books.register fd h := by
  have hacc : w.accepted fd := mem_clients.mp h
  refine Books.ext rfl rfl (Finset.ext fun a => ?_) (Finset.ext fun a => ?_)
  · show a ∈ (w.register fd ev).books.live ↔ a ∈ insert fd w.books.live
    rw [mem_live, Finset.mem_insert, mem_live, register_interest, accepted_register]
    rcases eq_or_ne a fd with rfl | hne
    · simp [hacc]
    · simp [hne]
  · show a ∈ (w.register fd ev).books.armed ↔ a ∈ w.books.armed
    rw [mem_armed, mem_armed, register_interest, accepted_register]
    rcases eq_or_ne a fd with rfl | hne
    · simp [hnew, hin]
    · simp [hne]

/-- A client that is registered is registered for output. -/
theorem books_arm (h : fd ∈ w.books.live) (hout : ev.events.epollout) :
    (w.register fd ev).books = w.books.arm fd h := by
  have hlive := mem_live.mp h
  refine Books.ext rfl rfl (Finset.ext fun a => ?_) (Finset.ext fun a => ?_)
  · show a ∈ (w.register fd ev).books.live ↔ a ∈ w.books.live
    rw [mem_live, mem_live, register_interest, accepted_register]
    rcases eq_or_ne a fd with rfl | hne
    · simp [hlive]
    · simp [hne]
  · show a ∈ (w.register fd ev).books.armed ↔ a ∈ insert fd w.books.armed
    rw [mem_armed, Finset.mem_insert, mem_armed, register_interest, accepted_register]
    rcases eq_or_ne a fd with rfl | hne
    · simp [hlive.1, hout]
    · simp [hne]

end World

end DmfServer
