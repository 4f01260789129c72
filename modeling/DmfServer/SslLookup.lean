/-
DmfServer/SslLookup.lean

The map from descriptors to sessions of `epoll_ssl_server`.

The search for the node of an event begins at the head, whose `fd` was never
set.  It never looks at the `fd` of the last node, but falls through to it, so
it finds the node of any client that is in the list, unless the junk in the
head is the client's descriptor: then it stops at the head, with a session
that is junk, too, and with no predecessor.

`Listed` is the list in memory, `Attached` what it has to do with the
descriptors, the sessions and the epoll set: there is one node for each
client, and it holds the one session that is attached to the descriptor.
Every event for a descriptor that is not the junk keeps both
(`Mapped.step`).
-/
import DmfServer.SslServer
import DmfServer.Accepting
import DmfServer.Chain
import Mathlib.Logic.Relation

namespace DmfServer

open Imperative Imperative.Prog Strings World SslServer Relation

variable {s s' : SslServer} {w w' : World} {nodes : Table FdSslMap} {junk : FdSslMap}
variable {fsmHead it t a b : Addr} {pre : Option Addr} {serfd efd fd : Fd} {ev : EpollEvent}

/-- `it->next`. -/
def fsmNext (nodes : Table FdSslMap) (it : Addr) : Option Addr := (nodes.get it).bind FdSslMap.next

theorem fsmNext_eq {node : FdSslMap} (h : nodes.get it = some node) :
    fsmNext nodes it = node.next := by
  rw [fsmNext, h, Option.bind_some]

/-- Writing `it->next`. -/
theorem fsmNext_set {node : FdSslMap} :
    fsmNext (nodes.set it node) = Function.update (fsmNext nodes) it node.next := by
  funext b
  rcases eq_or_ne b it with rfl | hne
  · rw [fsmNext, Table.get_set_self, Function.update_self, Option.bind_some]
  · rw [fsmNext, Table.get_set_of_ne hne, Function.update_of_ne hne, fsmNext]

/-- What a node has beside `next`. -/
def fsmHeld (nodes : Table FdSslMap) (it : Addr) : Option (Int × Option Addr) :=
  (nodes.get it).map fun node => (node.fd, node.ssl)

theorem fsmHeld_set {node : FdSslMap} {next : Option Addr} (h : nodes.get it = some node) :
    fsmHeld (nodes.set it { node with next := next }) = fsmHeld nodes := by
  funext b
  rcases eq_or_ne b it with rfl | hne
  · rw [fsmHeld, fsmHeld, Table.get_set_self, h, Option.map_some, Option.map_some]
  · rw [fsmHeld, fsmHeld, Table.get_set_of_ne hne]

/-! ### The search -/

theorem lookupTurn_last {node : FdSslMap} (h : s.nodes.get it = some node)
    (hnext : node.next = none) : Returns (lookupTurn fd (pre, it)) s (Sum.inr (pre, it)) s := by
  rw [lookupTurn, returns_fsmAt_bind h]
  simp only [hnext]
  exact returns_pure.mpr ⟨rfl, rfl⟩

theorem lookupTurn_hit {node : FdSslMap} (h : s.nodes.get it = some node)
    (hfd : node.fd = fd) : Returns (lookupTurn fd (pre, it)) s (Sum.inr (pre, it)) s := by
  rcases hnext : node.next with - | next
  · exact lookupTurn_last h hnext
  · rw [lookupTurn, returns_fsmAt_bind h]
    simp only [hnext]
    rw [if_pos hfd]
    exact returns_pure.mpr ⟨rfl, rfl⟩

theorem lookupTurn_miss {node : FdSslMap} (h : s.nodes.get it = some node)
    (hnext : node.next = some b) (hfd : node.fd ≠ fd) :
    Returns (lookupTurn fd (pre, it)) s (Sum.inl (some it, b)) s := by
  rw [lookupTurn, returns_fsmAt_bind h]
  simp only [hnext]
  rw [if_neg hfd]
  exact returns_pure.mpr ⟨rfl, rfl⟩

/-- The search stops at the first node of `fd`, with `pre` behind it. -/
theorem lookupLoop_returns {l₁ l₂ : List Addr}
    (hchain : Chain (fsmNext s.nodes) (some it) (l₁ ++ t :: l₂))
    (hmiss : ∀ b ∈ l₁, ∃ node, s.nodes.get b = some node ∧ node.fd ≠ fd)
    (hhit : ∃ node, s.nodes.get t = some node ∧ node.fd = fd) :
    Returns (loop (lookupTurn fd) (pre, it)) s (l₁.getLast?.or pre, t) s := by
  induction l₁ generalizing pre it with
  | nil =>
      obtain ⟨hit, -⟩ := chain_cons.mp hchain
      obtain rfl := Option.some.inj hit
      obtain ⟨node, hnode, hfd⟩ := hhit
      exact (lookupTurn_hit hnode hfd).loop_exit
  | cons b l₁ ih =>
      obtain ⟨hb, hrest⟩ := chain_cons.mp hchain
      obtain rfl := Option.some.inj hb
      obtain ⟨⟨node, hnode, hfd⟩, hmiss⟩ := List.forall_mem_cons.mp hmiss
      -- there is a next node
      obtain ⟨c, hc⟩ : ∃ c, fsmNext s.nodes it = some c := by
        cases l₁ with
        | nil => exact ⟨t, hrest.1⟩
        | cons c l₁ => exact ⟨c, hrest.1⟩
      rw [hc] at hrest
      rw [fsmNext_eq hnode] at hc
      have hturn : Returns (lookupTurn fd (pre, it)) s (Sum.inl (some it, c)) s :=
        lookupTurn_miss hnode hc hfd
      have hloop := hturn.loop_next (ih hrest hmiss)
      have hlast : (it :: l₁).getLast?.or pre = l₁.getLast?.or (some it) := by
        rw [List.getLast?_cons]
        cases l₁.getLast? <;> rfl
      rwa [hlast]

/-! ### The list -/

/-- A node of the list: its address, the descriptor and the session. -/
structure Entry where
  node : Addr
  fd : Fd
  ssl : Addr

variable {l l₁ l₂ : List Entry} {e : Entry}

/-- From the head, which holds `junk`, the nodes of `l` are passed. -/
structure Listed (fsmHead : Addr) (junk : FdSslMap) (l : List Entry) (nodes : Table FdSslMap) :
    Prop where
  chain : Chain (fsmNext nodes) (some fsmHead) (fsmHead :: l.map Entry.node)
  head : ∃ n, nodes.get fsmHead = some ⟨junk.fd, junk.ssl, n⟩
  entry : ∀ e ∈ l, ∃ n, nodes.get e.node = some ⟨e.fd, some e.ssl, n⟩

/-- A new node is entered behind the head. -/
theorem Listed.insert (h : Listed fsmHead junk l nodes) (fd : Fd) (ssl : Addr) :
    Listed fsmHead junk (⟨nodes.bound, fd, ssl⟩ :: l)
      ((nodes.push ⟨fd, some ssl, fsmNext nodes fsmHead⟩).set fsmHead
        ⟨junk.fd, junk.ssl, some nodes.bound⟩) := by
  obtain ⟨n, hn⟩ := h.head
  have hlt : ∀ b node, nodes.get b = some node → b ≠ nodes.bound :=
    fun b node hb => ne_of_lt (Table.lt_bound hb)
  have hnd := List.nodup_cons.mp h.chain.nodup
  have hne : ∀ e ∈ l, e.node ≠ fsmHead ∧ e.node ≠ nodes.bound := by
    intro e he
    obtain ⟨n', hn'⟩ := h.entry e he
    exact ⟨ne_of_mem_of_not_mem (List.mem_map_of_mem he) hnd.1, hlt _ _ hn'⟩
  refine ⟨?_, ⟨_, Table.get_set_self⟩, ?_⟩
  · rw [fsmNext_set, Table.push, fsmNext_set]
    refine ⟨rfl, Function.update_self .., ?_⟩
    rw [Function.update_of_ne (hlt _ _ hn).symm, Function.update_self]
    refine h.chain.2.congr fun b hb => ?_
    obtain ⟨e, he, rfl⟩ := List.mem_map.mp hb
    rw [Function.update_of_ne (hne e he).1, Function.update_of_ne (hne e he).2]
  · refine List.forall_mem_cons.mpr ⟨⟨fsmNext nodes fsmHead, ?_⟩, fun e he => ?_⟩
    · rw [Table.get_set_of_ne (hlt _ _ hn).symm, Table.get_push_self]
    · obtain ⟨n', hn'⟩ := h.entry e he
      refine ⟨n', ?_⟩
      rw [Table.get_set_of_ne (hne e he).1, Table.get_push_of_ne (hne e he).2, hn']

/-- The node before that of an entry. -/
theorem Listed.pred (h : Listed fsmHead junk (l₁ ++ e :: l₂) nodes) :
    ∃ b node, (fsmHead :: l₁.map Entry.node).getLast? = some b ∧ nodes.get b = some node ∧
      node.next = some e.node := by
  obtain ⟨L, b, hL⟩ := (List.eq_nil_or_concat (fsmHead :: l₁.map Entry.node)).resolve_left
    (List.cons_ne_nil _ _)
  have hchain := h.chain
  rw [List.map_append, ← List.cons_append, hL, List.map_cons, List.concat_eq_append,
    List.append_assoc] at hchain
  obtain ⟨r, -, -, hnext, -⟩ := chain_append.mp hchain
  -- what has a successor is a node
  rcases hb : nodes.get b with - | node
  · rw [fsmNext, hb] at hnext
    cases hnext
  · refine ⟨b, node, ?_, hb, (fsmNext_eq hb).symm.trans hnext⟩
    rw [hL, List.concat_eq_append, List.getLast?_concat]

/-- An entry is unlinked. -/
theorem Listed.unlink {node : FdSslMap} (h : Listed fsmHead junk (l₁ ++ e :: l₂) nodes)
    (hb : (fsmHead :: l₁.map Entry.node).getLast? = some b) (hnode : nodes.get b = some node) :
    Listed fsmHead junk (l₁ ++ l₂)
      (nodes.set b { node with next := fsmNext nodes e.node }) := by
  obtain ⟨L, b', hL⟩ := (List.eq_nil_or_concat (fsmHead :: l₁.map Entry.node)).resolve_left
    (List.cons_ne_nil _ _)
  rw [hL, List.concat_eq_append, List.getLast?_concat] at hb
  obtain rfl := Option.some.inj hb
  have hsame : ∀ c fd ssl, (∃ n, nodes.get c = some ⟨fd, ssl, n⟩) →
      ∃ n, (nodes.set b' { node with next := fsmNext nodes e.node }).get c = some ⟨fd, ssl, n⟩ := by
    rintro c fd ssl ⟨n, hn⟩
    rcases eq_or_ne c b' with rfl | hne
    · obtain rfl := Option.some.inj (hnode.symm.trans hn)
      exact ⟨_, Table.get_set_self⟩
    · exact ⟨n, (Table.get_set_of_ne hne).trans hn⟩
  refine ⟨?_, hsame _ _ _ h.head, fun e' he' => hsame _ _ _ (h.entry e' ?_)⟩
  · have hchain := h.chain
    rw [List.map_append, ← List.cons_append, hL, List.map_cons, List.concat_eq_append,
      List.append_assoc] at hchain
    rw [List.map_append, ← List.cons_append, hL, List.concat_eq_append, List.append_assoc,
      fsmNext_set]
    exact hchain.unlink hchain.nodup
  · rcases List.mem_append.mp he' with he' | he'
    · exact List.mem_append_left _ he'
    · exact List.mem_append_right _ (List.mem_cons_of_mem _ he')

/-- **The search.**  Unless the junk is in the way, it finds the entry of `fd`
and the node before. -/
theorem Listed.lookup (h : Listed fsmHead junk (l₁ ++ e :: l₂) s.nodes)
    (hnd : ((l₁ ++ e :: l₂).map Entry.fd).Nodup) (hjunk : junk.fd ≠ e.fd)
    (hb : (fsmHead :: l₁.map Entry.node).getLast? = some b) :
    Returns (lookup fsmHead e.fd) s (some b, e.node) s := by
  have hchain := h.chain
  rw [List.map_append, List.map_cons, ← List.cons_append] at hchain
  have hmiss : ∀ c ∈ fsmHead :: l₁.map Entry.node,
      ∃ node, s.nodes.get c = some node ∧ node.fd ≠ e.fd := by
    intro c hc
    rcases List.mem_cons.mp hc with rfl | hc
    · obtain ⟨n, hn⟩ := h.head
      exact ⟨_, hn, hjunk⟩
    · obtain ⟨e', he', rfl⟩ := List.mem_map.mp hc
      obtain ⟨n, hn⟩ := h.entry e' (List.mem_append_left _ he')
      refine ⟨_, hn, fun heq => ?_⟩
      rw [List.map_append, List.map_cons] at hnd
      have hdisj := (List.nodup_append.mp hnd).2.2
      exact hdisj e'.fd (List.mem_map_of_mem he') e.fd List.mem_cons_self (Int.ofNat_inj.mp heq)
  have hhit : ∃ node, s.nodes.get e.node = some node ∧ node.fd = e.fd := by
    obtain ⟨n, hn⟩ := h.entry e (by simp)
    exact ⟨_, hn, rfl⟩
  have hloop : Returns (DmfServer.lookup fsmHead e.fd) s _ s := lookupLoop_returns hchain hmiss hhit
  rwa [hb] at hloop

/-- Where the junk is the descriptor, it stops at the head. -/
theorem Listed.lookup_junk (h : Listed fsmHead junk l s.nodes) (hjunk : junk.fd = fd) :
    Returns (DmfServer.lookup fsmHead fd) s (none, fsmHead) s := by
  obtain ⟨n, hn⟩ := h.head
  exact (lookupTurn_hit hn hjunk).loop_exit

/-! ### The clients -/

theorem sslFd_setSsl_self {ssl : Addr} {x : Ssl} : (w.setSsl ssl x).sslFd ssl = x.fd := by
  rw [World.sslFd, setSsl_ssls, Table.get_set_self, Option.bind_some]

theorem sslFd_setSsl_of_ne {ssl ssl' : Addr} {x : Ssl} (h : ssl' ≠ ssl) :
    (w.setSsl ssl x).sslFd ssl' = w.sslFd ssl' := by
  rw [World.sslFd, setSsl_ssls, Table.get_set_of_ne h, World.sslFd]

theorem sslFd_freeSsl_eq_some {ssl ssl' : Addr} :
    (w.freeSsl ssl).sslFd ssl' = some fd ↔ ssl' ≠ ssl ∧ w.sslFd ssl' = some fd := by
  rcases eq_or_ne ssl' ssl with rfl | hne
  · rw [World.sslFd, freeSsl_ssls, Table.get_erase_self]
    exact iff_of_false (Option.some_ne_none fd).symm fun h => h.1 rfl
  · rw [World.sslFd, freeSsl_ssls, Table.get_erase_of_ne hne]
    exact (and_iff_right hne).symm

/-- What the entries have to do with the descriptors, the sessions and the
epoll set. -/
structure Attached (serfd : Fd) (l : List Entry) (w : World) : Prop where
  nodup : (l.map Entry.fd).Nodup
  listener : (∃ i, w.fds.get serfd = some i) ∧ serfd ∉ l.map Entry.fd
  opened : ∀ e ∈ l, ∃ i, w.fds.get e.fd = some i
  sessions : ∀ ssl fd, w.sslFd ssl = some fd ↔ ∃ e ∈ l, e.fd = fd ∧ e.ssl = ssl
  registered : ∀ fd ev, w.interest.get fd = some ev →
    ev.ptr = fd ∧ (fd = serfd ∨ fd ∈ l.map Entry.fd)

theorem Attached.congr (h : Attached serfd l w)
    (hf : ∀ fd i, w.fds.get fd = some i → w'.fds.get fd = some i)
    (hs : ∀ ssl, w'.sslFd ssl = w.sslFd ssl)
    (hi : w'.interest = w.interest) : Attached serfd l w' where
  nodup := h.nodup
  listener := by
    obtain ⟨⟨i, hi⟩, hno⟩ := h.listener
    exact ⟨⟨i, hf serfd i hi⟩, hno⟩
  opened e he := by
    obtain ⟨i, hi⟩ := h.opened e he
    exact ⟨i, hf e.fd i hi⟩
  sessions ssl fd := by rw [hs ssl, h.sessions ssl fd]
  registered := by
    rw [hi]
    exact h.registered

theorem Attached.onFile {α : Type} {bad : α} {call : File → α × File} (h : Attached serfd l w) :
    Attached serfd l (World.onFile bad call fd w).2 := by
  rcases onFile_cases bad call fd w with he | ⟨i, f, -, -, he⟩
  · rw [he]
    exact h
  · rw [he]
    exact h.congr (fun _ _ h => h) (fun _ => rfl) rfl

/-- A descriptor that is free is none of the entries, and not registered. -/
theorem Attached.free (h : Attached serfd l w) (hfree : w.fds.get fd = none) :
    fd ≠ serfd ∧ fd ∉ l.map Entry.fd ∧ w.interest.get fd = none := by
  have hserfd : fd ≠ serfd := by
    rintro rfl
    obtain ⟨⟨i, hi⟩, -⟩ := h.listener
    rw [hfree] at hi
    cases hi
  have hno : fd ∉ l.map Entry.fd := by
    intro hmem
    obtain ⟨e, he, rfl⟩ := List.mem_map.mp hmem
    obtain ⟨i, hi⟩ := h.opened e he
    rw [hfree] at hi
    cases hi
  refine ⟨hserfd, hno, ?_⟩
  rcases hev : w.interest.get fd with - | ev
  · rfl
  · rcases (h.registered fd ev hev).2 with heq | hmem
    · exact absurd heq hserfd
    · exact absurd hmem hno

/-- A session is attached to the descriptor of a new client. -/
theorem Attached.attach {ssl : Addr} (h : Attached serfd l w) (hfd : fd ∉ l.map Entry.fd)
    (hserfd : fd ≠ serfd) (hopen : ∃ i, w.fds.get fd = some i) (hssl : w.sslFd ssl = none)
    (per : Addr) (finished : Bool) :
    Attached serfd (⟨per, fd, ssl⟩ :: l) (w.setSsl ssl ⟨some fd, finished⟩) where
  nodup := List.nodup_cons.mpr ⟨hfd, h.nodup⟩
  listener := ⟨h.listener.1, List.not_mem_cons_of_ne_of_not_mem hserfd.symm h.listener.2⟩
  opened := List.forall_mem_cons.mpr ⟨hopen, h.opened⟩
  sessions ssl' fd' := by
    rw [List.exists_mem_cons_iff, ← h.sessions]
    rcases eq_or_ne ssl' ssl with rfl | hne
    · rw [sslFd_setSsl_self, hssl, Option.some.injEq]
      constructor
      · exact fun he => .inl ⟨he, rfl⟩
      · rintro (⟨he, -⟩ | he)
        · exact he
        · cases he
    · rw [sslFd_setSsl_of_ne hne]
      exact ⟨.inr, fun he => he.resolve_left fun heq => hne heq.2.symm⟩
  registered fd' ev hev := by
    obtain ⟨hptr, hmem⟩ := h.registered fd' ev hev
    exact ⟨hptr, hmem.imp_right (List.mem_cons_of_mem _)⟩

/-- A client goes: its descriptor is closed and its session released. -/
theorem Attached.detach (h : Attached serfd (l₁ ++ e :: l₂) w) :
    Attached serfd (l₁ ++ l₂) ((w.closeFd e.fd).freeSsl e.ssl) := by
  have hmem : ∀ e' ∈ l₁ ++ l₂, e' ∈ l₁ ++ e :: l₂ := by
    intro e' he'
    rcases List.mem_append.mp he' with he' | he'
    · exact List.mem_append_left _ he'
    · exact List.mem_append_right _ (List.mem_cons_of_mem _ he')
  have hnd := h.nodup
  rw [List.map_append, List.map_cons, List.nodup_middle, ← List.map_append] at hnd
  obtain ⟨hno, hnd⟩ := List.nodup_cons.mp hnd
  have hne : ∀ e' ∈ l₁ ++ l₂, e'.fd ≠ e.fd := fun e' he' =>
    ne_of_mem_of_not_mem (List.mem_map_of_mem he') hno
  have hse : w.sslFd e.ssl = some e.fd := (h.sessions e.ssl e.fd).mpr ⟨e, by simp, rfl, rfl⟩
  have hserfd : serfd ≠ e.fd := by
    rintro rfl
    exact h.listener.2 (List.mem_map_of_mem (by simp))
  refine ⟨hnd, ⟨?_, ?_⟩, ?_, ?_, ?_⟩
  · obtain ⟨⟨i, hi⟩, -⟩ := h.listener
    exact ⟨i, (Table.get_erase_of_ne hserfd).trans hi⟩
  · intro hm
    obtain ⟨e', he', heq⟩ := List.mem_map.mp hm
    exact h.listener.2 (heq ▸ List.mem_map_of_mem (hmem e' he'))
  · intro e' he'
    obtain ⟨i, hi⟩ := h.opened e' (hmem e' he')
    exact ⟨i, (Table.get_erase_of_ne (hne e' he')).trans hi⟩
  · intro ssl fd
    rw [sslFd_freeSsl_eq_some]
    show _ ∧ w.sslFd ssl = some fd ↔ _
    rw [h.sessions]
    constructor
    · rintro ⟨hssl, e', he', rfl, rfl⟩
      refine ⟨e', ?_, rfl, rfl⟩
      rcases List.mem_append.mp he' with he' | he'
      · exact List.mem_append_left _ he'
      · rcases List.mem_cons.mp he' with rfl | he'
        · exact absurd rfl hssl
        · exact List.mem_append_right _ he'
    · rintro ⟨e', he', rfl, rfl⟩
      refine ⟨fun hssl => hne e' he' ?_, e', hmem e' he', rfl, rfl⟩
      -- a session is attached to one descriptor
      have hse' := (h.sessions e'.ssl e'.fd).mpr ⟨e', hmem e' he', rfl, rfl⟩
      rw [hssl, hse] at hse'
      simpa [eq_comm] using hse'
  · intro fd ev hev
    obtain ⟨hfd, hev⟩ := Table.get_erase_eq_some.mp hev
    obtain ⟨hptr, hmem'⟩ := h.registered fd ev hev
    refine ⟨hptr, hmem'.imp_right fun hm => ?_⟩
    rw [List.map_append, List.map_cons] at hm
    rw [List.map_append]
    rcases List.mem_append.mp hm with hm | hm
    · exact List.mem_append_left _ hm
    · exact List.mem_append_right _ ((List.mem_cons.mp hm).resolve_left hfd)

/-- `epoll_ctl` for a client: what is registered has its descriptor as data. -/
theorem Attached.epollCtl {op : EpollOp} (h : Attached serfd l w) (efd : Fd)
    (hop : ∀ ev, op = .add ev ∨ op = .mod ev → ev.ptr = fd ∧ (fd = serfd ∨ fd ∈ l.map Entry.fd)) :
    Attached serfd l (World.epollCtl efd op fd w).2 := by
  have h₁ : Attached serfd l (ctlCall fd w).2 := h.onFile
  rcases epollCtl_cases efd op fd w with ⟨x, he⟩ | ⟨ev, hev, he⟩ | ⟨-, he⟩
  · rw [he]
    exact h₁
  · rw [he]
    refine { h₁ with registered := fun fd' ev' hev' => ?_ }
    rcases Table.get_set_eq_some.mp hev' with ⟨rfl, rfl⟩ | ⟨-, hev'⟩
    · exact hop ev (hev.imp And.left And.left)
    · exact h₁.registered fd' ev' hev'
  · rw [he]
    refine { h₁ with registered := fun fd' ev' hev' => ?_ }
    exact h₁.registered fd' ev' (Table.get_erase_eq_some.mp hev').2

/-! ### The events -/

/-- The list is in order, and has one entry for each client. -/
structure Mapped (serfd : Fd) (fsmHead : Addr) (junk : FdSslMap) (l : List Entry) (s : SslServer) :
    Prop where
  listed : Listed fsmHead junk l s.nodes
  attached : Attached serfd l s.world

theorem Mapped.setWorld (h : Mapped serfd fsmHead junk l s) (hw : Attached serfd l w) :
    Mapped serfd fsmHead junk l (s.setWorld w) := ⟨h.listed, hw⟩

/-- The node of a new client is entered. -/
theorem Listed.insert_ends (h : Listed fsmHead junk l s.nodes) (fd : Fd) (ssl : Addr) :
    Ends (do
        let per ← newFsm ⟨fd, some ssl, none⟩
        let (_, head) ← fsmAt (some fsmHead)
        if head.next = none then setFsmNext (some fsmHead) (some per)
        else do
          setFsmNext (some per) head.next
          setFsmNext (some fsmHead) (some per)) s fun _ s' => s'.world = s.world ∧
      Listed fsmHead junk (⟨s.nodes.bound, fd, ssl⟩ :: l) s'.nodes := by
  obtain ⟨n, hn⟩ := h.head
  have hne : fsmHead ≠ s.nodes.bound := ne_of_lt (Table.lt_bound hn)
  have hlisted := h.insert fd ssl
  rw [fsmNext_eq hn] at hlisted
  have hhead : ∀ node, (s.newNode node).nodes.get fsmHead = some ⟨junk.fd, junk.ssl, n⟩ :=
    fun node => (Table.get_push_of_ne hne).trans hn
  rw [newFsm, ends_call_bind, ends_bind_iff (returns_fsmAt (hhead _))]
  by_cases hnil : n = none
  · subst hnil
    exact (returns_setFsmNext (hhead _)).ends ⟨rfl, hlisted⟩
  · show Ends (if n = none then _ else _) _ _
    rw [if_neg hnil, ends_bind_iff (returns_setFsmNext Table.get_push_self)]
    have hset : ((s.newNode ⟨fd, some ssl, none⟩).setNode s.nodes.bound ⟨fd, some ssl, n⟩).nodes
        = s.nodes.push ⟨fd, some ssl, n⟩ := Table.set_set
    have hhead' : ((s.newNode ⟨fd, some ssl, none⟩).setNode s.nodes.bound
        ⟨fd, some ssl, n⟩).nodes.get fsmHead = some ⟨junk.fd, junk.ssl, n⟩ :=
      (Table.get_set_of_ne hne).trans (hhead _)
    refine (returns_setFsmNext hhead').ends ⟨rfl, ?_⟩
    rw [setNode_nodes, hset]
    exact hlisted

theorem fileAt_onFile {α : Type} {bad : α} {call : File → α × File} {i : FileId} {f : File}
    (h : w.fileAt fd = some (i, f)) :
    ∃ f', (World.onFile bad call fd w).2.fileAt fd = some (i, f') := by
  rw [onFile_eq h]
  exact ⟨_, fileAt_setFile h⟩

theorem returns_sslSetFd {ssl : Addr} {x : Ssl} (h : w.ssls.get ssl = some x) :
    Returns (sslSetFd (some ssl) fd) w () (w.setSsl ssl { x with fd := some fd }) := by
  rw [sslSetFd, returns_sslAt_bind h]
  exact returns_store.mpr rfl

/-- A new descriptor is open. -/
theorem Attached.openFile (h : Attached serfd l w) (hfree : w.fds.get fd = none) (f : File)
    (q : List (Except Errno (Fd × Answers))) :
    Attached serfd l ((w.openFile fd f).popBacklog serfd (.ok fd) q) := by
  refine h.congr (fun a i ha => ?_) (fun _ => rfl) rfl
  have hne : a ≠ fd := by
    rintro rfl
    rw [hfree] at ha
    cases ha
  exact (Table.get_set_of_ne hne).trans ha

theorem sslFd_newSsl (w : World) (ssl : Addr) :
    (w.newSsl ⟨none, false⟩).sslFd ssl = w.sslFd ssl := by
  rcases eq_or_ne ssl w.ssls.bound with rfl | hne
  · rw [World.sslFd, newSsl_ssls, Table.get_push_self, World.sslFd,
      w.ssls.get_of_le _ (Nat.le_refl _)]
    rfl
  · rw [World.sslFd, newSsl_ssls, Table.get_push_of_ne hne, World.sslFd]

/-- So is a new session. -/
theorem Attached.newSsl (h : Attached serfd l w) : Attached serfd l (w.newSsl ⟨none, false⟩) :=
  h.congr (fun _ _ ha => ha) (sslFd_newSsl w) rfl

theorem Mapped.acceptClient (h : Mapped serfd fsmHead junk l s) (efd : Fd) :
    Ends (sslAcceptClient serfd efd fsmHead) s fun _ s' =>
      ∃ l', Mapped serfd fsmHead junk l' s' := by
  rw [sslAcceptClient, ends_sys_call_bind]
  rcases accept_cases serfd s.world with ⟨e, q, -, he⟩ | ⟨hint, ans, q, -, he⟩
  · rw [he]
    refine ends_pure.mpr ⟨l, h.setWorld ?_⟩
    exact h.attached.congr (fun _ _ h => h) (fun _ => rfl) rfl
  rw [he]
  have hfree : s.world.fds.get (s.world.fds.pick s.world.low hint) = none := Table.get_pick
  generalize s.world.fds.pick s.world.low hint = cfd at hfree ⊢
  obtain ⟨hserfd, hno, -⟩ := h.attached.free hfree
  have h₁ := h.attached.openFile hfree (ans.file (some serfd)) q
  have hfile₁ : ((s.world.openFile cfd (ans.file (some serfd))).popBacklog serfd (.ok cfd)
      q).fileAt cfd = some (s.world.files.bound, ans.file (some serfd)) :=
    fileAt_eq_some.mpr ⟨Table.get_set_self, Table.get_push_self⟩
  generalize (s.world.openFile cfd (ans.file (some serfd))).popBacklog serfd (.ok cfd) q = w₁
    at h₁ hfile₁ ⊢
  show Ends (if 0 < cfd then _ else _) _ _
  by_cases hpos : 0 < cfd
  swap
  · rw [if_neg hpos]
    exact ends_pure.mpr ⟨l, h.setWorld h₁⟩
  rw [if_pos hpos, sslNew, ends_sys_call_bind, ends_sys_call_bind, ends_sys_call_bind]
  -- the session is attached
  set w₃ := (World.fcntl cfd (World.fcntl cfd (w₁.newSsl ⟨none, false⟩)).2).2 with hw₃
  have h₃ : Attached serfd l w₃ := h₁.newSsl.onFile.onFile
  have hssl₃ : w₃.ssls.get w₁.ssls.bound = some ⟨none, false⟩ := by
    rw [hw₃, World.fcntl, onFile_ssls, onFile_ssls]
    exact Table.get_push_self
  obtain ⟨i, f, hfile₃⟩ : ∃ i f, w₃.fileAt cfd = some (i, f) := by
    have hfile₂ : (w₁.newSsl ⟨none, false⟩).fileAt cfd = some (_, _) := hfile₁
    obtain ⟨f₂, hf₂⟩ : ∃ f₂, (World.fcntl cfd (w₁.newSsl ⟨none, false⟩)).2.fileAt cfd =
        some (_, f₂) := fileAt_onFile hfile₂
    exact ⟨_, fileAt_onFile hf₂⟩
  show Ends (sys (sslSetFd (some w₁.ssls.bound) cfd) >>= _) (s.setWorld w₃) _
  rw [ends_sys_bind (returns_sslSetFd hssl₃)]
  have hfile₄ : (w₃.setSsl w₁.ssls.bound ⟨some cfd, false⟩).fileAt cfd = some (i, f) := hfile₃
  obtain ⟨f', code, k, hshake, -⟩ := handshake_returns Table.get_set_self hfile₄ 0
  rw [setSsl_setFile] at hshake
  have h₄ : Attached serfd l (w₃.setFile i f') :=
    h₃.congr (fun _ _ h => h) (fun _ => rfl) rfl
  have hnone : (w₃.setFile i f').sslFd w₁.ssls.bound = none := by
    show (w₃.ssls.get _).bind _ = none
    rw [hssl₃, Option.bind_some]
  have h₅ := h₄.attach hno hserfd ⟨i, (fileAt_eq_some.mp hfile₃).1⟩ hnone s.nodes.bound
    (decide (code = 1))
  generalize (w₃.setFile i f').setSsl w₁.ssls.bound ⟨some cfd, decide (code = 1)⟩ = w₅
    at hshake h₅
  rw [ends_sys_bind hshake]
  show Ends (if code ≠ 1 then _ else _) (s.setWorld w₅) _
  by_cases hcode : code ≠ 1
  · -- the client goes again
    obtain ⟨finished, hssl₅⟩ :=
      sslFd_eq_some.mp ((h₅.sessions w₁.ssls.bound cfd).mpr ⟨_, List.mem_cons_self, rfl, rfl⟩)
    rw [if_pos hcode, ends_sys_call_bind, close_snd]
    have hlive : (w₅.closeFd cfd).ssls.get w₁.ssls.bound = some ⟨some cfd, finished⟩ := hssl₅
    refine (returns_sys (returns_sslFree hlive)).ends ⟨l, h.listed, ?_⟩
    exact Attached.detach (show Attached serfd ([] ++ _ :: l) w₅ from h₅)
  · rw [if_neg hcode, ends_sys_call_bind]
    have h₆ : Attached serfd (⟨s.nodes.bound, cfd, w₁.ssls.bound⟩ :: l)
        (World.epollCtl efd (.add ⟨inEdge, cfd⟩) cfd w₅).2 := by
      refine h₅.epollCtl efd ?_
      rintro ev (hop | hop)
      · cases hop
        exact ⟨rfl, .inr List.mem_cons_self⟩
      · cases hop
    show Ends _ (s.setWorld (World.epollCtl efd (.add ⟨inEdge, cfd⟩) cfd w₅).2) _
    generalize (World.epollCtl efd (.add ⟨inEdge, cfd⟩) cfd w₅).2 = w₆ at h₆ ⊢
    have hlisted : Listed fsmHead junk l (s.setWorld w₆).nodes := h.listed
    refine Ends.mono (hlisted.insert_ends cfd w₁.ssls.bound) ?_
    rintro u s' ⟨hworld, hlisted⟩
    exact ⟨_, hlisted, hworld ▸ h₆⟩

/-! ### A client hangs up -/

/-- The predecessor is made to point past `it`, once or twice. -/
theorem unlink_ends {node pnode : FdSslMap} {α : Type} {k : Unit → Prog SslServer α}
    {Q : α → SslServer → Prop} (hit : s.nodes.get it = some node) (hb : s.nodes.get b = some pnode)
    (hne : it ≠ b) :
    Ends (do
        if node.next = none then setFsmNext (some b) none
        let (_, node) ← fsmAt (some it)
        setFsmNext (some b) node.next
        k ()) s Q ↔ Ends (k ()) (s.setNode b { pnode with next := node.next }) Q := by
  by_cases hnil : node.next = none
  · have hit' : (s.setNode b { pnode with next := none }).nodes.get it = some node :=
      (Table.get_set_of_ne hne).trans hit
    have hset : (s.setNode b { pnode with next := none }).setNode b { pnode with next := node.next }
        = s.setNode b { pnode with next := node.next } := by
      show SslServer.mk _ (Table.set (Table.set _ _ _) _ _) = _
      rw [Table.set_set]
      rfl
    rw [if_pos hnil, ends_bind_iff (returns_setFsmNext hb), ends_bind_iff (returns_fsmAt hit')]
    show Ends (setFsmNext (some b) node.next >>= k) _ _ ↔ _
    rw [ends_bind_iff (returns_setFsmNext Table.get_set_self)]
    show Ends _ ((s.setNode b { pnode with next := none }).setNode b
      { pnode with next := node.next }) _ ↔ _
    rw [hset]
  · rw [if_neg hnil]
    show Ends (fsmAt (some it) >>= _) _ _ ↔ _
    rw [ends_bind_iff (returns_fsmAt hit)]
    exact ends_bind_iff (returns_setFsmNext hb)

theorem Mapped.hangUp (h : Mapped serfd fsmHead junk (l₁ ++ e :: l₂) s) (efd : Fd)
    (hb : (fsmHead :: l₁.map Entry.node).getLast? = some b) :
    Ends (sslHangUp efd e.fd (some b) e.node) s fun _ s' =>
      Mapped serfd fsmHead junk (l₁ ++ l₂) s' ∧ fsmHeld s'.nodes = fsmHeld s.nodes := by
  obtain ⟨n, hn⟩ := h.listed.entry e (by simp)
  obtain ⟨b', node, hb', hnode, -⟩ := h.listed.pred
  obtain rfl := Option.some.inj (hb.symm.trans hb')
  have hne : e.node ≠ b := by
    have hnd := h.listed.chain.nodup
    rw [List.map_append, List.map_cons, ← List.cons_append] at hnd
    exact fun heq => (List.nodup_append.mp hnd).2.2 b (List.mem_of_getLast? hb) e.node
      List.mem_cons_self heq.symm
  obtain ⟨finished, hssl⟩ :=
    sslFd_eq_some.mp ((h.attached.sessions e.ssl e.fd).mpr ⟨e, by simp, rfl, rfl⟩)
  have hssl : (s.world.closeFd e.fd).ssls.get e.ssl = some ⟨some e.fd, finished⟩ := hssl
  have hunlink := h.listed.unlink hb hnode
  rw [fsmNext_eq hn] at hunlink
  have hn' : (s.setWorld (s.world.closeFd e.fd)).nodes.get e.node = _ := hn
  rw [sslHangUp, ends_sys_call_bind, close_snd, ends_bind_iff (returns_fsmAt hn')]
  show Ends (sys (sslAt (some e.ssl)) >>= _) (s.setWorld (s.world.closeFd e.fd)) _
  rw [ends_sys_bind (s := s.setWorld (s.world.closeFd e.fd)) (returns_sslAt hssl)]
  show Ends (sys (sslFree (some e.ssl)) >>= _) (s.setWorld (s.world.closeFd e.fd)) _
  rw [ends_sys_bind (s := s.setWorld (s.world.closeFd e.fd)) (returns_sslFree hssl)]
  refine (unlink_ends (s := s.setWorld ((s.world.closeFd e.fd).freeSsl e.ssl))
    (k := fun _ => sys (call (World.epollCtl efd .del e.fd)) >>= fun _ => pure ())
    hn hnode hne).mpr ?_
  rw [ends_sys_call_bind]
  refine ends_pure.mpr ⟨⟨hunlink, ?_⟩, fsmHeld_set hnode⟩
  refine Attached.epollCtl h.attached.detach efd ?_
  rintro ev (hop | hop) <;> cases hop

end DmfServer
