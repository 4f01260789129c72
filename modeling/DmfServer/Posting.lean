/-
DmfServer/Posting.lean

What the handlers of a worker do to its books.

Each handler takes steps of `Books.Step` and nothing else changes in the
books: the calls on files, the exchange with an upstream and the updates of
the heap leave them alone.  `serverEvent_posts` says so of every event.  A
client is lost on its way in only if a call that was made for it failed
(`Granting`), and it is answered without being armed only if `EPOLLOUT` was
reported for a descriptor that is not registered for it.
-/
import DmfServer.Accepting
import DmfServer.Books

namespace DmfServer

open Imperative Imperative.Prog Strings World

variable {lisInfs : List LisInf} {epollFd : Fd} {busy : Option Fd} {w w' : World}
variable {fd : Fd} {i : FileId} {f : File} {r : ReqT} {p : Addr} {clean asked : Prop}

/-! ### Closing -/

/-- A client is open and registered. -/
theorem Conn.live (hc : Conn lisInfs epollFd w fd p r) : fd ∈ w.books.live := by
  obtain ⟨ev, hev, -⟩ := hc.reg
  obtain ⟨i, f, hi, hf, l, -, hvia, -⟩ := hc.client.file
  apply mem_live.mpr
  refine ⟨accepted_iff.mpr ⟨i, f, hi, hf, ?_⟩, ?_⟩
  · rw [hvia]
    rfl
  · rw [hev]
    rfl

theorem books_ctlCall : (ctlCall fd w).2.books = w.books := books_onFile fun _ => rfl

theorem handleClose_posts (h : Inv lisInfs epollFd busy w) (hc : Conn lisInfs epollFd w fd p r) :
    Safe (handleClose p) w fun _ w' => w'.books = (w.books.drop fd).count Books.closed := by
  have hcl := hc.client
  rw [handleClose, safe_reqAt_bind hc.req, hcl.fd_eq, hcl.sd, hcl.data, hcl.ssl, safe_call_bind,
    safe_call_bind, close_snd, safe_count_bind]
  -- `close` ends the registration if `EPOLL_CTL_DEL` did not
  have hdel : ((epollCtl r.efd .del fd w).2.closeFd fd).books = w.books.drop fd := by
    rcases epollCtl_cases r.efd .del fd w with ⟨e, he⟩ | ⟨ev, hop, -⟩ | ⟨-, he⟩
    · rw [he, books_closeFd, books_ctlCall]
    · rcases hop with ⟨hop, -⟩ | ⟨hop, -⟩ <;> cases hop
    · rw [he, books_unregister_closeFd, books_ctlCall]
  obtain ⟨I, F, hrest⟩ := epollCtl_rest r.efd .del fd w
  have hheap : ∀ sd, (((epollCtl r.efd .del fd w).2.closeFd fd).setShm sd).timers.heap = none := by
    intro sd
    rw [hrest]
    exact h.heap
  generalize (epollCtl r.efd .del fd w).2.closeFd fd = w₁ at hdel hheap ⊢
  rw [safe_deleteTimer_bind (hheap _), freeData_none, closeSsl_none, safe_pure_bind, safe_pure_bind,
    safe_store, ← hdel]
  rfl

/-! ### Input and output -/

theorem readLoop_posts (size : Nat) :
    Safe (loop (readTurn fd size) []) w fun _ w' => w'.books = w.books := by
  apply readLoop_rule (fun w' => w'.books = w.books) size rfl
  intro n w₁ h₁
  exact (books_onFile fun f => (File.receive_quiet _ _ f).1).trans h₁

theorem writeLoop_posts (buf : Bytes) (size n : Int) :
    Safe (loop (writeTurn fd buf size) n) w fun _ w' => w'.books = w.books := by
  apply writeLoop_rule (fun w' => w'.books = w.books) buf size n rfl
  intro buf n w₁ h₁
  exact (books_onFile fun f => (File.transmit_cases _ _ _ f).1).trans h₁

/-- A request is read: the client is closed, or it is armed. -/
theorem eventHttpRead_posts (h : Inv lisInfs epollFd none w)
    (hc : Conn lisInfs epollFd w fd p r) :
    Safe (eventHttpRead p fd epollFd) w fun _ w' => Books.Steps clean asked w.books w'.books := by
  rw [eventHttpRead]
  apply Safe.bind
  apply ((readLoop_safe h 1024).and (readLoop_posts 1024)).mono
  rintro ⟨outcome, buf⟩ w₁ ⟨⟨h₁, hk₁⟩, hb₁⟩
  have hc₁ := hc.kept hk₁
  rw [← hb₁]
  rcases outcome with - | - | e
  · -- dry: the request is counted, and `EPOLL_CTL_MOD` may fail
    show Safe (reqAt p >>= _) w₁ _
    rw [safe_reqAt_bind hc₁.req, hc₁.client.sd, safe_count_bind, safe_call_bind, safe_pure]
    set w₂ := w₁.setShm { w₁.shm with readNum := w₁.shm.readNum + 1 } with hw₂
    have hb₂ : w₂.books = w₁.books.count Books.read := rfl
    rcases epollCtl_cases epollFd (.mod ⟨outEdge, p⟩) fd w₂ with ⟨e, he⟩ | ⟨ev, hop, he⟩ | ⟨hop, -⟩
    · rw [he, books_ctlCall, hb₂]
      exact .single .read
    · rcases hop with ⟨hop, -⟩ | ⟨hop, -⟩
      · cases hop
      · cases hop
        have hlive : fd ∈ (ctlCall fd w₂).2.books.live := by
          rw [books_ctlCall]
          exact hc₁.live
        rw [he, books_arm hlive rfl]
        have harm : (ctlCall fd w₂).2.books.arm fd hlive =
            (w₁.books.arm fd hc₁.live).count Books.read := by
          simp only [books_ctlCall]
          rfl
        rw [harm]
        exact .single (.arm hc₁.live)
    · cases hop
  · -- the peer has closed: nothing was read
    apply (handleClose_posts h₁ hc₁).mono
    intro _ w₂ h₂
    rw [h₂]
    exact .single (.close hc₁.live)
  · -- a reset is counted as a request that was read
    show Safe (if e = .econnreset then _ else _) w₁ _
    split_ifs
    · rw [safe_reqAt_bind hc₁.req, hc₁.client.sd, safe_count_bind]
      set w₂ := w₁.setShm { w₁.shm with readNum := w₁.shm.readNum + 1 } with hw₂
      have hc₂ : Conn lisInfs epollFd w₂ fd p r := hc₁.kept Kept.setShm
      apply (handleClose_posts h₁.setShm hc₂).mono
      intro _ w₃ h₃
      rw [h₃]
      exact (Relation.ReflTransGen.single Books.Step.read).tail (.close hc₂.live)
    · exact safe_pure.mpr .refl

theorem eventHttpWrite_posts (hc : Conn lisInfs epollFd w fd p r) :
    Safe (eventHttpWrite p fd) w fun _ w' =>
      w'.books = w.books ∨ w'.books = w.books.count Books.written := by
  rw [eventHttpWrite, safe_reqAt_bind hc.req, hc.client.sd]
  apply Safe.bind
  apply (writeLoop_posts sendBuf _ _).mono
  intro r' w₁ hb₁
  rw [← hb₁]
  rcases r' with - | e
  · exact safe_count.mpr (.inr rfl)
  · exact safe_pure.mpr (.inl rfl)

/-! ### The proxy -/

theorem clientSocket_posts (h : Inv lisInfs epollFd busy w) :
    Safe clientSocket w fun _ w' => w'.books = w.books := by
  rw [clientSocket, safe_call_bind]
  rcases socket_cases w with ⟨e, q, he⟩ | ⟨hint, ans, q, he⟩
  · rw [he]
    exact safe_pure.mpr rfl
  · rw [he]
    have hopen : (w.openFile (w.fds.pick w.low hint) (ans.file none)).books = w.books :=
      books_openFile_upstream h.fds_file Table.get_pick rfl
    generalize w.openFile (w.fds.pick w.low hint) (ans.file none) = w₁ at hopen ⊢
    show Safe (call (World.connect _) >>= fun ok => if ok then _ else _) (w₁.setSockets q) _
    rw [safe_call_bind]
    have hconn : (World.connect (w.fds.pick w.low hint) (w₁.setSockets q)).2.books = w.books :=
      (books_onFile fun _ => rfl).trans hopen
    split_ifs
    · exact safe_pure.mpr hconn
    · exact safe_pure.mpr hconn

/-- The descriptor of the upstream is closed again, which is no client. -/
theorem exchange_posts {s : Fd} (hno : s ∉ w.books.clients) (buf : Bytes) (len : Int) :
    Safe (exchange s buf len) w fun _ w' => w'.books = w.books := by
  rw [exchange, safe_call_bind, safe_call_bind, safe_call_bind, close_snd, safe_pure, books_closeFd]
  have hrecv : (World.recv s 4096 (World.send s buf len w).2).2.books = w.books :=
    (books_onFile fun f => (File.receive_quiet _ _ f).1).trans
      (books_onFile fun f => (File.transmit_cases _ _ _ f).1)
  rw [hrecv, Books.drop_of_notMem hno]

theorem eventHttpReverse_posts (h : Inv lisInfs epollFd none w)
    (hc : Conn lisInfs epollFd w fd p r) (ht : r.type ≠ .http) :
    Safe (eventHttpReverse p fd) w fun _ w' => Books.Steps clean asked w.books w'.books := by
  rw [eventHttpReverse]
  apply Safe.bind
  apply ((readLoop_safe h 4096).and (readLoop_posts 4096)).mono
  rintro ⟨outcome, buf⟩ w₁ ⟨⟨h₁, hk₁⟩, hb₁⟩
  have hclose : ∀ w₂, Inv lisInfs epollFd none w₂ → Kept w w₂ → w₂.books = w.books →
      Safe (handleClose p) w₂ fun _ w' => Books.Steps clean asked w.books w'.books := by
    intro w₂ h₂ hk₂ hb₂
    apply (handleClose_posts h₂ (hc.kept hk₂)).mono
    intro _ w₃ h₃
    rw [h₃, hb₂]
    exact .single (.close hc.live)
  have hsame : ∀ {w₂ : World}, w₂.books = w.books →
      Books.Steps clean asked w.books w₂.books := fun hb => hb ▸ .refl
  rcases outcome with - | - | e
  · apply Safe.bind
    apply ((clientSocket_safe h₁).and (clientSocket_posts h₁)).mono
    rintro (- | s) w₂ ⟨⟨h₂, hk₂, hs⟩, hb₂⟩
    · exact safe_pure.mpr (hsame (hb₂.trans hb₁))
    · obtain ⟨hfree, hlow, i, f, hi, hf, hvia⟩ := hs s rfl
      -- the upstream was connected to, not accepted
      have hno : s ∉ w₂.books.clients := by
        intro hmem
        obtain ⟨j, g, hj, hg, hv⟩ := accepted_iff.mp (mem_clients.mp hmem)
        obtain rfl : i = j := Option.some.inj (hi.symm.trans hj)
        obtain rfl : f = g := Option.some.inj (hf.symm.trans hg)
        rw [hvia] at hv
        cases hv
      apply Safe.bind
      apply ((exchange_safe h₁ hfree hlow h₂ hk₂ hi hf hvia _ _).and (exchange_posts hno _ _)).mono
      rintro ⟨recvLen, answer⟩ w₃ ⟨⟨h₃, hk₃⟩, hb₃⟩
      have hk₃' := hk₁.trans hk₃
      apply Safe.bind
      apply ((writeLoop_safe h₃ (hc.kept hk₃') ht _ _ _).and (writeLoop_posts _ _ _)).mono
      rintro (- | e) w₄ ⟨⟨h₄, hk₄⟩, hb₄⟩
      · exact hclose w₄ h₄ (hk₃'.trans hk₄) (hb₄.trans (hb₃.trans (hb₂.trans hb₁)))
      · exact safe_pure.mpr (hsame (hb₄.trans (hb₃.trans (hb₂.trans hb₁))))
  · exact hclose w₁ h₁ hk₁ hb₁
  · exact safe_pure.mpr (hsame hb₁)

/-! ### Accepting -/

/-- The calls of `fcntl` and `epoll_ctl` for a client succeed. -/
def Answers.Grants (ans : Answers) : Prop :=
  ans.fcntl.headD true = true ∧ ans.fcntl.tail.headD true = true ∧ ans.ctl.headD true = true

instance (ans : Answers) : Decidable ans.Grants := inferInstanceAs (Decidable (_ ∧ _ ∧ _))

/-- They do for every client that is accepted before `accept` fails. -/
def Granting : List (Except Errno (Fd × Answers)) → Prop
  | [] => True
  | .error _ :: _ => True
  | .ok c :: q => c.2.Grants ∧ Granting q

theorem setNonBlocking_answers (h : w.fileAt fd = some (i, f)) :
    Safe (setNonBlocking fd) w fun ok w' =>
      ok = (f.fcntl.headD true && f.fcntl.tail.headD true) ∧
        ∃ f', w' = w.setFile i f' ∧ f'.via = f.via ∧ f'.ctl = f.ctl := by
  rw [setNonBlocking, safe_call_bind, World.fcntl, onFile_eq h]
  show Safe (if f.fcntl.headD true then _ else _) (w.setFile i { f with fcntl := f.fcntl.tail }) _
  rcases hget : f.fcntl.headD true
  · exact safe_pure.mpr ⟨rfl, _, rfl, rfl, rfl⟩
  · apply safe_call.mpr
    rw [onFile_eq (fileAt_setFile h), setFile_setFile]
    exact ⟨(Bool.true_and _).symm, _, rfl, rfl, rfl⟩

/-- A client that is non-blocking is registered, or closed again. -/
theorem registerHttp_posts {b : Books} {type : LisType} (hepfd : w.epfd = epollFd)
    (hfile : w.fileAt fd = some (i, f)) (hnew : w.interest.get fd = none) (hb : w.books = b.add fd)
    (hfd : fd ∉ b.clients) (hclean : clean → f.ctl.headD true = true) :
    Safe (registerHttp type epollFd (some ()) fd) w fun _ w' =>
      Books.Step clean asked b w'.books ∧ w'.backlog = w.backlog := by
  rw [registerHttp, newReqT, safe_call_bind, safe_count_bind, safe_call_bind]
  set r : ReqT := ⟨fd, epollFd, type, none, none, some ()⟩ with hr
  set w₁ := (w.newReq r).setShm { (w.newReq r).shm with
    acceptNum := (w.newReq r).shm.acceptNum + 1 } with hw₁
  have hb₁ : w₁.books = (b.add fd).count Books.accepted := by
    rw [← hb]
    rfl
  obtain ⟨I, F, hrest⟩ := epollCtl_rest epollFd (.add ⟨inEdge, w.reqs.bound⟩) fd w₁
  have hbacklog : (epollCtl epollFd (.add ⟨inEdge, w.reqs.bound⟩) fd w₁).2.backlog = w.backlog := by
    rw [hrest]
    rfl
  rcases epollCtl_cases epollFd (.add ⟨inEdge, w.reqs.bound⟩) fd w₁ with
    ⟨e, he⟩ | ⟨ev, hop, he⟩ | ⟨hop, -⟩
  · rw [he] at hbacklog ⊢
    show Safe (call (close fd) >>= _) (ctlCall fd w₁).2 _
    rw [safe_call_bind, close_snd, safe_pure, books_closeFd, books_ctlCall, hb₁, Books.drop_count,
      Books.drop_add hfd]
    refine ⟨?_, hbacklog⟩
    apply Books.Step.refuse
    intro hc
    -- the call would have been granted
    have hadd := epollCtl_add (w := w₁) hfile hepfd (hclean hc) hnew ⟨inEdge, w.reqs.bound⟩
    rw [he] at hadd
    cases hadd
  · rcases hop with ⟨hop, -⟩ | ⟨hop, -⟩
    · cases hop
      rw [he] at hbacklog ⊢
      refine safe_pure.mpr ⟨?_, hbacklog⟩
      have hmem : fd ∈ (ctlCall fd w₁).2.books.clients := by
        rw [books_ctlCall, hb₁]
        exact Finset.mem_insert_self _ _
      have hnone : (ctlCall fd w₁).2.interest.get fd = none := by
        rw [ctlCall, onFile_interest]
        exact hnew
      rw [books_register hmem hnone rfl]
      simp only [books_ctlCall, hb₁]
      exact .accept hfd
    · cases hop
  · cases hop

/-- A turn of the accept loop is at most one step. -/
theorem acceptTurn_posts {serfd : Fd} {type : LisType} (h : Inv lisInfs epollFd none w)
    (hclean : clean → Granting (w.backlog serfd)) :
    Safe (acceptTurn serfd (registerHttp type epollFd (some ()))) w fun r w' =>
      Books.Steps clean asked w.books w'.books ∧
        ∀ u, r = Sum.inl u → clean → Granting (w'.backlog serfd) := by
  rw [acceptTurn, safe_call_bind, World.accept]
  rcases hq : w.backlog serfd with - | ⟨e | ⟨hint, ans⟩, q⟩
  · exact safe_pure.mpr ⟨.refl, fun u hu => by cases hu⟩
  · exact safe_pure.mpr ⟨.refl, fun u hu => by cases hu⟩
  -- `accept` gives out a free descriptor above `lis_num`, so not 0
  rw [hq] at hclean
  have hfree : w.fds.get (w.fds.pick w.low hint) = none := Table.get_pick
  have hpos : 0 < w.fds.pick w.low hint :=
    lt_of_le_of_lt (Nat.zero_le _) (lt_of_lt_of_le h.low Table.le_pick)
  show Safe (if 0 < w.fds.pick w.low hint then _ else _)
    (w.arrive serfd (w.fds.pick w.low hint) q (ans.file (some serfd))) _
  rw [if_pos hpos]
  generalize w.fds.pick w.low hint = clifd at hfree ⊢
  have hno : clifd ∉ w.books.clients := by
    intro hmem
    have hacc := mem_clients.mp hmem
    rw [not_accepted hfree] at hacc
    cases hacc
  apply Safe.bind
  apply (setNonBlocking_answers arrive_fileAt).mono
  rintro ok w₂ ⟨hok, f, rfl, hvia, hctl⟩
  rw [arrive_setFile]
  have hb : (w.arrive serfd clifd q f).books = w.books.add clifd :=
    books_openFile h.fds_file (h.not_registered hfree) (by rw [hvia]; rfl)
  have hback : (w.arrive serfd clifd q f).backlog serfd = q := Function.update_self ..
  split_ifs with hset
  · have hctl' : clean → f.ctl.headD true = true := by
      intro hc
      rw [hctl]
      exact (hclean hc).1.2.2
    have hreg : Safe (registerHttp type epollFd (some ()) clifd) (w.arrive serfd clifd q f)
        fun _ w' => Books.Step clean asked w.books w'.books ∧
          w'.backlog = (w.arrive serfd clifd q f).backlog :=
      registerHttp_posts h.epfd arrive_fileAt (h.not_registered hfree) hb hno hctl'
    apply hreg.mono
    rintro r w₃ ⟨hstep, hback₃⟩
    refine ⟨.single hstep, fun _ _ hc => ?_⟩
    rw [hback₃, hback]
    exact (hclean hc).2
  · -- `set_non_blocking` has failed, and the function returns
    refine safe_pure.mpr ⟨?_, fun u hu => by cases hu⟩
    rw [hb]
    apply Relation.ReflTransGen.single
    apply Books.Step.strand
    intro hc
    -- both calls would have succeeded
    apply hset
    rw [hok]
    show (ans.fcntl.headD true && ans.fcntl.tail.headD true) = true
    rw [(hclean hc).1.1, (hclean hc).1.2.1]
    rfl

theorem eventAcceptHttp_posts (h : Inv lisInfs epollFd none w) {l : LisInf} (hl : l ∈ lisInfs)
    (ht : l.type = .http ∨ l.type = .httpProxy) (hclean : clean → Granting (w.backlog l.fd)) :
    Safe (eventAcceptHttp l.type l.fd epollFd (some ())) w fun _ w' =>
      Books.Steps clean asked w.books w'.books := by
  refine Safe.loop (fun _ w' => Inv lisInfs epollFd none w' ∧
    Books.Steps clean asked w.books w'.books ∧ (clean → Granting (w'.backlog l.fd))) ?_
    ⟨h, .refl, hclean⟩
  rintro u w₁ ⟨h₁, hs₁, hg₁⟩
  apply ((acceptHttpTurn_safe h₁ hl ht).and (acceptTurn_posts h₁ hg₁)).mono
  rintro (u | u) w₂ ⟨⟨h₂, -⟩, hs₂, hg₂⟩
  · exact ⟨h₂, hs₁.trans hs₂, hg₂ u rfl⟩
  · exact hs₁.trans hs₂

/-- With no TLS client pending the first `accept` fails. -/
theorem eventAcceptHttps_posts (h : Inv lisInfs epollFd none w) {l : LisInf} (hl : l ∈ lisInfs)
    (ht : l.type = .https ∨ l.type = .httpsProxy) :
    Safe (eventAcceptHttps l.type l.fd epollFd) w fun _ w' => w'.books = w.books := by
  rw [eventAcceptHttps, sslNew, safe_call_bind, newReqT, safe_call_bind]
  refine Safe.loop (fun _ w' => Inv lisInfs epollFd none w' ∧ w'.books = w.books) ?_
    ⟨h.newSsl.newReq, rfl⟩
  rintro retryTimes w₁ ⟨h₁, hb₁⟩
  rw [acceptTurn, safe_call_bind]
  rcases accept_cases l.fd w₁ with ⟨e, q, hq, he⟩ | ⟨hint, ans, q, hq, -⟩
  · rw [he]
    exact safe_pure.mpr hb₁
  · obtain ⟨e, he⟩ := h₁.plain l hl ht (.ok (hint, ans)) (by rw [hq]; exact List.mem_cons_self)
    cases he

theorem handleAccept_posts (h : Inv lisInfs epollFd none w) {l : LisInf} (hl : l ∈ lisInfs)
    (hclean : clean → Granting (w.backlog l.fd)) :
    Safe (handleAccept l epollFd (some ())) w fun _ w' =>
      Books.Steps clean asked w.books w'.books := by
  have htls : l.type = .https ∨ l.type = .httpsProxy →
      Safe (eventAcceptHttps l.type l.fd epollFd) w fun _ w' =>
        Books.Steps clean asked w.books w'.books := by
    intro ht
    apply (eventAcceptHttps_posts h hl ht).mono
    intro _ w' hb
    rw [hb]
  have hhttp : l.type = .http ∨ l.type = .httpProxy →
      Safe (eventAcceptHttp l.type l.fd epollFd (some ())) w fun _ w' =>
        Books.Steps clean asked w.books w'.books :=
    fun ht => eventAcceptHttp_posts h hl ht hclean
  rw [handleAccept]
  rcases ht : l.type
  · have ha := hhttp (.inl ht)
    rwa [ht] at ha
  · have ha := htls (.inl ht)
    rwa [ht] at ha
  · have ha := hhttp (.inr ht)
    rwa [ht] at ha
  · have ha := htls (.inr ht)
    rwa [ht] at ha
  · exact safe_pure.mpr .refl

/-! ### Events -/

theorem handleRead_posts (h : Inv lisInfs epollFd none w) (hc : Conn lisInfs epollFd w fd p r) :
    Safe (handleRead p) w fun _ w' => Books.Steps clean asked w.books w'.books := by
  rw [handleRead, safe_reqAt_bind hc.req, hc.client.fd_eq, hc.client.efd]
  obtain ⟨i, f, -, -, l, -, -, htype, hl⟩ := hc.client.file
  rcases hl with hl | hl
  · rw [← htype, hl]
    exact eventHttpRead_posts h hc
  · have ht : r.type = .httpProxy := htype ▸ hl
    rw [ht]
    exact eventHttpReverse_posts h hc (by rw [ht]; exact LisType.noConfusion)

theorem handleWrite_posts (h : Inv lisInfs epollFd none w) (hc : Conn lisInfs epollFd w fd p r)
    (hasked : asked → fd ∈ w.books.armed) :
    Safe (handleWrite p) w fun _ w' => Books.Steps clean asked w.books w'.books := by
  rw [handleWrite, safe_reqAt_bind hc.req, hc.client.fd_eq]
  obtain ⟨i, f, -, -, l, -, -, htype, hl⟩ := hc.client.file
  rcases hl with hl | hl
  · rw [← htype, hl]
    apply Safe.bind
    apply ((eventHttpWrite_safe h hc).and (eventHttpWrite_posts hc)).mono
    rintro _ w₁ ⟨⟨h₁, hk₁⟩, hb₁⟩
    apply (handleClose_posts h₁ (hc.kept hk₁)).mono
    intro _ w₂ hb₂
    rw [hb₂]
    rcases hb₁ with hb₁ | hb₁
    · rw [hb₁]
      exact .single (.close hc.live)
    · rw [hb₁, Books.drop_count, Books.count_count]
      exact .single (.answer hc.live hasked)
  · rw [← htype, hl]
    exact safe_pure.mpr .refl

/-- **What an event does to the books.** -/
theorem serverEvent_posts {ev reg : EpollEvent} (h : Inv lisInfs epollFd none w)
    (hreg : w.interest.get fd = some reg) (hptr : reg.ptr = ev.ptr)
    (hclean : clean → ∀ r l, w.reqs.get ev.ptr = some r → lisInfs[r.fd]? = some l →
      Granting (w.backlog l.fd))
    (hasked : asked → ev.events.epollout → reg.events.epollout) :
    Safe (serverEvent lisInfs epollFd (some ()) ev) w fun _ w' =>
      Books.Steps clean asked w.books w'.books := by
  obtain ⟨-, r, hr, hs⟩ := h.registered fd reg hreg
  rw [hptr] at hr
  rw [serverEvent, safe_reqAt_bind hr]
  rcases hs with hs | hc
  · -- the index of a listener
    obtain ⟨l, hl, rfl⟩ := hs
    have hlt := (List.getElem?_eq_some_iff.mp hl).1
    rw [if_pos (Nat.le_of_lt hlt), hl, safe_deref_bind]
    exact handleAccept_posts h (List.mem_of_getElem? hl) fun hc => hclean hc r l hr hl
  · have hconn : Conn lisInfs epollFd w fd ev.ptr r := ⟨⟨reg, hreg, hptr⟩, hr, hc⟩
    rw [if_neg (Nat.not_le_of_lt (h.lt_fd hc))]
    split_ifs with hin hout hhup
    · exact handleRead_posts h hconn
    · apply handleWrite_posts h hconn
      intro ha
      -- reported, so registered for
      apply mem_armed.mpr
      refine ⟨(mem_live.mp hconn.live).1, ?_⟩
      rw [hreg]
      exact hasked ha hout
    · apply (handleClose_posts h hconn).mono
      intro _ w' hb
      rw [hb]
      exact .single (.close hconn.live)
    · exact safe_pure.mpr .refl

end DmfServer
