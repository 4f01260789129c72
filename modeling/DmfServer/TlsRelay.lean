/-
DmfServer/TlsRelay.lean

What `event_https_reverse` relays, over all edges of a connection.

At every edge the handler calls `SSL_read` once, for at most 4096 bytes of one
record, sends these to a new upstream connection, takes what one call of `recv`
gives, and hangs up.  The client stays connected.  So what an edge brings
beyond its first record waits, and is taken for the request of the next edge:
`requests` says which request the upstream gets at each edge.

The relay is transparent exactly when every edge brings one record that fits,
an upstream takes the connection, `send` takes the record at once, and the
answer is at most one piece that fits (`eventHttpsReverse_transparent_iff`).
An upstream that refuses the connection leaves a descriptor behind, since
`client_socket` does not close it then.
-/
import DmfServer.Lengths

namespace DmfServer

open Imperative Imperative.Prog Strings World

variable {w w₁ w' : World} {conn ssl : Addr} {r : ReqT} {fd hint : Fd} {i : FileId} {f f' g : File}
variable {ans : Answers} {left : List Bytes}

/-- An edge of the connection: the records that it brings, and an upstream.  If
that takes the connection it sends the pieces `answers`, and closes or fails. -/
structure ProxyEdge where
  records : List Bytes
  /-- the descriptor of the upstream, if that is free -/
  hint : Fd
  up : Answers
  answers : List Bytes
  rest : List (Except Errno Bytes)
  arrives : records ≠ []
  records_ne : ∀ p ∈ records, p ≠ []
  reads : up.read = answers.map .ok ++ rest
  answers_ne : ∀ p ∈ answers, p ≠ []
  ends : ∀ p, rest.headD (.ok []) = .ok p → p = []
  sends : answers ≠ [] → up.connect.headD true = true

/-- The upstream takes the connection. -/
def ProxyEdge.accepted (e : ProxyEdge) : Bool := e.up.connect.headD true

/-- What `socket` answers at this edge. -/
def ProxyEdge.dial (e : ProxyEdge) : Except Errno (Fd × Answers) := .ok (e.hint, e.up)

/-! ### The upstream -/

/-- The descriptors `fds` are open in `w'` and were not in `w`; the others are as
they were, and so is what is registered for those that were open. -/
structure Leaves (w w' : World) (fds : List Fd) : Prop where
  nodup : fds.Nodup
  fresh : ∀ d ∈ fds, w.fds.get d = none ∧ w'.fds.get d ≠ none
  same : ∀ d, d ∉ fds → w'.fds.get d = w.fds.get d
  registered : ∀ d, w.fds.get d ≠ none → w'.interest.get d = w.interest.get d

theorem Leaves.refl (w : World) : Leaves w w [] where
  nodup := List.nodup_nil
  fresh d h := by cases h
  same _ _ := rfl
  registered _ _ := rfl

theorem Leaves.of_open {fds : List Fd} {d : Fd} (h : Leaves w w' fds)
    (hd : w.fds.get d ≠ none) : w'.fds.get d = w.fds.get d :=
  h.same d fun hmem => hd (h.fresh d hmem).1

theorem Leaves.trans {fds fds' : List Fd} (h : Leaves w w₁ fds) (h' : Leaves w₁ w' fds') :
    Leaves w w' (fds ++ fds') := by
  refine ⟨?_, fun d hd => ?_, fun d hd => ?_, fun d hd => ?_⟩
  · refine List.nodup_append.mpr ⟨h.nodup, h'.nodup, ?_⟩
    rintro d hd _ hd' rfl
    exact (h.fresh d hd).2 (h'.fresh d hd').1
  · rcases List.mem_append.mp hd with hd | hd
    · obtain ⟨hfree, hopen⟩ := h.fresh d hd
      exact ⟨hfree, (h'.of_open hopen).symm ▸ hopen⟩
    · obtain ⟨hfree, hopen⟩ := h'.fresh d hd
      refine ⟨?_, hopen⟩
      rw [← h.same d fun hmem => (h.fresh d hmem).2 hfree]
      exact hfree
  · rw [List.mem_append, not_or] at hd
    exact (h'.same d hd.2).trans (h.same d hd.1)
  · have hd₁ : w₁.fds.get d ≠ none := (h.of_open hd).symm ▸ hd
    exact (h'.registered d hd₁).trans (h.registered d hd)

/-- `w'` is `w` but for a new file, to which `out` was written, and the
descriptors `fds` that are left open. -/
structure Aside (w w' : World) (out : Bytes) (fds : List Fd) : Prop where
  leaves : Leaves w w' fds
  files : ∀ j, j ≠ w.files.bound → w'.files.get j = w.files.get j
  bound : w'.files.bound = w.files.bound + 1
  reqs : w'.reqs = w.reqs
  ssls : w'.ssls = w.ssls
  sockets : w'.sockets = w.sockets.tail
  wrote : Wrote w' w.files.bound out

theorem TlsClient.lt_bound (h : TlsClient w conn r ssl fd i f) : i < w.files.bound :=
  Table.lt_bound (fileAt_eq_some.mp h.file).2

theorem TlsClient.aside {out : Bytes} {fds : List Fd} (h : TlsClient w conn r ssl fd i f)
    (ha : Aside w w' out fds) : TlsClient w' conn r ssl fd i f := by
  obtain ⟨hi, hf⟩ := fileAt_eq_some.mp h.file
  refine ⟨by rw [ha.reqs]; exact h.req, h.linked, (sslFd_congr ha.ssls).trans h.attached, ?_⟩
  have hfd : w'.fds.get fd = w.fds.get fd := ha.leaves.of_open fun hno => by
    rw [hno] at hi
    cases hi
  refine fileAt_eq_some.mpr ⟨hfd.trans hi, (ha.files i ?_).trans hf⟩
  exact Nat.ne_of_lt h.lt_bound

/-- `client_socket` and `exchange` together: the descriptor is given back. -/
theorem exchange_aside {q : List (Except Errno (Fd × Answers))}
    (hq : w.sockets = .ok (hint, ans) :: q) (hc : ans.connect.headD true = true) (buf : Bytes) :
    ∃ s w₁ w', Returns clientSocket w (some s) w₁ ∧
      Returns (exchange s buf buf.length) w₁ (received 4096 (ans.read.headD (.ok []))) w' ∧
      Aside w w' (buf.take (taken (ans.write.headD (.ok buf.length)) buf.length)) [] := by
  have hfree : w.fds.get (w.fds.pick w.low hint) = none := Table.get_pick
  obtain ⟨hdial, hat⟩ := clientSocket_dials hq
  rw [if_pos hc] at hdial
  obtain ⟨g, hex, hsent⟩ := exchange_calls buf buf.length hat
  rw [Int.toNat_natCast, File.transmit_sent] at hsent
  -- the descriptor is open in between only, so nothing of it is left but the file
  generalize w.fds.pick w.low hint = s at hfree hdial hat hex
  refine ⟨s, _, _, hdial, hex, ⟨List.nodup_nil, fun d hd => (by cases hd), ?_, ?_⟩, ?_, ?_, rfl,
    rfl, ?_, ?_⟩
  · intro d _
    show ((w.fds.set s w.files.bound).erase s).get d = _
    rcases eq_or_ne d s with rfl | hd
    · rw [Table.get_erase_self, hfree]
    · rw [Table.get_erase_of_ne hd, Table.get_set_of_ne hd]
  · intro d hopen
    have hd : d ≠ s := fun heq => hopen (heq ▸ hfree)
    show (w.interest.erase s).get d = _
    rw [Table.get_erase_of_ne hd]
  · intro j hj
    show (((w.files.push _).set _ _).set _ _).get j = _
    rw [Table.get_set_of_ne hj, Table.get_set_of_ne hj, Table.get_push_of_ne hj]
  · show (((w.files.push _).set _ _).set _ _).bound = w.files.bound + 1
    rw [Table.set_set, Table.bound_set (by rw [Table.bound_push]; omega), Table.bound_push]
  · show q = w.sockets.tail
    rw [hq]
    rfl
  · rw [Wrote, closeFd_files, setFile_files, Table.get_set_self, Option.map_some, hsent]
    rfl

/-- `client_socket` when the connection is refused: the descriptor stays. -/
theorem clientSocket_leaves {q : List (Except Errno (Fd × Answers))}
    (hq : w.sockets = .ok (hint, ans) :: q) (hc : ans.connect.headD true = false) :
    ∃ s w', Returns clientSocket w none w' ∧ Aside w w' [] [s] := by
  have hfree : w.fds.get (w.fds.pick w.low hint) = none := Table.get_pick
  obtain ⟨hdial, -⟩ := clientSocket_dials hq
  rw [if_neg (by rw [hc]; decide)] at hdial
  -- `client_socket` returns without a call of `close`
  generalize w.fds.pick w.low hint = s at hfree hdial
  refine ⟨s, _, hdial, ⟨List.nodup_singleton s, ?_, ?_, fun _ _ => rfl⟩, ?_, ?_, rfl, rfl, ?_, ?_⟩
  · intro d hd
    obtain rfl := List.mem_singleton.mp hd
    refine ⟨hfree, ?_⟩
    show (w.fds.set d w.files.bound).get d ≠ none
    rw [Table.get_set_self]
    exact Option.some_ne_none _
  · intro d hd
    exact Table.get_set_of_ne fun heq => hd (List.mem_singleton.mpr heq)
  · intro j hj
    show ((w.files.push _).set _ _).get j = _
    rw [Table.get_set_of_ne hj, Table.get_push_of_ne hj]
  · show ((w.files.push _).set _ _).bound = w.files.bound + 1
    rw [Table.bound_set (by rw [Table.bound_push]; omega), Table.bound_push]
  · show q = w.sockets.tail
    rw [hq]
    rfl
  · rw [Wrote, World.dials, setFile_files, Table.get_set_self, Option.map_some]
    rfl

/-! ### One edge -/

/-- What is left of the records, when `SSL_read` has taken the first 4096
bytes of the first one. -/
def leftover : List Bytes → List Bytes
  | [] => []
  | p :: q => if p.length ≤ 4096 then q else p.drop 4096 :: q

theorem firstRecord_records {p : Bytes} (q : List Bytes) :
    firstRecord 4096 ((p :: q).map Except.ok) =
      (((p.take 4096).length : Int), p.take 4096, (leftover (p :: q)).map Except.ok) := by
  show (if p.length ≤ 4096 then _ else _ : Int × Bytes × List (Except Nat Bytes)) = _
  simp only [leftover]
  split_ifs with hlen
  · rw [List.take_of_length_le hlen]
  · rfl

/-- The request of an edge that finds these records. -/
def request (records : List Bytes) : Bytes := (records.headD []).take 4096

/-- The response of an edge. -/
def ProxyEdge.response (e : ProxyEdge) : Bytes :=
  if e.accepted then (received 4096 (e.up.read.headD (.ok []))).2 else []

/-- What the upstream of an edge takes of the request. -/
def ProxyEdge.takes (e : ProxyEdge) (out : Bytes) : Bytes :=
  if e.accepted then out.take (taken (e.up.write.headD (.ok out.length)) out.length) else []

theorem received_take (size : Nat) (answer : Except Errno Bytes) :
    (received size answer).2.take (received size answer).1.toNat = (received size answer).2 := by
  rcases answer with e | piece
  · rfl
  · exact List.take_length

/-- The upstream's part of an edge, behind `SSL_read`: what it is sent, and what
the client is. -/
theorem upstream_returns (h : TlsClient w conn r ssl fd i f) (hg : Granted f) (e : ProxyEdge)
    {q : List (Except Errno (Fd × Answers))} (hsock : w.sockets = e.dial :: q) (buf : Bytes) :
    ∃ w₁ f' fds, Returns (do
        match ← clientSocket with
        | none => pure ()
        | some cliSock => do
            let (recvLen, buffer) ← exchange cliSock buf buf.length
            let _ ← sslWriteFrom r.ssl buffer recvLen
            pure ()) w () (w₁.setFile i f') ∧
      TlsClient w₁ conn r ssl fd i f ∧ Granted f' ∧ f'.sslRead = f.sslRead ∧
      f'.sent = f.sent ++ e.response ∧ Aside w w₁ (e.takes buf) fds ∧
      fds.length = if e.accepted then 0 else 1 := by
  have hq : w.sockets = .ok (e.hint, e.up) :: q := hsock
  rcases hacc : e.accepted with - | -
  · -- refused
    obtain ⟨s, w₁, hdial, haside⟩ := clientSocket_leaves hq hacc
    have h₁ := h.aside haside
    refine ⟨w₁, f, [s], ?_, h₁, hg, rfl, ?_, ?_, rfl⟩
    · rw [setFile_self h₁.file]
      exact hdial.bind (returns_pure.mpr ⟨rfl, rfl⟩)
    · rw [ProxyEdge.response, hacc]
      exact (List.append_nil _).symm
    · rw [ProxyEdge.takes, hacc]
      exact haside
  · -- accepted
    obtain ⟨s, w₃, w₁, hdial, hex, haside⟩ := exchange_aside hq hacc buf
    have h₁ := h.aside haside
    obtain ⟨x, f', hwrite, hg', hleft', hsent'⟩ := sslWriteFrom_returns h₁ hg
      (received 4096 (e.up.read.headD (.ok []))).2 (received 4096 (e.up.read.headD (.ok []))).1
    rw [received_take] at hsent'
    refine ⟨w₁, f', [], ?_, h₁, hg', hleft', ?_, ?_, rfl⟩
    · refine hdial.bind ?_
      exact hex.bind (hwrite.bind (returns_pure.mpr ⟨rfl, rfl⟩))
    · rw [ProxyEdge.response, hacc]
      exact hsent'
    · rw [ProxyEdge.takes, hacc]
      exact haside

/-- What the handler does at an edge, when the records `left` are unread. -/
theorem handleRead_proxy (h : TlsClient w conn r ssl fd i f) (htype : r.type = .httpsProxy)
    (hg : Granted f) (hleft : f.sslRead = left.map .ok) (e : ProxyEdge)
    {q : List (Except Errno (Fd × Answers))} (hsock : w.sockets = e.dial :: q) :
    ∃ w' f' fds, Returns (handleRead conn) (deliver i e.records w) () w' ∧
      TlsClient w' conn r ssl fd i f' ∧ Granted f' ∧
      f'.sslRead = (leftover (left ++ e.records)).map .ok ∧ f'.sent = f.sent ++ e.response ∧
      Wrote w' w.files.bound (e.takes (request (left ++ e.records))) ∧
      Leaves w w' fds ∧ (fds.length = if e.accepted then 0 else 1) ∧
      w'.sockets = q ∧ w'.files.bound = w.files.bound + 1 ∧
      ∀ j, j ≠ i → j ≠ w.files.bound → w'.files.get j = w.files.get j := by
  have hfile := (fileAt_eq_some.mp h.file).2
  have h₁ := h.deliver e.records
  rw [DmfServer.deliver, hfile] at h₁ ⊢
  -- `SSL_read`
  obtain ⟨p, ps, hrec⟩ : ∃ p ps, left ++ e.records = p :: ps :=
    List.exists_cons_of_ne_nil (List.append_ne_nil_of_right_ne_nil left e.arrives)
  have hq : f.sslRead ++ e.records.map Except.ok = (p :: ps).map Except.ok := by
    rw [hleft, ← List.map_append, hrec]
  simp only [hq] at h₁ ⊢
  have hread := sslReadInto_returns h₁ 4096
  simp only [firstRecord_records, setFile_setFile] at hread
  rw [hrec]
  set f₂ : File := { f with sslRead := (leftover (p :: ps)).map Except.ok } with hf₂
  have h₂ : TlsClient (w.setFile i f₂) conn r ssl fd i f₂ := h.setFile
  have hbound : (w.setFile i f₂).files.bound = w.files.bound := Table.bound_set h.lt_bound
  -- the upstream
  obtain ⟨w₁, f', fds, hup, h₃, hg', hleft', hsent', haside, hfds⟩ :=
    upstream_returns h₂ hg e (hsock : (w.setFile i f₂).sockets = _) (p.take 4096)
  refine ⟨w₁.setFile i f', f', fds, ?_, h₃.setFile, hg', hleft', hsent', ?_, ?_, hfds, ?_, ?_, ?_⟩
  · rw [handleRead, returns_reqAt_bind h₁.req, htype]
    show Returns (eventHttpsReverse conn) _ _ _
    rw [eventHttpsReverse, returns_reqAt_bind h₁.req]
    exact hread.bind hup
  · have hne : w.files.bound ≠ i := Nat.ne_of_gt h.lt_bound
    have hout := haside.wrote
    rw [hbound] at hout
    rw [Wrote, setFile_files, Table.get_set_of_ne hne]
    exact hout
  · exact ⟨haside.leaves.nodup, haside.leaves.fresh, haside.leaves.same, haside.leaves.registered⟩
  · exact haside.sockets.trans (by rw [setFile_sockets, hsock]; rfl)
  · have hlt : i < w₁.files.bound := h₃.lt_bound
    rw [setFile_files, Table.bound_set hlt, haside.bound, hbound]
  · intro j hj hjb
    rw [← hbound] at hjb
    rw [setFile_files, Table.get_set_of_ne hj, haside.files j hjb, setFile_files,
      Table.get_set_of_ne hj]

/-! ### All edges -/

/-- The requests that the upstreams are sent, when `left` is unread at first. -/
def requests (left : List Bytes) : List ProxyEdge → List Bytes
  | [] => []
  | e :: edges => request (left ++ e.records) :: requests (leftover (left ++ e.records)) edges

/-- What is unread at last. -/
def unreadAfter (left : List Bytes) : List ProxyEdge → List Bytes
  | [] => left
  | e :: edges => unreadAfter (leftover (left ++ e.records)) edges

/-- How many upstreams refuse the connection. -/
def refusals (edges : List ProxyEdge) : Nat := edges.countP fun e => !e.accepted

/-- The run over all edges: the client stays, a descriptor is left open for each
refusal, and the upstreams are the next files. -/
theorem edges_proxy (h : TlsClient w conn r ssl fd i f) (htype : r.type = .httpsProxy)
    (hg : Granted f) (hleft : f.sslRead = left.map .ok) (edges : List ProxyEdge)
    {rest : List (Except Errno (Fd × Answers))}
    (hsock : w.sockets = edges.map ProxyEdge.dial ++ rest) :
    ∃ w' f' fds, Edges conn i w (edges.map ProxyEdge.records) w' ∧
      TlsClient w' conn r ssl fd i f' ∧ f'.sslRead = (unreadAfter left edges).map .ok ∧
      f'.sent = f.sent ++ (edges.map ProxyEdge.response).flatten ∧
      (∀ k e out, edges[k]? = some e → (requests left edges)[k]? = some out →
        Wrote w' (w.files.bound + k) (e.takes out)) ∧
      Leaves w w' fds ∧ fds.length = refusals edges ∧
      ∀ j, j < w.files.bound → j ≠ i → w'.files.get j = w.files.get j := by
  induction edges generalizing w f left with
  | nil =>
      refine ⟨w, f, [], .nil, h, hleft, (List.append_nil _).symm, fun k e out he => ?_, .refl w,
        rfl, fun _ _ _ => rfl⟩
      cases he
  | cons e edges ih =>
      obtain ⟨w₁, f₁, fds, hret, h₁, hg₁, hleft₁, hsent₁, hout, hfds, hlen, hsock₁, hbound,
        hkeep⟩ := handleRead_proxy h htype hg hleft e hsock
      obtain ⟨w', f', fds', hrun, h', hleft', hsent', houts, hfds', hlen', hkeep'⟩ :=
        ih h₁ hg₁ hleft₁ hsock₁
      refine ⟨w', f', fds ++ fds', .cons hret hrun, h', hleft', ?_, ?_, hfds.trans hfds', ?_, ?_⟩
      · -- the responses come one after the other
        rw [hsent', hsent₁, List.append_assoc]
        rfl
      · intro k e' out he hreq
        rcases k with - | k
        · -- the first upstream is left alone by the others
          obtain rfl := Option.some.inj he
          obtain rfl := Option.some.inj hreq
          have hsame := hkeep' w.files.bound (by omega) (Nat.ne_of_gt h.lt_bound)
          rw [Nat.add_zero, Wrote, hsame]
          exact hout
        · rw [show w.files.bound + (k + 1) = w₁.files.bound + k by omega]
          exact houts k e' out he hreq
      · rw [List.length_append, hlen, hlen', refusals, refusals, List.countP_cons, Nat.add_comm]
        rcases e.accepted with - | -
        · rfl
        · rfl
      · intro j hj hji
        have hj₁ : j < w₁.files.bound := by omega
        exact (hkeep' j hj₁ hji).trans (hkeep j hji (Nat.ne_of_lt hj))

/-! ### Transparency -/

/-- The edge brings one record that fits, an upstream takes the connection,
`send` takes the record, and the response is at most one piece that fits. -/
def ProxyEdge.Fits (e : ProxyEdge) : Prop :=
  (e.accepted ∧ e.records.length = 1 ∧ e.records.flatten.length ≤ 4096 ∧
    taken (e.up.write.headD (.ok e.records.flatten.length)) e.records.flatten.length
      = e.records.flatten.length) ∧
  e.answers.length ≤ 1 ∧ e.answers.flatten.length ≤ 4096

theorem ProxyEdge.answers_eq_nil (e : ProxyEdge) (hacc : e.accepted = false) :
    e.answers = [] := by
  by_contra hne
  have hyes : e.accepted = true := e.sends hne
  rw [hacc] at hyes
  cases hyes

theorem ProxyEdge.response_isPrefix (e : ProxyEdge) : e.response <+: e.answers.flatten := by
  rw [response]
  split_ifs
  · rw [e.reads]
    exact received_isPrefix 4096 e.ends
  · exact List.nil_prefix

theorem ProxyEdge.response_eq_iff (e : ProxyEdge) : e.response = e.answers.flatten ↔
    e.answers.length ≤ 1 ∧ e.answers.flatten.length ≤ 4096 := by
  rw [response]
  split_ifs with hacc
  · rw [e.reads]
    exact received_iff e.answers_ne e.ends
  · rw [e.answers_eq_nil (Bool.eq_false_iff.mpr hacc)]
    exact iff_of_true rfl ⟨Nat.zero_le 1, Nat.zero_le 4096⟩

theorem ProxyEdge.records_flatten_ne (e : ProxyEdge) : e.records.flatten ≠ [] := by
  obtain ⟨p, hp⟩ := List.exists_mem_of_ne_nil _ e.arrives
  rw [Ne, List.flatten_eq_nil_iff]
  exact fun hall => e.records_ne p hp (hall p hp)

/-- With nothing unread, an edge sends on what it has brought just if that is
one record that fits, and is taken. -/
theorem ProxyEdge.takes_eq_iff (e : ProxyEdge) : e.takes (request e.records) = e.records.flatten ↔
    e.accepted ∧ e.records.length = 1 ∧ e.records.flatten.length ≤ 4096 ∧
      taken (e.up.write.headD (.ok e.records.flatten.length)) e.records.flatten.length
        = e.records.flatten.length := by
  rw [takes]
  split_ifs with hacc
  · have hfirst : request e.records =
        (received 4096 ((e.records.map Except.ok ++ []).headD (.ok []))).2 := by
      rcases e.records with - | ⟨p, q⟩ <;> rfl
    have hend : ∀ p, ([] : List (Except Errno Bytes)).headD (.ok []) = .ok p → p = [] :=
      fun p hp => (Except.ok.inj hp).symm
    have hpos : 0 < e.records.length := List.length_pos_of_ne_nil e.arrives
    have hprefix : request e.records <+: e.records.flatten := by
      rw [hfirst]
      exact received_isPrefix 4096 hend
    have heq : request e.records = e.records.flatten ↔
        e.records.length ≤ 1 ∧ e.records.flatten.length ≤ 4096 := by
      rw [hfirst]
      exact received_iff e.records_ne hend
    have hone : e.records.length ≤ 1 ↔ e.records.length = 1 := by omega
    rw [take_taken_iff hprefix, and_iff_right hacc, ← and_assoc, ← hone, ← heq]
    refine and_congr_right fun he => ?_
    rw [he]
  · exact iff_of_false (fun h => e.records_flatten_ne h.symm) fun h => hacc h.1

/-- Prefixes that make up the whole are all of their parts. -/
theorem eq_of_flatten_eq {α β : Type} {xs : List β} {u v : β → List α} (hp : ∀ x ∈ xs, u x <+: v x)
    (h : (xs.map u).flatten = (xs.map v).flatten) : ∀ x ∈ xs, u x = v x := by
  have hle : ∀ xs : List β, (∀ x ∈ xs, u x <+: v x) →
      (xs.map u).flatten.length ≤ (xs.map v).flatten.length := by
    intro xs hp
    induction xs with
    | nil => exact Nat.le_refl 0
    | cons x xs ih =>
        obtain ⟨hx, hxs⟩ := List.forall_mem_cons.mp hp
        simp only [List.map_cons, List.flatten_cons, List.length_append]
        exact Nat.add_le_add hx.length_le (ih hxs)
  induction xs with
  | nil => exact fun x hx => by cases hx
  | cons x xs ih =>
      obtain ⟨hx, hxs⟩ := List.forall_mem_cons.mp hp
      rw [List.map_cons, List.map_cons, List.flatten_cons, List.flatten_cons] at h
      have hlen := congrArg List.length h
      rw [List.length_append, List.length_append] at hlen
      have hfirst : u x = v x := hx.eq_of_length (by
        have := hle xs hxs
        have := hx.length_le
        omega)
      rw [hfirst, List.append_cancel_left_eq] at h
      exact List.forall_mem_cons.mpr ⟨hfirst, ih hxs h⟩

/-- The upstreams have got what the edges brought. -/
def AllSent (b : Nat) (edges : List ProxyEdge) (w' : World) : Prop :=
  ∀ k e, edges[k]? = some e → Wrote w' (b + k) e.records.flatten

/-- With nothing unread at first, the upstreams get what the edges bring just
if every edge brings one record that fits, and is taken. -/
theorem allSent_iff {b : Nat} {edges : List ProxyEdge}
    (houts : ∀ k e out, edges[k]? = some e → (requests [] edges)[k]? = some out →
      Wrote w' (b + k) (e.takes out)) :
    AllSent b edges w' ↔ ∀ e ∈ edges, e.takes (request e.records) = e.records.flatten := by
  induction edges generalizing b with
  | nil => exact iff_of_true (fun k e he => by cases he) (fun e he => by cases he)
  | cons e edges ih =>
      have hfirst := houts 0 e (request e.records) rfl rfl
      rw [Nat.add_zero] at hfirst
      rw [List.forall_mem_cons]
      by_cases hfits : e.takes (request e.records) = e.records.flatten
      · -- nothing is left over
        have hleft : leftover ([] ++ e.records) = [] := by
          obtain ⟨-, hone, hlen, -⟩ := e.takes_eq_iff.mp hfits
          obtain ⟨p, hp⟩ := List.length_eq_one_iff.mp hone
          rw [hp, List.flatten_singleton] at hlen
          rw [List.nil_append, hp]
          exact if_pos hlen
        have hrest := ih (b := b + 1) fun k e' out he hreq => by
          rw [show b + 1 + k = b + (k + 1) by omega]
          refine houts (k + 1) e' out he ?_
          rw [requests, hleft]
          exact hreq
        rw [← hrest, and_iff_right hfits]
        constructor
        · intro hall k e' he
          rw [show b + 1 + k = b + (k + 1) by omega]
          exact hall (k + 1) e' he
        · intro hall k e' he
          rcases k with - | k
          · obtain rfl := Option.some.inj he
            rw [Nat.add_zero, ← hfits]
            exact hfirst
          · rw [show b + (k + 1) = b + 1 + k by omega]
            exact hall k e' he
      · -- what the first upstream got never changes
        refine iff_of_false (fun hall => hfits ?_) fun hall => hfits hall.1
        exact hfirst.iff.mp (hall 0 e rfl)

/-- **When the TLS relay is transparent.**  Over all edges of a connection, the
handler returns and the client stays connected and registered.  Each upstream
that refuses the connection leaves one descriptor behind, and nothing else
does.  The upstreams have got what the edges brought, and the client all that
they sent, exactly if every edge brings one record that fits into the buffer,
an upstream takes the connection, one call of `send` takes the record, and it
is answered in at most one piece that fits. -/
theorem eventHttpsReverse_transparent_iff (h : TlsClient w conn r ssl fd i f)
    (htype : r.type = .httpsProxy) (hg : Granted f) (hnone : f.sslRead = [])
    (edges : List ProxyEdge) {rest : List (Except Errno (Fd × Answers))}
    (hsock : w.sockets = edges.map ProxyEdge.dial ++ rest) :
    ∃ w' f' fds, Edges conn i w (edges.map ProxyEdge.records) w' ∧
      TlsClient w' conn r ssl fd i f' ∧ w'.interest.get fd = w.interest.get fd ∧
      Leaves w w' fds ∧ fds.length = refusals edges ∧
      (AllSent w.files.bound edges w' ∧
        f'.sent = f.sent ++ (edges.map fun e => e.answers.flatten).flatten ↔
          ∀ e ∈ edges, e.Fits) := by
  have hleft : f.sslRead = ([] : List Bytes).map .ok := hnone
  obtain ⟨w', f', fds, hrun, h', -, hsent, houts, hfds, hlen, -⟩ :=
    edges_proxy h htype hg hleft edges hsock
  have hopen : w.fds.get fd ≠ none := by
    rw [(fileAt_eq_some.mp h.file).1]
    exact Option.some_ne_none i
  refine ⟨w', f', fds, hrun, h', hfds.registered fd hopen, hfds, hlen, ?_⟩
  have hresponses : f'.sent = f.sent ++ (edges.map fun e => e.answers.flatten).flatten ↔
      ∀ e ∈ edges, e.response = e.answers.flatten := by
    rw [hsent, List.append_cancel_left_eq]
    constructor
    · exact eq_of_flatten_eq fun e _ => e.response_isPrefix
    · intro hall
      rw [List.map_congr_left hall]
  rw [allSent_iff houts, hresponses, ← forall₂_and]
  refine forall₂_congr fun e _ => ?_
  rw [e.takes_eq_iff, e.response_eq_iff]
  rfl

/-- An edge that brings one record, and an upstream that answers with one piece,
if it takes the connection. -/
def pingEdge (request answer : Bytes) (hr : request ≠ []) (ha : answer ≠ []) : ProxyEdge where
  records := [request]
  hint := 6
  up := .io [.ok answer] []
  answers := [answer]
  rest := []
  arrives := List.cons_ne_nil _ _
  records_ne _ hp := List.mem_singleton.mp hp ▸ hr
  reads := rfl
  answers_ne _ hp := List.mem_singleton.mp hp ▸ ha
  ends _ hp := (Except.ok.inj hp).symm
  sends _ := rfl

/-- An edge whose upstream refuses the connection. -/
def refusedEdge (request : Bytes) (hr : request ≠ []) : ProxyEdge where
  records := [request]
  hint := 6
  up := { Answers.io [] [] with connect := [false] }
  answers := []
  rest := []
  arrives := List.cons_ne_nil _ _
  records_ne _ hp := List.mem_singleton.mp hp ▸ hr
  reads := rfl
  answers_ne _ hp := by cases hp
  ends _ hp := (Except.ok.inj hp).symm
  sends hne := absurd rfl hne

/-- Two edges are relayed; one that is refused leaves a descriptor open. -/
theorem eventHttpsReverse_transparent_ping :
    (∃ w w' f', Edges 0 0 w [[bytes "ping"], [bytes "pi"]] w' ∧
      Wrote w' 1 (bytes "ping") ∧ Wrote w' 2 (bytes "pi") ∧ f'.sent = bytes "pongpo" ∧
      Leaves w w' [] ∧ TlsClient w' 0 ⟨5, 0, .httpsProxy, none, some 0, none⟩ 0 5 0 f') ∧
    ∃ w w' f' d, Edges 0 0 w [[bytes "ping"]] w' ∧ Leaves w w' [d] ∧
      TlsClient w' 0 ⟨5, 0, .httpsProxy, none, some 0, none⟩ 0 5 0 f' := by
  let e₁ := pingEdge (bytes "ping") (bytes "pong") (by decide) (by decide)
  let e₂ := pingEdge (bytes "pi") (bytes "po") (by decide) (by decide)
  let e₃ := refusedEdge (bytes "ping") (by decide)
  let w (edges : List ProxyEdge) : World := { oneTlsClient (.io [] []) with
    reqs := Table.empty.push ⟨5, 0, .httpsProxy, none, some 0, none⟩
    sockets := edges.map ProxyEdge.dial }
  have h (edges : List ProxyEdge) :
      TlsClient (w edges) 0 ⟨5, 0, .httpsProxy, none, some 0, none⟩ 0 5 0
        ((Answers.io [] []).file (some 4)) := ⟨rfl, rfl, rfl, rfl⟩
  have hg : Granted ((Answers.io [] []).file (some 4)) := fun b hb => by cases hb
  constructor
  · obtain ⟨w', f', fds, hrun, h', -, hleft, hlen, hiff⟩ :=
      eventHttpsReverse_transparent_iff (h [e₁, e₂]) rfl hg rfl [e₁, e₂] (List.append_nil _).symm
    have hfits : ∀ e ∈ [e₁, e₂], e.Fits := by
      simp only [List.mem_cons, List.not_mem_nil, or_false]
      rintro e (rfl | rfl)
      · exact ⟨⟨rfl, rfl, by decide, rfl⟩, by decide, by decide⟩
      · exact ⟨⟨rfl, rfl, by decide, rfl⟩, by decide, by decide⟩
    obtain ⟨hsent, hgot⟩ := hiff.mpr hfits
    obtain rfl := List.length_eq_zero_iff.mp hlen
    exact ⟨_, w', f', hrun, hsent 0 e₁ rfl, hsent 1 e₂ rfl, hgot, hleft, h'⟩
  · obtain ⟨w', f', fds, hrun, h', -, hleft, hlen, -⟩ :=
      eventHttpsReverse_transparent_iff (h [e₃]) rfl hg rfl [e₃] (List.append_nil _).symm
    obtain ⟨d, rfl⟩ := List.length_eq_one_iff.mp hlen
    exact ⟨_, w', f', d, hrun, hleft, h'⟩

end DmfServer
