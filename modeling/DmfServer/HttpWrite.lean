/-
DmfServer/HttpWrite.lean

What `event_http_write` delivers.

The loop is written to go on behind a `write` that took a part, but it breaks
on one, as it does on `EAGAIN`, and counts a response either way; then
`handle_write` closes the connection.  So the response is counted and the
connection closed as they should be exactly when the one call of `write`
takes the whole response, or fails for another reason than `EAGAIN`
(`handleWrite_delivers_iff`).
-/
import DmfServer.Relay

namespace DmfServer

open Imperative Imperative.Prog Strings World

variable {w w' : World} {i : FileId} {f : File} {r : ReqT} {conn : Addr}

theorem Held.setFile {f' : File} (h : Held w conn r i f) : Held (w.setFile i f') conn r i f' :=
  { h with file := fileAt_setFile h.file }

theorem Held.setShm {sd : ShmData} (h : Held w conn r i f) :
    Held (w.setShm sd) conn r i f := { h with }

/-- `write` has failed for another reason than a full socket buffer. -/
def Broken (answer : Except Errno Nat) : Prop := ∃ e, e ≠ .eagain ∧ answer = .error e

/-- One call of `write` can take `n` bytes. -/
def Takes (answer : Except Errno Nat) (n : Nat) : Prop := ∃ k, n ≤ k ∧ answer = .ok k

/-- What a `write` that fails takes. -/
theorem Broken.taken {answer : Except Errno Nat} (h : Broken answer) (n : Nat) :
    taken answer n = 0 := by
  obtain ⟨e, -, rfl⟩ := h
  rfl

theorem taken_eq_iff {answer : Except Errno Nat} {n : Nat} (hn : 0 < n) :
    taken answer n = n ↔ Takes answer n := by
  rcases answer with e | k
  · refine iff_of_false (ne_of_lt hn) ?_
    rintro ⟨k, -, hk⟩
    cases hk
  · show min k n = n ↔ _
    constructor
    · exact fun hmin => ⟨k, by omega, rfl⟩
    · rintro ⟨k', hle, hk⟩
      rw [Except.ok.inj hk]
      exact Nat.min_eq_right hle

/-- The loop tells a `write` that failed from the others. -/
theorem writeError_map (answer : Except Errno Nat) (g : Nat → Nat) :
    Broken answer ∧ (∃ e, writeError (answer.map g) = some e) ∨
      ¬ Broken answer ∧ writeError (answer.map g) = none := by
  rcases answer with e | k
  · show _ ∧ (∃ e', (if e ≠ .eagain then some e else none) = some e') ∨
      _ ∧ (if e ≠ .eagain then some e else none) = none
    by_cases he : e = .eagain
    · refine .inr ⟨?_, if_neg (not_not.mpr he)⟩
      rintro ⟨e', hne, herr⟩
      exact hne (Except.error.inj herr ▸ he)
    · exact .inl ⟨⟨e, he, rfl⟩, e, if_pos he⟩
  · refine .inr ⟨?_, rfl⟩
    rintro ⟨e, -, herr⟩
    cases herr

theorem sendBuf_length : sendBuf.length = 713 := by decide +kernel

theorem sendBuf_pos : 0 < sendBuf.length := by rw [sendBuf_length]; omega

/-- `event_http_write`, by the answer of its one call of `write`. -/
theorem eventHttpWrite_returns (h : Held w conn r i f) :
    ∃ w₁ f₁, Returns (eventHttpWrite conn r.fd) w () w₁ ∧ Held w₁ conn r i f₁ ∧
      f₁.sent = f.sent ++ sendBuf.take
        (taken (f.write.headD (.error .eagain)) sendBuf.length) ∧
      (Broken (f.write.headD (.error .eagain)) ∧ w₁.shm.writeNum = w.shm.writeNum ∨
        ¬ Broken (f.write.headD (.error .eagain)) ∧
          w₁.shm.writeNum = w.shm.writeNum + 1) := by
  have hloop := writeLoop_returns sendBuf h.file (Int.natCast_pos.mpr sendBuf_pos)
  have hsent := File.transmit_sent f sendBuf sendBuf.length (.error .eagain)
  rw [File.transmit_eq] at hloop
  obtain ⟨hbroken, e, he⟩ | ⟨hbroken, he⟩ :=
    writeError_map (f.write.headD (.error .eagain)) (min · sendBuf.length)
  · rw [he] at hloop
    refine ⟨_, _, ?_, h.setFile, hsent, .inl ⟨hbroken, rfl⟩⟩
    rw [eventHttpWrite, returns_reqAt_bind h.req]
    exact hloop.bind (returns_pure.mpr ⟨rfl, rfl⟩)
  · rw [he] at hloop
    refine ⟨setShm { w.shm with writeNum := w.shm.writeNum + 1 } _, _, ?_, h.setFile.setShm, hsent,
      .inr ⟨hbroken, rfl⟩⟩
    rw [eventHttpWrite, returns_reqAt_bind h.req]
    refine hloop.bind ?_
    show Returns (count r.sd _) _ _ _
    rw [h.sd]
    exact returns_count.mpr rfl

/-- The response was taken whole. -/
def Delivered (f f₁ : File) : Prop := f₁.sent = f.sent ++ sendBuf

theorem delivered_iff {f₁ : File} {answer : Except Errno Nat}
    (h : f₁.sent = f.sent ++ sendBuf.take (taken answer sendBuf.length)) :
    Delivered f f₁ ↔ Takes answer sendBuf.length := by
  rw [Delivered, h, List.append_cancel_left_eq, ← taken_eq_iff sendBuf_pos]
  constructor
  · intro heq
    have hlen := congrArg List.length heq
    rw [List.length_take] at hlen
    have := taken_le answer sendBuf.length
    omega
  · intro heq
    rw [heq, List.take_length]

/-- **Response delivery.**  What the socket takes is the response from its
beginning.  It is counted exactly if it is taken whole, and the connection
closed only then or when `write` has failed for another reason than `EAGAIN`,
exactly when the first call of `write` takes the whole response or fails so. -/
theorem handleWrite_delivers_iff (h : Held w conn r i f) (htype : r.type = .http) :
    ∃ w₁ f₁ w', Returns (eventHttpWrite conn r.fd) w () w₁ ∧ w₁.fileAt r.fd = some (i, f₁) ∧
      Returns (handleWrite conn) w () w' ∧
      (∃ k, f₁.sent = f.sent ++ sendBuf.take k) ∧
      ((w₁.shm.writeNum = w.shm.writeNum + 1 ↔ Delivered f f₁) ∧
        (Released w' conn r.fd →
          Delivered f f₁ ∨ Broken (f.write.headD (.error .eagain))) ↔
        Takes (f.write.headD (.error .eagain)) sendBuf.length ∨
          Broken (f.write.headD (.error .eagain))) := by
  obtain ⟨w₁, f₁, hret, hheld, hsent, hcount⟩ := eventHttpWrite_returns h
  obtain ⟨w', hclose, hrel, -⟩ := hheld.close_returns
  have hwrite : Returns (handleWrite conn) w () w' := by
    rw [handleWrite, returns_reqAt_bind h.req, htype]
    exact hret.bind hclose
  refine ⟨w₁, f₁, w', hret, hheld.file, hwrite, ⟨_, hsent⟩, ?_⟩
  rw [delivered_iff hsent]
  constructor
  · -- the connection is closed in any case
    exact fun hprop => hprop.2 hrel
  · refine fun hcond => ⟨?_, fun _ => hcond⟩
    obtain ⟨hbroken, hnum⟩ | ⟨hbroken, hnum⟩ := hcount
    · refine iff_of_false (by omega) fun htakes => ?_
      have hzero := hbroken.taken sendBuf.length
      rw [(taken_eq_iff sendBuf_pos).mpr htakes] at hzero
      exact absurd hzero (ne_of_gt sendBuf_pos)
    · exact iff_of_true hnum (hcond.resolve_right hbroken)

/-- A socket with room for the response. -/
theorem handleWrite_delivers_whole :
    ∃ w₁ f₁ w', Returns (eventHttpWrite 0 5) (oneClient .http (.io [] [.ok 5000]) []) () w₁ ∧
      w₁.fileAt 5 = some (0, f₁) ∧
      Returns (handleWrite 0) (oneClient .http (.io [] [.ok 5000]) []) () w' ∧
      (w₁.shm.writeNum = 1 ↔ Delivered ((Answers.io [] [.ok 5000]).file (some 4)) f₁) := by
  have htakes : Takes (.ok 5000) sendBuf.length := ⟨5000, by rw [sendBuf_length]; omega, rfl⟩
  obtain ⟨w₁, f₁, w', hret, hfile, hwrite, -, hiff⟩ := handleWrite_delivers_iff
    (oneClient_served .http (.io [] [.ok 5000]) []).held rfl
  exact ⟨w₁, f₁, w', hret, hfile, hwrite, (hiff.mpr (.inl htakes)).1⟩

/-- A slow client: `write` takes 100 bytes.  The response is counted, and the
connection closed, with the rest undelivered. -/
theorem handleWrite_cuts_response :
    ∃ w₁ f₁ w', Returns (eventHttpWrite 0 5) (oneClient .http (.io [] [.ok 100]) []) () w₁ ∧
      w₁.fileAt 5 = some (0, f₁) ∧
      Returns (handleWrite 0) (oneClient .http (.io [] [.ok 100]) []) () w' ∧
      f₁.sent = sendBuf.take 100 ∧ f₁.sent ≠ sendBuf ∧ w₁.shm.writeNum = 1 ∧
      Released w' 0 5 := by
  have hheld := (oneClient_served .http (.io [] [.ok 100]) []).held
  have hbroken : ¬ Broken (.ok 100) := by
    rintro ⟨e, -, he⟩
    cases he
  obtain ⟨w₁, f₁, hret, hheld₁, hsent, ⟨hb, -⟩ | ⟨-, hnum⟩⟩ := eventHttpWrite_returns hheld
  · exact absurd hb hbroken
  obtain ⟨w', hclose, hrel, -⟩ := hheld₁.close_returns
  have hcut : f₁.sent = sendBuf.take 100 := by
    rw [hsent, sendBuf_length]
    rfl
  refine ⟨w₁, f₁, w', hret, hheld₁.file, ?_, hcut, ?_, hnum, hrel⟩
  · rw [handleWrite, returns_reqAt_bind hheld.req]
    exact hret.bind hclose
  · intro heq
    have hlen := congrArg List.length (hcut.symm.trans heq)
    rw [List.length_take, sendBuf_length] at hlen
    omega

end DmfServer
