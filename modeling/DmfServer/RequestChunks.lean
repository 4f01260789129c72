/-
DmfServer/RequestChunks.lean

A body that arrives in chunks.

`TryFixBody` appends a chunk to the body and asks `RequestBodyValid` whether
it is complete, which compares its length to Content-Length.  The test is
for equality: a body that has grown past Content-Length is incomplete, and
stays so.  Hence a stream of the body and what follows it is reassembled
exactly when the end of the body is the end of a chunk
(`reassembles_iff`).
-/
import DmfServer.RequestCrash

namespace DmfServer

open Strings

variable {r : Req} {n : Nat} {chunks before after : List Bytes} {chunk : Bytes}

namespace Req

/-- `TryFixBody` on one chunk after the other; the answers are dropped. -/
def fixBody (r : Req) (chunks : List Bytes) : Option Req :=
  chunks.foldlM (fun r other => (r.tryFixBody other).map Prod.fst) r

/-- The body of `n` bytes at the front of the chunks is reassembled: a call
answers `false` while fewer bytes have arrived, and the call that brings the
`n`-th answers `true`, with a body that begins with these bytes. -/
def Reassembles (r : Req) (n : Nat) (chunks : List Bytes) : Prop :=
  ∀ before chunk after, chunks = before ++ chunk :: after →
    ∃ r₁ r₂ complete, r.fixBody before = some r₁ ∧ r₁.tryFixBody chunk = some (r₂, complete) ∧
      ((before ++ [chunk]).flatten.length < n → complete = false) ∧
      (before.flatten.length < n → n ≤ (before ++ [chunk]).flatten.length →
        complete = true ∧ chunks.flatten.take n <+: r₂.body)

/-- The headers of a request with a body of `n` bytes that is no form. -/
structure HasLength (r : Req) (n : Nat) : Prop where
  length : atoi r.getContentLength = some (n : Int)
  type : ¬ bytes "multipart/form-data" <:+: r.getContentType

/-- Then the body is complete if it has this length. -/
theorem HasLength.requestBodyValid (h : r.HasLength n) :
    r.requestBodyValid = some (decide (r.body.length = n)) := by
  have hne : r.getContentLength ≠ [] := by
    intro hnil
    have hlen := h.length
    rw [hnil] at hlen
    cases hlen
  rw [requestBodyValid_plain h.type, if_neg hne, h.length]
  simp

theorem HasLength.tryFixBody (h : r.HasLength n) (chunk : Bytes) :
    r.tryFixBody chunk = some ({ r with body := r.body ++ chunk },
      decide ((r.body ++ chunk).length = n)) := by
  have h' : ({ r with body := r.body ++ chunk } : Req).HasLength n := ⟨h.length, h.type⟩
  rw [Req.tryFixBody, h'.requestBodyValid]
  rfl

/-- The chunks are appended. -/
theorem HasLength.fixBody (h : r.HasLength n) (chunks : List Bytes) :
    r.fixBody chunks = some { r with body := r.body ++ chunks.flatten } := by
  induction chunks generalizing r with
  | nil =>
      rw [List.flatten_nil, List.append_nil]
      rfl
  | cons chunk chunks ih =>
      have h' : ({ r with body := r.body ++ chunk } : Req).HasLength n := ⟨h.length, h.type⟩
      rw [Req.fixBody, List.foldlM_cons, h.tryFixBody]
      show Req.fixBody { r with body := r.body ++ chunk } chunks = _
      rw [ih h', List.flatten_cons, List.append_assoc]

end Req

/-- A chunk brings the `n`-th byte. -/
theorem exists_crossing (hn : 0 < n) (h : n ≤ chunks.flatten.length) :
    ∃ before chunk after, chunks = before ++ chunk :: after ∧ before.flatten.length < n ∧
      n ≤ (before ++ [chunk]).flatten.length := by
  induction chunks using List.reverseRecOn with
  | nil => exact absurd h (Nat.not_le_of_lt hn)
  | append_singleton chunks chunk ih =>
      by_cases hle : n ≤ chunks.flatten.length
      · obtain ⟨before, c, after, rfl, hlt, hge⟩ := ih hle
        exact ⟨before, c, after ++ [chunk], by simp, hlt, hge⟩
      · exact ⟨chunks, chunk, [], rfl, Nat.not_le.mp hle, h⟩

/-- **When a body is reassembled.**  For every body of `n` bytes, whatever
follows it, and every division into chunks, that is exactly if the body ends
with a chunk. -/
theorem reassembles_iff (r : Req) (n : Nat) (chunks : List Bytes) (h : r.HasLength n)
    (hbody : r.body = []) (htotal : n ≤ chunks.flatten.length) :
    r.Reassembles n chunks ↔
      ∃ before after, chunks = before ++ after ∧ before.flatten.length = n := by
  have hcall : ∀ before chunk, ∃ r₁, r.fixBody before = some r₁ ∧
      r₁.tryFixBody chunk = some ({ r with body := (before ++ [chunk]).flatten },
        decide ((before ++ [chunk]).flatten.length = n)) := by
    intro before chunk
    have h₁ : ({ r with body := before.flatten } : Req).HasLength n := ⟨h.length, h.type⟩
    refine ⟨_, h.fixBody before, ?_⟩
    rw [hbody, List.nil_append, h₁.tryFixBody, List.flatten_append, List.flatten_singleton]
  constructor
  · intro hre
    rcases Nat.eq_zero_or_pos n with rfl | hn
    · exact ⟨[], chunks, rfl, rfl⟩
    · -- the chunk that brings the last byte of the body brings no other
      obtain ⟨before, chunk, after, rfl, hlt, hge⟩ := exists_crossing hn htotal
      obtain ⟨r₁, r₂, complete, hr₁, hr₂, -, hdone⟩ := hre before chunk after rfl
      obtain ⟨r₁', hr₁', hr₂'⟩ := hcall before chunk
      obtain rfl : r₁ = r₁' := Option.some.inj (hr₁.symm.trans hr₁')
      rw [hr₂] at hr₂'
      cases hr₂'
      exact ⟨before ++ [chunk], after, by simp, of_decide_eq_true (hdone hlt hge).1⟩
  · rintro ⟨front, back, heq, hfront⟩ before chunk after hchunks
    obtain ⟨r₁, hr₁, hr₂⟩ := hcall before chunk
    refine ⟨r₁, _, _, hr₁, hr₂, fun hlt => decide_eq_false (Nat.ne_of_lt hlt), fun hlt hge => ?_⟩
    -- the boundary is behind this chunk, as it is not before it
    have hpre : front <+: chunks := ⟨back, heq.symm⟩
    obtain ⟨mid, rfl⟩ : before ++ [chunk] <+: front := by
      have hcall : before ++ [chunk] <+: chunks := ⟨after, by simp [hchunks]⟩
      apply List.prefix_of_prefix_length_le hcall hpre
      by_contra hlen
      rw [List.length_append, List.length_singleton] at hlen
      obtain ⟨t, rfl⟩ : front <+: before := by
        apply List.prefix_of_prefix_length_le hpre ⟨chunk :: after, hchunks.symm⟩
        omega
      rw [List.flatten_append, List.length_append] at hlt
      omega
    have hlen : (before ++ [chunk]).flatten.length = n := by
      have hmid : (before ++ [chunk] ++ mid).flatten.length
          = (before ++ [chunk]).flatten.length + mid.flatten.length := by
        rw [List.flatten_append, List.length_append]
      omega
    refine ⟨decide_eq_true hlen, ?_⟩
    have htake : chunks.flatten.take n = (before ++ [chunk]).flatten := by
      rw [heq, List.append_assoc, List.flatten_append, ← hlen, List.take_left]
    rw [htake]

/-- Three bytes in two chunks, and a byte of the next request. -/
theorem reassembles_chunks : ({ reqInit false with
      headers := Finmap.singleton (bytes "Content-Length") (bytes "3") } : Req).Reassembles 3
    [bytes "a", bytes "bc", bytes "G"] := by
  apply (reassembles_iff _ 3 [bytes "a", bytes "bc", bytes "G"] ⟨by decide, by decide⟩ rfl
    (by decide)).mpr
  exact ⟨[bytes "a", bytes "bc"], [bytes "G"], rfl, by decide⟩

/-- The byte of the next request comes with the end of the body, and the body
is never complete. -/
theorem not_reassembles_pipelined : ¬ ({ reqInit false with
      headers := Finmap.singleton (bytes "Content-Length") (bytes "3") } : Req).Reassembles 3
    [bytes "a", bytes "bcG"] := by
  intro h
  obtain ⟨r₁, r₂, complete, hr₁, hr₂, -, hdone⟩ := h [bytes "a"] (bytes "bcG") [] rfl
  cases hr₁
  cases hr₂
  exact absurd (hdone (by decide) (by decide)).1 (by decide)

end DmfServer
