/-
DmfServer/RequestRow.lean

Writing a request out and reading it again.

`ByteRow` writes an accepted request back in the form

    method SP path SP protocol CRLF (key ": " value CRLF)* CRLF body

with the entries of the header map in any order.  The text is a request
whatever the map holds (`byteRow_form`): the keys and the values were
trimmed, so no CR at the end of one can meet the CRLF behind it, and there is
no colon in a key.  What is read from it is the same map with `normalise`
applied to the keys.

On a key that starts with an ASCII byte `normalise` does nothing more.  On
another one it does: the first byte is the first of U+FFFD, which is no
valid UTF-8 by itself and becomes U+FFFD again, so the key grows by two bytes
whenever it is read.  So the round trip is exact iff the header names of the
request start with ASCII bytes (`byteRow_roundTrip_iff`).
-/
import DmfServer.RequestCrash

namespace DmfServer

open Strings

/-- `order` is an order in which a loop can meet the entries of the map. -/
structure Iterates (headers : Headers) (order : List (Bytes × Bytes)) : Prop where
  once : (order.map Prod.fst).Nodup
  mem_iff : ∀ key value, (key, value) ∈ order ↔ headers.lookup key = some value

/-- The header names of the text start with ASCII bytes. -/
def AsciiNames (s : Bytes) : Prop :=
  ∀ line ∈ readLines s, ∀ c ∈ (headerName line).head?, c < 0x80

/-- Written out in any order and read into a fresh object, the request is the
same. -/
def RoundTrips (col : Collection) (h2 : Bool) (r : Req) : Prop :=
  ∀ order, Iterates r.headers order → ∃ r' r'',
    (reqInit h2).parseHeader col (r.byteRow order) = some (r', .requestOk) ∧
    r'.parseBody (r.byteRow order) = some r'' ∧
    r''.method = r.method ∧ r''.path = r.path ∧ r''.protocol = r.protocol ∧
    r''.headers = r.headers ∧ r''.body = r.body

variable {name key value line : Bytes} {c : UInt8} {lines : List Bytes}
variable {order : List (Bytes × Bytes)} {headers : Headers}

/-! ### Normalised names -/

/-- The first byte of a word of white space is no capital letter, nor the
first byte of U+FFFD, and the last byte of U+FFFD is in none. -/
theorem whiteSpace_bytes : ∀ word ∈ whiteSpace, word ≠ [] ∧ (0xBD : UInt8) ∉ word ∧
    ∀ d ∈ word.head?, (d < 0x41 ∨ 0x5A < d) ∧ d ≠ 0xEF := by decide +kernel

theorem toUpper_cases (c : UInt8) :
    toUpper c = [c] ∧ c < 0x80 ∨ (∃ d, toUpper c = [d] ∧ 0x41 ≤ d ∧ d ≤ 0x5A) ∨
      toUpper c = [0xEF, 0xBF, 0xBD] ∧ 0x80 ≤ c := by
  rw [toUpper]
  split
  · next h =>
      refine .inr (.inl ⟨_, rfl, ?_, ?_⟩)
      · rw [UInt8.le_iff_toNat_le] at h ⊢
        simp only [UInt8.le_iff_toNat_le, UInt8.toNat_sub, UInt8.toNat_ofNat] at h ⊢
        omega
      · simp only [UInt8.le_iff_toNat_le, UInt8.toNat_sub, UInt8.toNat_ofNat] at h ⊢
        omega
  split
  · next h => exact .inl ⟨rfl, h⟩
  · next h => exact .inr (.inr ⟨rfl, UInt8.not_lt.mp h⟩)

variable (key) in
/-- A name that starts with an ASCII byte is normalised once and for all. -/
theorem normalise_ascii (hc : c < 0x80) :
    ∃ d, normalise (c :: key) = d :: key ∧ normalise (d :: key) = d :: key := by
  rcases toUpper_cases c with ⟨hu, -⟩ | ⟨d, hu, hlow, hhigh⟩ | ⟨-, hge⟩
  · exact ⟨c, by rw [normalise, hu]; rfl, by rw [normalise, hu]; rfl⟩
  · refine ⟨d, by rw [normalise, hu]; rfl, ?_⟩
    have hno : ¬ (0x61 ≤ d ∧ d ≤ 0x7A) := fun h =>
      absurd (UInt8.le_trans h.1 hhigh) (by decide)
    have hd : d < 0x80 := UInt8.lt_of_le_of_lt hhigh (by decide)
    rw [normalise, toUpper, if_neg hno, if_pos hd]
    rfl
  · exact absurd hc (UInt8.not_lt.mpr hge)

/-- Another name begins with U+FFFD from then on. -/
theorem normalise_other (hc : 0x80 ≤ c) :
    normalise (c :: key) = 0xEF :: 0xBF :: 0xBD :: key := by
  rcases toUpper_cases c with ⟨-, hlt⟩ | ⟨d, hu, -, -⟩ | ⟨hu, -⟩
  · exact absurd hc (UInt8.not_le.mpr hlt)
  · have hlow : ¬ (0x61 ≤ c ∧ c ≤ 0x7A) := fun h =>
      absurd (UInt8.le_trans hc h.2) (by decide)
    rw [toUpper, if_neg hlow, if_neg (UInt8.not_lt.mpr hc)] at hu
    cases hu
  · rw [normalise, hu]
    rfl

/-- What the first byte becomes is not white space, and is not part of any
either. -/
theorem normalise_trimmed (hne : name ≠ []) (h : Trimmed name) : Trimmed (normalise name) := by
  rcases name with - | ⟨c, key⟩
  · exact absurd rfl hne
  have hback : ∀ word ∈ whiteSpace, ¬ word <:+ key := fun word hw hp =>
    h.back word hw (hp.trans (List.suffix_cons _ _))
  rcases toUpper_cases c with ⟨hu, -⟩ | ⟨d, hu, hlow, hhigh⟩ | ⟨hu, -⟩ <;>
    rw [normalise, hu]
  · exact h
  · have hfront : ∀ word ∈ whiteSpace, ¬ word <+: [d] ++ key := by
      intro word hw hp
      obtain ⟨hnil, -, hhead⟩ := whiteSpace_bytes word hw
      obtain ⟨e, word, rfl⟩ := List.exists_cons_of_ne_nil hnil
      obtain rfl := (List.cons_prefix_cons.mp hp).1
      rcases (hhead e rfl).1 with hlt | hlt
      · exact absurd hlow (UInt8.not_le.mpr hlt)
      · exact absurd hhigh (UInt8.not_le.mpr hlt)
    refine ⟨hfront, fun word hw hp => ?_⟩
    rcases List.suffix_cons_iff.mp hp with rfl | hp
    · exact hfront _ hw List.prefix_rfl
    · exact hback word hw hp
  · refine ⟨fun word hw hp => ?_, fun word hw hp => ?_⟩
    · obtain ⟨hnil, -, hhead⟩ := whiteSpace_bytes word hw
      obtain ⟨e, word, rfl⟩ := List.exists_cons_of_ne_nil hnil
      obtain rfl := (List.cons_prefix_cons.mp hp).1
      exact (hhead _ rfl).2 rfl
    · -- a word that is longer than `key` would have the byte before it
      obtain ⟨-, hno, -⟩ := whiteSpace_bytes word hw
      rcases List.suffix_or_suffix_of_suffix hp (List.suffix_append _ key) with hp' | ⟨x, rfl⟩
      · exact hback word hw hp'
      · rcases List.eq_nil_or_concat x with rfl | ⟨x, e, rfl⟩
        · exact hback _ hw List.suffix_rfl
        · have hx : x.concat e <:+ [0xEF, 0xBF] ++ [0xBD] := List.suffix_append_self_iff.mp hp
          obtain rfl : e = 0xBD := by
            rw [List.concat_eq_append] at hx
            exact List.singleton_suffix_append_singleton_iff.mp
              ((List.suffix_append x [e]).trans hx)
          exact hno (by simp)

/-! ### What the header map holds -/

/-- What every entry of the map of an accepted request is like. -/
structure IsEntry (key value : Bytes) : Prop where
  key_nonempty : key ≠ []
  key_trimmed : Trimmed key
  key_no_colon : ¬ colon <:+: key
  key_no_crlf : ¬ crlf <:+: key
  value_trimmed : Trimmed value
  value_no_crlf : ¬ crlf <:+: value

/-- `normalise` brings in neither a colon nor the two halves of a CRLF. -/
theorem normalise_clean (h : Trimmed name) (hcolon : ¬ colon <:+: name) (hcrlf : ¬ crlf <:+: name) :
    ¬ colon <:+: normalise name ∧ ¬ crlf <:+: normalise name := by
  rcases name with - | ⟨c, key⟩
  · exact ⟨hcolon, hcrlf⟩
  have hkey : 58 ∉ key ∧ ¬ crlf <:+: key :=
    ⟨fun hm => hcolon (singleton_infix_iff.mpr (List.mem_cons_of_mem c hm)),
      fun hi => hcrlf (hi.trans (List.suffix_cons c key).isInfix)⟩
  -- a byte in front that is neither a colon nor a CR
  have hcons : ∀ {d : UInt8} {t : Bytes}, d ≠ 58 → d ≠ 13 → 58 ∉ t ∧ ¬ crlf <:+: t →
      58 ∉ d :: t ∧ ¬ crlf <:+: d :: t := by
    intro d t hd58 hd13 ht
    constructor
    · intro hm
      rcases List.mem_cons.mp hm with he | hm
      · exact hd58 he.symm
      · exact ht.1 hm
    · intro hi
      rcases List.infix_cons_iff.mp hi with hp | hi
      · exact hd13 (List.cons_prefix_cons.mp hp).1.symm
      · exact ht.2 hi
  have hresult : 58 ∉ normalise (c :: key) ∧ ¬ crlf <:+: normalise (c :: key) := by
    rcases toUpper_cases c with ⟨hu, -⟩ | ⟨d, hu, hlow, -⟩ | ⟨hu, -⟩ <;> rw [normalise, hu]
    · exact ⟨fun hm => hcolon (singleton_infix_iff.mpr hm), hcrlf⟩
    · refine hcons ?_ ?_ hkey
      · rintro rfl
        exact absurd hlow (by decide)
      · rintro rfl
        exact absurd hlow (by decide)
    · exact hcons (by decide) (by decide) (hcons (by decide) (by decide)
        (hcons (by decide) (by decide) hkey))
  exact ⟨fun hi => hresult.1 (singleton_infix_iff.mp hi), hresult.2⟩

theorem isEntry_of_line (h : WellFormedLine line) :
    IsEntry (headerKey line) (headerValue line) := by
  rcases hc : cut colon line with - | ⟨before, after⟩
  · exact absurd h.colon (cut_eq_none_iff.mp hc)
  have hline : line = before ++ colon ++ after := eq_of_cut hc
  have hname : headerName line = trimSpace before := by rw [headerName, hc]; rfl
  have hvalue : headerValue line = trimSpace after := by rw [headerValue, hc]; rfl
  have hno : ¬ colon <:+: headerName line := by
    rw [hname]
    exact fun hi => not_infix_of_cut borderless_colon.1 hc (hi.trans (trimSpace_isInfix before))
  have hcrlf : ¬ crlf <:+: headerName line := by
    rw [hname]
    intro hi
    apply h.no_crlf
    rw [hline, List.append_assoc]
    exact (hi.trans (trimSpace_isInfix before)).trans (List.prefix_append _ _).isInfix
  have htrim : Trimmed (headerName line) := hname ▸ trimmed_trimSpace before
  obtain ⟨hkcolon, hkcrlf⟩ := normalise_clean htrim hno hcrlf
  refine ⟨?_, normalise_trimmed h.name htrim, hkcolon, hkcrlf, hvalue ▸ trimmed_trimSpace after, ?_⟩
  · obtain ⟨c, key, hn⟩ := List.exists_cons_of_ne_nil h.name
    rw [headerKey, hn, normalise]
    rcases toUpper_cases c with ⟨hu, -⟩ | ⟨d, hu, -, -⟩ | ⟨hu, -⟩ <;> rw [hu] <;>
      exact List.cons_ne_nil _ _
  · rw [hvalue]
    intro hi
    apply h.no_crlf
    rw [hline]
    exact (hi.trans (trimSpace_isInfix after)).trans (List.suffix_append _ _).isInfix

/-- The entries come from lines. -/
theorem RequestForm.entry {s method path protocol rest : Bytes}
    (h : RequestForm s method path protocol lines rest)
    (hk : lastValue lines key = some value) :
    IsEntry key value ∧ ∃ line ∈ lines, headerKey line = key := by
  obtain ⟨line, hfind, rfl⟩ := Option.map_eq_some_iff.mp hk
  have hmem : line ∈ lines := List.mem_reverse.mp (List.mem_of_find?_eq_some hfind)
  have hkey : headerKey line = key := by simpa using List.find?_some hfind
  exact ⟨hkey ▸ isEntry_of_line (h.lines line hmem), line, hmem, hkey⟩

/-! ### The written lines -/

/-- The line `ByteRow` writes for an entry. -/
def rowLine (kv : Bytes × Bytes) : Bytes := kv.1 ++ bytes ": " ++ kv.2

theorem rowLine_eq : rowLine (key, value) = key ++ colon ++ (0x20 :: value) := by
  rw [rowLine, List.append_assoc, List.append_assoc]
  rfl

theorem cut_rowLine (h : IsEntry key value) :
    cut colon (rowLine (key, value)) = some (key, 0x20 :: value) := by
  rw [rowLine_eq]
  exact cut_append borderless_colon h.key_no_colon

/-- It is a header line with the entry's name and value. -/
theorem rowLine_wellFormed (h : IsEntry key value) :
    WellFormedLine (rowLine (key, value)) ∧ headerName (rowLine (key, value)) = key ∧
      headerValue (rowLine (key, value)) = value := by
  have hname : headerName (rowLine (key, value)) = key := by
    rw [headerName, cut_rowLine h]
    exact trimSpace_of_trimmed h.key_trimmed
  have hvalue : headerValue (rowLine (key, value)) = value := by
    rw [headerValue, cut_rowLine h]
    exact trimSpace_space_cons h.value_trimmed
  have hcrlf : ¬ crlf <:+: rowLine (key, value) := by
    have h58 : (58 : UInt8) ∉ crlf := by decide
    have h32 : (32 : UInt8) ∉ crlf := by decide
    have he : rowLine (key, value) = key ++ 58 :: ([] ++ 32 :: value) := by
      rw [rowLine_eq, List.append_assoc]
      rfl
    rw [he, infix_append_cons_iff h58, infix_append_cons_iff h32]
    rintro (hi | hi | hi)
    · exact h.key_no_crlf hi
    · exact absurd hi (by decide)
    · exact h.value_no_crlf hi
  refine ⟨⟨?_, hcrlf, ?_, ?_⟩, hname, hvalue⟩
  · rw [rowLine_eq]
    simp
  · rw [rowLine_eq]
    exact List.infix_append _ _ _
  · rw [hname]
    exact h.key_nonempty

/-! ### The written request -/

/-- The text `ByteRow` builds, line by line. -/
theorem byteRow_eq (r : Req) (order : List (Bytes × Bytes)) :
    r.byteRow order = r.method ++ space ++ r.path ++ space ++ r.protocol ++ crlf
      ++ (order.map rowLine).flatMap (· ++ crlf) ++ crlf ++ r.body := by
  have hfold : ∀ s : Bytes, order.foldl
      (fun rowStr kv => rowStr ++ kv.1 ++ bytes ": " ++ kv.2 ++ bytes "\r\n") s
        = s ++ (order.map rowLine).flatMap (· ++ crlf) := by
    induction order with
    | nil => intro s; simp
    | cons kv order ih =>
        intro s
        rw [List.foldl_cons, ih, List.map_cons, List.flatMap_cons, rowLine]
        have hcrlf : bytes "\r\n" = crlf := rfl
        simp only [hcrlf, List.append_assoc]
  have hspace : bytes " " = space := rfl
  have hcrlf : bytes "\r\n" = crlf := rfl
  rw [Req.byteRow]
  simp only [hfold]
  rw [hspace, hcrlf]

/-- It is a request, whose header lines are the entries of the map. -/
theorem byteRow_form {r : Req} (hm : r.method ∈ httpMethod) (hpr : r.protocol ∈ httpProtocol)
    (hp : r.path ≠ []) (hps : ¬ space <:+: r.path) (hpc : ¬ crlf <:+: r.path)
    (hall : ∀ kv ∈ order, IsEntry kv.1 kv.2) :
    RequestForm (r.byteRow order) r.method r.path r.protocol (order.map rowLine) r.body := by
  refine ⟨byteRow_eq r order, hm, hpr, hp, hps, hpc, ?_⟩
  intro line hl
  obtain ⟨kv, hkv, rfl⟩ := List.mem_map.mp hl
  exact (rowLine_wellFormed (hall kv hkv)).1

/-- The key of a written line is normalised once more. -/
theorem headerKey_rowLine (h : IsEntry key value) :
    headerKey (rowLine (key, value)) = normalise key := by
  rw [headerKey, (rowLine_wellFormed h).2.1]

/-- With keys that are normalised for good every entry is read as it was. -/
theorem lastValue_rowLines (hall : ∀ kv ∈ order, IsEntry kv.1 kv.2)
    (hfix : ∀ kv ∈ order, normalise kv.1 = kv.1) (hnodup : (order.map Prod.fst).Nodup) :
    lastValue (order.map rowLine) key = some value ↔ (key, value) ∈ order := by
  induction order using List.reverseRecOn with
  | nil => simp [lastValue]
  | append_singleton order kv ih =>
      obtain ⟨k, v⟩ := kv
      have hkv : IsEntry k v := hall (k, v) (by simp)
      have hnorm : normalise k = k := hfix (k, v) (by simp)
      rw [List.map_append, List.map_singleton, lastValue_concat, headerKey_rowLine hkv, hnorm,
        (rowLine_wellFormed hkv).2.2]
      rw [List.map_append, List.nodup_append] at hnodup
      obtain ⟨hnodup, -, hdisj⟩ := hnodup
      have ih := ih (fun kv h => hall kv (List.mem_append_left _ h))
        (fun kv h => hfix kv (List.mem_append_left _ h)) hnodup
      by_cases he : k = key
      · subst he
        have hno : (k, value) ∉ order := fun hmem =>
          hdisj k (List.mem_map_of_mem hmem) k (by simp) rfl
        simp [hno, eq_comm]
      · simp [he, ih, Ne.symm he]

/-- There is an order in which a loop meets the entries. -/
theorem exists_iterates (headers : Headers) : ∃ order, Iterates headers order := by
  induction headers using Finmap.induction_on with
  | _ entries =>
    refine ⟨entries.entries.map fun kv => (kv.1, kv.2), ?_, ?_⟩
    · rw [List.map_map]
      exact entries.nodupKeys
    · intro key value
      show _ ↔ entries.lookup key = some value
      rw [← Option.mem_def, AList.mem_lookup_iff, List.mem_map]
      constructor
      · rintro ⟨⟨k, v⟩, hmem, he⟩
        cases he
        exact hmem
      · intro hmem
        exact ⟨⟨key, value⟩, hmem, rfl⟩

/-! ### The round trip -/

variable {col : Collection} {h2 : Bool} {s method path protocol rest : Bytes} {r r₁ : Req}

/-- The lines that are read of a request are those of its form. -/
theorem RequestForm.readLines (h : RequestForm s method path protocol lines rest) :
    readLines s = lines := by
  have hf : FirstLine (method ++ space ++ path ++ space ++ protocol) method path protocol :=
    firstLine_iff.mpr ⟨rfl, h.path_no_space, h.method, h.path_nonempty, h.protocol⟩
  have hlen : 2 ≤ (lines ++ [] :: split crlf rest).length := by
    have := List.length_pos_iff.mpr (split_ne_nil (s := rest) borderless_crlf.1)
    simp
    omega
  have hnil : ¬ colon <:+: ([] : Bytes) := by decide
  rw [DmfServer.readLines, h.pieces]
  show (if _ then _ else _) = lines
  rw [if_pos ⟨hlen, firstLineValid_iff.mpr ⟨_, _, _, hf⟩⟩, List.takeWhile_append_of_pos,
    List.takeWhile_cons_of_neg (by simpa using hnil), List.append_nil]
  intro line hl
  simpa using (h.lines line hl).colon

variable (col) in
/-- What is read back: the same request, except that the keys of its header
map are normalised again. -/
theorem byteRow_parsed (hform : RequestForm s method path protocol lines rest)
    (hr : r = { reqInit h2 with
      method, path, protocol, headers := lines.foldl enter ∅, body := rest })
    (hord : Iterates r.headers order) :
    (∀ kv ∈ order, IsEntry kv.1 kv.2) ∧
    ∃ r' r'', (reqInit h2).parseHeader col (r.byteRow order) = some (r', .requestOk) ∧
      r'.parseBody (r.byteRow order) = some r'' ∧
      r'' = { r with headers := (order.map rowLine).foldl enter ∅ } := by
  have hlookup : ∀ key, r.headers.lookup key = lastValue lines key := by
    intro key
    rw [hr]
    show (lines.foldl enter ∅).lookup key = _
    rw [lookup_foldl_enter, Finmap.lookup_empty, Option.or_none]
  have hall : ∀ kv ∈ order, IsEntry kv.1 kv.2 := by
    rintro ⟨key, value⟩ hkv
    have hv := (hord.mem_iff key value).mp hkv
    rw [hlookup] at hv
    exact (hform.entry hv).1
  have hform' : RequestForm (r.byteRow order) r.method r.path r.protocol (order.map rowLine)
      r.body := by
    apply byteRow_form _ _ _ _ _ hall
    · rw [hr]
      exact hform.method
    · rw [hr]
      exact hform.protocol
    · rw [hr]
      exact hform.path_nonempty
    · rw [hr]
      exact hform.path_no_space
    · rw [hr]
      exact hform.path_no_crlf
  refine ⟨hall, _, _, parseHeader_of_form col _ hform', hform'.parseBody _, ?_⟩
  rw [hr]
  rfl

/-- A name that does not start with an ASCII byte grows whenever it is read,
so no map with one is read back as it was. -/
theorem RoundTrips.head_ne (hform : RequestForm s method path protocol lines rest)
    (hr : r = { reqInit h2 with
      method, path, protocol, headers := lines.foldl enter ∅, body := rest })
    (hback : RoundTrips col h2 r) (hkey : r.headers.lookup key = some value) :
    key.head? ≠ some 0xEF := by
  obtain ⟨order, hord⟩ := exists_iterates r.headers
  obtain ⟨hall, r', r'', hh, hb, he⟩ := byteRow_parsed col hform hr hord
  obtain ⟨q', q'', hh', hb', -, -, -, hsame, -⟩ := hback order hord
  obtain ⟨rfl, -⟩ := Prod.mk.inj (Option.some.inj (hh.symm.trans hh'))
  obtain rfl := Option.some.inj (hb.symm.trans hb')
  have hlookup : ∀ key, r.headers.lookup key = lastValue (order.map rowLine) key := by
    intro key
    rw [← hsame, he]
    show ((order.map rowLine).foldl enter ∅).lookup key = _
    rw [lookup_foldl_enter, Finmap.lookup_empty, Option.or_none]
  -- with every key the map holds the key normalised once more
  have hnext : ∀ kv ∈ order, ∃ value, (normalise kv.1, value) ∈ order := by
    rintro ⟨k, v⟩ hkv
    have hk : headerKey (rowLine (k, v)) = normalise k := headerKey_rowLine (hall _ hkv)
    have hsome : (lastValue (order.map rowLine) (normalise k)).isSome := by
      rw [lastValue, Option.isSome_map, List.find?_isSome]
      exact ⟨rowLine (k, v), by simpa using ⟨k, v, hkv, rfl⟩, by simpa using hk⟩
    obtain ⟨value, hvalue⟩ := Option.isSome_iff_exists.mp hsome
    exact ⟨value, (hord.mem_iff _ _).mpr ((hlookup _).trans hvalue)⟩
  intro hhead
  -- so it holds longer and longer ones
  have hlong : ∀ n, ∃ kv ∈ order, kv.1.head? = some 0xEF ∧ n ≤ kv.1.length := by
    intro n
    induction n with
    | zero => exact ⟨(key, value), (hord.mem_iff key value).mpr hkey, hhead, Nat.zero_le _⟩
    | succ n ih =>
        obtain ⟨⟨k, v⟩, hkv, hk, hn⟩ := ih
        obtain ⟨v', hkv'⟩ := hnext _ hkv
        rcases k with - | ⟨c, k⟩
        · cases hk
        · obtain rfl := Option.some.inj hk
          have hnorm : normalise (0xEF :: k) = 0xEF :: 0xBF :: 0xBD :: k :=
            normalise_other (by decide)
          refine ⟨(_, v'), hkv', ?_, ?_⟩
          · show (normalise (0xEF :: k)).head? = _
            rw [hnorm]
            rfl
          · show n + 1 ≤ (normalise (0xEF :: k)).length
            rw [hnorm]
            simp only [List.length_cons] at hn ⊢
            omega
  obtain ⟨kv, hkv, -, hlen⟩ := hlong ((order.map fun kv => kv.1.length).sum + 1)
  have hle : kv.1.length ≤ (order.map fun kv => kv.1.length).sum :=
    List.single_le_sum (by simp) _ (List.mem_map_of_mem hkv)
  omega

/-- **When a request survives being written and read.**  Let a fresh request
object accept `s`.  Written by `ByteRow` and parsed again it is the same
request, for every order of its headers, iff the header names of `s` start
with ASCII bytes. -/
theorem byteRow_roundTrips_iff (h : (reqInit h2).parseHeader col s = some (r, .requestOk))
    (hb : r.parseBody s = some r₁) : RoundTrips col h2 r₁ ↔ AsciiNames s := by
  obtain ⟨method, path, protocol, lines, rest, hform⟩ := form_of_parseHeader h
  have hparsed := parseHeader_of_form col (reqInit h2) hform
  rw [h] at hparsed
  obtain ⟨rfl, -⟩ := Prod.mk.inj (Option.some.inj hparsed)
  have hr : r₁ = { reqInit h2 with
      method, path, protocol, headers := lines.foldl enter ∅, body := rest } := by
    rw [hform.parseBody] at hb
    exact (Option.some.inj hb).symm
  have hlookup : ∀ key, r₁.headers.lookup key = lastValue lines key := by
    intro key
    rw [hr]
    show (lines.foldl enter ∅).lookup key = _
    rw [lookup_foldl_enter, Finmap.lookup_empty, Option.or_none]
  rw [AsciiNames, hform.readLines]
  constructor
  · intro hback line hl c hc
    by_contra hge
    obtain ⟨name, hname⟩ := List.head?_eq_some_iff.mp hc
    have hkey : headerKey line = 0xEF :: 0xBF :: 0xBD :: name := by
      rw [headerKey, hname, normalise_other (UInt8.not_lt.mp hge)]
    -- some line with this key is the last one
    have hsome : (lastValue lines (headerKey line)).isSome := by
      rw [lastValue, Option.isSome_map, List.find?_isSome]
      exact ⟨line, List.mem_reverse.mpr hl, by simp⟩
    obtain ⟨value, hvalue⟩ := Option.isSome_iff_exists.mp hsome
    refine RoundTrips.head_ne hform hr hback ((hlookup _).trans hvalue) ?_
    rw [hkey]
    rfl
  · intro hascii order hord
    obtain ⟨hall, r', r'', hh, hbody, he⟩ := byteRow_parsed col hform hr hord
    have hfix : ∀ kv ∈ order, normalise kv.1 = kv.1 := by
      rintro ⟨key, value⟩ hkv
      have hv := (hord.mem_iff key value).mp hkv
      rw [hlookup] at hv
      obtain ⟨-, line, hl, rfl⟩ := hform.entry hv
      obtain ⟨c, name, hname⟩ := List.exists_cons_of_ne_nil (hform.lines line hl).name
      obtain ⟨d, hd, hd'⟩ := normalise_ascii name
        (hascii line hl c (by rw [hname]; rfl))
      show normalise (headerKey line) = headerKey line
      rw [headerKey, hname, hd, hd']
    have hheaders : r''.headers = r₁.headers := by
      apply Finmap.ext_lookup
      intro key
      apply Option.ext
      intro value
      rw [he]
      show ((order.map rowLine).foldl enter ∅).lookup key = some value ↔ _
      rw [lookup_foldl_enter, Finmap.lookup_empty, Option.or_none,
        lastValue_rowLines hall hfix hord.once, hord.mem_iff]
    exact ⟨r', r'', hh, hbody, by rw [he], by rw [he], by rw [he], hheaders, by rw [he]⟩

/-- A header in lower case comes back under its normalised name. -/
theorem byteRow_roundTrips_host : ∃ r r₁,
    (reqInit false).parseHeader .mem (bytes "GET / HTTP/1.1\r\nhost: a:b\r\n\r\nrest")
      = some (r, .requestOk) ∧
    r.parseBody (bytes "GET / HTTP/1.1\r\nhost: a:b\r\n\r\nrest") = some r₁ ∧
    RoundTrips .mem false r₁ := by
  have hform : RequestForm (bytes "GET / HTTP/1.1\r\nhost: a:b\r\n\r\nrest")
      (bytes "GET") (bytes "/") (bytes "HTTP/1.1") [bytes "host: a:b"] (bytes "rest") := by
    decide
  have hh := parseHeader_of_form .mem (reqInit false) hform
  have hb := hform.parseBody { reqInit false with
    method := bytes "GET", path := bytes "/", protocol := bytes "HTTP/1.1"
    headers := [bytes "host: a:b"].foldl enter ∅ }
  refine ⟨_, _, hh, hb, (byteRow_roundTrips_iff hh hb).mpr ?_⟩
  intro line hl c hc
  rw [hform.readLines, List.mem_singleton] at hl
  subst hl
  obtain rfl : 0x68 = c := Option.some.inj hc
  decide

/-- The header name `é` in UTF-8 does not come back. -/
theorem byteRow_changes_name : ∃ r r₁,
    (reqInit false).parseHeader .mem
      (bytes "GET / HTTP/1.1\r\n" ++ [0xC3, 0xA9] ++ bytes ": x\r\n\r\n")
      = some (r, .requestOk) ∧
    r.parseBody (bytes "GET / HTTP/1.1\r\n" ++ [0xC3, 0xA9] ++ bytes ": x\r\n\r\n") = some r₁ ∧
    ¬ RoundTrips .mem false r₁ := by
  have hform : RequestForm
      (bytes "GET / HTTP/1.1\r\n" ++ [0xC3, 0xA9] ++ bytes ": x\r\n\r\n")
      (bytes "GET") (bytes "/") (bytes "HTTP/1.1") [[0xC3, 0xA9] ++ bytes ": x"] [] := by
    decide
  refine ⟨_, _, parseHeader_of_form .mem (reqInit false) hform, hform.parseBody _, ?_⟩
  intro hback
  have hkey : ([[0xC3, 0xA9] ++ bytes ": x"].foldl enter ∅).lookup [0xEF, 0xBF, 0xBD, 0xA9]
      = some (bytes "x") := by
    rw [lookup_foldl_enter]
    decide
  exact RoundTrips.head_ne hform rfl hback hkey rfl

end DmfServer
