import Codec.Binary

/-!
# The string readers (`part_003`)

`ReadUntilNullOrEOF(r)` reads the bytes before a zero byte or the end of the stream, one byte at
a time: through `ReadByte` when `r` is an `io.ByteReader`, through one-byte `Read`s otherwise.
`ReadUTF16StringUntilNull(r)` reads two-byte code units, in the order a byte-order mark gives, up
to a zero unit or the end, and decodes them with a loop of its own.

Both are held to what they are for, stated on the bytes the reader delivers:

* `readUntilNullOrEOF_paths_agree`: over any reader that only ever ends, whatever its chunking,
  each path returns the bytes before the first zero (`beforeNull`) and consumes them and the zero
  (`afterNull`), so the two paths agree;
* `readUTF16StringUntilNull_spec`: over any such reader the UTF-16 reader returns the UTF-8 of
  `unicode/utf16.Decode` (`utf16Decode`, `runesString`) of the units `utf16Spec` picks out, and
  the bytes those took. Its decoding loop is `utf16Decode` (`decodeLoop_eq`).
-/

namespace Codec

variable {σ σ' : Type}

/-! ## ReadUntilNullOrEOF -/

/-- The `io.ByteReader` loop of `ReadUntilNullOrEOF`: `ReadByte` until it fails or returns `0`,
collecting the other bytes in `str`; `io.EOF` ends it cleanly. -/
def nullByteLoop (readByte : σ → (UInt8 × Option GoErr) × σ) : Nat → List UInt8 → σ →
    (List UInt8 × Option GoErr) × σ
  | 0, str, s => ((str, none), s)
  | fuel + 1, str, s =>
    let o := readByte s
    match o.1.2 with
    | some e => ((str, if e = .eof then none else some e), o.2)
    | none => if o.1.1 = 0 then ((str, none), o.2) else nullByteLoop readByte fuel (str ++ [o.1.1]) o.2

/-- The fallback loop of `ReadUntilNullOrEOF`: `Read` into a one-byte slice; a byte that arrived
is looked at before the error that came with it. -/
def nullReadLoop (r : IoReader σ) : Nat → List UInt8 → σ → (List UInt8 × Option GoErr) × σ
  | 0, str, s => ((str, none), s)
  | fuel + 1, str, s =>
    let g := r.read 1 s
    if g.1.bytes.head? = some 0 then ((str, none), g.2)
    else
      let str := str ++ g.1.bytes.take 1
      match g.1.err with
      | none => nullReadLoop r fuel str g.2
      | some e => ((str, if e = .eof then none else some e), g.2)

/-- Go's `ReadUntilNullOrEOF(r)`: the bytes (nil on an error), their number, and the error.
`byteReader` is `r`'s `ReadByte` when `r` is an `io.ByteReader`; `fuel` bounds the rounds of Go's
unbounded loops. -/
def readUntilNullOrEOF (r : IoReader σ) (byteReader : Option (σ → (UInt8 × Option GoErr) × σ))
    (fuel : Nat) (s : σ) : (List UInt8 × Int × Option GoErr) × σ :=
  let o := match byteReader with
    | some readByte => nullByteLoop readByte fuel [] s
    | none => nullReadLoop r fuel [] s
  ((if o.1.2 = none then o.1.1 else [], o.1.1.length, o.1.2), o.2)

/-- The bytes of `data` before its first zero; all of them if there is none. -/
def beforeNull (data : List UInt8) : List UInt8 := data.takeWhile (· != 0)

/-- What is left of `data` once the bytes before its first zero, and the zero, are taken. -/
def afterNull (data : List UInt8) : List UInt8 := data.drop ((beforeNull data).length + 1)

@[simp] theorem beforeNull_nil : beforeNull [] = [] := rfl

@[simp] theorem afterNull_nil : afterNull [] = [] := rfl

theorem beforeNull_cons (b : UInt8) (rest : List UInt8) :
    beforeNull (b :: rest) = if b = 0 then [] else b :: beforeNull rest := by
  by_cases hb : b = 0 <;> simp [beforeNull, List.takeWhile_cons, hb]

theorem afterNull_cons (b : UInt8) (rest : List UInt8) :
    afterNull (b :: rest) = if b = 0 then rest else afterNull rest := by
  by_cases hb : b = 0 <;> simp [afterNull, beforeNull_cons, hb]

section UntilNull

variable {view : σ → List UInt8}

/-- **The `ReadByte` loop** returns the bytes before the first zero and consumes them and the
zero, given more rounds than there are bytes. -/
theorem nullByteLoop_spec {readByte : σ → (UInt8 × Option GoErr) × σ}
    (h : ByteDelivers readByte view) :
    ∀ fuel str s, (view s).length < fuel →
      (nullByteLoop readByte fuel str s).1 = (str ++ beforeNull (view s), none) ∧
        view (nullByteLoop readByte fuel str s).2 = afterNull (view s)
  | 0, _, _, hf => absurd hf (Nat.not_lt_zero _)
  | fuel + 1, str, s, hf => by
    cases hv : view s with
    | nil =>
      obtain ⟨e1, e2⟩ := h.at_end s hv
      simp [nullByteLoop, e1, e2]
    | cons b rest =>
      obtain ⟨e1, e2⟩ := h.next s b rest hv
      by_cases hb : b = 0
      · simp [nullByteLoop, e1, e2, hb, beforeNull_cons, afterNull_cons]
      · obtain ⟨ih1, ih2⟩ := nullByteLoop_spec h fuel (str ++ [b]) (readByte s).2
          (by rw [e2]; rw [hv, List.length_cons] at hf; omega)
        simp only [nullByteLoop, e1, if_neg hb, ih1, ih2, e2, beforeNull_cons, afterNull_cons,
          List.append_assoc, List.singleton_append, and_self]

/-- One `Read` of a byte from a reader that only ever ends: at the end, nothing and `io.EOF`;
otherwise the next byte, with no error or with `io.EOF` when it was the last. -/
theorem IoReader.Delivers.read_one {r : IoReader σ} (h : r.Delivers view) (hc : r.Clean) (s : σ) :
    (view s = [] ∧ (r.read 1 s).1 = ⟨[], some .eof⟩ ∧ view (r.read 1 s).2 = []) ∨
      ∃ b rest, view s = b :: rest ∧ (r.read 1 s).1.bytes = [b] ∧ view (r.read 1 s).2 = rest ∧
        ((r.read 1 s).1.err = none ∨ (r.read 1 s).1.err = some .eof ∧ rest = []) := by
  obtain ⟨j, hj1, hjv, hb, hv⟩ := h.read_spec 1 s
  have eof_end : (r.read 1 s).1.err = some .eof → view (r.read 1 s).2 = [] := h.eof_at_end 1 s
  cases hs : view s with
  | nil =>
    have hbn : (r.read 1 s).1.bytes = [] := by rw [hb, hs, List.take_nil]
    have he := (hc 1 s).resolve_left (h.progress 1 s Nat.one_pos hbn)
    exact .inl ⟨rfl, by rw [← hbn, ← he], by rw [hv, hs, List.drop_nil]⟩
  | cons b rest =>
    rw [hs] at hb hv hjv
    rcases Nat.lt_or_ge j 1 with hj0 | hj1'
    · -- no byte handed over: then an error came, `io.EOF`, at a point where bytes remain
      have hbn : (r.read 1 s).1.bytes = [] := by rw [hb]; simp [show j = 0 by omega]
      have he := (hc 1 s).resolve_left (h.progress 1 s Nat.one_pos hbn)
      have := eof_end he
      rw [hv, show j = 0 by omega] at this
      simp at this
    · have hj : j = 1 := by omega
      subst hj
      refine .inr ⟨b, rest, rfl, by simp [hb], by simp [hv], ?_⟩
      rcases hc 1 s with he | he
      · exact .inl he
      · exact .inr ⟨he, by simpa [hv] using eof_end he⟩

/-- **The one-byte `Read` loop** returns the bytes before the first zero and consumes them and the
zero, whatever the chunking, given more rounds than there are bytes. -/
theorem nullReadLoop_spec {r : IoReader σ} (h : r.Delivers view) (hc : r.Clean) :
    ∀ fuel str s, (view s).length < fuel →
      (nullReadLoop r fuel str s).1 = (str ++ beforeNull (view s), none) ∧
        view (nullReadLoop r fuel str s).2 = afterNull (view s)
  | 0, _, _, hf => absurd hf (Nat.not_lt_zero _)
  | fuel + 1, str, s, hf => by
    rcases h.read_one hc s with ⟨hv, hg, hv'⟩ | ⟨b, rest, hv, hb, hv', herr⟩
    · simp [nullReadLoop, hg, hv, hv']
    · by_cases h0 : b = 0
      · simp [nullReadLoop, hb, hv, hv', h0, beforeNull_cons, afterNull_cons]
      · rcases herr with he | ⟨he, rfl⟩
        · obtain ⟨ih1, ih2⟩ := nullReadLoop_spec h hc fuel (str ++ [b]) (r.read 1 s).2
            (by rw [hv']; rw [hv, List.length_cons] at hf; omega)
          rw [hv'] at ih1 ih2
          have hb1 : [b].take 1 = [b] := rfl
          simp only [nullReadLoop, hb, List.head?_cons, Option.some.injEq, h0, if_false, hb1, he,
            ih1, ih2, hv, beforeNull_cons, afterNull_cons, List.append_assoc,
            List.singleton_append, and_self]
        · simp [nullReadLoop, hb, hv, hv', h0, he, beforeNull_cons, afterNull_cons]

end UntilNull

/-- **The two paths of ReadUntilNullOrEOF agree.** Over a reader that only ever ends, in any
chunking, the one-byte `Read` path returns the bytes before the first zero (all of them if there
is none), their number and no error, and consumes exactly them and the zero; over any
`io.ByteReader` of the same bytes the `ReadByte` path returns the same and consumes the same. -/
theorem readUntilNullOrEOF_paths_agree {r : IoReader σ} {view : σ → List UInt8}
    (h : r.Delivers view) (hc : r.Clean) (r' : IoReader σ')
    {readByte : σ' → (UInt8 × Option GoErr) × σ'} {view' : σ' → List UInt8}
    (hb : ByteDelivers readByte view') (s : σ) (s' : σ') (hs : view' s' = view s) (fuel : Nat)
    (hf : (view s).length < fuel) :
    (readUntilNullOrEOF r none fuel s).1 =
        (beforeNull (view s), ((beforeNull (view s)).length : Int), none) ∧
      view (readUntilNullOrEOF r none fuel s).2 = afterNull (view s) ∧
      (readUntilNullOrEOF r' (some readByte) fuel s').1 = (readUntilNullOrEOF r none fuel s).1 ∧
      view' (readUntilNullOrEOF r' (some readByte) fuel s').2 = afterNull (view s) := by
  obtain ⟨e1, e2⟩ := nullReadLoop_spec h hc fuel [] s hf
  obtain ⟨b1, b2⟩ := nullByteLoop_spec hb fuel [] s' (by rwa [hs])
  simp only [readUntilNullOrEOF, e1, e2, b1, b2, hs, List.nil_append, if_true, and_self]

/-- The bytes `hi`, a zero and `!` through a byte-slice reader, both ways. -/
theorem readUntilNullOrEOF_paths_agree_hi :
    BytesReader.Valid.reader.Delivers BytesReader.Valid.rest ∧
      BytesReader.Valid.reader.Clean ∧
      ByteDelivers BytesReader.Valid.readByte BytesReader.Valid.rest ∧
      (readUntilNullOrEOF BytesReader.Valid.reader none 5 (BytesReader.Valid.new [104, 105, 0, 33])).1 =
          (beforeNull (BytesReader.Valid.new [104, 105, 0, 33]).rest,
            ((beforeNull (BytesReader.Valid.new [104, 105, 0, 33]).rest).length : Int), none) ∧
        (readUntilNullOrEOF BytesReader.Valid.reader none 5
            (BytesReader.Valid.new [104, 105, 0, 33])).2.rest =
          afterNull (BytesReader.Valid.new [104, 105, 0, 33]).rest ∧
        (readUntilNullOrEOF BytesReader.Valid.reader (some BytesReader.Valid.readByte) 5
            (BytesReader.Valid.new [104, 105, 0, 33])).1 =
          (readUntilNullOrEOF BytesReader.Valid.reader none 5
            (BytesReader.Valid.new [104, 105, 0, 33])).1 ∧
        (readUntilNullOrEOF BytesReader.Valid.reader (some BytesReader.Valid.readByte) 5
            (BytesReader.Valid.new [104, 105, 0, 33])).2.rest =
          afterNull (BytesReader.Valid.new [104, 105, 0, 33]).rest :=
  ⟨BytesReader.Valid.delivers, BytesReader.Valid.clean, BytesReader.Valid.byteDelivers,
    readUntilNullOrEOF_paths_agree BytesReader.Valid.delivers BytesReader.Valid.clean
      BytesReader.Valid.reader BytesReader.Valid.byteDelivers _ _ rfl 5 (by decide)⟩

/-! ## ReadUTF16StringUntilNull -/

/-- The 16-bit code unit two bytes spell in `order`: Go's `order.Uint16(p)`. -/
def word16 (order : ByteOrder) (p : List UInt8) : UInt16 := UInt16.ofNat (order.get p)

/-- The word loop of `ReadUTF16StringUntilNull`: `io.ReadFull` of two bytes, counting in `n` what
arrived; a whole word ends the loop when it is zero and is kept otherwise; `io.EOF` and
`io.ErrUnexpectedEOF` end it cleanly, any other error is returned. -/
def wordLoop (r : IoReader σ) (order : ByteOrder) : Nat → Int → List UInt16 → σ →
    (List UInt16 × Int × Option GoErr) × σ
  | 0, n, words, s => ((words, n, none), s)
  | fuel + 1, n, words, s =>
    let g := r.readFull 2 s
    let n := n + g.1.bytes.length
    if g.1.bytes.length = 2 ∧ word16 order g.1.bytes = 0 then ((words, n, none), g.2)
    else
      let words := if g.1.bytes.length = 2 then words ++ [word16 order g.1.bytes] else words
      match g.1.err with
      | none => wordLoop r order fuel n words g.2
      | some e => ((words, n, if e = .eof ∨ e = .unexpectedEOF then none else some e), g.2)

/-- The decoding loop of `ReadUTF16StringUntilNull` over `words`, from index `i`, with `fuel`
rounds (`len(words)` are enough): a high surrogate followed by a low one makes one rune, and the
loop steps over the low one; any other surrogate makes `U+FFFD`. Runes are their code points. -/
def decodeLoop (words : List UInt16) : Nat → Nat → List Nat
  | 0, _ => []
  | fuel + 1, i =>
    if i < words.length then
      let w1 := words.getD i 0
      if 0xD800 ≤ w1 ∧ w1 ≤ 0xDBFF then
        let w2 := words.getD (i + 1) 0
        if i + 1 < words.length ∧ 0xDC00 ≤ w2 ∧ w2 ≤ 0xDFFF then
          (0x10000 + ((w1 - 0xD800).toNat <<< 10 ||| (w2 - 0xDC00).toNat)) ::
            decodeLoop words fuel (i + 2)
        else 0xFFFD :: decodeLoop words fuel (i + 1)
      else if 0xDC00 ≤ w1 ∧ w1 ≤ 0xDFFF then 0xFFFD :: decodeLoop words fuel (i + 1)
      else w1.toNat :: decodeLoop words fuel (i + 1)
    else []

/-- Go's `utf8.EncodeRune` as `string(runes)` applies it to each rune: one to four bytes, and the
three of `U+FFFD` for a surrogate or a value above `U+10FFFF`. -/
def encodeRune (r : Nat) : List UInt8 :=
  if r ≤ 0x7F then [UInt8.ofNat r]
  else if r ≤ 0x7FF then [UInt8.ofNat (0xC0 ||| r >>> 6), UInt8.ofNat (0x80 ||| r &&& 0x3F)]
  else if r < 0xD800 ∨ 0xDFFF < r ∧ r ≤ 0xFFFF then
    [UInt8.ofNat (0xE0 ||| r >>> 12), UInt8.ofNat (0x80 ||| (r >>> 6) &&& 0x3F),
      UInt8.ofNat (0x80 ||| r &&& 0x3F)]
  else if 0x10FFFF < r ∨ 0xD800 ≤ r ∧ r ≤ 0xDFFF then [0xEF, 0xBF, 0xBD]
  else
    [UInt8.ofNat (0xF0 ||| r >>> 18), UInt8.ofNat (0x80 ||| (r >>> 12) &&& 0x3F),
      UInt8.ofNat (0x80 ||| (r >>> 6) &&& 0x3F), UInt8.ofNat (0x80 ||| r &&& 0x3F)]

/-- Go's `string(runes)`: the UTF-8 bytes of the runes, one after another. -/
def runesString (runes : List Nat) : List UInt8 := runes.flatMap encodeRune

/-- Go's `ReadUTF16StringUntilNull(r)`: the UTF-8 bytes of the string, the bytes read, and the
error. The first two bytes are a byte-order mark, or the first unit of a little-endian string;
`fuel` bounds the rounds of the word loop. -/
def readUTF16StringUntilNull (r : IoReader σ) (fuel : Nat) (s : σ) :
    (List UInt8 × Int × Option GoErr) × σ :=
  let g := r.readFull 2 s
  let bytesRead : Int := g.1.bytes.length
  match g.1.err with
  | some e => (([], bytesRead, if e = .eof ∨ e = .unexpectedEOF then none else some e), g.2)
  | none =>
    let p := g.1.bytes
    let start : Option (ByteOrder × List UInt16) :=
      if p = [0xFE, 0xFF] then some (.bigEndian, [])
      else if p = [0xFF, 0xFE] then some (.littleEndian, [])
      else if word16 .littleEndian p = 0 then none
      else some (.littleEndian, [word16 .littleEndian p])
    match start with
    | none => (([], bytesRead, none), g.2)
    | some (order, words) =>
      let o := wordLoop r order fuel bytesRead words g.2
      match o.1.2.2 with
      | some e => (([], o.1.2.1, some e), o.2)
      | none => ((runesString (decodeLoop o.1.1 o.1.1.length 0), o.1.2.1, none), o.2)

/-! ### The reference: `unicode/utf16.Decode` -/

/-- Go's `utf16.DecodeRune` of a high and a low surrogate. -/
def decodeRune (r1 r2 : Nat) : Nat := ((r1 - 0xD800) <<< 10 ||| (r2 - 0xDC00)) + 0x10000

/-- Go's `unicode/utf16.Decode`: a high surrogate followed by a low one is one rune, every other
surrogate is `U+FFFD`, and every other unit is its own rune. -/
def utf16Decode : List UInt16 → List Nat
  | [] => []
  | [u] => [if u < 0xD800 ∨ 0xE000 ≤ u then u.toNat else 0xFFFD]
  | u :: u2 :: rest =>
    if u < 0xD800 ∨ 0xE000 ≤ u then u.toNat :: utf16Decode (u2 :: rest)
    else if u < 0xDC00 ∧ 0xDC00 ≤ u2 ∧ u2 < 0xE000 then
      decodeRune u.toNat u2.toNat :: utf16Decode rest
    else 0xFFFD :: utf16Decode (u2 :: rest)

/-- The code units of `data` in `order`, two bytes each, up to the first zero unit or the end,
and the bytes they take: the zero unit's two, and a last odd byte, count too. -/
def utf16Units (order : ByteOrder) : List UInt8 → List UInt16 × Nat
  | b0 :: b1 :: rest =>
    if word16 order [b0, b1] = 0 then ([], 2)
    else (word16 order [b0, b1] :: (utf16Units order rest).1, (utf16Units order rest).2 + 2)
  | data => ([], data.length)

/-- What a UTF-16 string read from `data` should give: big-endian after `FE FF` and
little-endian otherwise; the mark dropped when it is `FE FF` or `FF FE`; the units up to the first
zero unit or the end; the UTF-8 of their `utf16.Decode`, and the bytes taken. -/
def utf16Spec (data : List UInt8) : List UInt8 × Nat :=
  let bom := data.take 2 = [0xFE, 0xFF] ∨ data.take 2 = [0xFF, 0xFE]
  let order : ByteOrder := if data.take 2 = [0xFE, 0xFF] then .bigEndian else .littleEndian
  let u := utf16Units order (if bom then data.drop 2 else data)
  (runesString (utf16Decode u.1), (if bom then 2 else 0) + u.2)

/-! ### The decoding loop is `utf16.Decode` -/

theorem u16_le_iff {a b : UInt16} : a ≤ b ↔ a.toNat ≤ b.toNat := by
  simp [UInt16.le_def, BitVec.le_def, UInt16.toNat]

theorem u16_lt_iff {a b : UInt16} : a < b ↔ a.toNat < b.toNat := by
  simp [UInt16.lt_def, BitVec.lt_def, UInt16.toNat]

theorem u16_toNat_sub {a b : UInt16} (h : b ≤ a) : (a - b).toNat = a.toNat - b.toNat := by
  rw [u16_le_iff] at h
  simp only [UInt16.toNat, UInt16.sub_def, BitVec.toNat_sub] at *
  have := a.toBitVec.isLt
  omega

/-- Where a code unit falls: outside the surrogates, a high surrogate, or a low one, as the loop
and the reference each test it. -/
theorem unit_cases (u : UInt16) :
    (u < 0xD800 ∨ 0xE000 ≤ u) ∧ ¬(0xD800 ≤ u ∧ u ≤ 0xDBFF) ∧ ¬(0xDC00 ≤ u ∧ u ≤ 0xDFFF) ∨
      ¬(u < 0xD800 ∨ 0xE000 ≤ u) ∧ (0xD800 ≤ u ∧ u ≤ 0xDBFF) ∧ u < 0xDC00 ∨
      ¬(u < 0xD800 ∨ 0xE000 ≤ u) ∧ ¬(0xD800 ≤ u ∧ u ≤ 0xDBFF) ∧ (0xDC00 ≤ u ∧ u ≤ 0xDFFF) ∧
        ¬u < 0xDC00 := by
  simp only [u16_lt_iff, u16_le_iff, UInt16.reduceToNat, not_and, not_le, not_or, not_lt]
  omega

/-- The two tests of a low surrogate agree. -/
theorem low_iff (u : UInt16) : (0xDC00 ≤ u ∧ u < 0xE000) ↔ (0xDC00 ≤ u ∧ u ≤ 0xDFFF) := by
  simp only [u16_lt_iff, u16_le_iff, UInt16.reduceToNat]
  omega

/-- The loop's rune for a surrogate pair is `DecodeRune`'s. -/
theorem pair_rune {w1 w2 : UInt16} (h1 : 0xD800 ≤ w1) (h2 : 0xDC00 ≤ w2) :
    0x10000 + ((w1 - 0xD800).toNat <<< 10 ||| (w2 - 0xDC00).toNat) = decodeRune w1.toNat w2.toNat := by
  rw [u16_toNat_sub h1, u16_toNat_sub h2, decodeRune, Nat.add_comm]
  rfl

/-- **The hand-stepped decoding loop is `unicode/utf16.Decode`.** From any index, with as many
rounds as units are left, it decodes what is left as the reference does. -/
theorem decodeLoop_eq (words : List UInt16) :
    ∀ fuel i, words.length - i ≤ fuel → decodeLoop words fuel i = utf16Decode (words.drop i)
  | 0, i, hf => by
    simp [decodeLoop, utf16Decode, List.drop_eq_nil_of_le (show words.length ≤ i by omega)]
  | fuel + 1, i, hf => by
    by_cases hi : i < words.length
    · have ih1 := decodeLoop_eq words fuel (i + 1) (by omega)
      rw [List.drop_eq_getElem_cons hi]
      simp only [decodeLoop, if_pos hi, List.getD_eq_getElem _ _ hi]
      by_cases hi2 : i + 1 < words.length
      · -- a unit follows: the pair, or the unit on its own
        have ih2 := decodeLoop_eq words fuel (i + 1 + 1) (by omega)
        rw [List.drop_eq_getElem_cons hi2] at ih1 ⊢
        rw [List.getD_eq_getElem _ _ hi2]
        rcases unit_cases words[i] with ⟨n1, n2, n3⟩ | ⟨h1, h2, h3⟩ | ⟨l1, l2, l3, l4⟩
        · simp only [utf16Decode, n1, n2, n3, ih1, if_true, if_false]
        · by_cases hp : 0xDC00 ≤ words[i + 1] ∧ words[i + 1] ≤ 0xDFFF
          · have hq := (low_iff _).mpr hp
            simp only [utf16Decode, h1, h2, h3, hi2, hp, hq, pair_rune h2.1 hp.1, ih2, and_self,
              if_true, if_false]
          · have hq : ¬(0xDC00 ≤ words[i + 1] ∧ words[i + 1] < 0xE000) :=
              fun h => hp ((low_iff _).mp h)
            simp only [utf16Decode, h1, h2, h3, hi2, hp, hq, ih1, and_false, true_and, if_true,
              if_false]
        · simp only [utf16Decode, l1, l2, l3, l4, ih1, false_and, and_self, if_true, if_false]
      · -- the last unit
        rw [List.drop_eq_nil_of_le (show words.length ≤ i + 1 by omega)] at ih1 ⊢
        rcases unit_cases words[i] with ⟨n1, n2, n3⟩ | ⟨h1, h2, h3⟩ | ⟨l1, l2, l3, l4⟩
        · simp only [utf16Decode, n1, n2, n3, ih1, if_true, if_false]
        · simp only [utf16Decode, h1, h2, hi2, ih1, false_and, and_self, if_true, if_false]
        · simp only [utf16Decode, l1, l2, l3, ih1, and_self, if_true, if_false]
    · simp [decodeLoop, utf16Decode, hi, List.drop_eq_nil_of_le (show words.length ≤ i by omega)]

/-! ### Reading the units -/

section Utf16

variable {r : IoReader σ} {view : σ → List UInt8}

/-- **The word loop** over a reader that only ever ends, in any chunking, keeps the units of what
it reads up to the first zero unit or the end, and counts and consumes the bytes they take. -/
theorem wordLoop_spec (h : r.Delivers view) (hc : r.Clean) (order : ByteOrder) :
    ∀ fuel n words s, (view s).length < fuel →
      (wordLoop r order fuel n words s).1 =
          (words ++ (utf16Units order (view s)).1, n + (utf16Units order (view s)).2, none) ∧
        view (wordLoop r order fuel n words s).2 = (view s).drop (utf16Units order (view s)).2
  | 0, _, _, _, hf => absurd hf (Nat.not_lt_zero _)
  | fuel + 1, n, words, s, hf => by
    obtain ⟨g1, g2⟩ := h.readFull_clean hc 2 s
    match hv : view s with
    | [] => simp [wordLoop, g1, g2, hv, utf16Units]
    | [b] => simp [wordLoop, g1, g2, hv, utf16Units]
    | b0 :: b1 :: rest =>
      by_cases hz : word16 order [b0, b1] = 0
      · simp [wordLoop, g1, g2, hv, utf16Units, hz]
      · obtain ⟨ih1, ih2⟩ := wordLoop_spec h hc order fuel (n + 2) (words ++ [word16 order [b0, b1]])
          (r.readFull 2 s).2 (by simp only [g2, hv, List.length_drop, List.length_cons] at hf ⊢; omega)
        rw [g2, hv] at ih1 ih2
        simp only [List.drop_succ_cons, List.drop_zero] at ih1 ih2
        simp [wordLoop, g1, g2, hv, utf16Units, hz, ih1, ih2]
        omega

/-- The decoding loop run over all the words, as `ReadUTF16StringUntilNull` runs it. -/
theorem decodeLoop_full (words : List UInt16) :
    decodeLoop words words.length 0 = utf16Decode words := by
  simpa using decodeLoop_eq words words.length 0 (by simp)

/-- **ReadUTF16StringUntilNull matches the reference decoder.** Over a reader that only ever
ends, in any chunking, given more rounds than there are bytes, it returns what `utf16Spec` says:
big-endian after `FE FF` and little-endian otherwise; the mark dropped when it is `FE FF` or
`FF FE`, the first unit otherwise; the units up to the first zero unit or the end, a last odd byte
consumed and ignored; the UTF-8 of their `unicode/utf16.Decode`; and the bytes consumed,
terminator included, with no error. -/
theorem readUTF16StringUntilNull_spec (h : r.Delivers view) (hc : r.Clean) (s : σ) {fuel : Nat}
    (hf : (view s).length < fuel) :
    (readUTF16StringUntilNull r fuel s).1 =
        ((utf16Spec (view s)).1, ((utf16Spec (view s)).2 : Int), none) ∧
      view (readUTF16StringUntilNull r fuel s).2 = (view s).drop (utf16Spec (view s)).2 := by
  obtain ⟨g1, g2⟩ := h.readFull_clean hc 2 s
  match hv : view s with
  | [] => simp [readUTF16StringUntilNull, g1, g2, hv, utf16Spec, utf16Units, utf16Decode, runesString]
  | [b] => simp [readUTF16StringUntilNull, g1, g2, hv, utf16Spec, utf16Units, utf16Decode, runesString]
  | b0 :: b1 :: rest =>
    have hl : (view (r.readFull 2 s).2).length < fuel := by
      simp only [g2, hv, List.length_drop, List.length_cons] at hf ⊢; omega
    -- after the mark or the first unit, the word loop reads `rest`
    have loop := fun order n words => wordLoop_spec h hc order fuel n words _ hl
    simp only [g2, hv, List.drop_succ_cons, List.drop_zero] at loop
    have drop2 : ∀ k, (b0 :: b1 :: rest).drop (2 + k) = rest.drop k := fun k => by
      rw [Nat.add_comm]; rfl
    by_cases hbom : b0 = 0xFE ∧ b1 = 0xFF ∨ b0 = 0xFF ∧ b1 = 0xFE
    · -- a byte-order mark, big- or little-endian, and dropped
      rcases hbom with ⟨rfl, rfl⟩ | ⟨rfl, rfl⟩ <;>
        simp [readUTF16StringUntilNull, g1, g2, hv, loop, utf16Spec, decodeLoop_full, drop2]
    obtain ⟨hbe, hle⟩ := not_or.mp hbom
    by_cases hz : word16 .littleEndian [b0, b1] = 0
    · -- no mark, and the first unit is the terminator
      simp [readUTF16StringUntilNull, g1, g2, hv, hbe, hle, hz, utf16Spec, utf16Units, utf16Decode,
        runesString]
    · -- no mark: the first two bytes are the first unit
      obtain ⟨w1, w2⟩ := loop .littleEndian 2 [word16 .littleEndian [b0, b1]]
      simp [readUTF16StringUntilNull, g1, g2, hv, hbe, hle, hz, w1, w2, utf16Spec, utf16Units,
        decodeLoop_full]
      exact ⟨by rw [← List.length_cons, decodeLoop_full], by omega⟩

end Utf16

/-- `FF FE`, then `U+1F600` as the surrogate pair `D83D DE00`, little-endian, and a zero unit. -/
def grinningUtf16 : List UInt8 := [0xFF, 0xFE, 0x3D, 0xD8, 0x00, 0xDE, 0x00, 0x00]

/-- `ReadUTF16StringUntilNull` over a byte-slice reader of `grinningUtf16`. -/
theorem readUTF16StringUntilNull_spec_grinning :
    BytesReader.Valid.reader.Delivers BytesReader.Valid.rest ∧ BytesReader.Valid.reader.Clean ∧
      (BytesReader.Valid.new grinningUtf16).rest.length < 9 ∧
      (readUTF16StringUntilNull BytesReader.Valid.reader 9 (BytesReader.Valid.new grinningUtf16)).1 =
          ((utf16Spec (BytesReader.Valid.new grinningUtf16).rest).1,
            ((utf16Spec (BytesReader.Valid.new grinningUtf16).rest).2 : Int), none) ∧
        (readUTF16StringUntilNull BytesReader.Valid.reader 9
            (BytesReader.Valid.new grinningUtf16)).2.rest =
          (BytesReader.Valid.new grinningUtf16).rest.drop
            (utf16Spec (BytesReader.Valid.new grinningUtf16).rest).2 :=
  ⟨BytesReader.Valid.delivers, BytesReader.Valid.clean, by decide,
    readUTF16StringUntilNull_spec BytesReader.Valid.delivers BytesReader.Valid.clean _ (by decide)⟩

example : (readUTF16StringUntilNull BytesReader.Valid.reader 9
    (BytesReader.Valid.new grinningUtf16)).1 = ([0xF0, 0x9F, 0x98, 0x80], 8, none) := by
  decide

end Codec
