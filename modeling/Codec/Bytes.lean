import Codec.Util

/-!
# Byte-slice source and sink: `BytesReader` and `BytesWriter`

The zero-copy reader and writer over a caller's byte slice (component A of the spec).

A `BytesReader` answers every `Read` with all it has up to the size asked, so on the states a
program reaches (cursor `N ≥ 0`) it is a reader that only ever ends
(`BytesReader.delivers`, `BytesReader.clean`), and every helper proved against that contract
applies to it. A `BytesWriter` never grows: it copies the prefix of each write that fits.
-/

namespace Codec

/-! ## BytesReader -/

/-- Go's `BytesReader`: the slice `B` and the read position `N` (a Go `int`, which `Seek` may
move past the end). -/
structure BytesReader where
  b : List UInt8
  n : Int
  deriving DecidableEq, Repr

namespace BytesReader

/-- Go's `NewBytesReader(b)`. -/
def new (b : List UInt8) : BytesReader := ⟨b, 0⟩

/-- Go's `Available()`: the bytes left to read. -/
def available (r : BytesReader) : Nat := (r.b.length - r.n).toNat

/-- The bytes left to read. -/
def rest (r : BytesReader) : List UInt8 := r.b.drop r.n.toNat

/-- Go's `Read(p)` with `len(p) = k`. (For `N < 0`, where Go's `r.B[r.N:]` panics, the model
reads from the start; no state a reader reaches through `Read`, `Seek` or `Reset` has `N < 0`.) -/
def read (k : Nat) (r : BytesReader) : Got × BytesReader :=
  if (r.b.length : Int) ≤ r.n then (⟨[], some .eof⟩, r)
  else
    let bs := r.rest.take k
    (⟨bs, none⟩, { r with n := r.n + bs.length })

/-- Go's `ReadByte()`. -/
def readByte (r : BytesReader) : (UInt8 × Option GoErr) × BytesReader :=
  if (r.b.length : Int) ≤ r.n then ((0, some .eof), r)
  else ((r.rest.headD 0, none), { r with n := r.n + 1 })

/-- Go's `WriteTo(w)`. -/
def writeTo {τ : Type} (w : IoWriter τ) (r : BytesReader) (t : τ) :
    (Int × Option GoErr) × BytesReader × τ :=
  if (r.b.length : Int) ≤ r.n then ((0, none), r, t)
  else
    let o := w.write r.rest t
    if (r.b.length : Int) < o.1.n then ((o.1.n, some .invalidRead), r, o.2)
    else ((o.1.n, o.1.err), { r with n := r.n + o.1.n }, o.2)

/-- **WriteTo trusts any count up to the slice's length.** Over `[1, 2, 3]` after a `Read` of two
bytes, a writer that takes the last byte but reports `3` passes the guard `n > len(r.B)`, and `N`
moves to `5`, two bytes past what it offered; from the start, a writer reporting `-1` passes it
too and moves `N` to `-1`. -/
theorem writeTo_guard_misses :
    (((new [1, 2, 3]).read 2).2.writeTo Sink.writer ⟨[], [⟨1, some 3, none⟩]⟩).1 = (3, none) ∧
      (((new [1, 2, 3]).read 2).2.writeTo Sink.writer ⟨[], [⟨1, some 3, none⟩]⟩).2.1.n = 5 ∧
      ((new [1, 2, 3]).writeTo Sink.writer ⟨[], [⟨0, some (-1), none⟩]⟩).1 = (-1, none) ∧
      ((new [1, 2, 3]).writeTo Sink.writer ⟨[], [⟨0, some (-1), none⟩]⟩).2.1.n = -1 := by
  decide

/-- Go's `Seek(offset, whence)`. -/
def seek (offset : Int) (whence : Whence) (r : BytesReader) : (Int × Option GoErr) × BytesReader :=
  let abs? : Option Int := match whence with
    | .start => some offset
    | .current => some (r.n + offset)
    | .fromEnd => some (r.b.length + offset)
    | .other _ => none
  match abs? with
  | none => ((0, some .invalidWhence), r)
  | some abs => if abs < 0 then ((0, some .invalidSeek), r) else ((abs, none), { r with n := abs })

/-- Go's `Reset()`. -/
def reset (r : BytesReader) : BytesReader := { r with n := 0 }

/-- The reader as an `io.Reader`. -/
def reader : IoReader BytesReader := ⟨read⟩

@[simp] theorem reader_read (k : Nat) (r : BytesReader) : reader.read k r = r.read k := rfl

@[simp] theorem new_rest (b : List UInt8) : (new b).rest = b := rfl

theorem rest_eq_nil {r : BytesReader} (h : 0 ≤ r.n) : r.rest = [] ↔ (r.b.length : Int) ≤ r.n := by
  simp only [rest, List.drop_eq_nil_iff]; omega

theorem read_of_end {k : Nat} {r : BytesReader} (h : (r.b.length : Int) ≤ r.n) :
    r.read k = (⟨[], some .eof⟩, r) := by
  simp [read, h]

theorem read_of_lt {k : Nat} {r : BytesReader} (h : r.n < r.b.length) :
    r.read k = (⟨r.rest.take k, none⟩, { r with n := r.n + (r.rest.take k).length }) := by
  simp [read, not_le.mpr h]

/-- A read never moves the cursor below where it was. -/
theorem read_n_ge (k : Nat) (r : BytesReader) : r.n ≤ (r.read k).2.n := by
  unfold read; split
  · exact le_refl _
  · simp only; omega

/-- **Spec of a read.** A reader with its cursor in range hands over all it has up to `k` bytes,
with no error, and reports `io.EOF` once nothing is left. -/
theorem read_spec (k : Nat) {r : BytesReader} (h : 0 ≤ r.n) :
    (r.read k).1 = ⟨r.rest.take k, if r.rest = [] then some .eof else none⟩ ∧
      (r.read k).2.rest = r.rest.drop k := by
  by_cases he : (r.b.length : Int) ≤ r.n
  · have hr := (rest_eq_nil h).mpr he
    simp [read_of_end he, hr]
  · have hr : r.rest ≠ [] := fun hr => he ((rest_eq_nil h).mp hr)
    rw [read_of_lt (not_le.mp he)]
    refine ⟨by simp [hr], ?_⟩
    simp only [rest, List.length_take, List.length_drop, List.drop_drop]
    by_cases hk : k ≤ r.b.length - r.n.toNat
    · congr 1; omega
    · rw [List.drop_eq_nil_of_le (by omega), List.drop_eq_nil_of_le (by omega)]

/-- `ReadByte` never moves the cursor below where it was. -/
theorem readByte_n_ge (r : BytesReader) : r.n ≤ r.readByte.2.n := by
  unfold readByte; split
  · exact le_refl _
  · simp only; omega

end BytesReader

/-- A `BytesReader` whose cursor has not gone below zero: every reader `NewBytesReader`,
`Seek` and `Reset` produce. -/
def BytesReader.Valid : Type := { r : BytesReader // 0 ≤ r.n }

namespace BytesReader.Valid

/-- The reader as an `io.Reader` over the states it can reach. -/
def reader : IoReader BytesReader.Valid :=
  ⟨fun k r => ((r.1.read k).1, ⟨(r.1.read k).2, Int.le_trans r.2 (BytesReader.read_n_ge k r.1)⟩)⟩

/-- The bytes left to read. -/
def rest (r : BytesReader.Valid) : List UInt8 := r.1.rest

/-- Go's `NewBytesReader(b)`. -/
def new (b : List UInt8) : BytesReader.Valid := ⟨BytesReader.new b, Int.le_refl 0⟩

@[simp] theorem new_rest (b : List UInt8) : (new b).rest = b := rfl

theorem read_spec (k : Nat) (r : BytesReader.Valid) :
    (reader.read k r).1 = ⟨r.rest.take k, if r.rest = [] then some .eof else none⟩ ∧
      (reader.read k r).2.rest = r.rest.drop k :=
  BytesReader.read_spec k r.2

/-- **A byte-slice reader is a well-behaved reader of what it has left.** -/
theorem delivers : reader.Delivers rest where
  append k r := by rw [(read_spec k r).1, (read_spec k r).2]; exact List.take_append_drop _ _
  length_le k r := by rw [(read_spec k r).1]; exact List.length_take_le _ _
  progress k r hk hb := by
    rw [(read_spec k r).1] at hb ⊢
    simp only [List.take_eq_nil_iff] at hb
    rcases hb with hb | hb
    · omega
    · simp [hb]
  eof_at_end k r he := by
    rw [(read_spec k r).2]
    rw [(read_spec k r).1] at he
    by_cases hr : r.rest = [] <;> simp_all

/-- Go's `ReadByte()` over the states the reader can reach. -/
def readByte (r : BytesReader.Valid) : (UInt8 × Option GoErr) × BytesReader.Valid :=
  (r.1.readByte.1, ⟨r.1.readByte.2, Int.le_trans r.2 (BytesReader.readByte_n_ge r.1)⟩)

/-- **A byte-slice reader is an `io.ByteReader` of what it has left.** -/
theorem byteDelivers : ByteDelivers readByte rest where
  next r b rest' hr := by
    have hlt : r.1.n < r.1.b.length := by
      have := (BytesReader.rest_eq_nil r.2).not.mp (by simp [rest] at hr; simp [hr]); omega
    have hn : (r.1.n + 1).toNat = r.1.n.toNat + 1 := by have := r.2; omega
    simp only [readByte, BytesReader.readByte, if_neg (not_le.mpr hlt)]
    refine ⟨by simp [show r.1.rest = b :: rest' from hr], ?_⟩
    simp only [rest, BytesReader.rest, hn, ← List.drop_drop]
    simp [show r.1.b.drop r.1.n.toNat = b :: rest' from hr]
  at_end r hr := by
    have he := (BytesReader.rest_eq_nil r.2).mp hr
    simp [readByte, BytesReader.readByte, he, hr]

/-- A byte-slice reader never fails: its only error is `io.EOF`. -/
theorem clean : reader.Clean := by
  intro k r
  rw [(read_spec k r).1]
  by_cases hr : r.rest = [] <;> simp [hr]

/-- A byte-slice reader hands over all that is asked for while it has it. -/
theorem fills : reader.Fills rest := fun k r => by rw [(read_spec k r).1]

/-- A seek either fails and leaves the reader alone, or succeeds with a non-negative offset and
puts the cursor there. -/
theorem seek_cases (offset : Int) (whence : Whence) (r : BytesReader) :
    ((r.seek offset whence).1.2 ≠ none ∧ (r.seek offset whence).2 = r) ∨
      ((r.seek offset whence).1.2 = none ∧ 0 ≤ (r.seek offset whence).1.1 ∧
        (r.seek offset whence).2 = { r with n := (r.seek offset whence).1.1 }) := by
  cases whence <;> simp only [seek] <;> (try split_ifs) <;> simp <;> omega

/-- The reader as an `io.ReadSeeker` over the states it can reach. -/
def readSeeker : IoReadSeeker BytesReader.Valid where
  read := reader.read
  seek off wh r := ((r.1.seek off wh).1, ⟨(r.1.seek off wh).2, by
    rcases seek_cases off wh r.1 with ⟨-, h⟩ | ⟨-, h0, h⟩ <;> rw [h]
    exacts [r.2, h0]⟩)

/-- **A byte-slice reader is a read-seeker over its slice.** -/
theorem over : readSeeker.Over (fun r => r.1.b) rest where
  delivers := delivers
  clean := clean
  seek_ok off wh r h := by
    rcases seek_cases off wh r.1 with ⟨hn, -⟩ | ⟨-, h0, hr⟩
    · exact absurd h hn
    · refine ⟨h0, ?_⟩
      show (r.1.seek off wh).2.rest = _
      rw [hr]; rfl

end BytesReader.Valid

/-! ## CheckTrailingNotZeros -/

/-- The first non-zero byte of `bs` and its offset, counting from `i`: the loop of
`CheckTrailingNotZeros`. -/
def firstNonZero : List UInt8 → Nat → Option (UInt8 × Nat)
  | [], _ => none
  | b :: bs, i => if b ≠ 0 then some (b, i) else firstNonZero bs (i + 1)

theorem firstNonZero_eq_none (bs : List UInt8) (i : Nat) :
    firstNonZero bs i = none ↔ ∀ b ∈ bs, b = 0 := by
  induction bs generalizing i with
  | nil => simp [firstNonZero]
  | cons b bs ih => by_cases hb : b = 0 <;> simp [firstNonZero, hb, ih]

/-- The part of Go's `CheckTrailingNotZeros(r)` past its fast path: read at most
`MAX_PADDING + 1` bytes and reject too many, or any that is not zero. -/
def trailingCheck {σ : Type} (r : IoReader σ) (s : σ) : Option GoErr × σ :=
  let g := r.limit.readAll (maxPadding + 2) (s, maxPadding + 1)
  (match g.1.err with
    | some e => some e
    | none =>
      if maxPadding < g.1.bytes.length then some (.detail .trailingData [maxPadding])
      else match firstNonZero g.1.bytes 0 with
        | some (b, i) => some (.detail .trailingData [b.toNat, i])
        | none => none, g.2.1)

/-- Go's `CheckTrailingNotZeros(r)` for a `BytesReader`, which takes the fast path when nothing is
left. -/
def checkTrailingNotZeros (r : BytesReader.Valid) : Option GoErr :=
  if r.1.available = 0 then none else (trailingCheck BytesReader.Valid.reader r).1

/-- **The trailing check accepts at most `MAX_PADDING` zero bytes.** On a reader that only ever
ends, it succeeds exactly when what is left is at most 1024 bytes, all zero. -/
theorem trailingCheck_spec {σ : Type} {r : IoReader σ} {view : σ → List UInt8} (h : r.Delivers view)
    (hc : r.Clean) (s : σ) :
    (trailingCheck r s).1 = none ↔ (view s).length ≤ maxPadding ∧ ∀ b ∈ view s, b = 0 := by
  have hf : (limitView view (s, ((maxPadding + 1 : Nat) : Int))).length < maxPadding + 2 := by
    simp only [limitView, List.length_take, Int.toNat_ofNat]; omega
  obtain ⟨hn, -⟩ := h.limit.drain_clean (IoReader.limit_clean hc) (by decide : 0 < 512) [] _ hf
  simp only [trailingCheck, IoReader.readAll]
  simp only [Nat.cast_add, Nat.cast_one] at hn
  rw [hn]
  simp only [List.nil_append, limitView, Int.toNat_ofNat]
  by_cases hlen : (view s).length ≤ maxPadding
  · rw [List.take_of_length_le (by omega)]
    simp only [show ¬ maxPadding < (view s).length by omega, if_false, hlen, true_and]
    rw [← firstNonZero_eq_none (view s) 0]
    cases firstNonZero (view s) 0 <;> simp
  · have : maxPadding < min (maxPadding + 1) (view s).length := by omega
    simp [this, hlen]

/-- **CheckTrailingNotZeros on a byte-slice reader** succeeds exactly when what is left is at
most 1024 bytes, all zero. -/
theorem checkTrailingNotZeros_spec (r : BytesReader.Valid) :
    checkTrailingNotZeros r = none ↔ r.rest.length ≤ maxPadding ∧ ∀ b ∈ r.rest, b = 0 := by
  unfold checkTrailingNotZeros
  split
  · rename_i h0
    have : r.rest = [] := by
      simp only [BytesReader.Valid.rest, BytesReader.rest, List.drop_eq_nil_iff]
      simp only [BytesReader.available] at h0; omega
    simp [this]
  · exact trailingCheck_spec BytesReader.Valid.delivers BytesReader.Valid.clean r

/-! ## BytesWriter -/

/-- Go's `BytesWriter`: the fixed slice `B` (its full capacity) and the write position `N`. -/
structure BytesWriter where
  b : List UInt8
  n : Nat
  deriving DecidableEq, Repr

namespace BytesWriter

/-- Go's `NewBytesWriter(p)`, given the whole of `p[:cap(p)]`. -/
def new (p : List UInt8) : BytesWriter := ⟨p, 0⟩

/-- Go's `Bytes()`: the bytes written so far. -/
def bytes (w : BytesWriter) : List UInt8 := w.b.take w.n

/-- Go's `Available()`. -/
def available (w : BytesWriter) : Nat := w.b.length - w.n

/-- Go's `copy(w.B[w.N:], p)`: the slice with the prefix of `p` that fits written at `N`. -/
def put (w : BytesWriter) (p : List UInt8) : BytesWriter :=
  let k := min p.length (w.b.length - w.n)
  ⟨w.b.take w.n ++ p.take k ++ w.b.drop (w.n + k), w.n + k⟩

/-- Go's `Write(p)`. -/
def write (p : List UInt8) (w : BytesWriter) : Wrote × BytesWriter :=
  if w.b.length ≤ w.n then (⟨0, some .shortWrite⟩, w)
  else
    let k := min p.length (w.b.length - w.n)
    (⟨k, if k < p.length then some .shortWrite else none⟩, w.put p)

/-- Go's `WriteByte(c)`. -/
def writeByte (c : UInt8) (w : BytesWriter) : Option GoErr × BytesWriter :=
  if w.b.length ≤ w.n then (some .shortWrite, w) else (none, w.put [c])

/-- Go's `Flush()`: nothing to do. -/
def flush (w : BytesWriter) : Option GoErr × BytesWriter := (none, w)

/-- The writer as an `io.Writer`. -/
def writer : IoWriter BytesWriter := ⟨write⟩

@[simp] theorem writer_write (p : List UInt8) (w : BytesWriter) : writer.write p w = w.write p := rfl

@[simp] theorem new_n (p : List UInt8) : (new p).n = 0 := rfl

@[simp] theorem new_b (p : List UInt8) : (new p).b = p := rfl

@[simp] theorem put_n (w : BytesWriter) (p : List UInt8) :
    (w.put p).n = w.n + min p.length (w.b.length - w.n) := rfl

theorem put_length (w : BytesWriter) (p : List UInt8) (h : w.n ≤ w.b.length) :
    (w.put p).b.length = w.b.length := by
  simp only [put, List.length_append, List.length_take, List.length_drop]; omega

/-- Writing `p` where it fits leaves the bytes before it and appends `p` to what was written. -/
theorem put_bytes (w : BytesWriter) (p : List UInt8) (h : w.n ≤ w.b.length)
    (hp : p.length ≤ w.b.length - w.n) : (w.put p).bytes = w.bytes ++ p := by
  simp only [put, bytes, Nat.min_eq_left hp, List.take_length]
  exact List.take_left' (by simp [Nat.min_eq_left h])

theorem write_of_lt {p : List UInt8} {w : BytesWriter} (h : w.n < w.b.length) :
    w.write p = (⟨((min p.length (w.b.length - w.n) : Nat) : Int),
      if min p.length (w.b.length - w.n) < p.length then some .shortWrite else none⟩, w.put p) := by
  simp [write, not_le.mpr h]

/-- **Spec of a write that fits.** It copies all of `p` after what was written and succeeds. -/
theorem write_fits {p : List UInt8} {w : BytesWriter} (h : w.n < w.b.length)
    (hp : p.length ≤ w.b.length - w.n) :
    (w.write p).1 = ⟨p.length, none⟩ ∧ (w.write p).2.bytes = w.bytes ++ p ∧
      (w.write p).2.n = w.n + p.length ∧ (w.write p).2.b.length = w.b.length := by
  rw [write_of_lt h, Nat.min_eq_left hp]
  exact ⟨by simp, put_bytes w p h.le hp, by simp [Nat.min_eq_left hp], put_length w p h.le⟩

end BytesWriter

end Codec
