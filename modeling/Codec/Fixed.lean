import Codec.Binary

/-!
# The fixed record codec `Fixed[Payload]`

`binary.Write` and `binary.Read` over the library's default byte order, behind the six methods of
the codec contract (`fixed.go`, its second version, which the pooled `BytesWriter` serves).

On a record of positive size every method agrees with the wire format of `Binary.lean`:
`marshalBinary_eq`, `writeTo_accepting`, `marshalTo_eq`, `readFrom_spec`, and
`unmarshalBinary_encode` (a tail is accepted exactly when it is at most 1024 zero bytes). The
zero-size record is the exception: `binary.Write` hands the pooled zero-length `BytesWriter` an
empty write, which `BytesWriter.Write` refuses because it is already full, so `MarshalBinary`
fails (`marshalBinary_zero_size_fails`).
-/

namespace Codec

variable {σ τ : Type}

/-- Go's `Order`, the library's default byte order. -/
def defaultOrder : ByteOrder := .bigEndian

/-! ## binary.Write and binary.Read -/

/-- Go's `binary.Write(w, order, &v)`: encode into one buffer and write it once; the count the
writer reports is dropped. -/
def binaryWrite (w : IoWriter τ) (o : ByteOrder) (l : Layout) (v : l.Val) (t : τ) : Option GoErr × τ :=
  let res := w.write (l.encode o v) t
  (res.1.err, res.2)

/-- Go's `binary.Read(r, order, &v)`: read the whole size with `io.ReadFull`, then decode; on an
error the destination keeps its value. -/
def binaryRead (r : IoReader σ) (o : ByteOrder) (l : Layout) (v : l.Val) (s : σ) :
    (l.Val × Option GoErr) × σ :=
  let g := r.readFull l.size s
  if g.1.err = none then ((l.decode o g.1.bytes, none), g.2) else ((v, g.1.err), g.2)

/-! ## Fixed[Payload] -/

/-- Go's `Fixed[Payload]`: a codec holding one record of layout `l`. -/
structure Fixed (l : Layout) where
  payload : l.Val

namespace Fixed

variable {l : Layout}

/-- Go's `Size()`: `binary.Size` of the payload type (the type-to-size cache only memoises it). -/
def size (_ : Fixed l) : Nat := l.size

/-- Go's `MarshalBinary()`: `binary.Write` into a pooled `BytesWriter` whose slice is a fresh
`make([]byte, c.Size())`. -/
def marshalBinary (c : Fixed l) : Except GoErr (List UInt8) :=
  let res := binaryWrite BytesWriter.writer defaultOrder l c.payload
    (BytesWriter.new (List.replicate l.size 0))
  match res.1 with
  | some e => .error e
  | none => .ok res.2.bytes

/-- Go's `UnmarshalBinary(data)`: `binary.Read` from a `BytesReader` over `data`, then
`CheckTrailingNotZeros` on what is left. The payload is decoded before the check runs. -/
def unmarshalBinary (c : Fixed l) (data : List UInt8) : Fixed l × Option GoErr :=
  let res := binaryRead BytesReader.Valid.reader defaultOrder l c.payload (BytesReader.Valid.new data)
  match res.1.2 with
  | some e => (⟨res.1.1⟩, some e)
  | none => (⟨res.1.1⟩, checkTrailingNotZeros res.2)

/-- Go's `ReadFrom(r)`. -/
def readFrom (r : IoReader σ) (c : Fixed l) (s : σ) : (Int × Option GoErr) × Fixed l × σ :=
  let res := binaryRead r defaultOrder l c.payload s
  match res.1.2 with
  | some e => ((0, some e), c, res.2)
  | none => ((l.size, none), ⟨res.1.1⟩, res.2)

/-- Go's `WriteTo(w)`. -/
def writeTo (w : IoWriter τ) (c : Fixed l) (t : τ) : (Int × Option GoErr) × τ :=
  let res := binaryWrite w defaultOrder l c.payload t
  match res.1 with
  | some e => ((0, some e), res.2)
  | none => ((l.size, none), res.2)

/-- Go's `MarshalTo(p)`: the caller's slice becomes the pooled `BytesWriter`'s slice. Returns the
count, the error and the slice afterwards. -/
def marshalTo (c : Fixed l) (p : List UInt8) : (Int × Option GoErr) × List UInt8 :=
  if p.length < l.size then ((0, some .shortBuffer), p)
  else
    let res := binaryWrite BytesWriter.writer defaultOrder l c.payload (BytesWriter.new p)
    match res.1 with
    | some e => ((0, some e), res.2.b)
    | none => ((res.2.n, none), res.2.b)

/-! ## The contract on records of positive size -/

/-- A record of positive size fits the fresh slice `MarshalBinary` writes into. -/
theorem write_fresh {c : Fixed l} (h : 0 < l.size) :
    BytesWriter.writer.write (l.encode defaultOrder c.payload)
        (BytesWriter.new (List.replicate l.size 0)) =
      (⟨l.size, none⟩, ⟨l.encode defaultOrder c.payload, l.size⟩) := by
  have h' : (BytesWriter.new (List.replicate l.size 0)).n <
      (BytesWriter.new (List.replicate l.size 0)).b.length := by simpa using h
  rw [BytesWriter.writer_write, BytesWriter.write_of_lt h']
  simp [BytesWriter.put]

/-- **MarshalBinary of a record of positive size** is its wire encoding. -/
theorem marshalBinary_eq (c : Fixed l) (h : 0 < l.size) :
    c.marshalBinary = .ok (l.encode defaultOrder c.payload) := by
  simp only [marshalBinary, binaryWrite, write_fresh h, BytesWriter.bytes]
  simp

/-- **WriteTo** writes the wire encoding to a writer that accepts it, and returns the size. -/
theorem writeTo_accepting (c : Fixed l) (out : List UInt8) :
    c.writeTo Sink.writer (Sink.accepting out) =
      (((l.size : Int), none), Sink.accepting (out ++ l.encode defaultOrder c.payload)) := rfl

/-- **MarshalTo** into a slice with room writes the wire encoding over its first `Size()` bytes
and returns the size. -/
theorem marshalTo_eq (c : Fixed l) (h : 0 < l.size) {p : List UInt8} (hp : l.size ≤ p.length) :
    c.marshalTo p = (((l.size : Int), none), l.encode defaultOrder c.payload ++ p.drop l.size) := by
  have h' : (BytesWriter.new p).n < (BytesWriter.new p).b.length := by simp; omega
  simp only [marshalTo, show ¬ p.length < l.size by omega, if_false, binaryWrite,
    BytesWriter.writer_write, BytesWriter.write_of_lt h']
  simp [BytesWriter.put, Nat.min_eq_left hp]

/-- A `uint16` record marshalled into the front of a three-byte slice. -/
theorem marshalTo_eq_word :
    (⟨0x1234#16⟩ : Fixed (.word 2)).marshalTo [7, 7, 7] =
      ((((Layout.word 2).size : Int), none),
        (Layout.word 2).encode defaultOrder (0x1234#16 : BitVec 16) ++ ([7, 7, 7] : List UInt8).drop (Layout.word 2).size) :=
  marshalTo_eq _ (by decide) (by decide)

/-- **ReadFrom** a stream that begins with an encoding, in any chunking, decodes it, returns the
size and leaves the reader just past it. -/
theorem readFrom_spec {r : IoReader σ} {view : σ → List UInt8} (h : r.Delivers view)
    (hc : r.Clean) (c : Fixed l) (v : l.Val) (rest : List UInt8) (s : σ)
    (hs : view s = l.encode defaultOrder v ++ rest) :
    (c.readFrom r s).1 = ((l.size : Int), none) ∧ (c.readFrom r s).2.1.payload = v ∧
      view (c.readFrom r s).2.2 = rest := by
  obtain ⟨hg, hv⟩ := h.readFull_clean hc l.size s
  have hlen : l.size ≤ (view s).length := by rw [hs]; simp
  have htake : (view s).take l.size = l.encode defaultOrder v := by
    rw [hs]; exact List.take_left' (by simp)
  simp only [readFrom, binaryRead, hg, if_pos hlen, htake, if_true]
  refine ⟨trivial, ?_, ?_⟩
  · simpa using l.decode_encode defaultOrder v []
  · rw [hv, hs]; exact List.drop_left' (by simp)

/-- **ReadFrom fails on a stream shorter than the record**, and leaves the payload alone. -/
theorem readFrom_short {r : IoReader σ} {view : σ → List UInt8} (h : r.Delivers view)
    (hc : r.Clean) (c : Fixed l) (s : σ) (hs : (view s).length < l.size) :
    (c.readFrom r s).1.2 ≠ none ∧ (c.readFrom r s).2.1 = c := by
  obtain ⟨hg, -⟩ := h.readFull_clean hc l.size s
  have hn : ¬ l.size ≤ (view s).length := by omega
  simp only [readFrom, binaryRead, hg, hn, if_false]
  by_cases hnil : view s = [] <;> simp [hnil]

/-- **ReadFrom of a zero-size record reads nothing and succeeds**, on any reader. -/
theorem readFrom_zero_size {r : IoReader σ} (hl : l.size = 0) (c : Fixed l) (s : σ) :
    c.readFrom r s = ((0, none), ⟨l.decode defaultOrder []⟩, s) := by
  simp [readFrom, binaryRead, IoReader.readFull, IoReader.fillLoop, hl]

/-- **UnmarshalBinary of an encoding followed by a tail** decodes the record, and succeeds exactly
when the tail is at most `MAX_PADDING` bytes, all zero. -/
theorem unmarshalBinary_encode (c : Fixed l) (v : l.Val) (t : List UInt8) :
    (c.unmarshalBinary (l.encode defaultOrder v ++ t)).1.payload = v ∧
      ((c.unmarshalBinary (l.encode defaultOrder v ++ t)).2 = none ↔
        t.length ≤ maxPadding ∧ ∀ b ∈ t, b = 0) := by
  obtain ⟨hg, hv⟩ := BytesReader.Valid.delivers.readFull_clean BytesReader.Valid.clean l.size
    (BytesReader.Valid.new (l.encode defaultOrder v ++ t))
  simp only [BytesReader.Valid.new_rest, List.take_left' (l.length_encode defaultOrder v),
    List.drop_left' (l.length_encode defaultOrder v)] at hg hv
  have hlen : l.size ≤ (l.encode defaultOrder v ++ t).length := by simp
  simp only [unmarshalBinary, binaryRead, hg, if_pos hlen, if_true]
  refine ⟨by simpa using l.decode_encode defaultOrder v [], ?_⟩
  simpa only [hv] using checkTrailingNotZeros_spec (BytesReader.Valid.reader.readFull l.size
    (BytesReader.Valid.new (l.encode defaultOrder v ++ t))).2

/-- **UnmarshalBinary rejects every input shorter than the record.** -/
theorem unmarshalBinary_short (c : Fixed l) (data : List UInt8) (h : data.length < l.size) :
    (c.unmarshalBinary data).2 ≠ none := by
  obtain ⟨hg, -⟩ := BytesReader.Valid.delivers.readFull_clean BytesReader.Valid.clean l.size
    (BytesReader.Valid.new data)
  simp only [BytesReader.Valid.new_rest] at hg
  have hn : ¬ l.size ≤ data.length := by omega
  simp only [unmarshalBinary, binaryRead, hg, hn, if_false]
  by_cases hnil : data = [] <;> simp [hnil]

/-- A `uint16` record unmarshalled from one byte. -/
theorem unmarshalBinary_short_word : ((⟨0#16⟩ : Fixed (.word 2)).unmarshalBinary [1]).2 ≠ none :=
  unmarshalBinary_short _ [1] (by decide)

/-- The zero-size record, Go's `Fixed[struct{}]`. -/
def empty : Fixed .unit := ⟨()⟩

/-- **MarshalBinary of the zero-size record fails.** `binary.Write` writes the empty encoding to
the zero-length pooled `BytesWriter`, which reports `io.ErrShortWrite` because its position is
already at its end. -/
theorem marshalBinary_zero_size_fails : empty.marshalBinary = .error .shortWrite := rfl

end Fixed

end Codec
