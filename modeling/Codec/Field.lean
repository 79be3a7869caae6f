import Codec.Bufio.Writer
import Codec.Typed.Reader

/-!
# Variable-length fields (`part_003`)

`ReadVariableFieldStream(dst, r, cur, off, len)` skips the gap `off - cur` before a field with
`Discard` and copies the field's `len` bytes to `dst` with `io.CopyN`; `ReadVariableField` does
the same into a fresh `BytesWriter` of `len` bytes and returns what it holds.

`io.CopyN` hands the limited reader to the destination's `ReadFrom` when it has one, and a
`BytesWriter`'s `ReadFrom` makes a single read; `Discard` of at most `BUFFER_SIZE` bytes makes a
single read too. So the field comes out whole when every read is filled:

* `readVariableField_fills`: over a reader that hands over all it is asked for while it has it,
  `ReadVariableField` returns the slice `s[off-cur : off-cur+len]` of what the reader delivers,
  the count `off - cur + len`, and no error;

and not otherwise (`readVariableField_misplaces`): a reader that hands over one byte in its first
read makes the gap too short, and the field is read from the wrong place with no error; one
that hands over one byte in the read `ReadFrom` makes cuts the field, and `ReadVariableField`
fails with `io.EOF`.
-/

namespace Codec

variable {σ τ : Type}

/-! ## io.CopyN -/

/-- A destination as `io.Copy` sees it: an `io.Writer` that may also be an `io.ReaderFrom`. -/
structure CopyDst (τ : Type) : Type 1 where
  writer : IoWriter τ
  readerFrom : Option (IoReaderFrom τ)

/-- Go's `io.CopyN(dst, r, n)`: `io.Copy` of `LimitedReader{r, n}`, handed to `dst.ReadFrom` when
`dst` has one and copied through a buffer of `copyBufferSize n` bytes otherwise, then the count
checked against `n`. -/
def copyN (dst : CopyDst τ) (r : IoReader σ) (n : Int) (fuel : Nat) (s : σ) (t : τ) :
    (Int × Option GoErr) × σ × τ :=
  match dst.readerFrom with
  | some rf =>
    let o := rf.readFrom r.limit fuel t (s, n)
    (copyNResult n o.1.1 o.1.2, o.2.2.1, o.2.1)
  | none =>
    let o := r.limit.copyLoop dst.writer (copyBufferSize n) fuel 0 (s, n) t
    (copyNResult n o.1.1 o.1.2, o.2.1.1, o.2.2)

/-- Go's `io.CopyN(io.Discard, r, n)`: `io.Discard` is an `io.ReaderFrom`. -/
def copyNDiscard (r : IoReader σ) (n : Int) (fuel : Nat) (s : σ) : (Int × Option GoErr) × σ :=
  let o := r.limit.discardFrom fuel (s, n)
  (copyNResult n o.1.1 o.1.2, o.2.1)

namespace BytesWriter

/-- A `*BytesWriter` as a destination of `io.Copy`: its `ReadFrom` makes one read. -/
def copyDst : CopyDst BytesWriter := ⟨writer, some ⟨fun r _ w s => readFrom r w s⟩⟩

end BytesWriter

/-! ## The field readers -/

/-- Go's `ReadVariableFieldStream(dst, r, currentReadOffset, targetFieldOffset,
targetFieldLength)`; a nil `dst` (`none`) is `io.Discard`, which leaves the destination's state
alone. -/
def readVariableFieldStream (dst : Option (CopyDst τ)) (r : IoReader σ)
    (currentReadOffset targetFieldOffset targetFieldLength : Int) (fuel : Nat) (s : σ) (t : τ) :
    (Int × Option GoErr) × σ × τ :=
  if targetFieldLength = 0 then ((0, none), s, t)
  else
    let d := discard r (targetFieldOffset - currentReadOffset) s
    if d.1.2 ≠ none then (d.1, d.2, t)
    else
      let c : (Int × Option GoErr) × σ × τ := match dst with
        | some dst => copyN dst r targetFieldLength fuel d.2 t
        | none => let o := copyNDiscard r targetFieldLength fuel d.2; (o.1, o.2, t)
      ((d.1.1 + c.1.1, c.1.2), c.2)

/-- Go's `ReadVariableField(r, currentReadOffset, targetFieldOffset, targetFieldLength)`: the
field's bytes (`none` for Go's nil slice), the bytes consumed, and the error. (For a negative
length Go's `make` panics; the model sizes the slice by `toNat`.) -/
def readVariableField (r : IoReader σ) (currentReadOffset targetFieldOffset targetFieldLength : Int)
    (fuel : Nat) (s : σ) : (Option (List UInt8) × Int × Option GoErr) × σ :=
  if targetFieldLength = 0 ∨ targetFieldOffset < currentReadOffset then ((none, 0, none), s)
  else
    let o := readVariableFieldStream (some BytesWriter.copyDst) r currentReadOffset
      targetFieldOffset targetFieldLength fuel s
      (BytesWriter.new (List.replicate targetFieldLength.toNat 0))
    if o.1.2 ≠ none then ((none, o.1.1, o.1.2), o.2.1)
    else ((some o.2.2.bytes, o.1.1, none), o.2.1)

/-! ## Readers that fill their reads -/

section Fills

variable {r : IoReader σ} {view : σ → List UInt8}

/-- **`io.CopyN` into a fresh `BytesWriter` of `len` bytes** over a reader that fills its reads
copies the next `len` bytes and succeeds. -/
theorem copyN_bytesWriter_fills (h : r.Delivers view) (hc : r.Clean) (hf : r.Fills view)
    {len : Nat} (hlen : 0 < len) {s : σ} (hfit : len ≤ (view s).length) (fuel : Nat) :
    let o := copyN BytesWriter.copyDst r len fuel s (BytesWriter.new (List.replicate len 0))
    o.1 = ((len : Int), none) ∧ o.2.2.bytes = (view s).take len ∧
      view o.2.1 = (view s).drop len := by
  have hb : (r.read len s).1.bytes = (view s).take len := hf len s
  have hk : (r.read len s).1.bytes.length = len := by rw [hb, List.length_take]; omega
  have hl : r.limit.read len (s, (len : Int)) = ((r.read len s).1, ((r.read len s).2, 0)) := by
    rw [IoReader.limit_of_pos (by dsimp only; omega)]; simp [hk]
  have herr : (if (r.read len s).1.err = some .eof then none else (r.read len s).1.err) = none := by
    rcases hc len s with he | he <;> simp [he]
  have hput : ((BytesWriter.new (List.replicate len 0)).put (r.read len s).1.bytes).bytes =
      (view s).take len := by
    rw [BytesWriter.put_bytes _ _ (by simp) (by simp [hk])]; simp [BytesWriter.bytes, hb]
  simp only [copyN, BytesWriter.copyDst, BytesWriter.readFrom, BytesWriter.new_b,
    BytesWriter.new_n, List.length_replicate, Nat.sub_zero, if_neg (Nat.not_le.mpr hlen), hl]
  refine ⟨by simp [copyNResult, hk, herr], hput, ?_⟩
  rw [h.view_eq, hb, List.length_take, Nat.min_eq_left hfit]

/-- **On a reader that fills its reads the field comes out whole.** For `cur ≤ off`, `0 < len`
and a field that lies within what the reader delivers, `ReadVariableField` returns the slice
`s[off-cur : off-cur+len]`, the count `off - cur + len` and no error, and leaves the reader after
the field. -/
theorem readVariableField_fills (h : r.Delivers view) (hc : r.Clean) (hf : r.Fills view)
    {cur off len : Int} (hgap : cur ≤ off) (hlen : 0 < len) {s : σ}
    (hfit : off - cur + len ≤ (view s).length) (fuel : Nat) :
    (readVariableField r cur off len fuel s).1 =
        (some (((view s).drop (off - cur).toNat).take len.toNat), off - cur + len, none) ∧
      view (readVariableField r cur off len fuel s).2 = (view s).drop (off - cur + len).toNat := by
  obtain ⟨g, hg⟩ : ∃ g : Nat, off - cur = g := ⟨(off - cur).toNat, by omega⟩
  obtain ⟨n, rfl⟩ : ∃ n : Nat, len = n := ⟨len.toNat, by omega⟩
  have hn0 : (n : Int) ≠ 0 := by omega
  obtain ⟨d1, d2⟩ := discard_fills h hc hf (n := g) (s := s) (by omega)
  obtain ⟨c1, c2, c3⟩ := copyN_bytesWriter_fills h hc hf (show 0 < n by omega)
    (s := (discard r g s).2) (by rw [d2, List.length_drop]; omega) fuel
  simp only [readVariableField, readVariableFieldStream, hg, d1, c1, c2, c3, d2, hn0, false_or,
    Int.toNat_ofNat, if_neg (not_lt.mpr hgap), ne_eq, not_true_eq_false, if_false, true_and]
  rw [List.drop_drop]
  congr 1

/-- A field of two bytes at offset 2 of `[10, 11, 12, 13]`, read from offset 0 of a byte slice. -/
theorem readVariableField_fills_bytes :
    (readVariableField BytesReader.Valid.reader 0 2 2 3 (BytesReader.Valid.new [10, 11, 12, 13])).1 =
        (some (([10, 11, 12, 13] : List UInt8).drop ((2 : Int) - 0).toNat |>.take (2 : Int).toNat),
          2 - 0 + 2, none) ∧
      BytesReader.Valid.rest (readVariableField BytesReader.Valid.reader 0 2 2 3
          (BytesReader.Valid.new [10, 11, 12, 13])).2 = ([10, 11, 12, 13] : List UInt8).drop ((2 : Int) - 0 + 2).toNat :=
  readVariableField_fills BytesReader.Valid.delivers BytesReader.Valid.clean BytesReader.Valid.fills
    (by decide) (by decide) (by decide) 3

end Fills

/-- A stream `[10, 11, 12, 13]` whose first read hands over one byte. -/
def oneByteFirst : Source := ⟨[10, 11, 12, 13], 0, [⟨1, false, none⟩]⟩

/-- A stream `[10, 11, 12]` whose first two reads hand over one byte each. -/
def oneByteTwice : Source := ⟨[10, 11, 12], 0, [⟨1, false, none⟩, ⟨1, false, none⟩]⟩

/-- **The field readers depend on how the reader cuts its data.** A field of two bytes at offset
2 of `[10, 11, 12, 13]`, read from offset 0 over a stream whose first read hands over one byte:
the gap's single read skips one byte, and both `ReadVariableField` and `ReadVariableFieldStream`
(into a sink that takes everything) return `[11, 12]` and the count 3 with no error, not
`[12, 13]` and 4. A field of two bytes at offset 1 of `[10, 11, 12]` over a stream whose first two
reads hand over one byte: `BytesWriter.ReadFrom` makes one read, `io.CopyN` reports `io.EOF`, and
`ReadVariableField` returns no bytes, the count 2 and `io.EOF`, not `[11, 12]`, 3 and nil. -/
theorem readVariableField_misplaces :
    (readVariableField Source.reader 0 2 2 3 oneByteFirst).1 = (some [11, 12], 3, none) ∧
      (readVariableFieldStream (some ⟨Sink.writer, none⟩) Source.reader 0 2 2 3 oneByteFirst
        (Sink.accepting [])).1 = (3, none) ∧
      (readVariableFieldStream (some ⟨Sink.writer, none⟩) Source.reader 0 2 2 3 oneByteFirst
        (Sink.accepting [])).2.2.out = [11, 12] ∧
      (readVariableField Source.reader 0 1 2 3 oneByteTwice).1 = (none, 2, some .eof) := by
  decide

end Codec
