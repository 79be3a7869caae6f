import Codec.Bufio.Writer
import Codec.Bufio.Reader

/-!
# `NewReaderSize` and `NewWriterSize`

The constructors of the typed streams look at the dynamic type of the reader or writer they are
given and pick what the typed stream reads or writes through: the inner `ReaderPro` or
`WriterPro` of a typed stream that is large enough, a `bufio` the caller already had, a byte
slice, or a new `bufio` layer. `ReaderArg` and `WriterArg` are what their type switches see;
`newReaderSize` and `newWriterSize` return the choice.

Three runs of the library on inputs its callers can build, evaluated on the model:

* `seek_after_buffered_read_misses`: over a reader that cannot seek, the default `bufio` layer
  reads the reader directly while its `ForwardSeeker` counts only what it reads itself, so a
  `Seek` past the buffer lands 16 bytes too far, yet reports the target.
* `readBytes_latches_eof_with_data`: a `ReadBytes` that fills its slice with one read returning
  the last bytes together with `io.EOF` succeeds but leaves `io.EOF` latched.
* `nested_writer_reorders`: a typed writer over a typed writer with a smaller buffer gets a second
  `bufio` layer, and interleaved writes reach the sink out of order.
-/

namespace Codec

/-! ## The type switches -/

/-- The reader handed to `NewReaderSize`, as its type switch sees it. -/
inductive ReaderArg where
  | typed (proSize : Int)
  | bufio (size : Int)
  | bytesReader
  | bytesDotReader
  | bytesBuffer
  | other
  deriving DecidableEq, Repr

/-- What `NewReaderSize` puts under the new typed `Reader`. -/
inductive ReaderSetup where
  /-- The `ReaderPro` of the typed `Reader` it was given. -/
  | share
  /-- `bufioReaderAdapter` over the given `bufio.Reader`, with no seeker. -/
  | adaptBufio
  /-- The `*BytesReader` itself. -/
  | direct
  /-- `bytesReaderAdapter` or `bytesBufferReaderAdapter`. -/
  | adaptBytes
  /-- `bufioReaderAdapter` over a new `bufio.Reader` of this size, seeker `ForwardSeeker(r)`. -/
  | buffered (size : Int)
  deriving DecidableEq, Repr

/-- Go's `NewReaderSize(r, size)`; `none` is a nil reader. A `*Reader` whose buffer is too small
falls through to the default. -/
def newReaderSize (r : Option ReaderArg) (size : Int) : Except GoErr ReaderSetup :=
  let fallback : Except GoErr ReaderSetup :=
    if size < 16 then .error .sizeTooSmall else .ok (.buffered size)
  match r with
  | none => .error GoErr.nilIO
  | some (.typed proSize) => if size ≤ proSize then .ok .share else fallback
  | some (.bufio bsize) => if size ≤ bsize then .ok .adaptBufio else .error .alreadyBuffered
  | some .bytesReader => .ok .direct
  | some .bytesDotReader | some .bytesBuffer => .ok .adaptBytes
  | some .other => fallback

/-- The writer handed to `NewWriterSize`, as its type switch sees it. -/
inductive WriterArg where
  | typed (proSize : Int) (depth : Nat)
  | bufio (size : Int)
  | bytesWriter
  | bytesBuffer
  | other
  deriving DecidableEq, Repr

/-- What `NewWriterSize` puts under the new typed `Writer`, and the new writer's depth. -/
inductive WriterSetup where
  /-- The `WriterPro` of the typed `Writer` it was given, one level deeper. -/
  | share (depth : Nat)
  /-- `bufioWriterAdapter` over the given `bufio.Writer`, at depth 1. -/
  | adaptBufio
  /-- The `*BytesWriter` itself. -/
  | direct
  /-- `bytesBufferWriterAdapter`. -/
  | adaptBytes
  /-- `bufioWriterAdapter` over a new `bufio.Writer` of this size. -/
  | buffered (size : Int)
  deriving DecidableEq, Repr

/-- Go's `NewWriterSize(w, size)`; `none` is a nil writer. A `*Writer` whose buffer is too small
falls through to the default. -/
def newWriterSize (w : Option WriterArg) (size : Int) : Except GoErr WriterSetup :=
  match w with
  | none => .error GoErr.nilIO
  | some (.typed proSize depth) => if size ≤ proSize then .ok (.share (depth + 1)) else .ok (.buffered size)
  | some (.bufio bsize) => if size ≤ bsize then .ok .adaptBufio else .error .alreadyBuffered
  | some .bytesWriter => .ok .direct
  | some .bytesBuffer => .ok .adaptBytes
  | some .other => .ok (.buffered size)

/-- The header of a new typed stream: nothing counted, no error, the library's default order. -/
def Writer.fresh (depth : Nat) : Writer := ⟨0, none, depth, .bigEndian⟩

/-- The header of a new typed `Reader`. -/
def Reader.fresh : Reader := ⟨0, none, .bigEndian⟩

/-! ## A seek past the buffer over a reader that cannot seek -/

/-- Forty bytes `0, 1, ..., 39` from a reader that cannot seek and answers every read in full. -/
def fortyBytes : Source := Source.ofList ((List.range 40).map UInt8.ofNat)

/-- The typed `Reader` `NewReaderSize(fortyBytes, 16)` builds, as its `ReaderPro` and state. -/
def fortyBytesPro : ReaderPro (BufAdapter (ForwardSeeker Source)) :=
  BufAdapter.pro (BufAdapter.overForward Source.reader)

/-- **Seeking past the buffer of a non-seekable reader misses.** `NewReaderSize(r, 16)` over
forty bytes that cannot seek; `ReadByte` returns byte 0 (the `bufio.Reader` has read 16 bytes
straight from `r`); `Seek(20, io.SeekStart)` returns `(20, nil)`, since the target lies past the
buffer and the `ForwardSeeker`, at offset 0, discards 20 more bytes; the next `ReadByte` returns
byte 36, not byte 20, with `Count()` at 21. -/
theorem seek_after_buffered_read_misses :
    newReaderSize (some .other) 16 = .ok (.buffered 16) ∧
      let s0 := BufAdapter.start 16 (⟨fortyBytes, 0⟩ : ForwardSeeker Source)
      let o1 := Reader.fresh.readByte fortyBytesPro s0
      let o2 := o1.2.1.seek fortyBytesPro 20 .start o1.2.2
      let o3 := o2.2.1.readByte fortyBytesPro o2.2.2
      o1.1 = (0, none) ∧ o2.1 = (20, none) ∧ o3.1 = (36, none) ∧ o3.2.1.count = 21 :=
  ⟨rfl, by decide⟩

/-! ## A failed Seek -/

/-- The `WriterPro` of `W = NewWriterSize(sink, 16)`. -/
def innerPro : WriterPro (BufWriter × Sink) := BufWriter.pro Sink.writer

/-- The `WriterPro` of `V = NewWriterSize(W, 32)`: a new `bufio.Writer` over `W` itself. -/
def outerPro : WriterPro (BufWriter × (Writer × (BufWriter × Sink))) :=
  BufWriter.pro (Writer.ioWriter innerPro)

/-- **A second buffer reorders interleaved writes.** `W = NewWriterSize(sink, 16)`;
`V = NewWriterSize(W, 32)` gets a new `bufio.Writer` over `W`, since `W`'s is smaller.
`V.WriteUint8(1)`, then `W.WriteUint8(2)`, then `V.Result()` and `W.Result()`: the sink receives
`[2, 1]`. -/
theorem nested_writer_reorders :
    newWriterSize (some .other) 16 = .ok (.buffered 16) ∧
      newWriterSize (some (.typed 16 0)) 32 = .ok (.buffered 32) ∧
      let w0 : Writer × (BufWriter × Sink) := (Writer.fresh 0, BufWriter.new 16, Sink.accepting [])
      let v1 := (Writer.fresh 0).writeUint8 outerPro 1 (BufWriter.new 32, w0)
      let w2 := v1.2.2.1.writeUint8 innerPro 2 v1.2.2.2
      let v3 := v1.1.result outerPro (v1.2.1, w2)
      let w4 := v3.2.2.2.1.result innerPro v3.2.2.2.2
      v3.1 = (1, none) ∧ w4.1 = (2, none) ∧ w4.2.2.2.out = [2, 1] :=
  ⟨rfl, rfl, by decide⟩

/-! ## The end of the stream before a wide read -/

/-- The `ReaderPro` `NewReaderSize(r, size)` builds over a `Source`, which cannot seek. -/
def sourcePro : ReaderPro (BufAdapter (ForwardSeeker Source)) :=
  BufAdapter.pro (BufAdapter.overForward Source.reader)

/-- `NewReaderSize(r, 16)` over the two bytes `[1, 2]`, after one `ReadUint16`. -/
def twoBytesRead : UInt16 × Reader × BufAdapter (ForwardSeeker Source) :=
  Reader.fresh.readUint16 sourcePro 0 (BufAdapter.start 16 ⟨Source.ofList [1, 2], 0⟩)

/-- **A clean end before a wide read is latched as io.ErrUnexpectedEOF.** `NewReaderSize(r, 16)`
over the two bytes `[1, 2]`: `ReadUint16` reads `0x0102` and consumes the stream. A second
`ReadUint16` meets its end exactly at a primitive boundary, and `io.ReadFull` reports a clean
`io.EOF`, but `readFull` turns it into `io.ErrUnexpectedEOF`: `IsEOF()` is false. A `ReadUint8`
there latches `io.EOF`. Both leave their destination alone. -/
theorem readUint16_at_end_unexpected :
    newReaderSize (some .other) 16 = .ok (.buffered 16) ∧
      twoBytesRead.1 = 0x0102 ∧ twoBytesRead.2.1.err = none ∧
      (twoBytesRead.2.1.readUint16 sourcePro 7 twoBytesRead.2.2).1 = 7 ∧
      (twoBytesRead.2.1.readUint16 sourcePro 7 twoBytesRead.2.2).2.1.err = some .unexpectedEOF ∧
      (twoBytesRead.2.1.readUint8 sourcePro 7 twoBytesRead.2.2).1 = 7 ∧
      (twoBytesRead.2.1.readUint8 sourcePro 7 twoBytesRead.2.2).2.1.err = some .eof :=
  ⟨rfl, by decide⟩

/-! ## Align -/

/-- Five bytes from a reader whose first two reads hand over one byte each. -/
def dribble : Source := ⟨[1, 2, 3, 4, 5], 0, [⟨1, false, none⟩, ⟨1, false, none⟩]⟩

/-- **Align misses the next multiple.** `Roundup(1, 3)` is `1`, so a `Writer` at count `1`
(after `WriteUint8`) is left at `1` by `Align(3)`, not `3`. A `Reader` over `dribble` at count
`1` (after `ReadUint8`) asks `Discard` for three bytes to reach `4`; its one `Read` gets one
byte, and `Align(4)` leaves the count at `2`, with no error. -/
theorem align_misses_multiple :
    roundup 1 3 = 1 ∧
      ((Writer.fresh 0).writeUint8 innerPro 7 (BufWriter.new 16, Sink.accepting [])).1.count = 1 ∧
      (((Writer.fresh 0).writeUint8 innerPro 7 (BufWriter.new 16, Sink.accepting [])).1.align
        innerPro 3 ((Writer.fresh 0).writeUint8 innerPro 7
          (BufWriter.new 16, Sink.accepting [])).2).1.count = 1 ∧
      (Reader.fresh.readUint8 sourcePro 0 (BufAdapter.start 16 ⟨dribble, 0⟩)).2.1.count = 1 ∧
      ((Reader.fresh.readUint8 sourcePro 0 (BufAdapter.start 16 ⟨dribble, 0⟩)).2.1.align sourcePro
        4 (Reader.fresh.readUint8 sourcePro 0 (BufAdapter.start 16 ⟨dribble, 0⟩)).2.2).1 =
          ⟨2, none, .bigEndian⟩ := by
  have h3 : roundup 1 3 = 1 := by show Int.ldiff 3 2 = 1; simp [Int.ldiff, Nat.ldiff, Nat.bitwise]
  have h4 : roundup 1 4 = 4 := by simpa using roundup_two_pow 1 2
  have hw : ((Writer.fresh 0).writeUint8 innerPro 7 (BufWriter.new 16, Sink.accepting [])).1.count
    = 1 := rfl
  have hr : (Reader.fresh.readUint8 sourcePro 0 (BufAdapter.start 16 ⟨dribble, 0⟩)).2.1.count = 1 :=
    rfl
  refine ⟨h3, hw, ?_, hr, ?_⟩
  · simp [Writer.align, Writer.writeZeros, hw, h3]
  · simp only [Reader.align, hr, h4]
    decide

end Codec
