import Codec.Util
import Codec.Binary

/-!
# The typed `Reader` (`part_002`)

The mirror of `Writer.lean`: a header (`count`, the latched `err`, the byte `order`) in front of a
`ReaderPro`, the buffered source every read goes through, with the source as its methods over a
state `ρ`. A typed `Reader` is itself an `io.Reader` (`Reader.ioReader`): `readFull`, `ReadBytesTo`
and `Align` go through it, so a read error they meet is latched by `Read` on the way.

Destination arguments (`dest *uint16`, the slice of `ReadBytesTo`) are passed in and handed back, so
that what a call leaves in them is part of its result.
-/

namespace Codec

/-! ## Interfaces a reader talks to -/

/-- Go's `ReaderPro`: `io.Reader`, `io.WriterTo`, `io.ByteReader`, `io.Seeker` and `Size`, over
the source's state `ρ`. `WriteTo` loops until the source ends in some sources, and is given a
number of rounds. (`Close` is left out: no modelled function calls it.) -/
structure ReaderPro (ρ : Type) : Type 1 where
  read : Nat → ρ → Got × ρ
  writeTo : {τ : Type} → IoWriter τ → Nat → ρ → τ → (Int × Option GoErr) × ρ × τ
  readByte : ρ → (UInt8 × Option GoErr) × ρ
  seek : Int → Whence → ρ → (Int × Option GoErr) × ρ
  size : ρ → Int

/-- The `io.Reader` view of a `ReaderPro`. -/
def ReaderPro.toIoReader {ρ : Type} (p : ReaderPro ρ) : IoReader ρ := ⟨p.read⟩

/-- Go's `io.ReaderFrom` over the state `φ` of the value: `ReadFrom(r)` for any reader `r`, with
a number of rounds for a value that reads until its reader ends. -/
structure IoReaderFrom (φ : Type) : Type 1 where
  readFrom : {σ : Type} → IoReader σ → Nat → φ → σ → (Int × Option GoErr) × φ × σ

/-! ## The header -/

/-- The fields of Go's `Reader` besides the source `r`. -/
structure Reader where
  count : Int
  err : Option GoErr
  order : ByteOrder
  deriving DecidableEq, Repr

namespace Reader

variable {ρ τ φ α : Type} (p : ReaderPro ρ)

/-- Go's `setError`: record the first non-nil error. -/
def setError (r : Reader) (e : Option GoErr) : Reader :=
  if r.err = none then { r with err := e } else r

/-- Go's `Read(p)` with `len(p) = n`. -/
def read (n : Nat) (r : Reader) (s : ρ) : Got × Reader × ρ :=
  if r.err ≠ none then (⟨[], r.err⟩, r, s)
  else
    let g := p.read n s
    let r' := { r with count := r.count + g.1.bytes.length }.setError g.1.err
    (⟨g.1.bytes, r'.err⟩, r', g.2)

/-- The typed reader as an `io.Reader`. -/
def ioReader : IoReader (Reader × ρ) := ⟨fun n st => read p n st.1 st.2⟩

/-- Go's `Seek(offset, whence)`: the count becomes the new position. -/
def seek (offset : Int) (whence : Whence) (r : Reader) (s : ρ) :
    (Int × Option GoErr) × Reader × ρ :=
  if r.err ≠ none then ((r.count, r.err), r, s)
  else
    let o := p.seek offset whence s
    (o.1, { r with count := o.1.1 }.setError o.1.2, o.2)

@[simp] theorem count_setError (r : Reader) (e : Option GoErr) : (r.setError e).count = r.count := by
  unfold setError; split <;> rfl

/-- Go's `WriteTo(w)`, with `fuel` rounds for the source's loop; `none` is a nil writer. -/
def writeTo (w : Option (IoWriter τ)) (fuel : Nat) (t : τ) (r : Reader) (s : ρ) :
    (Int × Option GoErr) × τ × Reader × ρ :=
  if r.err ≠ none then ((0, r.err), t, r, s)
  else
    match w with
    | none =>
      let r' := r.setError (some .writeToNil)
      ((0, r'.err), t, r', s)
    | some w =>
      let o := p.writeTo w fuel s t
      let r' := { r with count := r.count + o.1.1 }.setError o.1.2
      ((o.1.1, r'.err), o.2.2, r', o.2.1)

/-- Go's `Result()`. -/
def result (r : Reader) (s : ρ) : (Int × Option GoErr) × Reader × ρ := ((r.count, r.err), r, s)

/-- Go's `ReadTo(w)`: the value reads itself from the source, with `fuel` rounds; `none` is a
nil `ReaderFrom`. -/
def readTo (rf : Option (IoReaderFrom φ)) (fuel : Nat) (v : φ) (r : Reader) (s : ρ) :
    φ × Reader × ρ :=
  if r.err ≠ none then (v, r, s)
  else
    match rf with
    | none => (v, r.setError (some .readToNil), s)
    | some rf =>
      let o := rf.readFrom p.toIoReader fuel v s
      (o.2.1, { r with count := r.count + o.1.1 }.setError o.1.2, o.2.2)

/-- Go's `readFull(n)`: `io.ReadFull` through the typed reader itself; a failure is latched, with
`io.EOF` turned into `io.ErrUnexpectedEOF`. `none` is the nil slice. -/
def readFull (n : Nat) (r : Reader) (s : ρ) : Option (List UInt8) × Reader × ρ :=
  if r.err ≠ none then (none, r, s)
  else
    let g := (ioReader p).readFull n (r, s)
    match g.1.err with
    | none => (some g.1.bytes, g.2)
    | some e => (none, { g.2.1 with err := some (if e = .eof then .unexpectedEOF else e) }, g.2.2)

/-- Go's `ReadBytes(n)`. -/
def readBytes (n : Int) (r : Reader) (s : ρ) : Option (List UInt8) × Reader × ρ :=
  if n ≤ 0 then (none, r, s) else readFull p n.toNat r s

/-- Go's `ReadBytesTo(dest)`: `io.ReadFull` into `dest`, whose prefix receives what arrived even
when the read fails. -/
def readBytesTo (dest : List UInt8) (r : Reader) (s : ρ) : List UInt8 × Reader × ρ :=
  if r.err ≠ none ∨ dest = [] then (dest, r, s)
  else
    let g := (ioReader p).readFull dest.length (r, s)
    (g.1.bytes ++ dest.drop g.1.bytes.length,
      match g.1.err with
      | none => g.2.1
      | some e => { g.2.1 with err := some e },
      g.2.2)

/-- Go's `Align(n)`: `Discard` through the typed reader up to the next multiple of `n` of the
count. -/
def align (n : Int) (r : Reader) (s : ρ) : Reader × ρ :=
  if n > 1 then (discard (ioReader p) (roundup r.count n - r.count) (r, s)).2 else (r, s)

/-! ## Primitive reads -/

/-- The body shared by the one-byte reads: `r.r.ReadByte()`, counting it on success and latching
the error otherwise. -/
def getByte (r : Reader) (s : ρ) : (UInt8 × Option GoErr) × Reader × ρ :=
  if r.err ≠ none then ((0, r.err), r, s)
  else
    let o := p.readByte s
    match o.1.2 with
    | none => (o.1, { r with count := r.count + 1 }, o.2)
    | some e => (o.1, { r with err := some e }, o.2)

/-- Go's `ReadByte()`. -/
def readByte (r : Reader) (s : ρ) : (UInt8 × Option GoErr) × Reader × ρ := getByte p r s

/-- Go's `ReadBool(dest)`: any non-zero byte is `true`. -/
def readBool (dest : Bool) (r : Reader) (s : ρ) : Bool × Reader × ρ :=
  let o := getByte p r s
  (if o.1.2 = none then o.1.1 != 0 else dest, o.2)

/-- Go's `ReadUint8(dest)`. -/
def readUint8 (dest : UInt8) (r : Reader) (s : ρ) : UInt8 × Reader × ρ :=
  let o := getByte p r s
  (if o.1.2 = none then o.1.1 else dest, o.2)

/-- Go's `ReadInt8(dest)`: `int8(b)`, the bits of the byte. -/
def readInt8 (dest : BitVec 8) (r : Reader) (s : ρ) : BitVec 8 × Reader × ρ :=
  let o := getByte p r s
  (if o.1.2 = none then BitVec.ofNat 8 o.1.1.toNat else dest, o.2)

/-- The body shared by the wider reads: `readFull(k)`, then, if no error is latched, the value
the `k` bytes spell in the reader's order. -/
def getWord (k : Nat) (conv : Nat → α) (dest : α) (r : Reader) (s : ρ) : α × Reader × ρ :=
  let o := readFull p k r s
  (if o.2.1.err = none then conv (r.order.get (o.1.getD [])) else dest, o.2)

/-- Go's `ReadUint16(dest)`. -/
def readUint16 (dest : UInt16) (r : Reader) (s : ρ) : UInt16 × Reader × ρ :=
  getWord p 2 UInt16.ofNat dest r s

/-- Go's `ReadUint32(dest)`. -/
def readUint32 (dest : UInt32) (r : Reader) (s : ρ) : UInt32 × Reader × ρ :=
  getWord p 4 UInt32.ofNat dest r s

/-- Go's `ReadUint64(dest)`. -/
def readUint64 (dest : UInt64) (r : Reader) (s : ρ) : UInt64 × Reader × ρ :=
  getWord p 8 UInt64.ofNat dest r s

/-- Go's `ReadInt16(dest)`: `int16(Uint16(buf))`, the bits read. -/
def readInt16 (dest : BitVec 16) (r : Reader) (s : ρ) : BitVec 16 × Reader × ρ :=
  getWord p 2 (BitVec.ofNat 16) dest r s

/-- Go's `ReadInt32(dest)`. -/
def readInt32 (dest : BitVec 32) (r : Reader) (s : ρ) : BitVec 32 × Reader × ρ :=
  getWord p 4 (BitVec.ofNat 32) dest r s

/-- Go's `ReadInt64(dest)`. -/
def readInt64 (dest : BitVec 64) (r : Reader) (s : ρ) : BitVec 64 × Reader × ρ :=
  getWord p 8 (BitVec.ofNat 64) dest r s

end Reader

end Codec
