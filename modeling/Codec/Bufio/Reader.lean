import Codec.Typed.Reader

/-!
# `bufio.Reader`, `ForwardSeeker` and the sources of a typed `Reader`

`NewReaderSize` puts a typed `Reader` in front of a `ReaderPro`: a `*BytesReader` itself, or, for
any other reader, a `bufio.Reader` behind `bufioReaderAdapter`, whose `Seek` uses a separate
seeker, `ForwardSeeker(r)` over the same reader.

`BufReader` is Go's `bufio.Reader` with its buffer abstracted to the unread bytes `buf[r:w]`, its
capacity and its pending error. `bufioReaderAdapter` reads through the `bufio.Reader` and seeks
through the seeker; the two share one world state `ω`, and the adapter records whether the
`bufio.Reader` still reads the original reader or, after its first `Reset`, the seeker. With a
`ForwardSeeker` over a reader that cannot seek, the first of these does not tell the seeker how
far it has read: that is the gap `Setup.lean` shows.
-/

namespace Codec

variable {ω σ τ : Type}

/-- Go's `bufio.Reader`: `len(buf)`, the unread bytes `buf[r:w]`, and the pending error. -/
structure BufReader where
  size : Nat
  win : List UInt8
  err : Option GoErr
  deriving DecidableEq, Repr

namespace BufReader

variable (rd : IoReader ω)

/-- Go's `bufio.NewReaderSize(rd, size)` for an `rd` that is not already a large enough
`bufio.Reader`: at least 16 bytes. -/
def new (size : Int) : BufReader := ⟨max size.toNat 16, [], none⟩

/-- Go's `readErr()`: hand over the pending error and clear it. -/
def readErr (b : BufReader) : Option GoErr × BufReader := (b.err, { b with err := none })

/-- The loop of Go's `fill()`: read into the free space until a read returns bytes or an error,
at most `maxConsecutiveEmptyReads` times, then `io.ErrNoProgress`. -/
def fillLoop : Nat → BufReader → ω → BufReader × ω
  | 0, b, s => ({ b with err := some .noProgress }, s)
  | i + 1, b, s =>
    let g := rd.read (b.size - b.win.length) s
    let b' := { b with win := b.win ++ g.1.bytes }
    if g.1.err ≠ none then ({ b' with err := g.1.err }, g.2)
    else if g.1.bytes ≠ [] then (b', g.2)
    else fillLoop i b' g.2

/-- Go's `fill()`. -/
def fill (b : BufReader) (s : ω) : BufReader × ω := fillLoop rd 100 b s

/-- Go's `Read(p)` with `len(p) = n`: from the buffer if it holds anything; otherwise straight
into `p` when `p` is at least as large as the buffer, or one read into the buffer. -/
def read (n : Nat) (b : BufReader) (s : ω) : Got × BufReader × ω :=
  if n = 0 then
    if b.win ≠ [] then (⟨[], none⟩, b, s) else (⟨[], (readErr b).1⟩, (readErr b).2, s)
  else if b.win = [] then
    if b.err ≠ none then (⟨[], (readErr b).1⟩, (readErr b).2, s)
    else if b.size ≤ n then
      let g := rd.read n s
      (⟨g.1.bytes, g.1.err⟩, b, g.2)
    else
      let g := rd.read b.size s
      if g.1.bytes = [] then (⟨[], g.1.err⟩, b, g.2)
      else (⟨g.1.bytes.take n, none⟩, { b with win := g.1.bytes.drop n, err := g.1.err }, g.2)
  else (⟨b.win.take n, none⟩, { b with win := b.win.drop n }, s)

/-- Go's `ReadByte()`: fill an empty buffer once; `fill` leaves either a byte or an error. -/
def readByte (b : BufReader) (s : ω) : (UInt8 × Option GoErr) × BufReader × ω :=
  match b.win with
  | c :: rest => ((c, none), { b with win := rest }, s)
  | [] =>
    if b.err ≠ none then ((0, (readErr b).1), (readErr b).2, s)
    else
      let f := fill rd b s
      match f.1.win with
      | c :: rest => ((c, none), { f.1 with win := rest }, f.2)
      | [] => ((0, (readErr f.1).1), (readErr f.1).2, f.2)

/-- The loop of Go's `Discard(n)`: skip what is buffered, filling when empty, until `n` bytes are
skipped or an error is pending. -/
def discardLoop (n : Nat) : Nat → Nat → BufReader → ω → (Nat × Option GoErr) × BufReader × ω
  | 0, remain, b, s => ((n - remain, none), b, s)
  | fuel + 1, remain, b, s =>
    let f : BufReader × ω := if b.win = [] then fill rd b s else (b, s)
    let skip := min f.1.win.length remain
    let b' := { f.1 with win := f.1.win.drop skip }
    if remain - skip = 0 then ((n, none), b', f.2)
    else if b'.err ≠ none then ((n - (remain - skip), (readErr b').1), (readErr b').2, f.2)
    else discardLoop n fuel (remain - skip) b' f.2

/-- Go's `Discard(n)` for `n ≥ 0`: each round skips a byte or ends, so `n + 1` rounds are
enough. -/
def discard (n : Nat) (b : BufReader) (s : ω) : (Nat × Option GoErr) × BufReader × ω :=
  if n = 0 then ((0, none), b, s) else discardLoop rd n (n + 1) n b s

/-- Go's `writeBuf(w)`: write the buffered bytes, drop what the writer took. -/
def writeBuf (w : IoWriter τ) (b : BufReader) (t : τ) : (Int × Option GoErr) × BufReader × τ :=
  let o := w.write b.win t
  ((o.1.n, o.1.err), { b with win := b.win.drop o.1.n.toNat }, o.2)

/-- The loop of Go's `WriteTo(w)` for a plain reader and writer: write the buffer, refill it,
until it stays empty. -/
def writeToLoop (w : IoWriter τ) : Nat → Int → BufReader → ω → τ →
    (Int × Option GoErr) × BufReader × ω × τ
  | 0, n, b, s, t => ((n, none), b, s, t)
  | fuel + 1, n, b, s, t =>
    if b.win = [] then
      let e := if b.err = some .eof then none else b.err
      ((n, e), { b with err := none }, s, t)
    else
      let o := writeBuf w b t
      if o.1.2 ≠ none then ((n + o.1.1, o.1.2), o.2.1, s, o.2.2)
      else
        let f := fill rd o.2.1 s
        writeToLoop w fuel (n + o.1.1) f.1 f.2 o.2.2

/-- Go's `WriteTo(w)` when neither the reader beneath is an `io.WriterTo` nor `w` an
`io.ReaderFrom`, with `fuel` rounds. -/
def writeTo (w : IoWriter τ) (fuel : Nat) (b : BufReader) (s : ω) (t : τ) :
    (Int × Option GoErr) × BufReader × ω × τ :=
  let o := writeBuf w b t
  if o.1.2 ≠ none then (o.1, o.2.1, s, o.2.2)
  else
    let f : BufReader × ω := if o.2.1.win.length < o.2.1.size then fill rd o.2.1 s else (o.2.1, s)
    writeToLoop rd w fuel o.1.1 f.1 f.2 o.2.2

/-- Go's `Reset(r)`: drop the buffer and the pending error (the caller switches the reader). -/
def reset (b : BufReader) : BufReader := { b with win := [], err := none }

end BufReader

/-! ## ForwardSeeker -/

/-- Go's `forwardSeeker`: the reader's state and the offset it has read to. -/
structure ForwardSeeker (σ : Type) where
  r : σ
  offset : Int
  deriving DecidableEq, Repr

namespace ForwardSeeker

variable (src : IoReader σ)

/-- The value Go's `whence` holds. -/
def whenceValue : Whence → Int
  | .start => 0
  | .current => 1
  | .fromEnd => 2
  | .other v => v

/-- Go's `Read(p)`: read and count. -/
def read (n : Nat) (fs : ForwardSeeker σ) : Got × ForwardSeeker σ :=
  let g := src.read n fs.r
  (g.1, ⟨g.2, fs.offset + g.1.bytes.length⟩)

/-- Go's `Seek(offset, whence)`: forward only, by `Discard`ing. -/
def seek (offset : Int) (whence : Whence) (fs : ForwardSeeker σ) :
    (Int × Option GoErr) × ForwardSeeker σ :=
  let skip? : Except GoErr Int := match whence with
    | .current => .ok offset
    | .start =>
      if offset < fs.offset then .error (.detail .unsupportedNegativeSeek [offset, fs.offset])
      else .ok (offset - fs.offset)
    | w => .error (.detail .invalidWhence [whenceValue w])
  match skip? with
  | .error e => ((fs.offset, some e), fs)
  | .ok skip =>
    if skip < 0 then ((fs.offset, some .unsupportedNegativeSeek), fs)
    else if skip = 0 then ((fs.offset, none), fs)
    else
      let d := discard src skip fs.r
      ((fs.offset + d.1.1, d.1.2), ⟨d.2, fs.offset + d.1.1⟩)

/-- The forward seeker as an `io.ReadSeeker`. -/
def readSeeker : IoReadSeeker (ForwardSeeker σ) := ⟨read src, seek src⟩

/-- The reader beneath, read directly: the seeker's offset does not move. -/
def bypass : IoReader (ForwardSeeker σ) :=
  ⟨fun n fs => let g := src.read n fs.r; (g.1, { fs with r := g.2 })⟩

end ForwardSeeker

/-! ## bufioReaderAdapter -/

/-- Go's `bufioReaderAdapter` over the world state `ω` shared by the `bufio.Reader`'s reader and
the seeker: the `bufio.Reader`, its position `pos`, and whether the `bufio.Reader` has been
`Reset` onto the seeker. -/
structure BufAdapter (ω : Type) where
  buf : BufReader
  pos : Int
  onSeeker : Bool
  world : ω

namespace BufAdapter

/-- The readers an adapter works with: the one the `bufio.Reader` was made over, the seeker (as a
reader and as a seeker), if there is one. -/
structure Parts (ω : Type) where
  rd : IoReader ω
  seeker : Option (IoReadSeeker ω)

variable (ps : Parts ω)

/-- The reader the `bufio.Reader` reads now. -/
def current (a : BufAdapter ω) : IoReader ω :=
  match a.onSeeker, ps.seeker with
  | true, some sk => sk.toIoReader
  | _, _ => ps.rd

/-- Go's `Read(p)`: read through the `bufio.Reader`, count the position. -/
def read (n : Nat) (a : BufAdapter ω) : Got × BufAdapter ω :=
  let o := a.buf.read (current ps a) n a.world
  (o.1, { a with buf := o.2.1, world := o.2.2, pos := a.pos + o.1.bytes.length })

/-- Go's `ReadByte()`. -/
def readByte (a : BufAdapter ω) : (UInt8 × Option GoErr) × BufAdapter ω :=
  let o := a.buf.readByte (current ps a) a.world
  let pos := if o.1.2 = none then a.pos + 1 else a.pos
  (o.1, { a with buf := o.2.1, world := o.2.2, pos := pos })

/-- Go's `WriteTo(w)`, with `fuel` rounds. -/
def writeTo (w : IoWriter τ) (fuel : Nat) (a : BufAdapter ω) (t : τ) :
    (Int × Option GoErr) × BufAdapter ω × τ :=
  let o := a.buf.writeTo (current ps a) w fuel a.world t
  (o.1, { a with buf := o.2.1, world := o.2.2.1, pos := a.pos + o.1.1 }, o.2.2.2)

/-- Go's `Seek(offset, whence)`: inside the buffer by `Discard`; otherwise through the seeker,
resetting the `bufio.Reader` onto it; with no seeker, forward by `Discard` through the adapter
itself. -/
def seek (offset : Int) (whence : Whence) (a : BufAdapter ω) : (Int × Option GoErr) × BufAdapter ω :=
  let target? : Except ((Int × GoErr) × BufAdapter ω) (Int × BufAdapter ω) :=
    match whence, ps.seeker with
    | .start, _ => .ok (offset, a)
    | .current, _ => .ok (a.pos + offset, a)
    | .fromEnd, none => .error ((a.pos, .invalidWhence), a)
    | .fromEnd, some sk =>
      let o := sk.seek 0 .fromEnd a.world
      match o.1.2 with
      | some e => .error ((0, e), { a with world := o.2 })
      | none => .ok (o.1.1 + offset, { a with world := o.2 })
    | .other _, _ => .error ((0, .invalidWhence), a)
  match target? with
  | .error ((p, e), a) => ((p, some e), a)
  | .ok (target, a) =>
    if a.pos ≤ target ∧ target < a.pos + a.buf.win.length then
      let d := a.buf.discard (current ps a) (target - a.pos).toNat a.world
      ((a.pos + d.1.1, d.1.2), { a with buf := d.2.1, world := d.2.2, pos := a.pos + d.1.1 })
    else
      match ps.seeker with
      | some sk =>
        let o := sk.seek target .start a.world
        match o.1.2 with
        | some e => ((0, some e), { a with world := o.2 })
        | none => ((o.1.1, none),
            { a with buf := a.buf.reset, world := o.2, pos := o.1.1, onSeeker := true })
      | none =>
        if target < a.pos then ((a.pos, some .unsupportedNegativeSeek), a)
        else
          let d := discard ⟨fun n a => read ps n a⟩ (target - a.pos) a
          ((d.2.pos, d.1.2), d.2)

/-- The adapter `NewReaderSize` builds over a reader that cannot seek: the `bufio.Reader` reads
the reader directly, the seeker is `ForwardSeeker(r)` over it. -/
def overForward (src : IoReader σ) : Parts (ForwardSeeker σ) :=
  ⟨ForwardSeeker.bypass src, some (ForwardSeeker.readSeeker src)⟩

/-- The adapter `NewReaderSize` builds over an `io.ReadSeeker`, its own seeker. -/
def overSeeker (rs : IoReadSeeker σ) : Parts σ := ⟨rs.toIoReader, some rs⟩

/-- A fresh adapter with a `bufio.Reader` of `size` over the world `w`. -/
def start (size : Int) (w : ω) : BufAdapter ω := ⟨BufReader.new size, 0, false, w⟩

/-- The adapter as a `ReaderPro`. -/
def pro : ReaderPro (BufAdapter ω) where
  read := read ps
  writeTo w fuel a t := writeTo ps w fuel a t
  readByte := readByte ps
  seek := seek ps
  size a := a.buf.size

end BufAdapter

/-- A `*BytesReader` as a `ReaderPro`. -/
def BytesReader.pro : ReaderPro BytesReader where
  read := BytesReader.read
  writeTo w _ r t := BytesReader.writeTo w r t
  readByte := BytesReader.readByte
  seek := BytesReader.seek
  size r := r.b.length

end Codec
