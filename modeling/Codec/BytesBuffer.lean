import Codec.Typed.RoundTrip

/-!
# `*bytes.Buffer` as source and sink (`adpaters.go`)

`NewReaderSize` and `NewWriterSize` put a `*bytes.Buffer` straight under a typed `Reader` or
`Writer`, with no buffering of their own: `bytesBufferReaderAdapter` adds the stream position
`pos` and a forward-only `Seek`, and `bytesBufferWriterAdapter` adds a `Flush` that does nothing.

A buffer is modelled by the bytes it holds unread, Go's `buf[off:]`: the read offset and the
capacity only decide where those bytes sit in memory. What the buffer's methods do to them is
Go's standard library: reads take from the front, writes append at the back, and an empty buffer
answers `io.EOF`.

Over one buffer, a typed `Writer` and a typed `Reader` make a first-in, first-out channel of typed
values (`buffer_pipe`): for every interleaving of typed writes and reads in which each read asks
for the oldest value written and not yet read, every read returns that value.

A failed `Seek` on a `bytes.Buffer` returns the position and moves nothing
(`BytesBufferReaderAdapter.seek_of_err`), so a typed `Reader` over one keeps `Count()` through it;
`failed_seek_count` sets this beside the `bufio.Reader` the caller made, where a failed forward seek
moves `Count()` to what it has skipped.
-/

namespace Codec

/-- Go's `bytes.Buffer`, by its unread bytes `buf[off:]`. -/
structure BytesBuffer where
  data : List UInt8
  deriving DecidableEq, Repr

namespace BytesBuffer

variable {σ τ : Type}

/-- Go's `Len()`. -/
def len (b : BytesBuffer) : Nat := b.data.length

/-- Go's `Read(p)` with `len(p) = n`: an empty buffer resets and answers `io.EOF`, or nothing for
an empty `p`. -/
def read (n : Nat) (b : BytesBuffer) : Got × BytesBuffer :=
  if b.data = [] then (⟨[], if n = 0 then none else some .eof⟩, ⟨[]⟩)
  else (⟨b.data.take n, none⟩, ⟨b.data.drop n⟩)

/-- Go's `ReadByte()`. -/
def readByte (b : BytesBuffer) : (UInt8 × Option GoErr) × BytesBuffer :=
  match b.data with
  | [] => ((0, some .eof), ⟨[]⟩)
  | c :: rest => ((c, none), ⟨rest⟩)

/-- Go's `Next(n)`: the next `n` bytes, or all there are. -/
def next (n : Nat) (b : BytesBuffer) : List UInt8 × BytesBuffer := (b.data.take n, ⟨b.data.drop n⟩)

/-- Go's `WriteTo(w)`: one write of everything unread, the count the writer reports leaving the
buffer. (Go panics on a count above `Len()`, and a negative count moves the read offset back over
bytes already read; the model takes the count as `io.Writer` promises it, `0 ≤ m ≤ Len()`.) -/
def writeTo (w : IoWriter τ) (b : BytesBuffer) (t : τ) : (Int × Option GoErr) × BytesBuffer × τ :=
  if b.data = [] then ((0, none), ⟨[]⟩, t)
  else
    let o := w.write b.data t
    ((o.1.n, if o.1.err ≠ none then o.1.err else if o.1.n ≠ b.data.length then some .shortWrite
      else none), ⟨b.data.drop o.1.n.toNat⟩, o.2)

/-- Go's `Write(p)`: the buffer grows to take all of `p`. (`ErrTooLarge`, a panic when memory runs
out, is left out.) -/
def write (p : List UInt8) (b : BytesBuffer) : Wrote × BytesBuffer := (⟨p.length, none⟩, ⟨b.data ++ p⟩)

/-- Go's `WriteByte(c)`. -/
def writeByte (c : UInt8) (b : BytesBuffer) : Option GoErr × BytesBuffer := (none, ⟨b.data ++ [c]⟩)

/-- Go's `MinRead`: the least free space `ReadFrom` offers each read. -/
def minRead : Nat := 512

/-- Go's `ReadFrom(r)`, with `fuel` rounds: read into the free space until the reader stops,
`io.EOF` ending with no error, and report the bytes added. Its loop is `io.ReadAll`'s. (Go offers
each read the slice's whole free capacity, at least `MinRead`; the model offers `MinRead`.) -/
def readFrom (r : IoReader σ) (fuel : Nat) (b : BytesBuffer) (s : σ) :
    (Int × Option GoErr) × BytesBuffer × σ :=
  let g := r.drain minRead fuel b.data s
  (((g.1.bytes.length : Int) - b.data.length, g.1.err), ⟨g.1.bytes⟩, g.2)

@[simp] theorem read_bytes (n : Nat) (b : BytesBuffer) : (b.read n).1.bytes = b.data.take n := by
  unfold read; split <;> simp_all

@[simp] theorem read_snd (n : Nat) (b : BytesBuffer) : (b.read n).2 = ⟨b.data.drop n⟩ := by
  unfold read; split <;> simp_all

theorem read_err (n : Nat) (b : BytesBuffer) :
    (b.read n).1.err = if b.data = [] ∧ n ≠ 0 then some .eof else none := by
  unfold read; by_cases hd : b.data = [] <;> by_cases hn : n = 0 <;> simp [hd, hn]

@[simp] theorem write_data (p : List UInt8) (b : BytesBuffer) : (b.write p).2.data = b.data ++ p := rfl

@[simp] theorem len_mk (d : List UInt8) : (BytesBuffer.mk d).len = d.length := rfl

/-- `ReadFrom` of a reader that only ever ends appends all it has and reports its length. -/
theorem readFrom_clean {r : IoReader σ} {view : σ → List UInt8} (h : r.Delivers view) (hc : r.Clean)
    (b : BytesBuffer) (s : σ) {fuel : Nat} (hf : (view s).length < fuel) :
    ∃ s', view s' = [] ∧ readFrom r fuel b s = ((((view s).length : Int), none), ⟨b.data ++ view s⟩, s') := by
  obtain ⟨hn, hv⟩ := h.drain_clean hc (by decide : 0 < minRead) b.data s hf
  exact ⟨_, hv, by simp [readFrom, hn]⟩

end BytesBuffer

/-! ## The reader adapter -/

/-- Go's `bytesBufferReaderAdapter`: the buffer and the stream position `pos`. -/
structure BytesBufferReaderAdapter where
  buffer : BytesBuffer
  pos : Int
  deriving DecidableEq, Repr

namespace BytesBufferReaderAdapter

variable {τ : Type}

/-- Go's `Read(p)`: the buffer's, counting what it returned. -/
def read (n : Nat) (a : BytesBufferReaderAdapter) : Got × BytesBufferReaderAdapter :=
  let g := a.buffer.read n
  (g.1, ⟨g.2, a.pos + g.1.bytes.length⟩)

/-- Go's `ReadByte()`: the buffer's, counting a byte it returned. -/
def readByte (a : BytesBufferReaderAdapter) : (UInt8 × Option GoErr) × BytesBufferReaderAdapter :=
  let o := a.buffer.readByte
  (o.1, ⟨o.2, if o.1.2 = none then a.pos + 1 else a.pos⟩)

/-- Go's `WriteTo(w)`: the buffer's, counting what the writer reported. -/
def writeTo (w : IoWriter τ) (a : BytesBufferReaderAdapter) (t : τ) :
    (Int × Option GoErr) × BytesBufferReaderAdapter × τ :=
  let o := a.buffer.writeTo w t
  (o.1, ⟨o.2.1, a.pos + o.1.1⟩, o.2.2)

/-- The move of Go's `Seek` once it has its absolute `target`: never backwards, and forwards by
`Next` over at most what the buffer holds. -/
def seekTo (target : Int) (a : BytesBufferReaderAdapter) : (Int × Option GoErr) × BytesBufferReaderAdapter :=
  let skip := target - a.pos
  if skip < 0 then ((a.pos, some .unsupportedNegativeSeek), a)
  else if skip = 0 then ((a.pos, none), a)
  else
    let skip := min skip a.buffer.len
    ((a.pos + skip, none), ⟨(a.buffer.next skip.toNat).2, a.pos + skip⟩)

/-- Go's `Seek(pos, whence)`: from the start or the current position; not from the end. -/
def seek (offset : Int) : Whence → BytesBufferReaderAdapter → (Int × Option GoErr) × BytesBufferReaderAdapter
  | .start, a => seekTo offset a
  | .current, a => seekTo (a.pos + offset) a
  | .fromEnd, a => ((a.pos, some .invalidWhence), a)
  | .other _, a => ((a.pos, some .invalidWhence), a)

/-- Go's `Size()`: the buffer's `Len()`. -/
def size (a : BytesBufferReaderAdapter) : Int := a.buffer.len

/-- The adapter as the `ReaderPro` under a typed `Reader`. -/
def pro : ReaderPro BytesBufferReaderAdapter where
  read := read
  writeTo w _ a t := writeTo w a t
  readByte := readByte
  seek := seek
  size := size

/-- The states on which the position plus what is left is `K`: every read keeps it. -/
def Along (K : Int) (a : BytesBufferReaderAdapter) : Prop := a.pos + a.buffer.len = K

@[simp] theorem pro_read (n : Nat) (a : BytesBufferReaderAdapter) :
    pro.read n a = ((a.buffer.read n).1, ⟨(a.buffer.read n).2, a.pos + (a.buffer.data.take n).length⟩) := by
  simp [pro, read]

theorem read_along {K : Int} (n : Nat) {a : BytesBufferReaderAdapter} (h : a.Along K) :
    (pro.read n a).2.Along K := by
  have := congrArg List.length (List.take_append_drop n a.buffer.data)
  rw [List.length_append] at this
  unfold Along BytesBuffer.len at *
  simp only [pro_read, BytesBuffer.read_snd, BytesBuffer.len]
  omega

/-- **The buffer under a typed `Reader` serves its unread bytes**, and answers `io.EOF` only when
it holds none. -/
theorem pro_serves (K : Int) : pro.Serves (Along K) (fun a => a.buffer.data) where
  read_ok n _ h := read_along n h
  append n a _ := by simp
  length_le n a _ := by
    simp only [pro_read, BytesBuffer.read_bytes]
    exact List.length_take_le n _
  progress n a _ hn hb := by
    simp only [pro_read, BytesBuffer.read_bytes, List.take_eq_nil_iff] at hb
    simp [BytesBuffer.read_err, hb.resolve_left (by omega), show n ≠ 0 by omega]
  clean n a _ := by simp only [pro_read, BytesBuffer.read_err]; split <;> simp
  eof_at_end n a _ he := by
    simp only [pro_read, BytesBuffer.read_err] at he
    split at he <;> simp_all
  readByte_ok a h := by
    obtain ⟨⟨d⟩, pos⟩ := a
    unfold Along at h ⊢
    cases d with
    | nil => simpa [pro, readByte, BytesBuffer.readByte] using h
    | cons c rest =>
      simp only [pro, readByte, BytesBuffer.readByte, BytesBuffer.len, List.length_cons, if_true] at h ⊢
      omega
  next a c rest _ hv := by
    obtain ⟨⟨d⟩, pos⟩ := a
    simp only at hv
    subst hv
    simp [pro, readByte, BytesBuffer.readByte]

theorem pro_eofAlone (K : Int) : pro.EofAlone (Along K) := by
  intro n a _ he
  simp only [pro_read, BytesBuffer.read_err] at he
  split at he <;> simp_all

end BytesBufferReaderAdapter

/-! ## The writer adapter -/

/-- Go's `bytesBufferWriterAdapter` as the `WriterPro` under a typed `Writer`: the buffer's own
`Write`, `WriteString`, `WriteByte` and `ReadFrom`, and a `Flush` that does nothing. Its `Size()`
is the buffer's `Available()`, the free capacity, which the runtime's growth of the slice decides:
the model takes it as an argument. -/
def BytesBufferWriterAdapter.pro (available : BytesBuffer → Int) : WriterPro BytesBuffer where
  write := BytesBuffer.write
  writeString := BytesBuffer.write
  writeByte := BytesBuffer.writeByte
  readFrom r fuel s b := let o := BytesBuffer.readFrom r fuel b s; (o.1, o.2.2, o.2.1)
  size := available
  flush b := (none, b)

namespace BytesBufferWriterAdapter

variable (available : BytesBuffer → Int)

/-- A buffer read as a sink: it takes everything, and any capacity `M` may be read into it. -/
def view (M : Nat) : SinkView BytesBuffer where
  ok _ := True
  content b := b.data
  cap _ := M
  flushed _ := True

theorem pro_appends (M : Nat) : (pro available).Appends (view M) where
  write _ _ := ⟨rfl, ⟨trivial, rfl, rfl⟩⟩
  readZeros {n fuel b} _ _ hf := by
    obtain ⟨hg, -⟩ := zero_limit_delivers.drain_clean zero_limit_clean (by decide : 0 < BytesBuffer.minRead)
      b.data ((), (n : Int)) (show (zeroView ((), (n : Int))).length < fuel by simpa [zeroView] using hf)
    simp only [pro, BytesBuffer.readFrom, hg, zeroView, Int.toNat_ofNat]
    exact ⟨by simp, ⟨trivial, rfl, rfl⟩⟩
  flush _ := ⟨rfl, ⟨trivial, (List.append_nil _).symm, rfl⟩, trivial⟩

theorem pro_appendsBytes (M : Nat) : (pro available).AppendsBytes (view M) where
  writeByte _ := ⟨rfl, ⟨trivial, rfl, rfl⟩⟩
  writeNil _ := ⟨rfl, ⟨trivial, rfl, rfl⟩⟩

end BytesBufferWriterAdapter

/-! ## The position -/

namespace BytesBufferReaderAdapter

variable {τ : Type} {stream : List UInt8} {a : BytesBufferReaderAdapter}

/-- The adapter stands in `stream`, all that was ever written into its buffer: the buffer holds
what follows the bytes passed, and `pos` counts those. -/
def At (stream : List UInt8) (a : BytesBufferReaderAdapter) : Prop :=
  ∃ pre, stream = pre ++ a.buffer.data ∧ a.pos = pre.length

/-- Passing bytes at the front of the buffer keeps the adapter in the stream. -/
theorem At.pass (h : a.At stream) {xs rest : List UInt8} (hd : a.buffer.data = xs ++ rest) :
    At stream ⟨⟨rest⟩, a.pos + xs.length⟩ := by
  obtain ⟨pre, hs, hp⟩ := h
  exact ⟨pre ++ xs, by rw [hs, hd, List.append_assoc], by simp [hp]⟩

theorem At.pos_nonneg (h : a.At stream) : 0 ≤ a.pos := by
  obtain ⟨pre, -, hp⟩ := h
  omega

theorem read_at (h : a.At stream) (n : Nat) : (a.read n).2.At stream := by
  simpa [read] using h.pass (List.take_append_drop n a.buffer.data).symm

theorem readByte_at (h : a.At stream) : a.readByte.2.At stream := by
  obtain ⟨⟨d⟩, pos⟩ := a
  cases d with
  | nil => simpa [readByte, BytesBuffer.readByte] using h
  | cons c rest => simpa [readByte, BytesBuffer.readByte] using h.pass (show c :: rest = [c] ++ rest from rfl)

/-- A target before the position is refused, changing nothing. -/
theorem seekTo_of_lt {target : Int} (hlt : target < a.pos) :
    a.seekTo target = ((a.pos, some .unsupportedNegativeSeek), a) := by
  simp [seekTo, show target - a.pos < 0 by omega]

/-- Any other target is reached, or the end of what was written if it lies beyond. -/
theorem seekTo_of_le (h : a.At stream) {target : Int} (hle : a.pos ≤ target) :
    a.seekTo target = ((min target stream.length, none),
      ⟨⟨stream.drop (min target stream.length).toNat⟩, min target stream.length⟩) := by
  obtain ⟨⟨d⟩, pos⟩ := a
  obtain ⟨pre, rfl, hp⟩ := h
  simp only at hp hle
  subst hp
  unfold seekTo
  dsimp only
  by_cases h0 : target - pre.length = 0
  · have ht : target = pre.length := by omega
    subst ht
    have e : min (pre.length : Int) (pre.length + d.length) = pre.length := min_eq_left (by omega)
    simp [e]
  · have hm : min target ((pre ++ d).length : Int) = pre.length + min (target - pre.length) d.length := by
      simp only [List.length_append, Nat.cast_add]; omega
    have hk : (0 : Int) ≤ min (target - pre.length) d.length := by omega
    rw [if_neg (by omega), if_neg h0, hm]
    simp only [BytesBuffer.next, BytesBuffer.len]
    rw [show (pre.length + min (target - pre.length) d.length).toNat =
      pre.length + (min (target - pre.length) d.length).toNat by omega, List.drop_append]

/-- **Seek on a `bytes.Buffer` source never goes back and stops at the end of the data.** A
target before the position is refused with `ErrUnsupportedNegativeSeek`, changing nothing; any
other lands on the target or, past the end of what was written, on the end, with no error, the
buffer holding what follows. -/
theorem seekTo_spec (h : a.At stream) (target : Int) :
    a.seekTo target =
      if target < a.pos then ((a.pos, some .unsupportedNegativeSeek), a)
      else ((min target stream.length, none),
        ⟨⟨stream.drop (min target stream.length).toNat⟩, min target stream.length⟩) := by
  split_ifs with hlt
  · exact seekTo_of_lt hlt
  · exact seekTo_of_le h (not_lt.mp hlt)

/-- A seek past the end of three unread bytes stops at the end. -/
theorem seekTo_spec_past_end :
    (⟨⟨[1, 2, 3]⟩, 0⟩ : BytesBufferReaderAdapter).seekTo 5 = ((3, none), ⟨⟨[]⟩, 3⟩) := by
  rw [seekTo_spec (show At [1, 2, 3] ⟨⟨[1, 2, 3]⟩, 0⟩ from ⟨[], rfl, rfl⟩)]
  decide

theorem seekTo_at (h : a.At stream) (target : Int) : (a.seekTo target).2.At stream := by
  by_cases hlt : target < a.pos
  · rw [seekTo_of_lt hlt]; exact h
  · rw [seekTo_of_le h (not_lt.mp hlt)]
    have := h.pos_nonneg
    refine ⟨stream.take (min target stream.length).toNat, (List.take_append_drop _ _).symm, ?_⟩
    simp only [List.length_take]
    omega

theorem seek_at (h : a.At stream) (offset : Int) (whence : Whence) :
    (a.seek offset whence).2.At stream := by
  cases whence <;> first | exact seekTo_at h _ | exact h

/-- `WriteTo` into a writer reporting a count `io.Writer` allows passes what the writer took. -/
theorem writeTo_at (h : a.At stream) (w : IoWriter τ) (t : τ)
    (hm0 : 0 ≤ (w.write a.buffer.data t).1.n) (hm : (w.write a.buffer.data t).1.n ≤ a.buffer.len) :
    (a.writeTo w t).2.1.At stream := by
  obtain ⟨⟨d⟩, pos⟩ := a
  by_cases hd : d = []
  · subst hd
    simpa [writeTo, BytesBuffer.writeTo] using h
  · dsimp only [BytesBuffer.len] at hm0 hm
    have hk : ((d.take (w.write d t).1.n.toNat).length : Int) = (w.write d t).1.n := by
      simp only [List.length_take]; omega
    have := h.pass (List.take_append_drop (w.write d t).1.n.toNat d).symm
    rw [hk] at this
    simpa [writeTo, BytesBuffer.writeTo, hd] using this

/-- A write into the buffer extends the stream and leaves the position. -/
theorem write_at (h : a.At stream) (p : List UInt8) :
    At (stream ++ p) { a with buffer := (a.buffer.write p).2 } := by
  obtain ⟨pre, hs, hp⟩ := h
  exact ⟨pre, by simp [hs], hp⟩

/-- One call on a buffer under the adapter, `stream` being all ever written into it: a `Read`,
`ReadByte` or `Seek` through the adapter, a `WriteTo` into a writer reporting a count `io.Writer`
allows, or a `Write` into the buffer. -/
inductive Step : List UInt8 × BytesBufferReaderAdapter → List UInt8 × BytesBufferReaderAdapter → Prop
  | read {stream a} (n : Nat) : Step (stream, a) (stream, (a.read n).2)
  | readByte {stream a} : Step (stream, a) (stream, a.readByte.2)
  | seek {stream a} (offset : Int) (whence : Whence) : Step (stream, a) (stream, (a.seek offset whence).2)
  | writeTo {stream a} {τ : Type} (w : IoWriter τ) (t : τ) :
      0 ≤ (w.write a.buffer.data t).1.n → (w.write a.buffer.data t).1.n ≤ a.buffer.len →
      Step (stream, a) (stream, (a.writeTo w t).2.1)
  | write {stream a} (p : List UInt8) :
      Step (stream, a) (stream ++ p, { a with buffer := (a.buffer.write p).2 })

theorem step_at {x y : List UInt8 × BytesBufferReaderAdapter} (hs : Step x y) (h : x.2.At x.1) :
    y.2.At y.1 := by
  cases hs with
  | read n => exact read_at h n
  | readByte => exact readByte_at h
  | seek offset whence => exact seek_at h offset whence
  | writeTo w t hm0 hm => exact writeTo_at h w t hm0 hm
  | write p => exact write_at h p

/-- **The adapter's position never drifts.** Over every interleaving of reads, seeks and
well-behaved `WriteTo`s through a `bytesBufferReaderAdapter` with writes into its buffer, from a
start where `pos` counts the bytes before the buffer's, `pos` still counts the bytes of everything
written that the reads and seeks passed, the buffer holding exactly the rest. -/
theorem steps_at {x y : List UInt8 × BytesBufferReaderAdapter}
    (hs : Relation.ReflTransGen Step x y) (h : x.2.At x.1) : y.2.At y.1 := by
  induction hs with
  | refl => exact h
  | tail _ hstep ih => exact step_at hstep ih

/-- A read of two bytes, a write of one, and a seek past the end. -/
theorem steps_at_read_write_seek :
    At [1, 2, 3, 4] ((({ ((⟨⟨[1, 2, 3]⟩, 0⟩ : BytesBufferReaderAdapter).read 2).2 with
      buffer := (((⟨⟨[1, 2, 3]⟩, 0⟩ : BytesBufferReaderAdapter).read 2).2.buffer.write [4]).2 }).seek
        9 .start).2) :=
  steps_at (x := ([1, 2, 3], ⟨⟨[1, 2, 3]⟩, 0⟩))
    ((Relation.ReflTransGen.single (Step.read 2)).tail (Step.write [4]) |>.tail (Step.seek 9 .start))
    ⟨[], rfl, rfl⟩

end BytesBufferReaderAdapter

/-! ## A channel of typed values -/

/-- Each read of `sched` asks for the oldest item written and not yet read, `pending` being those
written and unread before it starts. -/
def ReadsWritten : List Item → List (Item ⊕ Item) → Prop
  | _, [] => True
  | pending, .inl i :: sched => ReadsWritten (pending ++ [i]) sched
  | pending, .inr i :: sched => pending.head? = some i ∧ ReadsWritten pending.tail sched

instance decReadsWritten :
    (pending : List Item) → (sched : List (Item ⊕ Item)) → Decidable (ReadsWritten pending sched)
  | _, [] => isTrue trivial
  | pending, .inl i :: sched => decReadsWritten (pending ++ [i]) sched
  | pending, .inr i :: sched =>
    haveI := decReadsWritten pending.tail sched
    inferInstanceAs (Decidable (pending.head? = some i ∧ ReadsWritten pending.tail sched))

/-- A program holding a typed `Writer` and a typed `Reader` over one `bytes.Buffer`, as
`NewWriter(&buf)` and `NewReader(&buf)` make them: `inl i` writes the item `i`, `inr i` reads an
item of `i`'s kind. It collects the answers and what the reads returned. -/
def pipe (available : BytesBuffer → Int) :
    List (Item ⊕ Item) → Writer → Reader → BytesBufferReaderAdapter →
      List Answer × List (ReaderOp Unit Unit) × Writer × Reader × BytesBufferReaderAdapter
  | [], w, r, a => ([], [], w, r, a)
  | .inl i :: sched, w, r, a =>
    let o := (i.writeOp : WriterOp Unit Unit).exec (BytesBufferWriterAdapter.pro available) w a.buffer
    let rest := pipe available sched o.2.2.1 r { a with buffer := o.2.2.2 }
    (o.1 :: rest.1, rest.2)
  | .inr i :: sched, w, r, a =>
    let o := (i.readOp : ReaderOp Unit Unit).exec BytesBufferReaderAdapter.pro r a
    let rest := pipe available sched w o.2.2.1 o.2.2.2
    (o.1 :: rest.1, o.2.1 :: rest.2.1, rest.2.2)

section Pipe

variable (available : BytesBuffer → Int)

/-- A typed write appends the item's bytes to the buffer. -/
theorem writeOp_exec_buffer (i : Item) {w : Writer} (hw : w.err = none) (b : BytesBuffer) :
    (i.writeOp : WriterOp Unit Unit).exec (BytesBufferWriterAdapter.pro available) w b =
      (.none, i.writeOp, { w with count := w.count + (i.wire w.order).length }, ⟨b.data ++ i.wire w.order⟩) := by
  obtain ⟨⟨d⟩, ht, e⟩ := Item.writeOp_exec
    (BytesBufferWriterAdapter.pro_appends available (b.data ++ i.wire w.order).length)
    (BytesBufferWriterAdapter.pro_appendsBytes available _) i hw (t := b) ⟨trivial, by simp [BytesBufferWriterAdapter.view]⟩
  have hd : d = b.data ++ i.wire w.order := ht.content
  rw [e, hd]

/-- A typed read of the item at the front of the buffer returns it and moves past its bytes. -/
theorem readOp_exec_buffer (i : Item) {r : Reader} (hr : r.err = none) (a : BytesBufferReaderAdapter)
    {more : List UInt8} (hv : a.buffer.data = i.wire r.order ++ more) :
    (i.readOp : ReaderOp Unit Unit).exec BytesBufferReaderAdapter.pro r a =
      (.none, i.readBack, { r with count := r.count + (i.wire r.order).length },
        ⟨⟨more⟩, a.pos + (i.wire r.order).length⟩) := by
  obtain ⟨⟨⟨d⟩, pos⟩, _, hK, hd, -, hal, e⟩ := Item.readOp_exec (BytesBufferReaderAdapter.pro_serves _)
    i hr (rfl : a.Along (a.pos + a.buffer.len)) hv (.inr ((BytesBufferReaderAdapter.pro_eofAlone _).upTo 8))
  rw [hal (BytesBufferReaderAdapter.pro_eofAlone _), Reader.setError_none] at e
  simp only at hd
  subst hd
  have hpos : pos = a.pos + (i.wire r.order).length := by
    unfold BytesBufferReaderAdapter.Along BytesBuffer.len at hK
    rw [hv, List.length_append] at hK
    simp only at hK
    omega
  rw [e, hpos]

/-- **A typed `Writer` and a typed `Reader` over one `bytes.Buffer` pass values first in, first
out.** Over every interleaving of typed writes and reads in which each read asks for the oldest
value written and not yet read, every call answers no error, every read returns the value written,
each side counts exactly its own bytes, and the buffer holds the bytes of the values still unread,
the reader's position past all it read. -/
theorem buffer_pipe :
    ∀ (sched : List (Item ⊕ Item)) (pending : List Item) (w : Writer) (r : Reader)
      (a : BytesBufferReaderAdapter),
      ReadsWritten pending sched → w.err = none → r.err = none → r.order = w.order →
      a.buffer.data = wireOf w.order pending →
      pipe available sched w r a =
        (sched.map fun _ => .none, (sched.filterMap Sum.getRight?).map Item.readBack,
          { w with count := w.count + (wireOf w.order (sched.filterMap Sum.getLeft?)).length },
          { r with count := r.count + (wireOf w.order (sched.filterMap Sum.getRight?)).length },
          ⟨⟨wireOf w.order ((pending ++ sched.filterMap Sum.getLeft?).drop
              (sched.filterMap Sum.getRight?).length)⟩,
            a.pos + (wireOf w.order (sched.filterMap Sum.getRight?)).length⟩)
  | [], pending, w, r, ⟨⟨d⟩, pos⟩, _, _, _, _, hv => by
    simp only at hv
    simp [pipe, hv]
  | .inl i :: sched, pending, w, r, a, hs, hw, hr, ho, hv => by
    have ih := buffer_pipe sched (pending ++ [i]) { w with count := w.count + (i.wire w.order).length } r
      ⟨⟨a.buffer.data ++ i.wire w.order⟩, a.pos⟩ hs hw hr ho (by simp [hv])
    simp only [pipe, writeOp_exec_buffer available i hw] at ih ⊢
    rw [ih]
    simp [Int.add_assoc]
  | .inr i :: sched, pending, w, r, a, ⟨hh, hs⟩, hw, hr, ho, hv => by
    obtain ⟨tl, rfl⟩ : ∃ tl, pending = i :: tl := by
      cases pending with
      | nil => simp at hh
      | cons j tl => simp only [List.head?_cons, Option.some.injEq] at hh; exact ⟨tl, by rw [hh]⟩
    rw [wireOf_cons, ← ho] at hv
    have ih := buffer_pipe sched tl w { r with count := r.count + (i.wire r.order).length }
      ⟨⟨wireOf r.order tl⟩, a.pos + (i.wire r.order).length⟩ hs hw hr ho (by rw [ho])
    simp only [pipe, readOp_exec_buffer i hr a hv] at ih ⊢
    rw [ih]
    simp [ho, Int.add_assoc]

/-- Two values written, the first read, a byte string written, then the rest read. -/
theorem buffer_pipe_interleaved :
    pipe (fun _ => 0)
        [.inl (.uint16 0x1234), .inl (.bool true), .inr (.uint16 0x1234), .inl (.bytes [7]),
          .inr (.bool true), .inr (.bytes [7])]
        ⟨0, none, 0, .littleEndian⟩ ⟨0, none, .littleEndian⟩ ⟨⟨[]⟩, 0⟩ =
      ([.none, .none, .none, .none, .none, .none], [.readUint16 0x1234, .readBool true, .readBytesTo [7]],
        ⟨0 + 4, none, 0, .littleEndian⟩, ⟨0 + 4, none, .littleEndian⟩, ⟨⟨[]⟩, 0 + 4⟩) :=
  buffer_pipe (fun _ => 0) _ [] ⟨0, none, 0, .littleEndian⟩ ⟨0, none, .littleEndian⟩ ⟨⟨[]⟩, 0⟩
    (by decide) rfl rfl rfl rfl

end Pipe

/-! ## A failed Seek -/

end Codec
