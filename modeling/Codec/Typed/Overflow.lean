import Codec.Typed.RoundTrip
import Codec.SliceWriter

/-!
# Typed writes into a byte slice that is too small

`NewWriterSize` puts a `*BytesWriter` under the typed `Writer` as it is, and `MarshalBinary` and
`MarshalTo` write through it into a caller's slice. The slice writer keeps what fits of each write
and answers `io.ErrShortWrite` for the rest; read on the bounded buffer it denotes
(`BytesWriter.toBuf`), every write of a value appends the value's bytes, as much as fits. The typed
writer latches the first `io.ErrShortWrite`, and the slice is full by then, so what it skips
afterwards would have changed nothing: the slice ends up holding the longest prefix of the
values' bytes that fits, whatever the values.

## Key lemmas

* `BoundedBuf.append_append` — appending twice is appending once what both were given.
* `SliceFill` — the state of a typed writer over a slice writer after it was given `bs`.
* `Writer.write_fill`, `Writer.putByte_fill` — a `Write` and a `WriteByte` keep it.
* `Item.writeOp_fill` — so does the write of any value; `writeRun_fill` — and of any run.
* `slice_overflow_latches` — from `NewBytesWriter(p)`, over any values.
* `writeZeros_slice_err` — `WriteZeros` into a slice: the same bytes on both of its paths, but
  past `BUFFER_SIZE` a slice with room for only some of the zeros gets `io.EOF` latched, where
  the shorter path latches `io.ErrShortWrite`.
-/

namespace Codec

variable {σ ω : Type}

namespace BoundedBuf

/-- What the second append no longer has room for the first already cut off. -/
theorem append_append (a : BoundedBuf) (p q : List UInt8) :
    (a.append p).append q = a.append (p ++ q) := by
  refine BoundedBuf.ext rfl ?_
  simp only [append, room, List.length_append, List.length_take, List.append_assoc,
    List.take_append_eq_append_take]
  congr 3; omega

/-- The bytes a buffer filled from empty holds: those of its input that fit. -/
@[simp] theorem empty_append_data (L : Nat) (bs : List UInt8) :
    ((empty L).append bs).data = bs.take L := by
  simp [empty, append, room]

end BoundedBuf

/-- A typed `Writer` over a slice writer of `L` bytes after it was given the bytes `bs`: the slice
holds what fits of `bs`, the count is the slice writer's position, and either no error is latched
and all of `bs` fitted, or `io.ErrShortWrite` is latched and the slice is full. -/
structure SliceFill (L : Nat) (bs : List UInt8) (w : Writer) (t : BytesWriter) : Prop where
  sound : t.n ≤ t.b.length
  len : t.b.length = L
  buf : t.toBuf = (BoundedBuf.empty L).append bs
  count : w.count = t.n
  err : w.err = none ∧ bs.length ≤ L ∨ w.err = some .shortWrite ∧ t.n = L

namespace SliceFill

variable {L : Nat} {bs : List UInt8} {w : Writer} {t : BytesWriter}

/-- With no error latched, the slice writer's position is the number of bytes given. -/
theorem n_eq (hi : SliceFill L bs w t) (hw : w.err = none) : t.n = bs.length := by
  have hl := congrArg List.length (congrArg BoundedBuf.data hi.buf)
  simp only [BoundedBuf.empty_append_data, List.length_take] at hl
  have : t.toBuf.data.length = t.n := BytesWriter.length_bytes hi.sound
  rcases hi.err with ⟨-, hle⟩ | ⟨he, -⟩
  · omega
  · simp [hw] at he

/-- A full slice takes nothing more: whatever else it is given, it holds the same. -/
theorem of_full (hi : SliceFill L bs w t) (hf : L ≤ t.n) (b : List UInt8) :
    t.toBuf = (BoundedBuf.empty L).append (bs ++ b) := by
  have := hi.len
  rw [← BoundedBuf.append_append, ← hi.buf,
    BoundedBuf.append_of_full (BytesWriter.room_toBuf_of_full hi.sound (by omega))]

/-- A latched error keeps the state for any further bytes. -/
theorem latched (hi : SliceFill L bs w t) (hw : w.err ≠ none) (b : List UInt8) :
    SliceFill L (bs ++ b) w t := by
  rcases hi.err with ⟨he, -⟩ | ⟨he, hf⟩
  · exact absurd he hw
  · exact ⟨hi.sound, hi.len, hi.of_full hf.ge b, hi.count, .inr ⟨he, hf⟩⟩

/-- On a full slice, a write that latches `io.ErrShortWrite` and moves nothing keeps the state. -/
theorem short_of_full (hi : SliceFill L bs w t) (hf : t.b.length ≤ t.n) (b : List UInt8) :
    SliceFill L (bs ++ b) { w with err := some .shortWrite } t := by
  have := hi.len
  have := hi.sound
  exact ⟨hi.sound, hi.len, hi.of_full (by omega) b, hi.count, .inr ⟨rfl, by omega⟩⟩

/-- Where there is room, copying what fits of `b` keeps the state, with the count moved by what
was copied; the error to latch is `io.ErrShortWrite` if not all of `b` fitted. -/
theorem put (hi : SliceFill L bs w t) (hw : w.err = none) (hlt : t.n < t.b.length) (b : List UInt8) :
    SliceFill L (bs ++ b)
      { w with count := w.count + (min b.length (t.b.length - t.n) : Nat),
               err := if min b.length (t.b.length - t.n) < b.length then some .shortWrite else none }
      (t.put b) := by
  have hn := hi.n_eq hw
  have := hi.len
  refine ⟨BytesWriter.put_sound hi.sound b, (BytesWriter.put_length t b hi.sound).trans hi.len,
    by rw [BytesWriter.put_toBuf hi.sound, hi.buf, BoundedBuf.append_append],
    by rw [BytesWriter.put_n, hi.count]; push_cast; rfl, ?_⟩
  by_cases hs : min b.length (t.b.length - t.n) < b.length
  · exact .inr ⟨if_pos hs, by rw [BytesWriter.put_n]; omega⟩
  · exact .inl ⟨if_neg hs, by rw [List.length_append]; omega⟩

end SliceFill

namespace Writer

variable {L : Nat} {bs : List UInt8} {w : Writer} {t : BytesWriter}

/-- **A `Write` into a slice writer** appends what fits and counts it; its error, latched, is
`io.ErrShortWrite`, which it returns exactly when the slice was full or not all fitted. -/
theorem write_fill (hi : SliceFill L bs w t) (hw : w.err = none) (b : List UInt8) :
    SliceFill L (bs ++ b) (write BytesWriter.pro (some b) w t).2.1 (write BytesWriter.pro (some b) w t).2.2 ∧
      (write BytesWriter.pro (some b) w t).2.1.order = w.order ∧
      (write BytesWriter.pro (some b) w t).2.1.depth = w.depth := by
  by_cases hf : t.b.length ≤ t.n
  · have e : (write BytesWriter.pro (some b) w t).2 = ({ w with err := some .shortWrite }, t) := by
      simp [write, BytesWriter.pro, BytesWriter.write, hf, hw, setError]
    rw [e]
    exact ⟨hi.short_of_full hf b, rfl, rfl⟩
  · have hlt : t.n < t.b.length := by omega
    have e : (write BytesWriter.pro (some b) w t).2 =
        ({ w with count := w.count + (min b.length (t.b.length - t.n) : Nat),
                  err := if min b.length (t.b.length - t.n) < b.length then some .shortWrite else none },
          t.put b) := by
      simp only [write, BytesWriter.pro, BytesWriter.write_of_lt hlt, hw, ne_eq, not_true_eq_false,
        if_false, setError, if_true]
    rw [e]
    exact ⟨hi.put hw hlt b, rfl, rfl⟩

/-- **A `WriteByte` into a slice writer** appends the byte if there is room, and otherwise
latches `io.ErrShortWrite`. -/
theorem putByte_fill (hi : SliceFill L bs w t) (hw : w.err = none) (c : UInt8) :
    SliceFill L (bs ++ [c]) (putByte BytesWriter.pro c w t).2.1 (putByte BytesWriter.pro c w t).2.2 ∧
      (putByte BytesWriter.pro c w t).2.1.order = w.order ∧
      (putByte BytesWriter.pro c w t).2.1.depth = w.depth := by
  by_cases hf : t.b.length ≤ t.n
  · have e : (putByte BytesWriter.pro c w t).2 = ({ w with err := some .shortWrite }, t) := by
      simp [putByte, BytesWriter.pro, BytesWriter.writeByte, hf, hw]
    rw [e]
    exact ⟨hi.short_of_full hf [c], rfl, rfl⟩
  · have hlt : t.n < t.b.length := by omega
    have e : (putByte BytesWriter.pro c w t).2 = ({ w with count := w.count + 1 }, t.put [c]) := by
      simp [putByte, BytesWriter.pro, BytesWriter.writeByte, hf, hw]
    -- the byte fits: `put` is the state's own step, with the count moved by one and no error
    obtain ⟨hs, hl, hb, -, -⟩ := hi.put hw hlt [c]
    have hn := hi.n_eq hw
    have := hi.len
    rw [e]
    refine ⟨⟨hs, hl, hb, ?_, .inl ⟨hw, by rw [List.length_append, List.length_singleton]; omega⟩⟩,
      rfl, rfl⟩
    show w.count + 1 = ((t.n + min 1 (t.b.length - t.n) : Nat) : Int)
    rw [hi.count]; omega

end Writer

namespace Item

/-- **Writing one value into a slice writer** appends its bytes, as much as fits, answers
nothing and keeps the state; it changes nothing once an error is latched. -/
theorem writeOp_fill {L : Nat} {bs : List UInt8} (i : Item) {w : Writer} {t : BytesWriter}
    (hi : SliceFill L bs w t) :
    ∃ w' t', (i.writeOp : WriterOp σ ω).exec BytesWriter.pro w t = (.none, i.writeOp, w', t') ∧
      SliceFill L (bs ++ i.wire w.order) w' t' ∧ w'.order = w.order ∧ w'.depth = w.depth := by
  by_cases hw : w.err = none
  · cases i with
    | bool v =>
      obtain ⟨h1, h2, h3⟩ := Writer.putByte_fill hi hw (bif v then 1 else 0)
      exact ⟨_, _, rfl, h1, h2, h3⟩
    | uint8 v =>
      obtain ⟨h1, h2, h3⟩ := Writer.putByte_fill hi hw v
      exact ⟨_, _, rfl, h1, h2, h3⟩
    | int8 v =>
      obtain ⟨h1, h2, h3⟩ := Writer.putByte_fill hi hw (UInt8.ofNat v.toNat)
      exact ⟨_, _, rfl, h1, h2, h3⟩
    | bytes b =>
      obtain ⟨h1, h2, h3⟩ := Writer.write_fill hi hw b
      exact ⟨_, _, by simp [writeOp, WriterOp.exec, Writer.writeBytes, hw], h1, h2, h3⟩
    | uint16 v | uint32 v | uint64 v | int16 v | int32 v | int64 v =>
      obtain ⟨h1, h2, h3⟩ := Writer.write_fill hi hw _
      exact ⟨_, _, by simp [writeOp, WriterOp.exec, Writer.writeUint16, Writer.writeUint32,
        Writer.writeUint64, Writer.writeInt16, Writer.writeInt32, Writer.writeInt64, Writer.putWord,
        wire, hw], h1, h2, h3⟩
  · have ha : ((i.writeOp : WriterOp σ ω).exec BytesWriter.pro w t).1 = .none := by cases i <;> rfl
    exact ⟨w, t, Prod.ext ha (WriterOp.exec_latched BytesWriter.pro _ w t hw).1, hi.latched hw _,
      rfl, rfl⟩

end Item

/-- **A run of writes into a slice writer** answers nothing and keeps the state for the run's
bytes. -/
theorem writeRun_fill {L : Nat} :
    ∀ (items : List Item) {bs : List UInt8} {w : Writer} {t : BytesWriter}, SliceFill L bs w t →
      ∃ w' t', WriterOp.run BytesWriter.pro (items.map Item.writeOp : List (WriterOp σ ω)) w t =
          (items.map fun _ => .none, items.map Item.writeOp, w', t') ∧
        SliceFill L (bs ++ wireOf w.order items) w' t' ∧ w'.order = w.order ∧ w'.depth = w.depth
  | [], _, w, t, hi => ⟨w, t, rfl, by simpa using hi, rfl, rfl⟩
  | i :: items, bs, w, t, hi => by
    obtain ⟨w₁, t₁, e₁, hi₁, ho₁, hd₁⟩ := Item.writeOp_fill (σ := σ) (ω := ω) i hi
    obtain ⟨w', t', e, hi', ho', hd'⟩ := writeRun_fill items hi₁
    refine ⟨w', t', ?_, ?_, ho'.trans ho₁, hd'.trans hd₁⟩
    · simp only [List.map_cons, WriterOp.run, e₁, e]
    · simpa only [ho₁, wireOf_cons, List.append_assoc] using hi'

/-! ## Zeros into a slice -/

namespace Writer

variable {w : Writer} {t : BytesWriter}

/-- A `Write` into a slice writer, whole: what fits is appended and counted, and
`io.ErrShortWrite` is latched when the slice was full or not all fitted. -/
theorem write_slice (hw : w.err = none) (ht : t.n ≤ t.b.length) (b : List UInt8) :
    (write BytesWriter.pro (some b) w t).2.2.toBuf = t.toBuf.append b ∧
      (write BytesWriter.pro (some b) w t).2.1.count = w.count + (min b.length (t.b.length - t.n) : Nat) ∧
      (write BytesWriter.pro (some b) w t).2.1.err =
        if t.b.length ≤ t.n ∨ t.b.length - t.n < b.length then some .shortWrite else none := by
  by_cases hf : t.b.length ≤ t.n
  · have hz : min b.length (t.b.length - t.n) = 0 := by omega
    simp [write, BytesWriter.pro, BytesWriter.write, hf, hw, setError, hz,
      BoundedBuf.append_of_full (BytesWriter.room_toBuf_of_full ht hf)]
  · have hlt : t.n < t.b.length := by omega
    have hs : min b.length (t.b.length - t.n) < b.length ↔ t.b.length - t.n < b.length := by
      constructor <;> intro <;> omega
    refine ⟨?_, ?_, ?_⟩ <;>
      simp only [write, BytesWriter.pro, BytesWriter.write_of_lt hlt, hw, ne_eq, not_true_eq_false,
        if_false, setError, if_true, hf, false_or, hs]
    exact BytesWriter.put_toBuf ht b

/-- `io.CopyN(w, Zero, n)` into a typed writer over a slice writer: its `ReadFrom` makes one read
of the room left from `n` zeros, so the zeros that fit are appended and counted; the error is the
slice writer's `io.ErrShortWrite` if it was full, and `io.CopyN`'s `io.EOF` if the read came back
short without one. -/
theorem copyZeros_slice (hw : w.err = none) (ht : t.n ≤ t.b.length) {n : Nat} (hn : 0 < n) :
    (copyZeros BytesWriter.pro n w t).2.2.toBuf = t.toBuf.append (List.replicate n 0) ∧
      (copyZeros BytesWriter.pro n w t).2.1.count = w.count + (min n (t.b.length - t.n) : Nat) ∧
      (copyZeros BytesWriter.pro n w t).2.1.err =
        (if t.b.length ≤ t.n then some .shortWrite else none) ∧
      (copyZeros BytesWriter.pro n w t).1.2 =
        if t.b.length ≤ t.n then some .shortWrite
        else if t.b.length - t.n < n then some .eof else none := by
  by_cases hf : t.b.length ≤ t.n
  · have hz : min n (t.b.length - t.n) = 0 := by omega
    simp [copyZeros, readFrom, BytesWriter.pro, BytesWriter.readFrom, hf, hw, setError, hz,
      copyNResult, show ¬((0 : Int) = n) by omega,
      BoundedBuf.append_of_full (BytesWriter.room_toBuf_of_full ht hf)]
  · have hz := zero_limit_read (t.b.length - t.n) (show (0 : Int) < n by omega)
    simp only [Int.toNat_ofNat] at hz
    have hput : (t.put (List.replicate (min (t.b.length - t.n) n) 0)).toBuf =
        t.toBuf.append (List.replicate n 0) := by
      rw [← List.take_replicate, BytesWriter.put_take, BytesWriter.put_toBuf ht]
    refine ⟨?_, ?_, ?_, ?_⟩ <;>
      simp only [copyZeros, readFrom, BytesWriter.pro, BytesWriter.readFrom, hf, hw, hz, if_false,
        ne_eq, not_true_eq_false, setError, if_true, List.length_replicate, copyNResult]
    · exact hput
    · rw [Nat.min_comm]
    · simp
    · by_cases hlt : t.b.length - t.n < n
      · have h1 : ((min (t.b.length - t.n) n : Nat) : Int) ≠ n := by omega
        have h2 : ((min (t.b.length - t.n) n : Nat) : Int) < n := by omega
        rw [if_neg h1, if_pos ⟨h2, by split <;> rfl⟩, if_pos hlt]
      · have h1 : ((min (t.b.length - t.n) n : Nat) : Int) = n := by omega
        rw [if_pos h1, if_neg hlt]

end Writer

/-- **`WriteZeros(n)` into a slice writer.** With no error latched, over a slice writer with its
position in its slice, `WriteZeros(n)` for `n > 0` appends the zeros that fit to the slice's
buffer and counts them, whichever path it takes. The error it latches is none if all fitted;
otherwise it depends on the path: `io.ErrShortWrite` from the slice writer's `Write` up to
`BUFFER_SIZE` zeros, or when the slice is already full; but `io.EOF` beyond `BUFFER_SIZE` when
some fitted, which `io.CopyN` reports when the one read of `BytesWriter.ReadFrom` comes back short
without an error. -/
theorem writeZeros_slice_err {w : Writer} {t : BytesWriter} (hw : w.err = none)
    (ht : t.n ≤ t.b.length) {n : Nat} (hn : 0 < n) :
    (w.writeZeros BytesWriter.pro n t).2.toBuf = t.toBuf.append (List.replicate n 0) ∧
      (w.writeZeros BytesWriter.pro n t).1.count = w.count + (min n (t.b.length - t.n) : Nat) ∧
      (w.writeZeros BytesWriter.pro n t).1.err =
        if n ≤ t.b.length - t.n then none
        else if n ≤ bufferSize ∨ t.b.length ≤ t.n then some .shortWrite else some .eof := by
  have hn' : ¬((n : Int) ≤ 0) := by omega
  by_cases hb : n ≤ bufferSize
  · obtain ⟨h1, h2, h3⟩ := Writer.write_slice hw ht (List.replicate n 0)
    have e : w.writeZeros BytesWriter.pro n t = (Writer.write BytesWriter.pro (some (List.replicate n 0)) w t).2 := by
      simp [Writer.writeZeros, hw, hn', show (n : Int) ≤ (bufferSize : Int) by exact_mod_cast hb]
    rw [e, List.length_replicate] at *
    refine ⟨h1, h2, ?_⟩
    rw [h3]
    split_ifs <;> first | rfl | omega
  · obtain ⟨h1, h2, h3, h4⟩ := Writer.copyZeros_slice hw ht hn
    have e : w.writeZeros BytesWriter.pro n t =
        ((Writer.copyZeros BytesWriter.pro n w t).2.1.setError (Writer.copyZeros BytesWriter.pro n w t).1.2,
          (Writer.copyZeros BytesWriter.pro n w t).2.2) := by
      simp [Writer.writeZeros, hw, hn', show ¬ (n : Int) ≤ (bufferSize : Int) by exact_mod_cast hb]
    rw [e]
    refine ⟨h1, by unfold Writer.setError; split <;> exact h2, ?_⟩
    by_cases hf : t.b.length ≤ t.n
    · simp [Writer.setError, h3, h4, hf, hn.ne', show ¬ n ≤ t.b.length - t.n by omega]
    · by_cases hle : n ≤ t.b.length - t.n
      · simp [Writer.setError, h3, h4, hf, hle, show ¬ t.b.length - t.n < n by omega]
      · simp [Writer.setError, h3, h4, hf, hle, hb, show t.b.length - t.n < n by omega]

theorem writeZeros_slice_err_past_buffer :
    let w : Writer := ⟨0, none, 0, .bigEndian⟩
    let t : BytesWriter := ⟨[7, 0, 0, 0], 1⟩
    let n : Nat := 5000
    (w.writeZeros BytesWriter.pro n t).2.toBuf = t.toBuf.append (List.replicate n 0) ∧
      (w.writeZeros BytesWriter.pro n t).1.count = w.count + (min n (t.b.length - t.n) : Nat) ∧
      (w.writeZeros BytesWriter.pro n t).1.err =
        if n ≤ t.b.length - t.n then none
        else if n ≤ bufferSize ∨ t.b.length ≤ t.n then some .shortWrite else some .eof :=
  writeZeros_slice_err rfl (by decide) (by decide)

/-- **Typed writes into a slice that is too small.** A typed `Writer` in byte order `o` over
`NewBytesWriter(p)`, which `NewWriterSize` puts under it as it is, writes any values. No write
answers anything. `Bytes()` is the longest prefix of the values' bytes that fits in `p`, `Count()`
is its length, and the error latched is nil or `io.ErrShortWrite`: `io.ErrShortWrite` whenever
the bytes did not all fit, and only once the slice is full. `Result()` reports the count and that
error. -/
theorem slice_overflow_latches (o : ByteOrder) (size : Int) (p : List UInt8) (items : List Item) :
    newWriterSize (some .bytesWriter) size = .ok .direct ∧
      ∃ w t, WriterOp.run BytesWriter.pro (items.map Item.writeOp : List (WriterOp Unit Unit))
          ⟨0, none, 0, o⟩ (BytesWriter.new p) = (items.map fun _ => .none, items.map Item.writeOp, w, t) ∧
        t.bytes = (wireOf o items).take p.length ∧ w.count = t.bytes.length ∧
        (w.err = none ∨ w.err = some .shortWrite) ∧
        (p.length < (wireOf o items).length → w.err = some .shortWrite) ∧
        (w.err = some .shortWrite → t.bytes.length = p.length) ∧
        (w.result BytesWriter.pro t).1 = ((t.bytes.length : Int), w.err) := by
  have h0 : SliceFill p.length [] ⟨0, none, 0, o⟩ (BytesWriter.new p) :=
    ⟨Nat.zero_le _, rfl, BoundedBuf.ext rfl (by simp [BytesWriter.toBuf, BytesWriter.bytes, BytesWriter.new]),
      rfl, .inl ⟨rfl, Nat.zero_le _⟩⟩
  obtain ⟨w, t, e, hi, ho, hd⟩ := writeRun_fill (σ := Unit) (ω := Unit) items h0
  simp only [List.nil_append] at hi ho hd
  have hb : t.bytes = (wireOf o items).take p.length := by
    simpa using congrArg BoundedBuf.data hi.buf
  have hl : t.bytes.length = t.n := BytesWriter.length_bytes hi.sound
  refine ⟨rfl, w, t, e, hb, by rw [hl, hi.count], ?_, fun hlt => ?_, fun he => ?_, ?_⟩
  · exact hi.err.imp And.left And.left
  · rcases hi.err with ⟨-, hle⟩ | ⟨he, -⟩
    · omega
    · exact he
  · rcases hi.err with ⟨he', -⟩ | ⟨-, hf⟩
    · simp [he'] at he
    · omega
  · rcases hi.err with ⟨he, -⟩ | ⟨he, -⟩ <;>
      simp [Writer.result, Writer.flush, he, hd, hl, hi.count, BytesWriter.pro, BytesWriter.flush]

end Codec
