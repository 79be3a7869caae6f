import Codec.Util
import Codec.Binary

/-!
# The typed `Writer` (`writer.go`)

A `Writer` is a header (`count`, the latched `err`, the nesting `depth`, the byte `order`) in
front of a `WriterPro`, the buffered sink every write goes through. The two are kept apart in the
model: the header is a value, the sink is its methods over a state `τ`, and every operation maps a
header and a sink state to a result, a header and a sink state. Two writers that share one sink
(`NewWriterSize` over a `*Writer`) are then two headers over one `τ`.

Every operation of the source starts by returning when an error is latched; `Latch.lean` gathers
them into one language of calls and states that law once over it.
-/

namespace Codec

/-! ## Interfaces a writer talks to -/

/-- Go's `WriterPro`: `io.Writer`, `io.ReaderFrom`, `io.ByteWriter`, `io.StringWriter`, `Size`
and `Flush`, over the sink's state `τ`. `ReadFrom` loops until its reader ends in some sinks, and
is given a number of rounds. (`Close` is left out: no modelled function calls it.) -/
structure WriterPro (τ : Type) : Type 1 where
  write : List UInt8 → τ → Wrote × τ
  writeString : List UInt8 → τ → Wrote × τ
  writeByte : UInt8 → τ → Option GoErr × τ
  readFrom : {σ : Type} → IoReader σ → Nat → σ → τ → (Int × Option GoErr) × σ × τ
  size : τ → Int
  flush : τ → Option GoErr × τ

/-- The `io.Writer` view of a `WriterPro`. -/
def WriterPro.toIoWriter {τ : Type} (p : WriterPro τ) : IoWriter τ := ⟨p.write⟩

/-- Go's `io.WriterTo` over the state `ω` of the value: `WriteTo(w)` for any writer `w`. -/
structure IoWriterTo (ω : Type) : Type 1 where
  writeTo : {τ : Type} → IoWriter τ → ω → τ → (Int × Option GoErr) × ω × τ

/-- Go's `Zero`: a reader of endless zero bytes. -/
def zero : IoReader Unit := ⟨fun n _ => (⟨List.replicate n 0, none⟩, ())⟩

/-! ## The header -/

/-- The fields of Go's `Writer` besides the sink `w`. -/
structure Writer where
  count : Int
  err : Option GoErr
  depth : Nat
  order : ByteOrder
  deriving DecidableEq, Repr

namespace Writer

variable {τ σ ω : Type} (p : WriterPro τ)

/-- Go's `setError`: record the first non-nil error. -/
def setError (w : Writer) (e : Option GoErr) : Writer :=
  if w.err = none then { w with err := e } else w

/-- Go's `Write(buf)`; `none` is a nil slice. -/
def write (buf : Option (List UInt8)) (w : Writer) (t : τ) : (Int × Option GoErr) × Writer × τ :=
  match buf with
  | none => ((0, w.err), w, t)
  | some b =>
    if w.err ≠ none then ((0, w.err), w, t)
    else
      let o := p.write b t
      let w' := { w with count := w.count + o.1.n }.setError o.1.err
      ((o.1.n, w'.err), w', o.2)

/-- The typed writer as an `io.Writer`: its `Write`, handed a slice. -/
def ioWriter : IoWriter (Writer × τ) :=
  ⟨fun b st => let o := write p (some b) st.1 st.2; (⟨o.1.1, o.1.2⟩, o.2)⟩

/-- Go's `WriteString(str)`. -/
def writeString (str : List UInt8) (w : Writer) (t : τ) : (Int × Option GoErr) × Writer × τ :=
  if str = [] ∨ w.err ≠ none then ((0, w.err), w, t)
  else
    let o := p.writeString str t
    let w' := { w with count := w.count + o.1.n }.setError o.1.err
    ((o.1.n, w'.err), w', o.2)

/-- Go's `ReadFrom(r)`, with `fuel` rounds for the sink's loop; `none` is a nil reader. -/
def readFrom (r : Option (IoReader σ)) (fuel : Nat) (s : σ) (w : Writer) (t : τ) :
    (Int × Option GoErr) × σ × Writer × τ :=
  match r with
  | none => ((0, w.err), s, w, t)
  | some r =>
    if w.err ≠ none then ((0, w.err), s, w, t)
    else
      let o := p.readFrom r fuel s t
      let w' := { w with count := w.count + o.1.1 }.setError o.1.2
      ((o.1.1, w'.err), o.2.1, w', o.2.2)

/-- Go's `Flush()`: only the outermost writer flushes. -/
def flush (w : Writer) (t : τ) : Option GoErr × Writer × τ :=
  if w.depth > 0 ∨ w.err ≠ none then (w.err, w, t)
  else
    let o := p.flush t
    (o.1, w.setError o.1, o.2)

/-- Go's `Result()`: flush, then the count and the latched error. -/
def result (w : Writer) (t : τ) : (Int × Option GoErr) × Writer × τ :=
  let o := flush p w t
  ((o.2.1.count, o.2.1.err), o.2)

/-- Go's `WriteFrom(wt)`: the value writes itself into the sink; `none` is a nil `WriterTo`. -/
def writeFrom (wt : Option (IoWriterTo ω)) (v : ω) (w : Writer) (t : τ) : ω × Writer × τ :=
  match wt with
  | none => (v, w, t)
  | some wt =>
    if w.err ≠ none then (v, w, t)
    else
      let o := wt.writeTo p.toIoWriter v t
      (o.2.1, { w with count := w.count + o.1.1 }.setError o.1.2, o.2.2)

/-- Go's `WriteBytes(buf)`. -/
def writeBytes (buf : Option (List UInt8)) (w : Writer) (t : τ) : Writer × τ :=
  match buf with
  | none => (w, t)
  | some b => if w.err ≠ none then (w, t) else (write p (some b) w t).2

/-- Go's `io.CopyN(w, Zero, n)` into the writer itself: `io.Copy` finds `ReadFrom` on the
`*Writer` and hands it the limited `Zero`, which every round but the last reads from, so `n + 1`
rounds are enough. -/
def copyZeros (n : Int) (w : Writer) (t : τ) : (Int × Option GoErr) × Writer × τ :=
  let o := readFrom p (some zero.limit) (n.toNat + 1) ((), n) w t
  (copyNResult n o.1.1 o.1.2, o.2.2)

/-- Go's `WriteZeros(n)`: one write from the zero page up to `BUFFER_SIZE`, `io.CopyN` beyond. -/
def writeZeros (n : Int) (w : Writer) (t : τ) : Writer × τ :=
  if w.err ≠ none ∨ n ≤ 0 then (w, t)
  else if n ≤ bufferSize then (write p (some (List.replicate n.toNat 0)) w t).2
  else
    let o := copyZeros p n w t
    (o.2.1.setError o.1.2, o.2.2)

/-- Go's `Align(n)`: pad with zeros up to the next multiple of `n` of the count. -/
def align (n : Int) (w : Writer) (t : τ) : Writer × τ :=
  if n > 1 then writeZeros p (roundup w.count n - w.count) w t else (w, t)

/-! ## Primitive writes -/

/-- The body shared by the one-byte writes: `w.w.WriteByte(b)`, counting it on success and
latching the error otherwise. -/
def putByte (b : UInt8) (w : Writer) (t : τ) : Option GoErr × Writer × τ :=
  if w.err ≠ none then (w.err, w, t)
  else
    let o := p.writeByte b t
    match o.1 with
    | none => (none, { w with count := w.count + 1 }, o.2)
    | some e => (some e, { w with err := some e }, o.2)

/-- Go's `WriteByte(v)`. -/
def writeByte (v : UInt8) (w : Writer) (t : τ) : Option GoErr × Writer × τ := putByte p v w t

/-- Go's `WriteBool(v)`. -/
def writeBool (v : Bool) (w : Writer) (t : τ) : Writer × τ := (putByte p (bif v then 1 else 0) w t).2

/-- Go's `WriteUint8(v)`. -/
def writeUint8 (v : UInt8) (w : Writer) (t : τ) : Writer × τ := (putByte p v w t).2

/-- Go's `WriteInt8(v)`; an `int8` is held as its bits. -/
def writeInt8 (v : BitVec 8) (w : Writer) (t : τ) : Writer × τ :=
  (putByte p (UInt8.ofNat v.toNat) w t).2

/-- The body shared by the wider writes: the `k` bytes of `v` in the writer's order, with one
`Write`. -/
def putWord (k v : Nat) (w : Writer) (t : τ) : Writer × τ :=
  if w.err ≠ none then (w, t) else (write p (some (w.order.put k v)) w t).2

/-- Go's `WriteUint16(v)`. -/
def writeUint16 (v : UInt16) (w : Writer) (t : τ) : Writer × τ := putWord p 2 v.toNat w t

/-- Go's `WriteUint32(v)`. -/
def writeUint32 (v : UInt32) (w : Writer) (t : τ) : Writer × τ := putWord p 4 v.toNat w t

/-- Go's `WriteUint64(v)`. -/
def writeUint64 (v : UInt64) (w : Writer) (t : τ) : Writer × τ := putWord p 8 v.toNat w t

/-- Go's `WriteInt16(v)`: `PutUint16(uint16(v))`, the bits of `v`. -/
def writeInt16 (v : BitVec 16) (w : Writer) (t : τ) : Writer × τ := putWord p 2 v.toNat w t

/-- Go's `WriteInt32(v)`. -/
def writeInt32 (v : BitVec 32) (w : Writer) (t : τ) : Writer × τ := putWord p 4 v.toNat w t

/-- Go's `WriteInt64(v)`. -/
def writeInt64 (v : BitVec 64) (w : Writer) (t : τ) : Writer × τ := putWord p 8 v.toNat w t

end Writer

/-! ## Over a sink with room

The list codec writes through a typed `Writer` into a `bufio.Writer` over the caller's writer, or
straight into a `BytesWriter` (`MarshalBinary`, `MarshalTo`). Both are read as a `SinkView`: when
a state is sound, what it has taken so far (written through or still buffered) and the most it
can take. `WriterPro.Appends` says a sink takes every byte it has room for; the lemmas below lift
that to the `Writer` operations the list calls.
-/

/-- How a sink state is read: when it is sound, the bytes it has taken, the most it can take, and
when all it has taken has gone through to its destination. -/
structure SinkView (τ : Type) where
  ok : τ → Prop
  content : τ → List UInt8
  cap : τ → Nat
  flushed : τ → Prop

namespace SinkView

variable {τ : Type}

/-- A sound state with room for `n` more bytes. -/
def Room (v : SinkView τ) (t : τ) (n : Nat) : Prop := v.ok t ∧ (v.content t).length + n ≤ v.cap t

/-- `t'` follows `t` by the bytes `bs`: it is sound, `bs` comes after what `t` had taken, and the
capacity is unchanged. -/
structure Takes (v : SinkView τ) (t : τ) (bs : List UInt8) (t' : τ) : Prop where
  ok : v.ok t'
  content : v.content t' = v.content t ++ bs
  cap : v.cap t' = v.cap t

variable {v : SinkView τ} {t t' t'' : τ} {bs cs : List UInt8}

theorem Takes.refl (h : v.ok t) : v.Takes t [] t := ⟨h, (List.append_nil _).symm, rfl⟩

theorem Takes.trans (h1 : v.Takes t bs t') (h2 : v.Takes t' cs t'') : v.Takes t (bs ++ cs) t'' :=
  ⟨h2.ok, by rw [h2.content, h1.content, List.append_assoc], h2.cap.trans h1.cap⟩

theorem Takes.congr (h : v.Takes t bs t') (he : bs = cs) : v.Takes t cs t' := he ▸ h

theorem Takes.room {n : Nat} (h : v.Takes t bs t') (hr : v.Room t (bs.length + n)) : v.Room t' n :=
  ⟨h.ok, by rw [h.content, h.cap, List.length_append]; have := hr.2; omega⟩

theorem Room.mono {m n : Nat} (hr : v.Room t n) (hmn : m ≤ n) : v.Room t m := ⟨hr.1, by have := hr.2; omega⟩

end SinkView

/-- What is left of a limited `Zero`: as many zero bytes as its count. -/
def zeroView (st : Unit × Int) : List UInt8 := List.replicate st.2.toNat 0

theorem zero_limit_read (n : Nat) {m : Int} (h : 0 < m) :
    zero.limit.read n ((), m) = (⟨List.replicate (min n m.toNat) 0, none⟩, ((), m - min n m.toNat)) := by
  simp [IoReader.limit_of_pos (show 0 < ((), m).2 from h), zero]

/-- **A limited `Zero` delivers its count of zero bytes**, all it is asked for, and never fails. -/
theorem zero_limit_delivers : zero.limit.Delivers zeroView where
  append n := fun ⟨(), m⟩ => by
    rcases le_or_lt m 0 with hN | hN
    · simp [IoReader.limit_of_nonpos (show ((), m).2 ≤ 0 from hN), zeroView, (by omega : m.toNat = 0)]
    · rw [zero_limit_read n hN]
      simp only [zeroView, ← List.replicate_add]
      congr 1; omega
  length_le n := fun ⟨(), m⟩ => by
    rcases le_or_lt m 0 with hN | hN
    · simp [IoReader.limit_of_nonpos (show ((), m).2 ≤ 0 from hN)]
    · rw [zero_limit_read n hN, List.length_replicate]; exact Nat.min_le_left _ _
  progress n := fun ⟨(), m⟩ hn hb => by
    rcases le_or_lt m 0 with hN | hN
    · simp [IoReader.limit_of_nonpos (show ((), m).2 ≤ 0 from hN)]
    · simp [zero_limit_read n hN] at hb; omega
  eof_at_end n := fun ⟨(), m⟩ he => by
    rcases le_or_lt m 0 with hN | hN
    · simp [IoReader.limit_of_nonpos (show ((), m).2 ≤ 0 from hN), zeroView, (by omega : m.toNat = 0)]
    · simp [zero_limit_read n hN] at he

theorem zero_limit_clean : zero.limit.Clean := IoReader.limit_clean fun _ _ => .inl rfl

/-- A sink that takes every byte it has room for: a non-empty write that fits succeeds in full;
`ReadFrom` of `n` zeros that fit, given more rounds than bytes, succeeds in full; `Flush` succeeds,
keeps what was taken and sends it through. -/
structure WriterPro.Appends {τ : Type} (p : WriterPro τ) (v : SinkView τ) : Prop where
  write : ∀ {b : List UInt8} {t : τ}, v.Room t b.length → 0 < b.length →
    (p.write b t).1 = ⟨b.length, none⟩ ∧ v.Takes t b (p.write b t).2
  readZeros : ∀ {n fuel : Nat} {t : τ}, v.Room t n → 0 < n → n < fuel →
    (p.readFrom zero.limit fuel ((), (n : Int)) t).1 = ((n : Int), none) ∧
      v.Takes t (List.replicate n 0) (p.readFrom zero.limit fuel ((), (n : Int)) t).2.2
  flush : ∀ {t : τ}, v.ok t →
    (p.flush t).1 = none ∧ v.Takes t [] (p.flush t).2 ∧ v.flushed (p.flush t).2

namespace Writer

variable {τ ω : Type} {p : WriterPro τ} {v : SinkView τ} {w : Writer} {t : τ}

@[simp] theorem setError_none (w : Writer) : w.setError none = w := by
  cases w; unfold setError; split <;> simp_all

/-- **Write into a sink with room**: counted in full, nothing latched. -/
theorem write_appends (h : p.Appends v) {b : List UInt8} (hw : w.err = none)
    (hr : v.Room t b.length) (hb : 0 < b.length) :
    (w.write p (some b) t).1 = ((b.length : Int), none) ∧
      (w.write p (some b) t).2.1 = { w with count := w.count + b.length } ∧
      v.Takes t b (w.write p (some b) t).2.2 := by
  obtain ⟨h1, h2⟩ := h.write hr hb
  have e : w.write p (some b) t = (((b.length : Int), none), { w with count := w.count + b.length },
      (p.write b t).2) := by
    simp [write, hw, h1]
  rw [e]
  exact ⟨rfl, rfl, h2⟩

/-- **WriteZeros into a sink with room**, on either path. -/
theorem writeZeros_appends (h : p.Appends v) {n : Nat} (hw : w.err = none) (hr : v.Room t n)
    (hn : 0 < n) :
    (w.writeZeros p n t).1 = { w with count := w.count + n } ∧
      v.Takes t (List.replicate n 0) (w.writeZeros p n t).2 := by
  unfold writeZeros
  rw [if_neg (by simp only [hw, ne_eq, not_true_eq_false, false_or]; omega)]
  split
  · obtain ⟨-, h2, h3⟩ := write_appends h (b := List.replicate n 0) hw (by simpa using hr)
      (by simpa using hn)
    simp only [Int.toNat_ofNat, List.length_replicate] at h2 h3 ⊢
    exact ⟨h2, h3⟩
  · obtain ⟨h1, h2⟩ := h.readZeros hr hn (Nat.lt_succ_self n)
    have e : copyZeros p n w t = (((n : Int), none), { w with count := w.count + n },
        (p.readFrom zero.limit (n + 1) ((), (n : Int)) t).2.2) := by
      simp [copyZeros, readFrom, hw, h1, copyNResult]
    rw [e]
    exact ⟨by simp, h2⟩

/-- **Align over a sink with room** pads the count up to `Roundup(count, n)` with zeros. -/
theorem align_appends (h : p.Appends v) {n : Int} (hw : w.err = none) (hn : 1 < n)
    (hle : w.count ≤ roundup w.count n) (hr : v.Room t (roundup w.count n - w.count).toNat) :
    (w.align p n t).1 = { w with count := roundup w.count n } ∧
      v.Takes t (List.replicate (roundup w.count n - w.count).toNat 0) (w.align p n t).2 := by
  unfold align
  rw [if_pos hn]
  rcases Nat.eq_zero_or_pos (roundup w.count n - w.count).toNat with h0 | h0
  · have he : roundup w.count n = w.count := by omega
    rw [he, Int.sub_self]
    have e : w.writeZeros p 0 t = (w, t) := by simp [writeZeros]
    rw [e]
    exact ⟨rfl, .refl hr.1⟩
  · have := writeZeros_appends h hw hr h0
    rwa [Int.toNat_of_nonneg (by omega),
      show w.count + (roundup w.count n - w.count) = roundup w.count n by omega] at this

/-- **Result over a sink with room**: the count and no error, after a flush that keeps what was
taken. -/
theorem result_appends (h : p.Appends v) (hw : w.err = none) (ht : v.ok t) :
    (w.result p t).1 = (w.count, none) ∧ (w.result p t).2.1 = w ∧ v.Takes t [] (w.result p t).2.2 := by
  unfold result flush
  split
  · exact ⟨by simp [hw], rfl, .refl ht⟩
  · obtain ⟨h1, h2, -⟩ := h.flush ht
    exact ⟨by simp [h1, hw], by simp [h1], h2⟩

/-- The outermost writer's `Result` sends everything through. -/
theorem result_flushed (h : p.Appends v) (hw : w.err = none) (hd : w.depth = 0) (ht : v.ok t) :
    v.flushed (w.result p t).2.2 := by
  unfold result flush
  rw [if_neg (by simp [hw, hd])]
  exact (h.flush ht).2.2

theorem writeFrom_of_writeTo {wt : IoWriterTo ω} {x x' : ω} {n : Int} {t' : τ} (hw : w.err = none)
    (he : wt.writeTo p.toIoWriter x t = ((n, none), x', t')) :
    w.writeFrom p (some wt) x t = (x', { w with count := w.count + n }, t') := by
  simp [writeFrom, hw, he]

end Writer

end Codec
