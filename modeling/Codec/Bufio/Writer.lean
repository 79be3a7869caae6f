import Codec.Typed.Writer

/-!
# `bufio.Writer` and the sinks of a typed `Writer`

`NewWriterSize` puts a typed `Writer` in front of one of a few `WriterPro`s: a `*BytesWriter`
itself, or a `bufio.Writer` behind `bufioWriterAdapter` (over the caller's writer, or over a
`bufio.Writer` the caller already had). This file models both.

`BufWriter` is Go's `bufio.Writer` with its buffer abstracted to the bytes it holds (`buf[:n]`)
and its capacity `size`; the writer beneath is any `io.Writer` (`IoWriter τ`), and the methods act
on the pair. The underlying writer is taken to be a plain `io.Writer`: the branches `bufio`
takes for one that is also an `io.StringWriter` or `io.ReaderFrom` are not modelled.

Over a sink that accepts every write, the pair keeps one invariant: the sink's bytes followed by
the buffered ones are everything written (`write_accepting`, `writeByte_accepting`,
`flush_accepting`, `readFrom_accepting`).
-/

namespace Codec

variable {σ τ : Type}

/-- Go's `bufio.Writer`: `len(buf)`, the buffered bytes `buf[:n]`, and the sticky error. -/
structure BufWriter where
  size : Nat
  buf : List UInt8
  err : Option GoErr
  deriving DecidableEq, Repr

namespace BufWriter

variable (wr : IoWriter τ)

/-- Go's `bufio.NewWriterSize(w, size)` for a `w` that is not already a large enough
`bufio.Writer`: a non-positive size means the default 4096. -/
def new (size : Int) : BufWriter := ⟨if size ≤ 0 then 4096 else size.toNat, [], none⟩

/-- Go's `Available()`. -/
def available (b : BufWriter) : Nat := b.size - b.buf.length

/-- Go's `Flush()`: write the buffer; a short write keeps what was not taken. -/
def flush (b : BufWriter) (t : τ) : Option GoErr × BufWriter × τ :=
  if b.err ≠ none then (b.err, b, t)
  else if b.buf = [] then (none, b, t)
  else
    let o := wr.write b.buf t
    match (if o.1.n < b.buf.length ∧ o.1.err = none then some .shortWrite else o.1.err) with
    | some e => (some e, { b with buf := b.buf.drop o.1.n.toNat, err := some e }, o.2)
    | none => (none, { b with buf := [] }, o.2)

/-- The rounds of Go's `Write(p)` while `p` does not fit: a direct write of `p` when the buffer
is empty, otherwise fill the buffer and flush; then copy what is left. `nn` counts the bytes
taken. -/
def writeLoop : Nat → List UInt8 → Nat → BufWriter → τ → (Nat × Option GoErr) × BufWriter × τ
  | fuel + 1, p, nn, b, t =>
    if b.available < p.length ∧ b.err = none then
      if b.buf = [] then
        let o := wr.write p t
        writeLoop fuel (p.drop o.1.n.toNat) (nn + o.1.n.toNat) { b with err := o.1.err } o.2
      else
        let f := flush wr { b with buf := b.buf ++ p.take b.available } t
        writeLoop fuel (p.drop b.available) (nn + b.available) f.2.1 f.2.2
    else if b.err ≠ none then ((nn, b.err), b, t)
    else ((nn + p.length, none), { b with buf := b.buf ++ p }, t)
  | 0, p, nn, b, t =>
    if b.err ≠ none then ((nn, b.err), b, t)
    else ((nn + min p.length b.available, none), { b with buf := b.buf ++ p.take b.available }, t)

/-- Go's `Write(p)`. Over a writer that meets `io.Writer`'s contract the loop ends within two
rounds; the model allows `|p| + 2`, enough for one that takes a byte a call. -/
def write (p : List UInt8) (b : BufWriter) (t : τ) : (Nat × Option GoErr) × BufWriter × τ :=
  writeLoop wr (p.length + 2) p 0 b t

/-- The rounds of Go's `WriteString(s)` over a writer that is no `io.StringWriter`: fill the
buffer and flush while `s` does not fit, then copy what is left. -/
def writeStringLoop : Nat → List UInt8 → Nat → BufWriter → τ →
    (Nat × Option GoErr) × BufWriter × τ
  | fuel + 1, s, nn, b, t =>
    if b.available < s.length ∧ b.err = none then
      let f := flush wr { b with buf := b.buf ++ s.take b.available } t
      writeStringLoop fuel (s.drop b.available) (nn + b.available) f.2.1 f.2.2
    else if b.err ≠ none then ((nn, b.err), b, t)
    else ((nn + s.length, none), { b with buf := b.buf ++ s }, t)
  | 0, s, nn, b, t =>
    if b.err ≠ none then ((nn, b.err), b, t)
    else ((nn + min s.length b.available, none), { b with buf := b.buf ++ s.take b.available }, t)

/-- Go's `WriteString(s)`: each round fills the buffer, so `|s| + 2` rounds are enough. -/
def writeString (s : List UInt8) (b : BufWriter) (t : τ) : (Nat × Option GoErr) × BufWriter × τ :=
  writeStringLoop wr (s.length + 2) s 0 b t

/-- Go's `WriteByte(c)`: flush first if the buffer is full. -/
def writeByte (c : UInt8) (b : BufWriter) (t : τ) : Option GoErr × BufWriter × τ :=
  if b.err ≠ none then (b.err, b, t)
  else if b.available = 0 then
    let f := flush wr b t
    if f.1 ≠ none then (f.2.1.err, f.2.1, f.2.2)
    else (none, { f.2.1 with buf := f.2.1.buf ++ [c] }, f.2.2)
  else (none, { b with buf := b.buf ++ [c] }, t)

/-- The inner loop of Go's `ReadFrom`: up to `maxConsecutiveEmptyReads` reads into the free
space, until one returns bytes or an error; `none` when all came back empty. -/
def readSome (r : IoReader σ) (avail : Nat) : Nat → σ → Option Got × σ
  | 0, s => (none, s)
  | i + 1, s =>
    let g := r.read avail s
    if g.1.bytes ≠ [] ∨ g.1.err ≠ none then (some g.1, g.2) else readSome r avail i g.2

/-- The rounds of Go's `ReadFrom(r)` into a plain writer: flush a full buffer, read into the free
space, stop at the first error; `io.EOF` ends cleanly, flushing a buffer it left full. -/
def readFromLoop (r : IoReader σ) : Nat → Int → BufWriter → σ → τ →
    (Int × Option GoErr) × BufWriter × σ × τ
  | 0, n, b, s, t => ((n, none), b, s, t)
  | fuel + 1, n, b, s, t =>
    let f : Option GoErr × BufWriter × τ := if b.available = 0 then flush wr b t else (none, b, t)
    match f.1 with
    | some e => ((n, some e), f.2.1, s, f.2.2)
    | none =>
      let o := readSome r f.2.1.available 100 s
      match o.1 with
      | none => ((n, some .noProgress), f.2.1, o.2, f.2.2)
      | some g =>
        let b' := { f.2.1 with buf := f.2.1.buf ++ g.bytes }
        if g.err = none then readFromLoop r fuel (n + g.bytes.length) b' o.2 f.2.2
        else if g.err = some .eof then
          if b'.available = 0 then
            let f' := flush wr b' f.2.2
            ((n + g.bytes.length, f'.1), f'.2.1, o.2, f'.2.2)
          else ((n + g.bytes.length, none), b', o.2, f.2.2)
        else ((n + g.bytes.length, g.err), b', o.2, f.2.2)

/-- Go's `ReadFrom(r)`, with `fuel` rounds. -/
def readFrom (r : IoReader σ) (fuel : Nat) (s : σ) (b : BufWriter) (t : τ) :
    (Int × Option GoErr) × BufWriter × σ × τ :=
  if b.err ≠ none then ((0, b.err), b, s, t) else readFromLoop wr r fuel 0 b s t

/-! ## Over a sink that accepts everything -/

/-- A `bufio.Writer` over a sink that accepts everything, read as a sink: sound while no error is
latched, its buffer has a positive size and the sink keeps accepting; it has taken the sink's bytes
followed by the buffered ones, any capacity `M` may be read into it, and it has sent everything
through once its buffer is empty. -/
def acceptingView (M : Nat) : SinkView (BufWriter × Sink) where
  ok st := st.1.err = none ∧ 0 < st.1.size ∧ st.2.plan = []
  content st := st.2.out ++ st.1.buf
  cap _ := M
  flushed st := st.1.buf = []

section Accepting

variable {M : Nat} {b : BufWriter} {p : List UInt8} {out : List UInt8}

theorem exists_accepting {t : Sink} (h : t.plan = []) : ∃ out, t = Sink.accepting out :=
  ⟨t.out, by cases t; simp_all [Sink.accepting]⟩

/-- Bytes put in the buffer are taken. -/
theorem append_takes (hok : (acceptingView M).ok (b, Sink.accepting out)) (p : List UInt8) :
    (acceptingView M).Takes (b, Sink.accepting out) p ({ b with buf := b.buf ++ p }, Sink.accepting out) :=
  ⟨hok, by simp [acceptingView], rfl⟩

/-- Bytes handed to the sink, the buffer left empty, are taken. -/
theorem drain_takes (hok : (acceptingView M).ok (b, Sink.accepting out)) (he : b.buf = [])
    (p : List UInt8) :
    (acceptingView M).Takes (b, Sink.accepting out) p (b, Sink.accepting (out ++ p)) :=
  ⟨hok, by simp [acceptingView, Sink.accepting, he], rfl⟩

/-- **Flush into a sink that accepts everything** hands it the whole buffer. -/
theorem flush_accepting (hb : b.err = none) (out : List UInt8) :
    flush Sink.writer b (Sink.accepting out) = (none, { b with buf := [] }, Sink.accepting (out ++ b.buf)) := by
  by_cases he : b.buf = []
  · obtain ⟨size, buf, err⟩ := b
    simp only at he hb
    subst he hb
    simp [flush]
  · simp [flush, hb, he]

/-- Writes that fit the buffer only fill it. -/
theorem writeLoop_fits {τ : Type} (wr : IoWriter τ) (hb : b.err = none) (hp : p.length ≤ b.available)
    (fuel nn : Nat) (t : τ) :
    writeLoop wr fuel p nn b t = ((nn + p.length, none), { b with buf := b.buf ++ p }, t) := by
  cases fuel <;> simp [writeLoop, hb, not_lt.mpr hp, Nat.min_eq_left hp, List.take_of_length_le hp]

/-- A write that does not fit an empty buffer goes straight to the sink. -/
theorem writeLoop_direct (hb : b.err = none) (he : b.buf = []) (hlt : b.available < p.length)
    (fuel nn : Nat) :
    writeLoop Sink.writer (fuel + 1) p nn b (Sink.accepting out) =
      ((nn + p.length, none), b, Sink.accepting (out ++ p)) := by
  rw [writeLoop, if_pos ⟨hlt, hb⟩, if_pos he]
  simp only [Sink.writer_write, Sink.write_accepting, Int.toNat_ofNat, List.drop_length]
  rw [writeLoop_fits]
  · obtain ⟨size, buf, err⟩ := b
    simp_all
  · rfl
  · exact Nat.zero_le _

/-- **Write into a sink that accepts everything**: within the rounds `Write` is given, all of
`p` is taken, in order after what was there. -/
theorem writeLoop_accepting {t : Sink} (hok : (acceptingView M).ok (b, t)) (p : List UInt8)
    (nn f : Nat) :
    (writeLoop Sink.writer (f + 2) p nn b t).1 = (nn + p.length, none) ∧
      (acceptingView M).Takes (b, t) p (writeLoop Sink.writer (f + 2) p nn b t).2 := by
  obtain ⟨out, rfl⟩ := exists_accepting hok.2.2
  have hb : b.err = none := hok.1
  by_cases hfit : p.length ≤ b.available
  · rw [writeLoop_fits _ hb hfit]
    exact ⟨rfl, append_takes hok p⟩
  by_cases he : b.buf = []
  · rw [writeLoop_direct hb he (by omega)]
    exact ⟨rfl, drain_takes hok he p⟩
  -- fill the buffer and flush it; the rest then fits, or goes straight to the sink
  have hav : b.available < p.length := by omega
  rw [writeLoop, if_pos ⟨hav, hb⟩, if_neg he]
  simp only [flush_accepting, hb]
  have hlen : b.available + (p.drop b.available).length = p.length := by simp; omega
  have hcontent : out ++ (b.buf ++ p.take b.available) ++ p.drop b.available = out ++ b.buf ++ p := by
    simp only [List.append_assoc, List.take_append_drop]
  have hok1 : (acceptingView M).ok (⟨b.size, [], none⟩, Sink.accepting out) := ⟨rfl, hok.2.1, rfl⟩
  by_cases hfit1 : (p.drop b.available).length ≤ (⟨b.size, [], none⟩ : BufWriter).available
  · rw [writeLoop_fits (b := ⟨b.size, [], none⟩) _ rfl hfit1]
    refine ⟨by simp only [Prod.mk.injEq, and_true]; omega, ⟨hok1, ?_, rfl⟩⟩
    simp [acceptingView, Sink.accepting, ← hcontent]
  · rw [writeLoop_direct (b := ⟨b.size, [], none⟩) rfl rfl (by omega)]
    refine ⟨by simp only [Prod.mk.injEq, and_true]; omega, ⟨hok1, ?_, rfl⟩⟩
    simp [acceptingView, Sink.accepting, ← hcontent]

section ReadFrom

variable {σ : Type} {r : IoReader σ} {view : σ → List UInt8}

/-- On a reader that makes progress, the first of the empty-read retries already returns. -/
theorem readSome_progress (h : r.Delivers view) {avail : Nat} (ha : 0 < avail) (i : Nat) (s : σ) :
    readSome r avail (i + 1) s = (some (r.read avail s).1, (r.read avail s).2) := by
  have : (r.read avail s).1.bytes ≠ [] ∨ (r.read avail s).1.err ≠ none := by
    by_cases hb : (r.read avail s).1.bytes = []
    · exact .inr (h.progress avail s ha hb)
    · exact .inl hb
  simp only [readSome, if_pos this]

/-- A round that finds the buffer full flushes it, then goes on as from the emptied buffer. -/
theorem readFromLoop_full (hb : b.err = none) (hs : 0 < b.size) (hfull : b.available = 0)
    (fuel : Nat) (n : Int) (s : σ) :
    readFromLoop Sink.writer r (fuel + 1) n b s (Sink.accepting out) =
      readFromLoop Sink.writer r (fuel + 1) n { b with buf := [] } s (Sink.accepting (out ++ b.buf)) := by
  have ha : ({ b with buf := [] } : BufWriter).available ≠ 0 := by simp [available]; omega
  rw [readFromLoop, readFromLoop, if_pos hfull, if_neg ha, flush_accepting hb]

/-- One round with room in the buffer: one read into it, then on, or stop at its error. -/
theorem readFromLoop_round (h : r.Delivers view) (hb : b.err = none) (ha : 0 < b.available)
    (fuel : Nat) (n : Int) (s : σ) :
    readFromLoop Sink.writer r (fuel + 1) n b s (Sink.accepting out) =
      let g := r.read b.available s
      let b' : BufWriter := { b with buf := b.buf ++ g.1.bytes }
      if g.1.err = none then
        readFromLoop Sink.writer r fuel (n + g.1.bytes.length) b' g.2 (Sink.accepting out)
      else if g.1.err = some .eof then
        if b'.available = 0 then
          ((n + g.1.bytes.length, none), { b' with buf := [] }, g.2, Sink.accepting (out ++ b'.buf))
        else ((n + g.1.bytes.length, none), b', g.2, Sink.accepting out)
      else ((n + g.1.bytes.length, g.1.err), b', g.2, Sink.accepting out) := by
  rw [readFromLoop, if_neg (by omega)]
  simp only [readSome_progress h ha, flush_accepting hb]
  split_ifs <;> simp_all [flush_accepting]

/-- **ReadFrom into a sink that accepts everything**: given more rounds than the reader has
bytes, all of them are taken, in order, and the count is theirs. -/
theorem readFromLoop_accepting (h : r.Delivers view) (hc : r.Clean) :
    ∀ (fuel : Nat) (n : Int) (b : BufWriter) (s : σ) (out : List UInt8),
      (acceptingView M).ok (b, Sink.accepting out) → (view s).length < fuel →
      (readFromLoop Sink.writer r fuel n b s (Sink.accepting out)).1 = (n + (view s).length, none) ∧
        (acceptingView M).Takes (b, Sink.accepting out) (view s)
          ((readFromLoop Sink.writer r fuel n b s (Sink.accepting out)).2.1,
            (readFromLoop Sink.writer r fuel n b s (Sink.accepting out)).2.2.2)
  | 0, _, _, _, _, _, hf => absurd hf (Nat.not_lt_zero _)
  | fuel + 1, n, b, s, out, hok, hf => by
    -- a full buffer is flushed first
    obtain ⟨b1, out1, e1, hok1, ha1, ht1⟩ : ∃ b1 out1,
        readFromLoop Sink.writer r (fuel + 1) n b s (Sink.accepting out) =
          readFromLoop Sink.writer r (fuel + 1) n b1 s (Sink.accepting out1) ∧
        (acceptingView M).ok (b1, Sink.accepting out1) ∧ 0 < b1.available ∧
        (acceptingView M).Takes (b, Sink.accepting out) [] (b1, Sink.accepting out1) := by
      by_cases hfull : b.available = 0
      · refine ⟨_, _, readFromLoop_full hok.1 hok.2.1 hfull fuel n s, ⟨hok.1, hok.2.1, rfl⟩,
          by simpa [available] using hok.2.1, ⟨⟨hok.1, hok.2.1, rfl⟩, ?_, rfl⟩⟩
        simp [acceptingView, Sink.accepting]
      · exact ⟨b, out, rfl, hok, by omega, .refl hok⟩
    rw [e1, readFromLoop_round h hok1.1 ha1]
    have happ := h.append b1.available s
    rcases hc b1.available s with herr | herr
    · -- bytes and no error: take them and go on
      have hne : (r.read b1.available s).1.bytes ≠ [] := fun hnil =>
        h.progress _ _ ha1 hnil herr
      have hlen := h.length_view b1.available s
      have hpos : 0 < (r.read b1.available s).1.bytes.length := List.length_pos.mpr hne
      simp only [herr, if_true]
      obtain ⟨ih1, ih2⟩ := readFromLoop_accepting h hc fuel
        (n + (r.read b1.available s).1.bytes.length)
        { b1 with buf := b1.buf ++ (r.read b1.available s).1.bytes } (r.read b1.available s).2 out1
        ⟨hok1.1, hok1.2.1, rfl⟩ (by omega)
      refine ⟨by rw [ih1]; simp only [Prod.mk.injEq, and_true]; omega,
        ((ht1.trans (append_takes hok1 _)).trans ih2).congr (by simp [happ])⟩
    · -- io.EOF: everything has arrived
      have hend := h.eof_at_end _ _ herr
      have hall : (r.read b1.available s).1.bytes = view s := by simpa [hend] using happ
      simp only [herr, if_false, if_true, reduceCtorEq]
      split
      · refine ⟨by simp [hall], (ht1.trans ?_).congr (List.nil_append _)⟩
        exact ⟨⟨hok1.1, hok1.2.1, rfl⟩, by simp [acceptingView, Sink.accepting, hall], rfl⟩
      · exact ⟨by simp [hall], (ht1.trans (append_takes hok1 _)).congr (by simp [hall])⟩

/-- **ReadFrom into a sink that accepts everything** takes all the reader's bytes. -/
theorem readFrom_accepting (h : r.Delivers view) (hc : r.Clean) {t : Sink}
    (hok : (acceptingView M).ok (b, t)) {fuel : Nat} {s : σ} (hf : (view s).length < fuel) :
    (readFrom Sink.writer r fuel s b t).1 = (((view s).length : Int), none) ∧
      (acceptingView M).Takes (b, t) (view s)
        ((readFrom Sink.writer r fuel s b t).2.1, (readFrom Sink.writer r fuel s b t).2.2.2) := by
  obtain ⟨out, rfl⟩ := exists_accepting hok.2.2
  have hb : b.err = none := hok.1
  simp only [readFrom, hb, ne_eq, not_true_eq_false, if_false]
  simpa using readFromLoop_accepting h hc fuel 0 b s out hok hf

end ReadFrom

end Accepting

/-- Go's `bufioWriterAdapter`: the `bufio.Writer` and the writer beneath it, as a `WriterPro`. -/
def pro : WriterPro (BufWriter × τ) where
  write p st := let o := write wr p st.1 st.2; (⟨o.1.1, o.1.2⟩, o.2)
  writeString s st := let o := writeString wr s st.1 st.2; (⟨o.1.1, o.1.2⟩, o.2)
  writeByte c st := writeByte wr c st.1 st.2
  readFrom r fuel s st := let o := readFrom wr r fuel s st.1 st.2; (o.1, o.2.2.1, o.2.1, o.2.2.2)
  size st := st.1.size
  flush st := flush wr st.1 st.2

/-- **A `bufio.Writer` over a sink that accepts everything takes every byte**, through `Write`,
`ReadFrom` and `Flush` alike. -/
theorem pro_appends (M : Nat) : (pro Sink.writer).Appends (acceptingView M) where
  write {p st} hr _ := by
    obtain ⟨h1, h2⟩ := writeLoop_accepting hr.1 p 0 p.length
    exact ⟨by simp [pro, write, h1], by simpa [pro, write] using h2⟩
  readZeros {n fuel st} hr _ hf := by
    obtain ⟨h1, h2⟩ := readFrom_accepting zero_limit_delivers zero_limit_clean hr.1
      (show (zeroView ((), (n : Int))).length < fuel by simpa [zeroView] using hf)
    exact ⟨by simpa [pro, zeroView] using h1, by simpa [pro, zeroView] using h2⟩
  flush {st} hok := by
    obtain ⟨out, hout⟩ := exists_accepting hok.2.2
    have e : (pro Sink.writer).flush st =
        (none, { st.1 with buf := [] }, Sink.accepting (out ++ st.1.buf)) := by
      simp only [pro, hout, flush_accepting hok.1]
    rw [e]
    exact ⟨rfl, ⟨⟨hok.1, hok.2.1, rfl⟩, by simp [acceptingView, hout, Sink.accepting], rfl⟩, rfl⟩

end BufWriter

namespace BytesWriter

/-- Go's `ReadFrom(r)` on a `BytesWriter`: one read into the free space; `io.EOF` is success. -/
def readFrom (r : IoReader σ) (w : BytesWriter) (s : σ) : (Int × Option GoErr) × BytesWriter × σ :=
  if w.b.length ≤ w.n then ((0, some .shortWrite), w, s)
  else
    let g := r.read (w.b.length - w.n) s
    ((g.1.bytes.length, if g.1.err = some .eof then none else g.1.err), w.put g.1.bytes, g.2)

/-- Go's `WriteString(s)`: the body of `Write` on the string's bytes. -/
def writeString (str : List UInt8) (w : BytesWriter) : Wrote × BytesWriter := write str w

/-- Go's `WriteZeros(n)`: copy from the zero page up to `BUFFER_SIZE`; beyond, `io.CopyN(w, Zero,
n)`, which `io.Copy` hands to `ReadFrom`. (For `n < 0` Go's `empty[:n]` panics; the model takes
`n : Nat`.) -/
def writeZeros (n : Nat) (w : BytesWriter) : (Int × Option GoErr) × BytesWriter :=
  if w.b.length ≤ w.n then ((0, some .shortWrite), w)
  else if n ≤ bufferSize then
    let k := min n (w.b.length - w.n)
    ((k, if k < n then some .shortWrite else none), w.put (List.replicate n 0))
  else
    let o := readFrom zero.limit w ((), (n : Int))
    (copyNResult n o.1.1 o.1.2, o.2.1)

/-- Go's `Reset()`. -/
def reset (w : BytesWriter) : BytesWriter := { w with n := 0 }

/-- **The slice writer breaks its contract in three places.** A one-byte slice, full after
writing `5`: `Write` of nothing returns `io.ErrShortWrite`, though nothing was cut. A ten-byte
slice: `WriteZeros(5000)` copies ten zeros and returns `io.EOF`, not `io.ErrShortWrite`. A
four-byte slice and a reader handing over `[1, 2]` one byte per read: `ReadFrom` makes one read,
copies `[1]` and returns `(1, nil)`, though all of it fits. -/
theorem bytesWriter_contract_breaks :
    (new [0]).write [5] = (⟨1, none⟩, ⟨[5], 1⟩) ∧
      (⟨[5], 1⟩ : BytesWriter).write [] = (⟨0, some .shortWrite⟩, ⟨[5], 1⟩) ∧
      ((new (List.replicate 10 0)).writeZeros 5000).1 = (10, some .eof) ∧
      (readFrom Source.reader (new [0, 0, 0, 0]) ⟨[1, 2], 0, [⟨1, false, none⟩]⟩).1 = (1, none) ∧
      (readFrom Source.reader (new [0, 0, 0, 0]) ⟨[1, 2], 0, [⟨1, false, none⟩]⟩).2.1.bytes = [1] := by
  decide

/-- A `*BytesWriter` as a `WriterPro`: its `WriteString` is its `Write`, and its `ReadFrom` makes
one read. -/
def pro : WriterPro BytesWriter where
  write := write
  writeString := write
  writeByte := writeByte
  readFrom r _ s w := let o := readFrom r w s; (o.1, o.2.2, o.2.1)
  size w := w.b.length
  flush := flush

/-- A `BytesWriter` read as a sink: sound while its position is inside its slice; it has taken
the bytes before the position, and can take as many as its slice holds. -/
def sinkView : SinkView BytesWriter :=
  ⟨fun w => w.n ≤ w.b.length, bytes, fun w => w.b.length, fun _ => True⟩

theorem length_bytes {w : BytesWriter} (h : w.n ≤ w.b.length) : w.bytes.length = w.n := by
  simp [bytes, h]

/-- **A `BytesWriter` takes every byte it has room for.** -/
theorem pro_appends : pro.Appends sinkView where
  write {p w} hr hp := by
    have hlen := length_bytes hr.1
    have hr2 : w.bytes.length + p.length ≤ w.b.length := hr.2
    obtain ⟨h1, h2, h3, h4⟩ := write_fits (p := p) (w := w) (by omega) (by omega)
    exact ⟨h1, ⟨show (w.write p).2.n ≤ (w.write p).2.b.length by omega, h2, h4⟩⟩
  readZeros {n fuel w} hr hn _ := by
    have hlen := length_bytes hr.1
    have hr2 : w.bytes.length + n ≤ w.b.length := hr.2
    have hmin : min (w.b.length - w.n) n = n := Nat.min_eq_right (by omega)
    have e : pro.readFrom zero.limit fuel ((), (n : Int)) w =
        (((n : Int), none), ((), (n : Int) - n), w.put (List.replicate n 0)) := by
      simp [pro, readFrom, show ¬ w.b.length ≤ w.n by omega, zero_limit_read _ (Int.ofNat_pos.mpr hn : (0 : Int) < n), hmin]
    rw [e]
    refine ⟨rfl, ⟨show (w.put _).n ≤ (w.put _).b.length by simp [put_length w _ hr.1]; omega,
      put_bytes w _ hr.1 (by simp; omega), put_length w _ hr.1⟩⟩
  flush hok := ⟨rfl, .refl hok, trivial⟩

end BytesWriter

end Codec
